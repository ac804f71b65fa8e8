import Chord.Fs.Fetch
import Chord.Fs.Wire

/-!
# Getting a directory (`Facade::get`)

A listing has `..` among its records, and the loop over the records returns at the first one that
it follows.
-/

namespace Chord

namespace Fs

namespace Facade

open PathString Ecma

/-! ## Trees -/

/-- The records of a directory, as a put leaves them. -/
structure Listing (s : MetaSet) : Prop where
  ordered : s.Ordered
  dot : ∃ m ∈ s, m.name = ['.'] ∧ m.file_type = .directory
  dot_dot : ∃ m ∈ s, m.name = ['.', '.'] ∧ m.file_type = .directory
  names : ∀ m ∈ s, m.name = ['.'] ∨ m.name = ['.', '.'] ∨ Plain m.name

/-- The directories from `d` down. -/
inductive Dir (c : Remote) (d : List Name) : List Name → Prop
  | root : Dir c d d
  | child {l : List Name} {s : MetaSet} {m : Metadata} (parent : Dir c d l)
      (listed : c.meta_dir (text true l) = (.OK, s)) (mem : m ∈ s) (directory : m.file_type = .directory)
      (named : Plain m.name) : Dir c d (l ++ [m.name])

/-- A regular file of the directory `l` below `d`. -/
def HasFile (c : Remote) (d l : List Name) (n : Name) : Prop :=
  Dir c d l ∧ ∃ s, c.meta_dir (text true l) = (.OK, s) ∧ ∃ m ∈ s, m.file_type = .regular ∧ m.name = n

structure Stored (c : Remote) (d : List Name) : Prop where
  names : ∀ n ∈ d, Plain n
  listed : ∀ l, Dir c d l → ∃ s, c.meta_dir (text true l) = (.OK, s) ∧ Listing s

/-- The relative place below a local path. -/
def place (target : PathString) (r : List Name) : PathString := r.foldl div target

/-- Every file of the tree once, at its place, and nothing outside the target. -/
structure Whole (c : Remote) (d : List Name) (target : PathString) (downloads : List Download) : Prop where
  each : ∀ l n, HasFile c d l n →
    (downloads.filter fun x => x.source = text true (l ++ [n])).map Download.target =
      [place target ((l ++ [n]).drop d.length)]
  inside : ∀ x ∈ downloads, Inside target x.target ∧ ∀ p ∈ x.made, Inside target p

/-- `get` ends, and with `OK` it has the whole tree. -/
def Fetches (c : Remote) (d : List Name) (target : PathString) : Prop :=
  ∃ fuel r, get c fuel (text true d) target = some r ∧
    (r.outcome = .returned .OK → Whole c d target r.downloads)

/-- `get` ends with something else than `OK`. -/
def Fails (c : Remote) (d : List Name) (target : PathString) : Prop :=
  ∃ fuel r, get c fuel (text true d) target = some r ∧ r.outcome ≠ .returned .OK

/-! ## The way to one file -/

/-- `get` goes past the record. -/
def Skipped (l : List Name) (m : Metadata) : Prop :=
  (minus (text true l) m.name).isSome ∧ m.file_type ≠ .regular ∧ (m.file_type = .directory → m.name = ['.'])

/-- The name, read as a regular expression, matches nowhere in the path of its directory. -/
def Absent (l : List Name) (n : Name) : Prop :=
  ∃ pattern, parse n = some pattern ∧ Silent pattern [] (text true l)

/-- The first record that is not `.` is the file, or a directory that leads to it, and the local
directory for the file is there. -/
inductive Leads (c : Remote) : List Name → PathString → List Name → Prop
  | file {l : List Name} {target : PathString} {skipped rest : MetaSet} {m : Metadata}
      (listed : c.meta_dir (text true l) = (.OK, skipped ++ m :: rest)) (before : ∀ x ∈ skipped, Skipped l x)
      (named : Plain m.name) (absent : Absent l m.name) (regular : m.file_type = .regular)
      (present : c.exists_at target) (room : HasRoom c (div target m.name))
      (answered : c.get (text true (l ++ [m.name])) (div target m.name) = some .OK) : Leads c l target
        [m.name]
  | down {l ks : List Name} {target : PathString} {skipped rest : MetaSet} {m : Metadata}
      (listed : c.meta_dir (text true l) = (.OK, skipped ++ m :: rest)) (before : ∀ x ∈ skipped, Skipped l x)
      (named : Plain m.name) (absent : Absent l m.name) (directory : m.file_type = .directory)
      (below : Leads c (l ++ [m.name]) (div target m.name) ks) : Leads c l target (m.name :: ks)

/-- The first records lead to a file, and it is the only one of the tree. -/
def Straight (c : Remote) (d : List Name) (target : PathString) : Prop :=
  ∃ ks, Leads c d target ks ∧ ∀ l n, HasFile c d l n → l ++ [n] = d ++ ks

/-- No name of the tree is a pattern, or is found in the path of its directory. -/
def Clean (c : Remote) (d : List Name) : Prop :=
  ∀ l s, Dir c d l → c.meta_dir (text true l) = (.OK, s) → ∀ m ∈ s, Plain m.name →
    Literal m.name ∧ occurs m.name (text true l) = false

section

variable {c : Remote} {d l ks : List Name} {n : Name} {target : PathString}

/-! ## The uri of a record -/

theorem minus_absent (hl : ∀ m ∈ l, Plain m) (hn : Plain n) (h : Absent l n) :
    minus (text true l) n = some (text true l) := by
  obtain ⟨pattern, hparse, hsilent⟩ := h
  have hremove : remove pattern (text true l) = text true l := remove_from_silent hsilent (Nat.lt_succ_self _)
  rw [minus_plain hn, hparse, Option.map_some, canonical_text hl, hremove, canonical_text hl]

theorem absent_literal (hn : Plain n) (hliteral : Literal n) :
    Absent l n ↔ occurs n (text true l) = false := by
  rw [Absent, parse_literal hliteral]
  constructor
  · rintro ⟨pattern, hpattern, hsilent⟩
    rw [← Option.some.inj hpattern, silent_literal hn.1] at hsilent
    exact hsilent
  · intro h
    exact ⟨literal n, rfl, (silent_literal hn.1).mpr h⟩

theorem relative_name (hn : Plain n) : relative_path n = n := by
  obtain ⟨hne, hslash, -⟩ := hn
  obtain ⟨e, n, rfl⟩ := List.exists_cons_of_ne_nil hne
  have he : e ≠ '/' := fun heq => hslash (by rw [heq]; exact List.mem_cons_self)
  exact List.dropWhile_cons_of_neg (by simpa using he)

theorem div_text_name (hl : ∀ m ∈ l, Plain m) (hn : Plain n) :
    div (text true l) n = text true (l ++ [n]) := by
  rw [div, relative_name hn, append_text hl hn]

/-! ## Places -/

theorem components_place (hks : ∀ k ∈ ks, Plain k) (target : PathString) :
    (place target ks).components = target.components ++ ks ∧ (place target ks).root = target.root := by
  induction ks generalizing target with
  | nil => exact ⟨(List.append_nil _).symm, rfl⟩
  | cons k ks ih =>
    obtain ⟨hk, hks⟩ := List.forall_mem_cons.mp hks
    obtain ⟨hcomponents, hroot⟩ := ih hks (div target k)
    rw [components_div, components_name hk.1 hk.2.1, List.append_assoc, List.singleton_append] at hcomponents
    rw [root_div] at hroot
    exact ⟨hcomponents, hroot⟩

theorem has_filename_div (hn : Plain n) (p : PathString) : has_filename (div p n) := by
  have hfile := has_filename_append_text (List.forall_mem_singleton.mpr hn) (List.cons_ne_nil n []) p
  rwa [text_singleton, ← relative_name hn] at hfile

/-- A place below the target and the directory it is in are inside. -/
theorem inside_place (hks : ∀ k ∈ ks, Plain k) (hn : Plain n) (target : PathString) :
    Inside target (place target (ks ++ [n])) ∧ Inside target (place target (ks ++ [n])).parent_path := by
  have hdots : ∀ js : List Name, (∀ j ∈ js, Plain j) → ['.', '.'] ∉ js := fun js hjs hmem =>
    (hjs _ hmem).2.2.2 rfl
  have hall := plain_concat hks hn
  obtain ⟨hcomponents, hroot⟩ := components_place hall target
  have hfile : has_filename (place target (ks ++ [n])) := by
    rw [place, List.foldl_append, List.foldl_cons, List.foldl_nil]
    exact has_filename_div hn _
  obtain ⟨hparent, habs⟩ := components_parent hfile
  rw [hcomponents, ← List.append_assoc] at hparent
  refine ⟨inside_of_components hroot hcomponents (hdots _ hall), ?_⟩
  exact inside_of_components ((root_eq_iff.mpr habs).trans hroot) (List.append_inj_left' hparent rfl).symm
    (hdots _ hks)

/-! ## The whole tree -/

theorem get_records_skipped {g : PathString → PathString → Option Result} {skipped rest : MetaSet}
    (hl : ∀ m ∈ l, Plain m) (h : ∀ x ∈ skipped, Skipped l x) :
    get_records c g (text true l) target (skipped ++ rest) = get_records c g (text true l) target rest := by
  induction skipped with
  | nil => rfl
  | cons x skipped ih =>
    obtain ⟨⟨hsome, hregular, hdirectory⟩, hskipped⟩ := List.forall_mem_cons.mp h
    obtain ⟨p, hp⟩ := Option.isSome_iff_exists.mp hsome
    rw [List.cons_append, get_records, canonical_text hl, hp]
    dsimp only
    rw [if_neg hregular, if_neg fun hdir => hdir.2 (hdirectory hdir.1)]
    exact ih hskipped

/-- What `get` does with the first record that it follows. -/
theorem get_listed {fuel : Nat} {skipped rest : MetaSet} {m : Metadata} (hl : ∀ n ∈ l, Plain n)
    (hlisted : c.meta_dir (text true l) = (.OK, skipped ++ m :: rest)) (hskipped : ∀ x ∈ skipped, Skipped l x)
    (hm : Plain m.name) (habsent : Absent l m.name)
    (hkind : m.file_type = .regular ∨ m.file_type = .directory) :
    get c (fuel + 1) (text true l) target =
      if m.file_type = .regular then some
        (get_file c (text true (l ++ [m.name])) (local_path c target m.name))
      else get c fuel (text true (l ++ [m.name])) (div target m.name) := by
  rw [get, hlisted]
  dsimp only
  rw [if_neg (by simp), get_records_skipped hl hskipped, get_records, canonical_text hl,
    minus_absent hl hm habsent]
  dsimp only
  rw [div_text_name hl hm]
  rcases hkind with hregular | hdirectory
  · rw [if_pos hregular, if_pos hregular, local_path]
  · have hne : m.file_type ≠ .regular := by simp [hdirectory]
    rw [if_neg hne, if_neg hne, if_pos ⟨hdirectory, hm.2.2.1⟩]

/-- From the record of the directory above `get` goes on to that directory. -/
theorem get_listed_dots {fuel : Nat} {skipped rest : MetaSet} {m : Metadata} (hl : ∀ n ∈ l, Plain n)
    (hlisted : c.meta_dir (text true l) = (.OK, skipped ++ m :: rest)) (hskipped : ∀ x ∈ skipped, Skipped l x)
    (hm : m.name = ['.', '.']) (hdirectory : m.file_type = .directory) :
    get c (fuel + 1) (text true l) target =
      get c fuel (div (text true l) ['.', '.']) (div target ['.', '.']) := by
  have hminus : minus (text true l) ['.', '.'] = some (text true l) := by
    rw [minus, if_pos (Or.inl (by decide)), canonical_text hl]
  rw [get, hlisted]
  dsimp only
  rw [if_neg (by simp), get_records_skipped hl hskipped, get_records, canonical_text hl, hm, hminus]
  dsimp only
  rw [if_neg (by simp [hdirectory]), if_pos ⟨hdirectory, by decide⟩]

theorem Leads.plain (h : Leads c l target ks) : ∃ js n, ks = js ++ [n] ∧ (∀ j ∈ js, Plain j) ∧ Plain n := by
  induction h with
  | file _ _ named => exact ⟨[], _, rfl, by simp, named⟩
  | down _ _ named _ _ _ ih =>
    obtain ⟨js, n, rfl, hjs, hn⟩ := ih
    exact ⟨_ :: js, n, rfl, List.forall_mem_cons.mpr ⟨named, hjs⟩, hn⟩

/-- `get` asks for the file that the first records lead to. -/
theorem Leads.get (h : Leads c l target ks) (hl : ∀ n ∈ l, Plain n) : ∃ fuel made,
    Facade.get c fuel (text true l) target =
      some ⟨.returned .OK, [⟨text true (l ++ ks), place target ks, made⟩]⟩ ∧
    ∀ p ∈ made, p = (place target ks).parent_path := by
  induction h with
  | file listed before named absent regular present room answered =>
    obtain ⟨made, hfetch, hmade⟩ := get_file_eq _ room
    refine ⟨1, made, ?_, hmade⟩
    rw [get_listed hl listed before named absent (Or.inl regular), if_pos regular, local_path, if_pos present,
      hfetch, answered]
    rfl
  | @down l ks target skipped rest m listed before named absent directory below ih =>
    obtain ⟨fuel, made, hget, hmade⟩ := ih (plain_concat hl named)
    refine ⟨fuel + 1, made, ?_, hmade⟩
    rw [get_listed hl listed before named absent (Or.inr directory), if_neg (by simp [directory]), hget,
      List.append_assoc, List.singleton_append]
    rfl

theorem Straight.fetches (hstored : Stored c d) (h : Straight c d target) : ∃ fuel r,
    Facade.get c fuel (text true d) target = some r ∧ r.outcome = .returned .OK ∧
      Whole c d target r.downloads := by
  obtain ⟨ks, hleads, honly⟩ := h
  obtain ⟨fuel, made, hget, hmade⟩ := hleads.get hstored.names
  refine ⟨fuel, _, hget, rfl, ?_, ?_⟩
  · intro l n hfile
    rw [honly l n hfile, List.drop_left, List.filter_cons_of_pos (by simp)]
    rfl
  · intro x hx
    obtain ⟨js, n, rfl, hjs, hn⟩ := hleads.plain
    obtain ⟨hinside, hparent⟩ := inside_place hjs hn target
    rw [List.mem_singleton] at hx
    rw [hx]
    refine ⟨hinside, fun p hp => ?_⟩
    rw [hmade p hp]
    exact hparent

/-! ## Nothing else fetches it -/

theorem get_file_below (source : PathString) {l : List Name} {p : PathString} (h : l <+: p.components) :
    (get_file c source p).downloads.length ≤ 1 ∧
      ∀ x ∈ (get_file c source p).downloads, l <+: x.target.components := by
  by_cases hroom : HasRoom c p
  · obtain ⟨made, hfetch, -⟩ := get_file_eq source hroom
    rw [hfetch]
    refine ⟨Nat.le_refl 1, fun x hx => ?_⟩
    rw [List.mem_singleton.mp hx]
    exact h
  · rw [get_file_eq_threw source hroom]
    simp

/-- There is one request at most, for a place below the one that was asked for. -/
theorem downloads_below {fuel : Nat} {source : PathString} {r : Result}
    (h : get c fuel source target = some r) :
    r.downloads.length ≤ 1 ∧ ∀ x ∈ r.downloads, target.components <+: x.target.components := by
  induction fuel generalizing source target r with
  | zero => cases h
  | succ fuel ih =>
    have hdown : ∀ n : Name, target.components <+: (div target n).components := by
      intro n
      rw [components_div]
      exact List.prefix_append _ _
    rw [get] at h
    dsimp only at h
    split at h
    · rw [← Option.some.inj h]
      simp
    · generalize (c.meta_dir source).2 = s at h
      induction s with
      | nil =>
        rw [get_records, Option.some.injEq] at h
        rw [← h]
        simp
      | cons m s ihs =>
        rw [get_records] at h
        split at h
        · rw [← Option.some.inj h]
          simp
        · split at h
          · rw [← Option.some.inj h]
            have hlocal : target.components <+: (local_path c target m.name).components := by
              rw [local_path]
              split
              · exact hdown m.name
              · exact List.prefix_refl _
            exact get_file_below _ hlocal
          · split at h
            · obtain ⟨hlength, hbelow⟩ := ih h
              exact ⟨hlength, fun x hx => (hdown m.name).trans (hbelow x hx)⟩
            · exact ihs h

theorem Listing.unique {s : MetaSet} (h : Listing s) {m other : Metadata} (hm : m ∈ s) (hother : other ∈ s)
    (hname : m.name = other.name) : m = other := by
  have hnodup : (s.map Metadata.name).Nodup := by
    rw [List.Nodup, List.pairwise_map]
    exact h.ordered.distinct
  exact List.inj_on_of_nodup_map hnodup hm hother hname

/-- The records of the dots are directories. -/
theorem Listing.directory {s : MetaSet} (h : Listing s) {m : Metadata} (hm : m ∈ s)
    (hname : m.name = ['.'] ∨ m.name = ['.', '.']) : m.file_type = .directory := by
  have hdots : ∃ x ∈ s, x.name = m.name ∧ x.file_type = .directory := by
    rcases hname with hdot | hdot_dot
    · exact hdot ▸ h.dot
    · exact hdot_dot ▸ h.dot_dot
  obtain ⟨x, hx, hxname, hdirectory⟩ := hdots
  rwa [h.unique hm hx hxname.symm]

/-- The first record that `get` follows in a listing. -/
theorem Listing.exists_first {s : MetaSet} (h : Listing s)
    (hclean : ∀ m ∈ s, Plain m.name → Literal m.name) : ∃ skipped m rest, s = skipped ++ m :: rest ∧
      (∀ x ∈ skipped, Skipped l x) ∧ (m.file_type = .regular ∧ Plain m.name ∨
        m.file_type = .directory ∧ (m.name = ['.', '.'] ∨ Plain m.name)) := by
  obtain ⟨dots, hdots, hdotsname, hdotstype⟩ := h.dot_dot
  have hfind : (s.find? fun m => m.file_type = .regular ∨ m.file_type = .directory ∧
      m.name ≠ ['.']).isSome := by
    rw [List.find?_isSome]
    exact ⟨dots, hdots, by simp [hdotsname, hdotstype]⟩
  obtain ⟨m, hm⟩ := Option.isSome_iff_exists.mp hfind
  obtain ⟨hkind, skipped, rest, hs, hskipped⟩ := List.find?_eq_some_iff_append.mp hm
  rw [decide_eq_true_iff] at hkind
  have hmem : m ∈ s := by rw [hs]; simp
  refine ⟨skipped, m, rest, hs, fun x hx => ?_, ?_⟩
  · have hxs : x ∈ s := by rw [hs]; exact List.mem_append_left _ hx
    have hno := hskipped x hx
    rw [Bool.not_eq_true', decide_eq_false_iff_not, not_or, not_and, not_not] at hno
    refine ⟨?_, hno⟩
    rcases h.names x hxs with hname | hname | hplain
    · rw [hname, minus, if_pos (Or.inl (by decide))]
      rfl
    · exact absurd (hno.2 (h.directory hxs (Or.inr hname))) (by simp [hname])
    · rw [minus_plain hplain, parse_literal (hclean x hxs hplain)]
      rfl
  · rcases h.names m hmem with hname | hname | hplain
    · simp [h.directory hmem (Or.inl hname), hname] at hkind
    · exact Or.inr ⟨h.directory hmem (Or.inr hname), Or.inl hname⟩
    · exact hkind.imp (fun hregular => ⟨hregular, hplain⟩) fun hdirectory => ⟨hdirectory.1, Or.inr hplain⟩

theorem Dir.plain (hstored : Stored c d) (h : Dir c d l) : ∀ n ∈ l, Plain n := by
  induction h with
  | root => exact hstored.names
  | child _ _ _ _ named ih => exact plain_concat ih named

theorem HasFile.plain (hstored : Stored c d) (h : HasFile c d l n) : Plain n := by
  obtain ⟨hdir, s, hlisted, m, hm, htype, hname⟩ := h
  obtain ⟨s', hlisted', hlisting⟩ := hstored.listed l hdir
  obtain rfl : s = s' := (Prod.mk.inj (hlisted.symm.trans hlisted')).2
  rcases hlisting.names m hm with hone | htwo | hplain
  · rw [hlisting.directory hm (Or.inl hone)] at htype
    cases htype
  · rw [hlisting.directory hm (Or.inr htwo)] at htype
    cases htype
  · rwa [hname] at hplain

theorem Dir.exists_names (h : Dir c d l) : ∃ ks, l = d ++ ks ∧ ∀ k ∈ ks, Plain k := by
  induction h with
  | root => exact ⟨[], (List.append_nil d).symm, by simp⟩
  | child _ _ _ _ named ih =>
    obtain ⟨ks, rfl, hks⟩ := ih
    exact ⟨ks ++ [_], List.append_assoc _ _ _, plain_concat hks named⟩

/-- A file of the tree is asked for, at its place. -/
theorem Whole.mem {downloads : List Download} (h : Whole c d target downloads) (hfile : HasFile c d l n) :
    ∃ x ∈ downloads, x.source = text true (l ++ [n]) ∧
      x.target = place target ((l ++ [n]).drop d.length) := by
  have hone := h.each l n hfile
  obtain ⟨x, hx, htarget⟩ := List.mem_map.mp (hone ▸ List.mem_singleton_self _ :
    place target ((l ++ [n]).drop d.length) ∈ _)
  obtain ⟨hmem, hsource⟩ := List.mem_filter.mp hx
  exact ⟨x, hmem, by simpa using hsource, htarget⟩

/-- A request for the file that is listed first. -/
theorem leads_of_first_file {fuel : Nat} {skipped rest : MetaSet} {m : Metadata} {r : Result} {x : Download}
    (hl : ∀ n ∈ l, Plain n) (hlisted : c.meta_dir (text true l) = (.OK, skipped ++ m :: rest))
    (hskipped : ∀ x ∈ skipped, Skipped l x) (hplain : Plain m.name) (habsent : Absent l m.name)
    (hregular : m.file_type = .regular) (hget : Facade.get c (fuel + 1) (text true l) target = some r)
    (hok : r.outcome = .returned .OK) (hx : r.downloads = [x])
    (htarget : x.target.components = target.components ++ (ks ++ [n])) : Leads c l target (ks ++ [n]) := by
  rw [get_listed hl hlisted hskipped hplain habsent (Or.inl hregular), if_pos hregular,
    Option.some.injEq] at hget
  have hroom : HasRoom c (local_path c target m.name) := by
    by_contra hno
    rw [← hget, get_file_eq_threw _ hno] at hok
    cases hok
  obtain ⟨made, hfetch, -⟩ := get_file_eq (text true (l ++ [m.name])) hroom
  rw [← hget, hfetch] at hx hok
  rw [← List.singleton_inj.mp hx] at htarget
  dsimp only at htarget
  by_cases hpresent : c.exists_at target
  · have hlocal : local_path c target m.name = div target m.name := if_pos hpresent
    rw [hlocal] at htarget hok hroom
    rw [components_div, List.append_cancel_left_eq, components_name hplain.1 hplain.2.1] at htarget
    have hanswered : c.get (text true (l ++ [m.name])) (div target m.name) = some .OK := by
      cases hc : c.get (text true (l ++ [m.name])) (div target m.name) with
      | none => simp [hc] at hok
      | some status => simpa [hc] using hok
    rw [← htarget]
    exact Leads.file hlisted hskipped hplain habsent hregular hpresent hroom hanswered
  · rw [local_path, if_neg hpresent] at htarget
    have hlength := congrArg List.length htarget
    simp at hlength

/-- Where one request is for a file at its place, the first records lead there. -/
theorem leads_of_download (hstored : Stored c d) (hclean : Clean c d) {fuel : Nat} {r : Result} {x : Download}
    (hdir : Dir c d l) (hks : ∀ k ∈ ks, Plain k) (hfile : HasFile c d (l ++ ks) n)
    (hget : get c fuel (text true l) target = some r) (hok : r.outcome = .returned .OK)
    (hx : r.downloads = [x]) (htarget : x.target.components = target.components ++ (ks ++ [n])) :
    Leads c l target (ks ++ [n]) := by
  induction fuel generalizing l ks target with
  | zero => cases hget
  | succ fuel ih =>
    have hl := hdir.plain hstored
    have hn := hfile.plain hstored
    obtain ⟨s, hlisted, hlisting⟩ := hstored.listed l hdir
    obtain ⟨skipped, m, rest, hs, hskipped, hkind⟩ :=
      hlisting.exists_first fun m hm hplain => (hclean l s hdir hlisted m hm hplain).1
    have hmem : m ∈ s := by rw [hs]; simp
    have habsent : Plain m.name → Absent l m.name := fun hplain =>
      (absent_literal hplain (hclean l s hdir hlisted m hmem hplain).1).mpr
        (hclean l s hdir hlisted m hmem hplain).2
    rw [hs] at hlisted
    have hbelow : ∀ k : Name, components k = [k] → (div target k).components <+: x.target.components →
        ∃ js, ks ++ [n] = k :: js := by
      intro k hk hle
      rw [htarget, components_div, hk, List.prefix_append_right_inj] at hle
      obtain ⟨js, hjs⟩ := hle
      exact ⟨js, hjs.symm⟩
    have hxmem : x ∈ r.downloads := by
      rw [hx]
      exact List.mem_singleton_self x
    rcases hkind with ⟨hregular, hplain⟩ | ⟨hdirectory, hdots | hplain⟩
    · exact leads_of_first_file hl hlisted hskipped hplain (habsent hplain) hregular hget hok hx htarget
    · -- the request would be for a place above the target
      rw [get_listed_dots hl hlisted hskipped hdots hdirectory] at hget
      obtain ⟨js, hjs⟩ := hbelow ['.', '.'] (by decide) ((downloads_below hget).2 x hxmem)
      have hdotmem : ['.', '.'] ∈ ks ++ [n] := by
        rw [hjs]
        exact List.mem_cons_self
      rcases List.mem_append.mp hdotmem with hmem' | hmem'
      · exact absurd rfl (hks _ hmem').2.2.2
      · exact absurd (List.mem_singleton.mp hmem').symm hn.2.2.2
    · rw [get_listed hl hlisted hskipped hplain (habsent hplain) (Or.inr hdirectory),
        if_neg (by simp [hdirectory])] at hget
      have hname := components_name hplain.1 hplain.2.1
      obtain ⟨js, hjs⟩ := hbelow m.name hname ((downloads_below hget).2 x hxmem)
      cases ks with
      | nil =>
        -- the name is that of the file, and of this directory
        obtain ⟨-, s', hlisted', m', hm', htype', hname'⟩ := hfile
        rw [List.append_nil, hlisted, ← hs] at hlisted'
        obtain rfl : s = s' := (Prod.mk.inj hlisted').2
        have heq := hlisting.unique hm' hmem (hname'.trans (List.cons.inj hjs).1)
        rw [heq, hdirectory] at htype'
        cases htype'
      | cons k ks =>
        obtain rfl : k = m.name := (List.cons.inj hjs).1
        rw [List.append_cons] at hfile
        refine Leads.down hlisted hskipped hplain (habsent hplain) hdirectory ?_
        refine ih (hdir.child hlisted (hs ▸ hmem) hdirectory hplain)
          (List.forall_mem_cons.mp hks).2 hfile hget ?_
        rw [htarget, components_div, hname, List.append_assoc]
        rfl

/-- A tree that is whole has one file, and the first records lead to it. -/
theorem straight_of_whole (hstored : Stored c d) (hclean : Clean c d) (hfile : ∃ l n, HasFile c d l n)
    {fuel : Nat} {r : Result} (hget : get c fuel (text true d) target = some r)
    (hok : r.outcome = .returned .OK) (hwhole : Whole c d target r.downloads) : Straight c d target := by
  obtain ⟨l, n, hfile⟩ := hfile
  obtain ⟨ks, rfl, hks⟩ := hfile.1.exists_names
  obtain ⟨x, hx, hsource, htarget⟩ := hwhole.mem hfile
  have hsingle : r.downloads = [x] := by
    obtain ⟨y, hy⟩ := List.length_eq_one_iff.mp
      (Nat.le_antisymm (downloads_below hget).1 (List.length_pos_of_mem hx))
    rw [hy, List.mem_singleton] at hx
    rw [hy, hx]
  rw [List.append_assoc, List.drop_left] at htarget
  have hcomponents := (components_place (plain_concat hks (hfile.plain hstored)) target).1
  rw [← htarget] at hcomponents
  refine ⟨ks ++ [n], leads_of_download hstored hclean .root hks hfile hget hok hsingle hcomponents, ?_⟩
  intro l' n' hfile'
  obtain ⟨x', hx', hsource', -⟩ := hwhole.mem hfile'
  rw [hsingle, List.mem_singleton] at hx'
  have hplain : ∀ l n, HasFile c d l n → ∀ k ∈ l ++ [n], Plain k := fun l n h =>
    plain_concat (h.1.plain hstored) (h.plain hstored)
  have htext : text true (l' ++ [n']) = text true (d ++ ks ++ [n]) := by rw [← hsource', hx', hsource]
  have hnames := congrArg components htext
  rw [components_text (hplain l' n' hfile'), components_text (hplain (d ++ ks) n hfile)] at hnames
  rw [hnames, List.append_assoc]

/-- `get` has a whole tree where the first records lead straight to its only file. -/
theorem get_tree_iff (hstored : Stored c d) :
    (Straight c d target → ∃ fuel r, Facade.get c fuel (text true d) target = some r ∧
      r.outcome = .returned .OK ∧ Whole c d target r.downloads) ∧
    (Clean c d → (∃ l n, HasFile c d l n) → ¬ Fails c d target →
      (Fetches c d target ↔ Straight c d target)) := by
  refine ⟨fun h => h.fetches hstored, fun hclean hfile hfails => ⟨?_, fun h => ?_⟩⟩
  · rintro ⟨fuel, r, hget, hwhole⟩
    have hok : r.outcome = .returned .OK := by
      by_contra hno
      exact hfails ⟨fuel, r, hget, hno⟩
    exact straight_of_whole hstored hclean hfile hget hok (hwhole hok)
  · obtain ⟨fuel, r, hget, -, hwhole⟩ := h.fetches hstored
    exact ⟨fuel, r, hget, fun _ => hwhole⟩

end

/-! ## Two directories -/

def dots : MetaSet := [MetaSet.directory_record ['.'], MetaSet.directory_record ['.', '.']]

/-- The root with the directory `/d`, and the records of that one. -/
def rooted (s : MetaSet) : Remote where
  meta_dir p := (.OK, if p.canonical = ['/', 'd'] then s else dots ++ [MetaSet.directory_record ['d']])
  get _ _ := some .OK
  exists_at _ := true
  create_directories _ := true

section

variable {s : MetaSet} {l : List Name} {target : PathString}

theorem rooted_listed : (rooted s).meta_dir (text true [['d']]) = (.OK, s) := rfl

theorem dir_rooted (hs : ∀ m ∈ s, m.file_type = .directory → ¬ Plain m.name) (h : Dir (rooted s) [['d']] l) :
    l = [['d']] := by
  induction h with
  | root => rfl
  | child _ listed mem directory named ih =>
    rw [ih, rooted_listed] at listed
    obtain rfl := (Prod.mk.inj listed).2
    exact absurd named (hs _ mem directory)

theorem rooted_stored (hs : ∀ m ∈ s, m.file_type = .directory → ¬ Plain m.name) (h : Listing s) :
    Stored (rooted s) [['d']] where
  names := by decide
  listed l hdir := by
    rw [dir_rooted hs hdir]
    exact ⟨s, rooted_listed, h⟩

/-- From the root `get` goes on to the root. -/
theorem get_root (fuel : Nat) {source : PathString} (h : source.canonical = ['/']) :
    get (rooted s) fuel source target = none := by
  induction fuel generalizing source target with
  | zero => rfl
  | succ fuel ih =>
    have hdot : minus ['/'] ['.'] = some ['/'] := by decide
    have hdots : minus ['/'] ['.', '.'] = some ['/'] := by decide
    have hlisted : (rooted s).meta_dir source = (.OK, dots ++ [MetaSet.directory_record ['d']]) := by
      simp only [rooted, h]
      rfl
    rw [get, hlisted, dots]
    dsimp only
    rw [if_neg (by simp), List.cons_append, get_records, h, MetaSet.directory_record, hdot]
    dsimp only
    rw [if_neg (by simp), if_neg (by simp), List.cons_append, get_records, h, MetaSet.directory_record, hdots]
    dsimp only
    rw [if_neg (by simp), if_pos (by simp)]
    exact ih (by decide)

end

/-- The records of `/d`, with a file that comes before the dot. -/
def early : MetaSet := file_record ['-', 'a'] :: dots

theorem get_tree_iff_early : ∃ fuel r, get (rooted early) fuel (text true [['d']]) ['t'] = some r ∧
    r.outcome = .returned .OK ∧ Whole (rooted early) [['d']] ['t'] r.downloads := by
  have hs : ∀ m ∈ early, m.file_type = .directory → ¬ Plain m.name := by decide
  have hlisting : Listing early := ⟨by rw [MetaSet.Ordered]; decide, by decide, by decide, by decide⟩
  have habsent : Absent [['d']] ['-', 'a'] := (absent_literal (by decide) (by decide)).mpr (by decide)
  have hleads : Leads (rooted early) [['d']] ['t'] [['-', 'a']] :=
    @Leads.file (rooted early) [['d']] ['t'] [] dots (file_record ['-', 'a']) rfl (by simp)
      (by decide) habsent
      rfl rfl (Or.inl rfl) rfl
  refine (get_tree_iff (rooted_stored hs hlisting)).1 ⟨_, hleads, ?_⟩
  rintro l n ⟨hdir, s, hlisted, m, hm, htype, hname⟩
  obtain rfl := dir_rooted hs hdir
  rw [rooted_listed] at hlisted
  obtain rfl := (Prod.mk.inj hlisted).2
  have honly : ∀ m ∈ early, m.file_type = .regular → m.name = ['-', 'a'] := by decide
  rw [← hname, honly m hm htype]

/-- With a file that comes after the dots, `get` goes up to the root and does not come back. -/
theorem get_tree_endless : Stored (rooted (dots ++ [file_record ['a']])) [['d']] ∧
    ¬ Fetches (rooted (dots ++ [file_record ['a']])) [['d']] ['t'] := by
  have hlisting : Listing (dots ++ [file_record ['a']]) :=
    ⟨by rw [MetaSet.Ordered]; decide, by decide, by decide, by decide⟩
  refine ⟨rooted_stored (by decide) hlisting, ?_⟩
  rintro ⟨fuel, r, hget, -⟩
  cases fuel with
  | zero => cases hget
  | succ fuel =>
    have hdot : ∀ x ∈ [MetaSet.directory_record ['.']], Skipped [['d']] x := by
      intro x hx
      rw [List.mem_singleton.mp hx]
      exact ⟨by decide, by decide, fun _ => rfl⟩
    have hlisted : (rooted (dots ++ [file_record ['a']])).meta_dir (text true [['d']]) =
        (.OK, [MetaSet.directory_record ['.']] ++ MetaSet.directory_record ['.', '.'] ::
          [file_record ['a']]) :=
      rooted_listed
    rw [get_listed_dots (by decide) hlisted hdot rfl rfl, get_root fuel (by decide)] at hget
    cases hget

end Facade

end Fs

end Chord
