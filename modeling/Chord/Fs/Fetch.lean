import Chord.Fs.Service
import Chord.SubtractName

/-!
# Getting a path (`Facade::get`, `Facade::get_file`)

The uri of a record is that of the listing, without the name of the record and with it again.
-/

namespace Chord

namespace Fs

namespace Facade

open PathString Ecma

/-- What the client answers for a uri, and what is on the local disk. -/
structure Remote where
  /-- `Client::meta` with the action `DIR`. -/
  meta_dir : PathString → StatusCode × MetaSet
  /-- `Client::get` to a local path; nothing for `ios_base::failure`. -/
  get : PathString → PathString → Option StatusCode
  /-- `file::exists`. -/
  exists_at : PathString → Bool
  /-- `file::create_directories`, which may throw. -/
  create_directories : PathString → Bool

/-- A request for a file, and the directories that are made for it. -/
structure Download where
  source : PathString
  target : PathString
  made : Option PathString
  deriving DecidableEq

/-- A status, `INTERNAL` for a local failure, or an exception. -/
inductive Outcome where
  | returned (status : StatusCode)
  | internal
  | threw
  deriving DecidableEq

structure Result where
  outcome : Outcome
  downloads : List Download
  deriving DecidableEq

def get_file (c : Remote) (source target : PathString) : Result :=
  let parent := target.parent_path
  let outcome := (c.get source target).elim .internal .returned
  if c.exists_at parent then ⟨outcome, [⟨source, target, none⟩]⟩
  else if c.create_directories parent then ⟨outcome, [⟨source, target, some parent⟩]⟩
  else ⟨.threw, []⟩

/-- The loop of `get`. It returns at the first record of a file, or of another directory. -/
def get_records (c : Remote) (get : PathString → PathString → Option Result) (source target : PathString) :
    MetaSet → Option Result
  | [] => some ⟨.returned .OK, []⟩
  | m :: metadata =>
    match minus source.canonical m.name with
    | none => some ⟨.threw, []⟩
    | some p =>
      let new_source := div p m.name
      if m.file_type = .regular then
        some (get_file c new_source (if c.exists_at target then div target m.name else target))
      else if m.file_type = .directory ∧ m.name ≠ ['.'] then get new_source (div target m.name)
      else get_records c get source target metadata

def get (c : Remote) : Nat → PathString → PathString → Option Result
  | 0, _, _ => none
  | fuel + 1, source, target =>
    let (status, metadata) := c.meta_dir source
    if status ≠ .OK then some ⟨.returned status, []⟩
    else get_records c (get c fuel) source target metadata

/-! ## Getting a file -/

theorem components_plain {u : PathString} (h : u.canonical = u) : ∀ n ∈ u.components, Plain n := by
  rw [← h, (canonical_parts u).1]
  exact names_plain u

/-- A canonical path with a file name is the text of its names. -/
theorem text_of_canonical {u : PathString} (h : u.canonical = u) (hfile : u.has_filename) :
    u = text u.is_absolute u.components := by
  have hnames : u.names = u.components := names_of_plain (components_plain h)
  conv_lhs => rw [← h, canonical_eq, if_neg fun htrailing => htrailing.2.2 hfile, List.append_nil, hnames]

/-- The directory of a local path is there, or can be made. -/
def HasRoom (c : Remote) (target : PathString) : Prop :=
  c.exists_at target.parent_path ∨ c.create_directories target.parent_path

/-- What `get_file` does for one file. -/
theorem get_file_eq {c : Remote} (source : PathString) {target : PathString} (h : HasRoom c target) :
    ∃ made, get_file c source target =
        ⟨(c.get source target).elim .internal .returned, [⟨source, target, made⟩]⟩ ∧
      ∀ p ∈ made, p = target.parent_path := by
  rw [get_file]
  by_cases hexists : c.exists_at target.parent_path
  · exact ⟨none, if_pos hexists, fun p hp => by cases hp⟩
  · rw [if_neg hexists, if_pos (h.resolve_left hexists)]
    exact ⟨_, rfl, fun p hp => (Option.mem_some_iff.mp hp).symm⟩

theorem get_file_eq_threw {c : Remote} (source : PathString) {target : PathString} (h : ¬ HasRoom c target) :
    get_file c source target = ⟨.threw, []⟩ := by
  rw [HasRoom, not_or] at h
  rw [get_file, if_neg h.1, if_neg h.2]

/-- The local path for a record. -/
def local_path (c : Remote) (target : PathString) (name : Name) : PathString :=
  if c.exists_at target then div target name else target

/-- One request, for the uri itself. -/
def FetchesItself (c : Remote) (u target : PathString) : Prop :=
  ∃ fuel r, get c fuel u target = some r ∧ r.downloads.map Download.source = [u]

section

variable {c : Remote} {u target : PathString} {m : Metadata}

theorem div_filename_iff (hcanonical : u.canonical = u) (hfile : u.has_filename) {p : PathString}
    (hp : p.canonical = p) : div p u.filename = u ↔
      (p.is_absolute ↔ u.parent_path.is_absolute) ∧ p.components = u.parent_path.components := by
  obtain ⟨hcomponents, habs⟩ := components_parent hfile
  have hplain := components_plain hcanonical
  rw [hcomponents] at hplain
  have hname : Plain u.filename := hplain _ (by simp)
  have hdiv : div p u.filename = text p.is_absolute (p.components ++ [u.filename]) := by
    have h := div_canonical (a := false) (c := false) (m := [u.filename]) hp (by simpa using hname) (by simp)
    simpa [text, ending] using h
  rw [habs]
  constructor
  · intro h
    have hroot : p.root = u.root := by rw [← root_div p u.filename, h]
    have hnames := components_div p u.filename
    rw [h, hcomponents, components_name hname.1 hname.2.1] at hnames
    exact ⟨root_eq_iff.mp hroot, (List.append_cancel_right hnames).symm⟩
  · rintro ⟨hpabs, hnames⟩
    rw [hdiv, hnames, ← hcomponents, decide_eq_decide.mpr hpabs]
    exact (text_of_canonical hcanonical hfile).symm

theorem fetchesItself_iff (hcanonical : u.canonical = u) (hfile : u.has_filename)
    (hlisted : c.meta_dir u = (.OK, [m])) (htype : m.file_type = .regular) (hname : m.name = u.filename) :
    FetchesItself c u target ↔ FilenameOff u ∧ HasRoom c (local_path c target u.filename) := by
  have hget : ∀ fuel, get c (fuel + 1) u target = match minus u u.filename with
      | none => some ⟨.threw, []⟩
      | some p => some (get_file c (div p u.filename) (local_path c target u.filename)) := by
    intro fuel
    rw [get, hlisted]
    dsimp only
    rw [if_neg (by simp), get_records, hname, hcanonical]
    cases minus u u.filename with
    | none => rfl
    | some p => exact if_pos htype
  constructor
  · rintro ⟨fuel, r, hr, hdownloads⟩
    cases fuel with
    | zero => cases hr
    | succ fuel =>
      rw [hget] at hr
      cases hminus : minus u u.filename with
      | none =>
        rw [hminus] at hr
        rw [← Option.some.inj hr] at hdownloads
        cases hdownloads
      | some p =>
        rw [hminus] at hr
        rw [← Option.some.inj hr] at hdownloads
        by_cases hroom : HasRoom c (local_path c target u.filename)
        · obtain ⟨made, hfetch, -⟩ := get_file_eq (div p u.filename) hroom
          rw [hfetch] at hdownloads
          have hdiv : div p u.filename = u := List.singleton_inj.mp hdownloads
          exact ⟨⟨p, hminus, (div_filename_iff hcanonical hfile (minus_canonical hminus)).mp hdiv⟩, hroom⟩
        · rw [get_file_eq_threw _ hroom] at hdownloads
          cases hdownloads
  · rintro ⟨⟨p, hminus, hparent⟩, hroom⟩
    refine ⟨1, _, by rw [hget, hminus], ?_⟩
    obtain ⟨made, hfetch, -⟩ := get_file_eq (div p u.filename) hroom
    rw [hfetch]
    exact congrArg (fun q => [q]) ((div_filename_iff hcanonical hfile (minus_canonical hminus)).mpr hparent)

/-- A file is asked for under its own uri where its name, read as a regular expression, matches
itself at the end of the path and nothing before that, and where the local directory can be had. -/
theorem get_file_iff (hcanonical : u.canonical = u) (habsolute : u.is_absolute) (hfile : u.has_filename)
    (hlisted : c.meta_dir u = (.OK, [m])) (htype : m.file_type = .regular) (hname : m.name = u.filename) :
    (LastMatch (ahead true u.parent_path.components) u.filename ∧ HasRoom c (local_path c target u.filename) →
      FetchesItself c u target) ∧
    (Literal u.filename → (FetchesItself c u target ↔
      LastMatch (ahead true u.parent_path.components) u.filename ∧
        HasRoom c (local_path c target u.filename))) := by
  have hplain := components_plain hcanonical
  rw [(components_parent hfile).1] at hplain
  have hfilename : Plain u.filename := hplain _ (by simp)
  have hend : AtEnd u ↔ LastMatch (ahead true u.parent_path.components) u.filename := by
    rw [AtEnd, if_neg hfilename.2.2.2, or_iff_right hfilename.2.2.1, decide_eq_true habsolute]
    exact and_iff_right fun n hn => hplain n (List.mem_append_left _ hn)
  rw [fetchesItself_iff hcanonical hfile hlisted htype hname, ← hend]
  obtain ⟨hoff, hiff⟩ := filenameOff_iff hfile
  exact ⟨And.imp_left hoff, fun hliteral => and_congr_left fun _ => hiff hliteral⟩

end

def file_record (name : Name) : Metadata := { MetaSet.directory_record name with file_type := .regular }

/-- Every uri is one file of that name, and the local disk is empty. -/
def lone (name : Name) : Remote where
  meta_dir _ := (.OK, [file_record name])
  get _ _ := some .OK
  exists_at p := p = ['/']
  create_directories _ := false

theorem get_file_iff_plain : FetchesItself (lone ['a']) ['/', 't', '/', 'a'] ['/', 'b'] := by
  have hlast : LastMatch (ahead true [['t']]) ['a'] := (lastMatch_literal (by decide)).mpr (by decide)
  exact (get_file_iff (c := lone ['a']) (u := ['/', 't', '/', 'a']) (m := file_record ['a'])
    (by decide) (by decide) (by decide) rfl rfl (by decide)).1 ⟨hlast, Or.inl (by decide)⟩

/-- The file `a` of the directory `a` is asked for as `/a`. -/
theorem get_repeated_name : canonical ['/', 'a', '/', 'a'] = ['/', 'a', '/', 'a'] ∧
    PathString.filename ['/', 'a', '/', 'a'] = ['a'] ∧
    get (lone ['a']) 1 ['/', 'a', '/', 'a'] ['/', 'b'] =
      some ⟨.returned .OK, [⟨['/', 'a'], ['/', 'b'], none⟩]⟩ ∧
    ¬ FetchesItself (lone ['a']) ['/', 'a', '/', 'a'] ['/', 'b'] := by
  refine ⟨by decide, by decide, by decide, ?_⟩
  rw [fetchesItself_iff (m := file_record ['a']) (by decide) (by decide) rfl rfl (by decide)]
  rintro ⟨⟨p, hp, -, hcomponents⟩, -⟩
  have hminus : minus ['/', 'a', '/', 'a'] (PathString.filename ['/', 'a', '/', 'a']) = some ['/'] := by
    decide
  rw [← Option.some.inj (hminus.symm.trans hp)] at hcomponents
  exact absurd hcomponents (by decide)

end Facade

end Fs

end Chord
