import Chord.Fs.Debounce
import Chord.Fs.Manager
import Chord.Fs.PutDirectory

/-!
# Events of the data directory (`Facade::on_fs_event`)

A file that was created or changed goes to the journal and from there to the ring, and one that was
removed is deleted from the ring.
-/

namespace Chord

namespace Fs

namespace Facade

open PathString Ecma Uri

/-- What the handler reads of the context, and the entries of the metadata manager. -/
structure Watch where
  data_directory : PathString
  journal_directory : PathString
  metadata : Database

/-- What the handler meets while it is busy with one event. -/
structure Surroundings where
  disk : Disk
  /-- The journal directories can be made, and the file moved there. -/
  moved : Bool
  /-- The remote `is_directory`, which may throw. -/
  is_directory : PathString → Option Bool
  put_file : PathString → PathString → StatusCode
  /-- The file can be removed from the journal. -/
  cleaned : Bool
  /-- `Client::del`, which may throw. -/
  del : Option StatusCode

inductive Operation where
  | put (target : Uri)
  | del (uri : Uri) (recursive : Bool)
  deriving DecidableEq

/-! ## The handlers -/

/-- `MetadataManager::exists`. -/
def Watch.exists_at (c : Watch) (uri : Uri) : Prop := uri.path ∈ c.metadata

instance (c : Watch) (uri : Uri) : Decidable (c.exists_at uri) := inferInstanceAs (Decidable (_ ∈ c.metadata))

def put_file_journal (c : Watch) (s : Surroundings) (data_path : PathString) : Outcome × List Operation :=
  match minus data_path c.data_directory with
  | none => (.threw, [])
  | some relative_path =>
    let journal_path := div c.journal_directory relative_path
    match minus journal_path (PathString.filename journal_path) with
    | none => (.threw, [])
    | some _ =>
      if s.moved then
        let (status, uploads) :=
          put s.put_file s.disk s.is_directory journal_path (as_uri relative_path).path
        (if status = .returned .OK ∧ ¬ s.cleaned then .threw else status,
          uploads.map fun x => .put (as_uri x.target))
      else (.threw, [])

def handle_fs_update (c : Watch) (s : Surroundings) (event : Debounce.Event) : Outcome × List Operation :=
  put_file_journal c s event.path

def handle_fs_remove (s : Surroundings) (event : Debounce.Event) : Outcome × List Operation :=
  (s.del.elim .threw .returned, [.del (as_uri event.path) true])

def updated (e : Debounce.Event) : Prop := .UPDATED ∈ e.flags ∨ .CREATED ∈ e.flags

def removed (e : Debounce.Event) : Prop := .REMOVED ∈ e.flags

instance (e : Debounce.Event) : Decidable (updated e) := inferInstanceAs (Decidable (_ ∨ _))

instance (e : Debounce.Event) : Decidable (removed e) := inferInstanceAs (Decidable (_ ∈ _))

/-- The test of `remove_if`; nothing where the subtraction throws. -/
def erased (c : Watch) (event : Debounce.Event) : Option Bool :=
  (minus event.path c.data_directory).map fun relative_path =>
    removed event ∧ ¬ c.exists_at (as_uri relative_path)

/-- One turn of the loop. -/
def handle (c : Watch) (s : Surroundings) (e : Debounce.Event) : Outcome × List Operation :=
  let (outcome, puts) := if updated e then handle_fs_update c s e else (.returned .OK, [])
  if outcome = .threw then (.threw, puts)
  else
    let (outcome, dels) := if removed e then handle_fs_remove s e else (.returned .OK, [])
    (outcome, puts ++ dels)

/-- The operations of every event. After an exception there are no more. -/
def handle_all (c : Watch) : List (Debounce.Event × Surroundings) → List (List Operation)
  | [] => []
  | (e, s) :: events =>
    if erased c e = some true then [] :: handle_all c events
    else
      let (outcome, operations) := handle c s e
      operations :: if outcome = .threw then events.map fun _ => [] else handle_all c events

/-- The filter goes over all events first. -/
def on_fs_event (c : Watch) (events : List (Debounce.Event × Surroundings)) : List (List Operation) :=
  if ∃ x ∈ events, erased c x.1 = none then events.map fun _ => [] else handle_all c events

/-! ## The right uri -/

/-- The names of the path below the directory. -/
def below (d p : PathString) : List Name := p.components.drop d.components.length

/-- A file below the directory. -/
structure Below (d p : PathString) : Prop where
  absolute : p.is_absolute ↔ d.is_absolute
  names : p.components = d.components ++ below d p
  inside : below d p ≠ []
  plain : ∀ n ∈ below d p, Plain n
  file : p.has_filename

/-- The uri of the file, by its names below the data directory. -/
def Watch.target (c : Watch) (e : Debounce.Event) : Uri := as_uri (text true (below c.data_directory e.path))

/-- A put of what was created or updated, and a delete of what was removed and is known. -/
def Watch.expected (c : Watch) (e : Debounce.Event) : List Operation :=
  (if updated e then [.put (c.target e)] else []) ++
    if removed e ∧ c.exists_at (c.target e) then [.del (c.target e) true] else []

/-- The data directory comes off the path: it is the root, or without a separator at its end, and
its text, read as a regular expression, matches itself at the beginning of the path and nothing
after that. -/
def ComesOff (d : PathString) (r : List Name) : Prop :=
  if d.names = [] then d.is_absolute else ¬ d.trailing ∧ AtFront d.canonical (text false r)

section

variable {d p : PathString}

theorem Below.canonical_eq (h : Below d p) : p.canonical = text d.is_absolute (d.names ++ below d p) :=
  canonical_append_text h.plain h.names h.absolute h.file

theorem minus_below (h : Below d p) :
    minus p d = minus (text d.is_absolute (d.names ++ below d p)) d.canonical := by
  rw [← h.canonical_eq, minus, minus, canonical_canonical, canonical_canonical]

theorem canonical_root (h : d.names = []) : d.canonical = text d.is_absolute [] := by
  rw [PathString.canonical_eq, h, if_neg fun htrailing => htrailing.1 rfl, List.append_nil]

theorem canonical_ending (h : d.names ≠ []) :
    d.canonical = text d.is_absolute d.names ++ ending d.trailing := by
  rw [PathString.canonical_eq, if_congr (and_iff_right h) rfl rfl, ending]
  simp

theorem minus_of_comesOff (h : Below d p) (hoff : ComesOff d (below d p)) :
    minus p d = some (text true (below d p)) := by
  rw [minus_below h]
  unfold ComesOff at hoff
  split at hoff
  · rename_i hnil
    rw [canonical_root hnil, hnil, List.nil_append, minus_root h.plain, decide_eq_true hoff]
  · rename_i hne
    obtain ⟨htrailing, hfront⟩ := hoff
    rw [canonical_ending hne, decide_eq_false htrailing, append_ending_false] at hfront ⊢
    exact minus_front d.names_plain hne h.plain h.inside hfront

/-- With a literal data directory nothing else leaves the right path. -/
theorem comesOff_of_minus (h : Below d p) (hliteral : Literal d.canonical)
    (hminus : minus p d = some (text true (below d p))) : ComesOff d (below d p) := by
  rw [minus_below h] at hminus
  unfold ComesOff
  split
  · rename_i hnil
    rw [canonical_root hnil, hnil, List.nil_append, minus_root h.plain, Option.some.injEq] at hminus
    have habs := (is_absolute_text (a := true) h.plain).mpr rfl
    rw [← hminus, is_absolute_text h.plain] at habs
    exact of_decide_eq_true habs
  · rename_i hne
    rw [canonical_ending hne] at hliteral hminus ⊢
    have hfront : AtFront (text d.is_absolute d.names ++ ending d.trailing) (text false (below d p)) := by
      obtain ⟨p', hp', hor⟩ := minus_literal (c := false) d.names_plain hne h.plain h.inside hliteral
      simp only [append_ending_false] at hp' hor
      refine hor.resolve_right fun hlt => ?_
      rw [Option.some.inj (hp'.symm.trans hminus), components_text h.plain] at hlt
      exact lt_irrefl _ hlt
    have hrest := minus_of_atFront (b := d.trailing) (c := false) d.names_plain hne h.plain h.inside
      (by rwa [append_ending_false])
    simp only [append_ending_false] at hrest
    refine ⟨fun htrailing => ?_, hfront⟩
    rw [hminus, Option.some.injEq] at hrest
    have habs := (is_absolute_text (a := true) h.plain).mpr rfl
    rw [hrest, is_absolute_text h.plain, decide_eq_true htrailing] at habs
    cases habs

end

/-! ## One event -/

/-- Where the file goes in the journal. -/
def Watch.journal_path (c : Watch) (e : Debounce.Event) : PathString :=
  div c.journal_directory (text true (below c.data_directory e.path))

/-- Nothing is in the way of a put: the name of the file can be read as a regular expression, the
file can be moved and removed again, and the ring has no directory under its uri. -/
structure Smooth (c : Watch) (s : Surroundings) (e : Debounce.Event) : Prop where
  named : minus (c.journal_path e) (PathString.filename (c.journal_path e)) ≠ none
  moved : s.moved
  file : s.disk.is_directory (c.journal_path e) = false
  free : s.is_directory (text true (below c.data_directory e.path)) = some false
  cleaned : s.cleaned

/-- An event that the handler acts on as it should. -/
structure Handled (c : Watch) (s : Surroundings) (e : Debounce.Event) : Prop where
  /-- A put: the data directory comes off, and a removal at the same time is of a known file. -/
  update : updated e → ComesOff c.data_directory (below c.data_directory e.path) ∧ Smooth c s e ∧
    (removed e → c.exists_at (c.target e))
  /-- A delete goes to the whole path, which is the right one below the root only. -/
  remove : removed e → c.exists_at (c.target e) →
    (c.data_directory.names = [] ∧ c.data_directory.is_absolute) ∧ s.del ≠ none
  /-- A removal that is dropped: the path that is left is not known either. -/
  drop : removed e → ¬ updated e → ¬ c.exists_at (c.target e) →
    ∀ p, minus e.path c.data_directory = some p → ¬ c.exists_at (as_uri p)

section

variable {c : Watch} {s : Surroundings} {e : Debounce.Event}

theorem as_uri_inj {p q : PathString} : as_uri p = as_uri q ↔ p.canonical = q.canonical := by
  simp [as_uri]

theorem as_uri_canonical (p : PathString) : as_uri p.canonical = as_uri p :=
  as_uri_inj.mpr p.canonical_canonical

theorem path_as_uri_text {l : List Name} (h : ∀ n ∈ l, Plain n) : (as_uri (text true l)).path = text true l :=
  canonical_text h

/-- `put` of one file, where the ring has no directory under the target. -/
theorem put_of_file (put_file : PathString → PathString → StatusCode) {disk : Disk}
    {is_directory : PathString → Option Bool} {source target : PathString}
    (hfile : disk.is_directory source = false) (hfree : is_directory target = some false) :
    put put_file disk is_directory source target =
      (.returned (put_file source target.canonical), [⟨source, target.canonical⟩]) := by
  rw [put, hfile, hfree]
  rfl

theorem put_file_journal_of {data_path p q : PathString} {status : Outcome} {uploads : List Upload}
    (hminus : minus data_path c.data_directory = some p)
    (hnamed : minus (div c.journal_directory p) (PathString.filename (div c.journal_directory p)) = some q)
    (hmoved : s.moved) (hput : put s.put_file s.disk s.is_directory (div c.journal_directory p)
      (as_uri p).path = (status, uploads)) :
    put_file_journal c s data_path = (if status = .returned .OK ∧ ¬ s.cleaned then .threw else status,
      uploads.map fun x => .put (as_uri x.target)) := by
  unfold put_file_journal
  rw [hminus]
  dsimp only
  rw [hnamed]
  dsimp only
  rw [if_pos hmoved, hput]

/-- The put of a file, at the right path. -/
theorem put_file_journal_eq (hplain : ∀ n ∈ below c.data_directory e.path, Plain n)
    (hminus : minus e.path c.data_directory = some (text true (below c.data_directory e.path)))
    (h : Smooth c s e) : ∃ outcome, put_file_journal c s e.path = (outcome, [.put (c.target e)]) ∧
      outcome ≠ .threw := by
  obtain ⟨q, hq⟩ := Option.ne_none_iff_exists'.mp h.named
  have hpath := path_as_uri_text hplain
  have hput := put_of_file s.put_file h.file h.free
  rw [← hpath] at hput
  have hall := put_file_journal_of hminus hq h.moved hput
  rw [if_neg fun hdirty => hdirty.2 h.cleaned, List.map_cons, List.map_nil, as_uri_canonical, hpath] at hall
  exact ⟨_, hall, by simp⟩

theorem root_target (hbelow : Below c.data_directory e.path)
    (hroot : c.data_directory.names = [] ∧ c.data_directory.is_absolute) :
    as_uri e.path = c.target e := by
  rw [Watch.target, as_uri_inj, hbelow.canonical_eq, hroot.1, decide_eq_true hroot.2, List.nil_append,
    canonical_text hbelow.plain]

theorem handle_fs_remove_returns (e : Debounce.Event) (hdel : s.del ≠ none) :
    (handle_fs_remove s e).1 ≠ .threw := by
  obtain ⟨status, hstatus⟩ := Option.ne_none_iff_exists'.mp hdel
  rw [handle_fs_remove, hstatus]
  simp

/-- The delete of a file below the root, at the right uri. -/
theorem handle_fs_remove_root (hbelow : Below c.data_directory e.path)
    (hroot : c.data_directory.names = [] ∧ c.data_directory.is_absolute) (hdel : s.del ≠ none) :
    ∃ outcome, handle_fs_remove s e = (outcome, [.del (c.target e) true]) ∧ outcome ≠ .threw := by
  rw [← root_target hbelow hroot]
  exact ⟨_, rfl, handle_fs_remove_returns e hdel⟩

/-- An event that is handled as it should be: it is dropped and nothing is expected, or the
operations are those expected and the loop goes on. -/
theorem Handled.spec (hbelow : Below c.data_directory e.path) (h : Handled c s e)
    (hminus : minus e.path c.data_directory ≠ none) :
    erased c e = some true ∧ c.expected e = [] ∨
      erased c e ≠ some true ∧ ∃ outcome, handle c s e = (outcome, c.expected e) ∧ outcome ≠ .threw := by
  obtain ⟨p, hp⟩ := Option.ne_none_iff_exists'.mp hminus
  have herased : erased c e = some true ↔ removed e ∧ ¬ c.exists_at (as_uri p) := by
    rw [erased, hp, Option.map_some, Option.some.injEq, decide_eq_true_iff]
  rw [ne_eq, herased, handle, Watch.expected]
  by_cases hu : updated e
  · obtain ⟨hoff, hsmooth, hknown⟩ := h.update hu
    have hright := minus_of_comesOff hbelow hoff
    obtain ⟨outcome, hput, hok⟩ := put_file_journal_eq hbelow.plain hright hsmooth
    obtain rfl : p = text true (below c.data_directory e.path) := Option.some.inj (hp.symm.trans hright)
    right
    refine ⟨fun hdrop => hdrop.2 (hknown hdrop.1), ?_⟩
    rw [if_pos hu, if_pos hu, handle_fs_update, hput]
    dsimp only
    rw [if_neg hok]
    by_cases hr : removed e
    · obtain ⟨hroot, hdel⟩ := h.remove hr (hknown hr)
      obtain ⟨outcome, hremove, hreturns⟩ := handle_fs_remove_root hbelow hroot hdel
      rw [if_pos hr, if_pos ⟨hr, hknown hr⟩, hremove]
      exact ⟨_, rfl, hreturns⟩
    · rw [if_neg hr, if_neg fun hboth => hr hboth.1]
      exact ⟨_, rfl, by simp⟩
  · rw [if_neg hu, if_neg hu]
    by_cases hr : removed e
    · by_cases hknown : c.exists_at (c.target e)
      · obtain ⟨hroot, hdel⟩ := h.remove hr hknown
        obtain ⟨outcome, hremove, hreturns⟩ := handle_fs_remove_root hbelow hroot hdel
        have hoff : ComesOff c.data_directory (below c.data_directory e.path) := by
          rw [ComesOff, if_pos hroot.1]
          exact hroot.2
        obtain rfl := Option.some.inj (hp.symm.trans (minus_of_comesOff hbelow hoff))
        right
        refine ⟨fun hdrop => hdrop.2 hknown, ?_⟩
        rw [if_pos hr, if_pos ⟨hr, hknown⟩, hremove]
        exact ⟨_, rfl, hreturns⟩
      · left
        exact ⟨⟨hr, h.drop hr hu hknown p hp⟩, by rw [if_neg fun hboth => hknown hboth.2]; rfl⟩
    · right
      refine ⟨fun hdrop => hr hdrop.1, ?_⟩
      rw [if_neg hr, if_neg fun hboth => hr hboth.1]
      exact ⟨_, rfl, by simp⟩

end

/-! ## The whole batch -/

section

variable {c : Watch}

theorem handle_all_of_handled {events : List (Debounce.Event × Surroundings)}
    (hbelow : ∀ x ∈ events, Below c.data_directory x.1.path) (h : ∀ x ∈ events, Handled c x.2 x.1)
    (hminus : ∀ x ∈ events, minus x.1.path c.data_directory ≠ none) :
    handle_all c events = events.map fun x => c.expected x.1 := by
  induction events with
  | nil => rfl
  | cons x events ih =>
    obtain ⟨e, s⟩ := x
    obtain ⟨hb, hbelow⟩ := List.forall_mem_cons.mp hbelow
    obtain ⟨hx, h⟩ := List.forall_mem_cons.mp h
    obtain ⟨hm, hminus⟩ := List.forall_mem_cons.mp hminus
    have hrest := ih hbelow h hminus
    rw [handle_all, List.map_cons]
    rcases hx.spec hb hm with ⟨hdrop, hnothing⟩ | ⟨hkeep, outcome, hhandle, hok⟩
    · rw [if_pos hdrop, hnothing, hrest]
    · rw [if_neg hkeep, hhandle]
      dsimp only
      rw [if_neg hok, hrest]

theorem erased_eq_none {e : Debounce.Event} : erased c e = none ↔ minus e.path c.data_directory = none :=
  Option.map_eq_none_iff

/-- The data directory is read as a regular expression once for all events. -/
theorem minus_ne_none {d : PathString} (h : d.names = [] ∨ parse d.canonical ≠ none) (p : PathString) :
    minus p d ≠ none := by
  unfold minus
  dsimp only
  split
  · simp
  · rename_i hne
    rw [ne_eq, Option.map_eq_none_iff]
    refine h.resolve_left fun hnil => hne ?_
    rw [canonical_root hnil, text_nil]
    split
    · right; rfl
    · left; rfl

theorem ComesOff.parses {d : PathString} {r : List Name} (h : ComesOff d r) :
    d.names = [] ∨ parse d.canonical ≠ none := by
  unfold ComesOff at h
  split at h
  · left; assumption
  · obtain ⟨-, pattern, hparse, -⟩ := h
    right
    rw [hparse]
    simp

theorem on_fs_event_of_handled {events : List (Debounce.Event × Surroundings)}
    (hbelow : ∀ x ∈ events, Below c.data_directory x.1.path) (h : ∀ x ∈ events, Handled c x.2 x.1) :
    on_fs_event c events = events.map fun x => c.expected x.1 := by
  unfold on_fs_event
  split
  · -- the filter throws, and no event was to be handled
    rename_i hthrow
    obtain ⟨y, -, hy⟩ := hthrow
    rw [erased_eq_none] at hy
    apply List.map_congr_left
    intro x hx
    have hu : ¬ updated x.1 := fun hu => minus_ne_none ((h x hx).update hu).1.parses _ hy
    have hr : ¬ (removed x.1 ∧ c.exists_at (c.target x.1)) := fun hr =>
      minus_ne_none (Or.inl ((h x hx).remove hr.1 hr.2).1.1) _ hy
    rw [Watch.expected, if_neg hu, if_neg hr]
    rfl
  · rename_i hno
    apply handle_all_of_handled hbelow h
    exact fun x hx hnone => hno ⟨x, hx, erased_eq_none.mpr hnone⟩

/-! ## With a literal data directory -/

/-- The moved file is a file, the ring has no directories in its place, and nothing throws after
an operation. -/
structure Calm (s : Surroundings) : Prop where
  file : ∀ p, s.disk.is_directory p = false
  free : ∀ p, s.is_directory p ≠ some true
  cleaned : s.cleaned
  del : s.del ≠ none

section

variable {s : Surroundings} {e : Debounce.Event}

theorem put_file_journal_cases (hcalm : Calm s) (data_path : PathString) :
    put_file_journal c s data_path = (.threw, []) ∨
      ∃ p outcome, minus data_path c.data_directory = some p ∧
        minus (div c.journal_directory p) (PathString.filename (div c.journal_directory p)) ≠ none ∧
        s.moved ∧ s.is_directory (as_uri p).path = some false ∧
        put_file_journal c s data_path = (outcome, [.put (as_uri p)]) ∧ outcome ≠ .threw := by
  cases hm : minus data_path c.data_directory with
  | none => left; unfold put_file_journal; rw [hm]
  | some p =>
    cases hn : minus (div c.journal_directory p) (PathString.filename (div c.journal_directory p)) with
    | none => left; unfold put_file_journal; rw [hm]; dsimp only; rw [hn]
    | some q =>
      by_cases hmoved : s.moved
      · cases hd : s.is_directory (as_uri p).path with
        | none =>
          left
          have hput : put s.put_file s.disk s.is_directory (div c.journal_directory p) (as_uri p).path =
              (.threw, []) := by
            rw [put, hcalm.file, hd]
            rfl
          rw [put_file_journal_of hm hn hmoved hput]
          rfl
        | some b =>
          cases b with
          | true => exact absurd hd (hcalm.free _)
          | false =>
            right
            have hall := put_file_journal_of hm hn hmoved (put_of_file s.put_file (hcalm.file _) hd)
            have hpath : as_uri (as_uri p).path = as_uri p := as_uri_canonical p
            rw [if_neg fun hdirty => hdirty.2 hcalm.cleaned, List.map_cons, List.map_nil,
              as_uri_canonical, hpath] at hall
            exact ⟨p, _, rfl, by rw [hn]; simp, hmoved, hd, hall, by simp⟩
      · left
        unfold put_file_journal
        rw [hm]
        dsimp only
        rw [hn]
        dsimp only
        rw [if_neg hmoved]

/-- The whole path is the right one below the root only. -/
theorem root_of_target (hbelow : Below c.data_directory e.path) (h : as_uri e.path = c.target e) :
    c.data_directory.names = [] ∧ c.data_directory.is_absolute := by
  have hall : ∀ n ∈ c.data_directory.names ++ below c.data_directory e.path, Plain n := by
    intro n hn
    exact (List.mem_append.mp hn).elim (c.data_directory.names_plain n) (hbelow.plain n)
  rw [Watch.target, as_uri_inj, hbelow.canonical_eq, canonical_text hbelow.plain] at h
  have hnames := congrArg PathString.components h
  have habs := (is_absolute_text (a := true) hbelow.plain).mpr rfl
  rw [components_text hall, components_text hbelow.plain] at hnames
  rw [← h, is_absolute_text hall] at habs
  exact ⟨List.append_left_eq_self.mp hnames, of_decide_eq_true habs⟩

theorem handled_of_dropped (hdrop : erased c e = some true) (hnothing : c.expected e = []) :
    Handled c s e := by
  rw [erased, Option.map_eq_some_iff] at hdrop
  obtain ⟨p, hp, hstale⟩ := hdrop
  obtain ⟨hr, hnot⟩ := of_decide_eq_true hstale
  rw [Watch.expected, List.append_eq_nil_iff] at hnothing
  have hu : ¬ updated e := by
    intro hu
    rw [if_pos hu] at hnothing
    cases hnothing.1
  have hunknown : ¬ (removed e ∧ c.exists_at (c.target e)) := by
    intro hboth
    rw [if_pos hboth] at hnothing
    cases hnothing.2
  constructor
  · intro hupdated
    exact absurd hupdated hu
  · intro hremoved hknown
    exact absurd ⟨hremoved, hknown⟩ hunknown
  · intro _ _ _ q hq
    rwa [← Option.some.inj (hp.symm.trans hq)]

/-- What is put at the right uri had the data directory taken off. -/
theorem right_of_put (hbelow : Below c.data_directory e.path) {p : PathString}
    (hp : minus e.path c.data_directory = some p) (h : as_uri p = c.target e) :
    p = text true (below c.data_directory e.path) := by
  rw [Watch.target, as_uri_inj, canonical_text hbelow.plain] at h
  rwa [minus_canonical hp] at h

theorem removal_of_eq (hbelow : Below c.data_directory e.path)
    (h : [Operation.del (as_uri e.path) true] =
      if removed e ∧ c.exists_at (c.target e) then [.del (c.target e) true] else []) :
    c.exists_at (c.target e) ∧ c.data_directory.names = [] ∧ c.data_directory.is_absolute := by
  split at h
  · rename_i hboth
    rw [List.cons.injEq, Operation.del.injEq] at h
    exact ⟨hboth.2, root_of_target hbelow h.1.1⟩
  · cases h

theorem handled_of_put (hbelow : Below c.data_directory e.path)
    (hliteral : Literal c.data_directory.canonical) (hcalm : Calm s) (hkeep : erased c e ≠ some true)
    (hu : updated e) (h : (handle c s e).2 = c.expected e) : Handled c s e ∧ (handle c s e).1 ≠ .threw := by
  rw [Watch.expected, if_pos hu, handle, if_pos hu, handle_fs_update] at h
  rw [handle, if_pos hu, handle_fs_update]
  rcases put_file_journal_cases hcalm e.path with hthrew | ⟨p, outcome, hp, hnamed, hmoved, hfree, hput, hok⟩
  · rw [hthrew] at h
    cases h
  · rw [hput] at h ⊢
    dsimp only at h ⊢
    rw [if_neg hok] at h ⊢
    rw [List.singleton_append, List.singleton_append, List.cons.injEq, Operation.put.injEq] at h
    obtain rfl := right_of_put hbelow hp h.1
    have hknown : removed e → c.exists_at (c.target e) := by
      intro hr
      by_contra hunknown
      refine hkeep ?_
      rw [erased, hp, Option.map_some, Option.some.injEq, decide_eq_true_iff]
      exact ⟨hr, hunknown⟩
    refine ⟨⟨fun _ => ⟨?_, ?_, hknown⟩, fun hr _ => ⟨?_, hcalm.del⟩, fun _ hnot => absurd hu hnot⟩, ?_⟩
    · exact comesOff_of_minus hbelow hliteral hp
    · rw [path_as_uri_text hbelow.plain] at hfree
      exact ⟨hnamed, hmoved, hcalm.file _, hfree, hcalm.cleaned⟩
    · have hdel := h.2
      rw [if_pos hr] at hdel
      exact (removal_of_eq hbelow hdel).2
    · split
      · exact handle_fs_remove_returns e hcalm.del
      · simp

theorem handled_of_remove (hbelow : Below c.data_directory e.path) (hcalm : Calm s) (hu : ¬ updated e)
    (h : (handle c s e).2 = c.expected e) : Handled c s e ∧ (handle c s e).1 ≠ .threw := by
  rw [Watch.expected, if_neg hu, handle, if_neg hu] at h
  rw [handle, if_neg hu]
  dsimp only at h ⊢
  rw [if_neg (by simp)] at h ⊢
  by_cases hr : removed e
  · rw [if_pos hr] at h ⊢
    obtain ⟨hknown, hroot⟩ := removal_of_eq hbelow h
    refine ⟨⟨fun hupdated => absurd hupdated hu, fun _ _ => ⟨hroot, hcalm.del⟩, ?_⟩, ?_⟩
    · intro _ _ hunknown
      exact absurd hknown hunknown
    · exact handle_fs_remove_returns e hcalm.del
  · rw [if_neg hr] at h ⊢
    refine ⟨⟨fun hupdated => absurd hupdated hu, fun hremoved => absurd hremoved hr, ?_⟩, by simp⟩
    intro hremoved
    exact absurd hremoved hr

theorem handled_of_eq (hbelow : Below c.data_directory e.path) (hliteral : Literal c.data_directory.canonical)
    (hcalm : Calm s) (hkeep : erased c e ≠ some true) (h : (handle c s e).2 = c.expected e) :
    Handled c s e ∧ (handle c s e).1 ≠ .threw := by
  by_cases hu : updated e
  · exact handled_of_put hbelow hliteral hcalm hkeep hu h
  · exact handled_of_remove hbelow hcalm hu h

end

theorem handled_of_handle_all {events : List (Debounce.Event × Surroundings)}
    (hbelow : ∀ x ∈ events, Below c.data_directory x.1.path) (hliteral : Literal c.data_directory.canonical)
    (hcalm : ∀ x ∈ events, Calm x.2)
    (h : handle_all c events = events.map fun x => c.expected x.1) : ∀ x ∈ events, Handled c x.2 x.1 := by
  induction events with
  | nil => intro x hx; cases hx
  | cons x events ih =>
    obtain ⟨e, s⟩ := x
    obtain ⟨hb, hbelow⟩ := List.forall_mem_cons.mp hbelow
    obtain ⟨hs, hcalm⟩ := List.forall_mem_cons.mp hcalm
    rw [List.forall_mem_cons]
    rw [handle_all, List.map_cons] at h
    split at h
    · rename_i hdrop
      rw [List.cons.injEq] at h
      exact ⟨handled_of_dropped hdrop h.1.symm, ih hbelow hcalm h.2⟩
    · rename_i hkeep
      rw [List.cons.injEq] at h
      obtain ⟨hhandled, hok⟩ := handled_of_eq hb hliteral hs hkeep h.1
      have hrest := h.2
      rw [if_neg hok] at hrest
      exact ⟨hhandled, ih hbelow hcalm hrest⟩

/-- The default directories. -/
def default_watch (metadata : Database) : Watch where
  data_directory := ['.', '/', 'd', 'a', 't', 'a']
  journal_directory := div ['.', '/', 'm', 'e', 't', 'a', 'd', 'a', 't', 'a']
    ['j', 'o', 'u', 'r', 'n', 'a', 'l']
  metadata := metadata

/-- A disk of files, and a ring without directories. -/
def quiet_surroundings : Surroundings where
  disk := ⟨fun _ => false, fun _ => []⟩
  moved := true
  is_directory := fun _ => some false
  put_file := fun _ _ => .OK
  cleaned := true
  del := some .OK

end

end Facade

end Fs

end Chord
