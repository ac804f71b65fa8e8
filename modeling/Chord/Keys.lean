import Chord.Canonical
import Chord.Common
import Chord.Uri

/-!
# Keys on the ring and in the database

The key of a uri is the hash of its text, the one of its entry is its path.
-/

namespace Chord

namespace PathString

/-! ## Spellings of one location -/

/-- Where a path leads, whatever is on the disk. -/
structure Location where
  absolute : Bool
  names : List (List Char)
  deriving DecidableEq

/-- `..` goes up from a name, stays at the root, and is kept at the beginning of a relative path. -/
def location_step (absolute : Bool) (names : List (List Char)) (n : List Char) : List (List Char) :=
  if n = ['.'] then names
  else if n = ['.', '.'] then
    match names.getLast? with
    | none => if absolute then [] else [n]
    | some m => if m = ['.', '.'] then names ++ [n] else names.dropLast
  else names ++ [n]

def location (p : PathString) : Location where
  absolute := p.is_absolute
  names := p.components.foldl (location_step p.is_absolute) []

/-- Going up comes first. -/
def UpFirst (l : List (List Char)) : Prop :=
  ∃ up down, l = up ++ down ∧ (∀ n ∈ up, n = ['.', '.']) ∧ ∀ n ∈ down, n ≠ ['.', '.']

/-- The names after what goes up. -/
def below (l : List (List Char)) : List (List Char) := l.filter (· ≠ ['.', '.'])

theorem below_append {up down : List (List Char)} (hup : ∀ n ∈ up, n = ['.', '.'])
    (hdown : ∀ n ∈ down, n ≠ ['.', '.']) :
    below (up ++ down) = down := by
  have hnone : up.filter (· ≠ ['.', '.']) = [] :=
    List.filter_eq_nil_iff.mpr fun n hn => by simpa using hup n hn
  have hall : down.filter (· ≠ ['.', '.']) = down :=
    List.filter_eq_self.mpr fun n hn => by simpa using hdown n hn
  rw [below, List.filter_append, hnone, hall, List.nil_append]

theorem location_step_below {l : List (List Char)} (h : UpFirst l) (a : Bool) (n : List Char) :
    UpFirst (location_step a l n) ∧ names_step (below l) n = below (location_step a l n) := by
  obtain ⟨up, down, rfl, hup, hdown⟩ := h
  rw [below_append hup hdown]
  unfold location_step names_step
  by_cases hdot : n = ['.']
  · rw [if_pos hdot, if_neg (by rw [hdot]; decide), if_pos hdot, below_append hup hdown]
    exact ⟨⟨up, down, rfl, hup, hdown⟩, rfl⟩
  rw [if_neg hdot]
  by_cases hdot_dot : n = ['.', '.']
  · rw [if_pos hdot_dot, if_pos hdot_dot]
    have hup' : ∀ m ∈ up ++ [n], m = ['.', '.'] := by simpa [or_imp, forall_and, hdot_dot] using hup
    rcases List.eq_nil_or_concat down with rfl | ⟨k, m, rfl⟩
    · -- nothing to go up from
      have hkept : UpFirst (up ++ [n]) ∧ ([] : List (List Char)).dropLast = below (up ++ [n]) :=
        ⟨⟨up ++ [n], [], (List.append_nil _).symm, hup', hdown⟩,
          by rw [← List.append_nil (up ++ [n]), below_append hup' hdown]; rfl⟩
      rw [List.append_nil]
      rcases List.eq_nil_or_concat up with rfl | ⟨j, m, rfl⟩
      · cases a
        · exact hkept
        · exact ⟨⟨[], [], rfl, hup, hdown⟩, rfl⟩
      · rw [List.concat_eq_append] at hup hkept ⊢
        rw [List.getLast?_concat]
        simp only [if_pos (hup m (by simp))]
        exact hkept
    · rw [List.concat_eq_append] at hdown ⊢
      have hk : ∀ x ∈ k, x ≠ ['.', '.'] := fun x hx => hdown x (List.mem_append_left _ hx)
      rw [← List.append_assoc, List.getLast?_concat]
      simp only [if_neg (hdown m (by simp)), List.dropLast_concat]
      exact ⟨⟨up, k, rfl, hup, hk⟩, (below_append hup hk).symm⟩
  · rw [if_neg hdot_dot, if_neg hdot_dot, if_neg hdot, List.append_assoc]
    have hdown' : ∀ m ∈ down ++ [n], m ≠ ['.', '.'] := by simpa [or_imp, forall_and, hdot_dot] using hdown
    exact ⟨⟨up, down ++ [n], rfl, hup, hdown'⟩, (below_append hup hdown').symm⟩

theorem names_eq_below (p : PathString) : p.names = below p.location.names := by
  have hfold : ∀ (ns l : List (List Char)), UpFirst l →
      ns.foldl names_step (below l) = below (ns.foldl (location_step p.is_absolute) l) := by
    intro ns
    induction ns with
    | nil => exact fun _ _ => rfl
    | cons n ns ih =>
      intro l hl
      obtain ⟨hstep, heq⟩ := location_step_below hl p.is_absolute n
      rw [List.foldl_cons, List.foldl_cons, heq]
      exact ih _ hstep
  exact hfold p.components [] ⟨[], [], rfl, by simp, by simp⟩

/-- Two spellings of one location differ in the separator at their end. -/
theorem canonical_eq_iff {p q : PathString} (h : p.location = q.location) :
    p.canonical = q.canonical ↔ (p.trailing ↔ q.trailing) ∨ ∀ n ∈ p.location.names, n = ['.', '.'] := by
  have hnames : q.names = p.names := by rw [names_eq_below, names_eq_below, h]
  have habsolute : decide p.is_absolute = decide q.is_absolute := congrArg Location.absolute h
  have hnil : p.names = [] ↔ ∀ n ∈ p.location.names, n = ['.', '.'] := by
    rw [names_eq_below, below, List.filter_eq_nil_iff]
    simp
  rw [← hnil]
  constructor
  · intro heq
    have hp := p.canonical_parts.2.2
    have hq := q.canonical_parts.2.2
    rw [heq, hq, hnames] at hp
    tauto
  · intro hend
    rw [canonical_eq p, canonical_eq q, hnames, habsolute]
    congr 1
    exact if_congr (by tauto) rfl rfl

end PathString

namespace Uri

/-- `uri::uri(scheme, path)`. -/
def of_path (scheme : List Char) (p : PathString) : Uri :=
  { scheme := scheme, auth := none, path := p.canonical, query := [], fragment := [] }

/-- Two paths make uris with one hash, one owner and one entry. -/
structure OneKey (p q : PathString) : Prop where
  canonical : p.canonical = q.canonical
  hash : ∀ (sha256 : List Char → Uuid) (scheme : List Char),
    sha256 (to_string (of_path scheme p)) = sha256 (to_string (of_path scheme q))
  owner : ∀ (sha256 : List Char → Uuid) (successor : Uuid → Option Node) (scheme : List Char),
    successor (sha256 (to_string (of_path scheme p))) = successor (sha256 (to_string (of_path scheme q)))
  entry : ∀ scheme, (of_path scheme p).path = (of_path scheme q).path
  idempotent : p.canonical.canonical = p.canonical

end Uri

/-! ## What the client looks up -/

namespace Fs

inductive Action where
  | ADD
  | DEL
  | DIR

/-- The calls of `Client` that look for the node themselves. -/
inductive ClientCall where
  | put
  | get
  | del
  | mov (dst : Uri)
  | «meta» (action : Action)
  | dir

open Uri

/-- `uri::builder{scheme, path}.build()`. -/
def meta_uri (u : Uri) : Except UriError Uri :=
  Builder.build { scheme := u.scheme, path := u.path.canonical }

/-- The ids of a call, in the order in which `successor` is asked for them. -/
def looked_up (sha256 : List Char → Uuid) (u : Uri) : ClientCall → Except UriError (List Uuid)
  | .put => .ok [sha256 (to_string u)]
  | .get => .ok [sha256 (to_string u)]
  | .del => .ok [sha256 (to_string u)]
  | .mov dst => .ok (if to_string u = to_string dst then [] else [sha256 (to_string u)])
  | .«meta» action => do
    let meta_uri ← meta_uri u
    match action with
    | .DIR => .ok [sha256 (to_string u), sha256 (to_string meta_uri)]
    | .ADD => .ok [sha256 (to_string u)]
    | .DEL => .ok [sha256 (to_string u)]
  | .dir => do
    let meta_uri ← meta_uri u
    .ok [sha256 (to_string meta_uri)]

/-- Whatever the hash, every call looks for the id of the scheme and the path. -/
def OneOwner (u : Uri) : Prop :=
  ∀ (sha256 : List Char → Uuid) (call : ClientCall), ∃ ids, looked_up sha256 u call = .ok ids ∧
    ∀ id ∈ ids, id = sha256 (u.scheme ++ [':', '/', '/'] ++ u.path.canonical)

/-- What `uri::from` makes. -/
structure Accepted (u : Uri) : Prop where
  scheme : u.scheme ≠ []
  path : u.path.canonical = u.path
  host : ∀ a ∈ u.auth, a.host ≠ []

theorem accepted {s : List Char} {u : Uri} (h : from_string s = .ok u) : Accepted u := by
  unfold from_string at h
  split at h
  · cases h
  · cases hb : with_authority {} (Regex.str _ 4) with
    | error e =>
      rw [hb] at h
      cases h
    | ok b =>
      rw [hb] at h
      have h : Builder.build _ = .ok u := h
      unfold Builder.build at h
      split at h
      · cases h
      · rename_i hne
        cases h
        refine ⟨fun hnil => hne (Or.inl hnil), PathString.canonical_canonical _, ?_⟩
        intro a ha
        dsimp only at ha
        split at ha
        · rename_i hhost
          cases ha
          exact hhost
        · cases ha

theorem meta_uri_eq {u : Uri} (h : Accepted u) (hpath : u.path ≠ []) :
    meta_uri u = .ok (of_path u.scheme u.path) := by
  rw [meta_uri, Builder.build, if_neg (by simp [h.scheme, h.path, hpath]), of_path, h.path, h.path]
  rfl

/-- The text of a uri is longer than its scheme and its path, unless it has nothing else. -/
theorem to_string_eq_iff {u : Uri} (h : Accepted u) :
    to_string u = u.scheme ++ [':', '/', '/'] ++ u.path ↔ u.auth = none ∧ u.query = [] ∧ u.fragment = [] := by
  constructor
  · intro heq
    have hlength := congrArg List.length heq
    simp only [to_string, List.length_append] at hlength
    refine ⟨?_, ?_, ?_⟩
    · cases hauth : u.auth with
      | none => rfl
      | some a =>
        have hhost : 0 < a.host.length := List.length_pos_iff.mpr (h.host a hauth)
        rw [hauth] at hlength
        simp only [Option.elim_some, authority_string, List.length_append] at hlength
        omega
    · by_contra hquery
      rw [if_pos hquery] at hlength
      simp only [List.length_cons] at hlength
      omega
    · by_contra hfragment
      simp only [if_pos hfragment, List.length_cons] at hlength
      omega
  · rintro ⟨hauth, hquery, hfragment⟩
    simp [to_string, hauth, hquery, hfragment]

/-- The calls agree on the owner of a uri that is a scheme and a path. -/
theorem one_owner_iff (s : List Char) (u : Uri) (h : from_string s = .ok u) :
    OneOwner u ↔ u.auth = none ∧ u.query = [] ∧ u.fragment = [] ∧ u.path ≠ [] := by
  have hu := accepted h
  constructor
  · intro howner
    have hpath : u.path ≠ [] := by
      intro hnil
      obtain ⟨ids, hids, -⟩ := howner (fun _ => 0) .dir
      rw [looked_up, meta_uri, Builder.build, if_pos (Or.inr (by rw [hu.path, hnil]))] at hids
      cases hids
    -- a hash that tells the two texts apart
    obtain ⟨ids, hids, hput⟩ := howner (fun t => if t = to_string u then 0 else 1) .put
    cases hids
    have heq : (if to_string u = to_string u then 0 else 1 : Uuid) = _ := hput _ List.mem_cons_self
    rw [if_pos rfl, hu.path] at heq
    have htext : to_string u = u.scheme ++ [':', '/', '/'] ++ u.path := by
      by_contra hne
      rw [if_neg (Ne.symm hne)] at heq
      exact absurd heq (by decide)
    obtain ⟨hauth, hquery, hfragment⟩ := (to_string_eq_iff hu).mp htext
    exact ⟨hauth, hquery, hfragment, hpath⟩
  · rintro ⟨hauth, hquery, hfragment, hpath⟩ sha256 call
    have htext : to_string u = u.scheme ++ [':', '/', '/'] ++ u.path :=
      (to_string_eq_iff hu).mpr ⟨hauth, hquery, hfragment⟩
    have hmeta : to_string (of_path u.scheme u.path) = u.scheme ++ [':', '/', '/'] ++ u.path := by
      simp [to_string, of_path, hu.path]
    rw [hu.path]
    cases call with
    | put => exact ⟨_, rfl, by simp [htext]⟩
    | get => exact ⟨_, rfl, by simp [htext]⟩
    | del => exact ⟨_, rfl, by simp [htext]⟩
    | mov dst =>
      refine ⟨_, rfl, fun id hid => ?_⟩
      split at hid
      · cases hid
      · rw [List.mem_singleton.mp hid, htext]
    | «meta» action =>
      rw [looked_up, meta_uri_eq hu hpath]
      cases action
      · exact ⟨_, rfl, by simp [htext]⟩
      · exact ⟨_, rfl, by simp [htext]⟩
      · exact ⟨_, rfl, by simp [htext, hmeta]⟩
    | dir =>
      rw [looked_up, meta_uri_eq hu hpath]
      exact ⟨_, rfl, by simp [hmeta]⟩

theorem one_owner_iff_path : OneOwner ⟨['c'], none, ['/', 'a'], [], []⟩ :=
  (one_owner_iff ['c', ':', '/', 'a'] _ (by decide)).mpr ⟨rfl, rfl, rfl, by decide⟩

/-- `put` of `c://h/a`, and `dir` of it. -/
theorem host_moves_owner : ¬ ∀ s u, from_string s = .ok u → OneOwner u := by
  intro h
  have howner := h ['c', ':', '/', '/', 'h', '/', 'a'] ⟨['c'], some ⟨['h'], [], [], none⟩, ['/', 'a'], [], []⟩
      (by decide)
  obtain ⟨ids, hids, hput⟩ := howner (fun t => if t = ['c', ':', '/', '/', 'h', '/', 'a'] then 0 else 1) .put
  cases hids
  exact absurd (hput _ List.mem_cons_self) (by decide)

end Fs

end Chord
