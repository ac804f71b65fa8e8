import Chord.Fs.Deletion
import Chord.Fs.Grow

/-!
# Requests of clients, one after the other

The entries stay well formed in every run whose requests fit.
-/

namespace Chord

namespace Fs

open World

inductive Request where
  | mkdir (uri : Path) (count : UInt32)
  | put (uri : Path) (bytes : Bytes) (count : UInt32)
  | del (uri : Path) (recursive : Bool)
  deriving DecidableEq

namespace Request

def uri : Request → Path
  | mkdir uri _ => uri
  | put uri _ _ => uri
  | del uri _ => uri

/-- The uri that a request puts. -/
def puts : Request → List Path
  | put uri _ _ => [uri]
  | _ => []

end Request

section

variable (sha : Sha256)

/-- A request of a client at the node `self`. -/
def perform (fuel : Nat) (self : Peer) (w : World) : Request → Reply
  | .mkdir uri count => mkdir sha fuel w uri ⟨0, count⟩
  | .put uri bytes count => put_file sha fuel self w uri bytes ⟨0, count⟩
  | .del uri recursive => facade_del sha fuel w uri recursive

/-- Requests for uris without `.` and `..`, each of them one that `Ok` allows, and the uris that were
put. -/
inductive Requests (Ok : World → Request → Prop) (w₀ : World) : List Path → World → Prop
  | start : Requests Ok w₀ [] w₀
  | request {puts : List Path} {w w' : World} {status : StatusCode} (fuel : Nat) (self : Peer) (r : Request)
      (h : Requests Ok w₀ puts w) (huri : r.uri ≠ [] → FilePath r.uri) (hok : Ok w r)
      (hr : perform sha fuel self w r = some (w', status)) : Requests Ok w₀ (r.puts ++ puts) w'

end

/-! ## What a deletion leaves -/

/-- Every entry is what is left of an older one, and a listing is left of a listing. -/
def Shrunk (w₀ w : World) : Prop := ∀ u q s, (w.stores u).metadata.lookup q = some s →
  ∃ s₀, (w₀.stores u).metadata.lookup q = some s₀ ∧ s.Sublist s₀ ∧
    (MetaSet.is_directory s₀ → MetaSet.is_directory s)

/-- No path that is deleted is taken for a file because of a child with its name, and none has the
name of a file that its parent is. -/
def DelFits (w : World) (uri : Path) (recursive : Bool) : Prop :=
  ∀ q, q = uri ∨ recursive = true ∧ uri <+: q → ∀ u,
    (∀ s ∈ (w.stores u).metadata.lookup q, MetaSet.is_directory s →
      ∀ m ∈ s, m.name = filename q → m.file_type ≠ .directory → ¬ m.name < ['.']) ∧
    (HasFile (w.stores u) (parent_path q) → filename (parent_path q) ≠ filename q)

theorem MetaSet.Ordered.eq_of_name {s : MetaSet} (h : s.Ordered) {x y : Metadata} (hx : x ∈ s) (hy : y ∈ s)
    (hname : x.name = y.name) : x = y := by
  induction s with
  | nil => cases hx
  | cons z s ih =>
    obtain ⟨hz, hs⟩ := List.pairwise_cons.mp h
    rcases List.mem_cons.mp hx with rfl | hxs
    · rcases List.mem_cons.mp hy with rfl | hys
      · rfl
      · exact absurd (hname ▸ hz y hys) (List.lt_irrefl _)
    · rcases List.mem_cons.mp hy with rfl | hys
      · exact absurd (hname ▸ hz x hxs) (List.lt_irrefl _)
      · exact ih hs hxs hys

section

variable {puts : List Path} {p : Path} {s : MetaSet}

/-- The names in an entry that are not `.` and `..`. -/
theorem WellFormed.named (h : WellFormed puts p s) (hs : s.Ordered) (hp : p ≠ [] → Named (filename p))
    {m : Metadata} (hm : m ∈ s) (hnot : ¬ m.is_directory) : Named m.name := by
  rcases h with ⟨x, rfl, -, hname⟩ | hform
  · obtain rfl := List.mem_singleton.mp hm
    rw [hname]
    by_cases hnil : p = []
    · rw [hnil]
      exact ⟨by decide, by decide⟩
    · exact hp hnil
  · obtain ⟨x, hx, hxname, hxtype⟩ := hform.dot
    obtain ⟨y, hy, hyname, hytype⟩ := hform.dot_dot
    constructor
    · intro hname
      obtain rfl := hs.eq_of_name hm hx (hname.trans hxname.symm)
      exact hnot ⟨Or.inl hname, hxtype⟩
    · intro hname
      obtain rfl := hs.eq_of_name hm hy (hname.trans hyname.symm)
      exact hnot ⟨Or.inr hname, hytype⟩

/-- An entry that is deleted as a file is one. -/
theorem WellFormed.file_of_find (h : WellFormed puts p s) (hs : s.Ordered)
    (hfits : MetaSet.is_directory s → ∀ m ∈ s, m.name = filename p → m.file_type ≠ .directory →
    ¬ m.name < ['.'])
    (helement : ∃ element, s.find? (fun m => m.name = filename p ∨ m.is_directory) = some element ∧
      element.file_type ≠ .directory) : FileForm p s := by
  refine h.resolve_right fun hform => ?_
  obtain ⟨element, hfind, htype⟩ := helement
  have hmem := List.mem_of_find?_eq_some hfind
  have hname : element.name = filename p := by
    have hcond := List.find?_some hfind
    simp only [decide_eq_true_eq] at hcond
    exact hcond.resolve_right fun hdir => htype hdir.2
  obtain ⟨dot, hdot, hdotname, hdottype⟩ := hform.dot
  -- the `.` would have been found, if it were not after the element
  refine hfits hform.is_directory element hmem hname htype ?_
  obtain ⟨-, as, bs, rfl, has⟩ := List.find?_eq_some_iff_append.mp hfind
  rcases List.mem_append.mp hdot with hdot | hdot
  · have hnot := has dot hdot
    simp [Metadata.is_directory, hdotname, hdottype] at hnot
  · rcases List.mem_cons.mp hdot with rfl | hdot
    · exact absurd hdottype htype
    · have hlt := (List.pairwise_cons.mp (List.pairwise_append.mp hs).2.1).1 dot hdot
      rwa [hdotname] at hlt

end

/-! ## All disks after a deletion -/

namespace Shrunk

variable {w₀ w : World}

theorem refl (w : World) : Shrunk w w := fun _ _ s h => ⟨s, h, List.Sublist.refl s, id⟩

theorem set (h : Shrunk w₀ w) {u : Uuid} {store : Store}
    (hstore : ∀ q s, store.metadata.lookup q = some s → ∃ s₁, (w.stores u).metadata.lookup q = some s₁ ∧
    s.Sublist s₁ ∧
      (MetaSet.is_directory s₁ → MetaSet.is_directory s)) : Shrunk w₀ (w.set u store) := by
  intro v q s hlookup
  rcases eq_or_ne v u with rfl | hv
  · rw [set_stores_self] at hlookup
    obtain ⟨s₁, hs₁, hsub₁, hdir₁⟩ := hstore q s hlookup
    obtain ⟨s₀, hs₀, hsub₀, hdir₀⟩ := h v q s₁ hs₁
    exact ⟨s₀, hs₀, hsub₁.trans hsub₀, fun hdir => hdir₁ (hdir₀ hdir)⟩
  · rw [set_stores_of_ne hv] at hlookup
    exact h v q s hlookup

end Shrunk

/-- What a deletion keeps. -/
structure Shrinks (puts : List Path) (w₀ w : World) : Prop where
  ring : w.ring = w₀.ring
  up : w.up = w₀.up
  sound : Sound puts w
  shrunk : Shrunk w₀ w

section

variable {sha : Sha256} {puts : List Path} {w₀ w : World}

theorem Shrinks.set (h : Shrinks puts w₀ w) {u : Uuid} {store : Store}
    (hstore : ∀ q s, store.metadata.lookup q = some s → WellFormed puts q s ∧ ∃ s₁,
      (w.stores u).metadata.lookup q = some s₁ ∧ s.Sublist s₁ ∧
        (MetaSet.is_directory s₁ → MetaSet.is_directory s)) :
    Shrinks puts w₀ (w.set u store) := by
  refine ⟨h.ring, h.up, h.sound.set fun q s hlookup => ?_,
    h.shrunk.set fun q s hlookup => (hstore q s hlookup).2⟩
  obtain ⟨hform, s₁, hs₁, hsub, -⟩ := hstore q s hlookup
  exact ⟨(h.sound u q s₁ hs₁).1.sublist hsub, hform⟩

theorem Shrinks.unchanged (h : Shrinks puts w₀ w) {u : Uuid} {q : Path} {s : MetaSet}
    (hlookup : (w.stores u).metadata.lookup q = some s) : WellFormed puts q s ∧ ∃ s₁,
      (w.stores u).metadata.lookup q = some s₁ ∧ s.Sublist s₁ ∧
        (MetaSet.is_directory s₁ → MetaSet.is_directory s) :=
  ⟨(h.sound u q s hlookup).2, s, hlookup, List.Sublist.refl s, id⟩

/-- A name other than `.` and `..` that is not the one of a file whose entry is asked. -/
theorem Shrinks.meta_del (h : Shrinks puts w₀ w) (hsound : Sound puts w₀) {p : Path} {name : Name}
    (hname : Named name) (hfile : ∀ u, HasFile (w₀.stores u) p → filename p ≠ name) {records : MetaSet}
    (hrecords : ∀ m ∈ records, m.name = name) (fuel : Nat) (node : Node) (o : Options) :
    After (Shrinks puts w₀) (Fs.meta_del fuel w node p records o) := by
  refine meta_del_after (· = name) ?_ fuel w node records o hrecords h
  intro w u current names h hcurrent hnames
  refine h.set fun q s hlookup => ?_
  rcases eq_or_ne q p with rfl | hq
  · rw [AList.lookup_insert] at hlookup
    cases hlookup
    have hdot : ['.'] ∉ names := fun hmem => hname.1 (hnames _ hmem).symm
    have hdot_dot : ['.', '.'] ∉ names := fun hmem => hname.2 (hnames _ hmem).symm
    rcases (h.sound u q current hcurrent).2 with hform | hform
    · -- the entry of a file was one before, and has another name
      obtain ⟨s₀, hs₀, -, hdir⟩ := h.shrunk u q current hcurrent
      have hs₀file := (hsound u q s₀ hs₀).2.resolve_right fun hlisting =>
        hform.not_is_directory (hdir hlisting.is_directory)
      have hne := hfile u ⟨s₀, hs₀, hs₀file.is_regular_file⟩
      rw [hform.filter fun hmem => hne (hnames _ hmem)]
      exact h.unchanged hcurrent
    · have hleft := hform.filter hdot hdot_dot
      exact ⟨Or.inr hleft, current, hcurrent, List.filter_sublist, fun _ => hleft.is_directory⟩
  · rw [AList.lookup_insert_ne hq] at hlookup
    exact h.unchanged hlookup

/-- A deletion that fits keeps all entries well formed. -/
theorem del_keeps {uri : Path} {recursive : Bool} (huri : uri ≠ [] → FilePath uri)
    (hfits : DelFits w uri recursive) (hsound : Sound puts w) (fuel : Nat) (self : Node) (o : Options) :
    After (Shrinks puts w) (del sha fuel w self uri recursive o) := by
  have hsweeps : Sweeps recursive
      (fun q => (q = uri ∨ recursive = true ∧ uri <+: q) ∧ (q ≠ [] → Named (filename q)))
        (Shrinks puts w) := by
    constructor
    · rintro v u q - hv
      refine hv.set fun p s hlookup => ?_
      have hp : p ≠ q := by
        rintro rfl
        rw [AList.lookup_erase] at hlookup
        cases hlookup
      rw [AList.lookup_erase_ne hp] at hlookup
      exact hv.unchanged hlookup
    · rintro v u q - hv
      exact hv.set fun p s hlookup => hv.unchanged hlookup
    · rintro v u q metadata ⟨hq, hnamed⟩ hv hlookup helement fuel z node o hz
      obtain ⟨hordered, hform⟩ := hv.sound u q metadata hlookup
      -- the entry is smaller than before, and it is the one of a file
      obtain ⟨s₀, hs₀, hsub, hdir⟩ := hv.shrunk u q metadata hlookup
      have hform := hform.file_of_find hordered (fun hdirectory m hm hname htype => by
        have hdirectory₀ : MetaSet.is_directory s₀ := by
          obtain ⟨x, hx, hxdir⟩ := hdirectory
          exact ⟨x, hsub.subset hx, hxdir⟩
        exact (hfits q hq u).1 s₀ hs₀ hdirectory₀ m (hsub.subset hm) hname htype) helement
      obtain ⟨m, rfl, -, hname⟩ := hform
      have hnamed : Named (filename q) := by
        by_cases hnil : q = []
        · rw [hnil]
          exact ⟨by decide, by decide⟩
        · exact hnamed hnil
      exact hz.meta_del hsound hnamed (fun u => (hfits q hq u).2) (by simpa using hname) fuel node o
    · rintro q ⟨hq, hnamed⟩ hparent fuel z node o hz
      have hne : q ≠ [] := fun hnil => hparent (by rw [hnil]; rfl)
      exact hz.meta_del hsound (hnamed hne) (fun u => (hfits q hq u).2)
        (by simp [MetaSet.directory_record]) fuel node o
    · rintro hrec v u q metadata ⟨hq, hnamed⟩ hv hlookup m hm hnot
      obtain ⟨hordered, hform⟩ := hv.sound u q metadata hlookup
      have hbelow : uri <+: q := hq.elim (fun heq => heq ▸ List.prefix_refl _) And.right
      refine ⟨Or.inr ⟨hrec, hbelow.trans (List.prefix_append _ _)⟩, fun _ => ?_⟩
      have hlast : filename (q ++ [m.name]) = m.name := by simp [filename]
      rw [hlast]
      exact hform.named hordered hnamed hm hnot
  exact hsweeps.del fuel uri w self o ⟨Or.inl rfl, fun h => (huri h).named⟩ ⟨rfl, rfl, hsound, .refl w⟩

end

/-! ## All requests -/

section

variable (sha : Sha256)

/-- The records of the request fit where they go. -/
def RequestFits (w : World) : Request → Prop
  | .mkdir uri count => Grows sha w count uri [['.']]
  | .put uri _ count => PutFits sha w uri count
  | .del uri recursive => DelFits w uri recursive

variable {sha} {puts : List Path} {w₀ w w' : World}

theorem mkdir_keeps {fuel : Nat} {uri : Path} {count : UInt32} {status : StatusCode} (hw : w.Exact)
    (hfits : Grows sha w count uri [['.']]) (hsound : Sound puts w)
    (hcall : mkdir sha fuel w uri ⟨0, count⟩ = some (w', status)) : Sound puts w' ∧ w.Above uri w' := by
  obtain ⟨x, hx, hcall⟩ := Option.bind_eq_some_iff.mp hcall
  have hmkdir : is_mkdir uri [directory uri ⟨0, count⟩] := ⟨rfl, rfl⟩
  have hchildren : Children puts uri [directory uri ⟨0, count⟩] :=
    ⟨by simp, List.pairwise_singleton _ _, by simp [directory, MetaSet.directory_record]⟩
  refine meta_add_keeps sha hfits fuel hw ⟨rfl, rfl, fun _ _ _ => rfl⟩ hx rfl hchildren
    (copied_zero hchildren.ordered (by simp [directory, Replication.copy])) (fun n => ?_) hsound
    (by rw [hcall]; rfl : _ = some w')
  rw [entry_of, if_pos hmkdir]
  rfl

theorem perform_keeps {fuel : Nat} {self : Peer} {r : Request} {status : StatusCode} (hw : w.Exact)
    (huri : r.uri ≠ [] → FilePath r.uri) (hfits : RequestFits sha w r) (hsound : Sound puts w)
    (hcall : perform sha fuel self w r = some (w', status)) :
    Sound (r.puts ++ puts) w' ∧ w'.ring = w.ring ∧ w'.up = w.up := by
  cases r with
  | mkdir uri count =>
    obtain ⟨hsound', habove⟩ := mkdir_keeps hw hfits hsound hcall
    exact ⟨hsound', habove.ring, habove.up⟩
  | put uri bytes count =>
    obtain ⟨x, hx, hcall⟩ := Option.bind_eq_some_iff.mp hcall
    rw [client_put, if_neg (by simp)] at hcall
    exact put_keeps hw huri hfits hsound hx (congrArg ignored hcall)
  | del uri recursive =>
    obtain ⟨x, hx, hcall⟩ := Option.bind_eq_some_iff.mp hcall
    have hshrinks := del_keeps huri hfits hsound fuel x {} w' status hcall
    exact ⟨hshrinks.sound, hshrinks.ring, hshrinks.up⟩

theorem sound_fresh (hfresh : ∀ u, ∃ count, w.stores u = .fresh count) : Sound [] w := by
  intro u p s hlookup
  obtain ⟨count, hcount⟩ := hfresh u
  rw [hcount, Store.fresh] at hlookup
  rcases eq_or_ne p [] with rfl | hp
  · rw [MetaStore.lookup_add, Option.some.injEq] at hlookup
    have hchildren : ∀ m ∈ ([{ MetaSet.directory_record ['.'] with permissions := 0o777 }] : MetaSet),
        m.file_type = .directory ∨ m.file_type = .regular ∧ [] ++ [m.name] ∈ ([] : List Path) := by
      simp [MetaSet.directory_record]
    rw [← hlookup]
    exact ⟨MetaSet.Ordered.merged List.Pairwise.nil _,
      Or.inr (merged_listing (Or.inl rfl) hchildren (Or.inr (by simp [MetaSet.directory_record])))⟩
  · rw [MetaStore.add_lookup_of_ne hp] at hlookup
    cases hlookup

theorem Requests.keeps (hw : w₀.Exact) (hfresh : ∀ u, ∃ count, w₀.stores u = .fresh count)
    (h : Requests sha (RequestFits sha) w₀ puts w) : Sound puts w ∧ w.ring = w₀.ring ∧ w.up = w₀.up := by
  induction h with
  | start => exact ⟨sound_fresh hfresh, rfl, rfl⟩
  | request fuel self r _ huri hok hr ih =>
    obtain ⟨hsound, hring, hup⟩ := ih
    obtain ⟨hsound, hring', hup'⟩ := perform_keeps (hw.of_ring hring hup) huri hok hsound hr
    exact ⟨hsound, hring'.trans hring, hup'.trans hup⟩

end

/-- Every entry of every disk is the record of its file, or a listing with `.` and `..`. -/
theorem entries_well_formed (sha : Sha256) (w₀ w : World) (puts : List Path) (hw : w₀.Exact)
    (hfresh : ∀ u, ∃ count, w₀.stores u = .fresh count) (hrun : Requests sha (RequestFits sha) w₀ puts w) :
    ∀ u p s, (w.stores u).metadata.lookup p = some s → WellFormed puts p s :=
  fun u p s hlookup => ((hrun.keeps hw hfresh).1 u p s hlookup).2

/-- One member with an empty disk. -/
def World.one : World where
  ring := [⟨10, ['a']⟩]
  up := [⟨10, ['a']⟩]
  stores _ := .fresh 1

theorem World.one_exact : World.one.Exact := ⟨by decide, by decide, by decide⟩

theorem entries_well_formed_one :
    ∃ w, Requests ⟨fun _ => 5, fun _ => 0⟩ (RequestFits ⟨fun _ => 5, fun _ => 0⟩)
    World.one [[['a'], ['f']]] w ∧ ∀ u p s, (w.stores u).metadata.lookup p = some s →
      WellFormed [[['a'], ['f']]] p s := by
  have hrun := ((@Requests.start ⟨fun _ => 5, fun _ => 0⟩
      (RequestFits ⟨fun _ => 5, fun _ => 0⟩) World.one).request 6 (Peer.of ⟨10, ['a']⟩) (.mkdir [['a']] 1)
        (fun _ => by unfold FilePath; decide)
    (.above (by decide) (.root (by decide))) rfl).request 6 (Peer.of ⟨10, ['a']⟩) (.put [['a'], ['f']] [1] 1)
    (fun _ => by unfold FilePath; decide)
    (Or.inr ⟨by decide, by decide, .above (by decide) (.root (by decide))⟩) rfl
  exact ⟨_, hrun, entries_well_formed _ _ _ _ World.one_exact (fun _ => ⟨1, rfl⟩) hrun⟩

/-- The directory above a new one has no `.`. -/
theorem listing_without_dot : ¬ ∀ (sha : Sha256) (w₀ w : World) (puts : List Path), w₀.Exact →
    (∀ u, ∃ count, w₀.stores u = .fresh count) → Requests sha (fun _ _ => True) w₀ puts w →
    ∀ u p s, (w.stores u).metadata.lookup p = some s → WellFormed puts p s := by
  intro h
  have hrun := (@Requests.start ⟨fun _ => 5, fun _ => 0⟩ (fun _ _ => True) World.one).request 6
    (Peer.of ⟨10, ['a']⟩) (.put [['a'], ['b'], ['f']] [1] 1) (fun _ => by unfold FilePath; decide) trivial rfl
  have hform := h _ _ _ _ World.one_exact (fun _ => ⟨1, rfl⟩) hrun 10 [['a']]
    [{ MetaSet.directory_record ['b'] with replication := ⟨0, 1⟩ }] (by decide)
  rcases hform with ⟨m, hm, htype, -⟩ | hform
  · cases hm
    cases htype
  · obtain ⟨m, hm, hname, -⟩ := hform.dot
    obtain rfl := List.mem_singleton.mp hm
    exact absurd hname (by decide)

end Fs

end Chord
