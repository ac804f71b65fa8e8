import Chord.Fs.Ring

/-!
# What an update of a listing changes

A new name goes to the listings of the directories above it, on any node. Files and the entries
of other paths stay.
-/

open Circle

namespace Chord

namespace Fs

theorem parent_path_le (p : Path) : parent_path p <+: p := List.dropLast_prefix p

theorem parent_path_not_below {uri : Path} (h : uri ≠ []) : ¬ uri <+: parent_path uri := by
  intro hp
  have hle := hp.length_le
  have hpos := List.length_pos_iff.mpr h
  rw [parent_path, List.length_dropLast] at hle
  omega

theorem parent_path_ne {uri : Path} (h : uri ≠ []) : parent_path uri ≠ uri := by
  intro heq
  have hp := List.prefix_refl uri
  nth_rewrite 2 [← heq] at hp
  exact parent_path_not_below h hp

theorem length_parent_path {p : Path} (h : parent_path p ≠ p) : p.length = (parent_path p).length + 1 := by
  rw [parent_path, List.length_dropLast]
  cases p with
  | nil => exact absurd rfl h
  | cons a p => rfl

/-- Only the listings of `p` and of the directories above it are other ones. -/
structure Store.Above (p : Path) (store store' : Store) : Prop where
  files : store'.files = store.files
  journal : store'.journal = store.journal
  replication_cnt : store'.replication_cnt = store.replication_cnt
  metadata : ∀ q, ¬ q <+: p → store'.metadata.lookup q = store.metadata.lookup q

namespace Store.Above

variable {p q : Path} {a b c : Store}

theorem refl (p : Path) (a : Store) : a.Above p a := ⟨rfl, rfl, rfl, fun _ _ => rfl⟩

theorem trans (h : a.Above p b) (h' : b.Above p c) : a.Above p c where
  files := h'.files.trans h.files
  journal := h'.journal.trans h.journal
  replication_cnt := h'.replication_cnt.trans h.replication_cnt
  metadata q hq := (h'.metadata q hq).trans (h.metadata q hq)

theorem mono (h : a.Above p b) (hp : p <+: q) : a.Above q b :=
  ⟨h.files, h.journal, h.replication_cnt, fun r hr => h.metadata r fun hrp => hr (hrp.trans hp)⟩

end Store.Above

theorem MetaStore.add_lookup_of_ne {store : MetaStore} {p q : Path} {records : MetaSet} (h : q ≠ p) :
    (store.add p records).1.lookup q = store.lookup q := AList.lookup_insert_ne h

theorem MetaStore.add_above (store : Store) (p : Path) (records : MetaSet) :
    store.Above p { store with metadata := (store.metadata.add p records).1 } :=
  ⟨rfl, rfl, rfl, fun _ hq => add_lookup_of_ne fun heq => hq (heq ▸ List.prefix_refl _)⟩

namespace World

structure Above (p : Path) (w w' : World) : Prop where
  ring : w'.ring = w.ring
  up : w'.up = w.up
  stores : ∀ u, (w.stores u).Above p (w'.stores u)

namespace Above

variable {p q : Path} {w v z : World}

theorem refl (p : Path) (w : World) : w.Above p w := ⟨rfl, rfl, fun _ => .refl _ _⟩

theorem trans (h : w.Above p v) (h' : v.Above p z) : w.Above p z :=
  ⟨h'.ring.trans h.ring, h'.up.trans h.up, fun u => (h.stores u).trans (h'.stores u)⟩

theorem mono (h : w.Above p v) (hp : p <+: q) : w.Above q v :=
  ⟨h.ring, h.up, fun u => (h.stores u).mono hp⟩

theorem exact (h : w.Above p v) (hw : w.Exact) : v.Exact := hw.of_ring h.ring h.up

end Above

theorem set_above {w : World} {u : Uuid} {p : Path} {store : Store} (h : (w.stores u).Above p store) :
    w.Above p (w.set u store) := by
  refine ⟨rfl, rfl, fun v => ?_⟩
  rcases eq_or_ne v u with rfl | hv
  · rw [set_stores_self]
    exact h
  · rw [set_stores_of_ne hv]
    exact .refl _ _

def add_entry (w : World) (self : Node) (uri : Path) (entry : MetaSet) : World :=
  w.set self.uuid { w.stores self.uuid with metadata := ((w.stores self.uuid).metadata.add uri entry).1 }

theorem add_entry_above (w : World) (self : Node) (uri : Path) (entry : MetaSet) :
    w.Above uri (w.add_entry self uri entry) := set_above (MetaStore.add_above _ _ _)

theorem at_each_above {g : Nat → Store → Store} {p : Path}
    (h : ∀ i (store : Store), store.Above p (g i store)) (i : Nat) (l : List Node) (w : World) :
    w.Above p (at_each g i l w) := by
  induction l generalizing i w with
  | nil => exact .refl _ _
  | cons x l ih => exact (set_above (h i _)).trans (ih _ _)

/-! ## The end of a chain of copies -/

/-- No two places are further apart than `lap`. -/
def Lap (lap : Nat) : Prop := ∀ a b : Uuid, steps a b < lap

theorem exists_lap : ∃ lap, Lap lap := ⟨2 ^ 256, steps_lt⟩

/-- How far a request can still go around the ring. -/
def left (lap : Nat) (self : Node) : Option Uuid → Nat
  | none => lap
  | some s => steps self.uuid s

theorem left_le {lap : Nat} (hlap : Lap lap) (self : Node) (source : Option Uuid) :
    left lap self source ≤ lap := by
  cases source with
  | none => exact Nat.le_refl lap
  | some s => exact Nat.le_of_lt (hlap _ _)

/-- The successor is nearer to the node where the request started. -/
theorem left_successor {lap : Nat} (hlap : Lap lap) {w : World} {self node : Node} {o : Options}
    (hsource : ∀ s ∈ o.source, ∃ n ∈ w.ring, n.uuid = s) (hne : o.source ≠ some self.uuid)
    (hnode : w.successor self.uuid = some node) :
    left lap node (init_source self o).source < left lap self o.source := by
  have hfirst : FirstAfter Node.uuid w.ring self.uuid node := firstAfter_argmin hnode
  cases hs : o.source with
  | none =>
    simp only [init_source, hs, left, Option.getD_none]
    exact hlap _ _
  | some s =>
    obtain ⟨n, hn, rfl⟩ := hsource s hs
    have hself : self.uuid ≠ n.uuid := fun heq => hne (by rw [hs, heq])
    have hle := hfirst.2 n hn
    simp only [init_source, hs, left, Option.getD_some]
    have hpos := steps_pos.mpr hself
    have hlt := steps_lt self.uuid n.uuid
    rw [steps_succ, steps_succ, if_neg hself] at hle
    split at hle
    · omega
    · rename_i hnode
      have hnodepos := steps_pos.mpr hnode
      rw [steps_shift self.uuid node.uuid n.uuid, if_pos (by omega)]
      omega

end World

section

variable (sha : Sha256)

open World

theorem bind_ite {α β : Type} (c : Prop) [Decidable c] (x y : Option α) (f : α → Option β) :
    (if c then x else y).bind f = if c then x.bind f else y.bind f := by split <;> rfl

/-- A request that is not refused: the entry, the parent, the next copy. -/
theorem meta_add_accepted {fuel : Nat} {w : World} {self : Node} {uri : Path}
    {records metadata entry : MetaSet} {o : Options}
    (hrecords : MetaSet.of_list (records.map Metadata.sent) = metadata) (hup : self ∈ w.up)
    (hsource : o.source ≠ some self.uuid) (hne : metadata ≠ [])
    (hnew : ∀ existing ∈ (w.stores self.uuid).metadata.lookup uri, ¬ MetaSet.equal_basic existing metadata)
    (hentry : (if is_mkdir uri metadata then [MetaSet.create_directory metadata ['.']] else metadata) =
    entry) :
    meta_add sha (fuel + 1) w self uri records o =
      (if ((w.stores self.uuid).metadata.add uri entry).2 ∧ parent_path uri ≠ uri ∧
          (MetaSet.max_replication metadata).index = 0 then
        (w.successor (sha.uri (parent_path uri))).bind fun node =>
          ignored (meta_add sha fuel (w.add_entry self uri entry) node (parent_path uri)
            [MetaSet.create_directory metadata (filename uri)] o)
      else some (w.add_entry self uri entry)).bind fun w =>
        (if MetaSet.increase_replication_and_clean metadata ≠ [] then
          (w.successor self.uuid).bind fun node =>
            ignored (meta_add sha fuel w node uri (MetaSet.increase_replication_and_clean metadata)
              (init_source self o))
        else some w).bind fun w => some (w, .OK) := by
  have hold : ¬ ∃ existing ∈ (w.stores self.uuid).metadata.lookup uri,
      MetaSet.equal_basic existing metadata :=
    fun ⟨existing, hmem, heq⟩ => hnew existing hmem heq
  rw [meta_add]
  simp only [hrecords, hentry, if_neg (not_not_intro hup), if_neg hsource, if_neg hne, if_neg hold]
  simp only [Option.bind_eq_bind, bind_ite, Option.bind_assoc, Option.bind_some]
  rfl

/-- It always comes to an end, whatever the indices of its records are. -/
theorem meta_add_above {lap : Nat} (hlap : Lap lap) (fuel : Nat) {w : World} {self : Node} (uri : Path)
    (records : MetaSet) {o : Options} (hw : w.Exact) (hself : self ∈ w.ring)
    (hsource : ∀ s ∈ o.source, ∃ n ∈ w.ring, n.uuid = s)
    (hfuel : uri.length * (lap + 1) + left lap self o.source < fuel) :
    ∃ w' status, meta_add sha fuel w self uri records o = some (w', status) ∧ w.Above uri w' := by
  induction fuel generalizing w self uri records o with
  | zero => omega
  | succ fuel ih =>
    generalize hrecords : MetaSet.of_list (records.map Metadata.sent) = metadata
    generalize hentry : (if is_mkdir uri metadata then [MetaSet.create_directory metadata ['.']]
      else metadata) = entry
    by_cases hne : o.source = some self.uuid
    · exact ⟨w, .ALREADY_EXISTS, by rw [meta_add]; simp [hw.up self hself, hne], .refl _ _⟩
    by_cases hempty : metadata = []
    · exact ⟨w, .NOT_FOUND, by rw [meta_add]; simp [hw.up self hself, hne, hrecords, hempty], .refl _ _⟩
    by_cases hold : ∃ existing ∈ (w.stores self.uuid).metadata.lookup uri,
      MetaSet.equal_basic existing metadata
    · refine ⟨w, .ALREADY_EXISTS, ?_, .refl _ _⟩
      rw [meta_add]
      simp only [hrecords, if_neg (not_not_intro (hw.up self hself)), if_neg hne, if_neg hempty, if_pos hold]
    have hnew : ∀ existing ∈ (w.stores self.uuid).metadata.lookup uri,
        ¬ MetaSet.equal_basic existing metadata :=
      fun existing hmem heq => hold ⟨existing, hmem, heq⟩
    rw [meta_add_accepted sha hrecords (hw.up self hself) hne hempty hnew hentry]
    have h₁ := w.add_entry_above self uri entry
    generalize w.add_entry self uri entry = w₁ at h₁ ⊢
    obtain ⟨w₂, hparent, h₂⟩ : ∃ w₂, (if ((w.stores self.uuid).metadata.add uri entry).2 = true ∧
        parent_path uri ≠ uri ∧ (MetaSet.max_replication metadata).index = 0 then
          (w.successor (sha.uri (parent_path uri))).bind fun node => ignored (meta_add sha fuel w₁ node
            (parent_path uri) [MetaSet.create_directory metadata (filename uri)] o)
        else some w₁) = some w₂ ∧ w₁.Above uri w₂ := by
      split
      · rename_i hcond
        have hlength := length_parent_path hcond.2.1
        obtain ⟨node, hnode, hsucc⟩ := hw.exists_successor (sha.uri (parent_path uri))
        have hleft := left_le hlap node o.source
        rw [hlength, Nat.succ_mul] at hfuel
        obtain ⟨w₂, status, hcall, h₂⟩ := ih (parent_path uri)
          [MetaSet.create_directory metadata (filename uri)] (h₁.exact hw) (h₁.ring ▸ hnode)
            (h₁.ring ▸ hsource)
          (by omega)
        exact ⟨w₂, by rw [hsucc, Option.bind_some, hcall]; rfl, h₂.mono (parent_path_le uri)⟩
      · exact ⟨w₁, rfl, .refl _ _⟩
    rw [hparent, Option.bind_some]
    have hw₂ := h₁.trans h₂
    split
    · obtain ⟨node, hnode, hsucc⟩ := (hw₂.exact hw).exists_successor self.uuid
      have hleft := left_successor hlap (o := o) (hw₂.ring ▸ hsource) hne hsucc
      have hinit : ∀ s ∈ (init_source self o).source, ∃ n ∈ w₂.ring, n.uuid = s := by
        intro s hs
        obtain rfl := Option.some.inj hs
        cases ho : o.source with
        | none => exact ⟨self, hw₂.ring ▸ hself, rfl⟩
        | some s => exact hw₂.ring ▸ hsource s ho
      obtain ⟨w₃, status, hcall, h₃⟩ := ih uri (MetaSet.increase_replication_and_clean metadata)
        (hw₂.exact hw) hnode hinit (by omega)
      exact ⟨w₃, .OK, by rw [hsucc, Option.bind_some, hcall]; rfl, hw₂.trans h₃⟩
    · exact ⟨w₂, .OK, rfl, hw₂⟩

end

end Fs

end Chord
