import Chord.RouterTable
import Mathlib.Data.List.Induction

/-! # What every router holds, and what a router that only learned nodes holds -/

open Circle Nearest

namespace Chord

open Router

/-! ## The invariant of the finger table -/

/-- The nearest node for every entry, and no node beyond the predecessor. -/
structure FingerInvariant (r : Router) : Prop where
  nearest : ∀ i n, (r.entry i).node = some n → between (r.entry i).uuid n.uuid r.context.uuid ∧
    ∀ m ∈ r.nodes, ¬ between (r.entry i).uuid m.uuid n.uuid
  empty : ∀ i, (r.entry i).node = none → ∀ m ∈ r.nodes, ¬ between (r.entry i).uuid m.uuid r.context.uuid
  ordered : ∀ i j n, i ≤ j → (r.entry j).node = some n →
    ∃ m, (r.entry i).node = some m ∧ steps r.context.uuid m.uuid ≤ steps r.context.uuid n.uuid
  furthest : ∀ m ∈ r.nodes, ∃ p, r.predecessor = some p ∧
    steps r.context.uuid m.uuid ≤ steps r.context.uuid p.uuid

theorem start_ne_self (r : Router) (i : Fin BITS) : (r.entry i).uuid ≠ r.context.uuid :=
  (steps_pos.mp (r.entry_start_pos i)).symm

theorem fingerInvariant_of_wf {r : Router} (h : r.table.WF) : FingerInvariant r where
  nearest := by
    intro i n hn
    obtain ⟨hlt, hmin⟩ := entry_node h (r.entry_mem i) hn
    refine ⟨(between_to (start_ne_self r i)).mpr hlt, ?_⟩
    intro m hm hb
    rw [between_iff r.context.uuid, if_pos hlt] at hb
    have := hmin m hm hb.1
    omega
  empty := by
    intro i hn m hm hb
    rw [between_to (start_ne_self r i)] at hb
    have := entry_empty h (r.entry_mem i) hn m hm
    omega
  ordered := by
    intro i j n hij hn
    have hle : steps r.context.uuid (r.entry i).uuid ≤ steps r.context.uuid (r.entry j).uuid := by
      rw [entry_uuid, entry_uuid]
      exact steps_calc_mono _ hij j.isLt
    have hlt := lt_of_le_of_lt hle (entry_node h (r.entry_mem j) hn).1
    cases hi : (r.entry i).node with
    | none =>
      have := entry_empty h (r.entry_mem i) hi n (entry_mem_nodes hn)
      omega
    | some m => exact ⟨m, rfl, (entry_node h (r.entry_mem i) hi).2 n (entry_mem_nodes hn) hlt⟩
  furthest := fun m hm => node_le_predecessor h hm

/-- Every sequence of `update`, `remove` and `reset` keeps the finger table. -/
theorem finger_table_invariant (context : Node) (ops : List RouterOp) :
    FingerInvariant (Router.run context ops) := fingerInvariant_of_wf (run_wf context ops)

/-! ## A router that only learned nodes -/

theorem mem_nodes_update {r : Router} {n m : Node} (hm : m ∈ (r.update n).nodes) : m = n ∨ m ∈ r.nodes := by
  rw [update] at hm
  split at hm
  · right; exact hm
  · obtain ⟨e', he', hn⟩ := mem_nodes.mp hm
    obtain ⟨e, he, rfl⟩ := List.mem_map.mp he'
    rw [update_entry] at hn
    split at hn
    · left; exact (Option.some.inj hn).symm
    · right; exact mem_nodes.mpr ⟨e, he, hn⟩

/-- An update adds one key to those that an entry chooses from. -/
theorem entry_update_next {r : Router} (h : r.table.WF) (n : Node) (i : Fin BITS) {s : Set Nat}
    (hs : IsNext s (steps r.context.uuid (r.entry i).uuid)
    ((r.entry i).node.map fun m => steps r.context.uuid m.uuid)) :
    IsNext (insert (steps r.context.uuid n.uuid) s) (steps r.context.uuid ((r.update n).entry i).uuid)
      (((r.update n).entry i).node.map fun m => steps r.context.uuid m.uuid) := by
  have hinsert := hs.insert (steps r.context.uuid n.uuid)
  by_cases hn : n = r.context
  · -- the own record is ignored, and is above no bound
    rw [Router.update, if_pos hn]
    rw [if_neg] at hinsert
    · exact hinsert
    · rintro ⟨hlt, -⟩
      rw [hn, steps_self] at hlt
      omega
  · have hkey := congrArg Slot.key (slot_update_entry h n (r.entry_mem i))
    rw [Slot.insert_key] at hkey
    simp only [slot] at hkey
    rw [entry_update hn, hkey, update_entry_uuid]
    exact hinsert

def learned (context : Node) (ns : List Node) : Router := Router.run context (ns.map .update)

theorem learned_concat (context : Node) (ns : List Node) (n : Node) :
    learned context (ns ++ [n]) = (learned context ns).update n := by
  simp [learned, Router.run, Router.apply]

@[simp]
theorem learned_context (context : Node) (ns : List Node) : (learned context ns).context = context :=
  run_context _ _

theorem learned_wf (context : Node) (ns : List Node) : (learned context ns).table.WF := run_wf _ _

theorem learned_nodes (context : Node) (ns : List Node) : ∀ m ∈ (learned context ns).nodes, m ∈ ns := by
  induction ns using List.reverseRecOn with
  | nil =>
    intro m hm
    have : (learned context []).nodes = [] := init_nodes context
    simp [this] at hm
  | append_singleton ns n ih =>
    intro m hm
    rw [learned_concat] at hm
    rcases mem_nodes_update hm with rfl | hm
    · simp
    · exact List.mem_append_left _ (ih m hm)

/-- The distances of a list of nodes. -/
def distances (self : Uuid) (ns : List Node) : Set Nat := {k | ∃ n ∈ ns, steps self n.uuid = k}

theorem distances_concat (self : Uuid) (ns : List Node) (n : Node) :
    distances self (ns ++ [n]) = insert (steps self n.uuid) (distances self ns) := by
  ext k
  simp only [distances, List.mem_append, List.mem_singleton, Set.mem_ofPred_eq, Set.mem_insert_iff]
  constructor
  · rintro ⟨m, hm | rfl, hk⟩
    · right; exact ⟨m, hm, hk⟩
    · left; exact hk.symm
  · rintro (rfl | ⟨m, hm, hk⟩)
    · exact ⟨n, Or.inr rfl, rfl⟩
    · exact ⟨m, Or.inl hm, hk⟩

/-- An entry holds the nearest node ever learned: what it dropped was further away. -/
theorem learned_next (context : Node) (ns : List Node) (i : Fin BITS) :
    IsNext (distances context.uuid ns) (steps context.uuid ((learned context ns).entry i).uuid)
      (((learned context ns).entry i).node.map fun n => steps context.uuid n.uuid) := by
  induction ns using List.reverseRecOn with
  | nil =>
    have hempty : ((learned context []).entry i).node = none := by
      cases hn : ((learned context []).entry i).node with
      | none => rfl
      | some n =>
        have hmem := entry_mem_nodes hn
        have : (learned context []).nodes = [] := init_nodes context
        simp [this] at hmem
    rw [hempty]
    rintro k ⟨n, hn, -⟩
    simp at hn
  | append_singleton ns n ih =>
    have hnext := entry_update_next (learned_wf context ns) n i (by rw [learned_context]; exact ih)
    rw [learned_context] at hnext
    rw [learned_concat, distances_concat]
    exact hnext

/-- `o` is the node of `ns` met first going clockwise from `start` among those in `p`. -/
def MetFirst (p : Uuid → Prop) (start : Uuid) (ns : List Node) : Option Node → Prop
  | some n => n ∈ ns ∧ p n.uuid ∧ ∀ m ∈ ns, p m.uuid → steps start n.uuid ≤ steps start m.uuid
  | none => ∀ m ∈ ns, ¬ p m.uuid

/-- A set of nodes above a bound, seen from self, is met in the order of its distances. -/
theorem metFirst_of_next {self start bound : Uuid} {p : Uuid → Prop} {ns : List Node} {o : Option Node}
    (ho : ∀ n ∈ o, n ∈ ns) (hp : ∀ x, p x ↔ steps self bound < steps self x)
    (hstart : steps self start ≤ steps self bound)
    (h : IsNext (distances self ns) (steps self bound) (o.map fun n => steps self n.uuid)) :
    MetFirst p start ns o := by
  cases o with
  | none =>
    intro m hm hpm
    have := h _ ⟨m, hm, rfl⟩
    have := (hp m.uuid).mp hpm
    omega
  | some n =>
    refine ⟨ho n rfl, (hp _).mpr h.1.2, ?_⟩
    intro m hm hpm
    have hm' := (hp m.uuid).mp hpm
    have hle := h.2 ⟨⟨m, hm, rfl⟩, hm'⟩
    have hn : steps self bound < steps self n.uuid := h.1.2
    rw [steps_shift self start, steps_shift self start, if_pos (by omega), if_pos (by omega)]
    exact Nat.sub_le_sub_right hle _

theorem learned_entry_mem {context : Node} {ns : List Node} {i : Fin BITS} :
    ∀ n ∈ ((learned context ns).entry i).node, n ∈ ns :=
  fun n hn => learned_nodes context ns n (entry_mem_nodes hn)

/-- An entry holds the node met first after its start, where the modulus does not move the
start. The successor is the nearest node more than one step away. -/
theorem learned_entries (context : Node) (ns : List Node) :
    (∀ i : Fin BITS, context.uuid + BitVec.twoPow 256 i ≠ BitVec.allOnes 256 →
      MetFirst (fun x => between (context.uuid + BitVec.twoPow 256 i) x context.uuid)
        (context.uuid + BitVec.twoPow 256 i) ns ((learned context ns).entry i).node) ∧
    (context.uuid + 1 ≠ BitVec.allOnes 256 →
      MetFirst (fun x => 1 < steps context.uuid x) context.uuid ns (learned context ns).successor) := by
  constructor
  · intro i hi
    have hstart : ((learned context ns).entry i).uuid = context.uuid + BitVec.twoPow 256 i := by
      rw [entry_uuid, learned_context, calc_eq, if_neg hi]
    have hne := start_ne_self (learned context ns) i
    rw [learned_context, hstart] at hne
    have hnext := learned_next context ns i
    rw [hstart] at hnext
    exact metFirst_of_next learned_entry_mem (fun x => between_to hne) (Nat.le_refl _) hnext
  · intro h1
    have hstart : ((learned context ns).entry ⟨0, by decide⟩).uuid = context.uuid + 1 := by
      rw [entry_uuid, learned_context, calc_eq]
      exact if_neg h1
    have hsteps : steps context.uuid (context.uuid + 1) = 1 := steps_add _ _
    have hnext := learned_next context ns ⟨0, by decide⟩
    rw [hstart] at hnext
    rw [successor_eq_entry]
    apply metFirst_of_next learned_entry_mem _ _ hnext
    · intro x; rw [hsteps]
    · rw [steps_self]; omega

/-- A node on the start of an entry does not enter it: node 1 is no finger of node 0. -/
theorem finger_start_excluded : ¬ ∀ (context : Node) (ns : List Node), (ns.map Node.uuid).Nodup →
    (∀ n ∈ ns, n.uuid ≠ context.uuid) → ∀ i : Fin BITS,
      MetFirst (fun x => x = context.uuid + BitVec.twoPow 256 i ∨
          between (context.uuid + BitVec.twoPow 256 i) x context.uuid)
        (context.uuid + BitVec.twoPow 256 i) ns ((learned context ns).entry i).node := by
  intro h
  have h0 := h ⟨0, []⟩ [⟨1, []⟩] (by decide) (by decide) ⟨0, by decide⟩
  have hnone : ((learned ⟨0, []⟩ [⟨1, []⟩]).entry ⟨0, by decide⟩).node = none := by decide
  rw [hnone] at h0
  exact h0 ⟨1, []⟩ (by simp) (Or.inl (by decide))

end Chord
