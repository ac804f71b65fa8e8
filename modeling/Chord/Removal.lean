import Chord.RouterTable

/-!
# What a removal leaves

The loop of `remove` moves one replacement downwards. It meets the nearest node for every
vacated entry because the nodes of the table come in the order of the starts.
-/

open Circle

namespace Chord

open Router

/-! ## The entries of the node that goes -/

/-- The node of the entry is `u`. -/
def HasUuid (u : Uuid) (e : RouterEntry) : Prop := ∃ n ∈ e.node, n.uuid = u

/-- The nodes of the table other than `u`. -/
def remaining (r : Router) (u : Uuid) : List Node := r.nodes.filter (·.uuid ≠ u)

theorem mem_remaining {r : Router} {u : Uuid} {n : Node} :
    n ∈ remaining r u ↔ n ∈ r.nodes ∧ n.uuid ≠ u := by
  rw [remaining, List.mem_filter, decide_eq_true_iff]

/-- The node of `ns` next after `start`, going clockwise to `self`. -/
def NearestBeyond (self start : Uuid) (ns : List Node) : Option Node → Prop
  | none => ∀ m ∈ ns, ¬ between start m.uuid self
  | some n => (n ∈ ns ∧ between start n.uuid self) ∧
      ∀ m ∈ ns, between start m.uuid self → steps start n.uuid ≤ steps start m.uuid

/-- The last node of `ns` that is met from `self`. -/
def Furthest (self : Uuid) (ns : List Node) : Option Node → Prop
  | none => ns = []
  | some p => p ∈ ns ∧ ∀ m ∈ ns, steps self m.uuid ≤ steps self p.uuid

/-- Beyond the start the distance from the start grows with the one from self. -/
theorem steps_start_le {self start x y : Uuid} (hx : steps self start < steps self x)
    (hxy : steps self x ≤ steps self y) : steps start x ≤ steps start y := by
  rw [steps_shift self start x, steps_shift self start y]
  split <;> split <;> omega

theorem nearestBeyond_entry {r : Router} (h : r.table.WF) (i : Fin BITS) :
    NearestBeyond r.context.uuid (r.entry i).uuid r.nodes (r.entry i).node := by
  have hstart : (r.entry i).uuid ≠ r.context.uuid := (steps_pos.mp (r.entry_start_pos i)).symm
  cases hn : (r.entry i).node with
  | none =>
    intro m hm hb
    rw [between_to hstart] at hb
    have := entry_empty h (r.entry_mem i) hn m hm
    omega
  | some n =>
    obtain ⟨hlt, hleast⟩ := entry_node h (r.entry_mem i) hn
    refine ⟨⟨entry_mem_nodes hn, (between_to hstart).mpr hlt⟩, ?_⟩
    intro m hm hb
    rw [between_to hstart] at hb
    exact steps_start_le hlt (hleast m hm hb)

/-! ## The loop -/

theorem refill_getElem? (u : Uuid) (l : List RouterEntry) (i : Nat) (h : ∀ e ∈ l[i]?, ¬ HasUuid u e) :
    (refill u l)[i]? = l[i]? := by
  induction l generalizing i with
  | nil => rfl
  | cons e l ih =>
    rw [refill]
    cases i with
    | zero =>
      have he : ¬ ∃ n ∈ e.node, n.uuid = u := h e rfl
      rw [List.getElem?_cons_zero, if_neg he, List.getElem?_cons_zero]
    | succ i =>
      rw [List.getElem?_cons_succ, List.getElem?_cons_succ]
      exact ih i h

theorem getElem?_entry (r : Router) (i : Fin BITS) : r.successors[i.val]? = some (r.entry i) := by
  have hi : i.val < r.successors.length := by rw [r.successors_length]; exact i.isLt
  rw [List.getElem?_eq_getElem hi]
  rfl

theorem entry_remove_of_not_hasUuid {r : Router} (h : r.table.WF) {u : Uuid} {i : Fin BITS}
    (hu : ¬ HasUuid u (r.entry i)) : (r.remove u).entry i = r.entry i := by
  apply Option.some.inj
  rw [← getElem?_entry, ← getElem?_entry, (remove_spec h u).1]
  apply refill_getElem?
  intro e he
  rw [getElem?_entry, Option.mem_some_iff] at he
  rwa [← he]

theorem nodes_remove_iff {r : Router} (h : r.table.WF) {u : Uuid} {n : Node} :
    n ∈ (r.remove u).nodes ↔ n ∈ remaining r u := by
  rw [mem_nodes_remove h, mem_remaining]

/-- The condition speaks about the nodes only, so it passes to a list with the same ones. -/
theorem NearestBeyond.congr {self start : Uuid} {ns ms : List Node} (h : ∀ n, n ∈ ns ↔ n ∈ ms)
    {o : Option Node} (ho : NearestBeyond self start ns o) : NearestBeyond self start ms o := by
  cases o with
  | none => exact fun m hm => ho m ((h m).mpr hm)
  | some n => exact ⟨⟨(h n).mp ho.1.1, ho.1.2⟩, fun m hm => ho.2 m ((h m).mpr hm)⟩

/-! ## The predecessor -/

theorem others_eq (r : Router) (u : Uuid) : others u r.successors = remaining r u := rfl

theorem predecessor_remove_kept {r : Router} (h : r.table.WF) {u : Uuid}
    (hp : ∀ p ∈ r.predecessor, p.uuid ≠ u) : (r.remove u).predecessor = r.predecessor := by
  rw [(remove_spec h u).2]
  cases hq : r.predecessor with
  | none => rfl
  | some p =>
    have hne := hp p hq
    rw [Option.map_some, lastOther, if_neg hne, Option.filter_some_pos (by simpa using hne)]

theorem predecessor_remove_furthest {r : Router} (h : r.table.WF) {u : Uuid}
    (hp : ∃ p ∈ r.predecessor, p.uuid = u) :
    Furthest r.context.uuid (remaining r u) (r.remove u).predecessor := by
  obtain ⟨p, hpred, hpu⟩ := hp
  have hmem : ∀ q, (r.remove u).predecessor = some q → q ∈ remaining r u := by
    intro q hq
    rw [(remove_spec h u).2, hpred, Option.map_some, lastOther, if_pos hpu, others_eq] at hq
    obtain ⟨hlast, hqu⟩ := Option.filter_eq_some_iff.mp hq
    rcases List.eq_nil_or_concat (remaining r u) with hnil | ⟨l, m, hl⟩
    · -- nothing is left: the predecessor would still be the one that goes
      simp only [hnil, List.getLastD_nil, Option.some.injEq] at hlast
      simp [← hlast, hpu] at hqu
    · rw [hl, List.concat_eq_append, List.getLastD_concat, Option.some.injEq] at hlast
      simp [hl, ← hlast]
  have hbound : ∀ m ∈ remaining r u, ∃ q, (r.remove u).predecessor = some q ∧
      steps r.context.uuid m.uuid ≤ steps r.context.uuid q.uuid :=
    fun m hm => node_le_predecessor (remove_wf h u) ((nodes_remove_iff h).mpr hm)
  cases hq : (r.remove u).predecessor with
  | none =>
    apply List.eq_nil_iff_forall_not_mem.mpr
    intro m hm
    obtain ⟨q, hsome, -⟩ := hbound m hm
    rw [hq] at hsome
    cases hsome
  | some q =>
    refine ⟨hmem q hq, fun m hm => ?_⟩
    obtain ⟨q', hsome, hle⟩ := hbound m hm
    rw [hq] at hsome
    rwa [Option.some.inj hsome]

/-! ## The whole call -/

/-- All that `remove u` does to a router. -/
structure ExactRemoval (r : Router) (u : Uuid) (r' : Router) : Prop where
  table : ∀ n ∈ r'.nodes, n.uuid ≠ u
  gone : ∀ p ∈ r'.predecessor, p.uuid ≠ u
  starts : ∀ i, (r'.entry i).uuid = (r.entry i).uuid
  kept : ∀ i, ¬ HasUuid u (r.entry i) → r'.entry i = r.entry i
  filled : ∀ i, HasUuid u (r.entry i) →
    NearestBeyond r.context.uuid (r.entry i).uuid (remaining r u) (r'.entry i).node
  predecessor_kept : (∀ p ∈ r.predecessor, p.uuid ≠ u) → r'.predecessor = r.predecessor
  handed_over : (∃ p ∈ r.predecessor, p.uuid = u) →
    Furthest r.context.uuid (remaining r u) r'.predecessor

theorem exactRemoval_of_wf {r : Router} (h : r.table.WF) (u : Uuid) : ExactRemoval r u (r.remove u) where
  table := fun _ hn => ((mem_nodes_remove h).mp hn).2
  gone := by
    intro p hp
    rw [(remove_spec h u).2] at hp
    simpa using (Option.filter_eq_some_iff.mp hp).2
  starts := fun i => by rw [entry_uuid, entry_uuid, remove_context]
  kept := fun _ hu => entry_remove_of_not_hasUuid h hu
  filled := by
    intro i _
    have hnext := nearestBeyond_entry (remove_wf h u) i
    rw [remove_context, entry_uuid, remove_context, ← entry_uuid] at hnext
    exact hnext.congr fun _ => nodes_remove_iff h
  predecessor_kept := predecessor_remove_kept h
  handed_over := predecessor_remove_furthest h

/-- After any history a removal is exact. -/
theorem remove_exact (context : Node) (ops : List RouterOp) (u : Uuid) :
    ExactRemoval (Router.run context ops) u ((Router.run context ops).remove u) :=
  exactRemoval_of_wf (run_wf context ops) u

end Chord
