import Chord.Preceding
import Chord.Progress

/-!
# The candidates come in order

The loop drops a node only where it is the last one already. In a table of nearest nodes that
is enough, for the nodes come in the order of the starts.
-/

open Circle Nearest

namespace Chord

open Router

/-- The nodes of a table of nearest nodes come in order. -/
theorem nodes_ordered {r : Router} (h : r.table.WF) :
    r.nodes.Pairwise fun n m => steps r.context.uuid n.uuid ≤ steps r.context.uuid m.uuid := by
  have hkeys : r.table.slots.filterMap Slot.key = r.nodes.map fun n => steps r.context.uuid n.uuid := by
    rw [table, nodes, List.filterMap_map, List.map_filterMap]
    rfl
  have hord := closed_ordered h.closed h.sorted
  rwa [hkeys, List.pairwise_map] at hord

/-! ## One pass over the entries -/

section Pass

variable {self uuid : Uuid}

/-- From the furthest on, and no node twice. -/
def Decreasing (self : Uuid) (ret : List Node) : Prop :=
  ret.Pairwise fun n m => steps self m.uuid < steps self n.uuid

theorem Decreasing.getLast_le {ret : List Node} (h : Decreasing self ret) {m : Node} (hm : m ∈ ret) :
    steps self (ret.getLast (List.ne_nil_of_mem hm)).uuid ≤ steps self m.uuid := by
  have hle : ret.Pairwise fun n m => steps self m.uuid ≤ steps self n.uuid := h.imp le_of_lt
  rcases List.eq_nil_or_concat ret with rfl | ⟨l, k, rfl⟩
  · cases hm
  · simp only [List.concat_eq_append, List.getLast_append_singleton]
    rw [List.concat_eq_append, List.pairwise_append] at hle
    rw [List.concat_eq_append, List.mem_append, List.mem_singleton] at hm
    rcases hm with hm | rfl
    · exact hle.2.2 m hm k (List.mem_singleton_self k)
    · exact le_refl _

theorem preceding_step_decreasing {it : RouterEntry} {ret : List Node} (hret : Decreasing self ret)
    (hle : ∀ n ∈ it.node, ∀ m ∈ ret, steps self n.uuid ≤ steps self m.uuid)
    (hinj : ∀ n ∈ it.node, ∀ m ∈ ret, n.uuid = m.uuid → n = m) :
    Decreasing self (preceding_step self uuid it ret) := by
  unfold preceding_step
  cases hit : it.node with
  | none => exact hret
  | some n =>
    dsimp only
    split
    · rename_i hadd
      apply List.pairwise_append.mpr ⟨hret, List.pairwise_singleton _ _, ?_⟩
      intro m hm n' hn'
      obtain rfl := List.mem_singleton.mp hn'
      -- the last candidate is the nearest one so far, and it is another node
      have hne := List.ne_nil_of_mem hm
      have hlast : ret.getLast hne ∈ ret := List.getLast_mem hne
      have hother : n' ≠ ret.getLast hne := by
        intro heq
        exact hadd.2 (by rw [List.getLast?_eq_some_getLast hne, ← heq])
      have hstep : steps self n'.uuid ≠ steps self (ret.getLast hne).uuid :=
        fun heq => hother (hinj n' hit _ hlast (steps_inj.mp heq))
      have hlt := lt_of_le_of_ne (hle n' hit _ hlast) hstep
      exact lt_of_lt_of_le hlt (hret.getLast_le hm)
    · exact hret

theorem foldr_decreasing {l : List RouterEntry}
    (hord : (l.filterMap RouterEntry.node).Pairwise fun n m => steps self n.uuid ≤ steps self m.uuid)
    (hinj : ∀ n ∈ l.filterMap RouterEntry.node, ∀ m ∈ l.filterMap RouterEntry.node,
      n.uuid = m.uuid → n = m) :
    Decreasing self (l.foldr (preceding_step self uuid) []) := by
  induction l with
  | nil => exact List.Pairwise.nil
  | cons e l ih =>
    have hsub : (l.filterMap RouterEntry.node).Sublist ((e :: l).filterMap RouterEntry.node) :=
      (List.sublist_cons_self e l).filterMap _
    rw [List.foldr_cons]
    apply preceding_step_decreasing
    · exact ih (hord.sublist hsub) fun n hn m hm => hinj n (hsub.mem hn) m (hsub.mem hm)
    · intro n hn m hm
      rw [List.filterMap_cons_some hn] at hord
      exact List.rel_of_pairwise_cons hord (mem_foldr_preceding_step.mp hm).1
    · intro n hn m hm
      apply hinj n _ m (hsub.mem (mem_foldr_preceding_step.mp hm).1)
      rw [List.filterMap_cons_some hn]
      exact List.mem_cons_self

end Pass

theorem preceding_decreasing {r : Router} (h : r.table.WF) (hd : Distinct r) (uuid : Uuid) :
    Decreasing r.context.uuid (preceding r uuid) :=
  foldr_decreasing (nodes_ordered h) hd

theorem Decreasing.nodup {self : Uuid} {ret : List Node} (h : Decreasing self ret) : ret.Nodup := by
  apply h.imp
  rintro n m hlt rfl
  exact lt_irrefl _ hlt

/-! ## Every reachable router -/

/-- After any history the candidates are the nodes of the table on the open arc, once each and
from the furthest on, and self after them. -/
theorem candidates_complete (context : Node) (ops : List RouterOp) (id : Uuid) :
    ∃ ns, (Router.run context ops).closest_preceding_nodes id = ns ++ [context] ∧
      (∀ n, n ∈ ns ↔ n ∈ (Router.run context ops).nodes ∧ Arc context.uuid id n.uuid) ∧
      ns.Nodup ∧ ns.Pairwise fun n m => steps context.uuid m.uuid < steps context.uuid n.uuid := by
  have hord := preceding_decreasing (run_wf context ops) (run_distinct context ops) id
  rw [run_context] at hord
  refine ⟨preceding (Router.run context ops) id, ?_, fun n => ?_, hord.nodup, hord⟩
  · rw [closest_preceding_nodes_eq, run_context]
  · rw [mem_preceding, run_context, between_iff_arc]

end Chord
