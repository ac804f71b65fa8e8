import Chord.Client
import Chord.RouterTable

/-! # Candidates of a forwarded request -/

open Circle

namespace Chord

open Router

/-! ## `closest_preceding_nodes` -/

theorem mem_preceding_step {self uuid : Uuid} {it : RouterEntry} {ret : List Node} {n : Node} :
    n ∈ preceding_step self uuid it ret ↔
      n ∈ ret ∨ (it.node = some n ∧ between self n.uuid uuid) := by
  unfold preceding_step
  cases hit : it.node with
  | none => simp
  | some m =>
    simp only [Option.some.injEq]
    split
    · rename_i hb
      rw [List.mem_append, List.mem_singleton]
      constructor
      · rintro (hn | rfl)
        · left; exact hn
        · right; exact ⟨rfl, hb.1⟩
      · rintro (hn | ⟨rfl, -⟩)
        · left; exact hn
        · right; rfl
    · rename_i hb
      constructor
      · intro hn; left; exact hn
      · rintro (hn | ⟨rfl, hm⟩)
        · exact hn
        · -- the node is the last one already
          have hlast : ret.getLast? = some m := by
            by_contra hne
            exact hb ⟨hm, hne⟩
          exact List.mem_of_getLast? hlast

/-- The nodes of the table strictly between self and `uuid`, from the furthest on. -/
def preceding (r : Router) (uuid : Uuid) : List Node :=
  r.successors.foldr (preceding_step r.context.uuid uuid) []

theorem mem_foldr_preceding_step {self uuid : Uuid} {l : List RouterEntry} {n : Node} :
    n ∈ l.foldr (preceding_step self uuid) [] ↔
      n ∈ l.filterMap RouterEntry.node ∧ between self n.uuid uuid := by
  induction l with
  | nil => simp
  | cons e l ih =>
    rw [List.foldr_cons, mem_preceding_step, ih, List.mem_filterMap, List.mem_filterMap]
    simp only [List.mem_cons, exists_eq_or_imp]
    rw [← or_and_right, or_comm]

theorem mem_preceding {r : Router} {uuid : Uuid} {n : Node} :
    n ∈ preceding r uuid ↔ n ∈ r.nodes ∧ between r.context.uuid n.uuid uuid :=
  mem_foldr_preceding_step

/-- Self comes last, for no candidate before it is the own record. -/
theorem closest_preceding_nodes_eq (r : Router) (uuid : Uuid) :
    r.closest_preceding_nodes uuid = preceding r uuid ++ [r.context] := by
  rw [closest_preceding_nodes, if_neg]
  · rfl
  · intro hhead
    have hmem := mem_preceding.mp (List.mem_of_mem_head? hhead)
    exact not_between_left _ _ hmem.2

end Chord
