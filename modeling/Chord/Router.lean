import Chord.Common
import Mathlib.Data.List.Sort

/-! # The finger table (`chord.router.cc`) -/

namespace Chord

structure RouterEntry where
  uuid : Uuid
  node : Option Node
  deriving DecidableEq

/-- The starts of all entries are those of `Router::init`, in order. -/
structure Router where
  context : Node
  successors : List RouterEntry
  predecessor : Option Node
  starts : successors.map RouterEntry.uuid =
    (List.range BITS).map (calc_successor_uuid_for_index context.uuid)

namespace Router

theorem ext_fields {r r' : Router} (hc : r.context = r'.context) (hs : r.successors = r'.successors)
    (hp : r.predecessor = r'.predecessor) : r = r' := by
  cases r; cases r'; simp only at hc hs hp; subst hc hs hp; rfl

/-- `Router::init` and `Router::cleanup`. -/
def init (context : Node) : Router where
  context := context
  successors := (List.range BITS).map fun idx => ⟨calc_successor_uuid_for_index context.uuid idx, none⟩
  predecessor := none
  starts := by simp

def reset (r : Router) : Router := init r.context

def has_successor (r : Router) : Bool := (r.successors.head?.bind RouterEntry.node).isSome

def has_predecessor (r : Router) : Bool := r.predecessor.isSome

def successor (r : Router) : Option Node := r.successors.head?.bind RouterEntry.node

def successor_or_self (r : Router) : Node := r.successor.getD r.context

/-! ## `Router::update` -/

/-- The test of the loop: between the start of the entry and its node, or self where it is empty. -/
def replaces (self : Uuid) (insert : Node) (it : RouterEntry) : Prop :=
  between it.uuid insert.uuid (it.node.elim self Node.uuid)

instance (self : Uuid) (insert : Node) (it : RouterEntry) : Decidable (replaces self insert it) :=
  inferInstanceAs (Decidable (between _ _ _))

def update_entry (self : Uuid) (insert : Node) (it : RouterEntry) : RouterEntry :=
  if replaces self insert it then { it with node := some insert } else it

@[simp]
theorem update_entry_uuid (self : Uuid) (insert : Node) (it : RouterEntry) :
    (update_entry self insert it).uuid = it.uuid := by
  unfold update_entry; split <;> rfl

def update_predecessor (self : Uuid) (insert : Node) : Option Node → Node
  | none => insert
  | some p => if insert ≠ p ∧ between p.uuid insert.uuid self then insert else p

def update (r : Router) (insert : Node) : Router :=
  if insert = r.context then r
  else
    { r with
      successors := r.successors.map (update_entry r.context.uuid insert)
      predecessor := some (update_predecessor r.context.uuid insert r.predecessor)
      starts := by
        rw [← r.starts, List.map_map]
        congr 1
        funext it
        simp }

/-- The value that `update` returns. -/
def update_changed (r : Router) (insert : Node) : Bool :=
  insert ≠ r.context ∧ ∃ it ∈ r.successors, replaces r.context.uuid insert it

/-! ## `Router::remove` -/

/-- What the reverse loop of `remove` has built, and its two variables. -/
structure RemoveState where
  successors : List RouterEntry
  replacement : Option Node
  predecessor : Option Node

def remove_step (self uuid : Uuid) (it : RouterEntry) (st : RemoveState) : RemoveState :=
  match it.node with
  | none => { st with successors := it :: st.successors }
  | some n =>
    let predecessor := st.predecessor.map fun p => if uuid = p.uuid ∧ n.uuid ≠ uuid then n else p
    if n.uuid = uuid then
      { st with successors := { it with node := st.replacement } :: st.successors, predecessor := predecessor }
    else if n.uuid ≠ self then
      { successors := it :: st.successors, replacement := some n, predecessor := predecessor }
    else { st with successors := it :: st.successors, predecessor := predecessor }

/-- The replacement before the loop: the node of the last entry, unless it goes. -/
def last_replacement (self uuid : Uuid) (successors : List RouterEntry) : Option Node :=
  (successors.getLast?.bind RouterEntry.node).filter fun n => ¬(n.uuid = uuid ∧ n.uuid ≠ self)

/-- The loop runs from entry 255 down to entry 0. -/
def remove_loop (r : Router) (uuid : Uuid) : RemoveState :=
  r.successors.foldr (remove_step r.context.uuid uuid)
    ⟨[], last_replacement r.context.uuid uuid r.successors, r.predecessor⟩

theorem remove_step_starts (self uuid : Uuid) (it : RouterEntry) (st : RemoveState) :
    (remove_step self uuid it st).successors.map RouterEntry.uuid =
      it.uuid :: st.successors.map RouterEntry.uuid := by
  unfold remove_step
  split
  · rfl
  · dsimp only; split_ifs <;> rfl

theorem foldr_remove_step_starts (self uuid : Uuid) (l : List RouterEntry) (st : RemoveState)
    (hst : st.successors = []) :
    (l.foldr (remove_step self uuid) st).successors.map RouterEntry.uuid = l.map RouterEntry.uuid := by
  induction l with
  | nil => rw [List.foldr_nil, hst]
  | cons it l ih => rw [List.foldr_cons, remove_step_starts, ih, List.map_cons]

def remove (r : Router) (uuid : Uuid) : Router :=
  let st := r.remove_loop uuid
  { r with
    successors := st.successors
    predecessor := st.predecessor.filter (·.uuid ≠ uuid)
    starts := (foldr_remove_step_starts _ _ _ _ rfl).trans r.starts }

/-- The node that `remove` reports on `on_successor_fail`. -/
def successor_failed (r : Router) (uuid : Uuid) : Option Node := r.successor.filter (·.uuid = uuid)

/-- The node that `remove` reports on `on_predecessor_fail`. -/
def predecessor_failed (r : Router) (uuid : Uuid) : Option Node := r.predecessor.filter (·.uuid = uuid)

/-! ## Queries -/

/-- One turn of the loop of `closest_preceding_nodes`. -/
def preceding_step (self uuid : Uuid) (it : RouterEntry) (ret : List Node) : List Node :=
  match it.node with
  | some n => if between self n.uuid uuid ∧ ret.getLast? ≠ some n then ret ++ [n] else ret
  | none => ret

def closest_preceding_nodes (r : Router) (uuid : Uuid) : List Node :=
  let ret := r.successors.foldr (preceding_step r.context.uuid uuid) []
  if ret.head? = some r.context then ret else ret ++ [r.context]

/-- `std::set<node>::insert`: ordered by uuid, and the first node of a uuid stays. -/
def set_insert (ret : List Node) (n : Node) : List Node :=
  if n.uuid ∈ ret.map Node.uuid then ret else ret.orderedInsert (·.uuid ≤ ·.uuid) n

/-- `Router::get`, the set of the nodes of all entries. -/
def get (r : Router) : List Node := (r.successors.filterMap RouterEntry.node).foldl set_insert []

end Router

/-! ## Histories -/

inductive RouterOp where
  | update (n : Node)
  | remove (uuid : Uuid)
  | reset

def Router.apply (r : Router) : RouterOp → Router
  | .update n => r.update n
  | .remove uuid => r.remove uuid
  | .reset => r.reset

/-- A fresh router after a sequence of operations. -/
def Router.run (context : Node) (ops : List RouterOp) : Router := ops.foldl Router.apply (.init context)

end Chord
