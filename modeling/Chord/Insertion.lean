import Chord.Fingers

/-! # The order in which a fresh router learns its nodes -/

open Circle Nearest

namespace Chord

open Router

/-! ## The furthest node -/

/-- `o` is the node of `ns` that is met last going clockwise from self. -/
def MetLast (self : Uuid) (ns : List Node) : Option Node → Prop
  | some p => p ∈ ns ∧ ∀ m ∈ ns, steps self m.uuid ≤ steps self p.uuid
  | none => ns = []

theorem metLast_concat {self : Uuid} {ns : List Node} {o : Option Node} (h : MetLast self ns o) {n : Node}
    (hself : ∀ m ∈ ns, m.uuid ≠ self) : MetLast self (ns ++ [n]) (some (update_predecessor self n o)) := by
  have hsteps := steps_update_predecessor self n o
  cases o with
  | none =>
    obtain rfl : ns = [] := h
    simp [MetLast, update_predecessor]
  | some p =>
    obtain ⟨hp, hmax⟩ := h
    simp only [Option.map_some, Option.elim_some] at hsteps
    refine ⟨?_, ?_⟩
    · rw [update_predecessor]
      split
      · simp
      · exact List.mem_append_left _ hp
    · intro m hm
      rw [hsteps]
      rcases List.mem_append.mp hm with hm | hm
      · exact (hmax m hm).trans (le_max_right _ _)
      · rw [List.mem_singleton.mp hm]
        exact le_max_left _ _

theorem learned_last {context : Node} {ns : List Node} (hself : ∀ n ∈ ns, n.uuid ≠ context.uuid) :
    MetLast context.uuid ns (learned context ns).predecessor := by
  induction ns using List.reverseRecOn with
  | nil => exact rfl
  | append_singleton ns n ih =>
    have hns : ∀ m ∈ ns, m.uuid ≠ context.uuid := fun m hm => hself m (List.mem_append_left _ hm)
    have hn : n ≠ (learned context ns).context := by
      rw [learned_context]
      exact fun heq => hself n (by simp) (congrArg Node.uuid heq)
    rw [learned_concat, predecessor_update hn, learned_context]
    exact metLast_concat (ih hns) hns

/-! ## Two lists of the same nodes -/

/-- Two lists with the same nodes, where a uuid belongs to one node. -/
structure Reordered (own : Uuid) (ns ms : List Node) : Prop where
  mem : ∀ n, n ∈ ns ↔ n ∈ ms
  unique : ∀ n ∈ ns, ∀ m ∈ ns, n.uuid = m.uuid → n = m
  other : ∀ n ∈ ns, n.uuid ≠ own

variable {context : Node} {ns ms : List Node}

theorem Reordered.distances_eq (h : Reordered context.uuid ns ms) :
    distances context.uuid ns = distances context.uuid ms := by
  ext k
  simp only [distances, h.mem]

theorem Reordered.eq_of_steps (h : Reordered context.uuid ns ms) {n m : Node} (hn : n ∈ ns) (hm : m ∈ ms)
    (heq : steps context.uuid n.uuid = steps context.uuid m.uuid) : n = m :=
  h.unique n hn m ((h.mem m).mpr hm) (steps_inj.mp heq)

theorem Reordered.entry_eq (h : Reordered context.uuid ns ms) (i : Fin BITS) :
    (learned context ns).entry i = (learned context ms).entry i := by
  have hstart : ((learned context ns).entry i).uuid = ((learned context ms).entry i).uuid := by
    rw [entry_uuid, entry_uuid, learned_context, learned_context]
  have hnext := learned_next context ns i
  rw [h.distances_eq, hstart] at hnext
  have hkey := hnext.unique (learned_next context ms i)
  have hnode : ((learned context ns).entry i).node = ((learned context ms).entry i).node := by
    cases hn : ((learned context ns).entry i).node with
    | none =>
      rw [hn] at hkey
      exact (Option.map_eq_none_iff.mp hkey.symm).symm
    | some n =>
      rw [hn] at hkey
      obtain ⟨m, hm, heq⟩ := Option.map_eq_some_iff.mp hkey.symm
      rw [hm, h.eq_of_steps (learned_entry_mem n hn) (learned_entry_mem m hm) heq.symm]
  cases hl : (learned context ns).entry i
  cases hr : (learned context ms).entry i
  rw [hl, hr] at hstart hnode
  simp only at hstart hnode
  rw [hstart, hnode]

theorem Reordered.predecessor_eq (h : Reordered context.uuid ns ms) :
    (learned context ns).predecessor = (learned context ms).predecessor := by
  have hl := learned_last h.other
  have hr : MetLast context.uuid ms (learned context ms).predecessor :=
    learned_last fun m hm => h.other m ((h.mem m).mpr hm)
  cases hp : (learned context ns).predecessor with
  | none =>
    rw [hp] at hl
    obtain rfl : ns = [] := hl
    have hms : ms = [] := List.eq_nil_iff_forall_not_mem.mpr fun m hm => by simpa using (h.mem m).mpr hm
    rw [hms]
    rfl
  | some p =>
    rw [hp] at hl
    cases hq : (learned context ms).predecessor with
    | none =>
      rw [hq] at hr
      obtain rfl : ms = [] := hr
      simpa using (h.mem p).mp hl.1
    | some q =>
      rw [hq] at hr
      have hle := hr.2 p ((h.mem p).mp hl.1)
      have hge := hl.2 q ((h.mem q).mpr hr.1)
      rw [h.eq_of_steps hl.1 hr.1 (le_antisymm hle hge)]

theorem Reordered.learned_eq (h : Reordered context.uuid ns ms) :
    learned context ns = learned context ms := by
  apply ext_fields
  · rw [learned_context, learned_context]
  · apply List.ext_getElem
    · rw [successors_length, successors_length]
    · intro i hi _
      exact h.entry_eq ⟨i, by rw [← (learned context ns).successors_length]; exact hi⟩
  · exact h.predecessor_eq

/-- A fresh router that learned nodes, as the loop over a list. -/
theorem learned_eq_foldl (context : Node) (ns : List Node) :
    learned context ns = ns.foldl Router.update (.init context) := by
  rw [learned, Router.run, List.foldl_map]
  rfl

/-- Only the set of learned nodes counts, and a node that was learned is learned for good. -/
theorem insertion_order (context : Node) (ns : List Node) (hdistinct : (ns.map Node.uuid).Nodup)
    (hself : ∀ n ∈ ns, n.uuid ≠ context.uuid) (l l' : List Node) (hl : ∀ n, n ∈ l ↔ n ∈ ns)
    (hl' : ∀ n, n ∈ l' ↔ n ∈ ns) :
    l.foldl Router.update (.init context) = l'.foldl Router.update (.init context) ∧
      ∀ n ∈ ns, (l.foldl Router.update (.init context)).update n = l.foldl Router.update (.init context) := by
  have hsame : ∀ ms : List Node, (∀ n, n ∈ ms ↔ n ∈ ns) → Reordered context.uuid l ms := by
    intro ms hms
    constructor
    · exact fun n => (hl n).trans (hms n).symm
    · exact fun n hn m hm => List.inj_on_of_nodup_map hdistinct ((hl n).mp hn) ((hl m).mp hm)
    · exact fun n hn => hself n ((hl n).mp hn)
  constructor
  · rw [← learned_eq_foldl, ← learned_eq_foldl]
    exact (hsame l' hl').learned_eq
  · intro n hn
    have hrepeat : ∀ m, m ∈ l ++ [n] ↔ m ∈ ns := by
      intro m
      rw [List.mem_append, List.mem_singleton, hl]
      exact or_iff_left_of_imp fun hm => hm ▸ hn
    rw [← learned_eq_foldl, ← learned_concat]
    exact (hsame _ hrepeat).learned_eq.symm

/-- Node 3 is learned before and after node 250, which is on the other side of the wrap-around. -/
theorem insertion_order_wrap :
    [⟨3, []⟩, ⟨250, []⟩].foldl Router.update (.init ⟨200, []⟩) =
        [⟨250, []⟩, ⟨3, []⟩, ⟨250, []⟩].foldl Router.update (.init ⟨200, []⟩) ∧
      ∀ n ∈ [⟨3, []⟩, ⟨250, []⟩], ([⟨3, []⟩, ⟨250, []⟩].foldl Router.update (.init ⟨200, []⟩)).update n =
        [⟨3, []⟩, ⟨250, []⟩].foldl Router.update (.init ⟨200, []⟩) :=
  insertion_order ⟨200, []⟩ [⟨3, []⟩, ⟨250, []⟩] (by decide) (by decide) _ _ (fun _ => Iff.rfl)
    (fun n => by simp [or_comm, or_left_comm])

end Chord
