import Chord.Router
import Chord.Lib.Nearest

/-!
# The router keeps a table of nearest nodes

Seen from the own uuid, an entry is a slot: its start is the bound, and the distance of its
node the key. `update` and `remove` are `insert` and `remove` of `Lib/Nearest.lean`.
-/

open Circle Nearest

namespace Chord

namespace Router

/-! ## The table of a router -/

def slot (self : Uuid) (e : RouterEntry) : Slot Nat :=
  { bound := steps self e.uuid, key := e.node.map fun n => steps self n.uuid }

def table (r : Router) : Table Nat :=
  { slots := r.successors.map (slot r.context.uuid)
    last := r.predecessor.map fun p => steps r.context.uuid p.uuid }

/-- The nodes of all entries. -/
def nodes (r : Router) : List Node := r.successors.filterMap RouterEntry.node

theorem mem_nodes {r : Router} {n : Node} : n ∈ r.nodes ↔ ∃ e ∈ r.successors, e.node = some n := by
  simp [nodes]

theorem mem_keys_table {r : Router} {k : Nat} :
    k ∈ keys r.table.slots ↔ ∃ n ∈ r.nodes, steps r.context.uuid n.uuid = k := by
  simp only [mem_keys, table, List.mem_map, mem_nodes]
  constructor
  · rintro ⟨_, ⟨e, he, rfl⟩, hk⟩
    obtain ⟨n, hn, hd⟩ := Option.map_eq_some_iff.mp hk
    exact ⟨n, ⟨e, he, hn⟩, hd⟩
  · rintro ⟨n, ⟨e, he, hn⟩, hd⟩
    exact ⟨_, ⟨e, he, rfl⟩, by simp [slot, hn, hd]⟩

theorem key_mem {r : Router} {n : Node} (h : n ∈ r.nodes) :
    steps r.context.uuid n.uuid ∈ keys r.table.slots := mem_keys_table.mpr ⟨n, h, rfl⟩

theorem successors_length (r : Router) : r.successors.length = BITS := by
  have := congrArg List.length r.starts
  simpa using this

theorem start_getElem (r : Router) (i : Nat) (h : i < r.successors.length) :
    (r.successors[i]).uuid = calc_successor_uuid_for_index r.context.uuid i := by
  have hi : i < BITS := by rw [← r.successors_length]; exact h
  have := congrArg (·[i]?) r.starts
  simpa [h, hi] using this

theorem mem_start {r : Router} {e : RouterEntry} (h : e ∈ r.successors) :
    ∃ i < BITS, e.uuid = calc_successor_uuid_for_index r.context.uuid i := by
  obtain ⟨i, hi, rfl⟩ := List.getElem_of_mem h
  exact ⟨i, by rw [← r.successors_length]; exact hi, start_getElem r i hi⟩

theorem start_pos {r : Router} {e : RouterEntry} (h : e ∈ r.successors) :
    0 < steps r.context.uuid e.uuid := by
  obtain ⟨i, hi, he⟩ := mem_start h
  rw [he]
  exact steps_calc_pos _ hi

/-- Finger starts go round the circle in order. -/
theorem table_sorted (r : Router) : Sorted r.table.slots := by
  rw [sorted_iff_map, table, List.map_map]
  have : Slot.bound ∘ slot r.context.uuid = steps r.context.uuid ∘ RouterEntry.uuid := rfl
  rw [this, ← List.map_map, r.starts, List.pairwise_map, List.pairwise_map]
  apply List.Pairwise.imp_of_mem _ List.pairwise_lt_range
  intro i j hi hj hij
  exact steps_calc_mono _ (le_of_lt hij) (List.mem_range.mp hj)

theorem table_wf_iff (r : Router) : r.table.WF ↔ Closed r.table.slots ∧
    ∀ k ∈ keys r.table.slots, ∃ p, r.table.last = some p ∧ k ≤ p :=
  ⟨fun h => ⟨h.closed, h.bounded⟩, fun h => ⟨r.table_sorted, h.1, h.2⟩⟩

/-! ## One entry -/

/-- What closedness says about an entry and its node. -/
theorem entry_next {r : Router} (h : r.table.WF) {e : RouterEntry} (he : e ∈ r.successors) :
    IsNext (keys r.table.slots) (steps r.context.uuid e.uuid)
      (e.node.map fun n => steps r.context.uuid n.uuid) :=
  h.closed _ (List.mem_map_of_mem he)

theorem entry_node {r : Router} (h : r.table.WF) {e : RouterEntry} (he : e ∈ r.successors) {n : Node}
    (hn : e.node = some n) : steps r.context.uuid e.uuid < steps r.context.uuid n.uuid ∧
      ∀ m ∈ r.nodes, steps r.context.uuid e.uuid < steps r.context.uuid m.uuid →
        steps r.context.uuid n.uuid ≤ steps r.context.uuid m.uuid := by
  have hnext := entry_next h he
  rw [hn] at hnext
  exact ⟨hnext.1.2, fun m hm hlt => hnext.2 ⟨key_mem hm, hlt⟩⟩

theorem entry_empty {r : Router} (h : r.table.WF) {e : RouterEntry} (he : e ∈ r.successors)
    (hn : e.node = none) : ∀ m ∈ r.nodes, steps r.context.uuid m.uuid ≤ steps r.context.uuid e.uuid := by
  have hnext := entry_next h he
  rw [hn] at hnext
  exact fun m hm => hnext _ (key_mem hm)

/-- A node in the table is never the own uuid. -/
theorem node_pos {r : Router} (h : r.table.WF) {n : Node} (hn : n ∈ r.nodes) :
    0 < steps r.context.uuid n.uuid := by
  obtain ⟨e, he, hen⟩ := mem_nodes.mp hn
  exact lt_trans (start_pos he) (entry_node h he hen).1

theorem node_ne_self {r : Router} (h : r.table.WF) {n : Node} (hn : n ∈ r.nodes) :
    n.uuid ≠ r.context.uuid := (steps_pos.mp (node_pos h hn)).symm

/-- A node in the table sets a predecessor, and is not beyond it. -/
theorem node_le_predecessor {r : Router} (h : r.table.WF) {n : Node} (hn : n ∈ r.nodes) :
    ∃ p, r.predecessor = some p ∧ steps r.context.uuid n.uuid ≤ steps r.context.uuid p.uuid := by
  obtain ⟨_, hp, hle⟩ := h.bounded _ (key_mem hn)
  obtain ⟨p, hpred, rfl⟩ := Option.map_eq_some_iff.mp hp
  exact ⟨p, hpred, hle⟩

/-! ## `update` inserts -/

theorem replaces_iff {r : Router} (h : r.table.WF) (n : Node) {e : RouterEntry} (he : e ∈ r.successors) :
    replaces r.context.uuid n e ↔ Closer (slot r.context.uuid e).bound (slot r.context.uuid e).key
      (steps r.context.uuid n.uuid) := by
  rw [replaces, Closer, slot]
  cases hen : e.node with
  | none =>
    rw [Option.elim_none, between_to (steps_pos.mp (start_pos he)).symm]
    simp
  | some m =>
    have hlt := (entry_node h he hen).1
    rw [Option.elim_some, between_iff r.context.uuid, if_pos hlt]
    simp

theorem slot_update_entry {r : Router} (h : r.table.WF) (n : Node) {e : RouterEntry}
    (he : e ∈ r.successors) : slot r.context.uuid (update_entry r.context.uuid n e) =
      (slot r.context.uuid e).insert (steps r.context.uuid n.uuid) := by
  rw [update_entry, Slot.insert]
  have hiff := replaces_iff h n he
  by_cases hr : replaces r.context.uuid n e
  · rw [if_pos hr, if_pos (hiff.mp hr)]; rfl
  · rw [if_neg hr, if_neg (fun hc => hr (hiff.mpr hc))]

theorem steps_update_predecessor (self : Uuid) (n : Node) (o : Option Node) :
    steps self (update_predecessor self n o).uuid =
      (o.map fun p => steps self p.uuid).elim (steps self n.uuid) (max (steps self n.uuid)) := by
  cases o with
  | none => rfl
  | some p =>
    simp only [update_predecessor, Option.map_some, Option.elim_some]
    by_cases hb : between p.uuid n.uuid self
    · have hne : n ≠ p := by
        rintro rfl
        exact not_between_left _ _ hb
      rw [if_pos ⟨hne, hb⟩]
      by_cases hp : p.uuid = self
      · rw [hp, steps_self, Nat.max_zero]
      · rw [between_to hp] at hb
        omega
    · rw [if_neg (fun hc => hb hc.2)]
      by_cases hp : p.uuid = self
      · rw [hp, between_self, not_not] at hb
        rw [hp, hb, max_self]
      · rw [between_to hp] at hb
        omega

theorem table_update {r : Router} (h : r.table.WF) {n : Node} (hn : n ≠ r.context) :
    (r.update n).table = r.table.insert (steps r.context.uuid n.uuid) := by
  rw [update, if_neg hn, Table.insert, table, table]
  congr 1
  · rw [List.map_map, List.map_map]
    exact List.map_congr_left fun e he => slot_update_entry h n he
  · simp only [Option.map_some]
    rw [steps_update_predecessor]

/-! ## `remove` removes -/

/-- The nodes of a list of entries other than those of `u`. -/
def others (u : Uuid) (l : List RouterEntry) : List Node :=
  (l.filterMap RouterEntry.node).filter (·.uuid ≠ u)

theorem others_cons_none {u : Uuid} {e : RouterEntry} {l : List RouterEntry} (h : e.node = none) :
    others u (e :: l) = others u l := by
  rw [others, List.filterMap_cons_none h, others]

theorem others_cons_eq {u : Uuid} {e : RouterEntry} {l : List RouterEntry} {n : Node}
    (h : e.node = some n) (hu : n.uuid = u) : others u (e :: l) = others u l := by
  rw [others, List.filterMap_cons_some h, List.filter_cons_of_neg (by simpa using hu), others]

theorem others_cons_ne {u : Uuid} {e : RouterEntry} {l : List RouterEntry} {n : Node}
    (h : e.node = some n) (hu : n.uuid ≠ u) : others u (e :: l) = n :: others u l := by
  rw [others, List.filterMap_cons_some h, List.filter_cons_of_pos (by simpa using hu), others]

/-- The entries after the loop: those of `u` hold the next other node. -/
def refill (u : Uuid) : List RouterEntry → List RouterEntry
  | [] => []
  | e :: l => (if ∃ n ∈ e.node, n.uuid = u then { e with node := (others u l).head? } else e) :: refill u l

/-- The predecessor after the loop. -/
def lastOther (u : Uuid) (l : List RouterEntry) (p : Node) : Node :=
  if p.uuid = u then (others u l).getLastD p else p

theorem lastOther_cons_same {u : Uuid} {e : RouterEntry} {l : List RouterEntry} (p : Node)
    (h : others u (e :: l) = others u l) : lastOther u (e :: l) p = lastOther u l p := by
  rw [lastOther, h, lastOther]

theorem others_ne {u : Uuid} {l : List RouterEntry} {n : Node} (h : n ∈ others u l) : n.uuid ≠ u := by
  simpa using (List.mem_filter.mp h).2

theorem lastOther_cons_ne {u : Uuid} {e : RouterEntry} {l : List RouterEntry} {n : Node} (p : Node)
    (h : others u (e :: l) = n :: others u l) : lastOther u (e :: l) p =
      if u = (lastOther u l p).uuid then n else lastOther u l p := by
  rw [lastOther, lastOther, h]
  by_cases hp : p.uuid = u
  · rw [if_pos hp, if_pos hp]
    rcases List.eq_nil_or_concat (others u l) with hnil | ⟨l', m, hl⟩
    · simp [hnil, hp]
    · have hm : m.uuid ≠ u := others_ne (l := l) (by simp [hl])
      rw [hl, List.concat_eq_append, ← List.cons_append, List.getLastD_concat, List.getLastD_concat,
        if_neg hm.symm]
  · rw [if_neg hp, if_neg hp, if_neg (fun h => hp h.symm)]

theorem foldr_remove_step {self u : Uuid} {l : List RouterEntry}
    (hself : ∀ e ∈ l, ∀ n ∈ e.node, n.uuid ≠ self) (o : Option Node) :
    l.foldr (remove_step self u) ⟨[], none, o⟩ =
      ⟨refill u l, (others u l).head?, o.map (lastOther u l)⟩ := by
  induction l with
  | nil =>
    have : lastOther u [] = id := by funext p; simp [lastOther, others]
    rw [this, Option.map_id, id]; rfl
  | cons e l ih =>
    rw [List.foldr_cons, ih (fun e' he' => hself e' (List.mem_cons_of_mem e he')), remove_step]
    cases hen : e.node with
    | none =>
      have ho : others u (e :: l) = others u l := others_cons_none hen
      have hp : lastOther u (e :: l) = lastOther u l := funext fun p => lastOther_cons_same p ho
      simp [refill, hen, ho, hp]
    | some n =>
      have hns : n.uuid ≠ self := hself e List.mem_cons_self n hen
      by_cases hu : n.uuid = u
      · have ho : others u (e :: l) = others u l := others_cons_eq hen hu
        have hp : lastOther u (e :: l) = lastOther u l := funext fun p => lastOther_cons_same p ho
        simp [refill, hen, ho, hp, hu, Function.comp_def]
      · have ho : others u (e :: l) = n :: others u l := others_cons_ne hen hu
        have hp := funext fun p => lastOther_cons_ne p ho
        simp [refill, hen, ho, hp, hu, hns, Function.comp_def]

/-- The last entry sets the replacement itself, so its value before the loop is never used. -/
theorem foldr_last_replacement {self u : Uuid} {l : List RouterEntry}
    (hself : ∀ e ∈ l, ∀ n ∈ e.node, n.uuid ≠ self) (o : Option Node) :
    l.foldr (remove_step self u) ⟨[], last_replacement self u l, o⟩ =
      l.foldr (remove_step self u) ⟨[], none, o⟩ := by
  rcases List.eq_nil_or_concat l with rfl | ⟨l', e, rfl⟩
  · rfl
  · rw [List.concat_eq_append, List.foldr_append, List.foldr_append]
    congr 1
    rw [List.foldr_cons, List.foldr_nil, List.foldr_cons, List.foldr_nil, last_replacement,
      List.getLast?_append, List.getLast?_singleton, Option.some_or, Option.bind_some, remove_step,
      remove_step]
    cases hen : e.node with
    | none => rfl
    | some n =>
      have hns : n.uuid ≠ self := hself e (by simp) n hen
      by_cases hu : n.uuid = u
      · simp [← hu, hns]
      · simp [hu, hns]

theorem remove_spec {r : Router} (h : r.table.WF) (u : Uuid) :
    (r.remove u).successors = refill u r.successors ∧
      (r.remove u).predecessor =
        (r.predecessor.map (lastOther u r.successors)).filter (·.uuid ≠ u) := by
  have hself : ∀ e ∈ r.successors, ∀ n ∈ e.node, n.uuid ≠ r.context.uuid :=
    fun e he n hn => node_ne_self h (mem_nodes.mpr ⟨e, he, hn⟩)
  have hloop : r.remove_loop u = ⟨refill u r.successors, (others u r.successors).head?,
      r.predecessor.map (lastOther u r.successors)⟩ := by
    rw [remove_loop, foldr_last_replacement hself, foldr_remove_step hself]
  simp [remove, hloop]

theorem mem_nodes_remove {r : Router} (h : r.table.WF) {u : Uuid} {n : Node} :
    n ∈ (r.remove u).nodes ↔ n ∈ r.nodes ∧ n.uuid ≠ u := by
  have hfill : ∀ l : List RouterEntry, n ∈ (refill u l).filterMap RouterEntry.node ↔ n ∈ others u l := by
    intro l
    induction l with
    | nil => rfl
    | cons e l ih =>
      rw [refill]
      cases hen : e.node with
      | none =>
        rw [if_neg (by simp), List.filterMap_cons_none hen, ih, others_cons_none hen]
      | some m =>
        by_cases hu : m.uuid = u
        · rw [if_pos (by simp [hu]), others_cons_eq hen hu, ← ih]
          cases ho : (others u l).head? with
          | none => simp
          | some k =>
            simp only [List.filterMap_cons]
            rw [List.mem_cons, or_iff_right_of_imp]
            rintro rfl
            exact ih.mpr (List.mem_of_mem_head? ho)
        · rw [if_neg (by simpa using hu), List.filterMap_cons_some hen, others_cons_ne hen hu,
            List.mem_cons, List.mem_cons, ih]
  rw [nodes, (remove_spec h u).1, hfill, others, List.mem_filter, nodes]
  simp

theorem slot_key_eq (self : Uuid) (e : RouterEntry) (u : Uuid) :
    (slot self e).key = some (steps self u) ↔ ∃ n ∈ e.node, n.uuid = u := by
  simp [slot, steps_inj]

theorem map_others (self u : Uuid) (l : List RouterEntry) :
    ((l.map (slot self)).filterMap Slot.key).filter (· ≠ steps self u) =
      (others u l).map fun n => steps self n.uuid := by
  induction l with
  | nil => rfl
  | cons e l ih =>
    rw [List.map_cons]
    cases hen : e.node with
    | none =>
      have hk : (slot self e).key = none := by simp [slot, hen]
      rw [List.filterMap_cons_none hk, ih, others_cons_none hen]
    | some n =>
      have hk : (slot self e).key = some (steps self n.uuid) := by simp [slot, hen]
      rw [List.filterMap_cons_some hk]
      by_cases hu : n.uuid = u
      · rw [List.filter_cons_of_neg (by simp [hu]), ih, others_cons_eq hen hu]
      · rw [List.filter_cons_of_pos (by simpa [steps_inj] using hu), ih, others_cons_ne hen hu, List.map_cons]

theorem map_refill (self u : Uuid) (l : List RouterEntry) :
    (refill u l).map (slot self) = Nearest.remove (steps self u) (l.map (slot self)) := by
  induction l with
  | nil => rfl
  | cons e l ih =>
    rw [refill, List.map_cons, List.map_cons, Nearest.remove, ih]
    congr 1
    have hk := slot_key_eq self e u
    by_cases hu : ∃ n ∈ e.node, n.uuid = u
    · rw [if_pos hu, if_pos (hk.mpr hu), firstOther, ← List.head?_filter, map_others, List.head?_map]
      rfl
    · rw [if_neg hu, if_neg (fun h => hu (hk.mp h))]

theorem table_remove {r : Router} (h : r.table.WF) (u : Uuid) :
    (r.remove u).table = r.table.remove (steps r.context.uuid u) := by
  obtain ⟨hs, hp⟩ := remove_spec h u
  have hc : (r.remove u).context = r.context := rfl
  rw [table, table, Table.remove, hs, hp, hc, map_refill, map_others]
  congr 1
  cases r.predecessor with
  | none => simp
  | some p =>
    simp only [Option.map_some, Option.some.injEq, steps_inj, lastOther]
    by_cases hpu : p.uuid = u
    · rw [if_pos hpu, if_pos hpu, List.getLast?_map]
      cases hl : (others u r.successors).getLast? with
      | none =>
        rw [List.getLast?_eq_none_iff] at hl
        simp [hl, hpu]
      | some m =>
        have hm : m.uuid ≠ u := others_ne (List.mem_of_getLast? hl)
        simp [List.getLastD_eq_getLast?, hl, hm]
    · rw [if_neg hpu, if_neg hpu]
      simp [hpu]

/-! ## Every reachable router -/

@[simp]
theorem init_context (context : Node) : (init context).context = context := rfl

theorem init_wf (context : Node) : (init context).table.WF := by
  rw [table_wf_iff]
  have hempty : ∀ e ∈ (init context).table.slots, e.key = none := by
    intro e he
    simp only [table, init, List.map_map, List.mem_map] at he
    obtain ⟨i, -, rfl⟩ := he
    rfl
  have hkeys : ∀ k, k ∉ keys (init context).table.slots := by
    rintro k ⟨e, he, hk⟩
    rw [hempty e he] at hk
    simp at hk
  constructor
  · intro e he
    rw [hempty e he]
    exact fun x hx => absurd hx (hkeys x)
  · exact fun k hk => absurd hk (hkeys k)

theorem update_wf {r : Router} (h : r.table.WF) (n : Node) : (r.update n).table.WF := by
  by_cases hn : n = r.context
  · rw [update, if_pos hn]; exact h
  · rw [table_update h hn]; exact h.insert _

theorem remove_wf {r : Router} (h : r.table.WF) (u : Uuid) : (r.remove u).table.WF := by
  rw [table_remove h]; exact h.remove _

theorem apply_wf {r : Router} (h : r.table.WF) (op : RouterOp) : (r.apply op).table.WF := by
  cases op with
  | update n => exact update_wf h n
  | remove u => exact remove_wf h u
  | reset => exact init_wf r.context

@[simp]
theorem update_context (r : Router) (n : Node) : (r.update n).context = r.context := by
  unfold update; split <;> rfl

@[simp]
theorem remove_context (r : Router) (u : Uuid) : (r.remove u).context = r.context := rfl

theorem update_entry_idem (self : Uuid) (n : Node) (it : RouterEntry) :
    update_entry self n (update_entry self n it) = update_entry self n it := by
  by_cases h : replaces self n it
  · rw [update_entry, if_neg]
    rw [update_entry, if_pos h]
    exact not_between_right _ _
  · have hkeep : update_entry self n it = it := if_neg h
    rw [hkeep, hkeep]

theorem update_predecessor_idem (self : Uuid) (n : Node) (p : Option Node) :
    update_predecessor self n (some (update_predecessor self n p)) = update_predecessor self n p := by
  have hnew : update_predecessor self n (some n) = n := if_neg fun h => h.1 rfl
  cases p with
  | none => exact hnew
  | some p =>
    by_cases h : n ≠ p ∧ between p.uuid n.uuid self
    · have hgo : update_predecessor self n (some p) = n := if_pos h
      rw [hgo, hnew]
    · have hkeep : update_predecessor self n (some p) = p := if_neg h
      rw [hkeep, hkeep]

theorem update_successors {r : Router} {n : Node} (hn : n ≠ r.context) :
    (r.update n).successors = r.successors.map (update_entry r.context.uuid n) := by
  rw [update, if_neg hn]

theorem predecessor_update {r : Router} {n : Node} (hn : n ≠ r.context) :
    (r.update n).predecessor = some (update_predecessor r.context.uuid n r.predecessor) := by
  rw [update, if_neg hn]

/-- A second update of the same node changes nothing. -/
theorem update_idem (r : Router) (n : Node) : (r.update n).update n = r.update n := by
  by_cases hn : n = r.context
  · rw [Router.update, if_pos (by rw [update_context]; exact hn)]
  · have hn' : n ≠ (r.update n).context := by rwa [update_context]
    apply ext_fields
    · rw [update_context]
    · rw [update_successors hn', update_context, update_successors hn, List.map_map]
      exact List.map_congr_left fun it _ => update_entry_idem _ n it
    · rw [predecessor_update hn', update_context, predecessor_update hn, update_predecessor_idem]

@[simp]
theorem apply_context (r : Router) (op : RouterOp) : (r.apply op).context = r.context := by
  cases op <;> simp [apply, reset, init]

theorem foldl_apply_wf {r : Router} (h : r.table.WF) (ops : List RouterOp) :
    (ops.foldl apply r).table.WF ∧ (ops.foldl apply r).context = r.context := by
  induction ops generalizing r with
  | nil => exact ⟨h, rfl⟩
  | cons op ops ih =>
    rw [List.foldl_cons, ← apply_context r op]
    exact ih (apply_wf h op)

theorem run_wf (context : Node) (ops : List RouterOp) : (run context ops).table.WF :=
  (foldl_apply_wf (init_wf context) ops).1

@[simp]
theorem run_context (context : Node) (ops : List RouterOp) : (run context ops).context = context :=
  (foldl_apply_wf (init_wf context) ops).2

/-! ## The entry at an index -/

/-- `RouterSpy::entry`. -/
def entry (r : Router) (i : Fin BITS) : RouterEntry :=
  r.successors.get ⟨i.val, by rw [r.successors_length]; exact i.isLt⟩

theorem entry_mem (r : Router) (i : Fin BITS) : r.entry i ∈ r.successors := List.get_mem _ _

theorem entry_uuid (r : Router) (i : Fin BITS) :
    (r.entry i).uuid = calc_successor_uuid_for_index r.context.uuid i.val := start_getElem r i.val _

theorem entry_mem_nodes {r : Router} {i : Fin BITS} {n : Node} (h : (r.entry i).node = some n) :
    n ∈ r.nodes := mem_nodes.mpr ⟨_, r.entry_mem i, h⟩

theorem successor_eq_entry (r : Router) : r.successor = (r.entry ⟨0, by decide⟩).node := by
  have hlen : 0 < r.successors.length := by rw [r.successors_length]; decide
  rw [successor, List.head?_eq_getElem?, List.getElem?_eq_getElem hlen]
  rfl

theorem entry_start_pos (r : Router) (i : Fin BITS) : 0 < steps r.context.uuid (r.entry i).uuid :=
  start_pos (r.entry_mem i)

theorem entry_update {r : Router} {n : Node} (hn : n ≠ r.context) (i : Fin BITS) :
    (r.update n).entry i = update_entry r.context.uuid n (r.entry i) := by
  simp only [entry, update, if_neg hn, List.get_eq_getElem, List.getElem_map]

theorem init_nodes (context : Node) : (init context).nodes = [] := by
  rw [nodes, init, List.filterMap_map]
  exact List.filterMap_eq_nil_iff.mpr fun _ _ => rfl

theorem init_successor (context : Node) : (init context).successor = none := rfl

/-! ## The successor -/

theorem successor_start_le (r : Router) {e : RouterEntry} (he : e ∈ r.successors) :
    steps r.context.uuid (r.entry ⟨0, by decide⟩).uuid ≤ steps r.context.uuid e.uuid := by
  obtain ⟨i, hi, hs⟩ := mem_start he
  rw [entry_uuid, hs]
  exact steps_calc_mono _ (Nat.zero_le i) hi

/-- The first start is before every node of the table. -/
theorem first_start_lt {r : Router} (h : r.table.WF) {n : Node} (hn : n ∈ r.nodes) :
    steps r.context.uuid (r.entry ⟨0, by decide⟩).uuid < steps r.context.uuid n.uuid := by
  obtain ⟨e, he, hen⟩ := mem_nodes.mp hn
  exact lt_of_le_of_lt (r.successor_start_le he) (entry_node h he hen).1

theorem successor_mem {r : Router} {s : Node} (hs : r.successor = some s) : s ∈ r.nodes := by
  rw [successor_eq_entry] at hs
  exact entry_mem_nodes hs

/-- The successor is the nearest node of the table. -/
theorem successor_nearest {r : Router} (h : r.table.WF) {s : Node} (hs : r.successor = some s) :
    ∀ n ∈ r.nodes, steps r.context.uuid s.uuid ≤ steps r.context.uuid n.uuid := by
  intro n hn
  rw [successor_eq_entry] at hs
  exact (entry_node h (r.entry_mem _) hs).2 n hn (first_start_lt h hn)

theorem successor_none {r : Router} (h : r.table.WF) (hs : r.successor = none) : r.nodes = [] := by
  rw [successor_eq_entry] at hs
  apply List.eq_nil_iff_forall_not_mem.mpr
  intro n hn
  have := entry_empty h (r.entry_mem _) hs n hn
  have := first_start_lt h hn
  omega

end Router

end Chord
