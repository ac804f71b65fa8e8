import Chord.Join

/-! # A leave from an exact ring -/

open Circle Nearest

namespace Chord

open Router

/-! ## Records in a row -/

theorem distances_cons (self : Uuid) (n : Node) (ns : List Node) :
    distances self (n :: ns) = insert (steps self n.uuid) (distances self ns) := by
  ext k
  simp [distances, eq_comm]

theorem updates_next {r : Router} {self : Uuid} (hself : r.context.uuid = self) (h : r.table.WF)
    (ns : List Node) {s : Set Nat} (hs : IsNext s (steps self (calc_successor_uuid_for_index self 0))
      (r.successor.map fun n => steps self n.uuid)) :
    IsNext (s ∪ distances self ns) (steps self (calc_successor_uuid_for_index self 0))
      ((ns.foldl Router.update r).successor.map fun n => steps self n.uuid) := by
  induction ns generalizing r s with
  | nil =>
    have hempty : distances self [] = ∅ := by simp [distances]
    rw [hempty, Set.union_empty]
    exact hs
  | cons n ns ih =>
    have hstart := r.entry_uuid ⟨0, by decide⟩
    have hstart' := (r.update n).entry_uuid ⟨0, by decide⟩
    rw [update_context, hself] at hstart'
    rw [hself] at hstart
    have hnext := entry_update_next h n ⟨0, by decide⟩ (s := s) (by
      rw [hself, hstart, ← successor_eq_entry]; exact hs)
    rw [hself, hstart', ← successor_eq_entry] at hnext
    have hrest := ih (by rw [update_context, hself]) (update_wf h n) hnext
    rw [distances_cons, Set.union_insert, ← Set.insert_union]
    exact hrest

theorem last_update {r : Router} {n : Node} (hn : n ≠ r.context) : (r.update n).table.last =
    some (r.table.last.elim (steps r.context.uuid n.uuid) (max (steps r.context.uuid n.uuid))) := by
  rw [update, if_neg hn, table, table]
  simp only [Option.map_some]
  rw [steps_update_predecessor]

/-- The furthest key after some records: that of the greatest of them all. -/
theorem updates_last {r : Router} {self : Uuid} (hself : r.context.uuid = self) (ns : List Node) {k : Nat} :
    (ns.foldl Router.update r).table.last = some k ↔
      IsGreatest ({x | r.table.last = some x} ∪ distances self (ns.filter (· ≠ r.context))) k := by
  induction ns generalizing r with
  | nil =>
    have hempty : distances self [] = ∅ := by simp [distances]
    rw [List.filter_nil, hempty, Set.union_empty, List.foldl_nil]
    constructor
    · intro h
      refine ⟨h, fun x hx => ?_⟩
      rw [Set.mem_ofPred_eq, h, Option.some.injEq] at hx
      omega
    · exact fun h => h.1
  | cons n ns ih =>
    rw [List.foldl_cons, ih (by rw [update_context, hself]), update_context]
    by_cases hn : n = r.context
    · rw [Router.update, if_pos hn, List.filter_cons_of_neg (by simpa using hn)]
    · rw [List.filter_cons_of_pos (by simpa using hn), distances_cons, last_update hn, hself]
      have hset : ∀ y : Nat, ({x | some y = some x} : Set Nat) = {y} := by
        intro y; ext x; simp [eq_comm]
      cases hl : r.table.last with
      | none =>
        have hnone : ({x | (none : Option Nat) = some x} : Set Nat) = ∅ := by ext x; simp
        rw [Option.elim_none, hset, hnone, Set.empty_union, Set.singleton_union]
      | some m =>
        simp only [Option.elim_some, hset, Set.union_insert]
        rcases le_total (steps self n.uuid) m with hle | hle
        · rw [max_eq_right hle]
          exact (isGreatest_absorb (Set.mem_union_left _ (Set.mem_singleton m)) hle).symm
        · rw [max_eq_left hle, Set.singleton_union, Set.singleton_union, Set.insert_comm]
          exact (isGreatest_absorb (Set.mem_insert _ _) hle).symm

/-! ## The fingers that go along -/

theorem mem_set_insert {ret : List Node} {m n : Node} (h : n ∈ set_insert ret m) : n = m ∨ n ∈ ret := by
  rw [set_insert] at h
  split at h
  · right; exact h
  · exact (List.mem_orderedInsert _).mp h

theorem set_insert_of_mem {ret : List Node} {m n : Node} (h : n ∈ ret) : n ∈ set_insert ret m := by
  rw [set_insert]
  split
  · exact h
  · exact (List.mem_orderedInsert _).mpr (Or.inr h)

theorem set_insert_uuid (ret : List Node) (m : Node) : ∃ n ∈ set_insert ret m, n.uuid = m.uuid := by
  rw [set_insert]
  split
  · rename_i h
    obtain ⟨n, hn, hu⟩ := List.mem_map.mp h
    exact ⟨n, hn, hu⟩
  · exact ⟨m, (List.mem_orderedInsert _).mpr (Or.inl rfl), rfl⟩

theorem foldl_set_insert (l ret : List Node) :
    (∀ n ∈ l.foldl set_insert ret, n ∈ ret ∨ n ∈ l) ∧ (∀ n ∈ ret, n ∈ l.foldl set_insert ret) ∧
      ∀ m ∈ l, ∃ n ∈ l.foldl set_insert ret, n.uuid = m.uuid := by
  induction l generalizing ret with
  | nil => simp
  | cons a l ih =>
    obtain ⟨hsub, hkeep, huuid⟩ := ih (set_insert ret a)
    refine ⟨?_, ?_, ?_⟩
    · intro n hn
      rcases hsub n hn with h | h
      · rcases mem_set_insert h with rfl | h
        · right; exact List.mem_cons_self
        · left; exact h
      · right; exact List.mem_cons_of_mem a h
    · intro n hn
      exact hkeep n (set_insert_of_mem hn)
    · intro m hm
      rcases List.mem_cons.mp hm with rfl | hm
      · obtain ⟨n, hn, hu⟩ := set_insert_uuid ret m
        exact ⟨n, hkeep n hn, hu⟩
      · exact huuid m hm

/-- `Router::get` has the uuids of the table. -/
theorem exists_get {r : Router} {u : Uuid} : (∃ n ∈ r.get, n.uuid = u) ↔ ∃ n ∈ r.nodes, n.uuid = u := by
  obtain ⟨hsub, -, huuid⟩ := foldl_set_insert r.nodes []
  constructor
  · rintro ⟨n, hn, hu⟩
    exact ⟨n, (hsub n hn).resolve_left (by simp), hu⟩
  · rintro ⟨m, hm, rfl⟩
    exact huuid m hm

theorem get_single {r : Router} {s : Node} (hs : r.successor = some s)
    (hall : ∀ n ∈ r.nodes, n.uuid = s.uuid) : r.get = [s] := by
  have hstay : ∀ l : List Node, (∀ n ∈ l, n.uuid = s.uuid) → l.foldl set_insert [s] = [s] := by
    intro l hl
    induction l with
    | nil => rfl
    | cons a l ih =>
      have ha : set_insert [s] a = [s] := by
        rw [set_insert, if_pos]
        simp [hl a List.mem_cons_self]
      rw [List.foldl_cons, ha]
      exact ih fun n hn => hl n (List.mem_cons_of_mem a hn)
  have hget : r.get = r.nodes.foldl set_insert [] := rfl
  cases hn : r.successors with
  | nil => rw [successor, hn] at hs; cases hs
  | cons e l =>
    rw [successor, hn] at hs
    have he : e.node = some s := hs
    have hnodes : r.nodes = s :: l.filterMap RouterEntry.node := by
      rw [nodes, hn, List.filterMap_cons_some he]
    rw [hget, hnodes, List.foldl_cons]
    rw [hnodes] at hall
    exact hstay _ fun n hn => hall n (List.mem_cons_of_mem s hn)

namespace Network

/-! ## The two neighbours of the node that leaves -/

/-- A node with router `r` and its exact neighbours `p` and `s`. -/
structure Leaving (net : Network) (r : Router) (p s : Node) : Prop where
  ring : ExactRing net
  up : net r.context.uuid = some r
  successor : r.successor = some s
  predecessor : r.predecessor = some p

namespace Leaving

variable {net : Network} {r : Router} {p s : Node}

theorem next (h : Leaving net r p s) : net.Member s ∧ Next net.members r.context.uuid s.uuid := by
  have hsucc := h.ring.successor _ _ h.up
  rwa [h.successor] at hsucc

theorem prev (h : Leaving net r p s) : net.Member p ∧ Prev net.members r.context.uuid p.uuid := by
  have hpred := h.ring.predecessor _ _ h.up
  rwa [h.predecessor] at hpred

theorem mem (h : Leaving net r p s) : r.context.uuid ∈ net.members := mem_members.mpr ⟨r, h.up⟩

theorem prev_next (h : Leaving net r p s) : Next net.members p.uuid r.context.uuid :=
  (next_iff_prev h.prev.1.mem h.mem).mpr h.prev.2

theorem next_prev (h : Leaving net r p s) : Prev net.members s.uuid r.context.uuid :=
  (next_iff_prev h.mem h.next.1.mem).mp h.next.2

/-- The fingers go from the successor to the predecessor. -/
theorem finger_range (h : Leaving net r p s) {x : Node} (hx : x ∈ r.nodes) :
    steps r.context.uuid s.uuid ≤ steps r.context.uuid x.uuid ∧
      steps r.context.uuid x.uuid ≤ steps r.context.uuid p.uuid := by
  have hw := h.ring.wf _ _ h.up
  obtain ⟨q, hq, hle⟩ := node_le_predecessor hw hx
  rw [h.predecessor] at hq
  rw [Option.some.inj hq]
  exact ⟨successor_nearest hw h.successor x hx, hle⟩

/-- The own successor of the predecessor, and the own predecessor of the successor. -/
theorem left_successor (h : Leaving net r p s) {rp : Router} (hrp : net p.uuid = some rp) :
    ∃ t, rp.successor = some t ∧ t.uuid = r.context.uuid := by
  have hsucc := h.ring.successor _ _ hrp
  cases ht : rp.successor with
  | none =>
    rw [ht] at hsucc
    exact absurd (hsucc _ h.mem) h.prev_next.ne
  | some t =>
    rw [ht] at hsucc
    exact ⟨t, rfl, hsucc.2.unique h.prev_next⟩

theorem right_predecessor (h : Leaving net r p s) {rs : Router} (hrs : net s.uuid = some rs) :
    ∃ t, rs.predecessor = some t ∧ t.uuid = r.context.uuid := by
  have hpred := h.ring.predecessor _ _ hrs
  cases ht : rs.predecessor with
  | none =>
    rw [ht] at hpred
    exact absurd (hpred _ h.mem) h.next.2.ne.symm
  | some t =>
    rw [ht] at hpred
    exact ⟨t, rfl, hpred.2.unique h.next_prev⟩

/-- The records of the leave message, as the receiver decodes them. -/
theorem distances_get (self : Uuid) (peer : Endpoint) (k : Nat) :
    k ∈ distances self (r.get.map (make_node peer)) ↔ ∃ x ∈ r.nodes, steps self x.uuid = k := by
  constructor
  · rintro ⟨m, hm, rfl⟩
    obtain ⟨n, hn, rfl⟩ := List.mem_map.mp hm
    obtain ⟨x, hx, hu⟩ := exists_get.mp ⟨n, hn, rfl⟩
    exact ⟨x, hx, by rw [make_node_uuid, hu]⟩
  · rintro ⟨x, hx, rfl⟩
    obtain ⟨n, hn, hu⟩ := exists_get.mpr ⟨x, hx, rfl⟩
    exact ⟨_, List.mem_map_of_mem hn, by rw [make_node_uuid, hu]⟩

/-! ## What the predecessor learns -/

theorem left_successor_iff (h : Leaving net r p s) (hps : p.uuid ≠ s.uuid) {rp : Router}
    (hrp : net p.uuid = some rp) (peer : Endpoint) :
    ((r.get.map (make_node peer)).foldl Router.update (rp.remove r.context.uuid)).successor.map Node.uuid =
        some s.uuid ↔ ∀ x ∈ rp.nodes, ¬ between r.context.uuid x.uuid s.uuid := by
  have hw := h.ring.wf _ _ hrp
  have hown := h.ring.own _ _ hrp
  obtain ⟨t, ht, htn⟩ := h.left_successor hrp
  have hn : steps p.uuid r.context.uuid < steps p.uuid s.uuid := by
    have hle := h.prev_next.le _ h.next.1.mem hps.symm
    have hne : steps p.uuid r.context.uuid ≠ steps p.uuid s.uuid := by
      rw [ne_eq, steps_inj]
      exact h.next.2.ne.symm
    omega
  have hstart : steps p.uuid (calc_successor_uuid_for_index p.uuid 0) < steps p.uuid r.context.uuid := by
    have := first_start_lt hw (successor_mem ht)
    rwa [entry_uuid, hown, htn] at this
  -- the successor is the nearest of the own nodes that are left and the records
  have hremove := entry_next (remove_wf hw r.context.uuid)
    ((rp.remove r.context.uuid).entry_mem ⟨0, by decide⟩)
  rw [entry_uuid, ← successor_eq_entry, remove_context, hown] at hremove
  have hnext := updates_next (by rw [remove_context, hown]) (remove_wf hw _)
      (r.get.map (make_node peer)) hremove
  have hmap : ∀ o : Option Node, o.map Node.uuid = some s.uuid ↔
      (o.map fun m => steps p.uuid m.uuid) = some (steps p.uuid s.uuid) := by
    intro o
    cases o <;> simp [steps_inj]
  rw [hmap]
  have hfinger : ∀ x ∈ r.nodes, x.uuid = p.uuid ∨ steps p.uuid s.uuid ≤ steps p.uuid x.uuid := by
    intro x hx
    obtain ⟨h1, h2⟩ := h.finger_range hx
    by_cases hxp : x.uuid = p.uuid
    · left; exact hxp
    · right
      have hpos := steps_pos.mpr (Ne.symm hxp)
      have hlt := steps_lt p.uuid x.uuid
      have hback : steps r.context.uuid p.uuid = 2 ^ 256 - steps p.uuid r.context.uuid := by
        rw [steps_shift p.uuid r.context.uuid p.uuid, steps_self, if_neg (by omega), Nat.add_zero]
      have hgap : steps r.context.uuid s.uuid = steps p.uuid s.uuid - steps p.uuid r.context.uuid := by
        rw [steps_shift p.uuid r.context.uuid s.uuid, if_pos (le_of_lt hn)]
      rw [hback] at h2
      rw [hgap] at h1
      rw [steps_shift p.uuid r.context.uuid x.uuid] at h1 h2
      split at h1 <;> split at h2 <;> omega
  have hmemk : ∀ k, k ∈ keys (rp.remove r.context.uuid).table.slots ↔
      ∃ x ∈ rp.nodes, x.uuid ≠ r.context.uuid ∧ steps p.uuid x.uuid = k := by
    intro k
    rw [mem_keys_table, remove_context, hown]
    simp only [mem_nodes_remove hw, and_assoc]
  constructor
  · intro hsucc x hx hb
    rw [hsucc] at hnext
    have hxn : x.uuid ≠ r.context.uuid := by
      intro heq
      rw [heq] at hb
      exact not_between_left _ _ hb
    rw [between_iff p.uuid, if_pos hn] at hb
    have hle := hnext.2 ⟨Or.inl ((hmemk _).mpr ⟨x, hx, hxn, rfl⟩), lt_trans hstart hb.1⟩
    omega
  · intro hclear
    refine hnext.unique ⟨⟨Or.inr ?_, lt_trans hstart hn⟩, ?_⟩
    · exact (distances_get _ _ _).mpr ⟨s, successor_mem h.successor, rfl⟩
    · rintro k ⟨hk | hk, hlt⟩
      · obtain ⟨x, hx, hxn, rfl⟩ := (hmemk k).mp hk
        have hnear := successor_nearest hw ht x hx
        rw [hown, htn] at hnear
        have hne : steps p.uuid r.context.uuid ≠ steps p.uuid x.uuid := by
          rw [ne_eq, steps_inj]
          exact hxn.symm
        have hnb := hclear x hx
        rw [between_iff p.uuid, if_pos hn] at hnb
        omega
      · obtain ⟨x, hx, rfl⟩ := (distances_get _ _ _).mp hk
        rcases hfinger x hx with hxp | hle
        · rw [hxp, steps_self] at hlt
          omega
        · exact hle

/-! ## What the successor learns -/

theorem right_predecessor_iff (h : Leaving net r p s) (hps : p.uuid ≠ s.uuid) {rs : Router}
    (hrs : net s.uuid = some rs) (peer : Endpoint) :
    ((r.get.map (make_node peer)).foldl Router.update (rs.remove r.context.uuid)).predecessor.map Node.uuid =
        some p.uuid ↔ (∃ x, (x ∈ rs.nodes ∨ x ∈ r.nodes) ∧ x.uuid = p.uuid) ∧
          ∀ x ∈ rs.nodes, ¬ between p.uuid x.uuid r.context.uuid := by
  have hw := h.ring.wf _ _ hrs
  have hown := h.ring.own _ _ hrs
  obtain ⟨t, ht, htn⟩ := h.right_predecessor hrs
  have hpn : p.uuid ≠ r.context.uuid := h.prev.2.ne
  have hn : steps s.uuid p.uuid < steps s.uuid r.context.uuid := by
    have hge := h.next_prev.ge _ h.prev.1.mem hps
    have hne : steps s.uuid p.uuid ≠ steps s.uuid r.context.uuid := by
      rw [ne_eq, steps_inj]
      exact hpn
    omega
  have hlast : rs.table.last = some (steps rs.context.uuid r.context.uuid) := by
    rw [table, ht, Option.map_some, htn]
  have hmap : ∀ R : Router, R.context.uuid = s.uuid → (R.predecessor.map Node.uuid = some p.uuid ↔
      R.table.last = some (steps s.uuid p.uuid)) := by
    intro R hR
    rw [table, hR]
    cases R.predecessor <;> simp [steps_inj]
  have hctx : ∀ ns : List Node, (ns.foldl Router.update (rs.remove r.context.uuid)).context.uuid =
      s.uuid := by
    intro ns
    induction ns using List.reverseRecOn with
    | nil => exact hown
    | append_singleton ns n ih => rw [List.foldl_append, List.foldl_cons, List.foldl_nil, update_context, ih]
  -- the predecessor is the furthest of the own nodes that are left and the records
  rw [hmap _ (hctx _), updates_last (by rw [remove_context, hown]), table_remove hw,
    hw.last_remove_union hlast]
  have hrecord : ∀ k, k ∈ distances s.uuid ((r.get.map (make_node peer)).filter
      (· ≠ (rs.remove r.context.uuid).context)) → ∃ x ∈ r.nodes, steps s.uuid x.uuid = k := by
    rintro k ⟨m, hm, rfl⟩
    exact (distances_get _ peer _).mp ⟨m, (List.mem_filter.mp hm).1, rfl⟩
  have hfinger : ∀ x ∈ r.nodes, steps s.uuid x.uuid ≤ steps s.uuid p.uuid := by
    intro x hx
    obtain ⟨h1, h2⟩ := h.finger_range hx
    have hlt := steps_lt r.context.uuid p.uuid
    rw [steps_shift r.context.uuid s.uuid x.uuid, steps_shift r.context.uuid s.uuid p.uuid]
    split <;> split <;> omega
  have hmemk : ∀ k, k ∈ keys rs.table.slots \ {steps rs.context.uuid r.context.uuid} ↔
      ∃ x ∈ rs.nodes, x.uuid ≠ r.context.uuid ∧ steps s.uuid x.uuid = k := by
    intro k
    rw [Set.mem_sdiff, mem_keys_table, hown, Set.mem_singleton_iff]
    constructor
    · rintro ⟨⟨x, hx, rfl⟩, hne⟩
      exact ⟨x, hx, fun heq => hne (by rw [heq]), rfl⟩
    · rintro ⟨x, hx, hxn, rfl⟩
      exact ⟨⟨x, hx, rfl⟩, fun heq => hxn (steps_inj.mp heq)⟩
  have hinside : ∀ x ∈ rs.nodes, x.uuid ≠ r.context.uuid →
      (steps s.uuid x.uuid ≤ steps s.uuid p.uuid ↔ ¬ between p.uuid x.uuid r.context.uuid) := by
    intro x hx hxn
    obtain ⟨q, hq, hle⟩ := node_le_predecessor hw hx
    rw [ht] at hq
    rw [← Option.some.inj hq, htn, hown] at hle
    have hne : steps s.uuid x.uuid ≠ steps s.uuid r.context.uuid := by
      rw [ne_eq, steps_inj]
      exact hxn
    rw [between_iff s.uuid, if_pos hn]
    omega
  constructor
  · rintro ⟨hmem, hub⟩
    refine ⟨?_, ?_⟩
    · rcases hmem with hk | hk
      · obtain ⟨x, hx, -, heq⟩ := (hmemk _).mp hk
        exact ⟨x, Or.inl hx, steps_inj.mp heq⟩
      · obtain ⟨x, hx, heq⟩ := hrecord _ hk
        exact ⟨x, Or.inr hx, steps_inj.mp heq⟩
    · intro x hx hb
      have hxn : x.uuid ≠ r.context.uuid := by
        intro heq
        rw [heq] at hb
        exact not_between_right _ _ hb
      exact (hinside x hx hxn).mp (hub (Or.inl ((hmemk _).mpr ⟨x, hx, hxn, rfl⟩))) hb
  · rintro ⟨⟨x, hx, hxp⟩, hclear⟩
    refine ⟨?_, ?_⟩
    · rcases hx with hx | hx
      · left
        exact (hmemk _).mpr ⟨x, hx, by rw [hxp]; exact hpn, by rw [hxp]⟩
      · right
        obtain ⟨m, hm, hu⟩ := (distances_get s.uuid peer _).mpr ⟨x, hx, rfl⟩
        refine ⟨m, List.mem_filter.mpr ⟨hm, ?_⟩, by rw [hu, hxp]⟩
        have hmp : m.uuid = p.uuid := (steps_inj.mp hu).trans hxp
        apply decide_eq_true
        rintro rfl
        exact hps (hmp.symm.trans hown)
    · rintro k (hk | hk)
      · obtain ⟨y, hy, hyn, rfl⟩ := (hmemk k).mp hk
        exact (hinside y hy hyn).mpr (hclear y hy)
      · obtain ⟨y, hy, rfl⟩ := hrecord k hk
        exact hfinger y hy

/-! ## The messages of the leave -/

/-- The router of a neighbour after `Service::leave`. -/
def left (r : Router) (peer : Endpoint) (r' : Router) : Router :=
  (r.get.map (make_node peer)).foldl Router.update (r'.remove r.context.uuid)

theorem service_leave_eq (peer : Endpoint) (r' : Router) :
    Service.leave r' peer (Client.leave_request r) = (.OK, left r peer r') := rfl

theorem leave_call {t : Node} {r' : Router} (ht : net t.uuid = some r') (peer : Endpoint) :
    leave t peer (Client.leave_request r) net =
      .ok (.OK, Function.update net t.uuid (some (left r peer r'))) := by
  simp only [leave, ht, service_leave_eq]

theorem client_leave_calls (h : Leaving net r p s) {peer : Endpoint} {rs rp : Router}
    (hrs : net s.uuid = some rs)
    (hrp : Function.update net s.uuid (some (left r peer rs)) p.uuid = some rp) :
    client_leave r peer net = .ok ((), Function.update (Function.update net s.uuid (some (left r peer rs)))
      p.uuid (some (left r peer rp))) := by
  have hne : s ≠ r.context := fun heq => h.next.2.ne (congrArg Node.uuid heq)
  simp only [client_leave, h.successor, if_neg hne, h.predecessor, bind, StateT.bind, Except.bind,
    leave_call hrs, pure_call]
  rw [leave_call hrp]

/-- A table of one uuid is empty once that is removed. -/
theorem emptied {r' : Router} (hw : r'.table.WF) {u : Uuid} (hall : ∀ x ∈ r'.nodes, x.uuid = u)
    (hp : ∀ t ∈ r'.predecessor, t.uuid = u) :
    (r'.remove u).successor = none ∧ (r'.remove u).predecessor = none := by
  have hnodes : ∀ x, x ∉ (r'.remove u).nodes := by
    intro x hx
    rw [mem_nodes_remove hw] at hx
    exact hx.2 (hall x hx.1)
  constructor
  · rw [Option.eq_none_iff_forall_not_mem]
    intro t ht
    exact hnodes t (successor_mem ht)
  · rw [(remove_spec hw u).2]
    have hothers : others u r'.successors = [] := by
      rw [List.eq_nil_iff_forall_not_mem]
      intro x hx
      exact others_ne hx (hall x (List.mem_of_mem_filter hx))
    cases hq : r'.predecessor with
    | none => rfl
    | some t =>
      have hself : lastOther u r'.successors t = t := by
        rw [lastOther, hothers]
        split <;> rfl
      rw [Option.map_some, hself, Option.filter_some, hp t hq]
      simp

/-- With one other node in the ring, its table holds nothing else, and ours neither. -/
theorem other_nodes (h : Leaving net r p s) (hps : p.uuid = s.uuid) {rs : Router}
    (hrs : net s.uuid = some rs) :
    (∀ x ∈ rs.nodes, x.uuid = r.context.uuid) ∧ r.get = [s] := by
  have hw := h.ring.wf _ _ hrs
  have hown := h.ring.own _ _ hrs
  constructor
  · intro x hx
    obtain ⟨t, ht, htn⟩ := h.left_successor (hps ▸ hrs)
    obtain ⟨q, hq, hqn⟩ := h.right_predecessor hrs
    obtain ⟨q', hq', hle⟩ := node_le_predecessor hw hx
    have hge := successor_nearest hw ht x hx
    rw [hq] at hq'
    rw [← Option.some.inj hq', hqn] at hle
    rw [htn] at hge
    exact (steps_inj.mp (le_antisymm hge hle)).symm
  · apply get_single h.successor
    intro x hx
    obtain ⟨h1, h2⟩ := h.finger_range hx
    rw [hps] at h2
    exact steps_inj.mp (le_antisymm h2 h1)

theorem left_other (h : Leaving net r p s) (hps : p.uuid = s.uuid) {rs : Router} (hrs : net s.uuid = some rs)
    (peer : Endpoint) (r' : Router) :
    left r peer r' = (r'.remove r.context.uuid).update (make_node peer s) := by
  rw [left, (h.other_nodes hps hrs).2]
  rfl

/-- The node that remains is alone exactly where its own record comes back as it is. -/
theorem left_twice_iff (h : Leaving net r p s) (hps : p.uuid = s.uuid) {rs : Router}
    (hrs : net s.uuid = some rs) (peer : Endpoint) :
    ((left r peer (left r peer rs)).successor = none ∧ (left r peer (left r peer rs)).predecessor = none) ↔
      make_node peer s = s := by
  have hw := h.ring.wf _ _ hrs
  have hctx : rs.context = s := by
    obtain ⟨r', hr', hc⟩ := h.next.1
    rw [hrs] at hr'
    rw [Option.some.inj hr', hc]
  rw [h.left_other hps hrs, h.left_other hps hrs]
  constructor
  · rintro ⟨-, hpred⟩
    by_contra hne
    rw [Router.update, if_neg
      (by rw [remove_context, update_context, remove_context, hctx]; exact hne)] at hpred
    cases hpred
  · intro heq
    have hsame : ∀ r' : Router, r'.context = s → r'.update (make_node peer s) = r' := by
      intro r' hr'
      rw [Router.update, if_pos (by rw [heq, hr'])]
    rw [hsame (rs.remove r.context.uuid) hctx, hsame ((rs.remove r.context.uuid).remove r.context.uuid) hctx]
    obtain ⟨hall, -⟩ := h.other_nodes hps hrs
    obtain ⟨q, hq, hqn⟩ := h.right_predecessor hrs
    have hfirst := emptied hw hall (by rintro t ht; rw [hq] at ht; rw [← Option.some.inj ht]; exact hqn)
    apply emptied (remove_wf hw _)
    · intro x hx
      exact hall x ((mem_nodes_remove hw).mp hx).1
    · intro t ht
      rw [hfirst.2] at ht
      cases ht

end Leaving

/-! ## The ring after a leave -/

def tableOf (net : Network) (u : Uuid) : List Node := ((net u).map nodes).getD []

/-- The two neighbours have found each other, or the one that remains is alone. -/
def GapClosed (net : Network) (p s : Node) : Prop :=
  if p.uuid = s.uuid then ∃ r, net p.uuid = some r ∧ r.successor = none ∧ r.predecessor = none
  else (∃ r, net p.uuid = some r ∧ r.successor.map Node.uuid = some s.uuid) ∧
    ∃ r, net s.uuid = some r ∧ r.predecessor.map Node.uuid = some p.uuid

/-- The successor or the leaving node has the predecessor among its fingers, and no finger of
either neighbour lies between that neighbour and the other one. With one other node, its record
keeps its endpoint when the receiver decodes it. -/
def Bridged (net : Network) (peer : Endpoint) (n : Uuid) (p s : Node) : Prop :=
  if p.uuid = s.uuid then make_node peer s = s
  else ((∃ x, (x ∈ net.tableOf s.uuid ∨ x ∈ net.tableOf n) ∧ x.uuid = p.uuid) ∧
      ∀ x ∈ net.tableOf s.uuid, ¬ between p.uuid x.uuid n) ∧
    ∀ x ∈ net.tableOf p.uuid, ¬ between n x.uuid s.uuid

theorem leave_other_iff {net : Network} {r : Router} {p s : Node} (h : Leaving net r p s)
    (hps : p.uuid = s.uuid) (peer : Endpoint) : ∃ net', client_leave r peer net = .ok ((), net') ∧
      (GapClosed (Function.update net' r.context.uuid none) p s ↔ make_node peer s = s) := by
  obtain ⟨rs, hrs, -⟩ := h.next.1
  have hfirst : Function.update net s.uuid (some (Leaving.left r peer rs)) p.uuid =
      some (Leaving.left r peer rs) := by rw [hps, Function.update_self]
  refine ⟨_, h.client_leave_calls hrs hfirst, ?_⟩
  rw [GapClosed, if_pos hps, ← h.left_twice_iff hps hrs peer, Function.update_of_ne h.prev.2.ne,
    Function.update_self]
  simp

/-- The leave messages are taken by both neighbours, and close the gap exactly where they are
`Bridged`. -/
theorem leave_closes_gap_iff (net : Network) (r : Router) (p s : Node) (h : Leaving net r p s)
    (peer : Endpoint) :
    ∃ net', client_leave r peer net = .ok ((), net') ∧
      (GapClosed (Function.update net' r.context.uuid none) p s ↔ Bridged net peer r.context.uuid p s) := by
  by_cases hps : p.uuid = s.uuid
  · rw [Bridged, if_pos hps]
    exact leave_other_iff h hps peer
  · obtain ⟨rs, hrs, -⟩ := h.next.1
    obtain ⟨rp, hrp, -⟩ := h.prev.1
    have hsn : s.uuid ≠ r.context.uuid := h.next.2.ne
    have hpn : p.uuid ≠ r.context.uuid := h.prev.2.ne
    have hfirst : Function.update net s.uuid (some (Leaving.left r peer rs)) p.uuid = some rp := by
      rw [Function.update_of_ne hps, hrp]
    refine ⟨_, h.client_leave_calls hrs hfirst, ?_⟩
    have htable : net.tableOf s.uuid = rs.nodes ∧ net.tableOf p.uuid = rp.nodes ∧
        net.tableOf r.context.uuid = r.nodes := by
      simp [tableOf, hrs, hrp, h.up]
    rw [GapClosed, if_neg hps, Bridged, if_neg hps, htable.1, htable.2.1, htable.2.2,
      ← h.right_predecessor_iff hps hrs peer, ← h.left_successor_iff hps hrp peer,
      Function.update_of_ne hpn, Function.update_self, Function.update_of_ne hsn,
      Function.update_of_ne (Ne.symm hps), Function.update_self]
    simp only [Option.some.injEq, exists_eq_left', and_comm, Leaving.left]

/-! ## One of two nodes leaves -/

theorem pair_exact {a b : Node} (h : b.uuid ≠ a.uuid) (ha : ((init a).update b).successor = some b)
    (hb : ((init b).update a).successor = some a) : ExactRing (pair a b) := by
  have hne : ∀ n m : Node, m.uuid ≠ n.uuid → ((init n).update m).predecessor = some m := fun n m hnm =>
    predecessor_update_pos (fun heq => hnm (congrArg Node.uuid heq)) (fun _ hq => by cases hq)
  refine ⟨pair_ring h ha hb, ?_⟩
  intro u r hr
  rcases pair_cases hr with ⟨rfl, rfl⟩ | ⟨rfl, rfl⟩
  · rw [hne a b h, IsPredecessor, pair_members]
    exact ⟨(pair_member h).2, (next_iff_prev (by simp) (by simp)).mp (Set.pair_comm _ _ ▸ next_pair h.symm)⟩
  · rw [hne b a h.symm, IsPredecessor, pair_members]
    exact ⟨(pair_member h).1, (next_iff_prev (by simp) (by simp)).mp (Set.pair_comm _ _ ▸ next_pair h)⟩

theorem pair_leaving {a b : Node} (h : b.uuid ≠ a.uuid) (ha : ((init a).update b).successor = some b)
    (hb : ((init b).update a).successor = some a) : Leaving (pair a b) ((init b).update a) a a where
  ring := pair_exact h ha hb
  up := by rw [update_context]; exact pair_right h
  successor := hb
  predecessor := predecessor_update_pos (fun heq => h (congrArg Node.uuid heq.symm)) (fun _ hq => by cases hq)

theorem leave_pair : ∃ net', client_leave ((init ⟨100, []⟩).update ⟨0, []⟩) [] (pair ⟨0, []⟩ ⟨100, []⟩) =
      .ok ((), net') ∧ (GapClosed (Function.update net' 100 none) ⟨0, []⟩ ⟨0, []⟩ ↔
        Bridged (pair ⟨0, []⟩ ⟨100, []⟩) [] 100 ⟨0, []⟩ ⟨0, []⟩) :=
  leave_closes_gap_iff (pair ⟨0, []⟩ ⟨100, []⟩) ((init ⟨100, []⟩).update ⟨0, []⟩) ⟨0, []⟩ ⟨0, []⟩
    (pair_leaving (by decide) (by decide) (by decide)) []

/-- The remaining node is told of itself at the host of the node that left. -/
theorem leave_leaves_own_record : ¬ ∀ (net : Network) (r : Router) (p s : Node), Leaving net r p s →
    ∀ peer : Endpoint, ∃ net', client_leave r peer net = .ok ((), net') ∧
      GapClosed (Function.update net' r.context.uuid none) p s := by
  intro hall
  have h := pair_leaving (a := ⟨0, ['a', ':', '1']⟩) (b := ⟨100, ['b', ':', '2']⟩)
    (by decide) (by decide) (by decide)
  obtain ⟨net₁, hcall₁, hiff⟩ := leave_other_iff h rfl ['b', ':', '9']
  obtain ⟨net', hcall, hgap⟩ := hall _ _ _ _ h ['b', ':', '9']
  rw [hcall] at hcall₁
  obtain ⟨-, rfl⟩ := Prod.mk.inj (Except.ok.inj hcall₁)
  exact absurd (hiff.mp hgap) (by decide)

end Network

end Chord
