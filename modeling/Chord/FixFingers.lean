import Chord.OwnRecord
import Chord.Progress

/-! # What `fix_fingers` repairs, and what it drops -/

open Circle

namespace Chord

open Router

namespace Service

/-- What the loop over dead successors reports on `on_predecessor_fail`. -/
def live_loop_failed (ping : Node → Bool) : Nat → Router → List Node
  | 0, _ => []
  | fuel + 1, r =>
    if ping r.successor_or_self then []
    else (r.predecessor_failed r.successor_or_self.uuid).toList ++
      live_loop_failed ping fuel (r.remove r.successor_or_self.uuid)

structure FixResult where
  /-- The answer of the lookup, which throws without one. -/
  answer : Option Node
  router : Router
  /-- What `on_predecessor_fail` reported. -/
  failed : List Node

/-- `fix_fingers`. The lookup is a request of this node to itself, and `forward` is what
`client->successor` makes of it. -/
def fix_fingers (ping : Node → Bool) (forward : Router → SuccessorRequest → Option Node) (fuel : Nat)
    (r : Router) (index : Nat) : Option FixResult :=
  let fix := calc_successor_uuid_for_index r.context.uuid index
  let req : SuccessorRequest := ⟨some (make_header r.context), fix⟩
  let failed := live_loop_failed ping fuel r
  (successor ping fuel r req).map fun (looked, action) =>
    let answer := match action with
      | .reply _ => none
      | .answer succ => some succ
      | .forward => forward looked req
    match answer with
    | none => ⟨none, looked, failed⟩
    | some succ =>
      let signalled := if succ = r.context then (looked.predecessor_failed fix).toList else []
      ⟨some succ, fix_finger looked index succ, failed ++ signalled⟩

/-- The router after the lookup is that after its loop. -/
theorem fix_fingers_cases {ping : Node → Bool} {forward : Router → SuccessorRequest → Option Node}
    {fuel : Nat} {r : Router} {index : Nat} {res : FixResult} {succ : Node}
    (h : fix_fingers ping forward fuel r index = some res) (hs : res.answer = some succ) :
    ∃ looked, live_loop ping fuel r = some looked ∧ res.router = fix_finger looked index succ ∧
      res.failed = live_loop_failed ping fuel r ++ if succ = r.context then
        (looked.predecessor_failed (calc_successor_uuid_for_index r.context.uuid index)).toList else [] := by
  obtain ⟨⟨looked, action⟩, hlookup, rfl⟩ := Option.map_eq_some_iff.mp h
  simp only [successor, source_of_make_header, Router.update, if_pos] at hlookup
  obtain ⟨r', hloop, hact⟩ := Option.map_eq_some_iff.mp hlookup
  have hr' : r' = looked := by
    split at hact <;> exact congrArg Prod.fst hact
  subst hr'
  dsimp only at hs ⊢
  split at hs
  · cases hs
  · cases hs
    exact ⟨r', hloop, rfl, rfl⟩

end Service

/-! ## The predecessor during the loop -/

/-- A successor that has the uuid of the predecessor is the only node of the table. -/
theorem only_of_predecessor {r : Router} (h : r.table.WF) (hd : Distinct r) {p s : Node}
    (hp : r.predecessor = some p) (hs : r.successor = some s) (heq : p.uuid = s.uuid) :
    ∀ n ∈ r.nodes, n = s := by
  intro n hn
  have hge := successor_nearest h hs n hn
  obtain ⟨q, hq, hle⟩ := node_le_predecessor h hn
  obtain rfl : p = q := Option.some.inj (hp.symm.trans hq)
  rw [heq] at hle
  exact hd n hn s (successor_mem hs) (steps_inj.mp (le_antisymm hle hge))

theorem remove_only {r : Router} (h : r.table.WF) {p : Node} (hp : r.predecessor = some p)
    (honly : ∀ n ∈ r.nodes, n.uuid = p.uuid) :
    (r.remove p.uuid).predecessor = none ∧ (r.remove p.uuid).nodes = [] := by
  have hempty : others p.uuid r.successors = [] := by
    rw [others, List.filter_eq_nil_iff]
    intro n hn
    simpa using honly n hn
  constructor
  · simp [(remove_spec h p.uuid).2, hp, lastOther, hempty]
  · apply List.eq_nil_iff_forall_not_mem.mpr
    intro n hn
    obtain ⟨hn, hne⟩ := (mem_nodes_remove h).mp hn
    exact hne (honly n hn)

theorem predecessor_remove_ne {r : Router} (h : r.table.WF) {u : Uuid}
    (hp : ∀ p ∈ r.predecessor, p.uuid ≠ u) :
    (r.remove u).predecessor = r.predecessor := by
  rw [(remove_spec h u).2]
  cases hpred : r.predecessor with
  | none => rfl
  | some p =>
    have hne := hp p hpred
    simp [lastOther, hne]

theorem live_loop_failed_none {ping : Node → Bool} {fuel : Nat} {r : Router} (h : r.table.WF)
    (hp : r.predecessor = none) : Service.live_loop_failed ping fuel r = [] := by
  induction fuel generalizing r with
  | zero => rfl
  | succ fuel ih =>
    rw [Service.live_loop_failed]
    split
    · rfl
    · have hrest : (r.remove r.successor_or_self.uuid).predecessor = none := by
        rw [predecessor_remove_ne h (by simp [hp]), hp]
      rw [ih (remove_wf h _) hrest, predecessor_failed, hp]
      rfl

/-- Without a node in the table the loop only ends if this node answers. -/
theorem successor_of_live_loop {ping : Node → Bool} {fuel : Nat} {r r' : Router} (h : r.table.WF)
    (hd : Distinct r) (hl : Service.live_loop ping fuel r = some r') (hping : ¬ ping r.successor_or_self) :
    r.successor = some r.successor_or_self := by
  have hend := live_loop_spec h hd hl
  rcases successor_or_self_cases r with ⟨hs, hself⟩ | hs
  · exfalso
    have hempty := successor_none h hs
    have hnodes : r'.nodes = [] := List.eq_nil_iff_forall_not_mem.mpr fun n hn => by
      simpa [hempty] using ((hend.2.2.2 n).mp hn).1
    rcases successor_or_self_cases r' with ⟨-, hself'⟩ | hs'
    · rw [hself, ← hend.2.1, ← hself'] at hping
      exact hping hend.2.2.1
    · simpa [hnodes] using successor_mem hs'
  · exact hs

/-- A dead successor with the uuid of the predecessor takes it along, and nothing is left. -/
theorem live_loop_last {ping : Node → Bool} {fuel : Nat} {r r' : Router} (h : r.table.WF) (hd : Distinct r)
    {p s : Node} (hp : r.predecessor = some p) (hs : r.successor = some s) (heq : p.uuid = s.uuid)
    (hl : Service.live_loop ping fuel (r.remove s.uuid) = some r') :
    Service.live_loop_failed ping fuel (r.remove s.uuid) = [] ∧ (r.remove s.uuid).predecessor = none ∧
      r'.nodes = [] := by
  have honly := only_of_predecessor h hd hp hs heq
  obtain ⟨hpnone, hnone⟩ := remove_only h hp fun n hn => (congrArg Node.uuid (honly n hn)).trans heq.symm
  rw [heq] at hpnone hnone
  have hw := remove_wf h s.uuid
  have hrun := (live_loop_spec hw (distinct_remove h hd _) hl).2.2.2
  refine ⟨live_loop_failed_none hw hpnone, hpnone, ?_⟩
  exact List.eq_nil_iff_forall_not_mem.mpr fun n hn => by simpa [hnone] using ((hrun n).mp hn).1

/-- The loop drops and reports the predecessor only with the last node of the table. -/
theorem live_loop_predecessor {ping : Node → Bool} {fuel : Nat} {r r' : Router} (h : r.table.WF)
    (hd : Distinct r) (hl : Service.live_loop ping fuel r = some r') :
    (r'.predecessor = r.predecessor ∧ Service.live_loop_failed ping fuel r = [] ∧
      ∀ p ∈ r.predecessor, ∀ n ∈ r.nodes, n.uuid = p.uuid → n ∈ r'.nodes) ∨
    ∃ p, r.predecessor = some p ∧ Service.live_loop_failed ping fuel r = [p] ∧ r'.predecessor = none ∧
      r'.nodes = [] ∧ ∃ n ∈ r.nodes, n.uuid = p.uuid := by
  induction fuel generalizing r with
  | zero => simp [Service.live_loop] at hl
  | succ fuel ih =>
    have hnot_alone := successor_of_live_loop h hd hl
    rw [Service.live_loop] at hl
    rw [Service.live_loop_failed]
    split at hl
    · rename_i hping
      cases hl
      left
      rw [if_pos hping]
      exact ⟨rfl, rfl, fun _ _ n hn _ => hn⟩
    · rename_i hping
      rw [if_neg hping]
      have hrest := ih (remove_wf h r.successor_or_self.uuid) (distinct_remove h hd _) hl
      have hs := hnot_alone hping
      obtain ⟨p, hp, -⟩ := node_le_predecessor h (successor_mem hs)
      by_cases hu : p.uuid = r.successor_or_self.uuid
      · obtain ⟨hfailed, hpnone, hempty⟩ := live_loop_last h hd hp hs hu hl
        right
        refine ⟨p, hp, ?_, ?_, hempty, _, successor_mem hs, hu.symm⟩
        · rw [hfailed, predecessor_failed, hp]
          simp [hu]
        · rcases hrest with ⟨hpred, -⟩ | ⟨_, hpred, -⟩
          · rw [hpred, hpnone]
          · rw [hpnone] at hpred
            cases hpred
      · have hkeep : (r.remove r.successor_or_self.uuid).predecessor = some p := by
          rw [predecessor_remove_ne h, hp]
          rintro q hq
          rw [hp] at hq
          cases hq
          exact hu
        have hreport : r.predecessor_failed r.successor_or_self.uuid = none := by
          simp [predecessor_failed, hp, hu]
        rw [hreport, hp]
        rw [hkeep] at hrest
        rcases hrest with ⟨hpred, hfailed, hstay⟩ | ⟨q, hq, hfailed, hpred, hempty, n, hn, hnq⟩
        · left
          refine ⟨hpred, hfailed, ?_⟩
          rintro _ ⟨⟩ n hn hnp
          exact hstay p rfl n ((mem_nodes_remove h).mpr ⟨hn, by rw [hnp]; exact hu⟩) hnp
        · right
          exact ⟨q, hq, hfailed, hpred, hempty, n, ((mem_nodes_remove h).mp hn).1, hnq⟩

/-! ## The finger -/

/-- A node that the loop leaves in the table: some node up to it answers. -/
def Stays (ping : Node → Bool) (r : Router) (n : Node) : Prop :=
  n ∈ r.nodes ∧ ∃ l ∈ r.nodes, ping l ∧ steps r.context.uuid l.uuid ≤ steps r.context.uuid n.uuid

/-- No other node that stays beyond the start of the entry is as near as `s`. -/
def ClosestBeyond (ping : Node → Bool) (r : Router) (start : Uuid) (s : Node) : Prop :=
  between start s.uuid r.context.uuid ∧ ∀ n, Stays ping r n → between start n.uuid r.context.uuid →
    n = s ∨ steps r.context.uuid s.uuid < steps r.context.uuid n.uuid

theorem entry_update_iff {r : Router} (h : r.table.WF) (hd : Distinct r) {s : Node} (hs : s ≠ r.context)
    (i : Fin BITS) : ((r.update s).entry i).node = some s ↔
      between (r.entry i).uuid s.uuid r.context.uuid ∧
        ∀ n ∈ r.nodes, between (r.entry i).uuid n.uuid r.context.uuid →
          n = s ∨ steps r.context.uuid s.uuid < steps r.context.uuid n.uuid := by
  have hne := start_ne_self r i
  have hreplace := replaces_iff h s (r.entry_mem i)
  simp only [slot, Nearest.Closer] at hreplace
  rw [entry_update hs, update_entry]
  constructor
  · split
    · rename_i hr
      rintro -
      obtain ⟨hlt, hnear⟩ := hreplace.mp hr
      refine ⟨(between_to hne).mpr hlt, fun n hn hb => ?_⟩
      right
      rw [between_to hne] at hb
      cases he : (r.entry i).node with
      | none =>
        have := entry_empty h (r.entry_mem i) he n hn
        omega
      | some m =>
        have hm := (entry_node h (r.entry_mem i) he).2 n hn hb
        have hs : steps r.context.uuid s.uuid < steps r.context.uuid m.uuid := hnear _ (by rw [he]; rfl)
        omega
    · intro he
      obtain ⟨hlt, hmin⟩ := entry_node h (r.entry_mem i) he
      refine ⟨(between_to hne).mpr hlt, fun n hn hb => ?_⟩
      rcases Nat.eq_or_lt_of_le (hmin n hn ((between_to hne).mp hb)) with heq | hlt
      · left
        exact hd n hn s (entry_mem_nodes he) (steps_inj.mp heq.symm)
      · right
        exact hlt
  · rintro ⟨hb, hall⟩
    split
    · rfl
    · rename_i hr
      cases he : (r.entry i).node with
      | none => exact absurd (hreplace.mpr ⟨(between_to hne).mp hb, by simp [he]⟩) hr
      | some m =>
        have hm := (entry_node h (r.entry_mem i) he).1
        rcases hall m (entry_mem_nodes he) ((between_to hne).mpr hm) with rfl | hlt
        · rfl
        · exact absurd (hreplace.mpr ⟨(between_to hne).mp hb, by simpa [he] using hlt⟩) hr

/-- Removing the start of an entry never touches the node of that entry. -/
theorem entry_remove_start {r : Router} (h : r.table.WF) (i : Fin BITS) :
    ((r.remove (r.entry i).uuid).entry i).node = none ↔
      ∀ n ∈ r.nodes, ¬ between (r.entry i).uuid n.uuid r.context.uuid := by
  have hw := remove_wf h (r.entry i).uuid
  have hstart : ((r.remove (r.entry i).uuid).entry i).uuid = (r.entry i).uuid := by
    rw [entry_uuid, entry_uuid, remove_context]
  have hinv := fingerInvariant_of_wf hw
  constructor
  · intro hnone n hn hb
    have hstay : n ∈ (r.remove (r.entry i).uuid).nodes := by
      refine (mem_nodes_remove h).mpr ⟨hn, ?_⟩
      intro heq
      rw [heq] at hb
      exact not_between_left _ _ hb
    have hempty := hinv.empty i hnone n hstay
    rw [hstart] at hempty
    exact hempty hb
  · intro hall
    cases he : ((r.remove (r.entry i).uuid).entry i).node with
    | none => rfl
    | some n =>
      have hb := (hinv.nearest i n he).1
      rw [hstart] at hb
      exact absurd hb (hall n ((mem_nodes_remove h).mp (entry_mem_nodes he)).1)

/-! ## The whole call -/

/-- `p` is still the predecessor, or gave way to a nearer node. -/
def Kept (r : Router) (p : Node) : Prop :=
  ∃ q, r.predecessor = some q ∧ (q = p ∨ between p.uuid q.uuid r.context.uuid)

/-- The entry holds the answer of the lookup, and no node that answers lost its place as
predecessor or was reported. -/
def FingerFixed (ping : Node → Bool) (r : Router) (i : Fin BITS) (s : Node) (res : Service.FixResult) :
    Prop :=
  (res.router.entry i).node = (if s = r.context then none else some s) ∧
    ∀ p, ping p → p ∉ res.failed ∧ (r.predecessor = some p → Kept res.router p)

/-- The condition on the router before the call. -/
def Fixable (ping : Node → Bool) (r : Router) (i : Fin BITS) (s : Node) : Prop :=
  (if s = r.context then ∀ n, Stays ping r n → ¬ between (r.entry i).uuid n.uuid r.context.uuid
    else ClosestBeyond ping r (r.entry i).uuid s) ∧
  ∀ p ∈ r.predecessor, ping p → (s = r.context → p.uuid ≠ (r.entry i).uuid) ∧
    ((∃ n ∈ r.nodes, n.uuid = p.uuid) → ∃ n ∈ r.nodes, ping n)

theorem entry_fixed_iff {ping : Node → Bool} {fuel : Nat} {r looked : Router} (h : r.table.WF)
    (hd : Distinct r) (hl : Service.live_loop ping fuel r = some looked) (i : Fin BITS) (s : Node) :
    ((Service.fix_finger looked i s).entry i).node = (if s = r.context then none else some s) ↔
      if s = r.context then ∀ n, Stays ping r n → ¬ between (r.entry i).uuid n.uuid r.context.uuid
        else ClosestBeyond ping r (r.entry i).uuid s := by
  obtain ⟨hw, hc, -, hn⟩ := live_loop_spec h hd hl
  have hdl : Distinct looked := by
    intro n hn' m hm'
    exact hd n ((hn n).mp hn').1 m ((hn m).mp hm').1
  have hstart : (looked.entry i).uuid = (r.entry i).uuid := by rw [entry_uuid, entry_uuid, hc]
  have hcalc : calc_successor_uuid_for_index looked.context.uuid i = (looked.entry i).uuid :=
    (entry_uuid looked i).symm
  rw [Service.fix_finger, hcalc]
  by_cases hs : s = r.context
  · have hs' : s = looked.context := hs.trans hc.symm
    rw [if_pos hs', if_pos hs, if_pos hs, entry_remove_start hw, hstart, hc]
    simp only [hn, Stays]
  · have hs' : s ≠ looked.context := fun heq => hs (heq.trans hc)
    rw [if_neg hs', if_neg hs, if_neg hs, entry_update_iff hw hdl hs', hstart, hc, ClosestBeyond]
    simp only [hn, Stays]

theorem kept_fix_finger {looked : Router} (h : looked.table.WF) {p : Node} (hp : looked.predecessor = some p)
    (i : Fin BITS) (s : Node) :
    Kept (Service.fix_finger looked i s) p ↔ (s = looked.context → p.uuid ≠ (looked.entry i).uuid) := by
  rw [Service.fix_finger, ← entry_uuid looked i]
  by_cases hs : s = looked.context
  · rw [if_pos hs]
    simp only [hs, true_imp_iff]
    constructor
    · rintro ⟨q, hq, hqp⟩ hstart
      rw [hstart] at hqp
      have hqne : q.uuid ≠ (looked.entry i).uuid := by
        rw [(remove_spec h _).2] at hq
        simpa using (Option.filter_eq_some_iff.mp hq).2
      rcases hqp with rfl | hb
      · exact hqne hstart
      · rw [remove_context, between_to (start_ne_self looked i)] at hb
        rcases predecessor_remove h hq with hq | hq
        · rw [hp] at hq
          cases hq
          exact hqne hstart
        · -- no node of the table is beyond the predecessor
          obtain ⟨p', hp', hle⟩ := node_le_predecessor h hq
          rw [hp] at hp'
          cases hp'
          rw [hstart] at hle
          omega
    · intro hne
      refine ⟨p, ?_, Or.inl rfl⟩
      rw [predecessor_remove_ne h, hp]
      rintro _ hq
      rw [hp] at hq
      cases hq
      exact hne
  · rw [if_neg hs]
    refine iff_of_true ?_ fun heq => absurd heq hs
    refine ⟨_, predecessor_update hs, ?_⟩
    rw [hp, update_context, update_predecessor]
    split
    · rename_i hb
      right
      exact hb.2
    · left
      rfl

theorem failed_iff {looked : Router} {p : Node} (i : Fin BITS) (s : Node) :
    (p ∈ if s = looked.context then (looked.predecessor_failed (looked.entry i).uuid).toList else []) ↔
      looked.predecessor = some p ∧ s = looked.context ∧ p.uuid = (looked.entry i).uuid := by
  split
  · rename_i hs
    simp [predecessor_failed, Option.filter_eq_some_iff, hs]
  · rename_i hs
    simp [hs]

/-- No live node is dropped or reported, exactly where the predecessor is not at the start that is
removed and does not go with a table of dead nodes. -/
theorem predecessor_fixed_iff {ping : Node → Bool} {fuel : Nat} {r looked : Router} (h : r.table.WF)
    (hd : Distinct r) (hl : Service.live_loop ping fuel r = some looked) (i : Fin BITS) (s : Node)
    {failed : List Node} (hf : failed = Service.live_loop_failed ping fuel r ++ if s = r.context then
      (looked.predecessor_failed (r.entry i).uuid).toList else []) :
    (∀ p, ping p → p ∉ failed ∧ (r.predecessor = some p → Kept (Service.fix_finger looked i s) p)) ↔
      ∀ p ∈ r.predecessor, ping p → (s = r.context → p.uuid ≠ (r.entry i).uuid) ∧
        ((∃ n ∈ r.nodes, n.uuid = p.uuid) → ∃ n ∈ r.nodes, ping n) := by
  obtain ⟨hw, hc, hping, hn⟩ := live_loop_spec h hd hl
  have hstart : (looked.entry i).uuid = (r.entry i).uuid := by rw [entry_uuid, entry_uuid, hc]
  rw [← hc, ← hstart] at hf ⊢
  rcases live_loop_predecessor h hd hl with ⟨hpred, hnone, hstay⟩ | ⟨p, hp, hone, hpnone, hempty, m, hm, hmp⟩
  · rw [hnone, List.nil_append] at hf
    rw [hf]
    constructor
    · intro hall p hp hlive
      refine ⟨(kept_fix_finger hw (hpred.trans hp) i s).mp ((hall p hlive).2 hp), ?_⟩
      rintro ⟨n, hnr, hnp⟩
      obtain ⟨-, l, hl', hpl, -⟩ := (hn n).mp (hstay p hp n hnr hnp)
      exact ⟨l, hl', hpl⟩
    · intro hall p hlive
      constructor
      · rw [failed_iff, hpred]
        rintro ⟨hp, hs, heq⟩
        exact (hall p hp hlive).1 hs heq
      · intro hp
        exact (kept_fix_finger hw (hpred.trans hp) i s).mpr (hall p hp hlive).1
  · -- the predecessor went with the last node of the table
    have hdead : ¬ ∃ n ∈ r.nodes, ping n := by
      rintro ⟨n, hnr, hpn⟩
      have := (hn n).mpr ⟨hnr, n, hnr, hpn, Nat.le_refl _⟩
      simp [hempty] at this
    have hrest : ∀ q, looked.predecessor ≠ some q := by simp [hpnone]
    constructor
    · intro hall q hq hlive
      rw [hp] at hq
      cases hq
      exact absurd (by simp [hf, hone]) (hall p hlive).1
    · intro hall q hlive
      by_cases hq : q = p
      · subst hq
        exact absurd ((hall q hp hlive).2 ⟨m, hm, hmp⟩) hdead
      · refine ⟨?_, fun hq' => absurd (Option.some.inj (hq'.symm.trans hp)) hq⟩
        rw [hf, hone, List.mem_append, failed_iff]
        simp [hq, hpnone]

/-- `fix_fingers` sets the entry and spares live nodes exactly where `Fixable` says so. -/
theorem fix_fingers_iff (context : Node) (ops : List RouterOp) (ping : Node → Bool)
    (forward : Router → SuccessorRequest → Option Node) (fuel : Nat) (i : Fin BITS)
    (res : Service.FixResult) (s : Node)
    (hres : Service.fix_fingers ping forward fuel (Router.run context ops) i = some res)
    (hs : res.answer = some s) :
    FingerFixed ping (Router.run context ops) i s res ↔ Fixable ping (Router.run context ops) i s := by
  obtain ⟨looked, hl, hrouter, hfailed⟩ := Service.fix_fingers_cases hres hs
  have h := run_wf context ops
  have hd := run_distinct context ops
  rw [← entry_uuid] at hfailed
  rw [FingerFixed, Fixable, hrouter, entry_fixed_iff h hd hl, predecessor_fixed_iff h hd hl i s hfailed]

/-- The finger of node 20 that starts at 24 is set to node 50. -/
theorem fix_fingers_iff_set : ∃ res, Service.fix_fingers (fun _ => true) (fun _ _ => none) 1
    (Router.run ⟨20, []⟩ [.update ⟨50, []⟩]) 2 = some res ∧
    FingerFixed (fun _ => true) (Router.run ⟨20, []⟩ [.update ⟨50, []⟩]) ⟨2, by decide⟩ ⟨50, []⟩ res := by
  have hnodes : ∀ n ∈ (Router.run ⟨20, []⟩ [.update ⟨50, []⟩]).nodes, n = ⟨50, []⟩ := by
    intro n hn
    simpa using learned_nodes ⟨20, []⟩ [⟨50, []⟩] n hn
  refine ⟨_, rfl, (fix_fingers_iff ⟨20, []⟩ [.update ⟨50, []⟩] (fun _ => true) (fun _ _ => none) 1
    ⟨2, by decide⟩ _ ⟨50, []⟩ rfl rfl).mpr ?_⟩
  constructor
  · rw [if_neg (by decide)]
    exact ⟨by decide, fun n hn _ => Or.inl (hnodes n hn.1)⟩
  · rintro p - -
    refine ⟨fun hs => absurd hs (by decide), fun ⟨n, hn, _⟩ => ⟨n, hn, rfl⟩⟩

/-- Node 1 is the live predecessor of node 0, and the start of its first finger: it is removed. -/
theorem fix_fingers_drops_predecessor : ¬ ∀ (context : Node) (ops : List RouterOp) (ping : Node → Bool)
    (forward : Router → SuccessorRequest → Option Node) (fuel : Nat) (i : Fin BITS)
    (res : Service.FixResult) (s : Node),
    Service.fix_fingers ping forward fuel (Router.run context ops) i = some res → res.answer = some s →
    FingerFixed ping (Router.run context ops) i s res := by
  intro h
  have hfixed := h ⟨0, []⟩ [.update ⟨1, []⟩] (fun _ => true) (fun _ _ => none) 1 ⟨0, by decide⟩ _
      ⟨0, []⟩ rfl rfl
  exact (hfixed.2 ⟨1, []⟩ rfl).1 (by decide)

end Chord
