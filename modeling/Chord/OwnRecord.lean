import Chord.Client
import Chord.Fingers

/-!
# The own uuid among the neighbours

`update` ignores the own record only where its endpoint is the advertised one. A record that
`make_node` gave another host passes, and a router without predecessor takes it.
-/

open Circle

namespace Chord

open Router

/-! ## One router -/

/-- Neither the table nor the predecessor holds the own uuid. -/
structure OwnFree (r : Router) : Prop where
  table : ∀ n ∈ r.nodes, n.uuid ≠ r.context.uuid
  predecessor : ∀ p ∈ r.predecessor, p.uuid ≠ r.context.uuid

/-- The table is free of the own uuid in any case. -/
theorem ownFree_iff {r : Router} (h : r.table.WF) :
    OwnFree r ↔ ∀ p ∈ r.predecessor, p.uuid ≠ r.context.uuid :=
  ⟨OwnFree.predecessor, fun hp => ⟨fun _ hn => node_ne_self h hn, hp⟩⟩

theorem update_predecessor_of_ne {r : Router} {n : Node} (hn : n ≠ r.context) :
    (r.update n).predecessor = some (update_predecessor r.context.uuid n r.predecessor) := by
  rw [Router.update, if_neg hn]

theorem ownFree_update {r : Router} (h : r.table.WF) (hr : OwnFree r) {n : Node}
    (hn : n = r.context ∨ r.predecessor ≠ none ∨ n.uuid ≠ r.context.uuid) : OwnFree (r.update n) := by
  rw [ownFree_iff (update_wf h n)]
  by_cases hc : n = r.context
  · rw [Router.update, if_pos hc]
    exact hr.predecessor
  · rw [update_predecessor_of_ne hc, update_context]
    rintro q ⟨⟩
    cases hp : r.predecessor with
    | none => exact (hn.resolve_left hc).resolve_left (by simp [hp])
    | some p =>
      have hpself := hr.predecessor p hp
      rw [update_predecessor]
      split
      · -- a node beyond the predecessor is not self
        rename_i hb
        have hlt := (between_to hpself).mp hb.2
        exact (steps_pos.mp (by omega)).symm
      · exact hpself

theorem predecessor_remove {r : Router} (h : r.table.WF) {u : Uuid} {p : Node}
    (hp : (r.remove u).predecessor = some p) : r.predecessor = some p ∨ p ∈ r.nodes := by
  rw [(remove_spec h u).2] at hp
  obtain ⟨hmap, -⟩ := Option.filter_eq_some_iff.mp hp
  obtain ⟨q, hq, rfl⟩ := Option.map_eq_some_iff.mp hmap
  rw [hq, lastOther]
  split
  · rcases List.eq_nil_or_concat (others u r.successors) with hnil | ⟨l, m, hl⟩
    · left; simp [hnil]
    · right
      have hm : m ∈ others u r.successors := by simp [hl]
      rw [hl, List.concat_eq_append, List.getLastD_concat]
      exact List.mem_of_mem_filter hm
  · left; rfl

theorem ownFree_remove {r : Router} (h : r.table.WF) (hr : OwnFree r) (u : Uuid) : OwnFree (r.remove u) := by
  rw [ownFree_iff (remove_wf h u)]
  intro p hp
  rcases predecessor_remove h hp with hp | hp
  · exact hr.predecessor p hp
  · exact hr.table p hp

/-! ## Records in a row -/

/-- Records that a router may learn in this order: without a predecessor, the first that is not
exactly the own record has another uuid. -/
def RecordsSafe (r : Router) (noPredecessor : Prop) (ns : List Node) : Prop :=
  noPredecessor → ∀ n ∈ ns.find? (· ≠ r.context), n.uuid ≠ r.context.uuid

theorem ownFree_updates {r : Router} (h : r.table.WF) (hr : OwnFree r) {ns : List Node}
    (hs : RecordsSafe r (r.predecessor = none) ns) : OwnFree (ns.foldl Router.update r) := by
  induction ns generalizing r with
  | nil => exact hr
  | cons n ns ih =>
    rw [List.foldl_cons]
    by_cases hn : n = r.context
    · rw [Router.update, if_pos hn]
      apply ih h hr
      intro hp m hm
      exact hs hp m (by rwa [List.find?_cons_of_neg (by simpa using hn)])
    · apply ih (update_wf h n)
      · apply ownFree_update h hr
        by_cases hp : r.predecessor = none
        · right; right
          exact hs hp n (List.find?_cons_of_pos (by simpa using hn))
        · right; left; exact hp
      · intro hp
        rw [update_predecessor_of_ne hn] at hp
        simp at hp

theorem updates_wf {r : Router} (h : r.table.WF) (ns : List Node) : (ns.foldl Router.update r).table.WF := by
  induction ns generalizing r with
  | nil => exact h
  | cons n ns ih => exact ih (update_wf h n)

@[simp]
theorem updates_context (r : Router) (ns : List Node) : (ns.foldl Router.update r).context = r.context := by
  induction ns generalizing r with
  | nil => rfl
  | cons n ns ih => rw [List.foldl_cons, ih, update_context]

/-! ## Steps of a node -/

/-- A message that the node handles, or the answer to one of its own calls. -/
inductive NodeEvent where
  | notify (peer : Endpoint) (req : NotifyRequest)
  | leave (peer : Endpoint) (req : LeaveRequest)
  | successor (ping : Node → Bool) (fuel : Nat) (req : SuccessorRequest)
  | join (req : JoinRequest)
  | stabilize (asked : Node) (reply : Option (Option Node))
  | fix_finger (index : Nat) (succ : Node)
  | check (ping : Node → Bool)
  | rejoin (res : Option (Node × Node))
  | reset

/-- The router afterwards. A handler that faults or never returns leaves none. -/
def NodeEvent.step (r : Router) : NodeEvent → Option Router
  | .notify peer req => (Service.notify r peer req).toOption.map (·.router)
  | .leave peer req => some (Service.leave r peer req).2
  | .successor ping fuel req => (Service.successor ping fuel r req).map (·.1)
  | .join req => (Service.join r req).toOption.map fun _ => r
  | .stabilize asked reply => some (Client.stabilize_reply r asked reply)
  | .fix_finger index succ => some (Service.fix_finger r index succ)
  | .check ping => some (Client.check ping r)
  | .rejoin res => some (Client.joined r res)
  | .reset => some r.reset

/-- `remove uuid` leaves no predecessor. -/
def LosesPredecessor (r : Router) (uuid : Uuid) : Prop :=
  ∀ p ∈ r.predecessor, p.uuid = uuid ∧ ∀ n ∈ r.nodes, n.uuid = uuid

/-- The records that an event hands to the router are safe for the router it meets. -/
def NodeEvent.Safe (r : Router) : NodeEvent → Prop
  | .notify peer req => ∀ source ∈ source_of req.header, source ≠ r.context →
      RecordsSafe r (r.predecessor = none) (Service.notify_records peer source req)
  | .leave peer req => ∀ leaving_node ∈ source_of req.header,
      RecordsSafe r (LosesPredecessor r leaving_node.uuid) (req.entries.map (make_node peer))
  | .successor _ _ req => ∀ source ∈ source_of req.header, RecordsSafe r (r.predecessor = none) [source]
  | .fix_finger _ succ => RecordsSafe r (r.predecessor = none) [succ]
  | .rejoin res => ∀ s ∈ res, RecordsSafe r (r.predecessor = none) [s.1, s.2]
  | .join _ | .stabilize _ _ | .check _ | .reset => True

theorem losesPredecessor_of_remove {r : Router} (h : r.table.WF) {u : Uuid}
    (hp : (r.remove u).predecessor = none) : LosesPredecessor r u := by
  intro p hpred
  rw [(remove_spec h u).2, hpred, Option.map_some] at hp
  have hf : (lastOther u r.successors p).uuid = u := by simpa [Option.filter_some] using hp
  rw [lastOther] at hf
  split at hf
  · rename_i hpu
    refine ⟨hpu, ?_⟩
    rcases List.eq_nil_or_concat (others u r.successors) with hnil | ⟨l, m, hl⟩
    · intro n hn
      by_contra hne
      have : n ∈ others u r.successors := List.mem_filter.mpr ⟨hn, by simpa using hne⟩
      simp [hnil] at this
    · rw [hl, List.concat_eq_append, List.getLastD_concat] at hf
      exact absurd hf (others_ne (l := r.successors) (by simp [hl]))
  · rename_i hpu; exact absurd hf hpu

/-! ## What a step can do -/

theorem removes_wf {r : Router} (h : r.table.WF) (us : List Uuid) : (us.foldl Router.remove r).table.WF := by
  induction us generalizing r with
  | nil => exact h
  | cons u us ih => exact ih (remove_wf h u)

theorem ownFree_removes {r : Router} (h : r.table.WF) (hr : OwnFree r) (us : List Uuid) :
    OwnFree (us.foldl Router.remove r) := by
  induction us generalizing r with
  | nil => exact hr
  | cons u us ih => exact ih (remove_wf h u) (ownFree_remove h hr u)

theorem live_loop_removes {ping : Node → Bool} {fuel : Nat} {r r' : Router}
    (h : Service.live_loop ping fuel r = some r') : ∃ us : List Uuid, r' = us.foldl Router.remove r := by
  induction fuel generalizing r with
  | zero => simp [Service.live_loop] at h
  | succ fuel ih =>
    rw [Service.live_loop] at h
    split at h
    · cases h; exact ⟨[], rfl⟩
    · obtain ⟨us, hus⟩ := ih h
      exact ⟨r.successor_or_self.uuid :: us, hus⟩

theorem notify_router {r : Router} {peer : Endpoint} {req : NotifyRequest} {r' : Router}
    (h : (Service.notify r peer req).toOption.map Service.NotifyResult.router = some r') :
    r' = r ∨ ∃ source ∈ source_of req.header, source ≠ r.context ∧
      r' = (Service.notify_records peer source req).foldl Router.update r := by
  simp only [Service.notify] at h
  cases hsrc : source_of req.header with
  | none => left; simpa [hsrc, Except.toOption] using h.symm
  | some source =>
    simp only [hsrc] at h
    by_cases hself : source = r.context
    · left; simpa [hself, Except.toOption] using h.symm
    · right
      refine ⟨source, rfl, hself, ?_⟩
      rw [if_neg hself] at h
      cases hc : Service.changed_predecessor r source with
      | ok changed => simpa [hc, Except.toOption] using h.symm
      | error e => simp [hc, Except.toOption] at h

theorem recordsSafe_remove {r : Router} (h : r.table.WF) {u : Uuid} {ns : List Node}
    (hs : RecordsSafe r (LosesPredecessor r u) ns) :
    RecordsSafe (r.remove u) ((r.remove u).predecessor = none) ns :=
  fun hp n hn => hs (losesPredecessor_of_remove h hp) n hn

/-- Nodes are removed, then records learned, then nodes removed. -/
def Edited (r r' : Router) (safe : Prop) : Prop :=
  ∃ (us : List Uuid) (ns : List Node) (us' : List Uuid),
    r' = us'.foldl Router.remove (ns.foldl Router.update (us.foldl Router.remove r)) ∧
      (safe → RecordsSafe (us.foldl Router.remove r) ((us.foldl Router.remove r).predecessor = none) ns)

theorem edited_self (r : Router) (safe : Prop) : Edited r r safe :=
  ⟨[], [], [], rfl, fun _ _ n hn => by simp at hn⟩

theorem edited_remove (r : Router) (u : Uuid) (safe : Prop) : Edited r (r.remove u) safe :=
  ⟨[u], [], [], rfl, fun _ _ n hn => by simp at hn⟩

theorem edited_updates {r : Router} (ns : List Node) {safe : Prop}
    (hs : safe → RecordsSafe r (r.predecessor = none) ns) : Edited r (ns.foldl Router.update r) safe :=
  ⟨[], ns, [], rfl, hs⟩

theorem step_cases {r r' : Router} {e : NodeEvent} (h : r.table.WF) (he : e.step r = some r') :
    r' = r.reset ∨ Edited r r' (e.Safe r) := by
  cases e with
  | notify peer req =>
    right
    rcases notify_router he with rfl | ⟨source, hsrc, hself, rfl⟩
    · exact edited_self _ _
    · exact edited_updates _ fun hs => hs source hsrc hself
  | leave peer req =>
    right
    cases he
    rw [Service.leave]
    cases hsrc : source_of req.header with
    | none => exact edited_self _ _
    | some leaving_node =>
      exact ⟨[leaving_node.uuid], _, [], rfl, fun hs => recordsSafe_remove h (hs leaving_node hsrc)⟩
  | successor ping fuel req =>
    right
    simp only [NodeEvent.step, Service.successor] at he
    cases hsrc : source_of req.header with
    | none =>
      simp only [hsrc, Option.map_some, Option.some.injEq] at he
      rw [← he]
      exact edited_self _ _
    | some source =>
      simp only [hsrc, Option.map_map, Option.map_eq_some_iff, Function.comp_apply] at he
      obtain ⟨r₁, hl, rfl⟩ := he
      obtain ⟨us, rfl⟩ := live_loop_removes hl
      refine ⟨[], [source], us, ?_, fun hs => hs source hsrc⟩
      split <;> rfl
  | join req =>
    right
    simp only [NodeEvent.step, Option.map_eq_some_iff] at he
    obtain ⟨_, -, rfl⟩ := he
    exact edited_self _ _
  | stabilize asked reply =>
    right
    cases he
    rcases reply with _ | _ | pred
    · exact edited_remove _ _ _
    · exact edited_self _ _
    · rw [Client.stabilize_reply]
      split
      · -- the record lies beyond the own uuid
        rename_i hb
        refine edited_updates [pred] fun _ _ n hn hself => ?_
        obtain rfl : n = pred := by simpa using List.mem_of_find?_eq_some hn
        rw [hself] at hb
        exact not_between_left _ _ hb
      · exact edited_self _ _
  | fix_finger index succ =>
    right
    cases he
    rw [Service.fix_finger]
    split
    · exact edited_remove _ _ _
    · exact edited_updates [succ] id
  | check ping =>
    right
    cases he
    rw [Client.check]
    split
    · split
      · exact edited_self _ _
      · exact edited_remove _ _ _
    · exact edited_self _ _
  | rejoin res =>
    right
    cases he
    rcases res with _ | ⟨succ, pred⟩
    · exact edited_self _ _
    · exact edited_updates [succ, pred] fun hs => hs _ rfl
  | reset =>
    left
    cases he
    rfl

theorem step_wf {r r' : Router} {e : NodeEvent} (h : r.table.WF) (he : e.step r = some r') :
    r'.table.WF := by
  rcases step_cases h he with rfl | ⟨us, ns, us', rfl, -⟩
  · exact init_wf _
  · exact removes_wf (updates_wf (removes_wf h us) ns) us'

theorem step_ownFree {r r' : Router} {e : NodeEvent} (h : r.table.WF) (hr : OwnFree r) (hs : e.Safe r)
    (he : e.step r = some r') : OwnFree r' := by
  rcases step_cases h he with rfl | ⟨us, ns, us', rfl, hsafe⟩
  · exact (ownFree_iff (init_wf _)).mpr (by simp [init])
  · have hremoved := removes_wf h us
    have hlearned := ownFree_updates hremoved (ownFree_removes h hr us) (hsafe hs)
    exact ownFree_removes (updates_wf hremoved ns) hlearned us'

/-! ## Runs of a node -/

/-- The states of a fresh node after the events of `es`, each of which met the state before it. -/
inductive NodeRun (ok : Router → NodeEvent → Prop) (context : Node) : List NodeEvent → Router → Prop
  | init : NodeRun ok context [] (.init context)
  | step {es : List NodeEvent} {r r' : Router} (e : NodeEvent) :
      NodeRun ok context es r → ok r e → e.step r = some r' → NodeRun ok context (es ++ [e]) r'

theorem nodeRun_wf {ok : Router → NodeEvent → Prop} {context : Node} {es : List NodeEvent} {r : Router}
    (hrun : NodeRun ok context es r) : r.table.WF := by
  induction hrun with
  | init => exact init_wf _
  | step e _ _ he ih => exact step_wf ih he

theorem init_ownFree (context : Node) : OwnFree (.init context) :=
  (ownFree_iff (init_wf _)).mpr (by simp [init])

/-- In a run of safe events a node never becomes its own neighbour. -/
theorem safe_run_own_free (context : Node) (es : List NodeEvent) (r : Router)
    (hrun : NodeRun (fun r e => e.Safe r) context es r) : OwnFree r := by
  induction hrun with
  | init => exact init_ownFree _
  | step e hrun hs he ih => exact step_ownFree (nodeRun_wf hrun) ih hs he

/-- A node that a joiner notifies. -/
theorem notified_run_own_free : OwnFree ((Router.init ⟨0, ['a', ':', '1']⟩).update ⟨5, ['b', ':', '2']⟩) := by
  apply safe_run_own_free ⟨0, ['a', ':', '1']⟩
    [.notify ['b', ':', '9'] ⟨some ⟨some ⟨5, ['b', ':', '2']⟩⟩, none, none⟩]
  refine @NodeRun.step _ _ [] _ _ _ NodeRun.init ?_ rfl
  rintro source ⟨⟩ - - n hn
  obtain rfl := List.mem_singleton.mp (List.mem_of_find?_eq_some hn)
  decide

/-- The only other node leaves, and its finger for this node comes back under its own host. -/
theorem leave_returns_own_record : ¬ ∀ (context : Node) (es : List NodeEvent) (r : Router),
    NodeRun (fun _ _ => True) context es r → OwnFree r := by
  intro h
  let own : Node := ⟨0, ['a', ':', '1']⟩
  let other : Node := ⟨100, ['b', ':', '2']⟩
  let joined := (Router.init own).update other
  let left := (Service.leave joined ['b', ':', '9'] ⟨some (make_header other), [own]⟩).2
  have hjoined : NodeRun (fun _ _ => True) own _ joined :=
    .step (.notify ['b', ':', '9'] (Client.notify_request other)) .init trivial rfl
  have hleft : NodeRun (fun _ _ => True) own _ left :=
    .step (.leave ['b', ':', '9'] ⟨some (make_header other), [own]⟩) hjoined trivial rfl
  have hpred : left.predecessor = some ⟨0, ['b', ':', '1']⟩ := by decide
  exact (h own _ left hleft).predecessor _ hpred rfl

end Chord
