import Chord.OwnRecord

/-! # Which notifications report a predecessor that the router takes -/

open Circle

namespace Chord

open Router

/-! ## The predecessor after some updates -/

/-- Towards self, between is the order of the distances. -/
theorem between_own (self x y : Uuid) : between x y self ↔ steps self x < steps self y := by
  by_cases hx : x = self
  · rw [hx, between_self, steps_self, steps_pos]
    exact ne_comm
  · exact between_to hx

/-- The own record is skipped, and would not replace a predecessor either. -/
theorem predecessor_update_some {r : Router} {p : Node} (hp : r.predecessor = some p) (n : Node) :
    (r.update n).predecessor = some (if between p.uuid n.uuid r.context.uuid then n else p) := by
  by_cases hn : n = r.context
  · rw [Router.update, if_pos hn, hn, if_neg (not_between_right _ _), hp]
  · rw [predecessor_update hn, hp, update_predecessor]
    congr 1
    by_cases hb : between p.uuid n.uuid r.context.uuid
    · have hne : n ≠ p := by
        rintro rfl
        exact not_between_left _ _ hb
      rw [if_pos ⟨hne, hb⟩, if_pos hb]
    · rw [if_neg fun h => hb h.2, if_neg hb]

/-- Updates keep the predecessor or move it towards self. -/
theorem predecessor_updates {r : Router} {p : Node} (hp : r.predecessor = some p) (ns : List Node) :
    ∃ q, (ns.foldl Router.update r).predecessor = some q ∧
      (q = p ∨ between p.uuid q.uuid r.context.uuid) := by
  induction ns generalizing r p with
  | nil => exact ⟨p, hp, Or.inl rfl⟩
  | cons n ns ih =>
    have hstep := predecessor_update_some hp n
    obtain ⟨q, hq, hqn⟩ := ih hstep
    refine ⟨q, hq, ?_⟩
    rw [update_context] at hqn
    split at hqn
    · rename_i hb
      right
      rcases hqn with rfl | hqn
      · exact hb
      · rw [between_own] at hb hqn ⊢
        omega
    · exact hqn

/-- The predecessor stays, exactly where no record is between it and self. -/
theorem predecessor_updates_iff {r : Router} {p : Node} (hp : r.predecessor = some p) (ns : List Node) :
    (ns.foldl Router.update r).predecessor = some p ↔ ∀ n ∈ ns, ¬ between p.uuid n.uuid r.context.uuid := by
  induction ns generalizing r with
  | nil => simp [hp]
  | cons n ns ih =>
    have hstep := predecessor_update_some hp n
    rw [List.foldl_cons, List.forall_mem_cons]
    by_cases hb : between p.uuid n.uuid r.context.uuid
    · rw [if_pos hb] at hstep
      refine iff_of_false ?_ fun h => h.1 hb
      intro heq
      obtain ⟨q, hq, hqn⟩ := predecessor_updates hstep ns
      rw [heq] at hq
      cases hq
      rw [update_context] at hqn
      rcases hqn with rfl | hqn
      · exact not_between_left _ _ hb
      · rw [between_own] at hb hqn
        omega
    · rw [if_neg hb] at hstep
      rw [ih hstep, update_context]
      simp [hb]

/-- Another record is the predecessor afterwards, exactly where it is nearer and none of the next ones is
nearer still. -/
theorem predecessor_updates_first_iff {r : Router} {p source : Node} (hp : r.predecessor = some p)
    (hne : p ≠ source) (extra : List Node) :
    ((source :: extra).foldl Router.update r).predecessor = some source ↔
      between p.uuid source.uuid r.context.uuid ∧
        ∀ e ∈ extra, ¬ between source.uuid e.uuid r.context.uuid := by
  have hstep := predecessor_update_some hp source
  by_cases hb : between p.uuid source.uuid r.context.uuid
  · rw [if_pos hb] at hstep
    have hiff := predecessor_updates_iff hstep extra
    rw [update_context] at hiff
    rw [and_iff_right hb, ← hiff]
    rfl
  · refine iff_of_false ?_ fun hright => hb hright.1
    intro heq
    obtain ⟨q, hq, hqp⟩ := predecessor_updates hp (source :: extra)
    rw [heq] at hq
    cases hq
    rcases hqp with heq | hb'
    · exact hne heq.symm
    · exact hb hb'

/-! ## The event of `notify` -/

/-- The event fires where the predecessor changed, with the old one or self, and the new one. -/
def TellsTruth (r : Router) (res : Service.NotifyResult) : Prop :=
  res.event = if res.router.predecessor = r.predecessor then none
    else res.router.predecessor.map fun new => (r.predecessor.getD r.context, new)

/-- The records that follow the source. -/
def extra_records (peer : Endpoint) (source : Node) (req : NotifyRequest) : List Node :=
  (Service.notify_records peer source req).tail

/-- `between`, seen from self: the source is not nearer than the successor. -/
def BeyondSuccessor (r : Router) (source : Node) : Prop :=
  ∃ successor ∈ r.successor, between source.uuid r.context.uuid successor.uuid

instance (r : Router) (source : Node) : Decidable (BeyondSuccessor r source) :=
  inferInstanceAs (Decidable (∃ _ ∈ _, _))

/-- The requests whose event is right. -/
def EventRight (r : Router) (source : Node) (extra : List Node) : Prop :=
  match r.predecessor with
  | none => ∀ e ∈ extra, ¬ between source.uuid e.uuid r.context.uuid
  | some predecessor =>
    if predecessor ≠ source ∧ BeyondSuccessor r source then
      between predecessor.uuid source.uuid r.context.uuid ∧
        ∀ e ∈ extra, ¬ between source.uuid e.uuid r.context.uuid
    else ∀ e ∈ extra, ¬ between predecessor.uuid e.uuid r.context.uuid

theorem notify_records_eq (peer : Endpoint) (source : Node) (req : NotifyRequest) :
    Service.notify_records peer source req = source :: extra_records peer source req := by
  unfold extra_records Service.notify_records
  split <;> rfl

/-- Where there is a successor for the predecessor, the test is that of `BeyondSuccessor`. -/
theorem changed_predecessor_eq {r : Router} (source : Node)
    (hset : r.predecessor ≠ none → r.successor ≠ none) :
    Service.changed_predecessor r source = .ok (r.predecessor.elim true fun predecessor =>
      decide (predecessor ≠ source ∧ BeyondSuccessor r source)) := by
  unfold Service.changed_predecessor
  cases hp : r.predecessor with
  | none => rfl
  | some predecessor =>
    obtain ⟨successor, hs⟩ := Option.ne_none_iff_exists'.mp (hset (by simp [hp]))
    by_cases hne : predecessor = source
    · simp [hne]
    · simp [hne, hs, BeyondSuccessor]

theorem notify_eq {r : Router} (peer : Endpoint) {req : NotifyRequest} {source : Node}
    (hreq : source_of req.header = some source) (hself : source ≠ r.context)
    (hset : r.predecessor ≠ none → r.successor ≠ none) :
    Service.notify r peer req = .ok {
      status := .OK
      router := (source :: extra_records peer source req).foldl Router.update r
      event := if r.predecessor.elim true fun predecessor =>
          decide (predecessor ≠ source ∧ BeyondSuccessor r source) then
        some (r.predecessor.getD r.context, source) else none } := by
  simp only [Service.notify, hreq, if_neg hself, changed_predecessor_eq source hset, ok_bind,
    notify_records_eq]

/-- A source before the successor is no nearer predecessor. -/
theorem not_between_of_not_beyond {r : Router} (h : r.table.WF) {source p : Node}
    (hp : r.predecessor = some p) (hset : r.successor ≠ none) (hb : ¬ BeyondSuccessor r source) :
    ¬ between p.uuid source.uuid r.context.uuid := by
  obtain ⟨s, hs⟩ := Option.ne_none_iff_exists'.mp hset
  have hpos := node_pos h (successor_mem hs)
  obtain ⟨q, hq, hle⟩ := node_le_predecessor h (successor_mem hs)
  obtain rfl : p = q := Option.some.inj (hp.symm.trans hq)
  have hout : ¬ between source.uuid r.context.uuid s.uuid := fun hb' => hb ⟨s, hs, hb'⟩
  rw [between_iff r.context.uuid, steps_self] at hout
  rw [between_own]
  split at hout <;> omega

/-- The new predecessor is the source, or one of the records after it. -/
theorem event_source_iff {r : Router} {source : Node} (hp : r.predecessor ≠ some source)
    (extra : List Node) : (some (r.predecessor.getD r.context, source) =
      if ((source :: extra).foldl Router.update r).predecessor = r.predecessor then none
      else ((source :: extra).foldl Router.update r).predecessor.map
        fun new => (r.predecessor.getD r.context, new)) ↔
    ((source :: extra).foldl Router.update r).predecessor = some source := by
  constructor
  · split
    · rintro ⟨⟩
    · intro heq
      obtain ⟨new, hnew, hpair⟩ := Option.map_eq_some_iff.mp heq.symm
      rw [hnew, (Prod.mk.inj hpair).2]
  · intro heq
    rw [heq, if_neg fun h => hp h.symm]
    rfl

/-- An event of `notify` is right exactly where `EventRight` says so. -/
theorem predecessor_event_iff (context : Node) (ops : List RouterOp) (peer : Endpoint) (req : NotifyRequest)
    (source : Node) (hreq : source_of req.header = some source) (hself : source ≠ context)
    (hset : (Router.run context ops).predecessor ≠ none → (Router.run context ops).successor ≠ none) :
    (∃ res, Service.notify (Router.run context ops) peer req = .ok res ∧
      TellsTruth (Router.run context ops) res) ↔
    EventRight (Router.run context ops) source (extra_records peer source req) := by
  have h := run_wf context ops
  have hc := run_context context ops
  generalize Router.run context ops = r at h hc hset ⊢
  subst hc
  generalize hextra : extra_records peer source req = extra
  rw [notify_eq peer hreq hself hset, hextra]
  simp only [Except.ok.injEq, exists_eq_left', TellsTruth, EventRight]
  cases hp : r.predecessor with
  | none =>
    have hfirst : (r.update source).predecessor = some source := by
      rw [predecessor_update hself, hp]
      rfl
    have hiff := predecessor_updates_iff hfirst extra
    rw [update_context] at hiff
    have hevent := event_source_iff (show r.predecessor ≠ some source by simp [hp]) extra
    rw [hp] at hevent
    simp only [Option.elim_none, if_true]
    rw [hevent, ← hiff]
    rfl
  | some p =>
    have hsucc := hset (by simp [hp])
    simp only [Option.elim_some, decide_eq_true_eq]
    by_cases hfire : p ≠ source ∧ BeyondSuccessor r source
    · have hevent := event_source_iff (show r.predecessor ≠ some source by simpa [hp] using hfire.1) extra
      rw [hp] at hevent
      rw [if_pos hfire, if_pos hfire, hevent]
      exact predecessor_updates_first_iff hp hfire.1 extra
    · rw [if_neg hfire, if_neg hfire]
      have hsource : ¬ between p.uuid source.uuid r.context.uuid := by
        by_cases heq : p = source
        · rw [heq]
          exact not_between_left _ _
        · exact not_between_of_not_beyond h hp hsucc fun hb => hfire ⟨heq, hb⟩
      have hiff := predecessor_updates_iff hp (source :: extra)
      rw [List.forall_mem_cons, and_iff_right hsource] at hiff
      rw [← hiff]
      obtain ⟨q, hq, -⟩ := predecessor_updates hp (source :: extra)
      rw [hq]
      by_cases hqp : q = p <;> simp [hqp]

/-- Node 12 comes between the predecessor 9 and node 0. -/
theorem predecessor_event_iff_nearer : ∃ res, Service.notify
    (Router.run ⟨0, []⟩ [.update ⟨5, []⟩, .update ⟨9, []⟩]) [] ⟨some (make_header ⟨12, []⟩), none, none⟩ =
      .ok res ∧
      TellsTruth (Router.run ⟨0, []⟩ [.update ⟨5, []⟩, .update ⟨9, []⟩]) res := by
  refine (predecessor_event_iff ⟨0, []⟩ [.update ⟨5, []⟩, .update ⟨9, []⟩] [] _ ⟨12, []⟩ rfl (by decide)
    (fun _ => by decide)).mpr ?_
  exact ⟨by decide, by rintro _ ⟨⟩⟩

/-- The successor 5 of node 0 notifies it: the event fires, and the predecessor stays 9. -/
theorem notify_of_successor_fires : ¬ ∀ (context : Node) (ops : List RouterOp) (peer : Endpoint)
    (req : NotifyRequest) (source : Node), source_of req.header = some source → source ≠ context →
    ((Router.run context ops).predecessor ≠ none → (Router.run context ops).successor ≠ none) →
    ∃ res, Service.notify (Router.run context ops) peer req = .ok res ∧
      TellsTruth (Router.run context ops) res := by
  intro h
  obtain ⟨res, hres, htruth⟩ := h ⟨0, []⟩ [.update ⟨5, []⟩, .update ⟨9, []⟩] []
    ⟨some (make_header ⟨5, []⟩), none, none⟩ ⟨5, []⟩ rfl (by decide) (fun _ => by decide)
  rw [notify_eq [] rfl (by decide) (fun _ => by decide)] at hres
  cases hres
  exact absurd htruth (by unfold TellsTruth; decide)

end Chord
