import Chord.Traffic
import Chord.Preceding

/-!
# Records and addresses

`make_node` with the peer's address rewrites the host of every entry of a message. That is right
for the sender's own record only.
-/

open Circle

namespace Chord

open Router

/-! ## Decoding -/

theorem rfind_append (c : Char) (a b : List Char) (hb : c ∉ b) : rfind c (a ++ c :: b) = some a.length := by
  have hnone : ∀ l : List Char, c ∉ l → rfind c l = none := by
    intro l hl
    induction l with
    | nil => rfl
    | cons x l ih =>
      rw [rfind, ih (fun h => hl (List.mem_cons_of_mem x h))]
      exact if_neg fun h => hl (by rw [h]; exact List.mem_cons_self)
  induction a with
  | nil => rw [List.nil_append, rfind, hnone b hb]; exact if_pos rfl
  | cons x a ih => rw [List.cons_append, rfind, ih]; rfl

namespace Hosts

variable (hosts : Hosts)

/-- A record as its node gives it. -/
def Right (n : Node) : Prop := n = hosts.record n.uuid

theorem record_right (u : Uuid) : hosts.Right (hosts.record u) := rfl

theorem make_node_right (source : Uuid) {n : Node} (hn : hosts.Right n) :
    make_node (hosts.peer source) n = ⟨n.uuid, hosts.host source ++ ':' :: hosts.port n.uuid⟩ := by
  rw [hn]
  have hentry := rfind_append ':' (hosts.host n.uuid) (hosts.port n.uuid) (hosts.port_valid n.uuid)
  have hpeer := rfind_append ':' (hosts.host source) (hosts.peer_port source) (hosts.peer_port_valid source)
  have hport : (hosts.host n.uuid ++ ':' :: hosts.port n.uuid).drop ((hosts.host n.uuid).length + 1) =
      hosts.port n.uuid := by simp
  simp only [make_node, record, hentry, host_of, peer, hpeer, List.take_left, hport, List.append_assoc,
    List.singleton_append]

/-- Only the sender's own record keeps its address. -/
theorem make_node_right_iff (source : Uuid) {n : Node} (hn : hosts.Right n) :
    hosts.Right (make_node (hosts.peer source) n) ↔ n.uuid = source := by
  rw [make_node_right hosts source hn, Right, record, Node.mk.injEq]
  simp only [true_and]
  rw [List.append_cancel_right_eq]
  exact ⟨fun h => (hosts.apart h).symm, fun h => by rw [h]⟩

end Hosts

/-! ## Records that change nothing -/

/-- A record of `u` would enter the table or become the predecessor. -/
def News (r : Router) (u : Uuid) : Prop :=
  (∃ it ∈ r.successors, between it.uuid u (it.node.elim r.context.uuid Node.uuid)) ∨
    ∀ p ∈ r.predecessor, between p.uuid u r.context.uuid

theorem update_eq_of_not_news {r : Router} {n : Node} (h : ¬ News r n.uuid) : r.update n = r := by
  obtain ⟨hentries, hpred⟩ := not_or.mp h
  by_cases hn : n = r.context
  · rw [Router.update, if_pos hn]
  · obtain ⟨p, hp, hb⟩ : ∃ p ∈ r.predecessor, ¬ between p.uuid n.uuid r.context.uuid := by
      simpa using hpred
    apply ext_fields
    · rw [update_context]
    · rw [update_successors hn]
      conv_rhs => rw [← List.map_id r.successors]
      refine List.map_congr_left fun it hit => if_neg fun hr => hentries ⟨it, hit, hr⟩
    · rw [predecessor_update hn, hp, update_predecessor, if_neg fun h => hb h.2]

/-- A router only gets harder to surprise. -/
theorem news_update {r : Router} {n : Node} {u : Uuid} (h : News (r.update n) u) : News r u := by
  by_cases hn : n = r.context
  · rwa [Router.update, if_pos hn] at h
  rcases h with ⟨it', hit', hb⟩ | hpred
  · left
    rw [update_successors hn] at hit'
    obtain ⟨it, hit, rfl⟩ := List.mem_map.mp hit'
    refine ⟨it, hit, ?_⟩
    rw [update_entry] at hb
    split at hb
    · -- the entry is nearer now
      rename_i hr
      simp only [Option.elim_some, update_context] at hb
      rw [replaces] at hr
      rw [between_iff_arc] at hb hr ⊢
      obtain ⟨hpos, hlt⟩ := hb
      obtain ⟨hpos', hlt'⟩ := hr
      refine ⟨hpos, ?_⟩
      have hne : it.uuid ≠ n.uuid := steps_pos.mp hpos'
      have := hlt.resolve_left hne
      rcases hlt' with heq | hlt'
      · left; exact heq
      · right; omega
    · rwa [update_context] at hb
  · right
    intro p hp
    rw [predecessor_update hn] at hpred
    have hb := hpred _ rfl
    rw [hp, update_predecessor, update_context] at hb
    split at hb
    · rename_i hr
      have h1 := (between_iff r.context.uuid _ _ _).mp hb
      have h2 := (between_iff r.context.uuid _ _ _).mp hr.2
      rw [between_iff r.context.uuid]
      simp only [steps_self, Nat.not_lt_zero, if_false, or_false] at h1 h2 ⊢
      omega
    · exact hb

/-! ## One router -/

/-- The router of the node `u` holds right records only. -/
structure RouterRight (hosts : Hosts) (u : Uuid) (r : Router) : Prop where
  own : r.context = hosts.record u
  wf : r.table.WF
  nodes : ∀ n ∈ r.nodes, hosts.Right n
  predecessor : ∀ p ∈ r.predecessor, hosts.Right p

namespace RouterRight

variable {hosts : Hosts} {u : Uuid} {r : Router}

theorem init (hosts : Hosts) (u : Uuid) : RouterRight hosts u (.init (hosts.record u)) where
  own := rfl
  wf := init_wf _
  nodes := by simp [init_nodes]
  predecessor := by simp [Router.init]

theorem update (h : RouterRight hosts u r) {n : Node} (hn : hosts.Right n) :
    RouterRight hosts u (r.update n) where
  own := by rw [update_context, h.own]
  wf := update_wf h.wf n
  nodes := by
    intro m hm
    rcases mem_nodes_update hm with rfl | hm
    · exact hn
    · exact h.nodes m hm
  predecessor := by
    intro p hp
    by_cases hc : n = r.context
    · rw [Router.update, if_pos hc] at hp
      exact h.predecessor p hp
    · rw [predecessor_update hc] at hp
      obtain rfl := Option.some.inj hp
      cases hq : r.predecessor with
      | none => exact hn
      | some q =>
        rw [update_predecessor]
        split
        · exact hn
        · exact h.predecessor q hq

theorem remove (h : RouterRight hosts u r) (v : Uuid) : RouterRight hosts u (r.remove v) where
  own := h.own
  wf := remove_wf h.wf v
  nodes := fun m hm => h.nodes m ((mem_nodes_remove h.wf).mp hm).1
  predecessor := by
    intro p hp
    rcases predecessor_remove h.wf hp with hp | hp
    · exact h.predecessor p hp
    · exact h.nodes p hp

theorem removes (h : RouterRight hosts u r) (vs : List Uuid) :
    RouterRight hosts u (vs.foldl Router.remove r) := by
  induction vs generalizing r with
  | nil => exact h
  | cons v vs ih => exact ih (h.remove v)

/-- Every record is right, or no news. -/
theorem updates (h : RouterRight hosts u r) {ns : List Node}
    (hns : ∀ n ∈ ns, hosts.Right n ∨ ¬ News r n.uuid) :
    RouterRight hosts u (ns.foldl Router.update r) := by
  induction ns generalizing r with
  | nil => exact h
  | cons n ns ih =>
    rw [List.foldl_cons]
    have hrest : ∀ m ∈ ns, hosts.Right m ∨ ¬ News (r.update n) m.uuid := fun m hm =>
      (hns m (List.mem_cons_of_mem n hm)).imp_right fun hno hnews => hno (news_update hnews)
    rcases hns n List.mem_cons_self with hn | hn
    · exact ih (h.update hn) hrest
    · rw [update_eq_of_not_news hn] at hrest ⊢
      exact ih h hrest

/-- The entries of a message, each of the sender's own record or no news. -/
theorem updates_decoded (h : RouterRight hosts u r) {source : Uuid} {entries : List Node}
    (hright : ∀ n ∈ entries, hosts.Right n) (hsafe : ∀ n ∈ entries, n.uuid = source ∨ ¬ News r n.uuid) :
    RouterRight hosts u ((entries.map (make_node (hosts.peer source))).foldl Router.update r) := by
  refine h.updates fun m hm => ?_
  obtain ⟨n, hn, rfl⟩ := List.mem_map.mp hm
  rw [make_node_uuid]
  exact (hsafe n hn).imp_left (Hosts.make_node_right_iff hosts source (hright n hn)).mpr

theorem successor_or_self (h : RouterRight hosts u r) : hosts.Right r.successor_or_self := by
  rw [Router.successor_or_self]
  cases hs : r.successor with
  | none => rw [Option.getD_none, h.own]; exact hosts.record_right u
  | some s => exact h.nodes s (successor_mem hs)

end RouterRight

/-! ## What the handlers do with records -/

namespace RouterRight

variable {hosts : Hosts} {u : Uuid} {r : Router}

theorem join_answer (h : RouterRight hosts u r) {req : JoinRequest} {succ pred : Node}
    (ha : Service.join r req = .ok (.answer succ pred)) : hosts.Right succ ∧ hosts.Right pred := by
  have hself : hosts.Right r.context := by rw [h.own]; exact hosts.record_right u
  rw [Service.join] at ha
  cases hsrc : source_of req.header with
  | none => simp [hsrc] at ha
  | some node =>
    simp only [hsrc] at ha
    split at ha
    · simp at ha
    · rename_i hforward
      split at ha
      · simp only [Except.ok.injEq, Service.JoinAction.answer.injEq] at ha
        obtain ⟨rfl, rfl⟩ := ha
        exact ⟨h.successor_or_self, hself⟩
      · rename_i hbetween
        cases hpred : r.predecessor with
        | none => simp [hpred] at ha
        | some p =>
          simp only [hpred, deref_some, ok_bind] at ha
          split at ha
          · simp only [Except.ok.injEq, Service.JoinAction.answer.injEq] at ha
            obtain ⟨rfl, rfl⟩ := ha
            exact ⟨hself, h.predecessor _ hpred⟩
          · -- such a request goes on
            rename_i hno
            exact absurd ⟨p, hpred, hbetween, hno⟩ hforward

theorem joined (h : RouterRight hosts u r) {succ pred : Node} (hs : hosts.Right succ)
    (hp : hosts.Right pred) :
    RouterRight hosts u (Client.joined r (some (succ, pred))) := (h.update hs).update hp

theorem stabilize_reply (h : RouterRight hosts u r) {asked : Node} {reply : Option (Option Node)}
    (hr : ∀ answer ∈ reply, ∀ pred ∈ answer, hosts.Right pred) :
    RouterRight hosts u (Client.stabilize_reply r asked reply) := by
  rcases reply with _ | _ | pred
  · exact h.remove _
  · exact h
  · rw [Client.stabilize_reply]
    split
    · exact h.update (hr _ rfl _ rfl)
    · exact h

theorem fix_finger (h : RouterRight hosts u r) {succ : Node} (hs : hosts.Right succ) (index : Nat) :
    RouterRight hosts u (Service.fix_finger r index succ) := by
  rw [Service.fix_finger]
  split
  · exact h.remove _
  · exact h.update hs

theorem check (h : RouterRight hosts u r) (ping : Node → Bool) :
    RouterRight hosts u (Client.check ping r) := by
  rw [Client.check]
  split
  · split
    · exact h
    · exact h.remove _
  · exact h

theorem successor (h : RouterRight hosts u r) {ping : Node → Bool} {fuel : Nat} {req : SuccessorRequest}
    (hreq : ∀ n ∈ source_of req.header, hosts.Right n) {r' : Router} {action : Service.SuccessorAction}
    (hs : Service.successor ping fuel r req = some (r', action)) :
    RouterRight hosts u r' ∧ ∀ succ, action = .answer succ → hosts.Right succ := by
  rw [Service.successor] at hs
  cases hsrc : source_of req.header with
  | none =>
    simp only [hsrc, Option.some.injEq, Prod.mk.injEq] at hs
    obtain ⟨rfl, rfl⟩ := hs
    exact ⟨h, by simp⟩
  | some source =>
    simp only [hsrc, Option.map_eq_some_iff] at hs
    obtain ⟨r₁, hloop, heq⟩ := hs
    obtain ⟨us, rfl⟩ := live_loop_removes hloop
    have hright := (h.update (hreq source hsrc)).removes us
    split at heq <;> simp only [Prod.mk.injEq] at heq <;> obtain ⟨rfl, rfl⟩ := heq
    · refine ⟨hright, ?_⟩
      rintro succ ⟨⟩
      exact hright.successor_or_self
    · exact ⟨hright, by simp⟩

theorem notify (h : RouterRight hosts u r) {source : Uuid} {req : NotifyRequest}
    (hsrc : ∀ n ∈ source_of req.header, hosts.Right n) (hold : ∀ n ∈ req.old_node, hosts.Right n)
    (hnew : ∀ n ∈ req.new_node, hosts.Right n)
    (hsafe : ∀ src ∈ source_of req.header, ∀ old_node ∈ req.old_node, ∀ new_node ∈ req.new_node,
      ∀ n ∈ [old_node, new_node], n.uuid = source ∨ ¬ News (r.update src) n.uuid)
    {res : Service.NotifyResult} (hres : (Service.notify r (hosts.peer source) req).toOption = some res) :
    RouterRight hosts u res.router := by
  have hrouter : (Service.notify r (hosts.peer source) req).toOption.map Service.NotifyResult.router =
      some res.router := by rw [hres, Option.map_some]
  rcases notify_router hrouter with heq | ⟨src, hmem, -, heq⟩
  · rw [heq]; exact h
  · have hlearned := h.update (hsrc src hmem)
    rw [heq, Service.notify_records]
    split
    · rename_i old_node new_node ho hn
      have hpair : ∀ n ∈ [old_node, new_node], hosts.Right n := by
        intro n hn'
        simp only [List.mem_cons, List.not_mem_nil, or_false] at hn'
        rcases hn' with rfl | rfl
        · exact hold _ ho
        · exact hnew _ hn
      exact hlearned.updates_decoded hpair (hsafe src hmem old_node ho new_node hn)
    · exact hlearned

theorem leave (h : RouterRight hosts u r) {source : Uuid} {req : LeaveRequest}
    (hentries : ∀ n ∈ req.entries, hosts.Right n)
    (hsafe : ∀ leaving_node ∈ source_of req.header, ∀ n ∈ req.entries,
      n.uuid = source ∨ ¬ News (r.remove leaving_node.uuid) n.uuid) :
    RouterRight hosts u (Service.leave r (hosts.peer source) req).2 := by
  rw [Service.leave]
  cases hsrc : source_of req.header with
  | none => exact h
  | some leaving_node => exact (h.remove _).updates_decoded hentries (hsafe leaving_node hsrc)

/-- The own record of a node, as a header. -/
theorem header (h : RouterRight hosts u r) :
    ∀ n ∈ source_of (some (make_header r.context)), hosts.Right n := by
  rintro n ⟨⟩
  rw [h.own]
  exact hosts.record_right u

theorem get (h : RouterRight hosts u r) : ∀ n ∈ r.get, hosts.Right n := by
  have hfold : ∀ (l acc : List Node), (∀ n ∈ l, hosts.Right n) → (∀ n ∈ acc, hosts.Right n) →
      ∀ n ∈ l.foldl set_insert acc, hosts.Right n := by
    intro l
    induction l with
    | nil => exact fun _ _ hacc => hacc
    | cons m l ih =>
      intro acc hl hacc
      rw [List.foldl_cons]
      apply ih _ fun n hn => hl n (List.mem_cons_of_mem m hn)
      intro n hn
      rw [set_insert] at hn
      split at hn
      · exact hacc n hn
      · rcases (List.mem_orderedInsert _).mp hn with rfl | hn
        · exact hl _ List.mem_cons_self
        · exact hacc n hn
  exact hfold r.nodes [] h.nodes (by simp)

end RouterRight

/-! ## The system -/

/-- The records that a task carries are right. -/
def Task.Right (hosts : Hosts) : Task → Prop
  | .join _ req => ∀ n ∈ source_of req.header, hosts.Right n
  | .join_response _ succ pred => hosts.Right succ ∧ hosts.Right pred
  | .notify _ _ req => (∀ n ∈ source_of req.header, hosts.Right n) ∧ (∀ n ∈ req.old_node, hosts.Right n) ∧
      ∀ n ∈ req.new_node, hosts.Right n
  | .stabilize_response _ _ reply => ∀ answer ∈ reply, ∀ pred ∈ answer, hosts.Right pred
  | .successor _ _ _ req => ∀ n ∈ source_of req.header, hosts.Right n
  | .successor_response _ _ succ => hosts.Right succ
  | .leave _ _ req => ∀ n ∈ req.entries, hosts.Right n
  | .join_notify _ _ | .stabilize _ _ | .call_notify _ => True

/-- A notify or leave message tells its receiver nothing new about a third node: the receiver of
a notify has learned the sender then, and that of a leave removed it. -/
def Task.Safe (net : Network) : Task → Prop
  | .notify source target req => ∀ r ∈ net target.uuid, ∀ src ∈ source_of req.header,
      ∀ old_node ∈ req.old_node, ∀ new_node ∈ req.new_node,
        ∀ n ∈ [old_node, new_node], n.uuid = source ∨ ¬ News (r.update src) n.uuid
  | .leave source target req => ∀ r ∈ net target.uuid, ∀ leaving_node ∈ source_of req.header,
      ∀ n ∈ req.entries, n.uuid = source ∨ ¬ News (r.remove leaving_node.uuid) n.uuid
  | .join _ _ | .join_response _ _ _ | .join_notify _ _ | .stabilize _ _ | .stabilize_response _ _ _
  | .call_notify _ | .successor _ _ _ _ | .successor_response _ _ _ => True

namespace Traffic

def Safe (σ : Traffic) : Happening → Prop
  | .deliver i _ _ _ => ∀ task ∈ σ.tasks[i]?, task.Safe σ.net
  | .start _ | .join _ _ | .reset _ | .stabilize _ | .lookup _ _ | .fix_finger _ _ | .check _ _
  | .leave_successor _ | .leave_predecessor _ | .stop _ | .fail _ => True

/-- Every router holds right records only. -/
def NetRight (hosts : Hosts) (net : Network) : Prop := ∀ u, ∀ r ∈ net u, RouterRight hosts u r

theorem NetRight.update {hosts : Hosts} {net : Network} (h : NetRight hosts net) {u : Uuid} {r : Router}
    (hr : RouterRight hosts u r) : NetRight hosts (Function.update net u (some r)) := by
  intro v r' hr'
  by_cases hv : v = u
  · subst hv
    rw [Function.update_self, Option.mem_def, Option.some.injEq] at hr'
    rwa [← hr']
  · rw [Function.update_of_ne hv] at hr'
    exact h v r' hr'

theorem deliver_right {hosts : Hosts} {ping : Node → Bool} {fuel choice : Nat} {net net' : Network}
    {task : Task} {next : List Task} (hnet : NetRight hosts net) (htask : task.Right hosts)
    (hsafe : task.Safe net) (h : task.deliver hosts ping fuel choice net = some (net', next)) :
    NetRight hosts net' ∧ ∀ t ∈ next, t.Right hosts := by
  cases task with
  | join target req =>
    simp only [Task.deliver, Option.bind_eq_bind, Option.bind_eq_some_iff] at h
    obtain ⟨r, hr, node, hsrc, h⟩ := h
    cases hj : Service.join r req with
    | error f => simp [hj] at h
    | ok action =>
      cases action with
      | reply status =>
        simp only [hj, Option.some.injEq, Prod.mk.injEq] at h
        obtain ⟨rfl, rfl⟩ := h
        exact ⟨hnet, by simp⟩
      | answer succ pred =>
        simp only [hj, Option.some.injEq, Prod.mk.injEq] at h
        obtain ⟨rfl, rfl⟩ := h
        refine ⟨hnet, ?_⟩
        rw [List.forall_mem_singleton]
        exact (hnet _ r hr).join_answer hj
      | forward =>
        simp only [hj, Option.bind_eq_some_iff, Option.some.injEq, Prod.mk.injEq] at h
        obtain ⟨predecessor, -, rfl, rfl⟩ := h
        refine ⟨hnet, ?_⟩
        rw [List.forall_mem_singleton]
        exact htask
  | join_response u succ pred =>
    simp only [Task.deliver, Option.bind_eq_bind, Option.bind_eq_some_iff, Option.some.injEq,
      Prod.mk.injEq] at h
    obtain ⟨r, hr, rfl, rfl⟩ := h
    refine ⟨hnet.update ((hnet u r hr).joined htask.1 htask.2), ?_⟩
    rw [List.forall_mem_singleton]
    trivial
  | join_notify u predecessor_first =>
    simp only [Task.deliver, Option.bind_eq_bind, Option.bind_eq_some_iff] at h
    obtain ⟨r, hr, ⟨pred, succ⟩, htargets, h⟩ := h
    have hright := hnet u r hr
    have hself : hosts.Right r.context := by rw [hright.own]; exact hosts.record_right u
    obtain ⟨hpred, hsucc⟩ : hosts.Right pred ∧ hosts.Right succ := by
      rw [ChordFacade.join_targets] at htargets
      cases hp : r.predecessor with
      | none => simp [hp, Except.toOption] at htargets
      | some p =>
        cases hs : r.successor with
        | none => simp [hp, hs, Except.toOption] at htargets
        | some s =>
          simp only [hp, hs, deref_some, ok_bind, Except.toOption, Option.some.injEq,
            Prod.mk.injEq] at htargets
          obtain ⟨rfl, rfl⟩ := htargets
          exact ⟨hright.predecessor _ hp, hright.nodes _ (successor_mem hs)⟩
    have hchange : ∀ n, hosts.Right n → ∀ target,
        (Task.notify u target (Client.notify_change r.context n r.context)).Right hosts := by
      rintro n hn target
      refine ⟨hright.header, ?_, ?_⟩
      · rintro m ⟨⟩; exact hn
      · rintro m ⟨⟩; exact hself
    split at h
    · simp only [Option.some.injEq, Prod.mk.injEq] at h
      obtain ⟨rfl, rfl⟩ := h
      refine ⟨hnet, ?_⟩
      rw [List.forall_mem_cons, List.forall_mem_singleton]
      exact ⟨hchange succ hsucc _, trivial⟩
    · simp only [Option.some.injEq, Prod.mk.injEq] at h
      obtain ⟨rfl, rfl⟩ := h
      refine ⟨hnet, ?_⟩
      rw [List.forall_mem_singleton]
      exact hchange pred hpred _
  | notify source target req =>
    simp only [Task.deliver, Option.bind_eq_bind, Option.bind_eq_some_iff, Option.some.injEq,
      Prod.mk.injEq] at h
    obtain ⟨r, hr, res, hres, rfl, rfl⟩ := h
    exact ⟨hnet.update ((hnet _ r hr).notify htask.1 htask.2.1 htask.2.2 (hsafe r hr) hres), by simp⟩
  | stabilize u asked =>
    simp only [Task.deliver, Option.bind_eq_bind, Option.bind_eq_some_iff, Option.some.injEq,
      Prod.mk.injEq] at h
    obtain ⟨r, hr, rfl, rfl⟩ := h
    refine ⟨hnet, ?_⟩
    rw [List.forall_mem_singleton]
    rintro answer ⟨⟩ pred hpred
    exact (hnet _ r hr).predecessor pred hpred
  | stabilize_response u asked reply =>
    simp only [Task.deliver, Option.bind_eq_bind, Option.bind_eq_some_iff, Option.some.injEq,
      Prod.mk.injEq] at h
    obtain ⟨r, hr, rfl, rfl⟩ := h
    refine ⟨hnet.update ((hnet u r hr).stabilize_reply htask), ?_⟩
    split
    · rw [List.forall_mem_singleton]
      trivial
    · simp
  | call_notify u =>
    simp only [Task.deliver, Option.bind_eq_bind, Option.bind_eq_some_iff, Option.some.injEq,
      Prod.mk.injEq] at h
    obtain ⟨r, hr, rfl, rfl⟩ := h
    refine ⟨hnet, ?_⟩
    rw [Task.notify_successor]
    split
    · simp
    · split
      · simp
      · rw [List.forall_mem_singleton]
        exact ⟨(hnet u r hr).header, by simp [Client.notify_request], by simp [Client.notify_request]⟩
  | successor origin index target req =>
    simp only [Task.deliver, Option.bind_eq_bind, Option.bind_eq_some_iff] at h
    obtain ⟨r, hr, ⟨r', action⟩, hsucc, h⟩ := h
    obtain ⟨hr', hanswer⟩ := (hnet _ r hr).successor htask hsucc
    cases action with
    | reply status =>
      simp only [Option.some.injEq, Prod.mk.injEq] at h
      obtain ⟨rfl, rfl⟩ := h
      exact ⟨hnet.update hr', by simp⟩
    | answer succ =>
      simp only [Option.some.injEq, Prod.mk.injEq] at h
      obtain ⟨rfl, rfl⟩ := h
      refine ⟨hnet.update hr', ?_⟩
      rw [List.forall_mem_singleton]
      exact hanswer succ rfl
    | forward =>
      simp only [Option.bind_eq_some_iff, Option.some.injEq, Prod.mk.injEq] at h
      obtain ⟨predecessor, -, rfl, rfl⟩ := h
      refine ⟨hnet.update hr', ?_⟩
      rw [List.forall_mem_singleton]
      exact hr'.header
  | successor_response origin index succ =>
    simp only [Task.deliver, Option.bind_eq_bind, Option.bind_eq_some_iff, Option.some.injEq,
      Prod.mk.injEq] at h
    obtain ⟨r, hr, rfl, rfl⟩ := h
    refine ⟨hnet.update ?_, by simp⟩
    cases index with
    | none => exact hnet origin r hr
    | some i => exact (hnet origin r hr).fix_finger htask i
  | leave source target req =>
    simp only [Task.deliver, Option.bind_eq_bind, Option.bind_eq_some_iff, Option.some.injEq,
      Prod.mk.injEq] at h
    obtain ⟨r, hr, rfl, rfl⟩ := h
    exact ⟨hnet.update ((hnet _ r hr).leave htask (hsafe r hr)), by simp⟩

/-- All records of routers and tasks are right. -/
structure AllRight (hosts : Hosts) (σ : Traffic) : Prop where
  net : NetRight hosts σ.net
  tasks : ∀ t ∈ σ.tasks, t.Right hosts

namespace AllRight

variable {hosts : Hosts} {σ : Traffic}

theorem send (h : AllRight hosts σ) {ts : List Task} (hts : ∀ t ∈ ts, t.Right hosts) :
    AllRight hosts (σ.send ts) where
  net := h.net
  tasks t ht := (List.mem_append.mp ht).elim (h.tasks t) (hts t)

theorem set (h : AllRight hosts σ) {u : Uuid} {r : Router} (hr : RouterRight hosts u r) :
    AllRight hosts (σ.set u (some r)) where
  net := h.net.update hr
  tasks := h.tasks

/-- A task goes, and what it leads to comes. -/
theorem replace (h : AllRight hosts σ) {net : Network} (hnet : NetRight hosts net) (i : Nat)
    {next : List Task} (hnext : ∀ t ∈ next, t.Right hosts) :
    AllRight hosts ⟨net, σ.tasks.eraseIdx i ++ next⟩ where
  net := hnet
  tasks t ht := (List.mem_append.mp ht).elim (fun hold => h.tasks t (List.mem_of_mem_eraseIdx hold)) (hnext t)

theorem lookup (h : AllRight hosts σ) {u : Uuid} {r : Router} (hr : σ.net u = some r) (index : Option Nat)
    (id : Uuid) : AllRight hosts (σ.send [Traffic.lookup r index id]) := by
  apply h.send
  rw [List.forall_mem_singleton]
  exact (h.net u r hr).header

theorem leave (h : AllRight hosts σ) {u : Uuid} {r : Router} (hr : σ.net u = some r) (target : Node) :
    AllRight hosts (σ.send [.leave u target (Client.leave_request r)]) := by
  apply h.send
  rw [List.forall_mem_singleton]
  exact (h.net u r hr).get

theorem step (h : AllRight hosts σ) {x : Happening} (hsafe : σ.Safe x) {σ' : Traffic}
    (hstep : σ.step hosts x = some σ') : AllRight hosts σ' := by
  cases x with
  | start u =>
    simp only [Traffic.step] at hstep
    split at hstep
    · cases hstep
      exact h.set (RouterRight.init hosts u)
    · cases hstep
  | join u addr =>
    simp only [Traffic.step, Option.bind_eq_bind, Option.bind_eq_some_iff, Option.some.injEq] at hstep
    obtain ⟨r, hr, rfl⟩ := hstep
    apply h.send
    rw [List.forall_mem_singleton]
    exact (h.net u r hr).header
  | reset u =>
    simp only [Traffic.step, Option.bind_eq_bind, Option.bind_eq_some_iff, Option.some.injEq] at hstep
    obtain ⟨r, hr, rfl⟩ := hstep
    apply h.set
    rw [Router.reset, (h.net u r hr).own]
    exact RouterRight.init hosts u
  | stabilize u =>
    simp only [Traffic.step, Option.bind_eq_bind, Option.bind_eq_some_iff, Option.some.injEq] at hstep
    obtain ⟨r, -, successor, -, rfl⟩ := hstep
    split
    · exact h
    · apply h.send
      rw [List.forall_mem_singleton]
      trivial
  | lookup u id =>
    simp only [Traffic.step, Option.bind_eq_bind, Option.bind_eq_some_iff, Option.some.injEq] at hstep
    obtain ⟨r, hr, rfl⟩ := hstep
    exact h.lookup hr _ _
  | fix_finger u index =>
    simp only [Traffic.step, Option.bind_eq_bind, Option.bind_eq_some_iff, Option.some.injEq] at hstep
    obtain ⟨r, hr, rfl⟩ := hstep
    exact h.lookup hr _ _
  | check u ping =>
    simp only [Traffic.step, Option.bind_eq_bind, Option.bind_eq_some_iff, Option.some.injEq] at hstep
    obtain ⟨r, hr, rfl⟩ := hstep
    exact h.set ((h.net u r hr).check ping)
  | leave_successor u =>
    simp only [Traffic.step, Option.bind_eq_bind, Option.bind_eq_some_iff, Option.some.injEq] at hstep
    obtain ⟨r, hr, successor, -, rfl⟩ := hstep
    split
    · exact h
    · exact h.leave hr _
  | leave_predecessor u =>
    simp only [Traffic.step, Option.bind_eq_bind, Option.bind_eq_some_iff, Option.some.injEq] at hstep
    obtain ⟨r, hr, predecessor, -, rfl⟩ := hstep
    exact h.leave hr _
  | stop u =>
    cases hstep
    refine ⟨fun v r hr => ?_, h.tasks⟩
    by_cases hv : v = u
    · simp [Traffic.set, hv] at hr
    · simp only [Traffic.set, Function.update_of_ne hv] at hr
      exact h.net v r hr
  | deliver i ping fuel choice =>
    simp only [Traffic.step, Option.bind_eq_bind, Option.bind_eq_some_iff, Option.some.injEq] at hstep
    obtain ⟨task, hget, ⟨net, next⟩, hdeliver, rfl⟩ := hstep
    obtain ⟨hnet, hnext⟩ :=
      deliver_right h.net (h.tasks task (List.mem_of_getElem? hget)) (hsafe task hget) hdeliver
    exact h.replace hnet i hnext
  | fail i =>
    simp only [Traffic.step, Option.bind_eq_bind, Option.bind_eq_some_iff, Option.some.injEq] at hstep
    obtain ⟨task, -, rfl⟩ := hstep
    apply h.replace h.net i
    cases task <;> simp [Task.fail, Task.Right]

end AllRight

/-- What a router stores for a node is where that node listens. -/
def Addressed (hosts : Hosts) (σ : Traffic) : Prop :=
  ∀ u, ∀ r ∈ σ.net u, ∀ n, n ∈ r.nodes ∨ r.predecessor = some n → n = hosts.record n.uuid

/-- Hosts of one letter for every step from 0, all with port 1. -/
def lettered : Hosts where
  host u := List.replicate u.toNat 'h'
  port _ := ['1']
  peer_port _ := ['9']
  apart u v h := by
    have hlen := congrArg List.length h
    simpa [BitVec.toNat_inj] using hlen
  port_valid _ := by decide
  peer_port_valid _ := by decide

/-- Nodes 9 and 5 join through node 1, which leaves when 9 has not heard of 5 yet. -/
def early_leave : List Happening :=
  let go (i : Nat) : Happening := .deliver i (fun _ => true) 0 0
  [.start 1, .start 9, .join 9 1, go 0, go 0, go 0, go 0, go 0, go 0,
    .start 5, .join 5 1, go 0, go 0, go 0, go 0,
    .leave_predecessor 1, go 1]

/-- Node 9 now has node 5 under the host of node 1. -/
theorem early_leave_moves_host :
    (execute lettered empty early_leave).bind (fun σ => (σ.net 9).map Router.predecessor) =
    some (some ⟨5, ['h', ':', '1']⟩) := by
  decide +kernel

end Traffic

end Chord
