import Chord.Concurrent
import Chord.Enlarged
import Chord.Progress
import Chord.Lib.Climb

/-! # What concurrent joins and stabilize rounds keep -/

open Circle

namespace Chord

open Router

/-- Every uuid fits into the first entry of every other. -/
def Spaced (M : Set Uuid) : Prop :=
  ∀ u ∈ M, ∀ v ∈ M, u ≠ v → v ≠ u + 1 ∧ ¬(u = BitVec.allOnes 256 - 1 ∧ v = 0)

theorem Spaced.fingerable {M : Set Uuid} (h : Spaced M) {u : Uuid} (hu : u ∈ M) {n : Node} (hn : n.uuid ∈ M)
    (hne : n.uuid ≠ u) : Fingerable u n := by
  obtain ⟨hnext, hzero⟩ := h u hu _ hn hne.symm
  by_contra hf
  rcases (not_fingerable_iff hne).mp hf with heq | ⟨hmod, heq⟩
  · exact hnext heq
  · have hu : u = BitVec.allOnes 256 - 1 := by rw [← hmod, BitVec.add_sub_cancel]
    exact hzero ⟨hu, by rw [heq, hu]; decide⟩

/-! ## One node -/

/-- The router of the node `u` knows members only. Unless `u` bootstrapped the ring, it has two
neighbours, and the bootstrap node `a` lies behind neither. -/
structure NodeInv (M : Set Uuid) (a u : Uuid) (r : Router) : Prop where
  own : r.context.uuid = u
  wf : r.table.WF
  nodes : ∀ n ∈ r.nodes, n.uuid ∈ M
  predecessor : ∀ p ∈ r.predecessor, p.uuid ∈ M ∧ p.uuid ≠ u
  both : r.predecessor ≠ none → r.successor ≠ none
  ahead : u ≠ a → ∃ s, r.successor = some s ∧ steps u s.uuid ≤ steps u a
  behind : u ≠ a → ∃ p, r.predecessor = some p ∧ steps u a ≤ steps u p.uuid

theorem NodeInv.mono {M M' : Set Uuid} (hM : M ⊆ M') {a u : Uuid} {r : Router} (h : NodeInv M a u r) :
    NodeInv M' a u r where
  own := h.own
  wf := h.wf
  nodes n hn := hM (h.nodes n hn)
  predecessor p hp := ⟨hM (h.predecessor p hp).1, (h.predecessor p hp).2⟩
  both := h.both
  ahead := h.ahead
  behind := h.behind

theorem NodeInv.successor {M : Set Uuid} {a u : Uuid} {r : Router} (h : NodeInv M a u r) {s : Node}
    (hs : r.successor = some s) : s.uuid ∈ M ∧ s.uuid ≠ u := by
  have hmem := successor_mem hs
  have hne := node_ne_self h.wf hmem
  rw [h.own] at hne
  exact ⟨h.nodes s hmem, hne⟩

/-- A member may be learned, and its record under the own uuid too, once there is a predecessor. -/
theorem NodeInv.update {M : Set Uuid} (hM : Spaced M) {a u : Uuid} (hu : u ∈ M) {r : Router}
    (h : NodeInv M a u r) {n : Node} (hn : n.uuid ∈ M) (hfirst : n.uuid ≠ u ∨ r.predecessor ≠ none) :
    NodeInv M a u (r.update n) ∧ (r.update n).predecessor ≠ none := by
  have hown := h.own
  by_cases hctx : n = r.context
  · rw [Router.update, if_pos hctx]
    exact ⟨h, hfirst.resolve_left (fun hne => hne (by rw [hctx, hown]))⟩
  have hnear : r.successor = none → Nearer r n := by
    intro hs
    have hp : r.predecessor = none := by
      by_contra hp
      exact h.both hp hs
    refine ⟨?_, fun s hs' => by rw [hs] at hs'; cases hs'⟩
    rw [hown]
    exact hM.fingerable hu hn (hfirst.resolve_right (fun hne => hne hp))
  -- the new successor is `n` or the old one, and so is the new predecessor
  have hsucc : (Nearer r n ∧ (r.update n).successor = some n) ∨
      (¬ Nearer r n ∧ (r.update n).successor = r.successor) := by
    by_cases hN : Nearer r n
    · left; exact ⟨hN, successor_update_pos h.wf hN⟩
    · right; exact ⟨hN, successor_update_neg h.wf hN⟩
  have hpred : (Further r n ∧ (r.update n).predecessor = some n ∧ n.uuid ≠ u) ∨
      ∃ p, r.predecessor = some p ∧ (r.update n).predecessor = some p := by
    by_cases hF : Further r n
    · left
      refine ⟨hF, predecessor_update_pos hctx hF, ?_⟩
      rcases hfirst with hne | hp
      · exact hne
      · obtain ⟨p, hp⟩ := Option.ne_none_iff_exists'.mp hp
        have hlt := hF p hp
        rw [hown] at hlt
        rintro rfl
        rw [steps_self] at hlt
        omega
    · right
      obtain ⟨p, hp, -⟩ := not_further hF
      refine ⟨p, hp, predecessor_update_neg hp ?_ hF⟩
      rw [hown]
      exact (h.predecessor p hp).2
  have hpred' : (r.update n).predecessor ≠ none := by
    rcases hpred with ⟨-, hp, -⟩ | ⟨p, -, hp⟩ <;> rw [hp] <;> simp
  refine ⟨⟨?_, update_wf h.wf n, ?_, ?_, ?_, ?_, ?_⟩, hpred'⟩
  · rw [update_context, hown]
  · intro m hm
    rcases mem_nodes_update hm with rfl | hm
    · exact hn
    · exact h.nodes m hm
  · intro p hp
    rcases hpred with ⟨-, hp', hne⟩ | ⟨q, hq, hp'⟩
    · rw [hp', Option.mem_def, Option.some.injEq] at hp
      rw [← hp]
      exact ⟨hn, hne⟩
    · rw [hp', Option.mem_def, Option.some.injEq] at hp
      rw [← hp]
      exact h.predecessor q hq
  · intro _
    rcases hsucc with ⟨-, hs⟩ | ⟨hN, hs⟩
    · rw [hs]; simp
    · rw [hs]
      exact fun hnone => hN (hnear hnone)
  · intro hua
    obtain ⟨s, hs, hle⟩ := h.ahead hua
    rcases hsucc with ⟨hN, hs'⟩ | ⟨-, hs'⟩
    · have hlt := hN.2 s hs
      rw [hown] at hlt
      exact ⟨n, hs', by omega⟩
    · exact ⟨s, by rw [hs', hs], hle⟩
  · intro hua
    obtain ⟨p, hp, hle⟩ := h.behind hua
    rcases hpred with ⟨hF, hp', -⟩ | ⟨q, hq, hp'⟩
    · have hlt := hF p hp
      rw [hown] at hlt
      exact ⟨n, hp', by omega⟩
    · rw [hp] at hq
      exact ⟨p, by rw [hp', ← hq], hle⟩

theorem NodeInv.updates {M : Set Uuid} (hM : Spaced M) {a u : Uuid} (hu : u ∈ M) {r : Router}
    (h : NodeInv M a u r) {ns : List Node} (hns : ∀ n ∈ ns, n.uuid ∈ M) (hp : r.predecessor ≠ none) :
    NodeInv M a u (ns.foldl Router.update r) := by
  induction ns generalizing r with
  | nil => exact h
  | cons n ns ih =>
    obtain ⟨hn, hp'⟩ := h.update hM hu (hns n List.mem_cons_self) (Or.inr hp)
    exact ih hn (fun m hm => hns m (List.mem_cons_of_mem n hm)) hp'

theorem NodeInv.init {M : Set Uuid} {a : Node} : NodeInv M a.uuid a.uuid (init a) where
  own := rfl
  wf := init_wf a
  nodes n hn := by rw [init_nodes] at hn; cases hn
  predecessor p hp := by cases hp
  both h := absurd rfl h
  ahead h := absurd rfl h
  behind h := absurd rfl h

/-- A joiner starts with the two neighbours of its answer. -/
theorem NodeInv.joined {M : Set Uuid} (hM : Spaced M) {a : Uuid} {j s p : Node} (hj : j.uuid ∈ M)
    (hs : s.uuid ∈ M) (hp : p.uuid ∈ M) (hsj : s.uuid ≠ j.uuid) (hpj : p.uuid ≠ j.uuid)
    (hsa : steps j.uuid s.uuid ≤ steps j.uuid a) (hap : steps j.uuid a ≤ steps j.uuid p.uuid) :
    NodeInv M a j.uuid (Client.joined (Router.init j) (some (s, p))) := by
  have hctx := joined_context j (some (s, p))
  have hw := joined_wf (init_wf j) (some (s, p))
  have hsucc := joined_successor_pos (hM.fingerable hj hs hsj) (hsa.trans hap)
  obtain ⟨q, hq, hqp, -⟩ := joined_predecessor hsj hpj (hsa.trans hap)
  refine ⟨by rw [hctx], hw, ?_, ?_, ?_, ?_, ?_⟩
  · intro n hn
    rcases mem_nodes_update hn with rfl | hn
    · exact hp
    · rcases mem_nodes_update hn with rfl | hn
      · exact hs
      · rw [init_nodes] at hn; cases hn
  · intro q' hq'
    rw [hq, Option.mem_def, Option.some.injEq] at hq'
    rw [← hq', hqp]
    exact ⟨hp, hpj⟩
  · intro _
    rw [hsucc]
    simp
  · intro _
    exact ⟨s, hsucc, hsa⟩
  · intro _
    exact ⟨q, hq, by rw [hqp]; exact hap⟩

/-! ## The answer to a joiner -/

/-- The answer names two members, and `a` is not between either and the joiner. -/
theorem service_join_inv {M : Set Uuid} {a u : Uuid} (hu : u ∈ M) {r : Router} (h : NodeInv M a u r)
    {j : Node} (hj : j.uuid ∉ M) :
    (∃ s p, Service.join r ⟨some (make_header j)⟩ = .ok (.answer s p) ∧ s.uuid ∈ M ∧ p.uuid ∈ M ∧
      steps j.uuid s.uuid ≤ steps j.uuid a ∧ steps j.uuid a ≤ steps j.uuid p.uuid) ∨
    Service.join r ⟨some (make_header j)⟩ = .ok .forward := by
  have hown := h.own
  have hju : u ≠ j.uuid := fun heq => hj (heq ▸ hu)
  have hpos := steps_pos.mpr hju
  have hjlt := steps_lt u j.uuid
  have hself : steps j.uuid u = 2 ^ 256 - steps u j.uuid := by
    rw [steps_shift u j.uuid u, steps_self, if_neg (by omega), Nat.add_zero]
  simp only [Service.join, source_of_make_header, hown]
  by_cases hb : between u j.uuid r.successor_or_self.uuid
  · left
    refine ⟨r.successor_or_self, r.context, by simp [hb], ?_, by rwa [hown], ?_⟩
    · rw [successor_or_self]
      cases hs : r.successor with
      | none => rw [Option.getD_none, hown]; exact hu
      | some s => exact (h.successor hs).1
    · rw [hown, hself]
      by_cases hua : u = a
      · rw [← hua, hself]
        refine ⟨?_, le_refl _⟩
        rcases successor_or_self_cases r with ⟨-, heq⟩ | hs
        · rw [heq, hown, hself]
        · rw [between_from (h.successor hs).2.symm] at hb
          rw [steps_shift u j.uuid, if_pos (le_of_lt hb.2)]
          have := steps_lt u r.successor_or_self.uuid
          omega
      · obtain ⟨s, hs, hle⟩ := h.ahead hua
        have halt := steps_lt u a
        rw [successor_or_self, hs, Option.getD_some] at hb ⊢
        rw [between_from (h.successor hs).2.symm] at hb
        rw [steps_shift u j.uuid, steps_shift u j.uuid a, if_pos (le_of_lt hb.2), if_pos (by omega)]
        omega
  · obtain ⟨p, hp⟩ : ∃ p, r.predecessor = some p := by
      rw [← Option.ne_none_iff_exists']
      intro hnone
      -- without a predecessor the own arc is the whole circle
      rw [successor_or_self, successor_none_of_predecessor h.wf hnone, Option.getD_none, hown,
        between_self] at hb
      exact hb hju.symm
    obtain ⟨hpM, hpu⟩ := h.predecessor p hp
    by_cases hb' : between p.uuid j.uuid u
    · left
      refine ⟨r.context, p, by simp [hb, hp, hb'], by rwa [hown], hpM, ?_⟩
      rw [between_to hpu] at hb'
      have hjp : steps j.uuid p.uuid = 2 ^ 256 - steps u j.uuid + steps u p.uuid := by
        rw [steps_shift u j.uuid p.uuid, if_neg (by omega)]
      rw [hown, hself, hjp]
      by_cases hua : u = a
      · rw [← hua, hself]
        omega
      · obtain ⟨q, hq, hle⟩ := h.behind hua
        rw [hp] at hq
        obtain rfl : p = q := Option.some.inj hq
        rw [steps_shift u j.uuid a, if_neg (by omega)]
        omega
    · right
      simp [hb, hp, hb']

/-! ## Activities -/

/-- What an activity knows of the ring. -/
def ActInv (M : Set Uuid) (a : Uuid) : Activity → Prop
  | .join_request _ target => target.uuid ∈ M
  | .join_response j succ pred => succ.uuid ∈ M ∧ pred.uuid ∈ M ∧
      steps j.uuid succ.uuid ≤ steps j.uuid a ∧ steps j.uuid a ≤ steps j.uuid pred.uuid
  | .call_predecessor u => u ∈ M ∧ u ≠ a
  | .call_successor u status_pred => u ∈ M ∧ u ≠ a ∧ status_pred = .OK
  | .join_done u status_pred status_succ => u ∈ M ∧ status_pred = .OK ∧ status_succ = .OK
  | .stabilize u asked => u ∈ M ∧ asked.uuid ∈ M
  | .stabilize_response u _ pred => u ∈ M ∧ ∀ p ∈ pred, p.uuid ∈ M
  | .call_notify u => u ∈ M
  | .notify source target req sender => source.uuid ∈ M ∧ target.uuid ∈ M ∧ source.uuid ≠ target.uuid ∧
      source_of req.header = some source ∧ (∀ n ∈ req.old_node, n.uuid ∈ M) ∧
        (∀ n ∈ req.new_node, n.uuid ∈ M) ∧
      match sender with
      | .join_predecessor => source.uuid ≠ a
      | .join_successor status_pred => status_pred = .OK
      | .stabilize => True

/-- The joiner whose handshake has not reached its own updates yet. -/
def Activity.joiner : Activity → Option Uuid
  | .join_request j _ => some j.uuid
  | .join_response j _ _ => some j.uuid
  | _ => none

theorem ActInv.mono {M M' : Set Uuid} (hM : M ⊆ M') {a : Uuid} {x : Activity} (h : ActInv M a x) :
    ActInv M' a x := by
  cases x with
  | join_request j target => exact hM h
  | join_response j succ pred => exact ⟨hM h.1, hM h.2.1, h.2.2⟩
  | call_predecessor u => exact ⟨hM h.1, h.2⟩
  | call_successor u st => exact ⟨hM h.1, h.2⟩
  | join_done u st st' => exact ⟨hM h.1, h.2⟩
  | stabilize u asked => exact ⟨hM h.1, hM h.2⟩
  | stabilize_response u asked pred => exact ⟨hM h.1, fun p hp => hM (h.2 p hp)⟩
  | call_notify u => exact hM h
  | notify source target req sender =>
    obtain ⟨hs, ht, hne, hsrc, hold, hnew, hsender⟩ := h
    exact ⟨hM hs, hM ht, hne, hsrc, fun n hn => hM (hold n hn), fun n hn => hM (hnew n hn), hsender⟩

/-! ## One step -/

def NetInv (a : Uuid) (net : Network) : Prop := ∀ u r, net u = some r → NodeInv net.members a u r

/-- A step keeps the nodes and their invariant, or makes its joiner a member. What is left to do
joins for the same joiner or for none. -/
structure StepInv (a : Uuid) (net net' : Network) (x : Activity) (next : List Activity) : Prop where
  nodes : NetInv a net'
  members : net'.members = net.members ∧ (next.filterMap Activity.joiner).Sublist x.joiner.toList ∨
    ∃ j, x.joiner = some j ∧ net'.members = insert j net.members ∧ next.filterMap Activity.joiner = []
  next : ∀ y ∈ next, ActInv net'.members a y

theorem netInv_update {a u : Uuid} {net : Network} (h : NetInv a net) (hu : u ∈ net.members) {r : Router}
    (hr : NodeInv net.members a u r) : NetInv a (Function.update net u (some r)) ∧
      Network.members (Function.update net u (some r)) = net.members := by
  have hM : Network.members (Function.update net u (some r)) = net.members := by
    rw [Network.members_update, Set.insert_eq_of_mem hu]
  refine ⟨?_, hM⟩
  intro v r' hv
  rw [hM]
  by_cases hvu : v = u
  · rw [hvu, Function.update_self, Option.some.injEq] at hv
    rw [hvu, ← hv]
    exact hr
  · rw [Function.update_of_ne hvu] at hv
    exact h v r' hv

/-- A step that changes no router and joins for nobody. -/
theorem stepInv_same {a : Uuid} {net : Network} (h : NetInv a net) {x : Activity} {next : List Activity}
    (hnext : ∀ y ∈ next, ActInv net.members a y) (hjoin : ∀ y ∈ next, y.joiner = none) :
    StepInv a net net x next := by
  refine ⟨h, Or.inl ⟨rfl, ?_⟩, hnext⟩
  have hnil : next.filterMap Activity.joiner = [] := List.filterMap_eq_nil_iff.mpr hjoin
  rw [hnil]
  exact List.nil_sublist _

/-- A step that changes one router and joins for nobody. -/
theorem stepInv_update {a u : Uuid} {net : Network} (h : NetInv a net) (hu : u ∈ net.members) {r : Router}
    (hr : NodeInv net.members a u r) {x : Activity} {next : List Activity}
    (hnext : ∀ y ∈ next, ActInv net.members a y) (hjoin : ∀ y ∈ next, y.joiner = none) :
    StepInv a net (Function.update net u (some r)) x next := by
  obtain ⟨hnet, hM⟩ := netInv_update h hu hr
  refine ⟨hnet, Or.inl ⟨hM, ?_⟩, by rw [hM]; exact hnext⟩
  have hnil : next.filterMap Activity.joiner = [] := List.filterMap_eq_nil_iff.mpr hjoin
  rw [hnil]
  exact List.nil_sublist _

theorem changed_predecessor_inv {M : Set Uuid} {a u : Uuid} {r : Router} (h : NodeInv M a u r)
    (source : Node) : ∃ c, Service.changed_predecessor r source = .ok c := by
  cases hc : Service.changed_predecessor r source with
  | ok c => exact ⟨c, rfl⟩
  | error e =>
    obtain ⟨⟨p, hp, -⟩, hs⟩ := (changed_predecessor_fault r source).mp hc
    exact absurd hs (h.both (by rw [hp]; simp))

/-- A notify between two members is taken, and its records keep the invariant. -/
theorem service_notify_inv {M : Set Uuid} (hM : Spaced M) {a u : Uuid} (hu : u ∈ M) {r : Router}
    (h : NodeInv M a u r) (peer : Endpoint) (source : Node) (hsource : source.uuid ∈ M)
    (hne : source.uuid ≠ u) (req : NotifyRequest) (hreq : source_of req.header = some source)
    (hold : ∀ n ∈ req.old_node, n.uuid ∈ M) (hnew : ∀ n ∈ req.new_node, n.uuid ∈ M) :
    ∃ res, Service.notify r peer req = .ok res ∧ res.status = .OK ∧
      res.router = (Service.notify_records peer source req).foldl Router.update r ∧
      NodeInv M a u res.router := by
  obtain ⟨c, hc⟩ := changed_predecessor_inv h source
  have hself : source ≠ r.context := fun heq => hne (by rw [heq, h.own])
  refine ⟨⟨.OK, (Service.notify_records peer source req).foldl Router.update r,
    if c then some (r.predecessor.getD r.context, source) else none⟩, ?_, rfl, rfl, ?_⟩
  · simp only [Service.notify, hreq, if_neg hself, hc]
    rfl
  · obtain ⟨hfirst, hp⟩ := h.update hM hu hsource (Or.inl hne)
    have hrecords : ∃ ns : List Node, Service.notify_records peer source req = source :: ns ∧
        ∀ n ∈ ns, n.uuid ∈ M := by
      unfold Service.notify_records
      split
      · rename_i o n ho hn
        refine ⟨[make_node peer o, make_node peer n], rfl, ?_⟩
        intro m hm
        rcases List.mem_cons.mp hm with rfl | hm
        · rw [make_node_uuid]; exact hold o ho
        · rw [List.mem_singleton.mp hm, make_node_uuid]; exact hnew n hn
      · exact ⟨[], rfl, by simp⟩
    obtain ⟨ns, hns, hmem⟩ := hrecords
    rw [hns]
    exact hfirst.updates hM hu hmem hp

/-- The calls that a member makes reach another member. -/
theorem notify_successor_inv {M : Set Uuid} {a u : Uuid} (hu : u ∈ M) {r : Router} (h : NodeInv M a u r) :
    ∀ y ∈ Activity.notify_successor r, ActInv M a y ∧ y.joiner = none := by
  intro y hy
  unfold Activity.notify_successor at hy
  split at hy
  · cases hy
  · rename_i s hs
    obtain ⟨hsM, hsu⟩ := h.successor hs
    split at hy
    · cases hy
    · rw [List.mem_singleton.mp hy]
      refine ⟨⟨by rwa [h.own], hsM, by rw [h.own]; exact hsu.symm, rfl, ?_, ?_, trivial⟩, rfl⟩ <;>
        intro n hn <;> cases hn

theorem join_targets_inv {M : Set Uuid} {a u : Uuid} {r : Router} (h : NodeInv M a u r) {p s : Node}
    (ht : (ChordFacade.join_targets r).toOption = some (p, s)) :
    p.uuid ∈ M ∧ p.uuid ≠ u ∧ s.uuid ∈ M ∧ s.uuid ≠ u := by
  unfold ChordFacade.join_targets at ht
  cases hp : r.predecessor with
  | none => simp [hp, Except.toOption] at ht
  | some q =>
    cases hs : r.successor with
    | none => simp [hp, hs, Except.toOption] at ht
    | some t =>
      simp only [hp, hs, deref_some, ok_bind, Except.toOption, Option.some.injEq, Prod.mk.injEq] at ht
      obtain ⟨rfl, rfl⟩ := ht
      obtain ⟨hpM, hpu⟩ := h.predecessor q hp
      obtain ⟨hsM, hsu⟩ := h.successor hs
      exact ⟨hpM, hpu, hsM, hsu⟩

/-- The notify calls of a handshake. -/
theorem notify_change_inv {M : Set Uuid} {a u : Uuid} {r : Router} (hu : u ∈ M) (hown : r.context.uuid = u)
    {target other : Node} (ht : target.uuid ∈ M) (htu : target.uuid ≠ u) (ho : other.uuid ∈ M)
    {sender : NotifyFrom} (hsender : match sender with
      | .join_predecessor => r.context.uuid ≠ a
      | .join_successor status_pred => status_pred = .OK
      | .stabilize => True) :
    ActInv M a (.notify r.context target (Client.notify_change r.context other r.context) sender) := by
  refine ⟨by rwa [hown], ht, by rw [hown]; exact htu.symm, rfl, ?_, ?_, hsender⟩
  · rintro n ⟨⟩; exact ho
  · rintro n ⟨⟩; rwa [hown]

theorem step_inv {peer : Node → Endpoint} {a : Uuid} {S : Set Uuid} (hS : Spaced S) {net net' : Network}
    (hnet : NetInv a net) (ha : a ∈ net.members) (hsub : net.members ⊆ S) {x : Activity}
    (hx : ActInv net.members a x) (hjoiner : ∀ j ∈ x.joiner, j ∈ S ∧ j ∉ net.members) {next : List Activity}
    (h : x.step peer net = some (net', next)) : StepInv a net net' x next := by
  have hM : Spaced net.members := fun u hu v hv => hS u (hsub hu) v (hsub hv)
  have hmem : ∀ {u : Uuid} {r : Router}, net u = some r → u ∈ net.members :=
    fun hr => Network.mem_members.mpr ⟨_, hr⟩
  cases x with
  | join_request j target =>
    obtain ⟨hjS, hj⟩ := hjoiner j.uuid rfl
    simp only [Activity.step, Option.bind_eq_bind, Option.bind_eq_some_iff] at h
    obtain ⟨r, hr, h⟩ := h
    have hnode := hnet _ _ hr
    rcases service_join_inv (hmem hr) hnode hj with ⟨s, p, hjoin, hs, hp, hsa, hap⟩ | hjoin
    · simp only [hjoin, Option.some.injEq, Prod.mk.injEq] at h
      obtain ⟨rfl, rfl⟩ := h
      refine ⟨hnet, Or.inl ⟨rfl, List.Sublist.refl _⟩, ?_⟩
      intro y hy
      rw [List.mem_singleton.mp hy]
      exact ⟨hs, hp, hsa, hap⟩
    · simp only [hjoin, Option.bind_eq_some_iff, Option.some.injEq, Prod.mk.injEq] at h
      obtain ⟨n, hn, rfl, rfl⟩ := h
      refine ⟨hnet, Or.inl ⟨rfl, List.Sublist.refl _⟩, ?_⟩
      intro y hy
      rw [List.mem_singleton.mp hy]
      have hmem' := List.mem_of_mem_head? hn
      rw [closest_preceding_nodes_eq, List.mem_append, List.mem_singleton] at hmem'
      rcases hmem' with hpre | rfl
      · exact hnode.nodes n (mem_preceding.mp hpre).1
      · show r.context.uuid ∈ net.members
        rw [hnode.own]
        exact hmem hr
  | join_response j s p =>
    obtain ⟨hjS, hj⟩ := hjoiner j.uuid rfl
    obtain ⟨hs, hp, hsa, hap⟩ := hx
    simp only [Activity.step, Option.some.injEq, Prod.mk.injEq] at h
    obtain ⟨rfl, rfl⟩ := h
    have hsub' : insert j.uuid net.members ⊆ S := Set.insert_subset hjS hsub
    have hM' : Spaced (insert j.uuid net.members) := fun u hu v hv => hS u (hsub' hu) v (hsub' hv)
    have hnew := NodeInv.joined hM' (Set.mem_insert _ _) (Set.mem_insert_of_mem _ hs)
      (Set.mem_insert_of_mem _ hp) (fun heq => hj (heq ▸ hs)) (fun heq => hj (heq ▸ hp)) hsa hap
    refine ⟨?_, Or.inr ⟨j.uuid, rfl, Network.members_update _ _ _, rfl⟩, ?_⟩
    · intro v r hv
      rw [Network.members_update]
      by_cases hvj : v = j.uuid
      · rw [hvj, Function.update_self, Option.some.injEq] at hv
        rw [hvj, ← hv]
        exact hnew
      · rw [Function.update_of_ne hvj] at hv
        exact (hnet v r hv).mono (Set.subset_insert _ _)
    · intro y hy
      rw [List.mem_singleton.mp hy, Network.members_update]
      exact ⟨Set.mem_insert _ _, fun heq => hj (heq ▸ ha)⟩
  | call_predecessor u =>
    obtain ⟨hu, hua⟩ := hx
    simp only [Activity.step, Option.bind_eq_bind, Option.bind_eq_some_iff, Option.some.injEq,
      Prod.mk.injEq] at h
    obtain ⟨r, hr, ⟨p, s⟩, ht, rfl, rfl⟩ := h
    have hnode := hnet _ _ hr
    obtain ⟨hpM, hpu, hsM, -⟩ := join_targets_inv hnode ht
    apply stepInv_same hnet
    · intro y hy
      rw [List.mem_singleton.mp hy]
      exact notify_change_inv hu hnode.own hpM hpu hsM (by rw [hnode.own]; exact hua)
    · intro y hy
      rw [List.mem_singleton.mp hy]
      rfl
  | call_successor u status_pred =>
    obtain ⟨hu, hua, hst⟩ := hx
    simp only [Activity.step, Option.bind_eq_bind, Option.bind_eq_some_iff, Option.some.injEq,
      Prod.mk.injEq] at h
    obtain ⟨r, hr, ⟨p, s⟩, ht, rfl, rfl⟩ := h
    have hnode := hnet _ _ hr
    obtain ⟨hpM, -, hsM, hsu⟩ := join_targets_inv hnode ht
    apply stepInv_same hnet
    · intro y hy
      rw [List.mem_singleton.mp hy]
      exact notify_change_inv hu hnode.own hsM hsu hpM hst
    · intro y hy
      rw [List.mem_singleton.mp hy]
      rfl
  | join_done u status_pred status_succ =>
    obtain ⟨hu, rfl, rfl⟩ := hx
    simp only [Activity.step, Option.bind_eq_bind, Option.bind_eq_some_iff, Option.some.injEq,
      Prod.mk.injEq] at h
    obtain ⟨r, hr, rfl, rfl⟩ := h
    apply stepInv_update hnet hu
    · rw [ChordFacade.joined_or_reset, if_pos ⟨rfl, rfl⟩]
      exact hnet _ _ hr
    · intro y hy; cases hy
    · intro y hy; cases hy
  | stabilize u asked =>
    obtain ⟨hu, hasked⟩ := hx
    simp only [Activity.step, Option.bind_eq_bind, Option.bind_eq_some_iff, Option.some.injEq,
      Prod.mk.injEq] at h
    obtain ⟨r, hr, rfl, rfl⟩ := h
    apply stepInv_same hnet
    · intro y hy
      rw [List.mem_singleton.mp hy]
      exact ⟨hu, fun p hp => ((hnet _ _ hr).predecessor p hp).1⟩
    · intro y hy
      rw [List.mem_singleton.mp hy]
      rfl
  | stabilize_response u asked pred =>
    obtain ⟨hu, hpred⟩ := hx
    simp only [Activity.step, Option.bind_eq_bind, Option.bind_eq_some_iff, Option.some.injEq,
      Prod.mk.injEq] at h
    obtain ⟨r, hr, rfl, rfl⟩ := h
    have hnode := hnet _ _ hr
    apply stepInv_update hnet hu
    · cases pred with
      | none => exact hnode
      | some p =>
        rw [Client.stabilize_reply]
        split
        · rename_i hb
          rw [hnode.own] at hb
          refine (hnode.update hM hu (hpred p rfl) (Or.inl ?_)).1
          intro heq
          rw [heq] at hb
          exact not_between_left _ _ hb
        · exact hnode
    · intro y hy
      rw [List.mem_singleton.mp hy]
      exact hu
    · intro y hy
      rw [List.mem_singleton.mp hy]
      rfl
  | call_notify u =>
    simp only [Activity.step, Option.bind_eq_bind, Option.bind_eq_some_iff, Option.some.injEq,
      Prod.mk.injEq] at h
    obtain ⟨r, hr, rfl, rfl⟩ := h
    have hcalls := notify_successor_inv hx (hnet _ _ hr)
    exact stepInv_same hnet (fun y hy => (hcalls y hy).1) (fun y hy => (hcalls y hy).2)
  | notify source target req sender =>
    obtain ⟨hsource, htarget, hne, hreq, hold, hnew, hsender⟩ := hx
    simp only [Activity.step, Option.bind_eq_bind, Option.bind_eq_some_iff, Option.some.injEq,
      Prod.mk.injEq] at h
    obtain ⟨r, hr, res, hres, rfl, rfl⟩ := h
    obtain ⟨res', hres', hok, -, hnode⟩ :=
      service_notify_inv hM htarget (hnet _ _ hr) (peer source) source hsource hne
      req hreq hold hnew
    rw [hres'] at hres
    obtain rfl : res' = res := Option.some.inj hres
    apply stepInv_update hnet htarget hnode
    · intro y hy
      rw [hok] at hy
      cases sender with
      | join_predecessor =>
        rw [List.mem_singleton.mp hy]
        exact ⟨hsource, hsender, rfl⟩
      | join_successor status_pred =>
        rw [List.mem_singleton.mp hy]
        exact ⟨hsource, hsender, rfl⟩
      | stabilize => cases hy
    · intro y hy
      cases sender with
      | join_predecessor => rw [List.mem_singleton.mp hy]; rfl
      | join_successor status_pred => rw [List.mem_singleton.mp hy]; rfl
      | stabilize => cases hy

end Chord
