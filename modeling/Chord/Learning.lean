import Chord.Fingers
import Chord.Join

/-!
# A network that learns its own members

On an exact ring a lookup, a stabilize round or a repaired finger leaves nothing behind but
updates with records of members. Neighbours and fingers that are right stay right.
-/

open Circle Nearest

namespace Chord

open Router

namespace Network

/-! ## One update with a member -/

/-- A node hears of a member. -/
def Learn (net net' : Network) : Prop :=
  ∃ u r n, net u = some r ∧ net.Member n ∧ net' = Function.update net u (some (r.update n))

abbrev Learns : Network → Network → Prop := Relation.ReflTransGen Learn

theorem learns_update {net : Network} {u : Uuid} {r : Router} (hr : net u = some r) {n : Node}
    (hn : net.Member n) : Learns net (Function.update net u (some (r.update n))) :=
  Relation.ReflTransGen.single ⟨u, r, n, hr, hn, rfl⟩

theorem Learn.sameNodes {net net' : Network} (h : Learn net net') : SameNodes net net' := by
  obtain ⟨u, r, n, hr, -, rfl⟩ := h
  exact sameNodes_update hr (update_context r n)

theorem Learns.sameNodes {net net' : Network} (h : Learns net net') : SameNodes net net' := by
  induction h with
  | refl => exact SameNodes.refl net
  | tail _ hstep ih => exact ih.trans hstep.sameNodes

/-- The router of a node after one update somewhere in the network. -/
theorem update_cases {net : Network} {u v : Uuid} {r r' : Router} {n : Node}
    (hv : Function.update net u (some (r.update n)) v = some r') :
    (v = u ∧ r' = r.update n) ∨ net v = some r' := by
  by_cases hvu : v = u
  · rw [hvu, Function.update_self, Option.some.injEq] at hv
    left; exact ⟨hvu, hv.symm⟩
  · rw [Function.update_of_ne hvu] at hv
    right; exact hv

theorem SameNodes.isPredecessor {net net' : Network} (h : SameNodes net net') {u : Uuid} {o : Option Node}
    (ho : IsPredecessor net u o) : IsPredecessor net' u o := by
  cases o with
  | none => rw [IsPredecessor, h.members_eq]; exact ho
  | some s => rw [IsPredecessor, h.members_eq, h.member]; exact ho

theorem Member.eq_context {net : Network} {u : Uuid} {r : Router} (hr : net u = some r) {n : Node}
    (hn : net.Member n) (heq : n.uuid = u) : n = r.context := by
  obtain ⟨r', hr', hc⟩ := hn
  rw [heq, hr, Option.some.injEq] at hr'
  rw [← hc, hr']

/-- A member is no further than the predecessor. -/
theorem predecessor_update_member {net : Network} (h : ExactRing net) {u : Uuid} {r : Router}
    (hr : net u = some r) {n : Node} (hn : net.Member n) : (r.update n).predecessor = r.predecessor := by
  have hown := h.own u r hr
  have hpred := h.predecessor u r hr
  by_cases hself : n = r.context
  · rw [Router.update, if_pos hself]
  · have hne : n.uuid ≠ u := fun heq => hself (Member.eq_context hr hn heq)
    cases hp : r.predecessor with
    | none =>
      rw [hp] at hpred
      exact absurd (hpred _ hn.mem) hne
    | some p =>
      rw [hp] at hpred
      apply predecessor_update_neg hp
      · rw [hown]; exact hpred.2.ne
      · intro hF
        have hlt := hF p hp
        have hge := hpred.2.ge _ hn.mem hne
        rw [hown] at hlt
        omega

theorem ExactRing.update {net : Network} (h : ExactRing net) {u : Uuid} {r : Router} (hr : net u = some r)
    {n : Node} (hn : net.Member n) : ExactRing (Function.update net u (some (r.update n))) := by
  refine ⟨h.toRing.update hr hn, ?_⟩
  intro v r' hv
  apply (sameNodes_update hr (update_context r n)).isPredecessor
  rcases update_cases hv with ⟨rfl, rfl⟩ | hv
  · rw [predecessor_update_member h hr hn]; exact h.predecessor v r hr
  · exact h.predecessor v r' hv

theorem Learns.ring {net net' : Network} (hl : Learns net net') (h : Ring net) : Ring net' := by
  induction hl with
  | refl => exact h
  | tail _ hstep ih =>
    obtain ⟨u, r, n, hr, hn, rfl⟩ := hstep
    exact ih.update hr hn

theorem Learns.exact {net net' : Network} (hl : Learns net net') (h : ExactRing net) : ExactRing net' := by
  induction hl with
  | refl => exact h
  | tail _ hstep ih =>
    obtain ⟨u, r, n, hr, hn, rfl⟩ := hstep
    exact ih.update hr hn

/-- The tables hold records of members only. -/
def Known (net : Network) : Prop := ∀ u r, net u = some r → ∀ n ∈ r.nodes, net.Member n

theorem Learns.known {net net' : Network} (hl : Learns net net') (h : Known net) : Known net' := by
  induction hl with
  | refl => exact h
  | tail _ hstep ih =>
    have hsame := hstep.sameNodes
    obtain ⟨u, r, n, hr, hn, rfl⟩ := hstep
    intro v r' hv m hm
    rw [hsame.member]
    rcases update_cases hv with ⟨rfl, rfl⟩ | hv
    · rcases mem_nodes_update hm with rfl | hm
      · exact hn
      · exact ih v r hr m hm
    · exact ih v r' hv m hm

/-! ## Fingers -/

/-- What an entry of the node `u` with this start has to hold. -/
def IsFinger (net : Network) (u start : Uuid) : Option Node → Prop
  | none => ∀ v ∈ net.members, ¬ between start v u
  | some n => net.Member n ∧ between start n.uuid u ∧
      ∀ v ∈ net.members, between start v u → steps u n.uuid ≤ steps u v

theorem SameNodes.isFinger {net net' : Network} (h : SameNodes net net') {u start : Uuid} {o : Option Node}
    (ho : IsFinger net u start o) : IsFinger net' u start o := by
  cases o with
  | none => rw [IsFinger, h.members_eq]; exact ho
  | some s => rw [IsFinger, h.members_eq, h.member]; exact ho

theorem isFinger_iff {net : Network} {u start : Uuid} (hne : start ≠ u) {o : Option Node} :
    IsFinger net u start o ↔ (∀ n ∈ o, net.Member n) ∧
      IsNext (steps u '' net.members) (steps u start) (o.map fun n => steps u n.uuid) := by
  cases o with
  | none =>
    simp only [IsFinger, between_to hne, not_lt, Option.map_none, IsNext, Set.forall_mem_image]
    simp
  | some n =>
    simp only [IsFinger, between_to hne, Option.map_some, IsNext, Option.mem_def, Option.some.injEq,
      forall_eq']
    constructor
    · rintro ⟨hn, hlt, hmin⟩
      refine ⟨hn, ⟨⟨_, hn.mem, rfl⟩, hlt⟩, ?_⟩
      rintro _ ⟨⟨v, hv, rfl⟩, hlt'⟩
      exact hmin v hv hlt'
    · rintro ⟨hn, ⟨-, hlt⟩, hmin⟩
      exact ⟨hn, hlt, fun v hv hlt' => hmin ⟨⟨v, hv, rfl⟩, hlt'⟩⟩

/-- The entry of the node `u` at `i` is right. -/
def FingerAt (net : Network) (u : Uuid) (i : Fin BITS) : Prop :=
  ∀ r, net u = some r → IsFinger net u (r.entry i).uuid (r.entry i).node

theorem update_uuid (r : Router) (n : Node) (i : Fin BITS) :
    ((r.update n).entry i).uuid = (r.entry i).uuid := by
  rw [entry_uuid, entry_uuid, update_context]

theorem start_ne {net : Network} (h : Ring net) {u : Uuid} {r : Router} (hr : net u = some r) (i : Fin BITS) :
    (r.entry i).uuid ≠ u := by
  have := start_ne_self r i
  rwa [h.own u r hr] at this

/-- Another member is not nearer than the one that is there. -/
theorem finger_update_member {net : Network} (h : Ring net) {u : Uuid} {r : Router} (hr : net u = some r)
    {n : Node} (hn : net.Member n) {i : Fin BITS} (hf : IsFinger net u (r.entry i).uuid (r.entry i).node) :
    (r.update n).entry i = r.entry i := by
  by_cases hself : n = r.context
  · rw [Router.update, if_pos hself]
  · rw [entry_update hself, update_entry, if_neg]
    intro hreplace
    obtain ⟨hlt, hnear⟩ := (replaces_iff (h.wf u r hr) n (r.entry_mem i)).mp hreplace
    simp only [slot, h.own u r hr] at hlt hnear
    have hb := (between_to (start_ne h hr i)).mpr hlt
    cases he : (r.entry i).node with
    | none =>
      rw [he] at hf
      exact hf _ hn.mem hb
    | some m =>
      rw [he] at hf hnear
      have hle := hf.2.2 _ hn.mem hb
      have hlt' : steps u n.uuid < steps u m.uuid := hnear _ rfl
      omega

theorem Learns.fingerAt {net net' : Network} (hl : Learns net net') (h : Ring net) {u : Uuid} {i : Fin BITS}
    (hf : FingerAt net u i) : FingerAt net' u i := by
  induction hl with
  | refl => exact hf
  | tail hl hstep ih =>
    have hring := Learns.ring hl h
    have hsame := hstep.sameNodes
    obtain ⟨v, r, n, hr, hn, rfl⟩ := hstep
    intro r' hr'
    apply hsame.isFinger
    rcases update_cases hr' with ⟨rfl, rfl⟩ | hr'
    · rw [finger_update_member hring hr hn (ih r hr)]
      exact ih r hr
    · exact ih r' hr'

/-- Every node has its neighbours, and every entry is right. -/
structure FullRing (net : Network) : Prop extends ExactRing net where
  known : Known net
  finger : ∀ u i, FingerAt net u i

theorem Learns.full {net net' : Network} (hl : Learns net net') (h : FullRing net) : FullRing net' :=
  ⟨hl.exact h.toExactRing, hl.known h.known, fun u i => hl.fingerAt h.toRing (h.finger u i)⟩

/-! ## What a lookup leaves behind -/

theorem first_ok_learns {α : Type} {call : Node → Call (Option α)} {net net' : Network} (h : Ring net)
    {l : List Node} {o : Option α}
    (hcall : ∀ n ∈ l, ∀ net₁, Learns net net₁ → ∀ o net₂, call n net₁ = .ok (o, net₂) → Learns net₁ net₂)
    (hok : Client.first_ok call l net = .ok (o, net')) : Learns net net' := by
  induction l generalizing net with
  | nil =>
    simp only [Client.first_ok, pure_call, Except.ok.injEq, Prod.mk.injEq] at hok
    rw [← hok.2]
  | cons n l ih =>
    simp only [Client.first_ok, bind, StateT.bind, Except.bind] at hok
    cases hn : call n net with
    | error e => simp [hn] at hok
    | ok res =>
      obtain ⟨a, net₁⟩ := res
      have hl₁ := hcall n List.mem_cons_self net Relation.ReflTransGen.refl a net₁ hn
      cases a with
      | some a =>
        simp only [hn, pure_call, Except.ok.injEq, Prod.mk.injEq] at hok
        rw [← hok.2]
        exact hl₁
      | none =>
        simp only [hn] at hok
        refine hl₁.trans (ih (hl₁.ring h) ?_ hok)
        intro m hm net₂ hl₂
        exact hcall m (List.mem_cons_of_mem n hm) net₂ (hl₁.trans hl₂)

theorem service_successor_member {net : Network} (h : Ring net) {u : Uuid} {r : Router} (hr : net u = some r)
    {source : Node} (hsource : net.Member source) (id : Uuid) (fuel : Nat) :
    Service.successor net.ping (fuel + 1) r ⟨some (make_header source), id⟩ =
      some (r.update source, if id = u ∨ between u id (r.update source).successor_or_self.uuid
        then .answer (r.update source).successor_or_self else .forward) := by
  have hlearn := learns_update hr hsource
  have hping : ∀ n, Member (Function.update net u (some (r.update source))) n → net.ping n :=
    fun n hn => ((hlearn.sameNodes.member n).mp hn).mem
  have hloop := live_loop_ring (h.update hr hsource) (Function.update_self _ _ _) hping fuel
  simp only [Service.successor, source_of_make_header, hloop, Option.map_some, update_context, h.own u r hr]
  split <;> rfl

/-- Every node on the way learns the one that asks it. -/
theorem successor_learns {fuel : Nat} {net net' : Network} (h : Ring net) {target source : Node}
    (hsource : net.Member source) {id : Uuid} {o : Option Node}
    (hok : successor fuel target ⟨some (make_header source), id⟩ net = .ok (o, net')) : Learns net net' := by
  induction fuel generalizing net net' target source o with
  | zero => simp [successor] at hok
  | succ fuel ih =>
    rw [successor] at hok
    cases hr : net target.uuid with
    | none =>
      simp only [hr, Except.ok.injEq, Prod.mk.injEq] at hok
      rw [← hok.2]
    | some r =>
      cases fuel with
      | zero => simp [hr, Service.successor, Service.live_loop] at hok
      | succ k =>
        have hlearn := learns_update hr hsource
        have hring := hlearn.ring h
        have hself := hring.member_context (Function.update_self _ _ _)
        simp only [hr, service_successor_member h hr hsource] at hok
        by_cases hanswer : id = target.uuid ∨
            between target.uuid id (r.update source).successor_or_self.uuid
        · simp only [if_pos hanswer, Except.ok.injEq, Prod.mk.injEq] at hok
          rw [← hok.2]
          exact hlearn
        · simp only [if_neg hanswer] at hok
          refine hlearn.trans (first_ok_learns hring ?_ hok)
          intro n _ net₁ hl₁ o₁ net₂ hcall
          exact ih (hl₁.ring hring) ((hl₁.sameNodes.member _).mpr hself) hcall

end Network

end Chord
