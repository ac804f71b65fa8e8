import Chord.Lookup
import Chord.Neighbours

/-! # A join into an exact ring -/

open Circle

namespace Chord

open Router

namespace Network

/-! ## Exact rings -/

/-- What `predecessor()` of the node `u` has to return. -/
def IsPredecessor (net : Network) (u : Uuid) : Option Node → Prop
  | none => ∀ v ∈ net.members, v = u
  | some p => net.Member p ∧ Prev net.members u p.uuid

structure ExactRing (net : Network) : Prop extends Ring net where
  predecessor : ∀ u r, net u = some r → IsPredecessor net u r.predecessor

/-- Neighbours in the ring. A single node is its own neighbour. -/
structure Adjacent (net : Network) (p s : Node) : Prop where
  left : net.Member p
  right : net.Member s
  next : Next net.members p.uuid s.uuid ∨ (p = s ∧ ∀ v ∈ net.members, v = p.uuid)

/-- A node with a predecessor has a successor, and the other way round. -/
theorem ExactRing.successor_none_iff {net : Network} (h : ExactRing net) {u : Uuid} {r : Router}
    (hr : net u = some r) : r.successor = none ↔ r.predecessor = none := by
  have hsucc := h.successor u r hr
  have hpred := h.predecessor u r hr
  constructor
  · intro hs
    rw [hs] at hsucc
    cases hp : r.predecessor with
    | none => rfl
    | some p =>
      rw [hp] at hpred
      exact absurd (hsucc _ hpred.1.mem) hpred.2.ne
  · exact successor_none_of_predecessor (h.wf u r hr)

/-! ## The answer of a member -/

theorem service_join_exact {net : Network} (h : ExactRing net) {u : Uuid} {r : Router} (hr : net u = some r)
    {j : Node} (hj : j.uuid ∉ net.members) :
    (∃ s p, Service.join r ⟨some (make_header j)⟩ = .ok (.answer s p) ∧ Adjacent net p s ∧
      between p.uuid j.uuid s.uuid) ∨
    (Service.join r ⟨some (make_header j)⟩ = .ok .forward ∧
      ¬ between u j.uuid r.successor_or_self.uuid) := by
  have hown := h.own u r hr
  have hself := h.member_context hr
  have hsucc := h.successor u r hr
  have hpred := h.predecessor u r hr
  have hju : j.uuid ≠ u := by
    intro heq
    exact hj (heq ▸ mem_members.mpr ⟨r, hr⟩)
  simp only [Service.join, source_of_make_header, hown]
  cases hp : r.predecessor with
  | none =>
    left
    rw [hp] at hpred
    have hs := (h.successor_none_iff hr).mpr hp
    have hb : between u j.uuid r.successor_or_self.uuid := by
      rw [successor_or_self, hs, Option.getD_none, hown, between_self]
      exact hju
    refine ⟨r.successor_or_self, r.context, by simp [hb], ⟨hself, ?_, ?_⟩, by rwa [hown]⟩
    · rw [successor_or_self, hs]; exact hself
    · right
      rw [successor_or_self, hs, hown]
      exact ⟨rfl, hpred⟩
  | some p =>
    rw [hp] at hpred
    obtain ⟨s, hs⟩ : ∃ s, r.successor = some s := by
      rw [← Option.isSome_iff_exists, ← Option.ne_none_iff_isSome, ne_eq, h.successor_none_iff hr, hp]
      simp
    rw [hs] at hsucc
    have hor : r.successor_or_self = s := by rw [successor_or_self, hs, Option.getD_some]
    simp only [hor]
    by_cases hb : between u j.uuid s.uuid
    · left
      exact ⟨s, r.context, by simp [hb], ⟨hself, hsucc.1, Or.inl (by rw [hown]; exact hsucc.2)⟩, by rwa [hown]⟩
    · by_cases hb' : between p.uuid j.uuid u
      · left
        refine ⟨r.context, p, by simp [hb, hb'], ⟨hpred.1, hself, Or.inl ?_⟩, by rwa [hown]⟩
        rw [next_iff_prev hpred.1.mem hself.mem, hown]
        exact hpred.2
      · right
        exact ⟨by simp [hb, hb'], hb⟩

/-- By induction on the distance to the joiner, as for a lookup. The network stays as it is. -/
theorem join_found {fuel : Nat} {net : Network} (h : ExactRing net) {target : Node}
    (htarget : target.uuid ∈ net.members) {j : Node} (hj : j.uuid ∉ net.members)
    (hfuel : steps target.uuid j.uuid < fuel) :
    ∃ s p, join fuel target ⟨some (make_header j)⟩ net = .ok (some (s, p), net) ∧ Adjacent net p s ∧
      between p.uuid j.uuid s.uuid := by
  induction fuel generalizing target with
  | zero => omega
  | succ fuel ih =>
    obtain ⟨r, hr⟩ := mem_members.mp htarget
    rw [join]
    simp only [hr]
    rcases service_join_exact h hr hj with ⟨s, p, hjoin, hadj, hb⟩ | ⟨hjoin, hb⟩
    · simp only [hjoin]
      exact ⟨s, p, rfl, hadj, hb⟩
    · simp only [hjoin, source_of_make_header, Option.elim_some, closest_preceding_nodes_eq]
      have hown := h.own _ _ hr
      have hcand : ∀ n ∈ preceding r j.uuid, n.uuid ∈ net.members →
          ∃ s p, join fuel n ⟨some (make_header j)⟩ net = .ok (some (s, p), net) ∧ Adjacent net p s ∧
            between p.uuid j.uuid s.uuid := by
        intro n hn hmem
        apply ih hmem
        have hbn := (mem_preceding.mp hn).2
        rw [hown] at hbn
        have hne : target.uuid ≠ j.uuid := fun heq => hj (heq ▸ htarget)
        rw [between_from hne] at hbn
        rw [steps_shift target.uuid n.uuid j.uuid, if_pos (le_of_lt hbn.2)]
        omega
      obtain ⟨n, hn, hmem⟩ := successor_candidate h.toRing hr hj hb
      obtain ⟨⟨s, p⟩, net', hcall, rfl, hgood⟩ := first_ok_append
        (fun n => join fuel n ⟨some (make_header j)⟩)
        (fun a net' => net' = net ∧ Adjacent net a.2 a.1 ∧ between a.2.uuid j.uuid a.1.uuid) [r.context]
        (by
          intro n hn
          by_cases hmem : n.uuid ∈ net.members
          · right
            obtain ⟨s, p, hcall, hgood⟩ := hcand n hn hmem
            exact ⟨(s, p), net, hcall, rfl, hgood⟩
          · left
            obtain ⟨k, rfl⟩ : ∃ k, fuel = k + 1 := by
              cases fuel with
              | zero =>
                have hpos := steps_pos.mpr (fun heq => hj (heq ▸ htarget) : target.uuid ≠ j.uuid)
                omega
              | succ k => exact ⟨k, rfl⟩
            have hnone : net n.uuid = none := by simpa [members] using hmem
            rw [join]
            simp only [hnone])
        (by
          obtain ⟨s, p, hcall, -⟩ := hcand n hn hmem.mem
          refine ⟨n, hn, ?_⟩
          rw [hcall]
          simp)
      exact ⟨s, p, hcall, hgood⟩

/-! ## A member hears of the joiner -/

/-- The neighbours of a member that heard of `j`: the joiner where it is nearer, nothing else new. -/
structure Told (j : Node) (r r' : Router) : Prop where
  context : r'.context = r.context
  wf : r'.table.WF
  successor_pos : Nearer r j → r'.successor = some j
  successor_neg : ¬ Nearer r j → r'.successor = r.successor
  predecessor_pos : Further r j → r'.predecessor = some j
  predecessor_neg : ¬ Further r j → r'.predecessor = r.predecessor

theorem told_joiner {net : Network} (h : ExactRing net) {u : Uuid} {r : Router} (hr : net u = some r)
    {j : Node} (hj : j.uuid ∉ net.members) : Told j r (r.update j) := by
  have hw := h.wf u r hr
  have hpred := h.predecessor u r hr
  refine ⟨update_context _ _, update_wf hw j, successor_update_pos hw, successor_update_neg hw, ?_, ?_⟩
  · intro hf
    apply predecessor_update_pos _ hf
    rintro rfl
    exact hj (h.member_context hr).mem
  · intro hf
    obtain ⟨p, hp, -⟩ := not_further hf
    rw [hp] at hpred ⊢
    apply predecessor_update_neg hp _ hf
    rw [h.own u r hr]
    exact hpred.2.ne

/-- Members, and the joiner itself, are news no more, at whatever endpoint. -/
theorem told_update {net : Network} (h : ExactRing net) {u : Uuid} {r r' : Router} (hr : net u = some r)
    {j : Node} (hj : j.uuid ∉ net.members) (ht : Told j r r') {a : Node}
    (ha : a.uuid ∈ net.members ∨ a.uuid = j.uuid) : Told j r (r'.update a) := by
  have hown := h.own u r hr
  have hsucc := h.successor u r hr
  have hpred := h.predecessor u r hr
  have hju : j.uuid ≠ u := by
    intro heq
    exact hj (heq ▸ mem_members.mpr ⟨r, hr⟩)
  have hself : r'.context.uuid = u := by rw [ht.context, hown]
  have hnear : ¬ Nearer r' a := by
    intro hn
    have hau : a.uuid ≠ u := fun heq => not_nearer_self (heq.trans hself.symm) hn
    obtain ⟨hfinger, hlt⟩ := hn
    rw [hself] at hfinger hlt
    by_cases hN : Nearer r j
    · have hltj := hlt j (ht.successor_pos hN)
      rcases ha with ha | ha
      · cases hs : r.successor with
        | none => rw [hs] at hsucc; exact hau (hsucc _ ha)
        | some s =>
          rw [hs] at hsucc
          have hle := hsucc.2.le _ ha hau
          have hjs := hN.2 s hs
          rw [hown] at hjs
          omega
      · rw [ha] at hltj
        omega
    · rw [ht.successor_neg hN] at hlt
      rcases ha with ha | ha
      · cases hs : r.successor with
        | none => rw [hs] at hsucc; exact hau (hsucc _ ha)
        | some s =>
          rw [hs] at hsucc
          have hle := hsucc.2.le _ ha hau
          have hltas := hlt s hs
          omega
      · apply hN
        refine ⟨?_, fun s hs => ?_⟩
        · rw [hown, Fingerable, ← ha]; exact hfinger
        · rw [hown, ← ha]; exact hlt s hs
  obtain ⟨q, hq, hqu, hfar⟩ : ∃ q, r'.predecessor = some q ∧ q.uuid ≠ u ∧
      steps u a.uuid ≤ steps u q.uuid := by
    by_cases hF : Further r j
    · refine ⟨j, ht.predecessor_pos hF, hju, ?_⟩
      rcases ha with ha | ha
      · by_cases hau : a.uuid = u
        · rw [hau, steps_self]; omega
        · cases hp : r.predecessor with
          | none => rw [hp] at hpred; exact absurd (hpred _ ha) hau
          | some p =>
            rw [hp] at hpred
            have hge := hpred.2.ge _ ha hau
            have hlt := hF p hp
            rw [hown] at hlt
            omega
      · rw [ha]
    · obtain ⟨p, hp, hle⟩ := not_further hF
      rw [hown] at hle
      rw [hp] at hpred
      refine ⟨p, (ht.predecessor_neg hF).trans hp, hpred.2.ne, ?_⟩
      rcases ha with ha | ha
      · by_cases hau : a.uuid = u
        · rw [hau, steps_self]; omega
        · exact hpred.2.ge _ ha hau
      · rw [ha]; exact hle
  have hpred' : (r'.update a).predecessor = r'.predecessor := by
    rw [hq]
    apply predecessor_update_neg hq (by rw [hself]; exact hqu)
    intro hfurther
    have := hfurther q hq
    rw [hself] at this
    omega
  have hsucc' : (r'.update a).successor = r'.successor := successor_update_neg ht.wf hnear
  refine ⟨(update_context _ _).trans ht.context, update_wf ht.wf a, ?_, ?_, ?_, ?_⟩
  · rw [hsucc']; exact ht.successor_pos
  · rw [hsucc']; exact ht.successor_neg
  · rw [hpred']; exact ht.predecessor_pos
  · rw [hpred']; exact ht.predecessor_neg

theorem notify_change_ok (peer : Endpoint) {r : Router} {j : Node} (a : Node) (hne : j ≠ r.context)
    (hsafe : r.predecessor = none ∨ r.predecessor = some j ∨ r.successor ≠ none) :
    ∃ event, Service.notify r peer (Client.notify_change j a j) =
      .ok ⟨.OK, ((r.update j).update (make_node peer a)).update (make_node peer j), event⟩ := by
  have hchanged : ∃ c, Service.changed_predecessor r j = .ok c := by
    cases hc : Service.changed_predecessor r j with
    | ok c => exact ⟨c, rfl⟩
    | error e =>
      obtain ⟨⟨p, hp, hpj⟩, hs⟩ := (changed_predecessor_fault r j).mp hc
      rw [Option.mem_def] at hp
      rw [hp] at hsafe
      rcases hsafe with h | h | h
      · simp at h
      · exact absurd (Option.some.inj h) hpj
      · exact absurd hs h
  obtain ⟨c, hc⟩ := hchanged
  refine ⟨if c then some (r.predecessor.getD r.context, j) else none, ?_⟩
  simp only [Service.notify, Client.notify_change, source_of_make_header, if_neg hne, hc]
  rfl

/-- A member that heard of the joiner once, or not yet, takes its notify. -/
theorem notify_told {net : Network} (h : ExactRing net) {u : Uuid} {r r' : Router} (hr : net u = some r)
    {j : Node} (hj : j.uuid ∉ net.members) (peer : Endpoint) {a : Node} (ha : a.uuid ∈ net.members)
    (ht : r' = r ∨ (Told j r r' ∧ r'.predecessor = some j)) :
    ∃ res, Service.notify r' peer (Client.notify_change j a j) = .ok res ∧ res.status = .OK ∧
      Told j r res.router := by
  have hju : j ≠ r.context := by
    rintro rfl
    exact hj (h.member_context hr).mem
  have hctx : r'.context = r.context := by
    rcases ht with rfl | ⟨ht, -⟩
    · rfl
    · exact ht.context
  have hsafe : r'.predecessor = none ∨ r'.predecessor = some j ∨ r'.successor ≠ none := by
    rcases ht with rfl | ⟨-, hp⟩
    · by_cases hp : r'.predecessor = none
      · left; exact hp
      · right; right
        rw [ne_eq, h.successor_none_iff hr]
        exact hp
    · right; left; exact hp
  have htold : Told j r (r'.update j) := by
    rcases ht with rfl | ⟨ht, -⟩
    · exact told_joiner h hr hj
    · exact told_update h hr hj ht (Or.inr rfl)
  obtain ⟨event, hres⟩ := notify_change_ok peer a (r := r') (hctx ▸ hju) hsafe
  refine ⟨_, hres, rfl, ?_⟩
  apply told_update h hr hj _ (Or.inr (make_node_uuid peer j))
  exact told_update h hr hj htold (Or.inl (by rw [make_node_uuid]; exact ha))

end Network

end Chord
