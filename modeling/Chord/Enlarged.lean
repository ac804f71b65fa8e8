import Chord.Join

/-! # The ring after a join -/

open Circle

namespace Chord

open Router

namespace Network

/-! ## Where the joiner is news -/

theorem Adjacent.pair_or_alone {net : Network} {p s : Node} (h : Adjacent net p s) :
    (Next net.members p.uuid s.uuid) ∨ (p = s ∧ net.members = {p.uuid}) := by
  rcases h.next with hnext | ⟨heq, hall⟩
  · left; exact hnext
  · right
    exact ⟨heq, Set.eq_singleton_iff_unique_mem.mpr ⟨h.left.mem, hall⟩⟩

/-- The arc of the joiner, seen from its predecessor. -/
theorem adjacent_lt {net : Network} {p s : Node} {j : Uuid} (hnext : Next net.members p.uuid s.uuid)
    (hb : between p.uuid j s.uuid) : 0 < steps p.uuid j ∧ steps p.uuid j < steps p.uuid s.uuid :=
  (between_from hnext.ne.symm).mp hb

/-- A node other than `p` keeps its successor. -/
theorem next_kept {net : Network} {p s : Node} {j : Uuid} (hadj : Adjacent net p s)
    (hb : between p.uuid j s.uuid) {u t : Uuid} (hu : u ∈ net.members) (hup : u ≠ p.uuid)
    (h : Next net.members u t) : Next (insert j net.members) u t := by
  rcases hadj.pair_or_alone with hnext | ⟨-, hone⟩
  · exact h.insert_other hadj.left.mem hnext ((between_iff_arc _ _ _).mp hb) hu hup
  · rw [hone] at hu
    exact absurd hu hup

/-- A node other than `s` keeps its predecessor. -/
theorem prev_kept {net : Network} {p s : Node} {j : Uuid} (hadj : Adjacent net p s)
    (hb : between p.uuid j s.uuid) {u q : Uuid} (hu : u ∈ net.members) (hus : u ≠ s.uuid)
    (h : Prev net.members u q) : Prev (insert j net.members) u q := by
  have hqu := (next_iff_prev h.mem hu).mpr h
  have hqp : q ≠ p.uuid := by
    rintro rfl
    rcases hadj.pair_or_alone with hnext | ⟨-, hone⟩
    · exact hus (hqu.unique hnext)
    · rw [hone] at hu
      exact hqu.ne hu
  rw [← next_iff_prev (Set.mem_insert_of_mem _ h.mem) (Set.mem_insert_of_mem _ hu)]
  exact next_kept hadj hb h.mem hqp hqu

theorem next_joiner {net : Network} {p s : Node} {j : Uuid} (hadj : Adjacent net p s) (hj : j ∉ net.members)
    (hb : between p.uuid j s.uuid) :
    Next (insert j net.members) p.uuid j ∧ Next (insert j net.members) j s.uuid := by
  rcases hadj.pair_or_alone with hnext | ⟨heq, hone⟩
  · exact ⟨hnext.insert_left ((between_iff_arc _ _ _).mp hb),
      hnext.insert_right ((between_iff_arc _ _ _).mp hb)⟩
  · rw [hone] at hj ⊢
    rw [← heq]
    exact ⟨next_pair hj, next_pair' hj⟩

theorem nearer_iff {net : Network} (h : ExactRing net) {p s : Node} {j : Node} (hadj : Adjacent net p s)
    (hb : between p.uuid j.uuid s.uuid) {u : Uuid} {r : Router} (hr : net u = some r) :
    Nearer r j ↔ Fingerable u j ∧ u = p.uuid := by
  have hown := h.own u r hr
  have hu := mem_members.mpr ⟨r, hr⟩
  have hsucc := h.successor u r hr
  rw [Nearer, hown]
  apply and_congr_right
  intro _
  cases hs : r.successor with
  | none =>
    rw [hs] at hsucc
    simp [(hsucc _ hadj.left.mem).symm]
  | some t =>
    rw [hs] at hsucc
    obtain ⟨-, ht⟩ := hsucc
    simp only [Option.mem_def, Option.some.injEq, forall_eq']
    constructor
    · intro hlt
      by_contra hup
      have := (next_kept hadj hb hu hup ht).le _ (Set.mem_insert _ _) (by
        intro heq
        rw [← heq, steps_self] at hlt
        rw [heq] at hb
        rcases hadj.pair_or_alone with hnext | ⟨-, hone⟩
        · have hle := hnext.le u hu hup
          have := (adjacent_lt hnext hb).2
          omega
        · rw [hone] at hu
          exact hup hu)
      omega
    · rintro rfl
      rcases hadj.pair_or_alone with hnext | ⟨-, hone⟩
      · rw [ht.unique hnext]
        exact (adjacent_lt hnext hb).2
      · have := ht.mem
        rw [hone] at this
        exact absurd this ht.ne

theorem further_iff {net : Network} (h : ExactRing net) {p s : Node} {j : Node} (hadj : Adjacent net p s)
    (hj : j.uuid ∉ net.members) (hb : between p.uuid j.uuid s.uuid) {u : Uuid} {r : Router}
    (hr : net u = some r) : Further r j ↔ u = s.uuid := by
  have hown := h.own u r hr
  have hu := mem_members.mpr ⟨r, hr⟩
  have hpred := h.predecessor u r hr
  have hju : j.uuid ≠ u := fun heq => hj (heq ▸ hu)
  rw [Further, hown]
  cases hp : r.predecessor with
  | none =>
    rw [hp] at hpred
    simp [(hpred _ hadj.right.mem).symm]
  | some q =>
    rw [hp] at hpred
    obtain ⟨-, hq⟩ := hpred
    simp only [Option.mem_def, Option.some.injEq, forall_eq']
    constructor
    · intro hlt
      by_contra hus
      have := (prev_kept hadj hb hu hus hq).ge _ (Set.mem_insert _ _) hju
      omega
    · rintro rfl
      have hnew := (next_iff_prev (Set.mem_insert _ _) (Set.mem_insert_of_mem _ hu)).mp
        (next_joiner hadj hj hb).2
      have hge := hnew.ge _ (Set.mem_insert_of_mem _ hq.mem) hq.ne
      have hne : steps s.uuid q.uuid ≠ steps s.uuid j.uuid := by
        rw [ne_eq, steps_inj]
        intro heq
        exact hj (heq ▸ hq.mem)
      omega

/-! ## Uuids that can join -/

/-- The exact successors are held by first entries, so no two uuids are consecutive. -/
theorem Ring.no_consecutive {net : Network} (h : Ring net) {u : Uuid} (hu : u ∈ net.members) :
    u + 1 ∉ net.members := by
  intro hnext
  obtain ⟨r, hr⟩ := mem_members.mp hu
  have hsucc := h.successor u r hr
  have hown := h.own u r hr
  have h1 : steps u (u + 1) = 1 := by rw [steps_add]; rfl
  have hne : u + 1 ≠ u := by
    intro heq
    rw [heq, steps_self] at h1
    omega
  cases hs : r.successor with
  | none => rw [hs] at hsucc; exact hne (hsucc _ hnext)
  | some t =>
    rw [hs] at hsucc
    have hle := hsucc.2.le _ hnext hne
    have hlt := first_start_lt (h.wf u r hr) (successor_mem hs)
    rw [hown] at hlt
    have hpos := r.entry_start_pos ⟨0, by decide⟩
    rw [hown] at hpos
    omega

/-- No node is next to the joiner, and neither is one across the start that the modulus moves:
from the last uuid but one to 0. -/
structure Joinable (net : Network) (j : Uuid) : Prop where
  next_free : j + 1 ∉ net.members
  before_zero : ¬(j = BitVec.allOnes 256 - 1 ∧ (0 : Uuid) ∈ net.members)
  at_zero : ¬(j = 0 ∧ BitVec.allOnes 256 - 1 ∈ net.members)

theorem joinable_iff {net : Network} (h : ExactRing net) {p s : Node} {j : Node} (hadj : Adjacent net p s)
    (hj : j.uuid ∉ net.members) (hb : between p.uuid j.uuid s.uuid) : Joinable net j.uuid ↔
      Fingerable j.uuid s ∧ (steps p.uuid j.uuid = 1 ∨ Fingerable p.uuid j) := by
  obtain ⟨hpj, hjs⟩ := next_joiner hadj hj hb
  have hsj : s.uuid ≠ j.uuid := hjs.ne
  have hjp : j.uuid ≠ p.uuid := hpj.ne
  constructor
  · rintro ⟨hnext, hbefore, hzero⟩
    refine ⟨?_, ?_⟩
    · by_contra hf
      rcases (not_fingerable_iff hsj).mp hf with heq | ⟨hmod, heq⟩
      · exact hnext (heq ▸ hadj.right.mem)
      · have hjeq : j.uuid = BitVec.allOnes 256 - 1 := by rw [← hmod, BitVec.add_sub_cancel]
        refine hbefore ⟨hjeq, ?_⟩
        have hs0 : s.uuid = 0 := by rw [heq, hjeq]; decide
        rw [← hs0]
        exact hadj.right.mem
    · by_contra hor
      obtain ⟨hone, hf⟩ := not_or.mp hor
      rcases (not_fingerable_iff hjp).mp hf with heq | ⟨hmod, heq⟩
      · rw [heq, steps_add] at hone
        exact hone rfl
      · have hpeq : p.uuid = BitVec.allOnes 256 - 1 := by rw [← hmod, BitVec.add_sub_cancel]
        refine hzero ⟨by rw [heq, hpeq]; decide, ?_⟩
        rw [← hpeq]
        exact hadj.left.mem
  · rintro ⟨hf, hor⟩
    rw [fingerable_iff, steps_first_start] at hf
    refine ⟨?_, ?_, ?_⟩
    · intro hmem
      have hle := hjs.le _ (Set.mem_insert_of_mem _ hmem) (by simp)
      have h1 : steps j.uuid (j.uuid + 1) = 1 := by rw [steps_add]; rfl
      split at hf <;> omega
    · rintro ⟨heq, hmem⟩
      have hle := hjs.le _ (Set.mem_insert_of_mem _ hmem) (by rw [heq]; decide)
      rw [heq] at hf hle
      have h2 : steps (BitVec.allOnes 256 - 1) (0 : Uuid) = 2 := by decide
      rw [if_pos (by decide)] at hf
      omega
    · rintro ⟨heq, hmem⟩
      have hprev := (next_iff_prev (Set.mem_insert_of_mem _ hadj.left.mem) (Set.mem_insert _ _)).mp hpj
      have hge := hprev.ge _ (Set.mem_insert_of_mem _ hmem) (by rw [heq]; decide)
      rw [heq, steps_zero_left, steps_zero_left, BitVec.toNat_sub] at hge
      have hlt := p.uuid.isLt
      have hp : p.uuid = BitVec.allOnes 256 - 1 ∨ p.uuid = BitVec.allOnes 256 - 1 + 1 := by
        rw [← BitVec.toNat_inj, ← BitVec.toNat_inj]
        simp at hge ⊢
        omega
      rcases hp with hp | hp
      · rw [hp, heq] at hor
        have h2 : steps (BitVec.allOnes 256 - 1) (0 : Uuid) = 2 := by decide
        rw [fingerable_iff, steps_first_start, if_pos (by decide), heq] at hor
        omega
      · exact h.no_consecutive hmem (hp ▸ hadj.left.mem)

/-! ## The joiner -/

theorem Member.unique {net : Network} {n m : Node} (hn : net.Member n) (hm : net.Member m)
    (h : n.uuid = m.uuid) : n = m := by
  rw [member_iff, h] at hn
  rw [member_iff, hn] at hm
  exact Option.some.inj hm

theorem adjacent_order {net : Network} {p s : Node} {j : Uuid} (hadj : Adjacent net p s)
    (hj : j ∉ net.members) (hb : between p.uuid j s.uuid) : p = s ∨ steps j s.uuid < steps j p.uuid := by
  obtain ⟨hpj, hjs⟩ := next_joiner hadj hj hb
  by_cases heq : p.uuid = s.uuid
  · left; exact hadj.left.unique hadj.right heq
  · right
    have hle := hjs.le _ (Set.mem_insert_of_mem _ hadj.left.mem) hpj.ne.symm
    have hne : steps j s.uuid ≠ steps j p.uuid := fun h => heq (steps_inj.mp h).symm
    omega

theorem joined_order {j p s : Node} (hps : p = s ∨ steps j.uuid s.uuid < steps j.uuid p.uuid) :
    steps j.uuid s.uuid ≤ steps j.uuid p.uuid := by
  rcases hps with rfl | hlt
  · exact le_refl _
  · exact le_of_lt hlt

theorem joined_predecessor_eq {j p s : Node} (hs : s.uuid ≠ j.uuid) (hp : p.uuid ≠ j.uuid)
    (hps : p = s ∨ steps j.uuid s.uuid < steps j.uuid p.uuid) :
    (Client.joined (init j) (some (s, p))).predecessor = some p := by
  obtain ⟨q, hq, hqp, rfl | rfl⟩ := joined_predecessor hs hp (joined_order hps)
  · exact hq
  · rcases hps with rfl | hlt
    · exact hq
    · rw [hqp] at hlt
      exact absurd hlt (lt_irrefl _)

/-! ## The two notify calls -/

theorem notify_call {net : Network} {t : Node} {r : Router} (ht : net t.uuid = some r) {peer : Endpoint}
    {req : NotifyRequest} {res : Service.NotifyResult} (hres : Service.notify r peer req = .ok res) :
    notify t peer req net = .ok (res.status, Function.update net t.uuid (some res.router)) := by
  simp only [notify, ht, hres]

theorem notify_frame {net net' : Network} {t : Node} {peer : Endpoint} {req : NotifyRequest}
    {status : StatusCode} (h : notify t peer req net = .ok (status, net')) {u : Uuid} (hu : u ≠ t.uuid) :
    net' u = net u := by
  simp only [notify] at h
  split at h
  · cases h; rfl
  · split at h
    · cases h
    · cases h
      rw [Function.update_of_ne hu]

theorem facade_join_calls {fuel : Nat} {net : Network} {peer : Endpoint} {addr j s p a b : Node}
    (hjoin : join fuel addr ⟨some (make_header j)⟩ net = .ok (some (s, p), net))
    (ha : (Client.joined (init j) (some (s, p))).predecessor = some a)
    (hb : (Client.joined (init j) (some (s, p))).successor = some b) :
    facade_join fuel (init j) peer addr net = (do
      let status_pred ← notify a peer (Client.notify_change j b j)
      let status_succ ← notify b peer (Client.notify_change j a j)
      pure (ChordFacade.joined_or_reset (Client.joined (init j) (some (s, p))) status_pred status_succ) :
        Call Router) net := by
  have htargets : ChordFacade.join_targets (Client.joined (init j) (some (s, p))) = .ok (a, b) := by
    simp only [ChordFacade.join_targets, ha, hb, deref_some, ok_bind]
  have hctx := joined_context j (some (s, p))
  have hinit : (init j).context = j := rfl
  simp only [facade_join, bind, StateT.bind, hinit, hjoin, Except.bind, htargets, fault_of, pure_call,
    hctx]

theorem facade_join_fault {fuel : Nat} {net : Network} {peer : Endpoint} {addr j s p : Node}
    (hjoin : join fuel addr ⟨some (make_header j)⟩ net = .ok (some (s, p), net))
    (hs : (Client.joined (init j) (some (s, p))).successor = none) :
    facade_join fuel (init j) peer addr net = .error (.fault .null_deref) := by
  have htargets := (join_targets_fault _).mpr (Or.inr hs)
  have hinit : (init j).context = j := rfl
  simp only [facade_join, bind, StateT.bind, hinit, hjoin, Except.bind, htargets, fault_of]

theorem facade_join_told {fuel : Nat} {net : Network} (h : ExactRing net) (peer : Endpoint)
    {addr j s p : Node} (hj : j.uuid ∉ net.members)
    (hjoin : join fuel addr ⟨some (make_header j)⟩ net = .ok (some (s, p), net)) (hadj : Adjacent net p s)
    (hb : between p.uuid j.uuid s.uuid) (hf : Fingerable j.uuid s) :
    ∃ net', facade_join fuel (init j) peer addr net =
        .ok (Client.joined (init j) (some (s, p)), net') ∧ SameNodes net net' ∧
      ∀ u r', net' u = some r' → ∃ r, net u = some r ∧
        (Told j r r' ∨ (r' = r ∧ u ≠ p.uuid ∧ u ≠ s.uuid)) := by
  have hps := adjacent_order hadj hj hb
  obtain ⟨hpj, hjs⟩ := next_joiner hadj hj hb
  rw [facade_join_calls hjoin (joined_predecessor_eq hjs.ne hpj.ne.symm hps)
    (joined_successor_pos hf (joined_order hps))]
  obtain ⟨rp, hrp, -⟩ := hadj.left
  obtain ⟨rs, hrs, -⟩ := hadj.right
  obtain ⟨res, hres, hok, htold⟩ := notify_told h hrp hj peer hadj.right.mem (Or.inl rfl)
  have hsame : SameNodes net _ := sameNodes_update hrp htold.context
  obtain ⟨net₁, hnet₁⟩ : ∃ net₁ : Network, net₁ = Function.update net p.uuid (some res.router) := ⟨_, rfl⟩
  rw [← hnet₁] at hsame
  -- the successor is the predecessor, told already, or has heard nothing yet
  obtain ⟨r₁, hr₁, hr₁'⟩ : ∃ r₁, net₁ s.uuid = some r₁ ∧
      (r₁ = rs ∨ (Told j rs r₁ ∧ r₁.predecessor = some j)) := by
    by_cases heq : p.uuid = s.uuid
    · have hrr : rs = rp := by rw [heq, hrs] at hrp; exact Option.some.inj hrp
      refine ⟨res.router, by rw [hnet₁, heq, Function.update_self], Or.inr ⟨hrr ▸ htold, ?_⟩⟩
      exact htold.predecessor_pos ((further_iff h hadj hj hb hrp).mpr heq)
    · exact ⟨rs, by rw [hnet₁, Function.update_of_ne (Ne.symm heq)]; exact hrs, Or.inl rfl⟩
  obtain ⟨res₂, hres₂, hok₂, htold₂⟩ := notify_told h hrs hj peer hadj.left.mem hr₁'
  refine ⟨Function.update net₁ s.uuid (some res₂.router), ?_, ?_, ?_⟩
  · simp only [bind, StateT.bind, Except.bind, notify_call hrp hres, hok, ← hnet₁,
      notify_call hr₁ hres₂, hok₂]
    rfl
  · apply hsame.trans
    apply sameNodes_update hr₁
    rw [htold₂.context]
    rcases hr₁' with rfl | ⟨ht, -⟩
    · rfl
    · exact ht.context.symm
  · intro u r' hu
    by_cases hus : u = s.uuid
    · rw [hus, Function.update_self, Option.some.injEq] at hu
      exact ⟨rs, hus ▸ hrs, Or.inl (hu ▸ htold₂)⟩
    · rw [Function.update_of_ne hus, hnet₁] at hu
      by_cases hup : u = p.uuid
      · rw [hup, Function.update_self, Option.some.injEq] at hu
        exact ⟨rp, hup ▸ hrp, Or.inl (hu ▸ htold)⟩
      · rw [Function.update_of_ne hup] at hu
        exact ⟨r', hu, Or.inr ⟨rfl, hup, hus⟩⟩

/-! ## The enlarged ring -/

/-- The joiner is in. Every predecessor is exact, and every successor that is not one step away. -/
structure Grown (net net' : Network) (j : Uuid) : Prop where
  members : net'.members = insert j net.members
  predecessor : ∀ u r, net' u = some r → IsPredecessor net' u r.predecessor
  successor : ∀ u r, net' u = some r → (∀ t, Next net'.members u t → steps u t ≠ 1) →
    IsSuccessor net' u r.successor

theorem members_update (net : Network) (j : Uuid) (r : Router) :
    Network.members (Function.update net j (some r)) = insert j net.members := by
  ext u
  simp only [members, Set.mem_ofPred_eq, Set.mem_insert_iff]
  by_cases hu : u = j
  · simp [hu]
  · simp [hu]

theorem member_update {net : Network} {n : Node} (hn : net.Member n) {j : Uuid} (hj : j ∉ net.members)
    (r : Router) : Network.Member (Function.update net j (some r)) n := by
  obtain ⟨r', hr', hc⟩ := hn
  refine ⟨r', ?_, hc⟩
  rw [Function.update_of_ne _, hr']
  rintro rfl
  exact hj (mem_members.mpr ⟨r', hr'⟩)

/-- The neighbours of a member in the enlarged ring. -/
theorem grown_member {net net' : Network} (h : ExactRing net) (hsame : SameNodes net net') {j p s : Node}
    (hadj : Adjacent net p s) (hj : j.uuid ∉ net.members) (hb : between p.uuid j.uuid s.uuid)
    (hf : steps p.uuid j.uuid = 1 ∨ Fingerable p.uuid j) {rj : Router} (hctx : rj.context = j) {u : Uuid}
    {r r' : Router} (hr : net u = some r)
    (hr' : Told j r r' ∨ (r' = r ∧ u ≠ p.uuid ∧ u ≠ s.uuid)) :
    IsPredecessor (Function.update net' j.uuid (some rj)) u r'.predecessor ∧
      ((∀ t, Next (insert j.uuid net.members) u t → steps u t ≠ 1) →
        IsSuccessor (Function.update net' j.uuid (some rj)) u r'.successor) := by
  have hu := mem_members.mpr ⟨r, hr⟩
  have hj' : j.uuid ∉ net'.members := by rw [hsame.members_eq]; exact hj
  have hmembers : Network.members (Function.update net' j.uuid (some rj)) = insert j.uuid net.members := by
    rw [members_update, hsame.members_eq]
  have hmember : ∀ n, net.Member n → Network.Member (Function.update net' j.uuid (some rj)) n :=
    fun n hn => member_update ((hsame.member n).mpr hn) hj' rj
  have hjoined : Network.Member (Function.update net' j.uuid (some rj)) j :=
    ⟨rj, Function.update_self _ _ _, hctx⟩
  obtain ⟨hpj, hjs⟩ := next_joiner hadj hj hb
  have hfurther := further_iff h hadj hj hb hr
  have hnearer := nearer_iff h hadj hb hr
  constructor
  · by_cases hus : u = s.uuid
    · have ht := hr'.resolve_right (fun hn => hn.2.2 hus)
      rw [ht.predecessor_pos (hfurther.mpr hus)]
      refine ⟨hjoined, ?_⟩
      rw [hmembers, hus, ← next_iff_prev (Set.mem_insert _ _) hjs.mem]
      exact hjs
    · have hkept : r'.predecessor = r.predecessor := by
        rcases hr' with ht | ⟨rfl, -⟩
        · exact ht.predecessor_neg (fun hn => hus (hfurther.mp hn))
        · rfl
      have hpred := h.predecessor u r hr
      rw [hkept]
      cases hp : r.predecessor with
      | none =>
        rw [hp] at hpred
        exact absurd (hpred _ hadj.right.mem).symm hus
      | some q =>
        rw [hp] at hpred
        refine ⟨hmember q hpred.1, ?_⟩
        rw [hmembers]
        exact prev_kept hadj hb hu hus hpred.2
  · intro hfar
    by_cases hup : u = p.uuid
    · have ht := hr'.resolve_right (fun hn => hn.2.1 hup)
      have hfinger : Fingerable u j := by
        rw [hup] at hfar ⊢
        exact hf.resolve_left (hfar _ hpj)
      rw [ht.successor_pos (hnearer.mpr ⟨hfinger, hup⟩)]
      refine ⟨hjoined, ?_⟩
      rw [hmembers, hup]
      exact hpj
    · have hkept : r'.successor = r.successor := by
        rcases hr' with ht | ⟨rfl, -⟩
        · exact ht.successor_neg (fun hn => hup (hnearer.mp hn).2)
        · rfl
      have hsucc := h.successor u r hr
      rw [hkept]
      cases hs : r.successor with
      | none =>
        rw [hs] at hsucc
        exact absurd (hsucc _ hadj.left.mem).symm hup
      | some t =>
        rw [hs] at hsucc
        refine ⟨hmember t hsucc.1, ?_⟩
        rw [hmembers]
        exact next_kept hadj hb hu hup hsucc.2

theorem grown_of_joinable {fuel : Nat} {net : Network} (h : ExactRing net) {peer : Endpoint}
    {addr j s p : Node} (hj : j.uuid ∉ net.members)
    (hjoin : join fuel addr ⟨some (make_header j)⟩ net = .ok (some (s, p), net)) (hadj : Adjacent net p s)
    (hb : between p.uuid j.uuid s.uuid) (hjoinable : Joinable net j.uuid) :
    ∃ r net', facade_join fuel (init j) peer addr net = .ok (r, net') ∧
      Grown net (Function.update net' j.uuid (some r)) j.uuid := by
  obtain ⟨hfs, hfp⟩ := (joinable_iff h hadj hj hb).mp hjoinable
  obtain ⟨net', hcall, hsame, htold⟩ := facade_join_told h peer hj hjoin hadj hb hfs
  refine ⟨_, net', hcall, ?_⟩
  obtain ⟨hpj, hjs⟩ := next_joiner hadj hj hb
  have hps := adjacent_order hadj hj hb
  have hctx := joined_context j (some (s, p))
  have hpred := joined_predecessor_eq hjs.ne hpj.ne.symm hps
  have hsucc := joined_successor_pos hfs (joined_order hps)
  have hmembers : ∀ rj : Router, Network.members (Function.update net' j.uuid (some rj)) =
      insert j.uuid net.members := fun rj => by rw [members_update, hsame.members_eq]
  have hj' : j.uuid ∉ net'.members := by rw [hsame.members_eq]; exact hj
  refine ⟨hmembers _, ?_, ?_⟩
  · intro u r' hu
    by_cases huj : u = j.uuid
    · rw [huj, Function.update_self, Option.some.injEq] at hu
      rw [← hu, hpred, huj]
      refine ⟨member_update ((hsame.member p).mpr hadj.left) hj' _, ?_⟩
      rw [hmembers, ← next_iff_prev (Set.mem_insert_of_mem _ hadj.left.mem) (Set.mem_insert _ _)]
      exact hpj
    · rw [Function.update_of_ne huj] at hu
      obtain ⟨r, hr, hr'⟩ := htold u r' hu
      exact (grown_member h hsame hadj hj hb hfp hctx hr hr').1
  · intro u r' hu hfar
    by_cases huj : u = j.uuid
    · rw [huj, Function.update_self, Option.some.injEq] at hu
      rw [← hu, hsucc, huj]
      refine ⟨member_update ((hsame.member s).mpr hadj.right) hj' _, ?_⟩
      rw [hmembers]
      exact hjs
    · rw [Function.update_of_ne huj] at hu
      obtain ⟨r, hr, hr'⟩ := htold u r' hu
      rw [hmembers] at hfar
      exact (grown_member h hsame hadj hj hb hfp hctx hr hr').2 hfar

theorem notify_twice_frame {net net' : Network} {t : Node} {peer : Endpoint} {req req' : NotifyRequest}
    {f : StatusCode → StatusCode → Router} {r : Router}
    (h : (do
      let status ← notify t peer req
      let status' ← notify t peer req'
      pure (f status status') : Call Router) net = .ok (r, net')) {u : Uuid} (hu : u ≠ t.uuid) :
    net' u = net u := by
  simp only [bind, StateT.bind, Except.bind] at h
  cases h₁ : notify t peer req net with
  | error e => simp only [h₁] at h; cases h
  | ok res =>
    simp only [h₁] at h
    cases h₂ : notify t peer req' res.2 with
    | error e => simp only [h₂] at h; cases h
    | ok res' =>
      simp only [h₂] at h
      cases h
      exact (notify_frame h₂ hu).trans (notify_frame h₁ hu)

theorem joinable_of_grown {fuel : Nat} {net net' : Network} (h : ExactRing net) {peer : Endpoint}
    {addr j s p : Node} (hj : j.uuid ∉ net.members)
    (hjoin : join fuel addr ⟨some (make_header j)⟩ net = .ok (some (s, p), net)) (hadj : Adjacent net p s)
    (hb : between p.uuid j.uuid s.uuid) {rj : Router}
    (hcall : facade_join fuel (init j) peer addr net = .ok (rj, net'))
    (hgrown : Grown net (Function.update net' j.uuid (some rj)) j.uuid) : Joinable net j.uuid := by
  obtain ⟨hpj, hjs⟩ := next_joiner hadj hj hb
  have hps := adjacent_order hadj hj hb
  rw [joinable_iff h hadj hj hb]
  by_cases hfs : Fingerable j.uuid s
  · refine ⟨hfs, ?_⟩
    by_contra hor
    obtain ⟨hone, hfp⟩ := not_or.mp hor
    obtain ⟨net₁, hcall₁, hsame, htold⟩ := facade_join_told h peer hj hjoin hadj hb hfs
    rw [hcall] at hcall₁
    obtain ⟨rfl, rfl⟩ := Prod.mk.inj (Except.ok.inj hcall₁)
    -- the predecessor keeps its successor, which is not the joiner
    obtain ⟨r', hr', -⟩ := (hsame.member p).mpr hadj.left
    obtain ⟨r, hr, ht⟩ := htold _ _ hr'
    have ht := ht.resolve_right (fun hn => hn.2.1 rfl)
    have hkept := ht.successor_neg (fun hn => hfp ((nearer_iff h hadj hb hr).mp hn).1)
    have hgs := hgrown.successor p.uuid r' (by rw [Function.update_of_ne hpj.ne.symm]; exact hr') (by
      intro t ht'
      rw [hgrown.members] at ht'
      rw [ht'.unique hpj]
      exact hone)
    have hsucc := h.successor _ _ hr
    rw [hkept] at hgs
    cases hs : r.successor with
    | none =>
      rw [hs, IsSuccessor, hgrown.members] at hgs
      exact hpj.ne (hgs _ (Set.mem_insert _ _))
    | some t =>
      rw [hs] at hgs hsucc
      have hnext := hgs.2
      rw [hgrown.members] at hnext
      exact hj ((hnext.unique hpj) ▸ hsucc.1.mem)
  · exfalso
    cases hs : (Client.joined (init j) (some (s, p))).successor with
    | none =>
      rw [facade_join_fault hjoin hs] at hcall
      cases hcall
    | some t =>
      obtain rfl := joined_successor_neg hfs hs
      rw [facade_join_calls hjoin (joined_predecessor_eq hjs.ne hpj.ne.symm hps) hs] at hcall
      have hne : s.uuid ≠ t.uuid := by
        intro heq
        have hlt := first_start_lt (joined_wf (init_wf j) _) (successor_mem hs)
        rw [entry_uuid, joined_context, ← heq] at hlt
        exact hfs ((fingerable_iff _ _).mpr hlt)
      -- both calls went to the predecessor, and the successor has heard nothing
      have hframe := notify_twice_frame hcall hne
      obtain ⟨rs, hrs, -⟩ := hadj.right
      have hgp := hgrown.predecessor s.uuid rs (by rw [Function.update_of_ne hjs.ne, hframe, hrs])
      have hpred := h.predecessor _ _ hrs
      cases hq : rs.predecessor with
      | none =>
        rw [hq, IsPredecessor, hgrown.members] at hgp
        exact hjs.ne.symm (hgp _ (Set.mem_insert _ _))
      | some q =>
        rw [hq] at hgp hpred
        have hprev := hgp.2
        rw [hgrown.members] at hprev
        have hprev' := (next_iff_prev (Set.mem_insert _ _) hjs.mem).mp hjs
        exact hj ((hprev.unique hprev') ▸ hpred.1.mem)

/-- A join through any member is answered with the two neighbours of the joiner. The ring is
exact again after the joiner's calls, exactly where the uuid of the joiner is `Joinable`. -/
theorem join_keeps_ring_iff (net : Network) (h : ExactRing net) (addr : Node)
    (haddr : addr.uuid ∈ net.members) (j : Node) (hj : j.uuid ∉ net.members) (peer : Endpoint) (fuel : Nat)
    (hfuel : 2 ^ 256 ≤ fuel) :
    (∃ s p, join fuel addr ⟨some (make_header j)⟩ net = .ok (some (s, p), net) ∧ Adjacent net p s ∧
      between p.uuid j.uuid s.uuid) ∧
    ((∃ r net', facade_join fuel (init j) peer addr net = .ok (r, net') ∧
      Grown net (Function.update net' j.uuid (some r)) j.uuid) ↔ Joinable net j.uuid) := by
  have hlt : steps addr.uuid j.uuid < fuel := lt_of_lt_of_le (steps_lt addr.uuid j.uuid) hfuel
  obtain ⟨s, p, hjoin, hadj, hb⟩ := join_found h haddr hj hlt
  refine ⟨⟨s, p, hjoin, hadj, hb⟩, ?_, grown_of_joinable h hj hjoin hadj hb⟩
  rintro ⟨r, net', hcall, hgrown⟩
  exact joinable_of_grown h hj hjoin hadj hb hcall hgrown

/-! ## A ring of one -/

def single (a : Node) : Network := fun u => if u = a.uuid then some (init a) else none

theorem single_cases {a : Node} {u : Uuid} {r : Router} (h : single a u = some r) :
    u = a.uuid ∧ r = init a := by
  rw [single] at h
  split_ifs at h with ha
  exact ⟨ha, (Option.some.inj h).symm⟩

theorem single_members (a : Node) : (single a).members = {a.uuid} := by
  ext u
  simp only [members, single, Set.mem_ofPred_eq, Set.mem_singleton_iff]
  split_ifs <;> simp [*]

theorem single_ring (a : Node) : ExactRing (single a) := by
  have hall : ∀ v ∈ (single a).members, v = a.uuid := by
    intro v hv
    rwa [single_members, Set.mem_singleton_iff] at hv
  refine ⟨⟨?_, ?_, ?_⟩, ?_⟩
  · rintro u r hr
    obtain ⟨rfl, rfl⟩ := single_cases hr
    rfl
  · rintro u r hr
    obtain ⟨rfl, rfl⟩ := single_cases hr
    exact init_wf a
  · rintro u r hr
    obtain ⟨rfl, rfl⟩ := single_cases hr
    exact hall
  · rintro u r hr
    obtain ⟨rfl, rfl⟩ := single_cases hr
    exact hall

theorem join_single : (∃ s p, join (2 ^ 256) ⟨0, []⟩ ⟨some (make_header ⟨5, []⟩)⟩ (single ⟨0, []⟩) =
      .ok (some (s, p), single ⟨0, []⟩) ∧ Adjacent (single ⟨0, []⟩) p s ∧ between p.uuid 5 s.uuid) ∧
    ((∃ r net', facade_join (2 ^ 256) (init ⟨5, []⟩) [] ⟨0, []⟩ (single ⟨0, []⟩) = .ok (r, net') ∧
      Grown (single ⟨0, []⟩) (Function.update net' 5 (some r)) 5) ↔ Joinable (single ⟨0, []⟩) 5) :=
  join_keeps_ring_iff (single ⟨0, []⟩) (single_ring _) ⟨0, []⟩ (by rw [single_members]; decide) ⟨5, []⟩
    (by rw [single_members]; decide) [] (2 ^ 256) (le_refl _)

/-- The joiner 0 finds the only member one step ahead, and reads its absent successor. -/
theorem join_before_member : ¬ ∀ (net : Network), ExactRing net → ∀ addr : Node, addr.uuid ∈ net.members →
    ∀ j : Node, j.uuid ∉ net.members → ∀ (peer : Endpoint) (fuel : Nat), 2 ^ 256 ≤ fuel →
      ∃ r net', facade_join fuel (init j) peer addr net = .ok (r, net') ∧
        Grown net (Function.update net' j.uuid (some r)) j.uuid := by
  intro hall
  have hring := single_ring ⟨1, []⟩
  have hmem : (⟨1, []⟩ : Node).uuid ∈ (single ⟨1, []⟩).members := by rw [single_members]; decide
  have hj : (⟨0, []⟩ : Node).uuid ∉ (single ⟨1, []⟩).members := by rw [single_members]; decide
  obtain ⟨r, net', hcall, hgrown⟩ := hall _ hring ⟨1, []⟩ hmem ⟨0, []⟩ hj [] (2 ^ 256) (le_refl _)
  have hlt : steps (⟨1, []⟩ : Node).uuid (⟨0, []⟩ : Node).uuid < 2 ^ 256 := steps_lt _ _
  obtain ⟨s, p, hjoin, hadj, hb⟩ := join_found hring hmem hj hlt
  apply (joinable_of_grown hring hj hjoin hadj hb hcall hgrown).next_free
  rw [single_members]
  decide

end Network

end Chord
