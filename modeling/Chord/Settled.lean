import Chord.Settle

/-! # Concurrent joins settle in the right ring -/

open Circle

namespace Chord

open Router

namespace System

/-! ## Every run -/

structure Inv (a : Uuid) (σ : System) : Prop where
  base : a ∈ σ.net.members
  members : ∀ u ∈ σ.net.members, u ∈ σ.started
  nodes : NetInv a σ.net
  fresh : (σ.active.filterMap Activity.joiner).Nodup
  joiners : ∀ j ∈ σ.active.filterMap Activity.joiner, j ∈ σ.started ∧ j ∉ σ.net.members
  active : ∀ x ∈ σ.active, ActInv σ.net.members a x

theorem bootstrap_members (a : Node) : (bootstrap a).net.members = {a.uuid} := Network.single_members a

theorem bootstrap_inv (a : Node) : Inv a.uuid (bootstrap a) where
  base := by rw [bootstrap_members]; rfl
  members u hu := by
    rw [bootstrap_members, Set.mem_singleton_iff] at hu
    exact List.mem_singleton.mpr hu
  nodes u r hr := by
    obtain ⟨rfl, rfl⟩ := Network.single_cases hr
    exact NodeInv.init
  fresh := List.nodup_nil
  joiners j hj := by cases hj
  active x hx := by cases hx

theorem start_stabilize_inv {M : Set Uuid} {a u : Uuid} (hu : u ∈ M) {r : Router} (h : NodeInv M a u r) :
    ∀ y ∈ Activity.start_stabilize r, ActInv M a y ∧ y.joiner = none := by
  intro y hy
  unfold Activity.start_stabilize at hy
  split at hy
  · cases hy
  · rename_i s hs
    split at hy
    · cases hy
    · rw [List.mem_singleton.mp hy]
      exact ⟨⟨by rwa [h.own], (h.successor hs).1⟩, rfl⟩

theorem Inv.progress {peer : Node → Endpoint} {a : Uuid} {σ : System} (h : Inv a σ)
    (hS : Spaced {u | u ∈ σ.started}) {before after next : List Activity} {x : Activity} {net : Network}
    (hactive : σ.active = before ++ x :: after) (hstep : x.step peer σ.net = some (net, next)) :
    Inv a ⟨net, before ++ next ++ after, σ.started⟩ := by
  obtain ⟨hbase, hmembers, hnodes, hfresh, hjoiners, hact⟩ := h
  rw [hactive] at hfresh hjoiners hact
  have hx := hact x (by simp)
  have hsplit : (before ++ x :: after).filterMap Activity.joiner =
      before.filterMap Activity.joiner ++ (x.joiner.toList ++ after.filterMap Activity.joiner) := by
    rw [List.filterMap_append]
    congr 1
    cases hj : x.joiner with
    | none => rw [List.filterMap_cons_none hj]; rfl
    | some j => rw [List.filterMap_cons_some hj]; rfl
  rw [hsplit] at hfresh hjoiners
  have hxj : ∀ j ∈ x.joiner, j ∈ {u | u ∈ σ.started} ∧ j ∉ σ.net.members := by
    intro j hj
    exact hjoiners j (by simp [Option.mem_def.mp hj])
  obtain ⟨hnodes', hcases, hnext⟩ := step_inv hS hnodes hbase hmembers hx hxj hstep
  have hsplit' : (before ++ next ++ after).filterMap Activity.joiner =
      before.filterMap Activity.joiner ++
        (next.filterMap Activity.joiner ++ after.filterMap Activity.joiner) := by
    rw [List.filterMap_append, List.filterMap_append, List.append_assoc]
  have hsub : σ.net.members ⊆ net.members := by
    rcases hcases with ⟨heq, -⟩ | ⟨j, -, heq, -⟩
    · rw [heq]
    · rw [heq]; exact Set.subset_insert _ _
  have hact' : ∀ y ∈ before ++ next ++ after, ActInv net.members a y := by
    intro y hy
    rcases List.mem_append.mp hy with hy | hy
    · rcases List.mem_append.mp hy with hy | hy
      · exact (hact y (by simp [hy])).mono hsub
      · exact hnext y hy
    · exact (hact y (by simp [hy])).mono hsub
  rcases hcases with ⟨heq, hsublist⟩ | ⟨j, hj, heq, hnil⟩
  · have hsubl := (List.Sublist.refl (before.filterMap Activity.joiner)).append
      (hsublist.append (List.Sublist.refl (after.filterMap Activity.joiner)))
    refine ⟨hsub hbase, ?_, hnodes', ?_, ?_, hact'⟩
    · rw [heq]; exact hmembers
    · rw [hsplit']; exact hfresh.sublist hsubl
    · rw [hsplit', heq]
      exact fun k hk => hjoiners k (hsubl.subset hk)
  · -- the joiner is a member now, and no other handshake is its own
    have hsubl := (List.Sublist.refl (before.filterMap Activity.joiner)).append
      (List.sublist_append_right x.joiner.toList (after.filterMap Activity.joiner))
    refine ⟨hsub hbase, ?_, hnodes', ?_, ?_, hact'⟩
    · rw [heq]
      rintro u (rfl | hu)
      · exact (hxj u hj).1
      · exact hmembers u hu
    · rw [hsplit', hnil]; exact hfresh.sublist hsubl
    · rw [hsplit', hnil, heq]
      intro k hk
      obtain ⟨hks, hkM⟩ := hjoiners k (hsubl.subset hk)
      refine ⟨hks, ?_⟩
      rintro (rfl | hk')
      · rw [hj, Option.toList_some] at hfresh
        have hperm := List.nodup_middle.mp hfresh
        exact (List.nodup_cons.mp hperm).1 hk
      · exact hkM hk'

theorem run_inv {peer : Node → Endpoint} {a : Node} {σ : System} (hrun : Run peer a σ)
    (hS : Spaced {u | u ∈ σ.started}) : Inv a.uuid σ := by
  induction hrun with
  | init => exact bootstrap_inv a
  | step hrun hstep ih =>
    cases hstep with
    | join j target hj htarget =>
      obtain ⟨hbase, hmembers, hnodes, hfresh, hjoiners, hact⟩ :=
        ih fun u hu v hv => hS u (List.mem_cons_of_mem _ hu) v (List.mem_cons_of_mem _ hv)
      refine ⟨hbase, fun u hu => List.mem_cons_of_mem _ (hmembers u hu), hnodes, ?_, ?_, ?_⟩
      · exact List.nodup_cons.mpr ⟨fun hmem => hj (hjoiners _ hmem).1, hfresh⟩
      · intro k hk
        rcases List.mem_cons.mp hk with rfl | hk
        · exact ⟨List.mem_cons_self, fun hmem => hj (hmembers _ hmem)⟩
        · exact ⟨List.mem_cons_of_mem _ (hjoiners k hk).1, (hjoiners k hk).2⟩
      · intro x hx
        rcases List.mem_cons.mp hx with rfl | hx
        · exact htarget
        · exact hact x hx
    | stabilize u r hr =>
      obtain ⟨hbase, hmembers, hnodes, hfresh, hjoiners, hact⟩ := ih hS
      have hstart := start_stabilize_inv (Network.mem_members.mpr ⟨r, hr⟩) (hnodes u r hr)
      have hnil : (Activity.start_stabilize r).filterMap Activity.joiner = [] :=
        List.filterMap_eq_nil_iff.mpr fun y hy => (hstart y hy).2
      refine ⟨hbase, hmembers, hnodes, ?_, ?_, ?_⟩
      · rw [List.filterMap_append, hnil]; exact hfresh
      · rw [List.filterMap_append, hnil]; exact hjoiners
      · intro x hx
        rcases List.mem_append.mp hx with hx | hx
        · exact (hstart x hx).1
        · exact hact x hx
    | progress before after x net next hactive hx => exact (ih hS).progress hS hactive hx

/-! ## A round that changes nothing -/

/-- The end of a round, for a node that has a successor before and after the answer. -/
theorem stabilize_round_eq (peer : Node → Endpoint) {net net₁ : Network} {u : Uuid} {r rs r₁ rt : Router}
    {s t : Node} {res : Service.NotifyResult} (hr : net u = some r) (hown : r.context.uuid = u)
    (hs : r.successor = some s) (hsu : s.uuid ≠ u) (hrs : net s.uuid = some rs)
    (hr₁ : r₁ = Client.stabilize_reply r s (some rs.predecessor)) (hctx : r₁.context = r.context)
    (hnet₁ : net₁ = Function.update net u (some r₁)) (ht : r₁.successor = some t) (htu : t.uuid ≠ u)
    (hrt : net₁ t.uuid = some rt)
    (hres : Service.notify rt (peer r₁.context) (Client.notify_request r₁.context) = .ok res) :
    stabilize_round peer net u = some (Function.update net₁ t.uuid (some res.router)) := by
  have hr₁' : net₁ u = some r₁ := by rw [hnet₁, Function.update_self]
  have htc : t ≠ r₁.context := fun heq => htu (by rw [heq, hctx, hown])
  simp only [stabilize_round, hr, Activity.start_stabilize, hs, hown, if_neg hsu, Option.bind_eq_bind,
    Option.bind_some, drain, Activity.step, hrs, List.cons_append, List.nil_append, Service.stabilize, ← hr₁,
    ← hnet₁, hr₁', Activity.notify_successor, ht, if_neg htc, hrt, hres, Except.toOption, Activity.notified]

/-- In a settled system, the successor of a node has that node as predecessor. -/
theorem settled_predecessor {peer : Node → Endpoint} {a : Uuid} {σ : System} (h : Inv a σ)
    (hS : Spaced {u | u ∈ σ.started}) (hset : Settled peer σ) {u : Uuid} {r : Router} (hr : σ.net u = some r)
    {s : Node} (hs : r.successor = some s) :
    ∃ rs q, σ.net s.uuid = some rs ∧ rs.predecessor = some q ∧ q.uuid = u := by
  have hM : Spaced σ.net.members := fun v hv w hw => hS v (h.members v hv) w (h.members w hw)
  have hu : u ∈ σ.net.members := Network.mem_members.mpr ⟨r, hr⟩
  have hnode := h.nodes u r hr
  have hown := hnode.own
  obtain ⟨hsM, hsu⟩ := hnode.successor hs
  obtain ⟨rs, hrs⟩ := Network.mem_members.mp hsM
  have hsnode := h.nodes _ _ hrs
  obtain ⟨r₁, hr₁⟩ : ∃ r₁, r₁ = Client.stabilize_reply r s (some rs.predecessor) := ⟨_, rfl⟩
  have hreply : (r₁ = r ∧ ∀ q ∈ rs.predecessor, ¬ between u q.uuid s.uuid) ∨
      ∃ q, rs.predecessor = some q ∧ between u q.uuid s.uuid ∧ r₁ = r.update q := by
    rw [hr₁]
    cases hq : rs.predecessor with
    | none => left; exact ⟨rfl, by simp⟩
    | some q =>
      rw [Client.stabilize_reply, hown]
      by_cases hb : between u q.uuid s.uuid
      · right; exact ⟨q, rfl, hb, if_pos hb⟩
      · left; exact ⟨if_neg hb, by simpa using hb⟩
  have hnode₁ : NodeInv σ.net.members a u r₁ := by
    rcases hreply with ⟨heq, -⟩ | ⟨q, hq, hb, heq⟩
    · rw [heq]; exact hnode
    · rw [heq]
      refine (hnode.update hM hu (hsnode.predecessor q hq).1 (Or.inl ?_)).1
      intro hqu
      rw [hqu] at hb
      exact not_between_left _ _ hb
  have hctx : r₁.context = r.context := by
    rcases hreply with ⟨heq, -⟩ | ⟨q, -, -, heq⟩
    · rw [heq]
    · rw [heq, update_context]
  obtain ⟨t, ht⟩ : ∃ t, r₁.successor = some t := by
    rcases hreply with ⟨heq, -⟩ | ⟨q, -, -, heq⟩
    · exact ⟨s, by rw [heq, hs]⟩
    · by_cases hN : Nearer r q
      · exact ⟨q, by rw [heq]; exact successor_update_pos hnode.wf hN⟩
      · exact ⟨s, by rw [heq, successor_update_neg hnode.wf hN, hs]⟩
  obtain ⟨htM, htu⟩ := hnode₁.successor ht
  obtain ⟨hnet₁, hmembers₁⟩ := netInv_update h.nodes hu hnode₁
  obtain ⟨rt, hrt⟩ := Network.mem_members.mp (hmembers₁ ▸ htM)
  obtain ⟨res, hres, -, hrouter, -⟩ := service_notify_inv hM htM (hmembers₁ ▸ hnet₁ _ _ hrt) (peer r₁.context)
    r₁.context (by rw [hctx, hown]; exact hu) (by rw [hctx, hown]; exact htu.symm)
    (Client.notify_request r₁.context) rfl (by rintro n ⟨⟩) (by rintro n ⟨⟩)
  have hround := stabilize_round_eq peer hr hown hs hsu hrs hr₁ hctx rfl ht htu hrt hres
  rw [hset.rounds u hu] at hround
  have hsame := Option.some.inj hround
  -- the round has left this node as it was, and the node that it notified
  have hr₁r : r₁ = r := by
    have := congrFun hsame u
    rw [Function.update_of_ne htu.symm, Function.update_self, hr] at this
    exact (Option.some.inj this).symm
  have hclear : ∀ q ∈ rs.predecessor, ¬ between u q.uuid s.uuid := by
    rcases hreply with ⟨-, hclear⟩ | ⟨q, hq, hb, heq⟩
    · exact hclear
    · exfalso
      have hqu : q.uuid ≠ u := by
        intro hqu
        rw [hqu] at hb
        exact not_between_left _ _ hb
      have hlt := (between_from hsu.symm).mp hb
      have hN : Nearer r q := by
        refine ⟨by rw [hown]; exact hM.fingerable hu (hsnode.predecessor q hq).1 hqu, fun s' hs' => ?_⟩
        rw [hs] at hs'
        rw [hown, ← Option.some.inj hs']
        exact hlt.2
      have hsucc := successor_update_pos hnode.wf hN
      rw [← heq, hr₁r, hs] at hsucc
      rw [Option.some.inj hsucc] at hlt
      omega
  rw [hr₁r] at ht hsame hrt hrouter
  obtain rfl : s = t := Option.some.inj (hs.symm.trans ht)
  have hnet : Function.update σ.net u (some r) = σ.net := by rw [← hr, Function.update_eq_self]
  rw [hnet] at hsame hrt
  obtain rfl : rs = rt := Option.some.inj (hrs.symm.trans hrt)
  have hkept : rs.update r.context = rs := by
    have := congrFun hsame s.uuid
    rw [Function.update_self, hrs, hrouter] at this
    exact (Option.some.inj this).symm
  have hne : r.context ≠ rs.context := fun heq => hsu (by rw [← hsnode.own, ← heq, hown])
  have hfar : ¬ Further rs r.context := by
    intro hF
    have hpred := predecessor_update_pos hne hF
    rw [hkept] at hpred
    exact absurd (hF _ hpred) (lt_irrefl _)
  obtain ⟨q, hq, hle⟩ := not_further hfar
  refine ⟨rs, q, hrs, hq, ?_⟩
  have hnb := hclear q hq
  rw [between_to hsu.symm] at hnb
  rw [hsnode.own, hown] at hle
  exact steps_inj.mp (le_antisymm (not_lt.mp hnb) hle)

/-! ## The right ring -/

/-- Every node has its true neighbours, and none where it is alone. -/
structure RightRing (net : Network) : Prop where
  successor : ∀ u r, net u = some r → match r.successor with
    | none => ∀ v ∈ net.members, v = u
    | some s => Next net.members u s.uuid
  predecessor : ∀ u r, net u = some r → match r.predecessor with
    | none => ∀ v ∈ net.members, v = u
    | some p => Prev net.members u p.uuid

/-- The bootstrap node has a successor once there is another node: the last node on the way back
to it has nowhere else to go. -/
theorem base_successor {peer : Node → Endpoint} {a : Uuid} {σ : System} (h : Inv a σ)
    (hS : Spaced {u | u ∈ σ.started}) (hset : Settled peer σ) {v : Uuid} (hv : v ∈ σ.net.members)
    (hva : v ≠ a) {ra : Router} (hra : σ.net a = some ra) : ∃ s, ra.successor = some s := by
  rw [← Option.ne_none_iff_exists']
  intro hnone
  have hpred : ra.predecessor = none := by
    by_contra hp
    exact (h.nodes a ra hra).both hp hnone
  obtain ⟨n, ⟨hn, hna⟩, hmax⟩ :=
    Set.exists_max_image {x ∈ σ.net.members | x ≠ a} (steps a) (Set.toFinite _) ⟨v, hv, hva⟩
  obtain ⟨r, hr⟩ := Network.mem_members.mp hn
  obtain ⟨s, hs, hle⟩ := (h.nodes n r hr).ahead hna
  obtain ⟨hsM, hsn⟩ := (h.nodes n r hr).successor hs
  obtain ⟨rs, q, hrs, hq, -⟩ := settled_predecessor h hS hset hr hs
  rcases not_past hsn hna hle with heq | hlt
  · rw [heq, hra] at hrs
    rw [← Option.some.inj hrs, hpred] at hq
    cases hq
  · have hsa : s.uuid ≠ a := by
      intro heq
      rw [heq, steps_self] at hlt
      omega
    have := hmax s.uuid ⟨hsM, hsa⟩
    omega

def successor_of (net : Network) (u : Uuid) : Uuid := (((net u).bind Router.successor).map Node.uuid).getD u

theorem successor_of_eq {net : Network} {u : Uuid} {r : Router} {s : Node} (hr : net u = some r)
    (hs : r.successor = some s) : successor_of net u = s.uuid := by
  rw [successor_of, hr, Option.bind_some, hs]
  rfl

theorem settled_climbs {peer : Node → Endpoint} {a : Uuid} {σ : System} (h : Inv a σ)
    (hS : Spaced {u | u ∈ σ.started}) (hset : Settled peer σ) {v : Uuid} (hv : v ∈ σ.net.members)
    (hva : v ≠ a) : (∀ u r, σ.net u = some r → ∃ s, r.successor = some s) ∧
      Climbs (Set.toFinite σ.net.members).toFinset a (successor_of σ.net) := by
  have hall : ∀ u r, σ.net u = some r → ∃ s, r.successor = some s := by
    intro u r hr
    by_cases hua : u = a
    · rw [hua] at hr
      exact base_successor h hS hset hv hva hr
    · obtain ⟨s, hs, -⟩ := (h.nodes u r hr).ahead hua
      exact ⟨s, hs⟩
  have hget : ∀ u ∈ σ.net.members, ∃ r s, σ.net u = some r ∧ r.successor = some s ∧
      successor_of σ.net u = s.uuid := by
    intro u hu
    obtain ⟨r, hr⟩ := Network.mem_members.mp hu
    obtain ⟨s, hs⟩ := hall u r hr
    exact ⟨r, s, hr, hs, successor_of_eq hr hs⟩
  refine ⟨hall, ?_, ?_, ?_, ?_, ?_⟩
  · rw [Set.Finite.mem_toFinset]; exact h.base
  · intro u hu
    rw [Set.Finite.mem_toFinset] at hu ⊢
    obtain ⟨r, s, hr, hs, heq⟩ := hget u hu
    rw [heq]
    exact ((h.nodes u r hr).successor hs).1
  · -- two nodes with one successor are its predecessor both
    intro u hu v hv huv
    rw [Set.Finite.mem_toFinset] at hu hv
    obtain ⟨r, s, hr, hs, heq⟩ := hget u hu
    obtain ⟨r', s', hr', hs', heq'⟩ := hget v hv
    obtain ⟨rs, q, hrs, hq, hqu⟩ := settled_predecessor h hS hset hr hs
    obtain ⟨rs', q', hrs', hq', hqv⟩ := settled_predecessor h hS hset hr' hs'
    rw [← heq, huv, heq', hrs'] at hrs
    rw [← Option.some.inj hrs, hq'] at hq
    rw [← hqu, ← hqv, Option.some.inj hq]
  · intro u hu hua
    rw [Set.Finite.mem_toFinset] at hu
    obtain ⟨r, s, hr, hs, heq⟩ := hget u hu
    obtain ⟨s', hs', hle⟩ := (h.nodes u r hr).ahead hua
    rw [hs] at hs'
    rw [← Option.some.inj hs'] at hle
    rw [heq]
    exact not_past ((h.nodes u r hr).successor hs).2 hua hle
  · obtain ⟨r, s, hr, hs, heq⟩ := hget a h.base
    rw [heq]
    exact ((h.nodes a r hr).successor hs).2

theorem settled_right {peer : Node → Endpoint} {a : Uuid} {σ : System} (h : Inv a σ)
    (hS : Spaced {u | u ∈ σ.started}) (hset : Settled peer σ) : RightRing σ.net := by
  by_cases halone : ∀ v ∈ σ.net.members, v = a
  · constructor
    · intro u r hr
      have hua := halone u (Network.mem_members.mpr ⟨r, hr⟩)
      split
      · rw [hua]; exact halone
      · rename_i s hs
        obtain ⟨hsM, hsu⟩ := (h.nodes u r hr).successor hs
        exact absurd ((halone _ hsM).trans hua.symm) hsu
    · intro u r hr
      have hua := halone u (Network.mem_members.mpr ⟨r, hr⟩)
      split
      · rw [hua]; exact halone
      · rename_i p hp
        obtain ⟨hpM, hpu⟩ := (h.nodes u r hr).predecessor p hp
        exact absurd ((halone _ hpM).trans hua.symm) hpu
  · push Not at halone
    obtain ⟨v, hv, hva⟩ := halone
    obtain ⟨hall, hclimbs⟩ := settled_climbs h hS hset hv hva
    have hnext : ∀ u r s, σ.net u = some r → r.successor = some s → Next σ.net.members u s.uuid := by
      intro u r s hr hs
      have hu : u ∈ (Set.toFinite σ.net.members).toFinset := by
        rw [Set.Finite.mem_toFinset]
        exact Network.mem_members.mpr ⟨r, hr⟩
      have := hclimbs.next hu
      rwa [Set.Finite.coe_toFinset, successor_of_eq hr hs] at this
    constructor
    · intro u r hr
      obtain ⟨s, hs⟩ := hall u r hr
      rw [hs]
      exact hnext u r s hr hs
    · intro u r hr
      have hu : u ∈ σ.net.members := Network.mem_members.mpr ⟨r, hr⟩
      -- the node before `u` has `u` as successor, so it is the predecessor of `u`
      obtain ⟨w, hw, hwu⟩ : ∃ w ∈ σ.net.members, w ≠ u := by
        by_cases hua : u = a
        · exact ⟨v, hv, fun heq => hva (heq.trans hua)⟩
        · exact ⟨a, h.base, fun heq => hua heq.symm⟩
      obtain ⟨p, hp⟩ := exists_prev hw hwu
      obtain ⟨rp, hrp⟩ := Network.mem_members.mp hp.mem
      obtain ⟨s, hs⟩ := hall p rp hrp
      have hsu : s.uuid = u := (hnext p rp s hrp hs).unique ((next_iff_prev hp.mem hu).mpr hp)
      obtain ⟨rs, q, hrs, hq, hqp⟩ := settled_predecessor h hS hset hrp hs
      rw [hsu, hr] at hrs
      obtain rfl : r = rs := Option.some.inj hrs
      rw [hq]
      show Prev σ.net.members u q.uuid
      rw [hqp]
      exact hp

/-- Runs of concurrent joins settle only in the right ring, where no two uuids are one step apart
on the circle, and the last uuid but one and 0 are not both there. -/
theorem concurrent_joins_settle (peer : Node → Endpoint) (a : Node) (σ : System) (hrun : Run peer a σ)
    (hspaced : Spaced {u | u ∈ σ.started}) (hset : Settled peer σ) : RightRing σ.net :=
  settled_right (run_inv hrun hspaced) hspaced hset

/-! ## Two nodes -/

/-- One activity under way, and its next step. -/
theorem Run.single {peer : Node → Endpoint} {a : Node} {net net' : Network} {x : Activity}
    {next : List Activity} {started : List Uuid} (h : Run peer a ⟨net, [x], started⟩)
    (hx : x.step peer net = some (net', next)) : Run peer a ⟨net', next, started⟩ := by
  have := h.step (Step.progress [] [] x net' next rfl hx)
  rwa [List.nil_append, List.append_nil] at this

theorem init_update_self (x y : Node) : ((init x).update y).update x = (init x).update y := by
  rw [Router.update, if_pos]
  rw [update_context, init_context]

/-- The bootstrap node hears of the joiner for the first or the second time. -/
theorem pair_notify {a j : Node} (hne : j.uuid ≠ a.uuid) {peer : Node → Endpoint}
    (ha : make_node (peer j) a = a) (hj : make_node (peer j) j = j) {r : Router}
    (hr : r = init a ∨ r = (init a).update j) {net : Network} (hnet : net a.uuid = some r)
    (sender : NotifyFrom) :
    (Activity.notify j a (Client.notify_change j a j) sender).step peer net =
      some (Function.update net a.uuid (some ((init a).update j)), Activity.notified j.uuid .OK sender) := by
  have hcontext : r.context = a := by
    rcases hr with rfl | rfl
    · rfl
    · exact update_context _ _
  have hsafe : r.predecessor = none ∨ r.predecessor = some j ∨ r.successor ≠ none := by
    rcases hr with rfl | rfl
    · left; rfl
    · right; left; exact joined_first hne
  have hjr : r.update j = (init a).update j := by
    rcases hr with rfl | rfl
    · rfl
    · exact update_idem _ _
  obtain ⟨event, hres⟩ := Network.notify_change_ok (peer j) a (r := r) (j := j)
    (fun heq => hne (by rw [heq, hcontext])) hsafe
  rw [ha, hj, hjr, init_update_self, update_idem] at hres
  rw [Activity.step, hnet, Option.bind_eq_bind, Option.bind_some, hres]
  rfl

/-- A node joins a bootstrapped one, with nothing in between. -/
theorem pair_run {a j : Node} (hne : j.uuid ≠ a.uuid) {peer : Node → Endpoint} (ha : make_node (peer j) a = a)
    (hj : make_node (peer j) j = j) (hs : ((init j).update a).successor = some a) :
    Run peer a ⟨Network.pair a j, [], [j.uuid, a.uuid]⟩ := by
  have hboot : (bootstrap a).net a.uuid = some (init a) := if_pos rfl
  have hjoin : Service.join (init a) ⟨some (make_header j)⟩ = .ok (.answer a a) := by
    have hb : between a.uuid j.uuid a.uuid := (between_self _ _).mpr hne
    have hself : (init a).successor_or_self = a := rfl
    have hpred : (init a).predecessor = none := rfl
    simp [Service.join, hself, hpred, hb]
  have hjoined : Client.joined (init j) (some (a, a)) = (init j).update a := update_idem _ _
  have htargets : ChordFacade.join_targets ((init j).update a) = .ok (a, a) := by
    rw [ChordFacade.join_targets, joined_first hne.symm, hs]
    rfl
  have hpair : Function.update (Function.update (bootstrap a).net j.uuid (some ((init j).update a))) a.uuid
      (some ((init a).update j)) = Network.pair a j := by
    funext u
    rw [Network.pair]
    by_cases hua : u = a.uuid
    · rw [if_pos hua, hua, Function.update_self]
    · rw [if_neg hua, Function.update_of_ne hua]
      by_cases huj : u = j.uuid
      · rw [if_pos huj, huj, Function.update_self]
      · rw [if_neg huj, Function.update_of_ne huj]
        exact if_neg hua
  have h := Run.init.step (@Step.join peer _ j a (by simpa [bootstrap] using hne)
    (Network.mem_members.mpr ⟨_, hboot⟩))
  -- the answer, the updates of the joiner, and its two calls
  have h := h.single (by rw [Activity.step, hboot, Option.bind_eq_bind, Option.bind_some, hjoin])
  have h := h.single (by rw [Activity.step, hjoined])
  have h := h.single (by
    rw [Activity.step, Function.update_self, Option.bind_eq_bind, Option.bind_some, htargets]
    rfl)
  rw [update_context] at h
  have h := h.single (pair_notify hne ha hj (Or.inl rfl)
      (by rw [Function.update_of_ne hne.symm]; exact hboot) _)
  rw [hpair] at h
  have h := h.single (by
    rw [Activity.step, Network.pair_right hne, Option.bind_eq_bind, Option.bind_some, htargets]
    rfl)
  rw [update_context] at h
  have h := h.single (pair_notify hne ha hj (Or.inr rfl) (Network.pair_left a j) _)
  rw [← Network.pair_left, Function.update_eq_self] at h
  have h := h.single (by rw [Activity.step, Network.pair_right hne, Option.bind_eq_bind, Option.bind_some])
  rwa [ChordFacade.joined_or_reset, if_pos ⟨rfl, rfl⟩, ← Network.pair_right hne, Function.update_eq_self] at h

/-- A round of one of two nodes tells the other what it knows. -/
theorem pair_round {x y : Node} (hne : y.uuid ≠ x.uuid) (peer : Node → Endpoint) {net : Network}
    (hx : net x.uuid = some ((init x).update y)) (hy : net y.uuid = some ((init y).update x)) :
    stabilize_round peer net x.uuid = some net := by
  cases hs : ((init x).update y).successor with
  | none =>
    rw [stabilize_round, hx, Option.bind_eq_bind, Option.bind_some, Activity.start_stabilize, hs]
    rfl
  | some s =>
    obtain rfl : s = y := by
      rcases mem_nodes_update (successor_mem hs) with heq | hmem
      · exact heq
      · rw [init_nodes] at hmem; cases hmem
    have hpred : ((init s).update x).predecessor = some x := joined_first hne.symm
    have hkept : Client.stabilize_reply ((init x).update s) s (some ((init s).update x).predecessor) =
        (init x).update s := by
      rw [hpred, Client.stabilize_reply, if_neg (by rw [update_context]; exact not_between_left _ _)]
    have hnotify : Service.notify ((init s).update x) (peer ((init x).update s).context)
        (Client.notify_request ((init x).update s).context) = .ok ⟨.OK, (init s).update x, none⟩ := by
      have hxs : x ≠ s := fun heq => hne (by rw [heq])
      have hchanged : Service.changed_predecessor ((init s).update x) x = .ok false := by
        rw [Service.changed_predecessor, hpred]
        exact if_neg (not_not_intro rfl)
      rw [update_context, init_context]
      simp only [Service.notify, Client.notify_request, source_of_make_header, update_context, init_context,
        if_neg hxs, hchanged, ok_bind, Service.notify_records, List.foldl_cons, List.foldl_nil, update_idem]
      rfl
    rw [stabilize_round_eq peer hx (by rw [update_context]; rfl) hs hne hy hkept.symm rfl
      (by rw [← hx, Function.update_eq_self]) hs hne hy hnotify, ← hy, Function.update_eq_self]

theorem pair_settled {a j : Node} (hne : j.uuid ≠ a.uuid) (peer : Node → Endpoint) :
    Settled peer ⟨Network.pair a j, [], [j.uuid, a.uuid]⟩ where
  active := rfl
  rounds u hu := by
    rw [Network.pair_members] at hu
    rcases hu with rfl | rfl
    · exact pair_round hne peer (Network.pair_left a j) (Network.pair_right hne)
    · exact pair_round hne.symm peer (Network.pair_right hne) (Network.pair_left a j)

theorem half_circle_settles : RightRing (Network.pair ⟨0, []⟩ ⟨BitVec.twoPow 256 255, []⟩) :=
  concurrent_joins_settle (fun _ => []) ⟨0, []⟩ ⟨Network.pair ⟨0, []⟩ ⟨BitVec.twoPow 256 255, []⟩, [], _⟩
    (pair_run (by decide) rfl rfl (by decide)) (by simp [Spaced]; decide) (pair_settled (by decide) _)

/-- The first start of the last node but one is not before 0, so it never learns its successor. -/
theorem no_successor_settled : ¬ ∀ (peer : Node → Endpoint) (a : Node) (σ : System), Run peer a σ →
    (∀ u ∈ σ.started, ∀ v ∈ σ.started, u.toNat + 1 ≠ v.toNat) → Settled peer σ → RightRing σ.net := by
  intro h
  have hne : (⟨0, []⟩ : Node).uuid ≠ (⟨BitVec.allOnes 256 - 1, []⟩ : Node).uuid := by decide
  have hgap : ∀ u ∈ [(0 : Uuid), BitVec.allOnes 256 - 1], ∀ v ∈ [(0 : Uuid), BitVec.allOnes 256 - 1],
      u.toNat + 1 ≠ v.toNat := by simp
  have hright := h (fun _ => []) ⟨BitVec.allOnes 256 - 1, []⟩
      ⟨Network.pair ⟨BitVec.allOnes 256 - 1, []⟩ ⟨0, []⟩, [], _⟩
    (pair_run hne rfl rfl (by decide)) hgap (pair_settled hne _)
  have hsucc := hright.successor _ _ (Network.pair_left _ _)
  have hnone : ((init ⟨BitVec.allOnes 256 - 1, []⟩).update ⟨0, []⟩).successor = none := by decide
  rw [hnone] at hsucc
  exact hne (hsucc _ (Network.mem_members.mpr ⟨_, Network.pair_right hne⟩))

end System

end Chord
