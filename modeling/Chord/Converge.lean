import Chord.Settled
import Chord.Lib.Quiesce
import Mathlib.Algebra.BigOperators.Group.Finset.Basic
import Mathlib.Algebra.Order.BigOperators.Group.Finset

/-!
# Concurrent joins and stabilize rounds come to rest

An update moves an entry to a nearer node, or the predecessor to a further one, so the routers
change finitely often. Where every node goes on stabilizing and every call comes back, they come
to rest in the right ring.
-/

open Circle Quiesce

namespace Chord

open Router

/-! ## What an update makes smaller -/

/-- How far an entry is from its node. An empty entry is further than any. -/
def entry_size (self : Uuid) (e : RouterEntry) : Nat := e.node.elim (2 ^ 256) fun n => steps self n.uuid

/-- How far the predecessor is from self, on the way to it. -/
def predecessor_size (self : Uuid) (o : Option Node) : Nat :=
  o.elim (2 ^ 256 + 1) fun p => 2 ^ 256 - steps self p.uuid

def Router.size (r : Router) : Nat :=
  (r.successors.map (entry_size r.context.uuid)).sum + predecessor_size r.context.uuid r.predecessor

theorem entry_size_le (self : Uuid) (e : RouterEntry) : entry_size self e ≤ 2 ^ 256 := by
  rw [entry_size]
  cases e.node with
  | none => rw [Option.elim_none]
  | some n =>
    rw [Option.elim_some]
    exact le_of_lt (steps_lt self n.uuid)

theorem update_entry_size {r : Router} (h : r.table.WF) (n : Node) {e : RouterEntry} (he : e ∈ r.successors) :
    update_entry r.context.uuid n e = e ∨
      entry_size r.context.uuid (update_entry r.context.uuid n e) < entry_size r.context.uuid e := by
  by_cases hr : replaces r.context.uuid n e
  · right
    obtain ⟨-, hnear⟩ := (replaces_iff h n he).mp hr
    rw [update_entry, if_pos hr, entry_size, entry_size]
    cases hen : e.node with
    | none =>
      rw [Option.elim_some, Option.elim_none]
      exact steps_lt _ _
    | some m =>
      rw [Option.elim_some, Option.elim_some]
      exact hnear _ (by simp [slot, hen])
  · left
    exact if_neg hr

theorem update_predecessor_size (self : Uuid) (n : Node) (o : Option Node) :
    some (update_predecessor self n o) = o ∨
      predecessor_size self (some (update_predecessor self n o)) < predecessor_size self o := by
  cases o with
  | none =>
    right
    simp only [predecessor_size, Option.elim_some, Option.elim_none]
    omega
  | some p =>
    rw [update_predecessor]
    split
    · rename_i hb
      right
      have hlt : steps self p.uuid < steps self n.uuid := by
        by_cases hself : p.uuid = self
        · rw [hself, steps_self, steps_pos]
          rintro rfl
          rw [hself] at hb
          exact not_between_left _ _ hb.2
        · exact (between_to hself).mp hb.2
      have hn := steps_lt self n.uuid
      simp only [predecessor_size, Option.elim_some]
      omega
    · left; rfl

/-- A map that keeps or shrinks each element of a list keeps or shrinks their sum. -/
theorem map_shrinks {α : Type} {f : α → α} {size : α → Nat} {l : List α}
    (h : ∀ a ∈ l, f a = a ∨ size (f a) < size a) :
    l.map f = l ∨ ((l.map f).map size).sum < (l.map size).sum := by
  induction l with
  | nil => left; rfl
  | cons a l ih =>
    simp only [List.map_cons, List.sum_cons]
    rcases h a List.mem_cons_self with ha | ha <;>
      rcases ih (fun b hb => h b (List.mem_cons_of_mem a hb)) with hl | hl
    · left; rw [ha, hl]
    · right; rw [ha]; omega
    · right; rw [hl]; omega
    · right; omega

theorem update_shrinks {r : Router} (h : r.table.WF) (n : Node) :
    r.update n = r ∨ (r.update n).size < r.size := by
  by_cases hn : n = r.context
  · left
    rw [Router.update, if_pos hn]
  · have hlist := map_shrinks (l := r.successors) fun e he => update_entry_size h n he
    have hpred := update_predecessor_size r.context.uuid n r.predecessor
    rw [← update_successors hn] at hlist
    rw [← predecessor_update hn] at hpred
    simp only [Router.size, update_context]
    rcases hlist with hl | hl <;> rcases hpred with hp | hp
    · left; exact ext_fields (update_context r n) hl hp
    · right; rw [hl]; omega
    · right; rw [hp]; omega
    · right; omega

theorem updates_shrink {r : Router} (h : r.table.WF) (ns : List Node) :
    ns.foldl Router.update r = r ∨ (ns.foldl Router.update r).size < r.size := by
  induction ns generalizing r with
  | nil => left; rfl
  | cons n ns ih =>
    rw [List.foldl_cons]
    rcases update_shrinks h n with heq | hlt
    · rw [heq]
      exact ih h
    · right
      rcases ih (update_wf h n) with heq | hlt'
      · rw [heq]; exact hlt
      · omega

theorem notify_records_of_ok {r : Router} {peer : Endpoint} {req : NotifyRequest} {res : Service.NotifyResult}
    (h : Service.notify r peer req = .ok res) : ∃ ns : List Node, res.router = ns.foldl Router.update r := by
  unfold Service.notify at h
  split at h
  · cases h
    exact ⟨[], rfl⟩
  · split at h
    · cases h
      exact ⟨[], rfl⟩
    · rename_i source _ _
      cases hc : Service.changed_predecessor r source with
      | error e => rw [hc] at h; cases h
      | ok c =>
        rw [hc] at h
        cases h
        exact ⟨_, rfl⟩

/-! ## What a step makes smaller -/

namespace System

/-- More than any router. -/
def node_size (o : Option Router) : Nat := o.elim (257 * 2 ^ 256 + 2) Router.size

theorem router_size_lt (r : Router) : r.size < 257 * 2 ^ 256 + 2 := by
  have hsum : (r.successors.map (entry_size r.context.uuid)).sum ≤ r.successors.length * 2 ^ 256 := by
    induction r.successors with
    | nil => simp
    | cons e l ih =>
      have := entry_size_le r.context.uuid e
      rw [List.map_cons, List.sum_cons, List.length_cons, Nat.succ_mul]
      omega
  have hpred : predecessor_size r.context.uuid r.predecessor ≤ 2 ^ 256 + 1 := by
    rw [predecessor_size]
    cases r.predecessor with
    | none => rw [Option.elim_none]
    | some p => rw [Option.elim_some]; omega
  rw [r.successors_length, BITS] at hsum
  rw [Router.size]
  omega

def net_size (started : List Uuid) (net : Network) : Nat := ∑ u ∈ started.toFinset, node_size (net u)

theorem net_size_update {started : List Uuid} {net : Network} {u : Uuid} (hu : u ∈ started) {r : Router}
    (h : net u = some r ∨ r.size < node_size (net u)) :
    Function.update net u (some r) = net ∨
      net_size started (Function.update net u (some r)) < net_size started net := by
  rcases h with heq | hlt
  · left
    rw [← heq, Function.update_eq_self]
  · right
    apply Finset.sum_lt_sum
    · intro v _
      by_cases hvu : v = u
      · rw [hvu, Function.update_self]
        exact le_of_lt hlt
      · rw [Function.update_of_ne hvu]
    · exact ⟨u, List.mem_toFinset.mpr hu, by rw [Function.update_self]; exact hlt⟩

/-- An activity that changes a router at all makes the network smaller. -/
theorem activity_shrinks {peer : Node → Endpoint} {a : Uuid} {σ : System} (h : Inv a σ) {x : Activity}
    (hx : x ∈ σ.active) {net : Network} {next : List Activity}
    (hstep : x.step peer σ.net = some (net, next)) :
    net = σ.net ∨ net_size σ.started net < net_size σ.started σ.net := by
  have hmem : ∀ {u r}, σ.net u = some r → u ∈ σ.started := fun hr =>
    h.members _ (Network.mem_members.mpr ⟨_, hr⟩)
  -- a router that learned something takes the place of the old one
  have hput : ∀ {u r} (ns : List Node), σ.net u = some r →
      Function.update σ.net u (some (ns.foldl Router.update r)) = σ.net ∨
        net_size σ.started (Function.update σ.net u (some (ns.foldl Router.update r))) <
          net_size σ.started σ.net := by
    intro u r ns hr
    apply net_size_update (hmem hr)
    rcases updates_shrink (h.nodes u r hr).wf ns with heq | hlt
    · left; rw [heq, hr]
    · right; rw [hr]; exact hlt
  have hinv := h.active x hx
  cases x with
  | join_request j target =>
    simp only [Activity.step, Option.bind_eq_bind, Option.bind_eq_some_iff] at hstep
    obtain ⟨r, -, hstep⟩ := hstep
    left
    split at hstep
    · cases hstep
    · cases hstep
    · simp only [Option.some.injEq, Prod.mk.injEq] at hstep
      exact hstep.1.symm
    · simp only [Option.bind_eq_some_iff, Option.some.injEq, Prod.mk.injEq] at hstep
      obtain ⟨_, -, heq, -⟩ := hstep
      exact heq.symm
  | join_response j s p =>
    obtain ⟨hstarted, hnot⟩ := h.joiners j.uuid (List.mem_filterMap.mpr ⟨_, hx, rfl⟩)
    simp only [Activity.step, Option.some.injEq, Prod.mk.injEq] at hstep
    have hnone : σ.net j.uuid = none := by simpa [Network.members] using hnot
    rw [← hstep.1]
    apply net_size_update hstarted
    right
    rw [hnone]
    exact router_size_lt _
  | call_predecessor u =>
    simp only [Activity.step, Option.bind_eq_bind, Option.bind_eq_some_iff, Option.some.injEq,
      Prod.mk.injEq] at hstep
    obtain ⟨r, -, ⟨p, s⟩, -, heq, -⟩ := hstep
    left; exact heq.symm
  | call_successor u status_pred =>
    simp only [Activity.step, Option.bind_eq_bind, Option.bind_eq_some_iff, Option.some.injEq,
      Prod.mk.injEq] at hstep
    obtain ⟨r, -, ⟨p, s⟩, -, heq, -⟩ := hstep
    left; exact heq.symm
  | join_done u status_pred status_succ =>
    obtain ⟨-, rfl, rfl⟩ := hinv
    simp only [Activity.step, Option.bind_eq_bind, Option.bind_eq_some_iff, Option.some.injEq,
      Prod.mk.injEq] at hstep
    obtain ⟨r, hr, heq, -⟩ := hstep
    left
    rw [← heq, ChordFacade.joined_or_reset, if_pos ⟨rfl, rfl⟩, ← hr, Function.update_eq_self]
  | stabilize u asked =>
    simp only [Activity.step, Option.bind_eq_bind, Option.bind_eq_some_iff, Option.some.injEq,
      Prod.mk.injEq] at hstep
    obtain ⟨r, -, heq, -⟩ := hstep
    left; exact heq.symm
  | stabilize_response u asked pred =>
    simp only [Activity.step, Option.bind_eq_bind, Option.bind_eq_some_iff, Option.some.injEq,
      Prod.mk.injEq] at hstep
    obtain ⟨r, hr, rfl, -⟩ := hstep
    have hreply : ∃ ns : List Node, Client.stabilize_reply r asked (some pred) =
        ns.foldl Router.update r := by
      cases pred with
      | none => exact ⟨[], rfl⟩
      | some p =>
        rw [Client.stabilize_reply]
        split
        · exact ⟨[p], rfl⟩
        · exact ⟨[], rfl⟩
    obtain ⟨ns, hns⟩ := hreply
    rw [hns]
    exact hput ns hr
  | call_notify u =>
    simp only [Activity.step, Option.bind_eq_bind, Option.bind_eq_some_iff, Option.some.injEq,
      Prod.mk.injEq] at hstep
    obtain ⟨r, -, heq, -⟩ := hstep
    left; exact heq.symm
  | notify source target req sender =>
    simp only [Activity.step, Option.bind_eq_bind, Option.bind_eq_some_iff, Option.some.injEq,
      Prod.mk.injEq] at hstep
    obtain ⟨r, hr, res, hres, rfl, -⟩ := hstep
    cases hn : Service.notify r (peer source) req with
    | error e => rw [hn] at hres; cases hres
    | ok res' =>
      rw [hn] at hres
      obtain rfl : res' = res := Option.some.inj hres
      obtain ⟨ns, hns⟩ := notify_records_of_ok hn
      rw [hns]
      exact hput ns hr

theorem step_shrinks {peer : Node → Endpoint} {a : Uuid} {σ σ' : System} (h : Inv a σ)
    (hstep : Step peer σ σ') (hjoin : σ'.started = σ.started) :
    σ'.net = σ.net ∨ net_size σ.started σ'.net < net_size σ.started σ.net := by
  cases hstep with
  | join j target _ _ => exact absurd (congrArg List.length hjoin) (by simp)
  | stabilize u r _ => left; rfl
  | progress before after x net next hactive hx =>
    exact activity_shrinks h (by rw [hactive]; simp) hx

/-! ## Fair runs -/

/-- The node `u` begins a round. -/
def Starts (u : Uuid) (σ σ' : System) : Prop :=
  ∃ r, σ.net u = some r ∧ σ' = ⟨σ.net, Activity.start_stabilize r ++ σ.active, σ.started⟩

/-- The activity `x` goes on. -/
def Proceeds (peer : Node → Endpoint) (x : Activity) (σ σ' : System) : Prop :=
  ∃ before after net next, σ.active = before ++ x :: after ∧ x.step peer σ.net = some (net, next) ∧
    σ' = ⟨net, before ++ next ++ after, σ.started⟩

/-- A run without end: finitely many joins, every node begins one round after the other, and
whatever is under way goes on some day. -/
structure FairRun (peer : Node → Endpoint) (a : Node) (σ : Nat → System) : Prop where
  init : Run peer a (σ 0)
  step : ∀ n, Step peer (σ n) (σ (n + 1))
  joins : ∃ start, ∀ n, start ≤ n → (σ n).started = (σ start).started
  rounds : ∀ n, ∀ u ∈ (σ n).net.members, ∃ m, n ≤ m ∧ Starts u (σ m) (σ (m + 1))
  calls : ∀ n, ∀ x ∈ (σ n).active, ∃ m, n ≤ m ∧ Proceeds peer x (σ m) (σ (m + 1))

theorem FairRun.run {peer : Node → Endpoint} {a : Node} {σ : Nat → System} (h : FairRun peer a σ) (n : Nat) :
    Run peer a (σ n) := by
  induction n with
  | zero => exact h.init
  | succ n ih => exact ih.step (h.step n)

section

variable {peer : Node → Endpoint} {a : Node} {σ : Nat → System} (h : FairRun peer a σ)
  (hspaced : ∀ n, Spaced {u | u ∈ (σ n).started})

include h hspaced

theorem FairRun.inv (n : Nat) : Inv a.uuid (σ n) := run_inv (h.run n) (hspaced n)

theorem FairRun.atRest : ∃ n, AtRest (fun n => (σ n).net) n := by
  obtain ⟨start, hstart⟩ := h.joins
  obtain ⟨n, -, hn⟩ := exists_atRest (x := fun n => (σ n).net) (net_size (σ start).started) start
    (by
      intro n hn
      have hsame : (σ (n + 1)).started = (σ n).started := by
        rw [hstart (n + 1) (by omega), hstart n hn]
      have hstep := step_shrinks (h.inv hspaced n) (h.step n) hsame
      rwa [hstart n hn] at hstep)
  exact ⟨n, hn⟩

omit hspaced in
/-- Once the routers are at rest, what is under way goes on without a change. -/
theorem FairRun.quiet {n : Nat} (hrest : AtRest (fun n => (σ n).net) n) {m : Nat} (hm : n ≤ m) {x : Activity}
    (hx : x ∈ (σ m).active) : ∃ k next, n ≤ k ∧ x.step peer (σ n).net = some ((σ n).net, next) ∧
      ∀ y ∈ next, y ∈ (σ k).active := by
  obtain ⟨k, hk, before, after, net, next, -, hstep, hnext⟩ := h.calls m x hx
  have hnet : (σ k).net = (σ n).net := hrest k (by omega)
  have hnet' : (σ (k + 1)).net = (σ n).net := hrest (k + 1) (by omega)
  rw [hnext] at hnet'
  rw [hnet] at hstep
  refine ⟨k + 1, next, by omega, by rw [hstep, ← hnet'], ?_⟩
  intro y hy
  rw [hnext]
  exact List.mem_append_left _ (List.mem_append_right _ hy)

omit h hspaced in
theorem drain_single {x : Activity} {net net' : Network} {next : List Activity}
    (hstep : x.step peer net = some (net', next)) (fuel : Nat) :
    drain peer (fuel + 1) net [x] = drain peer fuel net' next := by
  simp only [drain, hstep, Option.bind_eq_bind, Option.bind_some, List.append_nil]

omit hspaced in
/-- A round begun after that, from its question to its notify. -/
theorem FairRun.quiet_round {n : Nat} (hrest : AtRest (fun n => (σ n).net) n) {u : Uuid}
    (hu : u ∈ (σ n).net.members) : stabilize_round peer (σ n).net u = some (σ n).net := by
  obtain ⟨m, hm, r, hr, hstart⟩ := h.rounds n u hu
  have hnet : (σ m).net = (σ n).net := hrest m hm
  rw [hnet] at hr
  have hactive : ∀ x ∈ Activity.start_stabilize r, x ∈ (σ (m + 1)).active := by
    intro x hx
    rw [hstart]
    exact List.mem_append_left _ hx
  rw [stabilize_round, hr, Option.bind_eq_bind, Option.bind_some]
  rw [Activity.start_stabilize] at hactive ⊢
  cases hs : r.successor with
  | none => rfl
  | some s =>
    rw [hs] at hactive
    dsimp only at hactive ⊢
    split at hactive
    · rename_i hself
      rw [if_pos hself]
      rfl
    · rename_i hself
      rw [if_neg hself]
      obtain ⟨k₁, next₁, hk₁, hstep₁, hnext₁⟩ :=
        h.quiet hrest (by omega) (hactive _ (List.mem_singleton_self _))
      rw [drain_single hstep₁]
      simp only [Activity.step, Option.bind_eq_bind, Option.bind_eq_some_iff, Option.some.injEq,
        Prod.mk.injEq] at hstep₁
      obtain ⟨rs, -, -, rfl⟩ := hstep₁
      obtain ⟨k₂, next₂, hk₂, hstep₂, hnext₂⟩ := h.quiet hrest hk₁ (hnext₁ _ (List.mem_singleton_self _))
      rw [drain_single hstep₂]
      simp only [Activity.step, Option.bind_eq_bind, Option.bind_eq_some_iff, Option.some.injEq,
        Prod.mk.injEq] at hstep₂
      obtain ⟨r₂, hr₂, -, rfl⟩ := hstep₂
      obtain ⟨k₃, next₃, hk₃, hstep₃, hnext₃⟩ := h.quiet hrest hk₂ (hnext₂ _ (List.mem_singleton_self _))
      rw [drain_single hstep₃]
      simp only [Activity.step, Option.bind_eq_bind, Option.bind_eq_some_iff, Option.some.injEq,
        Prod.mk.injEq] at hstep₃
      obtain ⟨r₃, hr₃, -, rfl⟩ := hstep₃
      rw [Activity.notify_successor] at hnext₃ ⊢
      split at hnext₃
      · rfl
      · split at hnext₃
        · rename_i hcontext
          rw [if_pos hcontext]
          rfl
        · rename_i hcontext
          rw [if_neg hcontext]
          obtain ⟨k₄, next₄, -, hstep₄, -⟩ := h.quiet hrest hk₃ (hnext₃ _ (List.mem_singleton_self _))
          rw [drain_single hstep₄]
          simp only [Activity.step, Option.bind_eq_bind, Option.bind_eq_some_iff, Option.some.injEq,
            Prod.mk.injEq] at hstep₄
          obtain ⟨_, -, _, -, -, rfl⟩ := hstep₄
          rfl

/-- Every fair run comes to rest, and it does so in the right ring. -/
theorem FairRun.settles : ∃ n, AtRest (fun n => (σ n).net) n ∧ RightRing (σ n).net := by
  obtain ⟨n, hrest⟩ := h.atRest hspaced
  have hinv := h.inv hspaced n
  have hidle : Inv a.uuid ⟨(σ n).net, [], (σ n).started⟩ := {
    base := hinv.base
    members := hinv.members
    nodes := hinv.nodes
    fresh := List.nodup_nil
    joiners := by intro j hj; cases hj
    active := by intro x hx; cases hx }
  have hset : Settled peer ⟨(σ n).net, [], (σ n).started⟩ := ⟨rfl, fun u hu => h.quiet_round hrest hu⟩
  exact ⟨n, hrest, @settled_right peer a.uuid ⟨(σ n).net, [], (σ n).started⟩ hidle (hspaced n) hset⟩

end

/-- A fair run of joins and stabilize rounds, interleaved in any way, ends up in the right ring
and stays there, where no two uuids are one step apart on the circle, and the last uuid but one
and 0 are not both there. -/
theorem fair_runs_settle (peer : Node → Endpoint) (a : Node) (σ : Nat → System) (hfair : FairRun peer a σ)
    (hspaced : ∀ n, Spaced {u | u ∈ (σ n).started}) :
    ∃ n, ∀ m, n ≤ m → (σ m).net = (σ n).net ∧ RightRing (σ m).net := by
  obtain ⟨n, hrest, hright⟩ := hfair.settles hspaced
  refine ⟨n, fun m hm => ?_⟩
  have hnet : (σ m).net = (σ n).net := hrest m hm
  rw [hnet]
  exact ⟨rfl, hright⟩

/-! ## Nothing gets stuck -/

/-- The next step of an activity is always there: no handler faults, and every call finds the node
that it is for. -/
theorem activity_proceeds {peer : Node → Endpoint} {a : Uuid} {σ : System} (h : Inv a σ)
    (hS : Spaced {u | u ∈ σ.started}) {x : Activity} (hx : x ∈ σ.active) :
    ∃ net next, x.step peer σ.net = some (net, next) := by
  have hM : Spaced σ.net.members := fun u hu v hv => hS u (h.members u hu) v (h.members v hv)
  have hinv := h.active x hx
  have hjoined : ∀ {u r}, σ.net u = some r → u ≠ a → ∃ t, (ChordFacade.join_targets r).toOption = some t := by
    intro u r hr hua
    obtain ⟨s, hs, -⟩ := (h.nodes u r hr).ahead hua
    obtain ⟨p, hp, -⟩ := (h.nodes u r hr).behind hua
    exact ⟨(p, s), by rw [ChordFacade.join_targets, hp, hs]; rfl⟩
  cases x with
  | join_request j target =>
    obtain ⟨r, hr⟩ := Network.mem_members.mp hinv
    obtain ⟨-, hj⟩ := h.joiners j.uuid (List.mem_filterMap.mpr ⟨_, hx, rfl⟩)
    rcases service_join_inv hinv (h.nodes _ _ hr) hj with ⟨s, p, hjoin, -⟩ | hjoin
    · exact ⟨_, _, by simp only [Activity.step, hr, hjoin, Option.bind_eq_bind, Option.bind_some]; rfl⟩
    · obtain ⟨n, rest, hn⟩ := List.exists_cons_of_ne_nil
        (l := r.closest_preceding_nodes j.uuid) (by rw [closest_preceding_nodes_eq]; simp)
      exact ⟨_, _, by
        simp only [Activity.step, hr, hjoin, hn, Option.bind_eq_bind, Option.bind_some, List.head?_cons]
        rfl⟩
  | join_response j s p => exact ⟨_, _, rfl⟩
  | call_predecessor u =>
    obtain ⟨r, hr⟩ := Network.mem_members.mp hinv.1
    obtain ⟨⟨p, s⟩, ht⟩ := hjoined hr hinv.2
    exact ⟨_, _, by simp only [Activity.step, hr, ht, Option.bind_eq_bind, Option.bind_some]; rfl⟩
  | call_successor u status_pred =>
    obtain ⟨r, hr⟩ := Network.mem_members.mp hinv.1
    obtain ⟨⟨p, s⟩, ht⟩ := hjoined hr hinv.2.1
    exact ⟨_, _, by simp only [Activity.step, hr, ht, Option.bind_eq_bind, Option.bind_some]; rfl⟩
  | join_done u status_pred status_succ =>
    obtain ⟨r, hr⟩ := Network.mem_members.mp hinv.1
    exact ⟨_, _, by simp only [Activity.step, hr, Option.bind_eq_bind, Option.bind_some]; rfl⟩
  | stabilize u asked =>
    obtain ⟨r, hr⟩ := Network.mem_members.mp hinv.2
    exact ⟨_, _, by simp only [Activity.step, hr, Option.bind_eq_bind, Option.bind_some]; rfl⟩
  | stabilize_response u asked pred =>
    obtain ⟨r, hr⟩ := Network.mem_members.mp hinv.1
    exact ⟨_, _, by simp only [Activity.step, hr, Option.bind_eq_bind, Option.bind_some]; rfl⟩
  | call_notify u =>
    obtain ⟨r, hr⟩ := Network.mem_members.mp hinv
    exact ⟨_, _, by simp only [Activity.step, hr, Option.bind_eq_bind, Option.bind_some]; rfl⟩
  | notify source target req sender =>
    obtain ⟨hsource, htarget, hne, hreq, hold, hnew, -⟩ := hinv
    obtain ⟨r, hr⟩ := Network.mem_members.mp htarget
    obtain ⟨res, hres, -⟩ := service_notify_inv hM htarget (h.nodes _ _ hr) (peer source) source hsource hne
      req hreq hold hnew
    exact ⟨_, _, by
      simp only [Activity.step, hr, hres, Except.toOption, Option.bind_eq_bind, Option.bind_some]
      rfl⟩

/-- What is under way before each step of a round of `x`, which asks `y`. -/
def turn (x y : Node) : Nat → List Activity
  | 0 => []
  | 1 => [.stabilize x.uuid y]
  | 2 => [.stabilize_response x.uuid y (some x)]
  | 3 => [.call_notify x.uuid]
  | _ => [.notify x y (Client.notify_request x) .stabilize]

section

variable {peer : Node → Endpoint} {x y : Node} {net : Network} {started : List Uuid}

theorem turn_starts (hne : y.uuid ≠ x.uuid) (hx : net x.uuid = some ((init x).update y))
    (hs : ((init x).update y).successor = some y) :
    Starts x.uuid ⟨net, turn x y 0, started⟩ ⟨net, turn x y 1, started⟩ := by
  refine ⟨_, hx, ?_⟩
  simp only [Activity.start_stabilize, hs, update_context, init_context, if_neg hne, turn]
  rfl

theorem turn_proceeds (hne : y.uuid ≠ x.uuid) (hx : net x.uuid = some ((init x).update y))
    (hy : net y.uuid = some ((init y).update x)) (hs : ((init x).update y).successor = some y) {k : Nat}
    (hk : k = 1 ∨ k = 2 ∨ k = 3 ∨ k = 4) :
    ∃ z, turn x y k = [z] ∧ z.step peer net = some (net, turn x y ((k + 1) % 5)) := by
  rcases hk with rfl | rfl | rfl | rfl
  · refine ⟨_, rfl, ?_⟩
    rw [Activity.step, hy, Option.bind_eq_bind, Option.bind_some, Service.stabilize, joined_first hne.symm]
    rfl
  · refine ⟨_, rfl, ?_⟩
    have hkept : Client.stabilize_reply ((init x).update y) y (some (some x)) = (init x).update y := by
      rw [Client.stabilize_reply, if_neg (by rw [update_context]; exact not_between_left _ _)]
    rw [Activity.step, hx, Option.bind_eq_bind, Option.bind_some, hkept, ← hx, Function.update_eq_self]
    rfl
  · refine ⟨_, rfl, ?_⟩
    have hyx : y ≠ x := fun heq => hne (congrArg Node.uuid heq)
    rw [Activity.step, hx, Option.bind_eq_bind, Option.bind_some, Activity.notify_successor, hs]
    simp only [update_context, init_context, if_neg hyx]
    rfl
  · refine ⟨_, rfl, ?_⟩
    have hxy : x ≠ y := fun heq => hne (congrArg Node.uuid heq).symm
    have hchanged : Service.changed_predecessor ((init y).update x) x = .ok false := by
      rw [Service.changed_predecessor, joined_first hne.symm]
      exact if_neg (not_not_intro rfl)
    have hnotify : Service.notify ((init y).update x) (peer x) (Client.notify_request x) =
        .ok ⟨.OK, (init y).update x, none⟩ := by
      simp only [Service.notify, Client.notify_request, source_of_make_header, update_context, init_context,
        if_neg hxy, hchanged, ok_bind, Service.notify_records, List.foldl_cons, List.foldl_nil, update_idem]
      rfl
    rw [Activity.step, hy, Option.bind_eq_bind, Option.bind_some, hnotify, Except.toOption,
      Option.bind_eq_bind, Option.bind_some, ← hy, Function.update_eq_self]
    rfl

end

/-- Both nodes in turn, five steps each. -/
def pair_rounds (a j : Node) (n : Nat) : System :=
  ⟨Network.pair a j, if n / 5 % 2 = 0 then turn a j (n % 5) else turn j a (n % 5), [j.uuid, a.uuid]⟩

/-- One step, in the round of `x`. -/
theorem pair_rounds_next (a j : Node) (n : Nat) : ∃ x y,
    (n / 5 % 2 = 0 ∧ x = a ∧ y = j ∨ n / 5 % 2 = 1 ∧ x = j ∧ y = a) ∧
      pair_rounds a j n = ⟨Network.pair a j, turn x y (n % 5), [j.uuid, a.uuid]⟩ ∧
      pair_rounds a j (n + 1) = ⟨Network.pair a j, turn x y ((n % 5 + 1) % 5), [j.uuid, a.uuid]⟩ := by
  have hstep : (n + 1) / 5 % 2 = n / 5 % 2 ∧ (n + 1) % 5 = (n % 5 + 1) % 5 ∨
      (n % 5 + 1) % 5 = 0 ∧ (n + 1) % 5 = 0 := by omega
  rcases Nat.mod_two_eq_zero_or_one (n / 5) with hn | hn
  · refine ⟨a, j, Or.inl ⟨hn, rfl, rfl⟩, by rw [pair_rounds, if_pos hn], ?_⟩
    rw [pair_rounds]
    rcases hstep with ⟨hturn, hmod⟩ | ⟨hmod, hmod'⟩
    · rw [hturn, if_pos hn, hmod]
    · rw [hmod, hmod', turn, turn, ite_self]
  · refine ⟨j, a, Or.inr ⟨hn, rfl, rfl⟩, by rw [pair_rounds, if_neg (by omega)], ?_⟩
    rw [pair_rounds]
    rcases hstep with ⟨hturn, hmod⟩ | ⟨hmod, hmod'⟩
    · rw [hturn, if_neg (by omega), hmod]
    · rw [hmod, hmod', turn, turn, ite_self]

section

variable {a j : Node} (hne : j.uuid ≠ a.uuid) (ha : ((init a).update j).successor = some j)
  (hj : ((init j).update a).successor = some a)

include hne ha hj

theorem pair_rounds_start (n : Nat) (hn : n % 5 = 0) :
    Starts (if n / 5 % 2 = 0 then a.uuid else j.uuid) (pair_rounds a j n) (pair_rounds a j (n + 1)) := by
  obtain ⟨x, y, hxy, hcur, hnext⟩ := pair_rounds_next a j n
  rw [hcur, hnext, hn]
  rcases hxy with ⟨hturn, rfl, rfl⟩ | ⟨hturn, rfl, rfl⟩
  · rw [if_pos hturn]
    exact turn_starts hne (Network.pair_left x y) ha
  · rw [if_neg (by omega)]
    exact turn_starts hne.symm (Network.pair_right hne) hj

theorem pair_rounds_proceed (n : Nat) (hn : n % 5 ≠ 0) :
    ∃ z, (pair_rounds a j n).active = [z] ∧
      z.step (fun _ => []) (pair_rounds a j n).net = some ((pair_rounds a j (n + 1)).net,
        (pair_rounds a j (n + 1)).active) := by
  have hk : n % 5 = 1 ∨ n % 5 = 2 ∨ n % 5 = 3 ∨ n % 5 = 4 := by omega
  obtain ⟨x, y, hxy, hcur, hnext⟩ := pair_rounds_next a j n
  rw [hcur, hnext]
  rcases hxy with ⟨-, rfl, rfl⟩ | ⟨-, rfl, rfl⟩
  · exact turn_proceeds hne (Network.pair_left x y) (Network.pair_right hne) ha hk
  · exact turn_proceeds hne.symm (Network.pair_right hne) (Network.pair_left y x) hj hk

theorem pair_rounds_proceeds (n : Nat) {z : Activity} (hz : z ∈ (pair_rounds a j n).active) :
    Proceeds (fun _ => []) z (pair_rounds a j n) (pair_rounds a j (n + 1)) := by
  have hn : n % 5 ≠ 0 := by
    intro hn
    obtain ⟨x, y, -, hcur, -⟩ := pair_rounds_next a j n
    rw [hcur, hn] at hz
    cases hz
  obtain ⟨z', hactive, hstep⟩ := pair_rounds_proceed hne ha hj n hn
  rw [hactive, List.mem_singleton] at hz
  rw [hz]
  refine ⟨[], [], _, _, hactive, hstep, ?_⟩
  rw [List.nil_append, List.append_nil]
  rfl

theorem pair_rounds_fair (hja : make_node [] a = a) (hjj : make_node [] j = j) :
    FairRun (fun _ => []) a (pair_rounds a j) where
  init := pair_run hne hja hjj hj
  step n := by
    by_cases hn : n % 5 = 0
    · obtain ⟨r, hr, heq⟩ := pair_rounds_start hne ha hj n hn
      rw [heq]
      exact Step.stabilize _ r hr
    · obtain ⟨z, hactive, -⟩ := pair_rounds_proceed hne ha hj n hn
      obtain ⟨before, after, net, next, hsplit, hstep, heq⟩ := pair_rounds_proceeds hne ha hj n
        (by rw [hactive]; exact List.mem_singleton_self z)
      rw [heq]
      exact Step.progress before after z net next hsplit hstep
  joins := ⟨0, fun _ _ => rfl⟩
  rounds n u hu := by
    have hu' : u ∈ (Network.pair a j).members := hu
    rw [Network.pair_members] at hu'
    rcases hu' with rfl | rfl
    · have hstart := pair_rounds_start hne ha hj (10 * n) (by omega)
      rw [if_pos (by omega)] at hstart
      exact ⟨10 * n, by omega, hstart⟩
    · have hstart := pair_rounds_start hne ha hj (10 * n + 5) (by omega)
      rw [if_neg (by omega)] at hstart
      exact ⟨10 * n + 5, by omega, hstart⟩
  calls n z hz := ⟨n, le_refl n, pair_rounds_proceeds hne ha hj n hz⟩

end

theorem half_circle_spaced (n : Nat) :
    Spaced {u | u ∈ (pair_rounds ⟨0, []⟩ ⟨BitVec.twoPow 256 255, []⟩ n).started} := by
  simp [Spaced, pair_rounds]
  decide

theorem half_circle_comes_to_rest : ∃ n, ∀ m, n ≤ m →
    (pair_rounds ⟨0, []⟩ ⟨BitVec.twoPow 256 255, []⟩ m).net =
      (pair_rounds ⟨0, []⟩ ⟨BitVec.twoPow 256 255, []⟩ n).net ∧
    RightRing (pair_rounds ⟨0, []⟩ ⟨BitVec.twoPow 256 255, []⟩ m).net :=
  fair_runs_settle (fun _ => []) ⟨0, []⟩ (pair_rounds ⟨0, []⟩ ⟨BitVec.twoPow 256 255, []⟩)
    (pair_rounds_fair (by decide) (by decide) (by decide) rfl rfl)
    half_circle_spaced

end System

end Chord
