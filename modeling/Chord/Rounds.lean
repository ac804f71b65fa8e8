import Chord.Halving
import Chord.Removal

/-!
# The scheduled tasks of all nodes

`ChordFacade::start_scheduler` has every node stabilize, check its predecessor and repair one
finger after the other. The tasks of different nodes come in any order, with lookups in between.
-/

open Circle Nearest

namespace Chord

open Router

namespace Network

/-! ## One task -/

/-- `Client::notify()` of a node with router `r`. -/
def client_notify (r : Router) (peer : Endpoint) : Call StatusCode :=
  match r.successor with
  | none => pure .OK
  | some successor =>
    if successor = r.context then pure .OK else notify successor peer (Client.notify_request r.context)

/-- `Client::stabilize` of the node `u`. A successor that is not up goes, and nobody is notified. -/
def stabilize (u : Uuid) (peer : Endpoint) : Call Unit := fun net =>
  match net u with
  | none => .ok ((), net)
  | some r =>
    match r.successor with
    | none => .ok ((), net)
    | some successor =>
      if successor.uuid = r.context.uuid then .ok ((), net)
      else
        let reply := (net successor.uuid).map Service.stabilize
        let r := Client.stabilize_reply r successor reply
        let net := Function.update net u (some r)
        if reply.isSome then (client_notify r peer net).map fun res => ((), res.2)
        else .ok ((), net)

/-- `Client::check` of the node `u`. -/
def check (u : Uuid) (net : Network) : Network :=
  match net u with
  | none => net
  | some r => Function.update net u (some (Client.check net.ping r))

/-- `Service::fix_fingers` of the node `u`. A lookup without an answer throws, which ends the call. -/
def fix_fingers (fuel : Nat) (u : Uuid) (index : Nat) : Call Unit := fun net =>
  match net u with
  | none => .ok ((), net)
  | some r =>
    let fix := calc_successor_uuid_for_index r.context.uuid index
    (successor fuel r.context ⟨some (make_header r.context), fix⟩ net).map fun (answer, net) =>
      match answer, net u with
      | some succ, some r => ((), Function.update net u (some (Service.fix_finger r index succ)))
      | _, _ => ((), net)

end Network

/-! ## All nodes -/

inductive Round where
  | stabilize (u : Uuid)
  | check_predecessor (u : Uuid)
  | fix_fingers (u : Uuid)
  | lookup (u id : Uuid)
  deriving DecidableEq

/-- The routers, and `ChordFacade::next` of every node. -/
structure Rounds where
  net : Network
  next : Uuid → Nat

namespace Rounds

/-- `peer` is the address that the calls of a node come from. -/
def step (fuel : Nat) (peer : Uuid → Endpoint) (σ : Rounds) : Round → Except Halt Rounds
  | .stabilize u => (Network.stabilize u (peer u) σ.net).map fun res => { σ with net := res.2 }
  | .check_predecessor u => .ok { σ with net := Network.check u σ.net }
  | .fix_fingers u =>
    let next := (σ.next u + 1) % BITS
    (Network.fix_fingers fuel u next σ.net).map fun res => ⟨res.2, Function.update σ.next u next⟩
  | .lookup u id =>
    match σ.net u with
    | none => .ok σ
    | some r => (Network.successor fuel r.context ⟨some (make_header r.context), id⟩ σ.net).map fun res =>
        { σ with net := res.2 }

def execute (fuel : Nat) (peer : Uuid → Endpoint) : Rounds → List Round → Except Halt Rounds
  | σ, [] => .ok σ
  | σ, x :: rounds => (σ.step fuel peer x).bind fun σ => execute fuel peer σ rounds

end Rounds

namespace Network

/-! ## A task on an exact ring -/

/-- The successor names the node itself, and hears nothing new. -/
theorem stabilize_learns {net : Network} (h : ExactRing net) (u : Uuid) (peer : Endpoint) :
    ∃ net', stabilize u peer net = .ok ((), net') ∧ Learns net net' := by
  rw [stabilize]
  cases hr : net u with
  | none => exact ⟨net, rfl, Relation.ReflTransGen.refl⟩
  | some r =>
    have hown := h.own u r hr
    have hself := h.member_context hr
    have hsucc := h.successor u r hr
    cases hs : r.successor with
    | none => exact ⟨net, by simp only [hs], Relation.ReflTransGen.refl⟩
    | some s =>
      rw [hs] at hsucc
      obtain ⟨hmem, hnext⟩ := hsucc
      obtain ⟨rs, hrs⟩ := mem_members.mp hmem.mem
      have hprev := (next_iff_prev (mem_members.mpr ⟨r, hr⟩) hmem.mem).mp hnext
      -- the successor has this node as its predecessor
      have hpred : rs.predecessor = some r.context := by
        have hp := h.predecessor s.uuid rs hrs
        cases hpred : rs.predecessor with
        | none =>
          rw [hpred] at hp
          exact absurd (hp u (mem_members.mpr ⟨r, hr⟩)) hnext.ne.symm
        | some p =>
          rw [hpred] at hp
          rw [Member.eq_context hr hp.1 (hp.2.unique hprev)]
      have hne : s.uuid ≠ r.context.uuid := by rw [hown]; exact hnext.ne
      have hcontext : s ≠ r.context := fun heq => hne (congrArg Node.uuid heq)
      have hreply : Client.stabilize_reply r s ((net s.uuid).map Service.stabilize) = r := by
        rw [hrs, Option.map_some, Service.stabilize, hpred, Client.stabilize_reply,
          if_neg (not_between_left _ _)]
      have hsource : r.context ≠ rs.context := by
        intro heq
        rw [← h.own _ _ hrs, ← heq] at hne
        exact hne rfl
      have hchanged : Service.changed_predecessor rs r.context = .ok false := by
        rw [Service.changed_predecessor, hpred]
        exact if_neg (not_not_intro rfl)
      have hnotify : Service.notify rs peer (Client.notify_request r.context) =
          .ok ⟨.OK, rs.update r.context, none⟩ := by
        simp only [Service.notify, Client.notify_request, source_of_make_header, if_neg hsource, hchanged]
        rfl
      refine ⟨Function.update net s.uuid (some (rs.update r.context)), ?_, learns_update hrs hself⟩
      simp only [hs, if_neg hne, hreply]
      rw [if_pos (by rw [hrs]; rfl), ← hr, Function.update_eq_self, client_notify]
      simp only [hs, if_neg hcontext, notify, hrs, hnotify]
      rfl

theorem check_same {net : Network} (h : ExactRing net) (u : Uuid) : check u net = net := by
  rw [check]
  cases hr : net u with
  | none => rfl
  | some r =>
    have hpred := h.predecessor u r hr
    have hcheck : Client.check net.ping r = r := by
      rw [Client.check]
      cases hp : r.predecessor with
      | none => rfl
      | some p =>
        rw [hp] at hpred
        cases r.successor with
        | none => rfl
        | some s => exact if_pos hpred.1.mem
    simp only [hcheck, ← hr, Function.update_eq_self]

/-- No member has the uuid of a finger start of another. -/
def ClearStarts (net : Network) : Prop :=
  ∀ u ∈ net.members, ∀ i : Fin BITS, calc_successor_uuid_for_index u i ∉ net.members

/-- What is not in the table is not removed. -/
theorem remove_absent {r : Router} (h : r.table.WF) {u : Uuid} (hn : ∀ n ∈ r.nodes, n.uuid ≠ u)
    (hp : ∀ p ∈ r.predecessor, p.uuid ≠ u) : r.remove u = r := by
  apply ext_fields (remove_context r u) _ (predecessor_remove_kept h hp)
  have hrefill : ∀ l : List RouterEntry, (∀ n ∈ l.filterMap RouterEntry.node, n.uuid ≠ u) →
      refill u l = l := by
    intro l hl
    induction l with
    | nil => rfl
    | cons e l ih =>
      rw [refill, if_neg, ih]
      · intro n hmem
        apply hl n
        rw [List.mem_filterMap] at hmem ⊢
        obtain ⟨e', he', hn'⟩ := hmem
        exact ⟨e', List.mem_cons_of_mem e he', hn'⟩
      · rintro ⟨n, hn, heq⟩
        exact hl n (List.mem_filterMap.mpr ⟨e, List.mem_cons_self, hn⟩) heq
  rw [(remove_spec h u).1]
  exact hrefill r.successors hn

/-- The first member from the start on, where no member is at the start. -/
theorem found_nearest {net : Network} {u start : Uuid} (hu : u ∈ net.members) {s : Node}
    (hf : Found net start s) (hstart : start ∉ net.members) (hsu : s.uuid ≠ u) :
    steps u start < steps u s.uuid ∧ ∀ v ∈ net.members, steps u start < steps u v →
      steps u s.uuid ≤ steps u v := by
  have hne : steps u start ≠ steps u s.uuid := fun heq => hstart (steps_inj.mp heq ▸ hf.member.mem)
  have hpos := steps_pos.mpr (fun heq => hsu heq.symm : u ≠ s.uuid)
  have hlt := steps_lt u start
  have hself := hf.first u hu
  rw [steps_shift u start s.uuid, steps_shift u start u, steps_self] at hself
  have hspos : 0 < steps u start := by
    rw [steps_pos]
    rintro rfl
    exact hstart hu
  have hbeyond : steps u start ≤ steps u s.uuid := by
    by_contra hle
    rw [if_neg hle, if_neg (by omega)] at hself
    omega
  refine ⟨lt_of_le_of_ne hbeyond hne, ?_⟩
  intro v hv hv'
  have hle := hf.first v hv
  rw [steps_shift u start s.uuid, steps_shift u start v, if_pos hbeyond, if_pos (le_of_lt hv')] at hle
  omega

/-- The entry takes the answer of the lookup. -/
theorem finger_of_found {net : Network} (h : Ring net) (hk : Known net) {u : Uuid} {r : Router}
    (hr : net u = some r) (i : Fin BITS) {s : Node} (hf : Found net (r.entry i).uuid s)
    (hstart : (r.entry i).uuid ∉ net.members) (hsu : s.uuid ≠ u) :
    IsFinger net u ((r.update s).entry i).uuid ((r.update s).entry i).node := by
  have hown := h.own u r hr
  have hw := h.wf u r hr
  have hne := start_ne h hr i
  obtain ⟨hlt, hmin⟩ := found_nearest (mem_members.mpr ⟨r, hr⟩) hf hstart hsu
  have hnext := entry_update_next hw s i (entry_next hw (r.entry_mem i))
  rw [update_uuid, hown] at hnext
  rw [update_uuid]
  have hkey : IsNext (insert (steps u s.uuid) (keys r.table.slots)) (steps u (r.entry i).uuid)
      (some (steps u s.uuid)) := by
    refine ⟨⟨Set.mem_insert _ _, hlt⟩, ?_⟩
    rintro k ⟨rfl | hkey, hlt'⟩
    · exact le_refl _
    · obtain ⟨n, hn, rfl⟩ := mem_keys_table.mp hkey
      rw [hown] at hlt' ⊢
      exact hmin n.uuid (hk u r hr n hn).mem hlt'
  obtain ⟨n, hn, heq⟩ := Option.map_eq_some_iff.mp (hnext.unique hkey)
  have hmem : net.Member n := by
    rcases mem_nodes_update (entry_mem_nodes hn) with rfl | hn
    · exact hf.member
    · exact hk u r hr n hn
  rw [hn, IsFinger, between_to hne, heq]
  refine ⟨hmem, hlt, ?_⟩
  intro v hv hb
  exact hmin v hv ((between_to hne).mp hb)

/-- An entry stays empty where the way from its start leads home. -/
theorem finger_of_home {net : Network} (h : Ring net) (hk : Known net) {u : Uuid} {r : Router}
    (hr : net u = some r) (i : Fin BITS) (hf : Found net (r.entry i).uuid r.context) :
    IsFinger net u (r.entry i).uuid (r.entry i).node := by
  have hown := h.own u r hr
  have hne := start_ne h hr i
  have hpos := steps_pos.mpr hne.symm
  have hnone : ∀ v ∈ net.members, ¬ between (r.entry i).uuid v u := by
    intro v hv hb
    rw [between_to hne] at hb
    have hle := hf.first v hv
    have hlt := steps_lt u v
    rw [hown, steps_shift u _ u, steps_shift u _ v, steps_self, if_neg (by omega),
      if_pos (le_of_lt hb)] at hle
    omega
  cases he : (r.entry i).node with
  | none => exact hnone
  | some n =>
    have hlt := (entry_node (h.wf u r hr) (r.entry_mem i) he).1
    rw [hown] at hlt
    exact absurd ((between_to hne).mpr hlt) (hnone _ (hk u r hr n (entry_mem_nodes he)).mem)

theorem fix_fingers_learns {fuel : Nat} {net : Network} (h : ExactRing net) (hk : Known net)
    (hclear : ClearStarts net) (hfuel : 2 ^ 256 < fuel) {u : Uuid} (hu : u ∈ net.members) (i : Fin BITS) :
    ∃ net', fix_fingers fuel u i net = .ok ((), net') ∧ Learns net net' ∧ FingerAt net' u i := by
  obtain ⟨r, hr⟩ := mem_members.mp hu
  have hown := h.own u r hr
  have hself := h.member_context hr
  have hstart := hclear u hu i
  have hsteps := steps_lt u (calc_successor_uuid_for_index u i)
  obtain ⟨s, net₁, hcall, hfound, -, -⟩ := successor_found h.toRing
    hself.mem hself hstart
    (show steps r.context.uuid (calc_successor_uuid_for_index u i) + 1 < fuel by rw [hown]; omega)
  have hlearn := successor_learns h.toRing hself hcall
  have hsame := hlearn.sameNodes
  have hring := hlearn.exact h
  have hknown := hlearn.known hk
  obtain ⟨r₁, hr₁⟩ := mem_members.mp (hsame.members_eq.symm ▸ hu)
  have hown₁ := hring.own u r₁ hr₁
  have huuid : (r₁.entry i).uuid = calc_successor_uuid_for_index u i := by rw [entry_uuid, hown₁]
  have hfound₁ : Found net₁ (r₁.entry i).uuid s := by rw [huuid]; exact hsame.found.mpr hfound
  have hstart₁ : (r₁.entry i).uuid ∉ net₁.members := by rw [huuid, hsame.members_eq]; exact hstart
  refine ⟨Function.update net₁ u (some (Service.fix_finger r₁ i s)), ?_, ?_⟩
  · simp only [fix_fingers, hr, hown, hcall, Except.map, hr₁]
  rw [Service.fix_finger, ← entry_uuid]
  by_cases hs : s = r₁.context
  · -- nobody is beyond the start, and the start is in no table
    have habsent : r₁.remove (r₁.entry i).uuid = r₁ := by
      apply remove_absent (hring.wf u r₁ hr₁)
      · intro n hn heq
        exact hstart₁ (heq ▸ (hknown u r₁ hr₁ n hn).mem)
      · intro p hp heq
        have hpred := hring.predecessor u r₁ hr₁
        rw [Option.mem_def.mp hp] at hpred
        exact hstart₁ (heq ▸ hpred.1.mem)
    rw [if_pos hs, habsent, ← hr₁, Function.update_eq_self]
    refine ⟨hlearn, ?_⟩
    intro r₂ hr₂
    obtain rfl : r₁ = r₂ := Option.some.inj (hr₁.symm.trans hr₂)
    rw [hs] at hfound₁
    exact finger_of_home hring.toRing hknown hr₁ i hfound₁
  · rw [if_neg hs]
    have hsu : s.uuid ≠ u := fun heq => hs (Member.eq_context hr₁ hfound₁.member heq)
    have hlearn₁ := learns_update hr₁ hfound₁.member
    refine ⟨hlearn.trans hlearn₁, ?_⟩
    intro r₂ hr₂
    rw [Function.update_self, Option.some.injEq] at hr₂
    rw [← hr₂]
    exact hlearn₁.sameNodes.isFinger (finger_of_found hring.toRing hknown hr₁ i hfound₁ hstart₁ hsu)

end Network

namespace Rounds

open Network

/-! ## Any order of tasks -/

/-- After the rounds `done`: a node that repaired its fingers `m` times has the `m` entries behind
its counter right. -/
structure Repaired (net : Network) (next : Uuid → Nat) (done : List Round) (σ : Rounds) : Prop where
  learns : Learns net σ.net
  counter : ∀ u ∈ net.members, σ.next u % BITS = (next u + done.count (.fix_fingers u)) % BITS
  fixed : ∀ u ∈ net.members, ∀ k < done.count (.fix_fingers u),
    FingerAt σ.net u ⟨(next u + k + 1) % BITS, Nat.mod_lt _ (by decide)⟩

section

variable {fuel : Nat} {peer : Uuid → Endpoint} {net : Network} (h : ExactRing net) (hk : Known net)
  (hclear : ClearStarts net) (hfuel : 2 ^ 256 < fuel) {next : Uuid → Nat} {done : List Round} {σ : Rounds}

include h

/-- A round that repairs no finger only learns. -/
theorem Repaired.learn (hσ : Repaired net next done σ) {x : Round}
    (hx : ∀ u ∈ net.members, x ≠ .fix_fingers u) {net' : Network} (hl : Learns σ.net net') :
    Repaired net next (done ++ [x]) { σ with net := net' } := by
  have hcount : ∀ u ∈ net.members, (done ++ [x]).count (.fix_fingers u) = done.count (.fix_fingers u) := by
    intro u hu
    rw [List.count_append, List.count_singleton, if_neg (by simpa using hx u hu), Nat.add_zero]
  refine ⟨hσ.learns.trans hl, ?_, ?_⟩
  · intro u hu
    rw [hcount u hu]
    exact hσ.counter u hu
  · intro u hu k hk'
    rw [hcount u hu] at hk'
    exact hl.fingerAt (hσ.learns.ring h.toRing) (hσ.fixed u hu k hk')

include hk hclear hfuel

theorem Repaired.fix (hσ : Repaired net next done σ) {u : Uuid} (hu : u ∈ net.members) :
    ∃ σ', σ.step fuel peer (.fix_fingers u) = .ok σ' ∧ Repaired net next (done ++ [.fix_fingers u]) σ' := by
  have hsame := hσ.learns.sameNodes
  have hclear' : ClearStarts σ.net := by
    rw [ClearStarts, hsame.members_eq]
    exact hclear
  have hnext := hσ.counter u hu
  have hlt : (σ.next u + 1) % BITS < BITS := Nat.mod_lt _ (by decide)
  obtain ⟨net', hcall, hl, hfix⟩ := fix_fingers_learns (hσ.learns.exact h) (hσ.learns.known hk) hclear' hfuel
    (hsame.members_eq.symm ▸ hu) ⟨(σ.next u + 1) % BITS, hlt⟩
  refine ⟨⟨net', Function.update σ.next u ((σ.next u + 1) % BITS)⟩, ?_, hσ.learns.trans hl, ?_, ?_⟩
  · simp only [step, hcall, Except.map]
  · intro v hv
    dsimp only
    rw [List.count_append, List.count_singleton]
    by_cases hvu : v = u
    · rw [hvu, Function.update_self, if_pos (by simp), ← Nat.add_assoc, Nat.mod_mod, Nat.add_mod, hnext,
        ← Nat.add_mod]
    · rw [Function.update_of_ne hvu, if_neg (by simpa using fun heq : u = v => hvu heq.symm), Nat.add_zero]
      exact hσ.counter v hv
  · intro v hv k hk'
    rw [List.count_append, List.count_singleton] at hk'
    by_cases hlast : k < done.count (.fix_fingers v)
    · exact hl.fingerAt (hσ.learns.ring h.toRing) (hσ.fixed v hv k hlast)
    · -- the entry of this round
      by_cases hvu : v = u
      · rw [hvu, if_pos (by simp)] at hk'
        rw [hvu] at hlast ⊢
        obtain rfl : k = done.count (.fix_fingers u) := by omega
        have hidx : (next u + done.count (.fix_fingers u) + 1) % BITS = (σ.next u + 1) % BITS := by
          rw [Nat.add_mod, ← hnext, ← Nat.add_mod]
        simp only [hidx]
        exact hfix
      · rw [if_neg (by simpa using fun heq : u = v => hvu heq.symm)] at hk'
        omega

/-- One round, whatever it is. -/
theorem Repaired.step (hσ : Repaired net next done σ) {x : Round}
    (hx : ∀ u id, x = .lookup u id → id ∉ net.members) :
    ∃ σ', σ.step fuel peer x = .ok σ' ∧ Repaired net next (done ++ [x]) σ' := by
  have hring := hσ.learns.exact h
  have hsame := hσ.learns.sameNodes
  cases x with
  | stabilize u =>
    obtain ⟨net', hcall, hl⟩ := stabilize_learns hring u (peer u)
    exact ⟨_, by simp only [Rounds.step, hcall, Except.map], hσ.learn h (by simp) hl⟩
  | check_predecessor u =>
    exact ⟨_, by rw [Rounds.step, check_same hring], hσ.learn h (by simp) Relation.ReflTransGen.refl⟩
  | fix_fingers u =>
    by_cases hu : u ∈ net.members
    · exact hσ.fix h hk hclear hfuel hu
    · have hnone : σ.net u = none := by
        rw [← hsame.members_eq] at hu
        simpa [members] using hu
      have hnot : ∀ v ∈ net.members, Round.fix_fingers u ≠ .fix_fingers v := by
        rintro v hv ⟨⟩
        exact hu hv
      have hkeep := hσ.learn h hnot Relation.ReflTransGen.refl
      refine ⟨⟨σ.net, Function.update σ.next u ((σ.next u + 1) % BITS)⟩, ?_, hkeep.learns, ?_, hkeep.fixed⟩
      · simp only [Rounds.step, Network.fix_fingers, hnone, Except.map]
      · intro v hv
        have hvu : v ≠ u := fun heq => hu (heq ▸ hv)
        dsimp only
        rw [Function.update_of_ne hvu]
        exact hkeep.counter v hv
  | lookup u id =>
    have hid : id ∉ σ.net.members := by
      rw [hsame.members_eq]
      exact hx u id rfl
    cases hr : σ.net u with
    | none => exact ⟨σ, by simp only [Rounds.step, hr], hσ.learn h (by simp) Relation.ReflTransGen.refl⟩
    | some r =>
      have hself := hring.member_context hr
      have hsteps := steps_lt r.context.uuid id
      obtain ⟨s, net', hcall, -⟩ := successor_found hring.toRing hself.mem hself hid
        (show steps r.context.uuid id + 1 < fuel by omega)
      exact ⟨_, by simp only [Rounds.step, hr, hcall, Except.map],
        hσ.learn h (by simp) (successor_learns hring.toRing hself hcall)⟩

theorem Repaired.execute (hσ : Repaired net next done σ) {rounds : List Round}
    (hids : ∀ u id, .lookup u id ∈ rounds → id ∉ net.members) :
    ∃ σ', σ.execute fuel peer rounds = .ok σ' ∧ Repaired net next (done ++ rounds) σ' := by
  induction rounds generalizing done σ with
  | nil => exact ⟨σ, rfl, by rwa [List.append_nil]⟩
  | cons x rounds ih =>
    obtain ⟨σ₁, hstep, hσ₁⟩ : ∃ σ₁, σ.step fuel peer x = .ok σ₁ ∧ Repaired net next (done ++ [x]) σ₁ :=
      hσ.step h hk hclear hfuel (fun u id heq => hids u id (heq ▸ List.mem_cons_self))
    obtain ⟨σ', hrest, hσ'⟩ := ih hσ₁ (fun u id hmem => hids u id (List.mem_cons_of_mem x hmem))
    refine ⟨σ', ?_, by rwa [List.append_assoc] at hσ'⟩
    simp only [Rounds.execute, hstep, Except.bind]
    exact hrest

end

/-- Each entry has its turn within 256 turns of the counter. -/
theorem exists_turn (m : Nat) (i : Fin BITS) : ∃ k < BITS, (m + k + 1) % BITS = i := by
  refine ⟨(i.val + 2 * BITS - (m % BITS) - 1) % BITS, Nat.mod_lt _ (by decide), ?_⟩
  have hi := i.isLt
  have hm := Nat.mod_lt m (show 0 < BITS by decide)
  simp only [BITS] at hi hm ⊢
  omega

theorem repaired_init (net : Network) (next : Uuid → Nat) : Repaired net next [] ⟨net, next⟩ where
  learns := Relation.ReflTransGen.refl
  counter u _ := by rw [List.count_nil, Nat.add_zero]
  fixed u _ k hk := by
    rw [List.count_nil] at hk
    omega

theorem Repaired.full {net : Network} (h : ExactRing net) (hk : Known net) {next : Uuid → Nat}
    {rounds : List Round} {σ : Rounds} (hσ : Repaired net next rounds σ)
    (hall : ∀ u ∈ net.members, BITS ≤ rounds.count (.fix_fingers u)) : FullRing σ.net := by
  refine ⟨hσ.learns.exact h, hσ.learns.known hk, ?_⟩
  intro u i
  by_cases hu : u ∈ net.members
  · obtain ⟨k, hk', hturn⟩ := exists_turn (next u) i
    have hfixed := hσ.fixed u hu k (lt_of_lt_of_le hk' (hall u hu))
    simp only [hturn] at hfixed
    exact hfixed
  · intro r hr
    rw [← hσ.learns.sameNodes.members_eq] at hu
    exact absurd (mem_members.mpr ⟨r, hr⟩) hu

theorem start_ne_of_steps {u x : Uuid} {i : Fin BITS} (h : steps u x ≠ 2 ^ i.val)
    (h' : steps u x ≠ 2 ^ i.val + 1) : calc_successor_uuid_for_index u i ≠ x := by
  rintro rfl
  rw [steps_calc u i.isLt] at h h'
  split at h
  · rename_i hmod
    exact h' (if_pos hmod)
  · exact h rfl

theorem pair_clear : ClearStarts (pair ⟨0, []⟩ ⟨100, []⟩) := by
  have hforth : ∀ i : Fin BITS, calc_successor_uuid_for_index 0 i ≠ 100 := by
    intro i
    have hsteps : steps (0 : Uuid) 100 = 100 := by decide
    have hpow : 2 ^ i.val ≤ 2 ^ 6 ∨ 2 ^ 7 ≤ 2 ^ i.val := by
      rcases Nat.lt_or_ge i.val 7 with hi | hi
      · left; exact Nat.pow_le_pow_right (by omega) (by omega)
      · right; exact Nat.pow_le_pow_right (by omega) hi
    exact start_ne_of_steps (by omega) (by omega)
  have hback : ∀ i : Fin BITS, calc_successor_uuid_for_index 100 i ≠ 0 := by
    intro i
    have hsteps : steps (100 : Uuid) 0 = 2 ^ 256 - 100 := by decide
    have hpow : 2 ^ i.val ≤ 2 ^ 255 := Nat.pow_le_pow_right (by omega) (Nat.le_pred_of_lt i.isLt)
    exact start_ne_of_steps (by omega) (by omega)
  have hself : ∀ (u : Uuid) (i : Fin BITS), calc_successor_uuid_for_index u i ≠ u := fun u i =>
    (steps_pos.mp (steps_calc_pos u i.isLt)).symm
  intro u hu i hi
  rw [pair_members] at hu hi
  rcases hu with rfl | rfl
  · exact hi.elim (hself _ i) (hforth i)
  · exact hi.elim (hback i) (hself _ i)

end Rounds

end Chord
