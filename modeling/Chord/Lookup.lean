import Chord.Network
import Chord.Preceding

/-! # A lookup in a ring of exact successors -/

open Circle

namespace Chord

open Router

namespace Network

/-! ## The nodes of a network -/

theorem mem_members {net : Network} {u : Uuid} : u ∈ net.members ↔ ∃ r, net u = some r := by
  rw [members, Set.mem_ofPred_eq, Option.isSome_iff_exists]

theorem member_iff {net : Network} {n : Node} : net.Member n ↔ (net n.uuid).map Router.context = some n := by
  rw [Member, Option.map_eq_some_iff]

theorem Member.mem {net : Network} {n : Node} (h : net.Member n) : n.uuid ∈ net.members := by
  obtain ⟨r, hr, -⟩ := h
  exact mem_members.mpr ⟨r, hr⟩

/-- The same nodes are up, whatever their tables hold. -/
def SameNodes (net net' : Network) : Prop := ∀ u, (net' u).map Router.context = (net u).map Router.context

theorem SameNodes.refl (net : Network) : SameNodes net net := fun _ => rfl

theorem SameNodes.trans {net net₁ net₂ : Network} (h : SameNodes net net₁) (h' : SameNodes net₁ net₂) :
    SameNodes net net₂ := fun u => (h' u).trans (h u)

theorem SameNodes.members_eq {net net' : Network} (h : SameNodes net net') : net'.members = net.members := by
  ext u
  have := congrArg Option.isSome (h u)
  simpa [members] using this

theorem SameNodes.member {net net' : Network} (h : SameNodes net net') (n : Node) :
    net'.Member n ↔ net.Member n := by
  rw [member_iff, member_iff, h]

theorem sameNodes_update {net : Network} {u : Uuid} {r r' : Router} (hr : net u = some r)
    (hc : r'.context = r.context) : SameNodes net (Function.update net u (some r')) := by
  intro v
  by_cases hv : v = u
  · rw [hv, Function.update_self, hr, Option.map_some, Option.map_some, hc]
  · rw [Function.update_of_ne hv]

/-! ## Exact successors -/

/-- What `successor()` of the node `u` has to return. -/
def IsSuccessor (net : Network) (u : Uuid) : Option Node → Prop
  | none => ∀ v ∈ net.members, v = u
  | some s => net.Member s ∧ Next net.members u s.uuid

theorem SameNodes.isSuccessor {net net' : Network} (h : SameNodes net net') {u : Uuid} {o : Option Node}
    (ho : IsSuccessor net u o) : IsSuccessor net' u o := by
  cases o with
  | none => rw [IsSuccessor, h.members_eq]; exact ho
  | some s => rw [IsSuccessor, h.members_eq, h.member]; exact ho

/-- Every node has its exact successor. The tables keep the rules of the router, and hold
whatever nodes they hold. -/
structure Ring (net : Network) : Prop where
  own : ∀ u r, net u = some r → r.context.uuid = u
  wf : ∀ u r, net u = some r → r.table.WF
  successor : ∀ u r, net u = some r → IsSuccessor net u r.successor

theorem Ring.member_context {net : Network} (h : Ring net) {u : Uuid} {r : Router} (hr : net u = some r) :
    net.Member r.context := ⟨r, by rw [h.own u r hr]; exact hr, rfl⟩

/-- A member is no nearer than the successor, so `update` leaves the first entry alone. -/
theorem successor_update_member {net : Network} (h : Ring net) {u : Uuid} {r : Router} (hr : net u = some r)
    {n : Node} (hn : net.Member n) : (r.update n).successor = r.successor := by
  have hown := h.own u r hr
  have hsucc := h.successor u r hr
  by_cases hself : n = r.context
  · rw [Router.update, if_pos hself]
  · rw [successor_eq_entry, successor_eq_entry, entry_update hself, update_entry, if_neg]
    rw [replaces_iff (h.wf u r hr) n (r.entry_mem _)]
    rintro ⟨hlt, hcloser⟩
    rw [successor_eq_entry] at hsucc
    have hne : n.uuid ≠ u := by
      intro heq
      obtain ⟨r', hr', hc⟩ := hn
      rw [heq, hr, Option.some.injEq] at hr'
      exact hself (by rw [← hc, hr'])
    cases he : (r.entry ⟨0, by decide⟩).node with
    | none =>
      rw [he] at hsucc
      exact hne (hsucc _ hn.mem)
    | some s =>
      rw [he] at hsucc
      have hle := hsucc.2.le _ hn.mem hne
      have hlt' : steps r.context.uuid n.uuid < steps r.context.uuid s.uuid := by
        simpa [slot, he] using hcloser
      rw [hown] at hlt'
      omega

theorem Ring.update {net : Network} (h : Ring net) {u : Uuid} {r : Router} (hr : net u = some r) {n : Node}
    (hn : net.Member n) : Ring (Function.update net u (some (r.update n))) := by
  have hsame : SameNodes net (Function.update net u (some (r.update n))) :=
    sameNodes_update hr (update_context r n)
  have hcases : ∀ v r', Function.update net u (some (r.update n)) v = some r' →
      (v = u ∧ r' = r.update n) ∨ net v = some r' := by
    intro v r' hv
    by_cases hvu : v = u
    · rw [hvu, Function.update_self, Option.some.injEq] at hv
      left; exact ⟨hvu, hv.symm⟩
    · rw [Function.update_of_ne hvu] at hv
      right; exact hv
  refine ⟨?_, ?_, ?_⟩
  · intro v r' hv
    rcases hcases v r' hv with ⟨rfl, rfl⟩ | hv
    · rw [update_context]; exact h.own v r hr
    · exact h.own v r' hv
  · intro v r' hv
    rcases hcases v r' hv with ⟨rfl, rfl⟩ | hv
    · exact update_wf (h.wf v r hr) n
    · exact h.wf v r' hv
  · intro v r' hv
    apply hsame.isSuccessor
    rcases hcases v r' hv with ⟨rfl, rfl⟩ | hv
    · rw [successor_update_member h hr hn]; exact h.successor v r hr
    · exact h.successor v r' hv

/-! ## Candidates in turn -/

/-- Candidates that give no answer change nothing, and one of them answers. -/
theorem first_ok_append {α : Type} (call : Node → Call (Option α)) {net : Network} (good : α → Network → Prop)
    {l : List Node} (rest : List Node)
    (hcall : ∀ n ∈ l, call n net = .ok (none, net) ∨
      ∃ a net', call n net = .ok (some a, net') ∧ good a net')
    (hex : ∃ n ∈ l, call n net ≠ .ok (none, net)) :
    ∃ a net', Client.first_ok call (l ++ rest) net = .ok (some a, net') ∧ good a net' := by
  induction l with
  | nil => simp at hex
  | cons n l ih =>
    rw [List.cons_append, Client.first_ok]
    rcases hcall n List.mem_cons_self with hnone | ⟨a, net', hsome, hgood⟩
    · simp only [bind, StateT.bind, hnone, Except.bind]
      apply ih (fun m hm => hcall m (List.mem_cons_of_mem n hm))
      obtain ⟨m, hm, hne⟩ := hex
      rcases List.mem_cons.mp hm with rfl | hm
      · exact absurd hnone hne
      · exact ⟨m, hm, hne⟩
    · refine ⟨a, net', ?_, hgood⟩
      simp only [bind, StateT.bind, hsome, Except.bind]
      rfl

/-! ## Lookup -/

/-- The first member clockwise after `id`. -/
structure Found (net : Network) (id : Uuid) (s : Node) : Prop where
  member : net.Member s
  first : ∀ v ∈ net.members, steps id s.uuid ≤ steps id v

theorem SameNodes.found {net net' : Network} (h : SameNodes net net') {id : Uuid} {s : Node} :
    Found net' id s ↔ Found net id s := by
  constructor
  · intro hf; exact ⟨(h.member s).mp hf.member, by rw [← h.members_eq]; exact hf.first⟩
  · intro hf; exact ⟨(h.member s).mpr hf.member, by rw [h.members_eq]; exact hf.first⟩

/-- The answer of a node: the id lies before its successor. -/
theorem answer_found {net : Network} (h : Ring net) {u : Uuid} {r : Router} (hr : net u = some r) {id : Uuid}
    (hb : between u id r.successor_or_self.uuid) : Found net id r.successor_or_self := by
  have hown := h.own u r hr
  have hsucc := h.successor u r hr
  rw [successor_or_self] at hb ⊢
  cases hs : r.successor with
  | none =>
    rw [hs] at hsucc
    refine ⟨h.member_context hr, ?_⟩
    intro v hv
    rw [hsucc v hv, Option.getD_none, hown]
  | some s =>
    rw [hs] at hsucc hb
    obtain ⟨hmem, hnext⟩ := hsucc
    refine ⟨hmem, ?_⟩
    intro v hv
    rw [Option.getD_some] at hb ⊢
    rw [between_from hnext.ne.symm] at hb
    have hlt := steps_lt u s.uuid
    rw [steps_shift u id s.uuid, steps_shift u id v]
    by_cases hvu : v = u
    · rw [hvu, steps_self]
      split <;> split <;> omega
    · have := hnext.le v hv hvu
      split <;> split <;> omega

/-- Without an answer the successor is a candidate. -/
theorem successor_candidate {net : Network} (h : Ring net) {u : Uuid} {r : Router} (hr : net u = some r)
    {id : Uuid} (hid : id ∉ net.members) (hb : ¬ between u id r.successor_or_self.uuid) :
    ∃ s ∈ preceding r id, net.Member s := by
  have hown := h.own u r hr
  have hsucc := h.successor u r hr
  have hidu : id ≠ u := by
    rintro rfl
    exact hid (mem_members.mpr ⟨r, hr⟩)
  rw [successor_or_self] at hb
  cases hs : r.successor with
  | none =>
    rw [hs, Option.getD_none, hown, between_self] at hb
    exact absurd hidu hb
  | some s =>
    rw [hs] at hsucc hb
    obtain ⟨hmem, hnext⟩ := hsucc
    refine ⟨s, mem_preceding.mpr ⟨successor_mem hs, ?_⟩, hmem⟩
    have hids : steps u id ≠ steps u s.uuid := by
      rw [ne_eq, steps_inj]
      rintro rfl
      exact hid hmem.mem
    rw [Option.getD_some, between_from hnext.ne.symm] at hb
    rw [hown, between_from hidu.symm]
    have hpos := steps_pos.mpr hidu.symm
    have hspos := steps_pos.mpr hnext.ne.symm
    omega

/-- The loop over dead successors ends at once. -/
theorem live_loop_ring {net : Network} (h : Ring net) {u : Uuid} {r : Router} (hr : net u = some r)
    {ping : Node → Bool} (hping : ∀ n, net.Member n → ping n) (fuel : Nat) :
    Service.live_loop ping (fuel + 1) r = some r := by
  have hsucc := h.successor u r hr
  rw [Service.live_loop, if_pos]
  rw [successor_or_self]
  cases hs : r.successor with
  | none => exact hping _ (h.member_context hr)
  | some s =>
    rw [hs] at hsucc
    exact hping _ hsucc.1

theorem service_successor_ring {net : Network} (h : Ring net) {u : Uuid} {r : Router} (hr : net u = some r)
    {source : Node} (hsource : net.Member source) {id : Uuid} (hid : id ∉ net.members) (fuel : Nat) :
    Service.successor net.ping (fuel + 1) r ⟨some (make_header source), id⟩ =
      some (r.update source, if between u id (r.update source).successor_or_self.uuid
        then .answer (r.update source).successor_or_self else .forward) := by
  have hsame : SameNodes net _ := sameNodes_update hr (update_context r source)
  have hping : ∀ n, Member (Function.update net u (some (r.update source))) n → net.ping n :=
    fun n hn => ((hsame.member n).mp hn).mem
  have hloop := live_loop_ring (h.update hr hsource) (Function.update_self _ _ _) hping fuel
  have hown := h.own u r hr
  have hne : id ≠ u := by
    rintro rfl
    exact hid (mem_members.mpr ⟨r, hr⟩)
  simp only [Service.successor, source_of_make_header, hloop, Option.map_some, update_context, hown, hne,
    false_or]
  split <;> rfl

/-- By induction on the distance to `id`: every candidate is strictly nearer, and one answers. -/
theorem successor_found {fuel : Nat} {net : Network} (h : Ring net) {target source : Node}
    (htarget : target.uuid ∈ net.members) (hsource : net.Member source) {id : Uuid} (hid : id ∉ net.members)
    (hfuel : steps target.uuid id + 1 < fuel) :
    ∃ s net', successor fuel target ⟨some (make_header source), id⟩ net = .ok (some s, net') ∧
      Found net id s ∧ Ring net' ∧ SameNodes net net' := by
  induction fuel generalizing net target source with
  | zero => omega
  | succ fuel ih =>
    obtain ⟨r, hr⟩ := mem_members.mp htarget
    obtain ⟨k, rfl⟩ : ∃ k, fuel = k + 1 := ⟨fuel - 1, by omega⟩
    have hring := h.update hr hsource
    have hsame : SameNodes net _ := sameNodes_update hr (update_context r source)
    have hr₁ : Function.update net target.uuid (some (r.update source)) target.uuid =
        some (r.update source) := Function.update_self _ _ _
    rw [successor]
    simp only [hr, service_successor_ring h hr hsource hid k]
    by_cases hb : between target.uuid id (r.update source).successor_or_self.uuid
    · rw [if_pos hb]
      exact ⟨_, _, rfl, hsame.found.mp (answer_found hring hr₁ hb), hring, hsame⟩
    · rw [if_neg hb, closest_preceding_nodes_eq]
      obtain ⟨net₁, hnet⟩ : ∃ net₁ : Network, net₁ = Function.update net target.uuid
          (some (r.update source)) :=
        ⟨_, rfl⟩
      rw [← hnet] at hring hsame hr₁ ⊢
      have hid₁ : id ∉ net₁.members := by
        rw [hsame.members_eq]; exact hid
      have hself := hring.member_context hr₁
      have hown := hring.own _ _ hr₁
      have hcand : ∀ n ∈ preceding (r.update source) id, n.uuid ∈ net₁.members →
          ∃ s net', successor (k + 1) n ⟨some (make_header (r.update source).context), id⟩ net₁ =
            .ok (some s, net') ∧ Found net₁ id s ∧ Ring net' ∧ SameNodes net₁ net' := by
        intro n hn hmem
        apply ih hring hmem hself hid₁
        -- a candidate lies between the target and the id
        have hbn := (mem_preceding.mp hn).2
        rw [hown] at hbn
        have hne : target.uuid ≠ id := by
          rintro heq
          exact hid₁ (heq ▸ mem_members.mpr ⟨_, hr₁⟩)
        rw [between_from hne] at hbn
        rw [steps_shift target.uuid n.uuid id, if_pos (le_of_lt hbn.2)]
        omega
      obtain ⟨s, hs, hsmem⟩ := successor_candidate hring hr₁ hid₁ hb
      obtain ⟨found, net', hcall, hfound, hring', hsame'⟩ := first_ok_append
        (fun n => successor (k + 1) n
          (Client.forwarded (r.update source).context ⟨some (make_header source), id⟩))
        (fun s net' => Found net₁ id s ∧ Ring net' ∧ SameNodes net₁ net') [(r.update source).context]
        (by
          intro n hn
          by_cases hmem : n.uuid ∈ net₁.members
          · right; exact hcand n hn hmem
          · left
            have hnone : net₁ n.uuid = none := by simpa [members] using hmem
            rw [successor]
            simp only [hnone])
        (by
          obtain ⟨s', net', hcall, -⟩ := hcand s hs hsmem.mem
          refine ⟨s, hs, ?_⟩
          simp only [Client.forwarded, hcall]
          simp)
      exact ⟨found, net', hcall, hsame.found.mp hfound, hring', hsame.trans hsame'⟩

/-- A lookup of an id that is no node's uuid finds the first member after it, from every node. -/
theorem lookup_correct (net : Network) (h : Ring net) (u : Uuid) (r : Router) (hr : net u = some r)
    (id : Uuid) (hid : id ∉ net.members) (fuel : Nat) (hfuel : 2 ^ 256 < fuel) :
    ∃ s net', successor fuel r.context ⟨some (make_header r.context), id⟩ net = .ok (some s, net') ∧
      Found net id s ∧ Ring net' ∧ SameNodes net net' := by
  have hlt := steps_lt r.context.uuid id
  exact successor_found h (h.member_context hr).mem (h.member_context hr) hid (by omega)

/-! ## A ring of two -/

/-- Two nodes that know each other. -/
def pair (a b : Node) : Network := fun u =>
  if u = a.uuid then some ((init a).update b) else if u = b.uuid then some ((init b).update a) else none

theorem pair_left (a b : Node) : pair a b a.uuid = some ((init a).update b) := if_pos rfl

theorem pair_right {a b : Node} (h : b.uuid ≠ a.uuid) : pair a b b.uuid = some ((init b).update a) := by
  rw [pair, if_neg h, if_pos rfl]

theorem pair_members (a b : Node) : (pair a b).members = {a.uuid, b.uuid} := by
  ext u
  simp only [members, pair, Set.mem_ofPred_eq, Set.mem_insert_iff, Set.mem_singleton_iff]
  split_ifs <;> simp [*]

theorem pair_cases {a b : Node} {u : Uuid} {r : Router} (h : pair a b u = some r) :
    (u = a.uuid ∧ r = (init a).update b) ∨ (u = b.uuid ∧ r = (init b).update a) := by
  rw [pair] at h
  split_ifs at h with ha hb
  · left; exact ⟨ha, (Option.some.inj h).symm⟩
  · right; exact ⟨hb, (Option.some.inj h).symm⟩

theorem pair_member {a b : Node} (h : b.uuid ≠ a.uuid) : (pair a b).Member a ∧ (pair a b).Member b :=
  ⟨⟨_, pair_left a b, update_context _ _⟩, ⟨_, pair_right h, update_context _ _⟩⟩

theorem pair_ring {a b : Node} (h : b.uuid ≠ a.uuid) (ha : ((init a).update b).successor = some b)
    (hb : ((init b).update a).successor = some a) : Ring (pair a b) := by
  refine ⟨?_, ?_, ?_⟩
  · intro u r hr
    rcases pair_cases hr with ⟨rfl, rfl⟩ | ⟨rfl, rfl⟩ <;> rw [update_context] <;> rfl
  · intro u r hr
    rcases pair_cases hr with ⟨rfl, rfl⟩ | ⟨rfl, rfl⟩ <;> exact update_wf (init_wf _) _
  · intro u r hr
    rcases pair_cases hr with ⟨rfl, rfl⟩ | ⟨rfl, rfl⟩
    · rw [ha, IsSuccessor, pair_members, Set.pair_comm]
      exact ⟨(pair_member h).2, next_pair h⟩
    · rw [hb, IsSuccessor, pair_members]
      exact ⟨(pair_member h).1, next_pair h.symm⟩

theorem lookup_in_pair : ∃ s net', successor (2 ^ 256 + 1) ⟨0, []⟩ ⟨some (make_header ⟨0, []⟩), 50⟩
    (pair ⟨0, []⟩ ⟨100, []⟩) = .ok (some s, net') ∧ Found (pair ⟨0, []⟩ ⟨100, []⟩) 50 s ∧ Ring net' ∧
      SameNodes (pair ⟨0, []⟩ ⟨100, []⟩) net' :=
  lookup_correct (pair ⟨0, []⟩ ⟨100, []⟩) (pair_ring (by decide) (by decide) (by decide)) 0
    ((init ⟨0, []⟩).update ⟨100, []⟩) (pair_left _ _) 50 (by rw [pair_members]; decide) (2 ^ 256 + 1)
      (by omega)

end Network

end Chord
