import Chord.Rounds
import Chord.Settle

/-!
# A ring from its first node on

Nodes join one after the other, with scheduled tasks and lookups in between. On one host, where
`make_node` puts no other host into a record, the ring stays exact and its tables right.
-/

open Circle

namespace Chord

open Router

namespace Network

/-! ## What the members hear of a joiner -/

theorem mem_nodes_updates {r : Router} {ns : List Node} {m : Node}
    (hm : m ∈ (ns.foldl Router.update r).nodes) :
    m ∈ ns ∨ m ∈ r.nodes := by
  induction ns generalizing r with
  | nil => right; exact hm
  | cons n ns ih =>
    rcases ih hm with hmem | hmem
    · left; exact List.mem_cons_of_mem n hmem
    · rcases mem_nodes_update hmem with rfl | hmem
      · left; exact List.mem_cons_self
      · right; exact hmem

/-- A notify adds its own records to one table. -/
theorem notify_knows {P : Node → Prop} {net net' : Network} {t j other : Node} {peer : Endpoint}
    {status : StatusCode} (h : ∀ u r, net u = some r → ∀ n ∈ r.nodes, P n) (hj : P j)
    (hpeer : P (make_node peer j)) (hother : P (make_node peer other))
    (hcall : notify t peer (Client.notify_change j other j) net = .ok (status, net')) :
    ∀ u r, net' u = some r → ∀ n ∈ r.nodes, P n := by
  simp only [notify] at hcall
  split at hcall
  · cases hcall
    exact h
  · rename_i r hr
    split at hcall
    · cases hcall
    · rename_i res hres
      cases hcall
      intro u r' hr' n hn
      by_cases hu : u = t.uuid
      · rw [hu, Function.update_self, Option.some.injEq] at hr'
        rw [← hr'] at hn
        simp only [Service.notify, Client.notify_change, source_of_make_header] at hres
        split at hres
        · cases hres
          exact h _ _ hr n hn
        · cases hc : Service.changed_predecessor r j with
          | error e => rw [hc] at hres; cases hres
          | ok c =>
            rw [hc] at hres
            cases hres
            rcases mem_nodes_updates hn with hmem | hmem
            · simp only [Service.notify_records, List.mem_cons, List.not_mem_nil, or_false] at hmem
              rcases hmem with rfl | rfl | rfl
              · exact hj
              · exact hother
              · exact hpeer
            · exact h _ _ hr n hmem
      · rw [Function.update_of_ne hu] at hr'
        exact h u r' hr' n hn

theorem facade_join_knows {P : Node → Prop} {fuel : Nat} {net net' : Network} {peer : Endpoint}
    {addr j s p : Node} {rj : Router} (h : ∀ u r, net u = some r → ∀ n ∈ r.nodes, P n) (hj : P j) (hs : P s)
    (hp : P p) (hpeer : ∀ n, P n → make_node peer n = n)
    (hjoin : join fuel addr ⟨some (make_header j)⟩ net = .ok (some (s, p), net))
    (hpred : (Client.joined (init j) (some (s, p))).predecessor = some p)
    (hsucc : (Client.joined (init j) (some (s, p))).successor = some s)
    (hcall : facade_join fuel (init j) peer addr net = .ok (rj, net')) :
    (∀ u r, net' u = some r → ∀ n ∈ r.nodes, P n) := by
  have hknown : ∀ n, P n → P (make_node peer n) := fun n hn => by rw [hpeer n hn]; exact hn
  rw [facade_join_calls hjoin hpred hsucc] at hcall
  simp only [bind, StateT.bind, Except.bind, pure_call] at hcall
  split at hcall
  · cases hcall
  · rename_i res₁ hres₁
    have h₁ := notify_knows h hj (hknown j hj) (hknown s hs) hres₁
    split at hcall
    · cases hcall
    · rename_i res₂ hres₂
      have h₂ := notify_knows h₁ hj (hknown j hj) (hknown p hp) hres₂
      cases hcall
      exact h₂

theorem joinable_of_spaced {net : Network} {j : Uuid} (hj : j ∉ net.members)
    (h : Spaced (insert j net.members)) :
    Joinable net j where
  next_free := by
    intro hmem
    exact (h j (Set.mem_insert _ _) (j + 1) (Set.mem_insert_of_mem _ hmem)
      (fun heq => hj (heq ▸ hmem))).1 rfl
  before_zero := by
    rintro ⟨heq, hmem⟩
    exact (h j (Set.mem_insert _ _) 0 (Set.mem_insert_of_mem _ hmem) (fun heq => hj (heq ▸ hmem))).2
      ⟨heq, rfl⟩
  at_zero := by
    rintro ⟨heq, hmem⟩
    exact (h (BitVec.allOnes 256 - 1) (Set.mem_insert_of_mem _ hmem) j (Set.mem_insert _ _)
      (fun heq => hj (heq ▸ hmem))).2 ⟨rfl, heq⟩

/-- No two neighbours of a spaced ring are one step apart. -/
theorem next_far {M : Set Uuid} (h : Spaced M) {u t : Uuid} (hu : u ∈ M) (ht : Next M u t) :
    steps u t ≠ 1 := by
  intro hone
  have h1 : steps u (u + 1) = 1 := by rw [steps_add]; rfl
  exact (h u hu t ht.mem ht.ne.symm).1 (steps_inj.mp (hone.trans h1.symm))

theorem join_exact {fuel : Nat} {net : Network} (h : ExactRing net) (hk : Known net) {peer : Endpoint}
    {addr j : Node} (haddr : addr.uuid ∈ net.members) (hj : j.uuid ∉ net.members)
    (hspaced : Spaced (insert j.uuid net.members)) (hhost : ∀ n, n = j ∨ net.Member n → make_node peer n = n)
    (hfuel : 2 ^ 256 ≤ fuel) : ∃ r net', facade_join fuel (init j) peer addr net = .ok (r, net') ∧
      ExactRing (Function.update net' j.uuid (some r)) ∧ Known (Function.update net' j.uuid (some r)) ∧
      Network.members (Function.update net' j.uuid (some r)) = insert j.uuid net.members ∧
      ∀ n, Network.Member (Function.update net' j.uuid (some r)) n → n = j ∨ net.Member n := by
  have hsteps := steps_lt addr.uuid j.uuid
  obtain ⟨s, p, hjoin, hadj, hb⟩ := join_found h haddr hj (show steps addr.uuid j.uuid < fuel by omega)
  have hjoinable := joinable_of_spaced hj hspaced
  obtain ⟨hfs, -⟩ := (joinable_iff h hadj hj hb).mp hjoinable
  obtain ⟨net', hcall, hsame, htold⟩ := facade_join_told h peer hj hjoin hadj hb hfs
  obtain ⟨r, net'', hcall', hgrown⟩ : ∃ r net'', facade_join fuel (init j) peer addr net = .ok (r, net'') ∧
      Grown net (Function.update net'' j.uuid (some r)) j.uuid :=
    grown_of_joinable h hj hjoin hadj hb hjoinable
  obtain ⟨rfl, rfl⟩ : Client.joined (init j) (some (s, p)) = r ∧ net' = net'' := by
    rw [hcall, Except.ok.injEq, Prod.mk.injEq] at hcall'
    exact hcall'
  have hps := adjacent_order hadj hj hb
  obtain ⟨hpj, hjs⟩ := next_joiner hadj hj hb
  have hpred := joined_predecessor_eq hjs.ne hpj.ne.symm hps
  have hsucc := joined_successor_pos hfs (joined_order hps)
  have hctx := joined_context j (some (s, p))
  have hj' : j.uuid ∉ net'.members := by rw [hsame.members_eq]; exact hj
  have hmember : ∀ n, n = j ∨ net.Member n →
      Network.Member (Function.update net' j.uuid (some (Client.joined (init j) (some (s, p))))) n := by
    rintro n (rfl | hn)
    · exact ⟨_, Function.update_self _ _ _, hctx⟩
    · exact member_update ((hsame.member n).mpr hn) hj' _
  refine ⟨_, net', hcall, ⟨⟨?_, ?_, ?_⟩, hgrown.predecessor⟩, ?_, hgrown.members, ?_⟩
  · intro u r hr
    by_cases huj : u = j.uuid
    · rw [huj, Function.update_self, Option.some.injEq] at hr
      rw [← hr, hctx, huj]
    · rw [Function.update_of_ne huj] at hr
      obtain ⟨r₀, hr₀, ht⟩ := htold u r hr
      rcases ht with ht | ⟨rfl, -⟩
      · rw [ht.context, h.own u r₀ hr₀]
      · exact h.own u r hr₀
  · intro u r hr
    by_cases huj : u = j.uuid
    · rw [huj, Function.update_self, Option.some.injEq] at hr
      rw [← hr]
      exact joined_wf (init_wf j) _
    · rw [Function.update_of_ne huj] at hr
      obtain ⟨r₀, hr₀, ht⟩ := htold u r hr
      rcases ht with ht | ⟨rfl, -⟩
      · exact ht.wf
      · exact h.wf u r hr₀
  · intro u r hr
    apply hgrown.successor u r hr
    have hu := mem_members.mpr ⟨r, hr⟩
    rw [hgrown.members] at hu ⊢
    exact fun t ht => next_far hspaced hu ht
  · have hall := facade_join_knows (P := fun n => n = j ∨ net.Member n)
      (fun u r hr n hn => Or.inr (hk u r hr n hn)) (Or.inl rfl) (Or.inr hadj.right) (Or.inr hadj.left) hhost
      hjoin hpred hsucc hcall
    intro u r hr n hn
    apply hmember
    by_cases huj : u = j.uuid
    · rw [huj, Function.update_self, Option.some.injEq] at hr
      rw [← hr] at hn
      rcases mem_nodes_update hn with rfl | hn
      · right; exact hadj.left
      · rcases mem_nodes_update hn with rfl | hn
        · right; exact hadj.right
        · rw [init_nodes] at hn; cases hn
    · rw [Function.update_of_ne huj] at hr
      exact hall u r hr n hn
  · rintro n ⟨r, hr, hc⟩
    by_cases hnj : n.uuid = j.uuid
    · left
      rw [hnj, Function.update_self, Option.some.injEq] at hr
      rw [← hc, ← hr, hctx]
    · right
      rw [Function.update_of_ne hnj] at hr
      exact (hsame.member n).mp ⟨r, hr, hc⟩

end Network

/-! ## What happens to the ring -/

/-- A node joins through the address of another, or one of its scheduled tasks runs. -/
inductive Event where
  | join (j addr : Node)
  | round (x : Round)

namespace Rounds

open Network

/-- A join has come to its end before anything else happens. -/
def happen (fuel : Nat) (peer : Uuid → Endpoint) (σ : Rounds) : Event → Except Halt Rounds
  | .join j addr => (facade_join fuel (init j) (peer j.uuid) addr σ.net).map fun (r, net) =>
      ⟨Function.update net j.uuid (some r), Function.update σ.next j.uuid 0⟩
  | .round x => σ.step fuel peer x

def live (fuel : Nat) (peer : Uuid → Endpoint) : Rounds → List Event → Except Halt Rounds
  | σ, [] => .ok σ
  | σ, e :: events => (σ.happen fuel peer e).bind fun σ => live fuel peer σ events

/-- The nodes after some events. -/
def grown (M : Set Uuid) : List Event → Set Uuid
  | [] => M
  | .join j _ :: events => grown (insert j.uuid M) events
  | .round _ :: events => grown M events

/-- Each joiner is a new node out of `N`, its address is that of a member, and nobody looks up the
uuid of a node that is up. -/
def Admissible (N : Set Node) (M : Set Uuid) : List Event → Prop
  | [] => True
  | .join j addr :: events => j ∈ N ∧ j.uuid ∉ M ∧ addr.uuid ∈ M ∧ Admissible N (insert j.uuid M) events
  | .round x :: events => (∀ u id, x = .lookup u id → id ∉ M) ∧ Admissible N M events

/-- The nodes that may ever be up: on one host, and apart from each other's first steps and starts. -/
structure Site (N : Set Node) (peer : Uuid → Endpoint) : Prop where
  host : ∀ n ∈ N, ∀ u, make_node (peer u) n = n
  spaced : Spaced (Node.uuid '' N)
  clear : ∀ u ∈ Node.uuid '' N, ∀ i : Fin BITS, calc_successor_uuid_for_index u i ∉ Node.uuid '' N

structure Alive (N : Set Node) (M : Set Uuid) (net : Network) : Prop where
  exact : ExactRing net
  known : Known net
  members : net.members = M
  nodes : ∀ n, net.Member n → n ∈ N

theorem Alive.subset {N : Set Node} {M : Set Uuid} {net : Network} (h : Alive N M net) :
    M ⊆ Node.uuid '' N := by
  intro u hu
  rw [← h.members] at hu
  obtain ⟨r, hr⟩ := mem_members.mp hu
  exact ⟨r.context, h.nodes _ (h.exact.member_context hr), h.exact.own u r hr⟩

theorem Alive.clear {N : Set Node} {peer : Uuid → Endpoint} {M : Set Uuid} {net : Network}
    (hN : Site N peer) (h : Alive N M net) : ClearStarts net := by
  intro u hu i hi
  rw [h.members] at hu hi
  exact hN.clear u (h.subset hu) i (h.subset hi)

theorem Alive.learns {N : Set Node} {M : Set Uuid} {net net' : Network} (h : Alive N M net)
    (hl : Learns net net') : Alive N M net' where
  exact := hl.exact h.exact
  known := hl.known h.known
  members := by rw [hl.sameNodes.members_eq, h.members]
  nodes n hn := h.nodes n ((hl.sameNodes.member n).mp hn)

section

variable {fuel : Nat} {peer : Uuid → Endpoint} {N : Set Node} (hN : Site N peer) (hfuel : 2 ^ 256 < fuel)

include hN hfuel

theorem Alive.join {M : Set Uuid} {σ : Rounds} (h : Alive N M σ.net) {j addr : Node} (hj : j ∈ N)
    (hnew : j.uuid ∉ M) (haddr : addr.uuid ∈ M) :
    ∃ σ', σ.happen fuel peer (.join j addr) = .ok σ' ∧ Alive N (insert j.uuid M) σ'.net := by
  have hsub : insert j.uuid M ⊆ Node.uuid '' N := Set.insert_subset ⟨j, hj, rfl⟩ h.subset
  have hspaced : Spaced (insert j.uuid σ.net.members) := by
    rw [h.members]
    exact fun u hu v hv => hN.spaced u (hsub hu) v (hsub hv)
  have hhost : ∀ n, n = j ∨ σ.net.Member n → make_node (peer j.uuid) n = n := by
    rintro n (rfl | hn)
    · exact hN.host n hj _
    · exact hN.host n (h.nodes n hn) _
  obtain ⟨r, net', hcall, hexact, hknown, hmembers, hnodes⟩ := join_exact h.exact h.known
    (by rw [h.members]; exact haddr) (by rw [h.members]; exact hnew) hspaced hhost (le_of_lt hfuel)
  refine ⟨⟨Function.update net' j.uuid (some r), Function.update σ.next j.uuid 0⟩, ?_, hexact, hknown, ?_, ?_⟩
  · simp only [happen, hcall, Except.map]
  · rw [hmembers, h.members]
  · intro n hn
    rcases hnodes n hn with rfl | hn
    · exact hj
    · exact h.nodes n hn

theorem Alive.round {M : Set Uuid} {σ : Rounds} (h : Alive N M σ.net) {x : Round}
    (hx : ∀ u id, x = .lookup u id → id ∉ M) :
    ∃ σ', σ.happen fuel peer (.round x) = .ok σ' ∧ Alive N M σ'.net := by
  obtain ⟨σ', hstep, hσ'⟩ :=
    (repaired_init σ.net σ.next).step h.exact h.known (h.clear hN) hfuel (x := x) (by rwa [h.members])
  exact ⟨σ', hstep, h.learns hσ'.learns⟩

/-- By induction on the events. -/
theorem Alive.live {M : Set Uuid} {σ : Rounds} (h : Alive N M σ.net) {events : List Event}
    (hevents : Admissible N M events) :
    ∃ σ', σ.live fuel peer events = .ok σ' ∧ Alive N (grown M events) σ'.net := by
  induction events generalizing M σ with
  | nil => exact ⟨σ, rfl, h⟩
  | cons e events ih =>
    cases e with
    | join j addr =>
      obtain ⟨hj, hnew, haddr, hrest⟩ := hevents
      obtain ⟨σ₁, hstep, h₁⟩ := h.join hN hfuel hj hnew haddr
      obtain ⟨σ', hrun, h'⟩ := ih h₁ hrest
      exact ⟨σ', by rw [Rounds.live, hstep, Except.bind, hrun], h'⟩
    | round x =>
      obtain ⟨hx, hrest⟩ := hevents
      obtain ⟨σ₁, hstep, h₁⟩ := h.round hN hfuel hx
      obtain ⟨σ', hrun, h'⟩ := ih h₁ hrest
      exact ⟨σ', by rw [Rounds.live, hstep, Except.bind, hrun], h'⟩

end

theorem single_alive {N : Set Node} {a : Node} (ha : a ∈ N) : Alive N {a.uuid} (single a) where
  exact := single_ring a
  known u r hr n hn := by
    obtain ⟨-, rfl⟩ := single_cases hr
    rw [init_nodes] at hn
    cases hn
  members := single_members a
  nodes := by
    rintro n ⟨r, hr, rfl⟩
    obtain ⟨-, rfl⟩ := single_cases hr
    exact ha

theorem pair_site : Site {⟨0, []⟩, ⟨100, []⟩} fun _ => [] := by
  have huuids : Node.uuid '' {⟨0, []⟩, ⟨100, []⟩} = ({0, 100} : Set Uuid) := by
    rw [Set.image_insert_eq, Set.image_singleton]
  have hmembers : (pair ⟨0, []⟩ ⟨100, []⟩).members = {0, 100} := pair_members _ _
  refine ⟨?_, ?_, ?_⟩
  · rintro n (rfl | rfl) u <;> rfl
  · rw [huuids, Spaced]
    simp
  · rw [huuids, ← hmembers]
    exact pair_clear

end Rounds

end Chord
