import Chord.Candidates
import Chord.Enlarged
import Chord.Learning
import Chord.Leave
import Chord.Lib.Climb

/-!
# Right fingers halve the way

A request goes to the last finger before the id. Where the fingers are right, that is at least
half way to the last member before the id, so the calls go no deeper than the width of a uuid.
-/

open Circle Nearest

namespace Chord

open Router

/-- Of starts that never more than double, the last one before `d` is half way. -/
theorem exists_half {s : Nat → Nat} {d : Nat} (m : Nat) (hfirst : s 0 < d)
    (hdouble : ∀ i < m, s (i + 1) ≤ 2 * s i + 1) (hlast : d ≤ 2 * s m + 1) :
    ∃ i ≤ m, s i < d ∧ d ≤ 2 * s i + 1 := by
  induction m with
  | zero => exact ⟨0, le_refl 0, hfirst, hlast⟩
  | succ m ih =>
    by_cases hm : s (m + 1) < d
    · exact ⟨m + 1, le_refl _, hm, hlast⟩
    · have hd := hdouble m (Nat.lt_succ_self m)
      obtain ⟨i, hi, hlt, hle⟩ := ih (fun i hi => hdouble i (by omega)) (by omega)
      exact ⟨i, by omega, hlt, hle⟩

theorem steps_calc_double (self : Uuid) {i : Nat} (hi : i + 1 < BITS) :
    steps self (calc_successor_uuid_for_index self (i + 1)) ≤
      2 * steps self (calc_successor_uuid_for_index self i) + 1 := by
  rw [steps_calc self hi, steps_calc self (by omega), Nat.pow_succ]
  split <;> split <;> omega

theorem steps_calc_last (self x : Uuid) :
    steps self x ≤ 2 * steps self (calc_successor_uuid_for_index self 255) + 1 := by
  have hlt := steps_lt self x
  rw [steps_calc self (show 255 < BITS by decide)]
  split <;> omega

namespace Network

/-! ## One hop -/

/-- Some finger is half way to any other member, and not past it. -/
theorem half_way {net : Network} (h : FullRing net) {u : Uuid} {r : Router} (hr : net u = some r) {p : Uuid}
    (hp : p ∈ net.members) (hpu : p ≠ u) :
    ∃ n ∈ r.nodes, steps u n.uuid ≤ steps u p ∧ steps u p < 2 * steps u n.uuid := by
  have hown := h.own u r hr
  have hsucc := h.successor u r hr
  have hstart : ∀ i : Fin BITS, (r.entry i).uuid = calc_successor_uuid_for_index u i := fun i => by
    rw [entry_uuid, hown]
  have hfirst : steps u (calc_successor_uuid_for_index u 0) < steps u p := by
    cases hs : r.successor with
    | none =>
      rw [hs] at hsucc
      exact absurd (hsucc p hp) hpu
    | some s =>
      rw [hs] at hsucc
      rw [successor_eq_entry] at hs
      have hlt := (entry_node (h.wf u r hr) (r.entry_mem _) hs).1
      rw [hown, hstart] at hlt
      exact lt_of_lt_of_le hlt (hsucc.2.le p hp hpu)
  obtain ⟨i, hi, hlt, hle⟩ := exists_half (s := fun i => steps u (calc_successor_uuid_for_index u i)) 255
    hfirst (fun i hi => steps_calc_double u (by simp only [BITS]; omega)) (steps_calc_last u p)
  have hib : i < BITS := by simp only [BITS]; omega
  have hfinger := h.finger u ⟨i, hib⟩ r hr
  have hb : between (r.entry ⟨i, hib⟩).uuid p u := by
    rw [between_to (start_ne h.toRing hr _), hstart]
    exact hlt
  cases he : (r.entry ⟨i, hib⟩).node with
  | none =>
    rw [he] at hfinger
    exact absurd hb (hfinger p hp)
  | some n =>
    rw [he] at hfinger
    obtain ⟨-, hbn, hmin⟩ := hfinger
    rw [between_to (start_ne h.toRing hr _), hstart] at hbn
    have hbeyond : steps u (calc_successor_uuid_for_index u i) < steps u n.uuid := hbn
    exact ⟨n, entry_mem_nodes he, hmin p hp hb, by omega⟩

theorem known_distinct {net : Network} (h : FullRing net) {u : Uuid} {r : Router} (hr : net u = some r) :
    Distinct r := fun n hn m hm heq => (h.known u r hr n hn).unique (h.known u r hr m hm) heq

/-- The first candidate is a member, and less than half of the way is left. -/
theorem first_candidate {net : Network} (h : FullRing net) {u : Uuid} {r : Router} (hr : net u = some r)
    {id p : Uuid} (hid : id ∉ net.members) (hp : Prev net.members id p) (hpu : p ≠ u) :
    ∃ c rest, preceding r id = c :: rest ∧ net.Member c ∧ 2 * steps c.uuid p < steps u p := by
  have hown := h.own u r hr
  have hu : u ∈ net.members := mem_members.mpr ⟨r, hr⟩
  have hne : ∀ x ∈ net.members, x ≠ id := fun x hx heq => hid (heq ▸ hx)
  obtain ⟨hpid, hlast⟩ := hp.last hu (hne u hu)
  obtain ⟨n, hn, hle, hhalf⟩ := half_way h hr hp.mem hpu
  have hmem : n ∈ preceding r id := by
    have hpos := node_pos (h.wf u r hr) hn
    rw [hown] at hpos
    rw [mem_preceding, hown, between_from (hne u hu)]
    exact ⟨hn, hpos, by omega⟩
  obtain ⟨c, rest, hc⟩ := List.exists_cons_of_ne_nil (List.ne_nil_of_mem hmem)
  obtain ⟨hcn, hcb⟩ := mem_preceding.mp (hc ▸ List.mem_cons_self : c ∈ preceding r id)
  have hmember := h.known u r hr c hcn
  rw [hown, between_from (hne u hu)] at hcb
  have hcp := hlast c.uuid hmember.mem (hne _ hmember.mem) hcb.2
  have hnc : steps u n.uuid ≤ steps u c.uuid := by
    have hord := preceding_decreasing (h.wf u r hr) (known_distinct h hr) id
    rw [hown, hc] at hord
    rw [hc] at hmem
    rcases List.mem_cons.mp hmem with rfl | hmem
    · exact le_refl _
    · exact le_of_lt (List.rel_of_pairwise_cons hord hmem)
  refine ⟨c, rest, hc, hmember, ?_⟩
  rw [steps_shift u c.uuid p, if_pos hcp]
  omega

/-- The last member before the id answers. -/
theorem last_answers {net : Network} (h : Ring net) {u : Uuid} {r : Router} (hr : net u = some r) {id : Uuid}
    (hid : id ∉ net.members) (hp : Prev net.members id u) : between u id r.successor_or_self.uuid := by
  have hu : u ∈ net.members := mem_members.mpr ⟨r, hr⟩
  have hidu : id ≠ u := fun heq => hid (heq ▸ hu)
  by_contra hb
  obtain ⟨s, hs, hmem⟩ := successor_candidate h hr hid hb
  obtain ⟨hsn, hbs⟩ := mem_preceding.mp hs
  rw [h.own u r hr, between_from hidu.symm] at hbs
  have hle := (hp.last hu hidu.symm).2 s.uuid hmem.mem (fun heq => hid (heq ▸ hmem.mem)) hbs.2
  rw [steps_self] at hle
  omega

/-! ## All hops -/

theorem first_ok_head {α : Type} {call : Node → Call (Option α)} {c : Node} {l : List Node}
    {net net' : Network} {a : α} (hcall : call c net = .ok (some a, net')) :
    Client.first_ok call (c :: l) net = .ok (some a, net') := by
  simp only [Client.first_ok, bind, StateT.bind, Except.bind, hcall]
  rfl

/-- By induction on the width of what is left of the way. -/
theorem successor_halves {k fuel : Nat} {net : Network} (h : FullRing net) {target source : Node}
    (htarget : target.uuid ∈ net.members) (hsource : net.Member source) {id p : Uuid} (hid : id ∉ net.members)
    (hp : Prev net.members id p) (hd : steps target.uuid p < 2 ^ k) (hfuel : k + 1 < fuel) :
    ∃ s net', successor fuel target ⟨some (make_header source), id⟩ net = .ok (some s, net') ∧
      Found net id s ∧ FullRing net' ∧ SameNodes net net' := by
  induction k generalizing fuel net target source with
  | zero =>
    obtain ⟨r, hr⟩ := mem_members.mp htarget
    obtain ⟨f, rfl⟩ : ∃ f, fuel = f + 2 := ⟨fuel - 2, by omega⟩
    have hlearn := learns_update hr hsource
    have hfull := hlearn.full h
    obtain rfl : target.uuid = p := steps_eq_zero.mp (by simpa using hd)
    have hb := last_answers hfull.toRing (Function.update_self _ _ _)
      (by rwa [hlearn.sameNodes.members_eq]) (by rwa [hlearn.sameNodes.members_eq])
    rw [successor]
    simp only [hr, service_successor_ring h.toRing hr hsource hid, if_pos hb]
    exact ⟨_, _, rfl, hlearn.sameNodes.found.mp (answer_found hfull.toRing (Function.update_self _ _ _) hb),
      hfull, hlearn.sameNodes⟩
  | succ k ih =>
    obtain ⟨r, hr⟩ := mem_members.mp htarget
    obtain ⟨f, rfl⟩ : ∃ f, fuel = f + 2 := ⟨fuel - 2, by omega⟩
    have hlearn := learns_update hr hsource
    have hsame := hlearn.sameNodes
    have hfull := hlearn.full h
    have hr₁ : Function.update net target.uuid (some (r.update source)) target.uuid =
        some (r.update source) := Function.update_self _ _ _
    have hid₁ : id ∉ Network.members (Function.update net target.uuid (some (r.update source))) := by
      rwa [hsame.members_eq]
    have hp₁ : Prev (Network.members (Function.update net target.uuid (some (r.update source)))) id p := by
      rwa [hsame.members_eq]
    rw [successor]
    simp only [hr, service_successor_ring h.toRing hr hsource hid]
    by_cases hb : between target.uuid id (r.update source).successor_or_self.uuid
    · rw [if_pos hb]
      exact ⟨_, _, rfl, hsame.found.mp (answer_found hfull.toRing hr₁ hb), hfull, hsame⟩
    · rw [if_neg hb, closest_preceding_nodes_eq]
      have hne : p ≠ target.uuid := by
        rintro rfl
        exact hb (last_answers hfull.toRing hr₁ hid₁ hp₁)
      obtain ⟨c, rest, hc, hmember, hhalf⟩ := first_candidate hfull hr₁ hid₁ hp₁ hne
      obtain ⟨s, net', hcall, hfound, hfull', hsame'⟩ := ih hfull hmember.mem
        (hfull.member_context hr₁) hid₁ hp₁ (by rw [Nat.pow_succ] at hd; omega)
        (show k + 1 < f + 1 by omega)
      rw [hc, List.cons_append]
      exact ⟨s, net', first_ok_head hcall, hsame.found.mp hfound, hfull', hsame.trans hsame'⟩

theorem join_halves {k fuel : Nat} {net : Network} (h : FullRing net) {target : Node}
    (htarget : target.uuid ∈ net.members) {j : Node} {p : Uuid} (hj : j.uuid ∉ net.members)
    (hp : Prev net.members j.uuid p) (hd : steps target.uuid p < 2 ^ k) (hfuel : k < fuel) :
    ∃ s p, join fuel target ⟨some (make_header j)⟩ net = .ok (some (s, p), net) ∧ Adjacent net p s ∧
      between p.uuid j.uuid s.uuid := by
  induction k generalizing fuel target with
  | zero =>
    obtain ⟨r, hr⟩ := mem_members.mp htarget
    obtain ⟨f, rfl⟩ : ∃ f, fuel = f + 1 := ⟨fuel - 1, by omega⟩
    obtain rfl : target.uuid = p := steps_eq_zero.mp (by simpa using hd)
    rw [join]
    simp only [hr]
    rcases service_join_exact h.toExactRing hr hj with ⟨s, q, hjoin, hadj, hb⟩ | ⟨-, hb⟩
    · simp only [hjoin]
      exact ⟨s, q, rfl, hadj, hb⟩
    · exact absurd (last_answers h.toRing hr hj hp) hb
  | succ k ih =>
    obtain ⟨r, hr⟩ := mem_members.mp htarget
    obtain ⟨f, rfl⟩ : ∃ f, fuel = f + 1 := ⟨fuel - 1, by omega⟩
    rw [join]
    simp only [hr]
    rcases service_join_exact h.toExactRing hr hj with ⟨s, q, hjoin, hadj, hb⟩ | ⟨hjoin, hb⟩
    · simp only [hjoin]
      exact ⟨s, q, rfl, hadj, hb⟩
    · have hne : p ≠ target.uuid := by
        rintro rfl
        exact hb (last_answers h.toRing hr hj hp)
      obtain ⟨c, rest, hc, hmember, hhalf⟩ := first_candidate h hr hj hp hne
      obtain ⟨s, q, hcall, hgood⟩ := ih hmember.mem (by rw [Nat.pow_succ] at hd; omega)
        (show k < f by omega)
      simp only [hjoin, source_of_make_header, Option.elim_some, closest_preceding_nodes_eq, hc,
        List.cons_append]
      exact ⟨s, q, first_ok_head hcall, hgood⟩

theorem pair_finger {a b : Node} (h : b.uuid ≠ a.uuid) (i : Fin BITS) :
    IsFinger (pair a b) a.uuid (((init a).update b).entry i).uuid (((init a).update b).entry i).node := by
  have hlearned : (init a).update b = learned a [b] := rfl
  have hne := start_ne_self ((init a).update b) i
  rw [update_context, init_context] at hne
  rw [isFinger_iff hne]
  refine ⟨?_, ?_⟩
  · intro n hn
    rw [hlearned] at hn
    obtain rfl := List.mem_singleton.mp (learned_entry_mem n hn)
    exact (pair_member h).2
  · -- the node itself is beyond no start
    have hnext := (learned_next a [b] i).insert 0
    rw [if_neg (by rintro ⟨hlt, -⟩; omega)] at hnext
    rw [hlearned]
    refine hnext.subset ?_ ?_
    · rintro _ ⟨v, hv, rfl⟩
      rw [pair_members] at hv
      rcases hv with rfl | rfl
      · left; exact steps_self _
      · right; exact ⟨b, List.mem_singleton_self b, rfl⟩
    · intro k hk
      obtain ⟨n, hn, rfl⟩ := Option.map_eq_some_iff.mp hk
      obtain rfl := List.mem_singleton.mp (learned_entry_mem n hn)
      exact ⟨_, (pair_member h).2.mem, rfl⟩

theorem pair_known {a b : Node} (h : b.uuid ≠ a.uuid) : Known (pair a b) := by
  intro u r hr n hn
  rcases pair_cases hr with ⟨rfl, rfl⟩ | ⟨rfl, rfl⟩
  · rcases mem_nodes_update hn with rfl | hn
    · exact (pair_member h).2
    · rw [init_nodes] at hn; cases hn
  · rcases mem_nodes_update hn with rfl | hn
    · exact (pair_member h).1
    · rw [init_nodes] at hn; cases hn

theorem pair_comm {a b : Node} (h : b.uuid ≠ a.uuid) : pair a b = pair b a := by
  funext u
  simp only [pair]
  by_cases ha : u = a.uuid
  · rw [if_pos ha, if_neg (by rw [ha]; exact h.symm), if_pos ha]
  · by_cases hb : u = b.uuid
    · rw [if_neg ha, if_pos hb, if_pos hb]
    · rw [if_neg ha, if_neg hb, if_neg hb, if_neg ha]

theorem pair_full {a b : Node} (h : b.uuid ≠ a.uuid) (ha : ((init a).update b).successor = some b)
    (hb : ((init b).update a).successor = some a) : FullRing (pair a b) := by
  refine ⟨pair_exact h ha hb, pair_known h, ?_⟩
  intro u i r hr
  rcases pair_cases hr with ⟨rfl, rfl⟩ | ⟨rfl, rfl⟩
  · exact pair_finger h i
  · rw [pair_comm h]
    exact pair_finger h.symm i

end Network

end Chord
