import Chord.Fs.Service
import Chord.Lib.Clockwise

/-!
# Around the ring

A request for a file starts at the owner of its uri and goes from node to successor, until the
count of copies is reached or it is back at the node where it started.
-/

open Circle

namespace Chord

namespace Fs

/-! ## Copies -/

/-- What copy number `i` of `k` has in its record. -/
def Replication.copy (k : UInt32) (i : Nat) : Replication := ⟨UInt32.ofNat i, k⟩

namespace Replication

theorem next_copy (k : UInt32) (i : Nat) : (copy k i).next = copy k (i + 1) := by
  simp [copy, next, UInt32.ofNat_add]

theorem index_copy {k : UInt32} {i : Nat} (hi : i < 2 ^ 32) : (copy k i).index.toNat = i :=
  UInt32.toNat_ofNat_of_lt hi

theorem active_copy {k : UInt32} {i : Nat} (hi : i < 2 ^ 32) :
    (copy k i).active ↔ i < k.toNat ∧ 1 < k.toNat := by
  rw [active, UInt32.lt_iff_toNat_lt, UInt32.lt_iff_toNat_lt, index_copy hi]
  rfl

theorem has_next_copy {k : UInt32} {i : Nat} (hi : i + 1 < 2 ^ 32) :
    (copy k i).has_next ↔ i + 1 < k.toNat := by
  have hindex : (copy k i).index + 1 = (copy k (i + 1)).index := by simp [copy, UInt32.ofNat_add]
  rw [has_next, hindex, UInt32.lt_iff_toNat_lt, index_copy hi]
  rfl

/-- The copies of a count that a chain visits have indices that do not wrap. -/
theorem succ_lt_of_lt {k : UInt32} {i : Nat} (hi : i < max 1 k.toNat) : i + 1 < 2 ^ 32 := by
  have := k.toNat_lt
  omega

theorem index_copy_ne_zero {k : UInt32} {i : Nat} (hi : 0 < i) (hik : i < k.toNat) :
    (copy k i).index ≠ 0 := by
  intro h
  have hlt := k.toNat_lt
  have hindex := index_copy (k := k) (i := i) (by omega)
  rw [h, UInt32.toNat_zero] at hindex
  omega

theorem next_copy_active {k : UInt32} {i : Nat} (hi : i < max 1 k.toNat) :
    (copy k i).next.active ↔ i + 1 < k.toNat := by
  rw [next_copy, active_copy (succ_lt_of_lt hi)]
  omega

end Replication

namespace World

@[simp]
theorem set_ring (w : World) (u : Uuid) (store : Store) : (w.set u store).ring = w.ring := rfl

@[simp]
theorem set_up (w : World) (u : Uuid) (store : Store) : (w.set u store).up = w.up := rfl

@[simp]
theorem set_stores_self (w : World) (u : Uuid) (store : Store) : (w.set u store).stores u = store := by
  simp [set]

theorem set_stores_of_ne {w : World} {u v : Uuid} {store : Store} (h : v ≠ u) :
    (w.set u store).stores v = w.stores v := Function.update_of_ne h _ _

@[simp]
theorem set_set (w : World) (u : Uuid) (store store' : Store) :
    (w.set u store).set u store' = w.set u store' := by
  simp [set]

@[simp]
theorem set_stores_eq (w : World) (u : Uuid) : w.set u (w.stores u) = w := by simp [set]

theorem successor_congr {w w' : World} (h : w'.ring = w.ring) (id : Uuid) :
    w'.successor id = w.successor id := by
  rw [successor, successor, h]

@[simp]
theorem set_successor (w : World) (u : Uuid) (store : Store) (id : Uuid) :
    (w.set u store).successor id = w.successor id := rfl

/-! ## The members in clockwise order -/

/-- Every member has its own uuid and answers. -/
structure Exact (w : World) : Prop where
  apart : w.ring.Pairwise fun x y => x.uuid ≠ y.uuid
  up : ∀ n ∈ w.ring, n ∈ w.up
  nonempty : w.ring ≠ []

/-- The owner of `id` and the nodes that follow it. -/
def clockwise (w : World) (id : Uuid) : List Node :=
  w.ring.insertionSort fun x y => steps (id + 1) x.uuid ≤ steps (id + 1) y.uuid

theorem clockwise_perm (w : World) (id : Uuid) : (w.clockwise id).Perm w.ring := List.perm_insertionSort _ _

@[simp]
theorem mem_clockwise {w : World} {id : Uuid} {n : Node} : n ∈ w.clockwise id ↔ n ∈ w.ring :=
  (w.clockwise_perm id).mem_iff

@[simp]
theorem length_clockwise (w : World) (id : Uuid) : (w.clockwise id).length = w.ring.length :=
  (w.clockwise_perm id).length_eq

theorem clockwise_congr {w w' : World} (h : w'.ring = w.ring) (id : Uuid) :
    w'.clockwise id = w.clockwise id := by
  rw [clockwise, clockwise, h]

theorem Exact.of_ring {w w' : World} (h : w.Exact) (hring : w'.ring = w.ring) (hup : w'.up = w.up) :
    w'.Exact :=
  ⟨hring ▸ h.apart, hring ▸ hup ▸ h.up, hring ▸ h.nonempty⟩

section

variable {w : World}

theorem Exact.clockwise (h : w.Exact) (id : Uuid) : Clockwise Node.uuid (id + 1) (w.clockwise id) :=
  clockwise_insertionSort h.apart

theorem Exact.members (h : w.Exact) : Apart Node.uuid w.ring := by
  have hapart := (h.clockwise 0).apart
  intro x hx y hy
  exact hapart x (mem_clockwise.mpr hx) y (mem_clockwise.mpr hy)

theorem Exact.successor_iff (h : w.Exact) {id : Uuid} {n : Node} :
    w.successor id = some n ↔ FirstAfter Node.uuid (w.clockwise id) id n := by
  have hmem : ∀ x, x ∈ w.clockwise id ↔ x ∈ w.ring := fun x => mem_clockwise
  rw [successor, argmin_eq_iff h.members]
  simp only [FirstAfter, hmem]

theorem Exact.exists_owner (h : w.Exact) (id : Uuid) : ∃ x rest, w.clockwise id = x :: rest :=
  List.exists_cons_of_ne_nil fun hnil => h.nonempty (hnil ▸ w.clockwise_perm id).symm.eq_nil

theorem Exact.successor_owner (h : w.Exact) {id : Uuid} {x : Node} {rest : List Node}
    (hl : w.clockwise id = x :: rest) : w.successor id = some x := by
  rw [h.successor_iff]
  exact (h.clockwise id).head (by rw [hl]; rfl)

theorem Exact.exists_successor (h : w.Exact) (id : Uuid) : ∃ n ∈ w.ring, w.successor id = some n := by
  obtain ⟨x, rest, hl⟩ := h.exists_owner id
  exact ⟨x, mem_clockwise.mp (by rw [hl]; exact List.mem_cons_self), h.successor_owner hl⟩

/-- From the owner over all other members, and back to it. -/
theorem Exact.isChain (h : w.Exact) {id : Uuid} {x : Node} {rest : List Node}
    (hl : w.clockwise id = x :: rest) :
    (x :: rest ++ [x]).IsChain fun a b => w.successor a.uuid = some b := by
  rw [List.isChain_iff_getElem]
  intro i hi
  simp only [List.length_append, List.length_singleton] at hi
  have hlt : i < (x :: rest).length := by omega
  have hsplit : w.clockwise id = (x :: rest).take i ++ (x :: rest)[i] :: (x :: rest).drop (i + 1) := by
    rw [List.getElem_cons_drop, List.take_append_drop, hl]
  rw [List.getElem_append_left hlt, h.successor_iff]
  have hnext := (h.clockwise id)
  rw [hsplit] at hnext
  have hfirst := fun y => hnext.next (y := y)
  rw [← hsplit] at hfirst
  have hmem : ∀ y, y ∈ w.clockwise (x :: rest)[i].uuid ↔ y ∈ w.clockwise id := fun y => by simp
  have hgoal : FirstAfter Node.uuid (w.clockwise id) (x :: rest)[i].uuid (x :: rest ++ [x])[i + 1] := by
    refine hfirst _ ?_
    rcases Nat.lt_or_ge (i + 1) (x :: rest).length with hin | hout
    · rw [List.drop_eq_getElem_cons hin, List.getElem_append_left hin]
      rfl
    · have heq : i + 1 = (x :: rest).length := by omega
      rw [List.drop_eq_nil_of_le hout]
      simp only [heq, List.getElem_append_right (le_refl _), Nat.sub_self, List.getElem_cons_zero,
        List.nil_append]
      cases i with
      | zero => simp
      | succ i => simp
  exact ⟨(hmem _).mpr hgoal.1, fun y hy => hgoal.2 y ((hmem y).mp hy)⟩

theorem chain_next {z s : Node} {l : List Node}
    (hchain : (z :: l ++ [s]).IsChain fun a b => w.successor a.uuid = some b) :
    ∃ y, (l ++ [s]).head? = some y ∧ w.successor z.uuid = some y ∧
      (l ++ [s]).IsChain fun a b => w.successor a.uuid = some b := by
  obtain ⟨y, hy⟩ : ∃ y, (l ++ [s]).head? = some y := ⟨_, List.head?_eq_some_head (by simp)⟩
  obtain ⟨t, ht⟩ := List.head?_eq_some_iff.mp hy
  rw [List.cons_append, ht, List.isChain_cons_cons, ← ht] at hchain
  exact ⟨y, hy, hchain⟩

/-- The nodes after the owner, and the owner at the end. -/
theorem Exact.tail_chain (h : w.Exact) {id : Uuid} {x : Node} {rest : List Node}
    (hl : w.clockwise id = x :: rest) :
    ∃ y, (rest ++ [x]).head? = some y ∧ w.successor x.uuid = some y ∧
      (rest ++ [x]).IsChain fun a b => w.successor a.uuid = some b := chain_next (h.isChain hl)

/-- The owner comes last when the others are counted from it. -/
theorem Exact.pairwise (h : w.Exact) {id : Uuid} {x : Node} {rest : List Node}
    (hl : w.clockwise id = x :: rest) :
    (rest ++ [x]).Pairwise fun x y => x.uuid ≠ y.uuid := by
  have hperm : (rest ++ [x]).Perm w.ring :=
    (List.perm_append_singleton x rest).trans (hl ▸ w.clockwise_perm id)
  exact (hperm.pairwise_iff fun h => Ne.symm h).mpr h.apart

/-- Only a node that is alone is its own successor. -/
theorem Exact.alone (h : w.Exact) {id : Uuid} {x : Node} {rest : List Node} (hl : w.clockwise id = x :: rest)
    (hx : (rest ++ [x]).head? = some x) : rest = [] := by
  cases rest with
  | nil => rfl
  | cons z rest =>
    cases hx
    have hapart := (List.pairwise_append.mp (h.pairwise hl)).2.2 x List.mem_cons_self x List.mem_cons_self
    exact absurd rfl hapart

end

/-! ## One change at every node of a list -/

/-- `g i` on the store of the first node, `g (i + 1)` on that of the second. -/
def at_each (g : Nat → Store → Store) : Nat → List Node → World → World
  | _, [], w => w
  | i, x :: l, w => at_each g (i + 1) l (w.set x.uuid (g i (w.stores x.uuid)))

variable {g : Nat → Store → Store}

@[simp]
theorem at_each_ring (i : Nat) (l : List Node) (w : World) : (at_each g i l w).ring = w.ring := by
  induction l generalizing i w with
  | nil => rfl
  | cons x l ih => exact ih _ _

@[simp]
theorem at_each_up (i : Nat) (l : List Node) (w : World) : (at_each g i l w).up = w.up := by
  induction l generalizing i w with
  | nil => rfl
  | cons x l ih => exact ih _ _

theorem at_each_stores_of_ne {i : Nat} {l : List Node} {w : World} {u : Uuid} (h : ∀ x ∈ l, x.uuid ≠ u) :
    (at_each g i l w).stores u = w.stores u := by
  induction l generalizing i w with
  | nil => rfl
  | cons x l ih =>
    obtain ⟨hx, hl⟩ := List.forall_mem_cons.mp h
    rw [at_each, ih hl, set_stores_of_ne hx.symm]

theorem at_each_stores {i j : Nat} {l : List Node} {w : World} {x : Node}
    (hl : l.Pairwise fun x y => x.uuid ≠ y.uuid) (hx : l[j]? = some x) :
    (at_each g i l w).stores x.uuid = g (i + j) (w.stores x.uuid) := by
  induction l generalizing i j w with
  | nil => cases hx
  | cons y l ih =>
    obtain ⟨hy, hl⟩ := List.pairwise_cons.mp hl
    cases j with
    | zero =>
      cases hx
      rw [at_each, at_each_stores_of_ne fun z hz => (hy z hz).symm, set_stores_self, Nat.add_zero]
    | succ j =>
      have hne := (hy x (List.mem_of_getElem? hx)).symm
      rw [at_each, ih hl hx, set_stores_of_ne hne, Nat.add_right_comm, Nat.add_assoc]

/-- What `g` leaves alone at every store. -/
theorem at_each_stores_congr {α : Type} (f : Store → α) (h : ∀ i store, f (g i store) = f store) (i : Nat)
    (l : List Node) (w : World) (u : Uuid) : f ((at_each g i l w).stores u) = f (w.stores u) := by
  induction l generalizing i w with
  | nil => rfl
  | cons x l ih =>
    rw [at_each, ih]
    rcases eq_or_ne u x.uuid with rfl | hne
    · rw [set_stores_self, h]
    · rw [set_stores_of_ne hne]

theorem at_each_take_stores {i j c : Nat} {l : List Node} {w : World} {x : Node}
    (hl : l.Pairwise fun x y => x.uuid ≠ y.uuid) (hx : l[j]? = some x) :
    (at_each g i (l.take c) w).stores x.uuid = if j < c then g (i + j) (w.stores x.uuid)
      else w.stores x.uuid := by
  split
  · rename_i hj
    exact at_each_stores (hl.sublist (List.take_sublist c l)) (by rw [List.getElem?_take_of_lt hj, hx])
  · rename_i hj
    apply at_each_stores_of_ne
    intro y hy
    obtain ⟨m, hm, rfl⟩ := List.getElem_of_mem hy
    obtain ⟨hjl, rfl⟩ := List.getElem?_eq_some_iff.mp hx
    rw [List.length_take] at hm
    rw [List.getElem_take]
    exact List.pairwise_iff_getElem.mp hl m j (by omega) hjl (by omega)

/-! ## A call from node to node -/

/-- What is true of the world after a reply, if there is one. -/
def After (P : World → Prop) (reply : Reply) : Prop := ∀ w status, reply = some (w, status) → P w

theorem after_none {P : World → Prop} : After P none := fun _ _ h => by cases h

theorem after_some {P : World → Prop} {w : World} (h : P w) (status : StatusCode) :
    After P (some (w, status)) := by
  intro w' status' heq
  cases heq
  exact h

theorem after_bind {α : Type} {P : World → Prop} {x : Option α} {f : α → Reply}
    (h : ∀ a, x = some a → After P (f a)) :
    After P (x >>= f) := by
  intro w' status heq
  obtain ⟨a, ha, hf⟩ := Option.bind_eq_some_iff.mp heq
  exact h a ha w' status hf

theorem after_ignored {P : World → Prop} {reply : Reply} (h : After P reply) {w : World}
    (hw : ignored reply = some w) :
    P w := by
  obtain ⟨⟨z, status⟩, hz, rfl⟩ := Option.map_eq_some_iff.mp hw
  exact h z status hz

/-- A handler that goes well, to a caller that does not read its status. -/
@[simp]
theorem ignored_bind_some (r : Option World) (status : StatusCode) :
    ignored (r.bind fun w => some (w, status)) = r := by
  cases r <;> rfl

/-- The two calls of a handler that goes well. -/
theorem ignored_bind_bind {r : Option World} {f : World → Option World} {status : StatusCode} {w' : World}
    (h : ignored (r.bind fun v => (f v).bind fun z => some (z, status)) = some w') :
    ∃ v, r = some v ∧ f v = some w' := by
  rw [← Option.bind_assoc, ignored_bind_some] at h
  exact Option.bind_eq_some_iff.mp h

variable (g) (Ready : Nat → Store → Prop) (call : Nat → World → Node → Nat → Option World)

/-- A call that changes the store of the node and goes on to the successor, for the copies up to
`k`. It ends there, or at the node `s` that does nothing. -/
theorem relayed {k : Nat} {s : Node}
    (hstep : ∀ fuel w x y i, x ∈ w.up → x.uuid ≠ s.uuid → x.uuid ≠ y.uuid → i < k →
    Ready i (w.stores x.uuid) →
      w.successor x.uuid = some y → call (fuel + 2) w x i =
        if i + 1 < k then call (fuel + 1) (w.set x.uuid (g i (w.stores x.uuid))) y (i + 1)
        else some (w.set x.uuid (g i (w.stores x.uuid))))
    (hsource : ∀ fuel w i, call (fuel + 1) w s i = some w)
    {l : List Node} {i fuel : Nat} {w : World} {x : Node} (hi : i < k) (hfuel : l.length < fuel)
    (hx : (l ++ [s]).head? = some x) (hchain : (l ++ [s]).IsChain fun a b => w.successor a.uuid = some b)
    (hl : (l ++ [s]).Pairwise fun x y => x.uuid ≠ y.uuid) (hup : ∀ x ∈ l, x ∈ w.up)
    (hready : ∀ j x, (l.take (k - i))[j]? = some x → Ready (i + j) (w.stores x.uuid)) :
    call fuel w x i = some (at_each g i (l.take (k - i)) w) := by
  induction l generalizing i fuel w x with
  | nil =>
    obtain ⟨fuel, rfl⟩ := Nat.exists_eq_succ_of_ne_zero (by omega : fuel ≠ 0)
    cases hx
    rw [hsource, List.take_nil, at_each]
  | cons z l ih =>
    obtain rfl : z = x := by simpa using hx
    obtain ⟨fuel, rfl⟩ : ∃ n, fuel = n + 2 := ⟨fuel - 2, by simp only [List.length_cons] at hfuel; omega⟩
    obtain ⟨hne, hl⟩ := List.pairwise_cons.mp hl
    obtain ⟨y, hy, hnext, hchain⟩ := chain_next hchain
    have hzs : z.uuid ≠ s.uuid := hne s (List.mem_append_right _ List.mem_cons_self)
    obtain ⟨c, hc⟩ : ∃ c, k - i = c + 1 := ⟨k - i - 1, by omega⟩
    have hz : Ready i (w.stores z.uuid) := hready 0 z (by rw [hc]; rfl)
    rw [hstep fuel w z y i (hup z List.mem_cons_self) hzs (hne y (List.mem_of_mem_head? hy)) hi hz hnext, hc,
      List.take_succ_cons, at_each]
    simp only [List.length_cons] at hfuel
    split
    · rename_i hmore
      have hk : k - (i + 1) = c := by omega
      have hrest := @ih (i + 1) (fuel + 1) (w.set z.uuid (g i (w.stores z.uuid))) y hmore
          (by omega) hy hchain hl
        fun x hx => hup x (List.mem_cons_of_mem _ hx)
      rw [hk] at hrest
      apply hrest
      intro j x hx
      have hxl : x ∈ l := List.mem_of_mem_take (List.mem_of_getElem? hx)
      have hxz : x.uuid ≠ z.uuid := (hne x (List.mem_append_left _ hxl)).symm
      rw [set_stores_of_ne hxz, Nat.add_right_comm, Nat.add_assoc]
      exact hready (j + 1) x (by rw [hc]; exact hx)
    · rename_i hlast
      obtain rfl : c = 0 := by omega
      rfl

/-- A call that keeps a property at every node where it may change something. -/
theorem relayed_keeps (P : World → Prop) (Ready : Store → Prop)
    (call : Nat → World → Node → Nat → World → Prop) {k : Nat} {s : Node}
    (hstep : ∀ fuel w x y i w', P w → x.uuid ≠ s.uuid → i < k → Ready (w.stores x.uuid) →
      w.successor x.uuid = some y → call (fuel + 1) w x i w' →
        P w' ∨ i + 1 < k ∧ ∃ v, P v ∧ v.ring = w.ring ∧ (∀ u ≠ x.uuid, v.stores u = w.stores u) ∧
          call fuel v y (i + 1) w')
    (hzero : ∀ w x i w', ¬ call 0 w x i w') (hsource : ∀ fuel w i w', call (fuel + 1) w s i w' → w' = w)
    {l : List Node} {i fuel : Nat} {w w' : World} {x : Node} (hi : i < k)
    (hx : (l ++ [s]).head? = some x) (hchain : (l ++ [s]).IsChain fun a b => w.successor a.uuid = some b)
    (hl : (l ++ [s]).Pairwise fun x y => x.uuid ≠ y.uuid)
    (hready : ∀ x ∈ l.take (k - i), Ready (w.stores x.uuid)) (hw : P w) (hcall : call fuel w x i w') :
    P w' := by
  obtain ⟨fuel, rfl⟩ : ∃ n, fuel = n + 1 :=
    Nat.exists_eq_succ_of_ne_zero fun hzero' => hzero _ _ _ _ (hzero' ▸ hcall)
  induction l generalizing i fuel w x with
  | nil =>
    cases hx
    rw [hsource _ _ _ _ hcall]
    exact hw
  | cons z l ih =>
    obtain rfl : z = x := by simpa using hx
    obtain ⟨hne, hl⟩ := List.pairwise_cons.mp hl
    obtain ⟨y, hy, hnext, hchain⟩ := chain_next hchain
    obtain ⟨c, hc⟩ : ∃ c, k - i = c + 1 := ⟨k - i - 1, by omega⟩
    rw [hc, List.take_succ_cons] at hready
    obtain ⟨hz, hready⟩ := List.forall_mem_cons.mp hready
    rcases hstep fuel w z y i w' hw (hne s (List.mem_append_right _ List.mem_cons_self)) hi hz hnext
      hcall with
      hkept | ⟨hmore, v, hv, hring, hstores, hcall⟩
    · exact hkept
    obtain ⟨fuel, rfl⟩ : ∃ n, fuel = n + 1 :=
      Nat.exists_eq_succ_of_ne_zero fun hzero' => hzero _ _ _ _ (hzero' ▸ hcall)
    refine ih hmore hy (by simpa only [successor_congr hring] using hchain) hl (fun x hx => ?_) hv fuel hcall
    rw [hstores x.uuid (hne x (List.mem_append_left _ (List.mem_of_mem_take hx))).symm]
    exact hready x (by rwa [show c = k - (i + 1) by omega])

end World

end Fs

end Chord
