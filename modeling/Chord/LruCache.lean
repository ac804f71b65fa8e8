import Mathlib.Data.List.AList
import Mathlib.Logic.Function.Basic

/-!
# The cache of channels (`chord.lru.cache.h`)

A list with the last used key in front, and a map from every key to its node in the list.
-/

namespace Chord

/-- A node of a `std::list`. An iterator is its address. -/
structure ListNode (K V : Type) where
  address : Nat
  key : K
  value : V

structure LRUCache (K V : Type) where
  list : List (ListNode K V)
  map : AList fun _ : K => Nat
  /-- No node had this address or a later one. -/
  fresh : Nat
  capacity : Nat

/-- An iterator to a node that is gone, or a loop that does not end. -/
inductive LRUFault where
  | dangling
  | endless

namespace LRUCache

variable {K V : Type} [DecidableEq K]

def empty (capacity : Nat) : LRUCache K V := ⟨[], ∅, 0, capacity⟩

/-! ## The private functions -/

/-- `list::erase`. -/
def list_erase (list : List (ListNode K V)) (it : Nat) : Except LRUFault (List (ListNode K V)) :=
  if ∃ n ∈ list, n.address = it then .ok (list.eraseP fun n => n.address = it) else .error .dangling

/-- `list::splice` to the front. -/
def splice (list : List (ListNode K V)) (it : Nat) : Except LRUFault (List (ListNode K V)) :=
  match list.find? fun n => n.address = it with
  | some n => .ok (n :: list.eraseP fun n => n.address = it)
  | none => .error .dangling

def _exists (c : LRUCache K V) (k : K) : Prop := k ∈ c.map

instance (c : LRUCache K V) (k : K) : Decidable (c._exists k) := inferInstanceAs (Decidable (k ∈ c.map))

def _erase (c : LRUCache K V) (k : K) : Except LRUFault (LRUCache K V × Bool) :=
  match c.map.lookup k with
  | none => .ok (c, false)
  | some it => do
    let list ← list_erase c.list it
    .ok ({ c with list := list, map := c.map.erase k }, true)

/-- The loop of `_put`. Every turn takes a node, so the length of the list suffices. -/
def evict : Nat → LRUCache K V → Except LRUFault (LRUCache K V)
  | 0, _ => .error .endless
  | fuel + 1, c =>
    match c.list.getLast? with
    | none => .ok c
    | some last =>
      if c.capacity < c.list.length then do
        let (c, _) ← c._erase last.key
        evict fuel c
      else .ok c

def _put (c : LRUCache K V) (k : K) (v : V) : Except LRUFault (LRUCache K V) := do
  let (c, _) ← c._erase k
  let map := if k ∈ c.map then c.map else c.map.insert k c.fresh
  let c := { c with list := ⟨c.fresh, k, v⟩ :: c.list, map := map, fresh := c.fresh + 1 }
  evict (c.list.length + 1) c

def _touch (c : LRUCache K V) (k : K) : Except LRUFault (LRUCache K V × Option Nat) :=
  match c.map.lookup k with
  | none => .ok (c, none)
  | some it => do
    let list ← splice c.list it
    .ok ({ c with list := list }, some it)

/-- `none` for `std::out_of_range`. -/
def _get (c : LRUCache K V) (k : K) : Except LRUFault (LRUCache K V × Option V) := do
  let (c, it) ← c._touch k
  match it with
  | none => .ok (c, none)
  | some it =>
    match c.list.find? fun n => n.address = it with
    | some n => .ok (c, some n.value)
    | none => .error .dangling

/-! ## The public ones -/

inductive Operation (K V : Type) where
  | put (k : K) (v : V)
  | get (k : K)
  | touch (k : K)
  | exists (k : K)
  | erase (k : K)
  | compute_if_absent (k : K) (mapping_function : K → V)
  | clear

inductive Answer (V : Type) where
  | void
  | bool (b : Bool)
  | value (v : Option V)

def perform (c : LRUCache K V) : Operation K V → Except LRUFault (LRUCache K V × Answer V)
  | .put k v => do
    let c ← c._put k v
    .ok (c, .void)
  | .get k => do
    let (c, v) ← c._get k
    .ok (c, .value v)
  | .touch k => do
    let (c, _) ← c._touch k
    .ok (c, .void)
  | .exists k => .ok (c, .bool (c._exists k))
  | .erase k => do
    let (c, erased) ← c._erase k
    .ok (c, .bool erased)
  | .compute_if_absent k mapping_function => do
    let c ← if c._exists k then .ok c else c._put k (mapping_function k)
    let (c, v) ← c._get k
    .ok (c, .value v)
  | .clear => .ok ({ c with list := [], map := ∅ }, .void)

def run (c : LRUCache K V) : List (Operation K V) → Except LRUFault (LRUCache K V × List (Answer V))
  | [] => .ok (c, [])
  | op :: ops => do
    let (c, answer) ← c.perform op
    let (c, answers) ← c.run ops
    .ok (c, answer :: answers)

end LRUCache

/-! ## Distinct keys, the last used one first -/

namespace Recent

variable {K V : Type} [DecidableEq K]

def value (s : List (K × V)) (k : K) : Option V := (s.find? fun e => e.1 = k).map Prod.snd

def without (s : List (K × V)) (k : K) : List (K × V) := s.filter fun e => e.1 ≠ k

/-- A key that is used comes to the front. -/
def use (s : List (K × V)) (k : K) : List (K × V) :=
  match value s k with
  | some v => (k, v) :: without s k
  | none => s

/-- The keys beyond the capacity are those that were not used for the longest time. -/
def store (capacity : Nat) (s : List (K × V)) (k : K) (v : V) : List (K × V) :=
  ((k, v) :: without s k).take capacity

open LRUCache in
def perform (capacity : Nat) (s : List (K × V)) : Operation K V → List (K × V) × Answer V
  | .put k v => (store capacity s k v, .void)
  | .get k => (use s k, .value (value s k))
  | .touch k => (use s k, .void)
  | .exists k => (s, .bool (value s k).isSome)
  | .erase k => (without s k, .bool (value s k).isSome)
  | .compute_if_absent k mapping_function =>
    match value s k with
    | some v => (use s k, .value (some v))
    | none => (store capacity s k (mapping_function k), .value (some (mapping_function k)))
  | .clear => ([], .void)

def run (capacity : Nat) (s : List (K × V)) :
    List (LRUCache.Operation K V) → List (K × V) × List (LRUCache.Answer V)
  | [] => (s, [])
  | op :: ops =>
    let (s, answer) := perform capacity s op
    let (s, answers) := run capacity s ops
    (s, answer :: answers)

/-- What was stored last for every key, in `stored` and by the operation. -/
def remember (s : List (K × V)) (stored : K → Option V) : LRUCache.Operation K V → K → Option V
  | .put k v => Function.update stored k (some v)
  | .compute_if_absent k mapping_function =>
    if (value s k).isSome then stored else Function.update stored k (some (mapping_function k))
  | _ => stored

def remember_all (capacity : Nat) (s : List (K × V)) (stored : K → Option V) :
    List (LRUCache.Operation K V) → K → Option V
  | [] => stored
  | op :: ops => remember_all capacity (perform capacity s op).1 (remember s stored op) ops

variable {s : List (K × V)} {k : K}

theorem value_eq_none : value s k = none ↔ ∀ e ∈ s, e.1 ≠ k := by
  simp [value]

theorem mem_of_value {v : V} (h : value s k = some v) : (k, v) ∈ s := by
  obtain ⟨e, he, rfl⟩ := Option.map_eq_some_iff.mp h
  have hkey := List.find?_some he
  rw [decide_eq_true_eq] at hkey
  rw [← hkey]
  exact List.mem_of_find?_eq_some he

theorem without_eq_self (h : value s k = none) : without s k = s := by
  rw [without, List.filter_eq_self]
  simpa using value_eq_none.mp h

theorem value_cons_self (v : V) : value ((k, v) :: s) k = some v := by
  simp [value]

theorem without_cons_self (v : V) : without ((k, v) :: s) k = without s k := by
  simp [without]

theorem store_succ (n : Nat) (v : V) : store (n + 1) s k v = (k, v) :: (without s k).take n := rfl

theorem value_store {capacity : Nat} (hcapacity : 1 ≤ capacity) (v : V) :
    value (store capacity s k v) k = some v := by
  obtain ⟨n, rfl⟩ : ∃ n, capacity = n + 1 := ⟨capacity - 1, by omega⟩
  rw [store_succ, value_cons_self]

/-- A key that was just stored is in front. -/
theorem use_store {capacity : Nat} (hcapacity : 1 ≤ capacity) (v : V) :
    use (store capacity s k v) k = store capacity s k v := by
  obtain ⟨n, rfl⟩ : ∃ n, capacity = n + 1 := ⟨capacity - 1, by omega⟩
  have habsent : value ((without s k).take n) k = none := by
    rw [value_eq_none]
    intro e he
    have he := List.mem_of_mem_take he
    simpa using (List.mem_filter.mp he).2
  rw [use, value_store (by omega), store_succ, without_cons_self, without_eq_self habsent]

/-- What `store` drops was used before everything else. -/
theorem dropped_last {capacity : Nat} {v v' : V} {k' : K} (hlength : s.length ≤ capacity)
    (hmem : (k', v') ∈ s) (hk : k' ≠ k) (hdropped : (k', v') ∉ store capacity s k v) :
    s.getLast? = some (k', v') := by
  have hwithout : (k', v') ∈ without s k := List.mem_filter.mpr ⟨hmem, by simpa using hk⟩
  have hshort : (without s k).length ≤ s.length := List.length_filter_le _ _
  cases capacity with
  | zero =>
    rw [List.length_eq_zero_iff.mp (by omega : s.length = 0)] at hmem
    cases hmem
  | succ n =>
    rw [store_succ, List.mem_cons, not_or] at hdropped
    have hlong : n < (without s k).length := by
      by_contra hle
      rw [List.take_of_length_le (by omega)] at hdropped
      exact hdropped.2 hwithout
    -- nothing else is missing from the list
    have hall : without s k = s := List.filter_eq_self.mpr fun e he => by
      have hlen : (without s k).length = s.length := by omega
      exact (List.length_filter_eq_length_iff.mp hlen) e he
    rw [hall] at hdropped hlong
    have hsplit : s = s.take n ++ s.drop n := (List.take_append_drop n s).symm
    have hlast : (s.drop n).length = 1 := by
      rw [List.length_drop]
      omega
    obtain ⟨e, he⟩ := List.length_eq_one_iff.mp hlast
    rw [hsplit, List.mem_append, or_iff_right hdropped.2, he, List.mem_singleton] at hmem
    rw [hsplit, he, List.getLast?_concat, hmem]

/-- What is in the list is what was stored last. -/
def Current (s : List (K × V)) (stored : K → Option V) : Prop := ∀ e ∈ s, stored e.1 = some e.2

theorem Current.store {stored : K → Option V} (h : Current s stored) (capacity : Nat) (k : K) (v : V) :
    Current (store capacity s k v) (Function.update stored k (some v)) := by
  intro e he
  rcases List.mem_cons.mp (List.mem_of_mem_take he) with rfl | he
  · exact Function.update_self ..
  · obtain ⟨hmem, hne⟩ := List.mem_filter.mp he
    rw [Function.update_of_ne (by simpa using hne)]
    exact h e hmem

theorem Current.use {stored : K → Option V} (h : Current s stored) (k : K) : Current (use s k) stored := by
  unfold Recent.use
  split
  · rename_i v hv
    intro e he
    rcases List.mem_cons.mp he with rfl | he
    · exact h _ (mem_of_value hv)
    · exact h e (List.mem_of_mem_filter he)
  · exact h

theorem Current.perform {stored : K → Option V} (h : Current s stored) (capacity : Nat)
    (op : LRUCache.Operation K V) :
    Current (perform capacity s op).1 (remember s stored op) := by
  cases op with
  | put k v => exact h.store capacity k v
  | get k => exact h.use k
  | touch k => exact h.use k
  | «exists» k => exact h
  | erase k => exact fun e he => h e (List.mem_of_mem_filter he)
  | compute_if_absent k f =>
    unfold Recent.perform remember
    cases hv : value s k with
    | some v => simpa [hv] using h.use k
    | none => simpa [hv] using h.store capacity k (f k)
  | clear => exact fun e he => by cases he

end Recent

/-! ## The list and the map -/

namespace LRUCache

variable {K V : Type} [DecidableEq K]

def contents (c : LRUCache K V) : List (K × V) := c.list.map fun n => (n.key, n.value)

/-- The map has the keys of the list, each with its own node. -/
structure Linked (c : LRUCache K V) : Prop where
  keys : (c.list.map ListNode.key).Nodup
  addresses : (c.list.map ListNode.address).Nodup
  old : ∀ n ∈ c.list, n.address < c.fresh
  mapped : ∀ k it, c.map.lookup k = some it ↔ ∃ n ∈ c.list, n.key = k ∧ n.address = it

/-- The node of an iterator is the only one with its key. -/
theorem eraseP_address {list : List (ListNode K V)} (hkeys : (list.map ListNode.key).Nodup)
    (haddresses : (list.map ListNode.address).Nodup) {n : ListNode K V} (hn : n ∈ list) :
    (list.eraseP fun x => x.address = n.address) = list.filter fun x => x.key ≠ n.key := by
  induction list with
  | nil => cases hn
  | cons x list ih =>
    obtain ⟨hxkey, hkeys⟩ := List.nodup_cons.mp hkeys
    obtain ⟨hxaddress, haddresses⟩ := List.nodup_cons.mp haddresses
    rcases List.mem_cons.mp hn with rfl | hn
    · rw [List.eraseP_cons_of_pos (by simp), List.filter_cons_of_neg (by simp), eq_comm, List.filter_eq_self]
      intro y hy
      have hne : y.key ≠ n.key := fun heq => hxkey (heq ▸ List.mem_map_of_mem hy)
      simpa using hne
    · have hkey : x.key ≠ n.key := fun heq => hxkey (heq ▸ List.mem_map_of_mem hn)
      have haddress : x.address ≠ n.address := fun heq => hxaddress (heq ▸ List.mem_map_of_mem hn)
      rw [List.eraseP_cons_of_neg (by simpa using haddress), List.filter_cons_of_pos (by simpa using hkey),
        ih hkeys haddresses hn]

namespace Linked

variable {c : LRUCache K V} {k : K}

theorem empty (capacity : Nat) : Linked (LRUCache.empty capacity : LRUCache K V) where
  keys := List.nodup_nil
  addresses := List.nodup_nil
  old := by simp [LRUCache.empty]
  mapped k it := by simp [LRUCache.empty]

theorem value_eq_none (h : Linked c) : Recent.value c.contents k = none ↔ c.map.lookup k = none := by
  rw [Recent.value_eq_none, Option.eq_none_iff_forall_ne_some]
  constructor
  · intro hall it hit
    obtain ⟨n, hn, rfl, -⟩ := (h.mapped k it).mp hit
    exact hall (n.key, n.value) (List.mem_map_of_mem hn) rfl
  · intro hnone e he heq
    obtain ⟨n, hn, rfl⟩ := List.mem_map.mp he
    exact hnone n.address ((h.mapped k n.address).mpr ⟨n, hn, heq, rfl⟩)

theorem exists_iff (h : Linked c) : c._exists k ↔ (Recent.value c.contents k).isSome := by
  rw [_exists, ← AList.lookup_isSome, Option.isSome_iff_ne_none, Option.isSome_iff_ne_none, ne_eq, ne_eq,
    h.value_eq_none]

/-- The value of a key is that of its node. -/
theorem value_node (h : Linked c) {n : ListNode K V} (hn : n ∈ c.list) :
    Recent.value c.contents n.key = some n.value := by
  cases hv : Recent.value c.contents n.key with
  | none => exact absurd rfl (Recent.value_eq_none.mp hv _ (List.mem_map_of_mem hn))
  | some v =>
    obtain ⟨m, hm, heq⟩ := List.mem_map.mp (Recent.mem_of_value hv)
    have hkey : m.key = n.key := congrArg Prod.fst heq
    have hvalue : m.value = v := congrArg Prod.snd heq
    rw [← List.inj_on_of_nodup_map h.keys hm hn hkey, hvalue]

theorem contents_filter (c : LRUCache K V) (k : K) :
    (c.list.filter fun n => n.key ≠ k).map (fun n => (n.key, n.value)) = Recent.without c.contents k := by
  rw [contents, Recent.without, List.filter_map]
  rfl

/-- The list and the map without one key. -/
theorem erase (h : Linked c) (k : K) :
    Linked { c with list := c.list.filter fun n => n.key ≠ k, map := c.map.erase k } where
  keys := h.keys.sublist (List.filter_sublist.map _)
  addresses := h.addresses.sublist (List.filter_sublist.map _)
  old n hn := h.old n (List.mem_of_mem_filter hn)
  mapped k' it := by
    rcases eq_or_ne k' k with rfl | hk
    · simp only [AList.lookup_erase, List.mem_filter, decide_eq_true_eq]
      constructor
      · intro hnone
        cases hnone
      · rintro ⟨n, ⟨-, hne⟩, hkey, -⟩
        exact absurd hkey hne
    · rw [AList.lookup_erase_ne hk, h.mapped]
      constructor
      · rintro ⟨n, hn, rfl, hit⟩
        exact ⟨n, List.mem_filter.mpr ⟨hn, by simpa using hk⟩, rfl, hit⟩
      · rintro ⟨n, hn, hkey, hit⟩
        exact ⟨n, List.mem_of_mem_filter hn, hkey, hit⟩

/-- A node moves to the front. -/
theorem move (h : Linked c) {n : ListNode K V} (hn : n ∈ c.list) :
    Linked { c with list := n :: c.list.filter fun x => x.key ≠ n.key } where
  keys := by
    refine List.nodup_cons.mpr ⟨?_, h.keys.sublist (List.filter_sublist.map _)⟩
    intro hmem
    obtain ⟨x, hx, hkey⟩ := List.mem_map.mp hmem
    simpa [hkey] using (List.mem_filter.mp hx).2
  addresses := by
    refine List.nodup_cons.mpr ⟨?_, h.addresses.sublist (List.filter_sublist.map _)⟩
    intro hmem
    obtain ⟨x, hx, haddress⟩ := List.mem_map.mp hmem
    obtain ⟨hx, hne⟩ := List.mem_filter.mp hx
    rw [List.inj_on_of_nodup_map h.addresses hx hn haddress] at hne
    simp at hne
  old x hx := by
    rcases List.mem_cons.mp hx with rfl | hx
    · exact h.old x hn
    · exact h.old x (List.mem_of_mem_filter hx)
  mapped k it := by
    rw [h.mapped]
    constructor
    · rintro ⟨x, hx, hkey, hit⟩
      by_cases hxn : x.key = n.key
      · obtain rfl := List.inj_on_of_nodup_map h.keys hx hn hxn
        exact ⟨x, List.mem_cons_self, hkey, hit⟩
      · exact ⟨x, List.mem_cons_of_mem _ (List.mem_filter.mpr ⟨hx, by simpa using hxn⟩), hkey, hit⟩
    · rintro ⟨x, hx, hkey, hit⟩
      rcases List.mem_cons.mp hx with rfl | hx
      · exact ⟨x, hn, hkey, hit⟩
      · exact ⟨x, List.mem_of_mem_filter hx, hkey, hit⟩

/-- A new node in front. -/
theorem insert (h : Linked c) (v : V) (hk : c.map.lookup k = none) :
    Linked { c with list := ⟨c.fresh, k, v⟩ :: c.list, map := c.map.insert k c.fresh, fresh := c.fresh + 1 } where
  keys := by
    refine List.nodup_cons.mpr ⟨?_, h.keys⟩
    intro hmem
    obtain ⟨n, hn, hkey⟩ := List.mem_map.mp hmem
    have hlookup := (h.mapped k n.address).mpr ⟨n, hn, hkey, rfl⟩
    rw [hk] at hlookup
    cases hlookup
  addresses := by
    refine List.nodup_cons.mpr ⟨?_, h.addresses⟩
    intro hmem
    obtain ⟨n, hn, haddress⟩ := List.mem_map.mp hmem
    have hlt := h.old n hn
    simp only at haddress
    omega
  old n hn := by
    rcases List.mem_cons.mp hn with rfl | hn
    · exact Nat.lt_succ_self _
    · exact Nat.lt_succ_of_lt (h.old n hn)
  mapped k' it := by
    rcases eq_or_ne k' k with rfl | hne
    · rw [AList.lookup_insert]
      constructor
      · intro hit
        exact ⟨_, List.mem_cons_self, rfl, Option.some.inj hit⟩
      · rintro ⟨n, hn, hkey, rfl⟩
        rcases List.mem_cons.mp hn with rfl | hn
        · rfl
        · have hlookup := (h.mapped k' n.address).mpr ⟨n, hn, hkey, rfl⟩
          rw [hk] at hlookup
          cases hlookup
    · rw [AList.lookup_insert_ne hne, h.mapped]
      constructor
      · rintro ⟨n, hn, hrest⟩
        exact ⟨n, List.mem_cons_of_mem _ hn, hrest⟩
      · rintro ⟨n, hn, hkey, hit⟩
        rcases List.mem_cons.mp hn with rfl | hn
        · exact absurd hkey.symm hne
        · exact ⟨n, hn, hkey, hit⟩

end Linked

/-! ## What the functions do -/

section

variable {c : LRUCache K V}

theorem _erase_spec (h : Linked c) (k : K) : ∃ c', c._erase k = .ok (c', (Recent.value c.contents k).isSome) ∧
    Linked c' ∧ c'.contents = Recent.without c.contents k ∧ c'.capacity = c.capacity ∧ c'.fresh = c.fresh ∧
    c'.map.lookup k = none := by
  unfold _erase
  cases hlookup : c.map.lookup k with
  | none =>
    have hnone := h.value_eq_none.mpr hlookup
    refine ⟨c, by rw [hnone]; rfl, h, (Recent.without_eq_self hnone).symm, rfl, rfl, hlookup⟩
  | some it =>
    obtain ⟨n, hn, rfl, rfl⟩ := (h.mapped k it).mp hlookup
    have herase : list_erase c.list n.address = .ok (c.list.filter fun x => x.key ≠ n.key) := by
      rw [list_erase, if_pos ⟨n, hn, rfl⟩, eraseP_address h.keys h.addresses hn]
    refine ⟨{ c with list := c.list.filter fun x => x.key ≠ n.key, map := c.map.erase n.key }, ?_,
      h.erase n.key,
      Linked.contents_filter c n.key, rfl, rfl, AList.lookup_erase _ _⟩
    rw [h.value_node hn]
    simp only [herase]
    rfl

/-- Without its last key the list is the front of itself. -/
theorem without_last {s : List (K × V)} {e : K × V} (hkeys : ((s ++ [e]).map Prod.fst).Nodup) :
    Recent.without (s ++ [e]) e.1 = s := by
  rw [List.map_append, List.map_singleton, List.nodup_append] at hkeys
  have hfront : Recent.without s e.1 = s := by
    rw [Recent.without, List.filter_eq_self]
    intro x hx
    simpa using hkeys.2.2 x.1 (List.mem_map_of_mem hx) e.1 (by simp)
  rw [Recent.without, List.filter_append, ← Recent.without, hfront]
  simp

theorem evict_spec (fuel : Nat) (h : Linked c) (hfuel : c.list.length < fuel) : ∃ c', evict fuel c = .ok c' ∧
    Linked c' ∧ c'.contents = c.contents.take c.capacity ∧ c'.capacity = c.capacity := by
  induction fuel generalizing c with
  | zero => omega
  | succ fuel ih =>
    have hlength : c.contents.length = c.list.length := List.length_map ..
    rcases List.eq_nil_or_concat c.list with hnil | ⟨front, last, hlist⟩
    · have hcontents : c.contents = [] := by rw [contents, hnil, List.map_nil]
      exact ⟨c, by rw [evict, hnil]; rfl, h, by rw [hcontents, List.take_nil], rfl⟩
    · rw [List.concat_eq_append] at hlist
      have hlast : c.list.getLast? = some last := by rw [hlist, List.getLast?_concat]
      simp only [evict, hlast]
      by_cases hfull : c.capacity < c.list.length
      · -- the last key goes, and the rest is one shorter
        obtain ⟨c₁, herase, hlinked, hcontents, hcapacity, -, -⟩ := _erase_spec h last.key
        have hsplit : c.contents = front.map (fun n => (n.key, n.value)) ++ [(last.key, last.value)] := by
          rw [contents, hlist, List.map_append, List.map_singleton]
        have hkeys : (c.contents.map Prod.fst).Nodup := by
          rw [contents, List.map_map]
          exact h.keys
        rw [hsplit] at hkeys
        have hfront : c₁.contents = front.map fun n => (n.key, n.value) := by
          rw [hcontents, hsplit, without_last hkeys]
        have hshorter : c₁.list.length = front.length := by
          have heq := congrArg List.length hfront
          rwa [contents, List.length_map, List.length_map] at heq
        have hfrontlength : c.list.length = front.length + 1 := by
          rw [hlist, List.length_append, List.length_singleton]
        obtain ⟨c₂, hevict, hlinked₂, hcontents₂, hcapacity₂⟩ := ih hlinked (by omega)
        refine ⟨c₂, ?_, hlinked₂, ?_, hcapacity₂.trans hcapacity⟩
        · rw [if_pos hfull, herase]
          exact hevict
        · rw [hcontents₂, hcapacity, hfront, hsplit, List.take_append_of_le_length]
          rw [List.length_map]
          omega
      · refine ⟨c, by rw [if_neg hfull], h, ?_, rfl⟩
        rw [List.take_of_length_le]
        omega

theorem _put_spec (h : Linked c) (k : K) (v : V) : ∃ c', c._put k v = .ok c' ∧ Linked c' ∧
    c'.contents = Recent.store c.capacity c.contents k v ∧ c'.capacity = c.capacity := by
  obtain ⟨c₁, herase, hlinked, hcontents, hcapacity, -, habsent⟩ := _erase_spec h k
  have hnot : k ∉ c₁.map := by
    rw [← AList.lookup_isSome, habsent]
    simp
  obtain ⟨c₂, hevict, hlinked₂, hcontents₂, hcapacity₂⟩ :=
    evict_spec (c₁.list.length + 2) (hlinked.insert v habsent)
    (Nat.lt_succ_self _)
  refine ⟨c₂, ?_, hlinked₂, ?_, hcapacity₂.trans hcapacity⟩
  · rw [_put, herase]
    simp only [bind, Except.bind, if_neg hnot]
    exact hevict
  · rw [hcontents₂, Recent.store, ← hcontents, ← hcapacity]
    rfl

theorem _touch_spec (h : Linked c) (k : K) : ∃ c', c._touch k = .ok (c', c.map.lookup k) ∧ Linked c' ∧
    c'.contents = Recent.use c.contents k ∧ c'.capacity = c.capacity ∧
    ∀ it, c.map.lookup k = some it → ∃ n, c'.list.find? (fun n => n.address = it) = some n ∧
      Recent.value c.contents k = some n.value := by
  unfold _touch Recent.use
  cases hlookup : c.map.lookup k with
  | none =>
    rw [h.value_eq_none.mpr hlookup]
    exact ⟨c, rfl, h, rfl, rfl, fun it hit => by cases hit⟩
  | some it =>
    obtain ⟨n, hn, rfl, rfl⟩ := (h.mapped k it).mp hlookup
    have hfind : c.list.find? (fun x => x.address = n.address) = some n := by
      cases hfind : c.list.find? fun x => x.address = n.address with
      | none => simpa using List.find?_eq_none.mp hfind n hn
      | some x =>
        have haddress : x.address = n.address := by simpa using List.find?_some hfind
        rw [List.inj_on_of_nodup_map h.addresses (List.mem_of_find?_eq_some hfind) hn haddress]
    have hsplice : splice c.list n.address = .ok (n :: c.list.filter fun x => x.key ≠ n.key) := by
      simp only [splice, hfind, eraseP_address h.keys h.addresses hn]
    rw [h.value_node hn]
    refine ⟨{ c with list := n :: c.list.filter fun x => x.key ≠ n.key }, ?_, h.move hn, ?_, rfl, ?_⟩
    · simp only [hsplice]
      rfl
    · rw [← Linked.contents_filter]
      rfl
    · rintro it ⟨⟩
      exact ⟨n, List.find?_cons_of_pos (by simp), rfl⟩

theorem _get_spec (h : Linked c) (k : K) : ∃ c', c._get k = .ok (c', Recent.value c.contents k) ∧ Linked c' ∧
    c'.contents = Recent.use c.contents k ∧ c'.capacity = c.capacity := by
  obtain ⟨c₁, htouch, hlinked, hcontents, hcapacity, hnode⟩ := _touch_spec h k
  refine ⟨c₁, ?_, hlinked, hcontents, hcapacity⟩
  rw [_get, htouch]
  simp only [bind, Except.bind]
  cases hlookup : c.map.lookup k with
  | none =>
    rw [h.value_eq_none.mpr hlookup]
  | some it =>
    obtain ⟨n, hfind, hvalue⟩ := hnode it hlookup
    rw [hvalue]
    simp only [hfind]

end

/-! ## The cache is a list of recent keys -/

/-- The two structures fit, and are not too large. -/
structure Valid (capacity : Nat) (c : LRUCache K V) : Prop where
  linked : Linked c
  capacity_eq : c.capacity = capacity
  size : c.list.length ≤ capacity

section

variable {capacity : Nat} {c : LRUCache K V} {stored : K → Option V}

theorem Valid.of_contents {c' : LRUCache K V} (h : Linked c') (hcapacity : c'.capacity = capacity)
    (hlength : c'.contents.length ≤ capacity) : Valid capacity c' :=
  ⟨h, hcapacity, by rwa [contents, List.length_map] at hlength⟩

theorem Valid.length (h : Valid capacity c) : c.contents.length ≤ capacity := by
  rw [contents, List.length_map]
  exact h.size

theorem Valid.length_use (h : Valid capacity c) (k : K) : (Recent.use c.contents k).length ≤ capacity := by
  obtain ⟨c₁, -, hlinked, hcontents, -⟩ := _touch_spec h.linked k
  have hlength := h.length
  unfold Recent.use
  split
  · rename_i v hv
    have hmem := Recent.mem_of_value hv
    have hlt : (Recent.without c.contents k).length < c.contents.length :=
      List.length_filter_lt_length_iff_exists.mpr ⟨_, hmem, by simp⟩
    rw [List.length_cons]
    omega
  · exact hlength

theorem perform_spec (hcapacity : 1 ≤ capacity) (h : Valid capacity c) (op : Operation K V) : ∃ c' answer,
    c.perform op = .ok (c', answer) ∧ Recent.perform capacity c.contents op = (c'.contents, answer) ∧
    Valid capacity c' := by
  have hstore : ∀ k (v : V), (Recent.store capacity c.contents k v).length ≤ capacity :=
    fun k v => List.length_take_le ..
  cases op with
  | put k v =>
    obtain ⟨c₁, hput, hlinked, hcontents, hcap⟩ := _put_spec h.linked k v
    rw [h.capacity_eq] at hcontents hcap
    refine ⟨c₁, .void, by rw [perform, hput]; rfl, by rw [hcontents]; rfl, .of_contents hlinked hcap ?_⟩
    rw [hcontents]
    exact hstore k v
  | get k =>
    obtain ⟨c₁, hget, hlinked, hcontents, hcap⟩ := _get_spec h.linked k
    refine ⟨c₁, _, by rw [perform, hget]; rfl, by rw [hcontents]; rfl, .of_contents hlinked (hcap.trans h.capacity_eq) ?_⟩
    rw [hcontents]
    exact h.length_use k
  | touch k =>
    obtain ⟨c₁, htouch, hlinked, hcontents, hcap, -⟩ := _touch_spec h.linked k
    refine ⟨c₁, .void, by rw [perform, htouch]; rfl, by rw [hcontents]; rfl,
      .of_contents hlinked (hcap.trans h.capacity_eq) ?_⟩
    rw [hcontents]
    exact h.length_use k
  | «exists» k =>
    have hbool : (Recent.value c.contents k).isSome = decide (c._exists k) := by
      rw [Bool.eq_iff_iff, decide_eq_true_iff]
      exact h.linked.exists_iff.symm
    exact ⟨c, _, rfl, by rw [Recent.perform, hbool], h⟩
  | erase k =>
    obtain ⟨c₁, herase, hlinked, hcontents, hcap, -, -⟩ := _erase_spec h.linked k
    refine ⟨c₁, _, by rw [perform, herase]; rfl, by rw [hcontents]; rfl,
      .of_contents hlinked (hcap.trans h.capacity_eq) ?_⟩
    rw [hcontents]
    exact Nat.le_trans (List.length_filter_le _ _) h.length
  | compute_if_absent k f =>
    rw [perform, Recent.perform]
    by_cases hexists : c._exists k
    · obtain ⟨v, hv⟩ := Option.isSome_iff_exists.mp (h.linked.exists_iff.mp hexists)
      obtain ⟨c₁, hget, hlinked, hcontents, hcap⟩ := _get_spec h.linked k
      rw [hv] at hget
      refine ⟨c₁, .value (some v),
        ?_, by rw [hv, hcontents], .of_contents hlinked (hcap.trans h.capacity_eq) ?_⟩
      · rw [if_pos hexists]
        simp only [bind, Except.bind, hget]
      · rw [hcontents]
        exact h.length_use k
    · have hv : Recent.value c.contents k = none := by
        rw [← Option.not_isSome_iff_eq_none]
        exact fun hsome => hexists (h.linked.exists_iff.mpr hsome)
      obtain ⟨c₁, hput, hlinked, hcontents, hcap⟩ := _put_spec h.linked k (f k)
      rw [h.capacity_eq] at hcontents hcap
      -- the key is there now, in front
      obtain ⟨c₂, hget, hlinked₂, hcontents₂, hcap₂⟩ := _get_spec hlinked k
      rw [hcontents, Recent.value_store hcapacity] at hget
      rw [hcontents, Recent.use_store hcapacity] at hcontents₂
      refine ⟨c₂, .value (some (f k)),
        ?_, by rw [hv, hcontents₂], .of_contents hlinked₂ (hcap₂.trans hcap) ?_⟩
      · rw [if_neg hexists, hput]
        simp only [bind, Except.bind, hget]
      · rw [hcontents₂]
        exact hstore k (f k)
  | clear =>
    refine ⟨_, .void, rfl, rfl,
      ⟨⟨List.nodup_nil, List.nodup_nil, by simp, fun k it => ?_⟩, h.capacity_eq, Nat.zero_le _⟩⟩
    simp

theorem run_spec (hcapacity : 1 ≤ capacity) (h : Valid capacity c)
    (hcurrent : Recent.Current c.contents stored) (ops : List (Operation K V)) :
    ∃ c' answers, c.run ops = .ok (c', answers) ∧
    Recent.run capacity c.contents ops = (c'.contents, answers) ∧ Valid capacity c' ∧
    Recent.Current c'.contents (Recent.remember_all capacity c.contents stored ops) := by
  induction ops generalizing c stored with
  | nil => exact ⟨c, [], rfl, rfl, h, hcurrent⟩
  | cons op ops ih =>
    obtain ⟨c₁, answer, hperform, hrecent, hvalid⟩ := perform_spec hcapacity h op
    have hcurrent₁ := hcurrent.perform capacity op
    rw [hrecent] at hcurrent₁
    obtain ⟨c₂, answers, hrun, hrecents, hvalid₂, hcurrent₂⟩ := ih hvalid hcurrent₁
    refine ⟨c₂, answer :: answers, ?_, ?_, hvalid₂, ?_⟩
    · rw [run, hperform]
      simp only [bind, Except.bind, hrun]
    · simp only [Recent.run, hrecent, hrecents]
    · rw [Recent.remember_all, hrecent]
      exact hcurrent₂

end

/-- The cache behaves like the list of recent keys: `get` and `compute_if_absent` find what was stored
last, and only the key that was not used for the longest time is dropped. -/
theorem lru_refines_recent (capacity : Nat) (hcapacity : 1 ≤ capacity) (ops : List (Operation K V)) :
    ∃ c answers, (empty capacity).run ops = .ok (c, answers) ∧
      Recent.run capacity [] ops = (c.contents, answers) ∧
      Linked c ∧ c.list.length ≤ capacity ∧
      (∀ k, ∃ c' v, c._get k = .ok (c', v) ∧ (v = none ↔ ¬ c._exists k) ∧
        ∀ v', v = some v' → Recent.remember_all capacity [] (fun _ => none) ops k = some v') ∧
      (∀ k f, ∃ c' v, c.perform (.compute_if_absent k f) = .ok (c', .value (some v)) ∧
        (if c._exists k then Recent.remember_all capacity [] (fun _ => none) ops k = some v else v = f k)) ∧
      (∀ k v k' v', (k', v') ∈ c.contents → k' ≠ k →
        ∃ c', c._put k v = .ok c' ∧ ((k', v') ∈ c'.contents ∨ c.contents.getLast? = some (k', v'))) := by
  have hstart : Valid capacity (empty capacity : LRUCache K V) := ⟨Linked.empty capacity, rfl, Nat.zero_le _⟩
  have hnothing : Recent.Current (empty capacity : LRUCache K V).contents fun _ => none :=
    fun e he => by cases he
  obtain ⟨c, answers, hrun, hrecent, hvalid, hcurrent⟩ := run_spec hcapacity hstart hnothing ops
  have hstored : ∀ k v, Recent.value c.contents k = some v →
      Recent.remember_all capacity [] (fun _ => none) ops k = some v :=
    fun k v hv => hcurrent (k, v) (Recent.mem_of_value hv)
  refine ⟨c, answers, hrun, hrecent, hvalid.linked, hvalid.size, fun k => ?_, fun k f => ?_, ?_⟩
  · obtain ⟨c', hget, -⟩ := _get_spec hvalid.linked k
    refine ⟨c', _, hget, ?_, hstored k⟩
    rw [hvalid.linked.exists_iff, Option.not_isSome_iff_eq_none]
  · obtain ⟨c', answer, hperform, hrecent', -⟩ := perform_spec hcapacity hvalid (.compute_if_absent k f)
    rw [Recent.perform] at hrecent'
    have hexists := hvalid.linked.exists_iff (k := k)
    cases hv : Recent.value c.contents k with
    | some v =>
      rw [hv] at hrecent' hexists
      obtain ⟨-, rfl⟩ := Prod.mk.inj hrecent'
      exact ⟨c', v, hperform, by rw [if_pos (hexists.mpr rfl)]; exact hstored k v hv⟩
    | none =>
      rw [hv] at hrecent' hexists
      obtain ⟨-, rfl⟩ := Prod.mk.inj hrecent'
      exact ⟨c', f k, hperform, by rw [if_neg (by simp [hexists])]⟩
  · intro k v k' v' hmem hk
    obtain ⟨c', hput, -, hcontents, -⟩ := _put_spec hvalid.linked k v
    refine ⟨c', hput, ?_⟩
    by_cases hkept : (k', v') ∈ c'.contents
    · exact Or.inl hkept
    · rw [hcontents, hvalid.capacity_eq] at hkept
      exact Or.inr (Recent.dropped_last hvalid.length hmem hk hkept)

theorem lru_refines_recent_two : ∃ c answers,
    (empty 2 : LRUCache Nat Nat).run [.put 1 1, .put 2 2, .get 1, .put 3 3] = .ok (c, answers) ∧
      Linked c ∧ c.contents = [(3, 3), (1, 1)] := by
  obtain ⟨c, answers, hrun, hrecent, hlinked, -⟩ := lru_refines_recent 2 (by decide)
    [Operation.put 1 1, .put 2 2, .get 1, .put 3 3]
  exact ⟨c, answers, hrun, hlinked, (congrArg Prod.fst hrecent).symm.trans (by decide)⟩

end LRUCache

end Chord
