import Chord.Common
import Chord.Lib.Recency
import Chord.LruCache

/-!
# Pooled channels (`chord.channel.pool.cc`)

The pool keeps a channel under the uuid of its node, and the channel depends on the endpoint.
-/

namespace Chord

/-- `grpc::Channel`, with the target that `grpc::CreateChannel` made it for. -/
structure Channel where
  target : Endpoint
  deriving DecidableEq

structure ChannelPool where
  channels : LRUCache Uuid Channel

namespace ChannelPool

def create_channel (endpoint : Endpoint) : Channel := ⟨endpoint⟩

def empty : ChannelPool := ⟨LRUCache.empty BITS⟩

def get (pool : ChannelPool) (node : Node) : Except LRUFault (ChannelPool × LRUCache.Answer Channel) := do
  let (channels, channel) ←
    pool.channels.perform (.compute_if_absent node.uuid fun _ => create_channel node.endpoint)
  .ok (⟨channels⟩, channel)

/-- One call after the other. -/
def get_all (pool : ChannelPool) :
    List Node → Except LRUFault (ChannelPool × List (LRUCache.Answer Channel))
  | [] => .ok (pool, [])
  | node :: nodes => do
    let (pool, channel) ← pool.get node
    let (pool, channels) ← pool.get_all nodes
    .ok (pool, channel :: channels)

/-! ## The calls on the cache -/

/-- The call that `get` makes. -/
def operation (node : Node) : LRUCache.Operation Uuid Channel :=
  .compute_if_absent node.uuid fun _ => create_channel node.endpoint

/-- The answer that leads to the node. -/
def channel_of (node : Node) : LRUCache.Answer Channel := .value (some (create_channel node.endpoint))

theorem get_all_eq (pool : ChannelPool) (nodes : List Node) : pool.get_all nodes =
    (pool.channels.run (nodes.map operation)).map fun r => (⟨r.1⟩, r.2) := by
  induction nodes generalizing pool with
  | nil => rfl
  | cons node nodes ih =>
    rw [get_all, get, List.map_cons, LRUCache.run]
    cases hop : pool.channels.perform (operation node) with
    | error fault =>
      rw [operation] at hop
      rw [hop]
      rfl
    | ok r =>
      rw [operation] at hop
      simp only [hop, bind, Except.bind, ih]
      cases LRUCache.run r.1 (nodes.map operation) <;> rfl

/-! ## What the cache holds -/

/-- The endpoint of the last node that was asked for under `u`. -/
def asked (nodes : List Node) (u : Uuid) : Option Endpoint :=
  (nodes.reverse.find? (·.uuid = u)).map Node.endpoint

theorem asked_concat (nodes : List Node) (node : Node) (u : Uuid) :
    asked (nodes ++ [node]) u = if node.uuid = u then some node.endpoint else asked nodes u := by
  rw [asked, asked, List.reverse_concat, List.find?_cons]
  by_cases h : node.uuid = u
  · simp [h]
  · simp [h]

theorem asked_split {pre mid : List Node} {m : Node} (hmid : ∀ x ∈ mid, x.uuid ≠ m.uuid) :
    asked (pre ++ m :: mid) m.uuid = some m.endpoint := by
  induction mid using List.reverseRecOn with
  | nil => rw [asked_concat, if_pos rfl]
  | append_singleton mid x ih =>
    rw [← List.cons_append, ← List.append_assoc, asked_concat, if_neg (hmid x (by simp))]
    exact ih fun y hy => hmid y (by simp [hy])

theorem exists_last {nodes : List Node} {u : Uuid} (h : u ∈ nodes.map Node.uuid) :
    ∃ pre m mid, nodes = pre ++ m :: mid ∧ m.uuid = u ∧ ∀ x ∈ mid, x.uuid ≠ u := by
  induction nodes using List.reverseRecOn with
  | nil => cases h
  | append_singleton nodes n ih =>
    by_cases hn : n.uuid = u
    · exact ⟨nodes, n, [], rfl, hn, by simp⟩
    · rw [List.map_append, List.mem_append] at h
      obtain ⟨pre, m, mid, rfl, hm, hmid⟩ := ih (h.resolve_right (by simpa using fun heq => hn heq.symm))
      refine ⟨pre, m, mid ++ [n], by simp, hm, ?_⟩
      exact List.forall_mem_append.mpr ⟨hmid, by simpa using hn⟩

end ChannelPool

namespace Recent

variable {K V : Type} [DecidableEq K] {s : List (K × V)} {k : K}

theorem mem_keys_iff : k ∈ s.map Prod.fst ↔ value s k ≠ none := by
  rw [ne_eq, value_eq_none]
  simp

theorem keys_without : (without s k).map Prod.fst = (s.map Prod.fst).filter (· ≠ k) := by
  rw [without, List.filter_map]
  rfl

theorem keys_store (capacity : Nat) (v : V) :
    (store capacity s k v).map Prod.fst = (Recency.touch (s.map Prod.fst) k).take capacity := by
  rw [store, List.map_take, List.map_cons, keys_without, Recency.touch]

/-- A key that is there already needs no room. -/
theorem keys_use {capacity : Nat} {v : V} (h : value s k = some v) (hlength : s.length ≤ capacity) :
    (use s k).map Prod.fst = (Recency.touch (s.map Prod.fst) k).take capacity := by
  have hlt : (without s k).length < s.length :=
    List.length_filter_lt_length_iff_exists.mpr ⟨_, mem_of_value h, by simp⟩
  have heq : (use s k).map Prod.fst = Recency.touch (s.map Prod.fst) k := by
    rw [use, h]
    simp only [List.map_cons, keys_without, Recency.touch]
  rw [heq, List.take_of_length_le]
  rw [← heq, List.length_map, use, h]
  simp only [List.length_cons]
  omega

end Recent

namespace ChannelPool

/-- The nodes that were asked for last, each with a channel to the endpoint asked for last. -/
structure Holds (capacity : Nat) (nodes : List Node) (s : List (Uuid × Channel)) : Prop where
  keys : s.map Prod.fst = (Recency.order (nodes.map Node.uuid)).take capacity
  targets : ∀ e ∈ s, asked nodes e.1 = some e.2.target

/-- The cache has no channel for the node, or one to its endpoint. -/
def Fresh (capacity : Nat) (nodes : List Node) (node : Node) : Prop :=
  node.uuid ∈ (Recency.order (nodes.map Node.uuid)).take capacity →
    asked nodes node.uuid = some node.endpoint

section

variable {capacity : Nat} {nodes : List Node} {node : Node} {s : List (Uuid × Channel)}

theorem Holds.length_le (h : Holds capacity nodes s) : s.length ≤ capacity := by
  rw [← List.length_map (f := Prod.fst), h.keys]
  exact List.length_take_le _ _

/-- One call: what it answers, and what the cache holds after a right answer. -/
theorem Holds.perform (hcapacity : 1 ≤ capacity) (h : Holds capacity nodes s) (node : Node) :
    ((Recent.perform capacity s (operation node)).2 = channel_of node ↔ Fresh capacity nodes node) ∧
      (Fresh capacity nodes node →
        Holds capacity (nodes ++ [node]) (Recent.perform capacity s (operation node)).1) := by
  obtain ⟨n, rfl⟩ : ∃ n, capacity = n + 1 := ⟨capacity - 1, by omega⟩
  have hkeys : (Recency.touch (s.map Prod.fst) node.uuid).take (n + 1) =
      (Recency.order ((nodes ++ [node]).map Node.uuid)).take (n + 1) := by
    rw [h.keys, Recency.take_touch (Recency.order_nodup _), List.map_append, List.map_singleton,
      Recency.order_concat]
  have hother : ∀ e ∈ Recent.without s node.uuid, asked (nodes ++ [node]) e.1 = some e.2.target := by
    intro e he
    obtain ⟨hmem, hne⟩ := List.mem_filter.mp he
    rw [decide_eq_true_iff] at hne
    rw [asked_concat, if_neg hne.symm]
    exact h.targets e hmem
  have hthere : node.uuid ∈ (Recency.order (nodes.map Node.uuid)).take (n + 1) ↔
      Recent.value s node.uuid ≠ none := by
    rw [← h.keys, Recent.mem_keys_iff]
  rw [Fresh, hthere, operation, Recent.perform]
  cases hv : Recent.value s node.uuid with
  | none =>
    refine ⟨by simp [channel_of], fun _ => ⟨?_, ?_⟩⟩
    · rw [Recent.keys_store, hkeys]
    · intro e he
      rcases List.mem_cons.mp (List.mem_of_mem_take he) with rfl | he
      · rw [asked_concat, if_pos rfl]
        rfl
      · exact hother e he
  | some channel =>
    have htarget := h.targets _ (Recent.mem_of_value hv)
    simp only [channel_of, LRUCache.Answer.value.injEq, Option.some.injEq, ne_eq, reduceCtorEq,
      not_false_eq_true, forall_const]
    rw [htarget, Option.some.injEq, create_channel]
    refine ⟨⟨fun heq => congrArg Channel.target heq, fun heq => ?_⟩, fun heq => ⟨?_, ?_⟩⟩
    · cases channel
      exact congrArg Channel.mk heq
    · rw [Recent.keys_use hv h.length_le, hkeys]
    · intro e he
      simp only [Recent.use, hv] at he
      rcases List.mem_cons.mp he with rfl | he
      · rw [asked_concat, if_pos rfl, ← heq]
      · exact hother e he

/-- All answers of a run lead to their nodes as long as the cache is fresh for every call. -/
theorem Holds.run (hcapacity : 1 ≤ capacity) (h : Holds capacity nodes s) (calls : List Node) :
    (Recent.run capacity s (calls.map operation)).2 = calls.map channel_of ↔
      ∀ pre node post, calls = pre ++ node :: post → Fresh capacity (nodes ++ pre) node := by
  induction calls generalizing nodes s with
  | nil =>
    refine ⟨fun _ pre node post heq => ?_, fun _ => rfl⟩
    simp at heq
  | cons call calls ih =>
    obtain ⟨hanswer, hnext⟩ := h.perform hcapacity call
    rw [List.map_cons, List.map_cons, Recent.run, List.cons_eq_cons, hanswer]
    constructor
    · rintro ⟨hfresh, hrest⟩ pre node post heq
      cases pre with
      | nil =>
        obtain ⟨rfl, -⟩ := List.cons_eq_cons.mp heq
        rwa [List.append_nil]
      | cons x pre =>
        obtain ⟨rfl, rfl⟩ := List.cons_eq_cons.mp heq
        rw [List.append_cons]
        exact (ih (hnext hfresh)).mp hrest pre node post rfl
    · intro hall
      have hfresh := hall [] call calls rfl
      rw [List.append_nil] at hfresh
      refine ⟨hfresh, (ih (hnext hfresh)).mpr fun pre node post heq => ?_⟩
      have := hall (call :: pre) node post (by rw [heq]; rfl)
      rwa [List.append_cons] at this

/-- The cache is fresh where the last call for the uuid had the same endpoint, or is forgotten. -/
theorem fresh_iff : Fresh capacity nodes node ↔ ∀ pre m mid, nodes = pre ++ m :: mid →
    m.uuid = node.uuid → (∀ x ∈ mid, x.uuid ≠ node.uuid) →
      m.endpoint = node.endpoint ∨ capacity ≤ (mid.map Node.uuid).toFinset.card := by
  have hin : ∀ pre m mid, nodes = pre ++ m :: mid → m.uuid = node.uuid →
      (∀ x ∈ mid, x.uuid ≠ node.uuid) →
      (node.uuid ∈ (Recency.order (nodes.map Node.uuid)).take capacity ↔
        (mid.map Node.uuid).toFinset.card < capacity) ∧ asked nodes node.uuid = some m.endpoint := by
    rintro pre m mid rfl hm hmid
    rw [← hm] at hmid ⊢
    rw [List.map_append, List.map_cons]
    exact ⟨Recency.mem_take_order (by simpa using hmid), asked_split hmid⟩
  constructor
  · intro hfresh pre m mid heq hm hmid
    obtain ⟨hmem, hasked⟩ := hin pre m mid heq hm hmid
    by_cases hcard : (mid.map Node.uuid).toFinset.card < capacity
    · left
      rw [hfresh (hmem.mpr hcard), Option.some.injEq] at hasked
      exact hasked.symm
    · right; omega
  · intro hall hmem
    obtain ⟨pre, m, mid, heq, hm, hmid⟩ := exists_last (Recency.mem_order.mp (List.mem_of_mem_take hmem))
    obtain ⟨hin, hasked⟩ := hin pre m mid heq hm hmid
    have hcard := hin.mp hmem
    rw [hasked, (hall pre m mid heq hm hmid).resolve_right (by omega)]

end

/-! ## Every sequence of calls -/

/-- Every call returns a channel to the endpoint of its node. -/
def LeadsToNodes (nodes : List Node) : Prop :=
  ∃ pool, empty.get_all nodes = .ok (pool, nodes.map channel_of)

/-- Two calls for one uuid after each other have one endpoint, or as many other uuids as the pool
has places come in between. -/
def SameOrForgotten (nodes : List Node) : Prop :=
  ∀ pre m mid node post, nodes = pre ++ m :: mid ++ node :: post →
    m.uuid = node.uuid → (∀ x ∈ mid, x.uuid ≠ node.uuid) →
      m.endpoint = node.endpoint ∨ BITS ≤ (mid.map Node.uuid).toFinset.card

theorem holds_empty (capacity : Nat) : Holds capacity [] [] where
  keys := List.take_nil.symm
  targets := by simp

/-- The channels lead to the nodes exactly as long as no node is asked for at another endpoint
while its uuid is still in the pool. -/
theorem leads_to_nodes_iff (nodes : List Node) : LeadsToNodes nodes ↔ SameOrForgotten nodes := by
  have hstart : LRUCache.Valid BITS (LRUCache.empty BITS : LRUCache Uuid Channel) :=
    ⟨LRUCache.Linked.empty BITS, rfl, Nat.zero_le _⟩
  have hnothing : Recent.Current (LRUCache.empty BITS : LRUCache Uuid Channel).contents fun _ => none :=
    fun e he => by cases he
  obtain ⟨channels, answers, hrun, hrecent, -, -⟩ :=
    LRUCache.run_spec (by decide) hstart hnothing (nodes.map operation)
  have hleads : LeadsToNodes nodes ↔ answers = nodes.map channel_of := by
    rw [LeadsToNodes, get_all_eq, empty, hrun]
    simp [Except.map]
  have hanswers : answers = (Recent.run BITS [] (nodes.map operation)).2 := (congrArg Prod.snd hrecent).symm
  rw [hleads, hanswers, (holds_empty BITS).run (by decide)]
  constructor
  · intro hall pre m mid node post heq hm hmid
    have hfresh := hall (pre ++ m :: mid) node post heq
    rw [List.nil_append] at hfresh
    exact fresh_iff.mp hfresh pre m mid rfl hm hmid
  · intro hall pre node post heq
    rw [List.nil_append, fresh_iff]
    rintro pre' m mid rfl hm hmid
    exact hall pre' m mid node post heq hm hmid

/-- A node that came back at another address gets the channel to the old one. -/
theorem moved_node_gets_old_channel :
    (∃ pool, empty.get_all [⟨1, ['a']⟩, ⟨1, ['b']⟩] =
      .ok (pool, [.value (some ⟨['a']⟩), .value (some ⟨['a']⟩)])) ∧ ¬ ∀ nodes, LeadsToNodes nodes := by
  have hrun : ∃ pool, empty.get_all [⟨1, ['a']⟩, ⟨1, ['b']⟩] =
      .ok (pool, [.value (some ⟨['a']⟩), .value (some ⟨['a']⟩)]) := ⟨_, rfl⟩
  refine ⟨hrun, fun hall => ?_⟩
  obtain ⟨pool, hpool⟩ := hrun
  obtain ⟨pool', hleads⟩ := hall [⟨1, ['a']⟩, ⟨1, ['b']⟩]
  rw [hpool] at hleads
  simp [channel_of, create_channel] at hleads

end ChannelPool

end Chord
