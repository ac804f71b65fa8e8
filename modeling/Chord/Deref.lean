import Chord.Client
import Chord.Fingers

/-! # Which handlers read through an empty neighbour -/

open Circle

namespace Chord

open Router

/-! ## What is empty together -/

theorem successor_none_of_predecessor {r : Router} (h : r.table.WF) (hp : r.predecessor = none) :
    r.successor = none := by
  cases hs : r.successor with
  | none => rfl
  | some s =>
    obtain ⟨p, hp', -⟩ := node_le_predecessor h (successor_mem hs)
    rw [hp] at hp'
    simp at hp'

/-- After an update the first entry is set, if it was or if the node is beyond its start. -/
theorem has_successor_update {r : Router} (h : r.table.WF) (n : Node) :
    (r.update n).successor.isSome ↔ r.successor.isSome ∨
      between (calc_successor_uuid_for_index r.context.uuid 0) n.uuid r.context.uuid := by
  have hstart := r.entry_uuid ⟨0, by decide⟩
  have hne := start_ne_self r ⟨0, by decide⟩
  simp only at hstart
  by_cases hn : n = r.context
  · rw [Router.update, if_pos hn, hn]
    simp [not_between_right]
  · have hnext := slot_update_entry h n (r.entry_mem ⟨0, by decide⟩)
    have hkey := congrArg (fun s => s.key.isSome) hnext
    rw [successor_eq_entry, successor_eq_entry, entry_update hn, ← hstart, between_to hne]
    simp only [slot, Nearest.Slot.insert_key, Option.isSome_map] at hkey
    rw [hkey]
    cases hen : (r.entry ⟨0, by decide⟩).node with
    | none => simp [Nearest.Closer]
    | some m => split <;> simp

/-! ## `notify` -/

theorem changed_predecessor_fault (r : Router) (source : Node) :
    Service.changed_predecessor r source = .error .null_deref ↔
      (∃ p ∈ r.predecessor, p ≠ source) ∧ r.successor = none := by
  unfold Service.changed_predecessor
  cases r.predecessor with
  | none => simp
  | some p =>
    by_cases hp : p = source
    · simp [hp]
    · cases r.successor <;> simp [hp]

theorem notify_fault (r : Router) (peer : Endpoint) (req : NotifyRequest) (source : Node)
    (hsrc : source_of req.header = some source) : Service.notify r peer req = .error .null_deref ↔
      source ≠ r.context ∧ (∃ p ∈ r.predecessor, p ≠ source) ∧ r.successor = none := by
  rw [← changed_predecessor_fault]
  simp only [Service.notify, hsrc]
  by_cases hself : source = r.context
  · simp [hself]
  · rw [if_neg hself]
    cases Service.changed_predecessor r source with
    | ok changed => simp
    | error e => simp [hself]

/-! ## `join` -/

theorem join_fault {r : Router} (h : r.table.WF) (req : JoinRequest) (node : Node)
    (hsrc : source_of req.header = some node) : Service.join r req = .error .null_deref ↔
      r.predecessor = none ∧ node.uuid = r.context.uuid := by
  simp only [Service.join, hsrc]
  cases hp : r.predecessor with
  | none =>
    -- without a predecessor the table is empty, and the successor is self
    have hsucc : r.successor_or_self = r.context := by
      rw [successor_or_self, successor_none_of_predecessor h hp, Option.getD_none]
    simp only [hsucc, between_self]
    by_cases hself : node.uuid = r.context.uuid <;> simp [hself]
  | some p =>
    simp only [Option.mem_def, Option.some.injEq, exists_eq_left', deref_some, ok_bind]
    split_ifs <;> simp

/-! ## `ChordFacade::join` -/

theorem join_targets_fault (r : Router) : ChordFacade.join_targets r = .error .null_deref ↔
    r.predecessor = none ∨ r.successor = none := by
  unfold ChordFacade.join_targets
  cases r.predecessor <;> cases r.successor <;> simp

theorem joined_wf {r : Router} (h : r.table.WF) (res : Option (Node × Node)) :
    (Client.joined r res).table.WF := by
  cases res with
  | none => exact h
  | some res => exact update_wf (update_wf h _) _

/-- Beyond the first finger start of `self`, so that the first entry can hold it. -/
def Fingerable (self : Uuid) (n : Node) : Prop :=
  between (calc_successor_uuid_for_index self 0) n.uuid self

theorem joined_targets_fault {r : Router} (h : r.table.WF) (res : Option (Node × Node)) :
    ChordFacade.join_targets (Client.joined r res) = .error .null_deref ↔
      r.successor = none ∧ ∀ succ pred, res = some (succ, pred) →
        ¬ Fingerable r.context.uuid succ ∧ ¬ Fingerable r.context.uuid pred := by
  have hw := joined_wf h res
  have hor : ((Client.joined r res).predecessor = none ∨ (Client.joined r res).successor = none) ↔
      (Client.joined r res).successor = none :=
    ⟨fun hn => hn.elim (successor_none_of_predecessor hw) id, Or.inr⟩
  rw [join_targets_fault, hor]
  cases res with
  | none => simp [Client.joined]
  | some res =>
    obtain ⟨succ, pred⟩ := res
    have h2 := has_successor_update (update_wf h succ) pred
    have h1 := has_successor_update h succ
    rw [h1, update_context] at h2
    rw [← Option.not_isSome_iff_eq_none, Client.joined, h2, ← Option.not_isSome_iff_eq_none]
    simp only [Fingerable, Option.some.injEq, Prod.mk.injEq, not_or, and_assoc]
    constructor
    · rintro ⟨hs, h1, h2⟩
      refine ⟨hs, ?_⟩
      rintro _ _ ⟨rfl, rfl⟩
      exact ⟨h1, h2⟩
    · rintro ⟨hs, hres⟩
      exact ⟨hs, hres succ pred ⟨rfl, rfl⟩⟩

/-! ## When no absent neighbour is read -/

/-- The three handlers, each with the condition under which it reads no absent neighbour:
`notify` has a successor or no other predecessor, `join` has a predecessor or another sender,
and the joiner has a successor or is told of a node its first entry can hold. -/
theorem deref_safe_iff (context : Node) (ops : List RouterOp) (peer : Endpoint) (source : Node)
    (old_node new_node : Option Node) (res : Option (Node × Node)) :
    (Service.notify (Router.run context ops) peer ⟨some ⟨some source⟩, old_node, new_node⟩ ≠
        .error .null_deref ↔
      source = context ∨ (∀ p ∈ (Router.run context ops).predecessor, p = source) ∨
        (Router.run context ops).successor ≠ none) ∧
    (Service.join (Router.run context ops) ⟨some ⟨some source⟩⟩ ≠ .error .null_deref ↔
      (Router.run context ops).predecessor ≠ none ∨ source.uuid ≠ context.uuid) ∧
    (ChordFacade.join_targets (Client.joined (Router.run context ops) res) ≠ .error .null_deref ↔
      (Router.run context ops).successor ≠ none ∨ ∃ succ pred, res = some (succ, pred) ∧
        (Fingerable context.uuid succ ∨ Fingerable context.uuid pred)) := by
  have h := run_wf context ops
  refine ⟨?_, ?_, ?_⟩
  · rw [ne_eq, notify_fault _ _ _ source rfl, run_context]
    simp only [ne_eq]
    grind
  · rw [ne_eq, join_fault h _ source rfl, run_context]
    tauto
  · rw [ne_eq, joined_targets_fault h, run_context]
    grind

/-- A node one step away becomes predecessor but no finger, and the next notify reads the
absent successor. -/
theorem notify_reads_absent_successor : ¬ ∀ (context : Node) (ops : List RouterOp) (peer : Endpoint)
    (req : NotifyRequest), (source_of req.header).isSome →
    Service.notify (Router.run context ops) peer req ≠ .error .null_deref := by
  intro h
  apply h ⟨0, []⟩ [.update ⟨1, []⟩] [] ⟨some ⟨some ⟨5, []⟩⟩, none, none⟩ rfl
  rw [notify_fault _ _ _ ⟨5, []⟩ rfl]
  exact ⟨by decide, ⟨⟨1, []⟩, by decide, by decide⟩, by decide⟩

end Chord
