import Chord.Progress

/-! # How the loop over dead successors ends -/

open Circle

namespace Chord

open Router

namespace Service

/-- `live_loop`, with the nodes that did not answer their ping. -/
def live_loop_log (ping : Node → Bool) : Nat → Router → Option (List Node × Router)
  | 0, _ => none
  | fuel + 1, r =>
    if ping r.successor_or_self then some ([], r)
    else (live_loop_log ping fuel (r.remove r.successor_or_self.uuid)).map fun (dead, r') =>
      (r.successor_or_self :: dead, r')

theorem live_loop_log_router (ping : Node → Bool) (fuel : Nat) (r : Router) :
    (live_loop_log ping fuel r).map Prod.snd = live_loop ping fuel r := by
  induction fuel generalizing r with
  | zero => rfl
  | succ fuel ih =>
    rw [live_loop_log, live_loop, ← ih]
    split
    · rfl
    · rw [Option.map_map]
      rfl

theorem live_loop_logged {ping : Node → Bool} {fuel : Nat} {r r' : Router}
    (h : live_loop ping fuel r = some r') : ∃ dead, live_loop_log ping fuel r = some (dead, r') := by
  rw [← live_loop_log_router] at h
  obtain ⟨⟨dead, _⟩, hlog, rfl⟩ := Option.map_eq_some_iff.mp h
  exact ⟨dead, hlog⟩

end Service

/-! ## What the loop leaves -/

/-- The result is the nearest node that is left, or self where none is. -/
theorem result_nearest {r : Router} (h : r.table.WF) :
    (r.nodes = [] ∧ r.successor_or_self = r.context) ∨ (r.successor_or_self ∈ r.nodes ∧
      ∀ n ∈ r.nodes, steps r.context.uuid r.successor_or_self.uuid ≤ steps r.context.uuid n.uuid) := by
  rcases successor_or_self_cases r with ⟨hs, hself⟩ | hs
  · left
    exact ⟨successor_none h hs, hself⟩
  · right
    exact ⟨successor_mem hs, successor_nearest h hs⟩

/-- One turn drops the node that did not answer, and no other. -/
theorem mem_nodes_turn {r : Router} (h : r.table.WF) (hd : Distinct r) (n : Node) :
    n ∈ (r.remove r.successor_or_self.uuid).nodes ↔ n ∈ r.nodes ∧ n ≠ r.successor_or_self := by
  rw [mem_nodes_remove h, and_congr_right_iff]
  intro hn
  rcases result_nearest h with ⟨hempty, -⟩ | ⟨hmem, -⟩
  · simp [hempty] at hn
  · exact not_congr ⟨hd n hn _ hmem, congrArg Node.uuid⟩

theorem live_loop_log_spec {ping : Node → Bool} {fuel : Nat} {r r' : Router} {dead : List Node}
    (h : r.table.WF) (hd : Distinct r) (hl : Service.live_loop_log ping fuel r = some (dead, r')) :
    (∀ n ∈ dead, ping n = false) ∧ ∀ n, n ∈ r'.nodes ↔ n ∈ r.nodes ∧ n ∉ dead := by
  induction fuel generalizing r dead with
  | zero => simp [Service.live_loop_log] at hl
  | succ fuel ih =>
    rw [Service.live_loop_log] at hl
    split at hl
    · cases hl
      simp
    · rename_i hping
      obtain ⟨⟨dead, _⟩, hrest, ⟨⟩⟩ := Option.map_eq_some_iff.mp hl
      obtain ⟨hdead, hnodes⟩ := ih (remove_wf h _) (distinct_remove h hd _) hrest
      constructor
      · rintro n (_ | ⟨_, hn⟩)
        · simpa using hping
        · exact hdead n hn
      · intro n
        rw [hnodes, mem_nodes_turn h hd, List.mem_cons, not_or, and_assoc]

/-- The loop ends, and the router is left with the nodes that were not found dead. Nodes before
the result were pinged, and the result answers. -/
def EndsLive (ping : Node → Bool) (r : Router) : Prop :=
  ∃ fuel dead r', Service.live_loop_log ping fuel r = some (dead, r') ∧ ping r'.successor_or_self ∧
    (∀ n ∈ dead, ping n = false) ∧ (∀ n, n ∈ r'.nodes ↔ n ∈ r.nodes ∧ n ∉ dead) ∧
    (∀ n ∈ r.nodes, between r.context.uuid n.uuid r'.successor_or_self.uuid → n ∈ dead ∧ n ∉ r'.nodes) ∧
    ((r'.nodes = [] ∧ r'.successor_or_self = r.context) ∨ (r'.successor_or_self ∈ r'.nodes ∧
      ∀ n ∈ r'.nodes, steps r.context.uuid r'.successor_or_self.uuid ≤ steps r.context.uuid n.uuid))

theorem endsLive_of_returns {ping : Node → Bool} {r r' : Router} {fuel : Nat} (h : r.table.WF)
    (hd : Distinct r) (hl : Service.live_loop ping fuel r = some r') : EndsLive ping r := by
  obtain ⟨hw, hc, hping, -⟩ := live_loop_spec h hd hl
  obtain ⟨dead, hlog⟩ := Service.live_loop_logged hl
  obtain ⟨hdead, hnodes⟩ := live_loop_log_spec h hd hlog
  have hnear := result_nearest hw
  rw [hc] at hnear
  refine ⟨fuel, dead, r', hlog, hping, hdead, hnodes, ?_, hnear⟩
  intro n hn hb
  have hout : n ∉ r'.nodes := by
    intro hin
    rcases hnear with ⟨hempty, -⟩ | ⟨hmem, hmin⟩
    · simp [hempty] at hin
    · have hpos := node_pos hw hmem
      rw [hc] at hpos
      rw [between_from (steps_pos.mp hpos)] at hb
      have := hmin n hin
      omega
  refine ⟨?_, hout⟩
  by_contra hlive
  exact hout ((hnodes n).mpr ⟨hn, hlive⟩)

/-- The loop ends exactly where a node of the table or this node itself answers: a node that is
alone and does not answer pings itself for ever. -/
theorem live_loop_ends_iff (context : Node) (ops : List RouterOp) (ping : Node → Bool) :
    EndsLive ping (Router.run context ops) ↔
      ping context ∨ ∃ n ∈ (Router.run context ops).nodes, ping n := by
  have h := run_wf context ops
  have hd := run_distinct context ops
  have hc := run_context context ops
  generalize Router.run context ops = r at h hd hc ⊢
  subst hc
  constructor
  · rintro ⟨_, _, r', _, hping, -, hnodes, -, ⟨-, hself⟩ | ⟨hmem, -⟩⟩
    · left
      rw [← hself]
      exact hping
    · right
      exact ⟨_, ((hnodes _).mp hmem).1, hping⟩
  · intro halive
    obtain ⟨fuel, r', hl⟩ := live_loop_returns h hd halive
    exact endsLive_of_returns h hd hl

/-- A fresh node whose own address does not answer. -/
theorem live_loop_alone : ¬ ∀ (context : Node) (ops : List RouterOp) (ping : Node → Bool),
    EndsLive ping (Router.run context ops) := by
  intro h
  obtain ⟨_, _, _, _, hping, -⟩ := h ⟨0, []⟩ [] fun _ => false
  cases hping

end Chord
