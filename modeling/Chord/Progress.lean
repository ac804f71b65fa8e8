import Chord.Fingers
import Chord.Preceding
import Mathlib.Data.Finset.Card

/-! # When a lookup makes progress -/

open Circle

namespace Chord

open Router

/-! ## One record for each uuid -/

def Distinct (r : Router) : Prop := ∀ n ∈ r.nodes, ∀ m ∈ r.nodes, n.uuid = m.uuid → n = m

/-- A node enters an entry only where no other record of its uuid can be in the table. -/
theorem entered_ne {r : Router} (h : r.table.WF) {n m : Node} (hn : n ∉ r.nodes)
    (hentered : n ∈ (r.update n).nodes) (hm : m ∈ r.nodes) : m.uuid ≠ n.uuid := by
  rw [update] at hentered
  split at hentered
  · exact absurd hentered hn
  · obtain ⟨e', he', hen'⟩ := mem_nodes.mp hentered
    obtain ⟨e, he, rfl⟩ := List.mem_map.mp he'
    rw [update_entry] at hen'
    split at hen'
    · rename_i hr
      rw [replaces_iff h n he] at hr
      intro hu
      have hkey := entry_next h he
      have hmem := key_mem hm
      rw [hu] at hmem
      cases hen : e.node with
      | none =>
        have := entry_empty h he hen m hm
        rw [hu] at this
        exact absurd hr.1 (by simpa [slot] using this)
      | some k =>
        have hlt : steps r.context.uuid n.uuid < steps r.context.uuid k.uuid := by
          simpa [slot, hen] using hr.2
        have := (entry_node h he hen).2 m hm (by rw [hu]; exact hr.1)
        rw [hu] at this
        omega
    · exact absurd (mem_nodes.mpr ⟨e, he, hen'⟩) hn

theorem distinct_update {r : Router} (h : r.table.WF) (hr : Distinct r) (n : Node) :
    Distinct (r.update n) := by
  intro a ha b hb hab
  by_cases hn : n ∈ r.nodes
  · have hin : ∀ c ∈ (r.update n).nodes, c ∈ r.nodes := by
      intro c hc
      rcases mem_nodes_update hc with rfl | hc
      · exact hn
      · exact hc
    exact hr a (hin a ha) b (hin b hb) hab
  · rcases mem_nodes_update ha with rfl | ha' <;> rcases mem_nodes_update hb with rfl | hb'
    · rfl
    · exact absurd hab.symm (entered_ne h hn ha hb')
    · exact absurd hab (entered_ne h hn hb ha')
    · exact hr a ha' b hb' hab

theorem distinct_remove {r : Router} (h : r.table.WF) (hr : Distinct r) (u : Uuid) :
    Distinct (r.remove u) := by
  intro a ha b hb hab
  exact hr a ((mem_nodes_remove h).mp ha).1 b ((mem_nodes_remove h).mp hb).1 hab

theorem init_distinct (context : Node) : Distinct (init context) := by
  intro a ha
  simp [init_nodes] at ha

theorem run_distinct (context : Node) (ops : List RouterOp) : Distinct (Router.run context ops) := by
  induction ops using List.reverseRecOn with
  | nil => exact init_distinct context
  | append_singleton ops op ih =>
    have h := run_wf context ops
    rw [Router.run, List.foldl_append, List.foldl_cons, List.foldl_nil]
    cases op with
    | update n => exact distinct_update h ih n
    | remove u => exact distinct_remove h ih u
    | reset => exact init_distinct _

/-! ## The loop over dead successors -/

theorem successor_or_self_cases (r : Router) :
    (r.successor = none ∧ r.successor_or_self = r.context) ∨ r.successor = some r.successor_or_self := by
  rw [successor_or_self]
  cases r.successor with
  | none => left; exact ⟨rfl, rfl⟩
  | some s => right; rfl

theorem live_loop_spec {ping : Node → Bool} {fuel : Nat} {r r' : Router} (h : r.table.WF) (hd : Distinct r)
    (hl : Service.live_loop ping fuel r = some r') :
    r'.table.WF ∧ r'.context = r.context ∧ ping r'.successor_or_self ∧
      ∀ n, n ∈ r'.nodes ↔ n ∈ r.nodes ∧
        ∃ l ∈ r.nodes, ping l ∧ steps r.context.uuid l.uuid ≤ steps r.context.uuid n.uuid := by
  induction fuel generalizing r with
  | zero => simp [Service.live_loop] at hl
  | succ fuel ih =>
    rw [Service.live_loop] at hl
    split at hl
    · rename_i hping
      cases hl
      refine ⟨h, rfl, hping, fun n => ⟨fun hn => ⟨hn, ?_⟩, And.left⟩⟩
      rcases successor_or_self_cases r' with ⟨hs, -⟩ | hs
      · simp [successor_none h hs] at hn
      · exact ⟨_, successor_mem hs, hping, successor_nearest h hs n hn⟩
    · rename_i hping
      obtain ⟨hw, hc, hp, hn⟩ := ih (remove_wf h _) (distinct_remove h hd _) hl
      refine ⟨hw, hc, hp, fun n => ?_⟩
      rw [hn, remove_context]
      simp only [mem_nodes_remove h]
      constructor
      · rintro ⟨⟨hn, -⟩, l, ⟨hl, -⟩, hpl, hle⟩
        exact ⟨hn, l, hl, hpl, hle⟩
      · rintro ⟨hn, l, hl, hpl, hle⟩
        rcases successor_or_self_cases r with ⟨hs, -⟩ | hs
        · simp [successor_none h hs] at hn
        · have hls : l.uuid ≠ r.successor_or_self.uuid := by
            intro heq
            rw [hd l hl _ (successor_mem hs) heq] at hpl
            exact hping hpl
          refine ⟨⟨hn, ?_⟩, l, ⟨hl, hls⟩, hpl, hle⟩
          intro heq
          have hnear := successor_nearest h hs l hl
          rw [heq] at hle
          exact hls (steps_inj.mp (le_antisymm hle hnear))

/-- The uuids in the table. -/
def uuids (r : Router) : Finset Uuid := (r.nodes.map Node.uuid).toFinset

theorem uuids_remove {r : Router} (h : r.table.WF) {n : Node} (hn : n ∈ r.nodes) :
    (uuids (r.remove n.uuid)).card < (uuids r).card := by
  apply Finset.card_lt_card
  rw [Finset.ssubset_iff_of_subset]
  · exact ⟨n.uuid, by simp only [uuids, List.mem_toFinset]; exact List.mem_map_of_mem hn,
      by simp [uuids, mem_nodes_remove h]⟩
  · intro u
    simp only [uuids, List.mem_toFinset, List.mem_map]
    rintro ⟨m, hm, rfl⟩
    exact ⟨m, ((mem_nodes_remove h).mp hm).1, rfl⟩

/-- Each turn drops a uuid from the table, and stops at one that answers. -/
theorem live_loop_returns {ping : Node → Bool} {r : Router} (h : r.table.WF) (hd : Distinct r)
    (halive : ping r.context ∨ ∃ n ∈ r.nodes, ping n) :
    ∃ fuel r', Service.live_loop ping fuel r = some r' := by
  induction hk : (uuids r).card using Nat.strong_induction_on generalizing r with
  | _ k ih =>
    by_cases hping : ping r.successor_or_self
    · exact ⟨1, r, by rw [Service.live_loop, if_pos hping]⟩
    · rcases successor_or_self_cases r with ⟨hs, hself⟩ | hs
      · rw [hself] at hping
        simp [successor_none h hs, hping] at halive
      · have hmem := successor_mem hs
        have hlt := uuids_remove h hmem
        have hrest : ping r.context ∨ ∃ n ∈ (r.remove r.successor_or_self.uuid).nodes, ping n := by
          rcases halive with hself | ⟨n, hn, hpn⟩
          · left; exact hself
          · right
            refine ⟨n, (mem_nodes_remove h).mpr ⟨hn, ?_⟩, hpn⟩
            intro heq
            rw [hd n hn _ hmem heq] at hpn
            exact hping hpn
        obtain ⟨fuel, r', hl⟩ := ih _ (hk ▸ hlt) (remove_wf h _) (distinct_remove h hd _) hrest rfl
        exact ⟨fuel + 1, r', by rw [Service.live_loop, if_neg hping]; exact hl⟩

/-! ## Where the request goes -/

/-- One call of `Client::successor`, with a record of the nodes that were called. -/
def logged (rpc : Node → Option Node) (n : Node) : StateM (List Node) (Option Node) := fun sent =>
  (rpc n, sent ++ [n])

/-- The nodes that `Service::successor` sends the request to, through `Client::successor`. -/
def lookup_sends (ping : Node → Bool) (rpc : Node → Option Node) (fuel : Nat) (r : Router)
    (req : SuccessorRequest) : Option (List Node) :=
  (Service.successor ping fuel r req).map fun (r', action) =>
    match action with
    | .forward => (Client.first_ok (logged rpc) (r'.closest_preceding_nodes req.id) []).2
    | _ => []

theorem pure_logged {α : Type} (a : α) (sent : List Node) :
    (pure a : StateM (List Node) α) sent = (a, sent) := rfl

theorem first_ok_logged (rpc : Node → Option Node) (n : Node) (l : List Node) (sent : List Node) :
    (Client.first_ok (logged rpc) (n :: l) sent).2 =
      if (rpc n).isSome then sent ++ [n] else (Client.first_ok (logged rpc) l (sent ++ [n])).2 := by
  cases hn : rpc n with
  | none => simp [Client.first_ok, logged, bind, StateT.bind, hn]
  | some res => simp [Client.first_ok, logged, bind, StateT.bind, pure_logged, hn]

/-- Where only the last candidate is bad, an earlier one has to answer. -/
theorem first_ok_sent {rpc : Node → Option Node} {l : List Node} {self : Node} {good : Node → Prop}
    (hl : ∀ n ∈ l, good n) (hself : ¬ good self) (sent : List Node) :
    (∀ n ∈ (Client.first_ok (logged rpc) (l ++ [self]) sent).2, good n) ↔
      (∀ n ∈ sent, good n) ∧ ∃ n ∈ l, (rpc n).isSome := by
  induction l generalizing sent with
  | nil =>
    have hmem : self ∈ (Client.first_ok (logged rpc) [self] sent).2 := by
      rw [first_ok_logged]
      split <;> simp [Client.first_ok, pure_logged]
    exact iff_of_false (fun h => hself (h self hmem)) (by simp)
  | cons a l ih =>
    have ha := hl a List.mem_cons_self
    have hl' : ∀ n ∈ l, good n := fun n hn => hl n (List.mem_cons_of_mem a hn)
    rw [List.cons_append, first_ok_logged]
    by_cases hrpc : (rpc a).isSome
    · rw [if_pos hrpc]
      simp [hrpc, ha, or_imp, forall_and]
    · rw [if_neg hrpc, ih hl']
      simp [hrpc, ha, or_imp, forall_and]

/-! ## Progress -/

/-- Some node answers a ping, and either the own answer is due (the id is self, or no live node
of the table is at or before it), or a candidate that stays in the table answers the call. -/
def Progresses (ping : Node → Bool) (rpc : Node → Option Node) (r : Router) (id : Uuid) : Prop :=
  (ping r.context ∨ ∃ n ∈ r.nodes, ping n) ∧
  (id = r.context.uuid ∨
    (∀ n ∈ r.nodes, ping n → steps r.context.uuid id < steps r.context.uuid n.uuid) ∨
    ∃ n ∈ r.nodes, between r.context.uuid n.uuid id ∧ (rpc n).isSome ∧
      ∃ l ∈ r.nodes, ping l ∧ steps r.context.uuid l.uuid ≤ steps r.context.uuid n.uuid)

/-- The answer test, over the table before the loop. -/
theorem answer_iff {ping : Node → Bool} {fuel : Nat} {r r' : Router} (h : r.table.WF) (hd : Distinct r)
    (hl : Service.live_loop ping fuel r = some r') {id : Uuid} (hid : id ≠ r.context.uuid) :
    between r'.context.uuid id r'.successor_or_self.uuid ↔
      ∀ n ∈ r.nodes, ping n → steps r.context.uuid id < steps r.context.uuid n.uuid := by
  obtain ⟨hw, hc, hp, hn⟩ := live_loop_spec h hd hl
  rw [hc]
  rcases successor_or_self_cases r' with ⟨hs, hself⟩ | hs
  · rw [hself, hc, between_self]
    have hempty := successor_none hw hs
    refine iff_of_true hid fun n hmem hpn => ?_
    have := (hn n).mpr ⟨hmem, n, hmem, hpn, le_refl _⟩
    simp [hempty] at this
  · have hmem := successor_mem hs
    have hsne := node_ne_self hw hmem
    rw [hc] at hsne
    rw [between_from hsne.symm]
    have hpos := steps_pos.mpr hid.symm
    constructor
    · rintro ⟨-, hlt⟩ n hn' hpn
      have hnear := successor_nearest hw hs n ((hn n).mpr ⟨hn', n, hn', hpn, le_refl _⟩)
      rw [hc] at hnear
      omega
    · intro hall
      exact ⟨hpos, hall _ ((hn _).mp hmem).1 hp⟩

theorem lookup_sends_eq {ping : Node → Bool} {rpc : Node → Option Node} {fuel : Nat} {r : Router}
    {req : SuccessorRequest} {source : Node} (hsrc : source_of req.header = some source) :
    lookup_sends ping rpc fuel r req = (Service.live_loop ping fuel (r.update source)).map fun r' =>
      if req.id = r'.context.uuid ∨ between r'.context.uuid req.id r'.successor_or_self.uuid then []
      else (Client.first_ok (logged rpc) (r'.closest_preceding_nodes req.id) []).2 := by
  simp only [lookup_sends, Service.successor, hsrc, Option.map_map]
  congr 1
  funext r'
  by_cases hanswer : req.id = r'.context.uuid ∨ between r'.context.uuid req.id r'.successor_or_self.uuid
  · simp [hanswer]
  · simp only [Function.comp_apply, if_neg hanswer]

/-- Once the loop is over, the request stays inside the arc exactly where `Progresses` says so. -/
theorem sent_inside_iff {ping : Node → Bool} {rpc : Node → Option Node} {fuel : Nat} {r r' : Router}
    (h : r.table.WF) (hd : Distinct r) (hl : Service.live_loop ping fuel r = some r') (id : Uuid) :
    (∀ n ∈ if id = r'.context.uuid ∨ between r'.context.uuid id r'.successor_or_self.uuid then []
        else (Client.first_ok (logged rpc) (r'.closest_preceding_nodes id) []).2,
      between r.context.uuid n.uuid id) ↔
    (id = r.context.uuid ∨
      (∀ n ∈ r.nodes, ping n → steps r.context.uuid id < steps r.context.uuid n.uuid) ∨
      ∃ n ∈ r.nodes, between r.context.uuid n.uuid id ∧ (rpc n).isSome ∧
        ∃ l ∈ r.nodes, ping l ∧ steps r.context.uuid l.uuid ≤ steps r.context.uuid n.uuid) := by
  obtain ⟨-, hc, -, hn⟩ := live_loop_spec h hd hl
  by_cases hid : id = r.context.uuid
  · rw [if_pos (Or.inl (by rw [hc, hid]))]
    simp [hid]
  · rw [← answer_iff h hd hl hid]
    by_cases hb : between r'.context.uuid id r'.successor_or_self.uuid
    · rw [if_pos (Or.inr hb)]
      exact iff_of_true (by simp) (Or.inr (Or.inl hb))
    · have hne : ¬(id = r'.context.uuid ∨ between r'.context.uuid id r'.successor_or_self.uuid) :=
        fun hor => hor.elim (fun heq => hid (heq.trans (congrArg Node.uuid hc))) hb
      rw [if_neg hne, closest_preceding_nodes_eq, first_ok_sent, or_iff_right hid, or_iff_right hb]
      · simp only [mem_preceding, hn, hc]
        constructor
        · rintro ⟨-, n, ⟨⟨hmem, hlive⟩, hbn⟩, hr⟩
          exact ⟨n, hmem, hbn, hr, hlive⟩
        · rintro ⟨n, hmem, hbn, hr, hlive⟩
          exact ⟨by simp, n, ⟨⟨hmem, hlive⟩, hbn⟩, hr⟩
      · intro n hmem
        rw [← hc]
        exact (mem_preceding.mp hmem).2
      · rw [hc]
        exact not_between_left _ _

/-- A lookup comes back from the loop and keeps the request inside the arc from self to the id,
exactly where it can progress. -/
theorem lookup_progress_iff (context : Node) (ops : List RouterOp) (ping : Node → Bool)
    (rpc : Node → Option Node) (req : SuccessorRequest) :
    (∃ fuel sent, lookup_sends ping rpc fuel (Router.run context ops) req = some sent ∧
      ∀ n ∈ sent, between context.uuid n.uuid req.id) ↔
    ∀ source ∈ source_of req.header, Progresses ping rpc ((Router.run context ops).update source) req.id := by
  cases hsrc : source_of req.header with
  | none => simp [lookup_sends, Service.successor, hsrc]
  | some source =>
    have h := update_wf (run_wf context ops) source
    have hd := distinct_update (run_wf context ops) (run_distinct context ops) source
    have hctx : ((Router.run context ops).update source).context = context := by simp
    simp only [Option.mem_def, Option.some.injEq, forall_eq', lookup_sends_eq hsrc, Option.map_eq_some_iff]
    generalize (Router.run context ops).update source = r at h hd hctx ⊢
    rw [← hctx]
    constructor
    · rintro ⟨fuel, _, ⟨r', hl, rfl⟩, hsent⟩
      refine ⟨?_, (sent_inside_iff h hd hl req.id).mp hsent⟩
      obtain ⟨-, hc, hp, hn⟩ := live_loop_spec h hd hl
      rcases successor_or_self_cases r' with ⟨-, hself⟩ | hs
      · left; rw [← hc, ← hself]; exact hp
      · right; exact ⟨_, ((hn _).mp (successor_mem hs)).1, hp⟩
    · rintro ⟨halive, hprog⟩
      obtain ⟨fuel, r', hl⟩ := live_loop_returns h hd halive
      exact ⟨fuel, _, ⟨r', hl, rfl⟩, (sent_inside_iff h hd hl req.id).mpr hprog⟩

/-- The id of a live successor is outside the open arc of the answer test, and self is the only
candidate before it. -/
theorem lookup_of_successor_id : ¬ ∀ (context : Node) (ops : List RouterOp) (ping : Node → Bool)
    (rpc : Node → Option Node) (req : SuccessorRequest),
    ∃ fuel sent, lookup_sends ping rpc fuel (Router.run context ops) req = some sent ∧
      ∀ n ∈ sent, between context.uuid n.uuid req.id := by
  intro h
  obtain ⟨fuel, sent, hsent, hin⟩ := h ⟨0, []⟩ [.update ⟨5, []⟩] (fun _ => true) (fun _ => none)
    ⟨some ⟨some ⟨0, []⟩⟩, 5⟩
  rw [lookup_sends_eq rfl, Option.map_eq_some_iff] at hsent
  obtain ⟨r', hl, rfl⟩ := hsent
  have hd := distinct_update (run_wf _ _) (run_distinct ⟨0, []⟩ [.update ⟨5, []⟩]) ⟨0, []⟩
  have hmem : ⟨5, []⟩ ∈ ((Router.run ⟨0, []⟩ [.update ⟨5, []⟩]).update ⟨0, []⟩).nodes := by decide
  rcases (sent_inside_iff (update_wf (run_wf _ _) _) hd hl 5).mp hin with hself | hall | ⟨n, -, -, hr, -⟩
  · exact absurd hself (by decide)
  · exact absurd (hall _ hmem rfl) (Nat.lt_irrefl _)
  · simp at hr

end Chord
