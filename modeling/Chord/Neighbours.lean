import Chord.Deref
import Chord.Network

/-! # The two neighbours after `update` -/

open Circle

namespace Chord

namespace Router

theorem fingerable_iff (self : Uuid) (n : Node) :
    Fingerable self n ↔ steps self (calc_successor_uuid_for_index self 0) < steps self n.uuid := by
  have hpos := steps_calc_pos self (i := 0) (by decide)
  rw [Fingerable, between_to (steps_pos.mp hpos).symm]

theorem steps_first_start (self : Uuid) : steps self (calc_successor_uuid_for_index self 0) =
    if self + 1 = BitVec.allOnes 256 then 2 else 1 := steps_calc self (i := 0) (by decide)

/-- What a first entry cannot hold: the next uuid, and the one after it where the modulus
moves the start. -/
theorem not_fingerable_iff {self : Uuid} {n : Node} (hn : n.uuid ≠ self) :
    ¬ Fingerable self n ↔ n.uuid = self + 1 ∨ (self + 1 = BitVec.allOnes 256 ∧ n.uuid = self + 2) := by
  have h1 : steps self (self + 1) = 1 := by rw [steps_add]; rfl
  have h2 : steps self (self + 2) = 2 := by rw [steps_add]; rfl
  have hpos := steps_pos.mpr hn.symm
  rw [fingerable_iff, steps_first_start, ← @steps_inj _ self n.uuid (self + 1),
    ← @steps_inj _ self n.uuid (self + 2), h1, h2]
  split <;> rename_i hmod <;> simp only [hmod, true_and, false_and, or_false] <;> omega

/-- `n` goes into the first entry. -/
def Nearer (r : Router) (n : Node) : Prop :=
  Fingerable r.context.uuid n ∧ ∀ s ∈ r.successor, steps r.context.uuid n.uuid < steps r.context.uuid s.uuid

/-- `n` lies beyond the predecessor. -/
def Further (r : Router) (n : Node) : Prop :=
  ∀ p ∈ r.predecessor, steps r.context.uuid p.uuid < steps r.context.uuid n.uuid

theorem replaces_first_iff {r : Router} (h : r.table.WF) (n : Node) :
    replaces r.context.uuid n (r.entry ⟨0, by decide⟩) ↔ Nearer r n := by
  rw [replaces_iff h n (r.entry_mem _), Nearer, fingerable_iff, successor_eq_entry]
  simp [Nearest.Closer, slot, entry_uuid]

theorem not_nearer_self {r : Router} {n : Node} (hn : n.uuid = r.context.uuid) : ¬ Nearer r n := by
  rintro ⟨hf, -⟩
  rw [fingerable_iff, hn, steps_self] at hf
  omega

theorem successor_update_pos {r : Router} (h : r.table.WF) {n : Node} (hn : Nearer r n) :
    (r.update n).successor = some n := by
  have hne : n ≠ r.context := fun heq => not_nearer_self (congrArg Node.uuid heq) hn
  rw [successor_eq_entry, entry_update hne, update_entry, if_pos ((replaces_first_iff h n).mpr hn)]

theorem successor_update_neg {r : Router} (h : r.table.WF) {n : Node} (hn : ¬ Nearer r n) :
    (r.update n).successor = r.successor := by
  by_cases hne : n = r.context
  · rw [update, if_pos hne]
  · rw [successor_eq_entry, successor_eq_entry, entry_update hne, update_entry,
      if_neg (fun hr => hn ((replaces_first_iff h n).mp hr))]

theorem not_further {r : Router} {n : Node} (h : ¬ Further r n) : ∃ p, r.predecessor = some p ∧
    steps r.context.uuid n.uuid ≤ steps r.context.uuid p.uuid := by
  rw [Further] at h
  push Not at h
  exact h

theorem predecessor_update_pos {r : Router} {n : Node} (hne : n ≠ r.context) (hn : Further r n) :
    (r.update n).predecessor = some n := by
  rw [update, if_neg hne]
  cases hp : r.predecessor with
  | none => rfl
  | some p =>
    have hlt := hn p hp
    simp only [update_predecessor]
    rw [if_pos]
    refine ⟨fun heq => by rw [heq] at hlt; omega, ?_⟩
    by_cases hself : p.uuid = r.context.uuid
    · rw [hself, between_self]
      intro heq
      rw [heq, hself] at hlt
      omega
    · exact (between_to hself).mpr hlt

theorem predecessor_update_neg {r : Router} {n p : Node} (hp : r.predecessor = some p)
    (hself : p.uuid ≠ r.context.uuid) (hn : ¬ Further r n) : (r.update n).predecessor = some p := by
  rw [update]
  split
  · exact hp
  · simp only [hp, update_predecessor]
    rw [if_neg]
    rintro ⟨-, hb⟩
    apply hn
    intro q hq
    rw [hp] at hq
    obtain rfl : p = q := Option.some.inj hq
    exact (between_to hself).mp hb

/-! ## A fresh router that learned an answer -/

theorem joined_context (j : Node) (res : Option (Node × Node)) :
    (Client.joined (init j) res).context = j := by
  cases res with
  | none => rfl
  | some res => rw [Client.joined, update_context, update_context]; rfl

theorem joined_first {j s : Node} (hs : s.uuid ≠ j.uuid) : ((init j).update s).predecessor = some s :=
  predecessor_update_pos (fun heq => hs (congrArg Node.uuid heq)) (fun _ hq => by cases hq)

/-- The predecessor of the answer stands, or the successor under the same uuid. -/
theorem joined_predecessor {j p s : Node} (hs : s.uuid ≠ j.uuid) (hp : p.uuid ≠ j.uuid)
    (hle : steps j.uuid s.uuid ≤ steps j.uuid p.uuid) :
    ∃ q, (Client.joined (init j) (some (s, p))).predecessor = some q ∧ q.uuid = p.uuid ∧ (q = p ∨ q = s) := by
  have hctx : ((init j).update s).context = j := update_context _ _
  rw [Client.joined]
  by_cases hF : Further ((init j).update s) p
  · refine ⟨p, predecessor_update_pos ?_ hF, rfl, Or.inl rfl⟩
    rw [hctx]
    exact fun heq => hp (congrArg Node.uuid heq)
  · obtain ⟨q, hq, hge⟩ := not_further hF
    rw [joined_first hs] at hq
    obtain rfl : s = q := Option.some.inj hq
    rw [hctx] at hge
    exact ⟨s, predecessor_update_neg (joined_first hs) (by rw [hctx]; exact hs) hF,
      steps_inj.mp (le_antisymm hle hge), Or.inr rfl⟩

theorem joined_successor_pos {j p s : Node} (hf : Fingerable j.uuid s)
    (hle : steps j.uuid s.uuid ≤ steps j.uuid p.uuid) :
    (Client.joined (init j) (some (s, p))).successor = some s := by
  have hfirst : ((init j).update s).successor = some s :=
    successor_update_pos (init_wf j) ⟨hf, fun _ hq => by cases hq⟩
  have hctx : ((init j).update s).context = j := update_context _ _
  rw [Client.joined, successor_update_neg (update_wf (init_wf j) s), hfirst]
  rintro ⟨-, hlt⟩
  have hlt' := hlt s hfirst
  rw [hctx] at hlt'
  omega

theorem joined_successor_neg {j p s : Node} (hf : ¬ Fingerable j.uuid s) {t : Node}
    (ht : (Client.joined (init j) (some (s, p))).successor = some t) : t = p := by
  have hfirst : ((init j).update s).successor = none := by
    rw [successor_update_neg (init_wf j) (fun hn => hf hn.1), init_successor]
  rw [Client.joined] at ht
  by_cases hn : Nearer ((init j).update s) p
  · rw [successor_update_pos (update_wf (init_wf j) s) hn] at ht
    exact (Option.some.inj ht).symm
  · rw [successor_update_neg (update_wf (init_wf j) s) hn, hfirst] at ht
    cases ht

end Router

end Chord
