import Chord.Fuse.Journal

/-!
# The end of an open file

`release` puts the copy of the journal again, and removes it.
-/

namespace Chord

namespace Fuse

open Fs (Path Bytes parent_path)

namespace Mount

open Journal

/-- The copy of the journal is removed once its bytes are put, and if `flush` succeeds. -/
structure ReleaseSafe (m : Mount) (p : Path) (fsync ok : Bool) : Prop where
  put : ∀ bytes, m.journal.copy p = some bytes → (m.release p fsync ok).1.journal.copy p = none →
    ok = true ∧ (m.release p fsync ok).1.ring p = some bytes
  removed : (m.flush p fsync ok).2 = some 0 →
    (m.release p fsync ok).2 = some 0 ∧ (m.release p fsync ok).1.journal.copy p = none

theorem copy_remove_all (j : Journal) (p : Path) : (j.remove_all p).copy p = none := by
  have hentry : (j.remove_all p).entries p = none := if_pos (List.prefix_refl p)
  rw [copy, hentry]

theorem release_safe_iff {m : Mount} (hm : m.journal.Tree) (p : Path) (fsync ok : Bool) :
    m.ReleaseSafe p fsync ok ↔ m.journal.copy p = none ∨ ok = true ∧ fsync = false := by
  have hthrows : (m.flush p fsync ok).2 = none → m.journal.copy p = none →
      (m.ReleaseSafe p fsync ok ↔ m.journal.copy p = none ∨ ok = true ∧ fsync = false) := by
    intro hflush hcopy
    refine iff_of_true ⟨fun bytes hbytes => ?_, fun hzero => ?_⟩ (Or.inl hcopy)
    · rw [hcopy] at hbytes
      cases hbytes
    · rw [hflush] at hzero
      cases hzero
  rcases release_cases hm p fsync ok with ⟨hflush, -, hentry⟩ | ⟨j, hj, hrelease⟩
  · exact hthrows hflush (by rw [copy, hentry])
  have hsame := (as_journal_path_spec hm hj).2.2.copy p
  rcases hrelease with ⟨hflush, -, hcopy⟩ | ⟨bytes, hcopy, hrelease⟩
  · exact hthrows hflush (hsame.symm.trans hcopy)
  have hcopy := hsame.symm.trans hcopy
  rw [or_iff_right (by rw [hcopy]; simp)]
  rcases hrelease with ⟨rfl, -, hrelease⟩ | ⟨rfl, rfl, hflush, hrelease⟩ | ⟨rfl, rfl, hflush, hrelease⟩
  · -- the put fails, and the copy is removed
    refine iff_of_false (fun hsafe => ?_) (by simp)
    have hput := hsafe.put bytes hcopy (by rw [hrelease]; exact copy_remove_all j p)
    cases hput.1
  · refine iff_of_false (fun hsafe => ?_) (by simp)
    have hremoved := (hsafe.removed hflush).1
    rw [hrelease] at hremoved
    exact absurd (Option.some.inj hremoved) (by decide)
  · refine iff_of_true ⟨fun bytes' hbytes' _ => ⟨rfl, ?_⟩, fun hzero => ?_⟩ ⟨rfl, rfl⟩
    · rw [hcopy] at hbytes'
      rw [hrelease, ← hbytes']
      exact Function.update_self _ _ _
    · rw [hflush] at hzero
      exact absurd (Option.some.inj hzero) (by decide)

/-- A release loses a write, or keeps a copy that was put, unless there is no copy, or the put
succeeds after `fsync` failed. -/
theorem releases_safe_iff (ring : Path → Option Bytes) (calls : List Call) :
    (∀ k h fsync ok, calls[k]? = some (.release h fsync ok) →
      ((fresh ring).run (calls.take k)).ReleaseSafe h.path fsync ok) ↔
    ∀ k h fsync ok, calls[k]? = some (.release h fsync ok) →
      ((fresh ring).run (calls.take k)).journal.copy h.path = none ∨ ok = true ∧ fsync = false := by
  have hsafe : ∀ k (h : Handle) fsync ok, ((fresh ring).run (calls.take k)).ReleaseSafe h.path fsync ok ↔
      ((fresh ring).run (calls.take k)).journal.copy h.path = none ∨ ok = true ∧ fsync = false :=
    fun k h fsync ok => release_safe_iff (tree_run (tree_fresh ring) (calls.take k)) h.path fsync ok
  constructor
  · intro hall k h fsync ok hk
    exact (hsafe k h fsync ok).mp (hall k h fsync ok hk)
  · intro hall k h fsync ok hk
    exact (hsafe k h fsync ok).mpr (hall k h fsync ok hk)

/-- A new file is written, and its last put fails. -/
theorem release_loses_write : ¬ ∀ (ring : Path → Option Bytes) (calls : List Call) k h fsync ok,
    calls[k]? = some (.release h fsync ok) →
      ((fresh ring).run (calls.take k)).ReleaseSafe h.path fsync ok := by
  intro hall
  have hsafe := hall (fun _ => none) [.create [['a']] ⟨true, false, false, true⟩ true true,
      .write ⟨[['a']], some 0⟩ 0 [1],
    .release ⟨[['a']], some 0⟩ true false] 2 ⟨[['a']], some 0⟩ true false rfl
  have hput := hsafe.put [1] (by decide) (by decide)
  cases hput.1

end Mount

end Fuse

end Chord
