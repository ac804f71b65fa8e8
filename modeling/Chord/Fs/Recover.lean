import Chord.Fs.Fetched

/-!
# A `get` of a file that nodes have lost

The request goes on from copy to copy, to the first node that has the file. On the way back every
node that waits has it again.
-/

namespace Chord

namespace Fs

open World

/-- The file is gone, its record is not, and there are more copies. -/
structure Lost (store : Store) (uri : Path) : Prop where
  file : store.files.lookup uri = none
  record : ∃ m, store.metadata.lookup uri = some [m] ∧ m.node_ref = none ∧ m.replication.active
  writable : Writable store uri

/-- The disk after the file was fetched. -/
def recover (uri : Path) (bytes : Bytes) (store : Store) : Store :=
  { store with
    files := (((store.files.create_parent uri).getD store.files).insert uri (.regular [])).insert uri
      (.regular bytes) }

namespace Get

variable (sha : Sha256) (uri : Path)

/-- The steps of a request whose streams all arrive, up to the answer to who asked first. -/
def drive (fuel : Nat) : Nat → State → Option (World × Answer)
  | 0, _ => none
  | n + 1, σ =>
    match σ.control, σ.frames with
    | .idle, _ => none
    | .call _, _ => (step sha uri σ .call).bind (drive fuel n)
    | .answer a, [] => some (σ.w, a)
    | .answer _, _ :: _ => (step sha uri σ (.transfer .complete fuel)).bind (drive fuel n)

/-- `Client::get(uri, stream)`. -/
def get_file (fuel : Nat) (w : World) : Option (World × Answer) := do
  let node ← w.successor (sha.uri uri)
  drive sha uri fuel fuel ⟨w, [], .call node⟩

variable {uri} {w : World} {x y : Node} {bytes : Bytes}

/-- A node that has the file streams it. -/
theorem get_present (frames : List Frame) (hup : x ∈ w.up)
    (h : (w.stores x.uuid).files.lookup uri = some (.regular bytes)) :
    State.get uri ⟨w, frames, .call x⟩ x = ⟨w, frames, .answer (.streamed bytes)⟩ := by
  have hexists : (w.stores x.uuid).files.exists_at uri := AList.lookup_isSome.mp (by rw [h]; rfl)
  unfold State.get State.stream
  dsimp only
  rw [if_neg (not_not_intro hup), if_pos hexists, h]
  rfl

/-- A node that never had the file has nobody to ask. -/
theorem get_clear (frames : List Frame) (hup : x ∈ w.up) (h : Clear (w.stores x.uuid) uri) :
    State.get uri ⟨w, frames, .call x⟩ x = ⟨w, frames, .answer .failed⟩ := by
  have hexists : ¬ (w.stores x.uuid).files.exists_at uri := by
    rw [Files.exists_at, ← AList.lookup_isSome, h.1]
    simp
  unfold State.get
  dsimp only
  rw [if_neg (not_not_intro hup), if_neg hexists, h.2]
  rfl

theorem create_parent_missing {store : Store} (hfile : store.files.lookup uri = none)
    (hdisk : Writable store uri) (huri : uri ≠ []) :
    ∃ made, store.files.create_parent uri = some made ∧ made.lookup uri = none ∧
      made.lookup (parent_path uri) = some .directory := by
  unfold Files.create_parent
  split
  · rename_i hdir
    refine ⟨store.files, rfl, hfile, hdir.resolve_left fun hthere => ?_⟩
    rw [hfile] at hthere
    cases hthere
  · obtain ⟨made, hmade⟩ := Files.create_each_isSome
      fun d (hd : d ∈ (parent_path uri).inits) => hdisk d ((List.mem_inits _ _).mp hd)
    obtain ⟨hin, hout⟩ := Files.create_each_some hmade
    refine ⟨made, hmade, ?_, hin _ ((List.mem_inits _ _).mpr (List.prefix_refl _))⟩
    rw [hout _ fun hmem => parent_path_not_below huri ((List.mem_inits _ _).mp hmem), hfile]

/-- A node that lost the file opens an empty one and asks its successor. -/
theorem get_lost (frames : List Frame) (huri : uri ≠ []) (hup : x ∈ w.up)
    (h : Lost (w.stores x.uuid) uri) (hnext : w.successor x.uuid = some y) :
    ∃ made, (w.stores x.uuid).files.create_parent uri = some made ∧
      State.get uri ⟨w, frames, .call x⟩ x =
        ⟨w.set x.uuid { w.stores x.uuid with files := made.insert uri (.regular []) },
          ⟨x, .replica⟩ :: frames, .call y⟩ := by
  obtain ⟨made, hmade, hfile, hparent⟩ := create_parent_missing h.file h.writable huri
  obtain ⟨m, hlookup, href, hactive⟩ := h.record
  have hexists : ¬ (w.stores x.uuid).files.exists_at uri := by
    rw [Files.exists_at, ← AList.lookup_isSome, h.file]
    simp
  have htruncate : made.truncate uri = some (made.insert uri (.regular [])) := by
    unfold Files.truncate
    rw [hfile]
    exact if_pos hparent
  refine ⟨made, hmade, ?_⟩
  unfold State.get
  dsimp only
  rw [if_neg (not_not_intro hup), if_neg hexists, hlookup]
  simp only [State.get_from_reference_or_replication, hmade, href, if_pos hactive, State.ask_replica,
    State.set,
    set_successor, hnext, State.ask, set_stores_self, htruncate, set_set]

/-- The answer comes back to a node that waits. -/
theorem resume_replica (frames : List Frame) (fuel : Nat)
    (hfile : (w.stores x.uuid).files.lookup uri = some (.regular [])) :
    State.resume sha uri fuel ⟨w, frames, .answer (.streamed bytes)⟩ ⟨x, .replica⟩
      (.streamed bytes) .complete =
      some ⟨w.set x.uuid { w.stores x.uuid with
        files := (w.stores x.uuid).files.insert uri (.regular bytes) }, frames,
          .answer (.streamed bytes)⟩ := by
  have hwrite : (w.stores x.uuid).files.write uri bytes =
      some ((w.stores x.uuid).files.insert uri (.regular bytes)) := by
    unfold Files.write
    rw [hfile]
  simp only [State.resume, received, hwrite, Option.getD_some, if_true, State.stream, State.set,
    set_stores_self,
    AList.lookup_insert, State.answer]

/-- Back from the node `y` that has the file, over all nodes of `l`. -/
theorem drive_fetch (fuel : Nat) (frames : List Frame) (huri : uri ≠ []) {l : List Node}
    (hx : (l ++ [y]).head? = some x) (hchain : (l ++ [y]).IsChain fun a b => w.successor a.uuid = some b)
    (hl : (l ++ [y]).Pairwise fun a b => a.uuid ≠ b.uuid) (hup : ∀ z ∈ l ++ [y], z ∈ w.up)
    (hlost : ∀ z ∈ l, Lost (w.stores z.uuid) uri)
    (hy : (w.stores y.uuid).files.lookup uri = some (.regular bytes)) :
    ∃ w', (∀ n, drive sha uri fuel (2 * l.length + 1 + n) ⟨w, frames, .call x⟩ =
        drive sha uri fuel n ⟨w', frames, .answer (.streamed bytes)⟩) ∧ w'.ring = w.ring ∧ w'.up = w.up ∧
      (∀ z ∈ l, w'.stores z.uuid = recover uri bytes (w.stores z.uuid)) ∧
      ∀ u, (∀ z ∈ l, z.uuid ≠ u) → w'.stores u = w.stores u := by
  induction l generalizing w x frames with
  | nil =>
    cases hx
    refine ⟨w, fun n => ?_, rfl, rfl, by simp, fun _ _ => rfl⟩
    have hget := get_present frames (hup y (by simp)) hy
    rw [show 2 * ([] : List Node).length + 1 + n = n + 1 by simp [Nat.add_comm]]
    simp only [drive, step, hget, Option.bind_some]
  | cons z l ih =>
    obtain rfl : z = x := by simpa using hx
    obtain ⟨hne, hl⟩ := List.pairwise_cons.mp hl
    obtain ⟨next, hhead, hnext, hchain⟩ := chain_next hchain
    obtain ⟨hz, hrest⟩ := List.forall_mem_cons.mp hlost
    obtain ⟨made, hmade, hget⟩ := get_lost frames huri (hup z List.mem_cons_self) hz hnext
    generalize hw₁ : w.set z.uuid { w.stores z.uuid with files := made.insert uri (.regular []) } = w₁ at hget
    have hsame : ∀ a ∈ l ++ [y], w₁.stores a.uuid = w.stores a.uuid := by
      intro a ha
      rw [← hw₁, set_stores_of_ne (hne a ha).symm]
    obtain ⟨w₂, hdrive, hring, hup₂, hl₂, hothers⟩ := @ih w₁ next (⟨z, .replica⟩ :: frames) hhead
      (by rw [← hw₁]; exact hchain) hl (fun a ha => by rw [← hw₁]; exact hup a (List.mem_cons_of_mem _ ha))
      (fun a ha => by rw [hsame a (List.mem_append_left _ ha)]; exact hrest a ha)
      (by rw [hsame y (by simp)]; exact hy)
    have hwaits : w₂.stores z.uuid = { w.stores z.uuid with files := made.insert uri (.regular []) } := by
      rw [hothers z.uuid fun a ha => (hne a (List.mem_append_left _ ha)).symm, ← hw₁, set_stores_self]
    have hempty : (w₂.stores z.uuid).files.lookup uri = some (.regular []) := by
      rw [hwaits]
      exact AList.lookup_insert _
    have hresume := @resume_replica sha uri w₂ z bytes frames fuel hempty
    refine ⟨w₂.set z.uuid { w₂.stores z.uuid with
        files := (w₂.stores z.uuid).files.insert uri (.regular bytes) }, fun n => ?_,
      hring.trans (hw₁ ▸ rfl), hup₂.trans (hw₁ ▸ rfl), ?_, ?_⟩
    · rw [show 2 * (z :: l).length + 1 + n = (2 * l.length + 1 + (n + 1)) + 1 by
        simp only [List.length_cons]; omega]
      have hfirst : drive sha uri fuel (2 * l.length + 1 + (n + 1) + 1) ⟨w, frames, .call z⟩ =
          drive sha uri fuel (2 * l.length + 1 + (n + 1)) ⟨w₁, ⟨z, .replica⟩ :: frames, .call next⟩ := by
        rw [drive]
        simp only [step, hget, Option.bind_some]
      rw [hfirst, hdrive, drive]
      simp only [step, hresume, Option.bind_some]
    · intro a ha
      rcases List.mem_cons.mp ha with rfl | ha
      · rw [set_stores_self, hwaits, recover, hmade]
        rfl
      · rw [set_stores_of_ne (hne a (List.mem_append_left _ ha)).symm, hl₂ a ha,
          hsame a (List.mem_append_left _ ha)]
    · intro u hu
      obtain ⟨hzu, hlu⟩ := List.forall_mem_cons.mp hu
      rw [set_stores_of_ne hzu.symm, hothers u hlu, ← hw₁, set_stores_of_ne hzu.symm]

end Get

end Fs

end Chord
