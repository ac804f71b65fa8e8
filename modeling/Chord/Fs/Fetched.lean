import Chord.Fs.Deletion
import Chord.Fs.Get
import Chord.Fs.Place

/-!
# What a `get` answers

A file that is being fetched is not complete. Nobody may ask for it then, and it has to be
complete at the end.
-/

namespace Chord

namespace Fs

/-! ## Deleting one path -/

/-- The file `uri` may be gone from nodes; no other file is another one. -/
structure World.Cut (uri : Path) (w w' : World) : Prop where
  ring : w'.ring = w.ring
  others : ∀ u q, q ≠ uri → (w'.stores u).files.lookup q = (w.stores u).files.lookup q
  file : ∀ u, (w'.stores u).files.lookup uri = none ∨
    (w'.stores u).files.lookup uri = (w.stores u).files.lookup uri

namespace World.Cut

variable {uri : Path} {w v z : World}

theorem refl (uri : Path) (w : World) : w.Cut uri w := ⟨rfl, fun _ _ _ => rfl, fun _ => Or.inr rfl⟩

theorem trans (h : w.Cut uri v) (h' : v.Cut uri z) : w.Cut uri z where
  ring := h'.ring.trans h.ring
  others u q hq := (h'.others u q hq).trans (h.others u q hq)
  file u := by
    rcases h'.file u with hnone | heq
    · exact Or.inl hnone
    · rw [heq]
      exact h.file u

theorem set {u : Uuid} {store : Store}
    (hothers : ∀ q ≠ uri, store.files.lookup q = (w.stores u).files.lookup q)
    (hfile : store.files.lookup uri = none ∨ store.files.lookup uri = (w.stores u).files.lookup uri) :
    w.Cut uri (w.set u store) := by
  refine ⟨rfl, fun v q hq => ?_, fun v => ?_⟩
  · rcases eq_or_ne v u with rfl | hv
    · rw [set_stores_self, hothers q hq]
    · rw [set_stores_of_ne hv]
  · rcases eq_or_ne v u with rfl | hv
    · rwa [set_stores_self]
    · rw [set_stores_of_ne hv]
      exact Or.inr rfl

theorem set_files {u : Uuid} {store : Store} (h : store.files = (w.stores u).files) :
    w.Cut uri (w.set u store) :=
  set (fun _ _ => by rw [h]) (Or.inr (by rw [h]))

theorem erase {u : Uuid} {store : Store} (h : store.files = (w.stores u).files.erase uri) :
    w.Cut uri (w.set u store) :=
  set (fun _ hq => by rw [h, AList.lookup_erase_ne hq]) (Or.inl (by rw [h, AList.lookup_erase]))

end World.Cut

open World

/-- A reply that leaves all other files alone. -/
def Cuts (uri : Path) (w : World) (reply : Reply) : Prop := After (w.Cut uri) reply

/-- Deleting a uri leaves every other file alone. -/
theorem del_cuts (sha : Sha256) (uri : Path) (fuel : Nat) (w : World) (self : Node) (o : Options) :
    Cuts uri w (del sha fuel w self uri false o) := by
  have hname : ∀ fuel v node p records o, w.Cut uri v →
      After (w.Cut uri) (meta_del fuel v node p records o) :=
    fun fuel v node p records o hv => meta_del_after (fun _ => True)
      (fun _ _ _ _ hv _ _ => hv.trans (.set_files rfl)) fuel v node records o (fun _ _ => trivial) hv
  have hsweeps : Sweeps false (· = uri) (w.Cut uri) := by
    constructor
    · rintro v u q - hv
      exact hv.trans (.set_files rfl)
    · rintro v u q rfl hv
      exact hv.trans (.erase rfl)
    · intro _ _ q metadata _ _ _ _ fuel v node o hv
      exact hname fuel v node (parent_path q) metadata o hv
    · intro q _ _ fuel v node o hv
      exact hname fuel v node (parent_path q) _ o hv
    · intro h
      cases h
  exact hsweeps.del fuel uri w self o rfl (.refl _ _)

namespace Get

/-! ## What has to hold of a run -/

/-- The node has another record to try. -/
def Source.more : Source → Prop
  | .reference m _ rest => m.replication.active ∨ ∃ x ∈ rest, x.node_ref.isSome ∨ x.replication.active
  | .replica => False

/-- A node that waits for the file is not asked for it, and an answer that does not bring all of
the file is not the last one that its node tries to get. -/
def Meets (b : Bytes) (σ : State) : Event → Prop
  | .call => b ≠ [] → ∀ node, σ.control = .call node → ∀ frame ∈ σ.frames, frame.self.uuid ≠ node.uuid
  | .transfer transfer _ => ∀ frame ∈ σ.frames.head?, ∀ answer, σ.control = .answer answer →
      (received answer transfer).1 = b ∨ frame.source.more
  | _ => True

/-! ## Every complete file is the file that was put -/

structure Right (uri : Path) (b : Bytes) (σ : State) : Prop where
  ring : σ.w.ring ≠ []
  files : ∀ u bytes, (σ.w.stores u).files.lookup uri = some (.regular bytes) →
    bytes = b ∨ (b ≠ [] ∧ ∃ frame ∈ σ.frames, frame.self.uuid = u)
  parents : ∀ frame ∈ σ.frames, (σ.w.stores frame.self.uuid).files.lookup (parent_path uri) = some .directory
  answer : ∀ bytes, σ.control = .answer (.streamed bytes) → bytes = b

/-- The node is about to ask somebody. What it has of the file may be a part. -/
structure Asking (uri : Path) (b : Bytes) (n : Node) (σ : State) : Prop where
  ring : σ.w.ring ≠ []
  files : ∀ u bytes, (σ.w.stores u).files.lookup uri = some (.regular bytes) →
    bytes = b ∨ (b ≠ [] ∧ (n.uuid = u ∨ ∃ frame ∈ σ.frames, frame.self.uuid = u))
  parents : ∀ frame ∈ σ.frames, (σ.w.stores frame.self.uuid).files.lookup (parent_path uri) = some .directory
  parent : ∀ bytes, (σ.w.stores n.uuid).files.lookup uri = some (.regular bytes) →
    (σ.w.stores n.uuid).files.lookup (parent_path uri) = some .directory

section

variable {uri : Path} {b : Bytes} {σ : State} {self : Node}

theorem Right.answer_failed (h : Right uri b σ) : Right uri b (σ.answer .failed) :=
  ⟨h.ring, h.files, h.parents, fun bytes heq => by cases heq⟩

theorem Right.cut {w : World} (h : Right uri b σ) (hcut : σ.w.Cut uri w) (huri : uri ≠ []) :
    Right uri b { σ with w := w } where
  ring := by rw [hcut.ring]; exact h.ring
  files u bytes hlookup := by
    rcases hcut.file u with hnone | heq
    · rw [hnone] at hlookup
      cases hlookup
    · exact h.files u bytes (heq ▸ hlookup)
  parents frame hframe := by
    rw [hcut.others _ _ (parent_path_ne huri)]
    exact h.parents frame hframe
  answer := h.answer

theorem Right.stream (h : Right uri b σ)
    (hself : ∀ bytes, (σ.w.stores self.uuid).files.lookup uri = some (.regular bytes) → bytes = b) :
    Right uri b (σ.stream uri self) := by
  unfold State.stream
  split
  · rename_i bytes hlookup
    refine ⟨h.ring, h.files, h.parents, fun bytes' heq => ?_⟩
    cases heq
    exact hself bytes hlookup
  · exact h.answer_failed

/-- Without a part of the file it is as before. -/
theorem Asking.right (h : Asking uri b self σ)
    (hself : ∀ bytes, (σ.w.stores self.uuid).files.lookup uri = some (.regular bytes) → bytes = b)
    (hanswer : ∀ bytes, σ.control = .answer (.streamed bytes) → bytes = b) : Right uri b σ where
  ring := h.ring
  files u bytes hlookup := by
    rcases h.files u bytes hlookup with heq | ⟨hb, rfl | hframe⟩
    · exact Or.inl heq
    · exact Or.inl (hself bytes hlookup)
    · exact Or.inr ⟨hb, hframe⟩
  parents := h.parents
  answer := hanswer

theorem Asking.failed (h : Asking uri b self σ)
    (hself : ∀ bytes, (σ.w.stores self.uuid).files.lookup uri = some (.regular bytes) → bytes = b) :
    Right uri b (σ.answer .failed) := by
  have hasking : Asking uri b self (σ.answer .failed) := ⟨h.ring, h.files, h.parents, h.parent⟩
  exact hasking.right hself fun bytes heq => by cases heq

theorem truncate_spec {files files' : Files} (h : files.truncate uri = some files') :
    files' = files.insert uri (.regular []) ∧
      ((∃ bytes, files.lookup uri = some (.regular bytes)) ∨
        files.lookup (parent_path uri) = some .directory) := by
  unfold Files.truncate at h
  split at h
  · rename_i bytes hlookup
    cases h
    exact ⟨rfl, Or.inl ⟨bytes, hlookup⟩⟩
  · cases h
  · split at h
    · rename_i hparent
      cases h
      exact ⟨rfl, Or.inr hparent⟩
    · cases h

theorem truncate_regular {files : Files} {bytes : Bytes} (h : files.lookup uri = some (.regular bytes)) :
    files.truncate uri = some (files.insert uri (.regular [])) := by
  unfold Files.truncate
  rw [h]

/-- The node waits. -/
theorem Asking.ask (h : Asking uri b self σ) (huri : uri ≠ []) (source : Source) (node : Node) :
    Right uri b (σ.ask uri self source node) := by
  unfold State.ask
  dsimp only
  split
  · rename_i hnone
    refine h.failed fun bytes hlookup => ?_
    rw [truncate_regular hlookup] at hnone
    cases hnone
  · rename_i files htruncate
    obtain ⟨rfl, hparent⟩ := truncate_spec htruncate
    have hdir : (σ.w.stores self.uuid).files.lookup (parent_path uri) = some .directory :=
      hparent.elim (fun ⟨bytes, hlookup⟩ => h.parent bytes hlookup) id
    have hother : ∀ u q, q ≠ uri → ((σ.w.set self.uuid { σ.w.stores self.uuid with
        files := (σ.w.stores self.uuid).files.insert uri (.regular []) }).stores u).files.lookup q =
          (σ.w.stores u).files.lookup q := by
      intro u q hq
      rcases eq_or_ne u self.uuid with rfl | hu
      · rw [set_stores_self, AList.lookup_insert_ne hq]
      · rw [set_stores_of_ne hu]
    refine ⟨h.ring, fun u bytes hlookup => ?_, fun frame hframe => ?_, fun bytes heq => by cases heq⟩
    · rcases eq_or_ne u self.uuid with rfl | hu
      · rw [set_stores_self, AList.lookup_insert] at hlookup
        cases hlookup
        by_cases hb : b = []
        · exact Or.inl hb.symm
        · exact Or.inr ⟨hb, _, List.mem_cons_self, rfl⟩
      · rw [set_stores_of_ne hu] at hlookup
        rcases h.files u bytes hlookup with heq | ⟨hb, heq | ⟨frame, hframe, heq⟩⟩
        · exact Or.inl heq
        · exact absurd heq.symm hu
        · exact Or.inr ⟨hb, frame, List.mem_cons_of_mem _ hframe, heq⟩
    · rw [hother _ _ (parent_path_ne huri)]
      rcases List.mem_cons.mp hframe with rfl | hframe
      · exact hdir
      · exact h.parents frame hframe

theorem Asking.ask_replica (h : Asking uri b self σ) (huri : uri ≠ []) :
    Right uri b (σ.ask_replica uri self) := by
  unfold State.ask_replica
  split
  · rename_i hnone
    exact absurd (List.argmin_eq_none.mp hnone) h.ring
  · exact h.ask huri _ _

theorem create_parent_spec {files made : Files} (huri : uri ≠ []) (h : files.create_parent uri = some made) :
    made.lookup uri = files.lookup uri ∧ (made.lookup (parent_path uri) = files.lookup (parent_path uri) ∨
      made.lookup (parent_path uri) = some .directory) := by
  unfold Files.create_parent at h
  split at h
  · cases h
    exact ⟨rfl, Or.inl rfl⟩
  · obtain ⟨hin, hout⟩ := Files.create_each_some h
    refine ⟨hout _ fun hmem => ?_, Or.inr (hin _ ((List.mem_inits _ _).mpr (List.prefix_refl _)))⟩
    exact parent_path_not_below huri ((List.mem_inits _ _).mp hmem)

theorem Asking.create_parent (h : Asking uri b self σ) (huri : uri ≠ []) {made : Files}
    (hmade : (σ.w.stores self.uuid).files.create_parent uri = some made) :
    Asking uri b self (σ.set self.uuid { σ.w.stores self.uuid with files := made }) := by
  obtain ⟨hfile, hparent⟩ := create_parent_spec huri hmade
  have hkept : (σ.w.stores self.uuid).files.lookup (parent_path uri) = some .directory →
      made.lookup (parent_path uri) = some .directory :=
        fun hdir => hparent.elim (fun heq => heq.trans hdir) id
  refine ⟨h.ring, fun u bytes hlookup => ?_, fun frame hframe => ?_, fun bytes hlookup => ?_⟩
  · refine h.files u bytes ?_
    rcases eq_or_ne u self.uuid with rfl | hu
    · rw [State.set, set_stores_self, hfile] at hlookup
      exact hlookup
    · rwa [State.set, set_stores_of_ne hu] at hlookup
  · have hold := h.parents frame hframe
    rcases eq_or_ne frame.self.uuid self.uuid with heq | hne
    · rw [heq] at hold ⊢
      rw [State.set, set_stores_self]
      exact hkept hold
    · rwa [State.set, set_stores_of_ne hne]
  · rw [State.set, set_stores_self] at hlookup ⊢
    exact hkept (h.parent bytes (hfile ▸ hlookup))

/-- The loop ends with nothing, or the node waits. -/
theorem Asking.loop (h : Asking uri b self σ) (huri : uri ≠ []) {records : List Metadata}
    (hmore : ∀ bytes, (σ.w.stores self.uuid).files.lookup uri = some (.regular bytes) →
      bytes = b ∨ ∃ x ∈ records, x.node_ref.isSome ∨ x.replication.active) :
    Right uri b (σ.get_from_reference_or_replication uri self records) := by
  induction records generalizing σ with
  | nil =>
    refine h.failed fun bytes hlookup => (hmore bytes hlookup).resolve_right ?_
    rintro ⟨x, hx, -⟩
    cases hx
  | cons m records ih =>
    unfold State.get_from_reference_or_replication
    dsimp only
    split
    · rename_i hnone
      refine h.failed fun bytes hlookup => ?_
      rw [Files.create_parent, if_pos (Or.inr (h.parent bytes hlookup))] at hnone
      cases hnone
    rename_i made hmade
    have hnext := h.create_parent huri hmade
    split
    · exact hnext.ask huri _ _
    rename_i href
    split
    · exact hnext.ask_replica huri
    rename_i hactive
    refine ih hnext fun bytes hlookup => ?_
    rw [State.set, set_stores_self, (create_parent_spec huri hmade).1] at hlookup
    refine (hmore bytes hlookup).imp_right ?_
    rintro ⟨x, hx, hsome⟩
    rcases List.mem_cons.mp hx with rfl | hx
    · rw [href] at hsome
      exact absurd hsome (by simpa using hactive)
    · exact ⟨x, hx, hsome⟩

/-- A call arrives at a node that does not wait. -/
theorem Right.get (h : Right uri b σ) (huri : uri ≠ [])
    (hfree : b ≠ [] → ∀ frame ∈ σ.frames, frame.self.uuid ≠ self.uuid) : Right uri b (σ.get uri self) := by
  unfold State.get
  dsimp only
  split
  · exact h.answer_failed
  split
  · refine h.stream fun bytes hlookup => ?_
    rcases h.files _ bytes hlookup with heq | ⟨hb, frame, hframe, heq⟩
    · exact heq
    · exact absurd heq (hfree hb frame hframe)
  rename_i hexists
  have hnone : (σ.w.stores self.uuid).files.lookup uri = none := AList.lookup_eq_none.mpr hexists
  split
  · exact h.answer_failed
  · refine Asking.loop ⟨h.ring, fun u bytes hlookup => ?_, h.parents, ?_⟩ huri ?_
    · exact (h.files u bytes hlookup).imp_right fun ⟨hb, hframe⟩ => ⟨hb, Or.inr hframe⟩
    · intro bytes hlookup
      rw [hnone] at hlookup
      cases hlookup
    · intro bytes hlookup
      rw [hnone] at hlookup
      cases hlookup

theorem write_regular {files : Files} {bytes x : Bytes}
    (h : ((files.write uri bytes).getD files).lookup uri = some (.regular x)) :
    x = bytes ∧ ∃ y, files.lookup uri = some (.regular y) := by
  unfold Files.write at h
  split at h
  · rename_i y hlookup
    rw [Option.getD_some, AList.lookup_insert] at h
    cases h
    exact ⟨rfl, y, hlookup⟩
  · rename_i hnot
    exact absurd h (hnot x)

theorem write_other {files : Files} {bytes : Bytes} {q : Path} (hq : q ≠ uri) :
    ((files.write uri bytes).getD files).lookup q = files.lookup q := by
  unfold Files.write
  split
  · exact AList.lookup_insert_ne hq
  · rfl

/-- What is left of an answer that breaks off is nothing where there is nothing to get. -/
theorem received_nil {a : Answer} (h : ∀ bytes, a = .streamed bytes → bytes = []) (transfer : Transfer) :
    (received a transfer).1 = [] := by
  cases a with
  | failed => rfl
  | streamed bytes =>
    obtain rfl := h bytes rfl
    cases transfer <;> simp [received]

theorem received_ok {a : Answer} {transfer : Transfer} (h : (received a transfer).2 = true) :
    a = .streamed (received a transfer).1 := by
  cases a with
  | failed => cases h
  | streamed bytes => cases transfer <;> [rfl; cases h]

theorem Right.asking {frames : List Frame} {frame : Frame} {a : Answer} (h : Right uri b σ) (huri : uri ≠ [])
    (hframes : σ.frames = frame :: frames) (hcontrol : σ.control = .answer a) (transfer : Transfer) :
    let store := σ.w.stores frame.self.uuid
    Asking uri b frame.self (({ σ with frames := frames } : State).set frame.self.uuid
      { store with files := (store.files.write uri (received a transfer).1).getD store.files }) := by
  intro store
  have hempty : b = [] → (received a transfer).1 = [] := fun hb =>
    received_nil (fun bytes heq => hb ▸ h.answer bytes (hcontrol.trans (congrArg _ heq))) transfer
  refine ⟨h.ring, fun u bytes hlookup => ?_, fun other hother => ?_, fun bytes hlookup => ?_⟩
  · rcases eq_or_ne u frame.self.uuid with rfl | hu
    · rw [State.set, set_stores_self] at hlookup
      obtain ⟨rfl, -⟩ := write_regular hlookup
      by_cases hb : b = []
      · exact Or.inl (by rw [hempty hb, hb])
      · exact Or.inr ⟨hb, Or.inl rfl⟩
    · rw [State.set, set_stores_of_ne hu] at hlookup
      refine (h.files u bytes hlookup).imp_right fun ⟨hb, other, hother, heq⟩ => ⟨hb, ?_⟩
      rw [hframes] at hother
      rcases List.mem_cons.mp hother with rfl | hother
      · exact Or.inl heq
      · exact Or.inr ⟨other, hother, heq⟩
  · have hparent := h.parents other (hframes ▸ List.mem_cons_of_mem _ hother)
    rcases eq_or_ne other.self.uuid frame.self.uuid with heq | hne
    · rw [heq] at hparent ⊢
      rw [State.set, set_stores_self, write_other (parent_path_ne huri)]
      exact hparent
    · rwa [State.set, set_stores_of_ne hne]
  · rw [State.set, set_stores_self, write_other (parent_path_ne huri)]
    exact h.parents frame (hframes ▸ List.mem_cons_self)

end

variable (sha : Sha256) {uri : Path} {b : Bytes} {σ σ' : State}

/-- The node has all of the file at the end, or it waits for the next answer. -/
theorem Right.resume {fuel : Nat} {frames : List Frame} {frame : Frame} {a : Answer} {transfer : Transfer}
    (h : Right uri b σ) (huri : uri ≠ []) (hframes : σ.frames = frame :: frames)
    (hcontrol : σ.control = .answer a) (hmeets : (received a transfer).1 = b ∨ frame.source.more)
    (hstep : ({ σ with frames := frames } : State).resume sha uri fuel frame a transfer = some σ') :
    Right uri b σ' := by
  have hasking := h.asking huri hframes hcontrol transfer
  have hok : (received a transfer).2 = true → (received a transfer).1 = b := fun hok =>
    h.answer _ (hcontrol.trans (congrArg _ (received_ok hok)))
  unfold State.resume at hstep
  dsimp only at hasking hstep
  generalize hσ₁ : ({ σ with frames := frames } : State).set frame.self.uuid
    { σ.w.stores frame.self.uuid with
      files := ((σ.w.stores frame.self.uuid).files.write uri (received a transfer).1).getD
        (σ.w.stores frame.self.uuid).files } = σ₁ at hasking hstep
  -- what the node has of the file now
  have hself : ∀ bytes, (σ₁.w.stores frame.self.uuid).files.lookup uri = some (.regular bytes) →
      bytes = (received a transfer).1 := by
    intro bytes hlookup
    rw [← hσ₁, State.set, set_stores_self] at hlookup
    exact (write_regular hlookup).1
  have hright : (received a transfer).1 = b → Right uri b σ₁ := fun hall =>
    hasking.right (fun bytes hlookup => (hself bytes hlookup).trans hall) (by rw [← hσ₁]; exact h.answer)
  split at hstep
  · rename_i hsource
    have hall : (received a transfer).1 = b := hmeets.resolve_right (by rw [hsource]; exact id)
    cases hstep
    split
    · exact (hright hall).stream fun bytes hlookup => (hself bytes hlookup).trans hall
    · exact (hright hall).answer_failed
  · rename_i m node_ref rest hsource
    split at hstep
    · rename_i hcomplete
      have hall := hok hcomplete
      obtain ⟨⟨w, status⟩, hdel, hstep⟩ := Option.bind_eq_some_iff.mp hstep
      have hcut : σ₁.w.Cut uri w := (World.Cut.set_files (by rw [← hσ₁, State.set, set_stores_self])).trans
        (del_cuts sha uri fuel _ node_ref {} w status hdel)
      have hlast := (hright hall).cut hcut huri
      cases hstep
      dsimp only
      split
      · refine hlast.stream fun bytes hlookup => ?_
        rcases hcut.file frame.self.uuid with hnone | heq
        · rw [hnone] at hlookup
          cases hlookup
        · exact (hself bytes (heq ▸ hlookup)).trans hall
      · exact hlast.answer_failed
    split at hstep
    · cases hstep
      exact hasking.ask_replica huri
    · rename_i hactive
      cases hstep
      refine hasking.loop huri fun bytes hlookup => ?_
      rw [hself bytes hlookup]
      rw [hsource] at hmeets
      exact hmeets.imp_right fun hmore => hmore.resolve_left hactive

theorem Right.step {e : Event} (h : Right uri b σ) (huri : uri ≠ []) (hmeets : Meets b σ e)
    (hstep : step sha uri σ e = some σ') : Right uri b σ' := by
  cases e with
  | request node =>
    rw [Get.step] at hstep
    split at hstep <;> cases hstep
    exact ⟨h.ring, h.files, h.parents, fun bytes heq => by cases heq⟩
  | call =>
    rw [Get.step] at hstep
    split at hstep <;> cases hstep
    rename_i node hcontrol
    exact h.get huri fun hb => hmeets hb node hcontrol
  | transfer transfer fuel =>
    rw [Get.step] at hstep
    split at hstep
    · rename_i a hcontrol
      split at hstep
      · cases hstep
        exact ⟨h.ring, h.files, h.parents, fun bytes heq => by cases heq⟩
      · rename_i frame frames hframes
        exact h.resume sha huri hframes hcontrol (hmeets frame (by rw [hframes]; rfl) a hcontrol) hstep
    · cases hstep
  | outage up =>
    cases hstep
    exact ⟨h.ring, h.files, h.parents, h.answer⟩
  | loss u =>
    rw [Get.step] at hstep
    split at hstep <;> cases hstep
    exact h.cut (World.Cut.erase rfl) huri

theorem Right.run (hrun : Run sha uri (Meets b) σ σ') (h : Right uri b σ) (huri : uri ≠ []) :
    Right uri b σ' := by
  induction hrun with
  | refl => exact h
  | step e _ hmeets hstep ih => exact ih.step sha huri hmeets hstep

/-- Whatever nodes fail, and whatever copies are lost: a request that ends with `OK` has streamed
the file that was put, if nobody asked a node that was waiting and no node was left with a part. -/
theorem get_run (sha : Sha256) (uri : Path) (b : Bytes) (huri : FilePath uri) (σ σ' : State)
    (hring : σ.w.ring ≠ []) (hframes : σ.frames = []) (hcontrol : σ.control = .idle)
    (hcopies : ∀ u bytes, (σ.w.stores u).files.lookup uri = some (.regular bytes) → bytes = b)
    (hrun : Run sha uri (Meets b) σ σ') : ∀ bytes, σ'.control = .answer (.streamed bytes) → bytes = b := by
  have hright : Right uri b σ := by
    refine ⟨hring, fun u bytes hlookup => Or.inl (hcopies u bytes hlookup), ?_, ?_⟩
    · rw [hframes]
      intro frame hframe
      cases hframe
    · intro bytes heq
      rw [hcontrol] at heq
      cases heq
  exact (hright.run sha hrun huri.1).answer

/-! ## A copy that is lost -/

/-- Two nodes with a file of two bytes; the first one has lost its copy. -/
def two : State where
  w :=
    { ring := [⟨10, ['a']⟩, ⟨20, ['b']⟩]
      up := [⟨10, ['a']⟩, ⟨20, ['b']⟩]
      stores := fun u =>
        let store := place ⟨fun _ => 5, fun _ => 0⟩ [['f']] [1, 2] ⟨if u = 10 then 0 else 1, 2⟩ (.fresh 2)
        if u = 10 then { store with files := store.files.erase [['f']] } else store }
  frames := []
  control := .idle

theorem two_copies : ∀ u bytes, (two.w.stores u).files.lookup [['f']] = some (.regular bytes) →
    bytes = [1, 2] := by
  intro u bytes h
  simp only [two, place] at h
  split at h
  · rw [AList.lookup_erase] at h
    cases h
  · rw [AList.lookup_insert] at h
    cases h
    rfl

/-- The copy comes from the successor. -/
theorem get_run_two : ∃ σ', execute ⟨fun _ => 5, fun _ => 0⟩ [['f']] two
    [.request ⟨10, ['a']⟩, .call, .call, .transfer .complete 0] = some σ' ∧
      ∀ bytes, σ'.control = .answer (.streamed bytes) → bytes = [1, 2] := by
  refine ⟨_, rfl, get_run ⟨fun _ => 5, fun _ => 0⟩ [['f']] [1, 2] (by unfold FilePath; decide) two _
    (by decide) rfl rfl
    two_copies ?_⟩
  refine ((((Run.refl two).step (.request ⟨10, ['a']⟩) trivial rfl).step .call ?_ rfl).step .call ?_ rfl).step
    (.transfer .complete 0) ?_ rfl
  · intro _ node _ frame hframe
    cases hframe
  · intro _ node hnode frame hframe
    cases hnode
    obtain rfl := List.mem_singleton.mp hframe
    decide
  · intro frame _ answer hanswer
    cases hanswer
    exact Or.inl rfl

/-- A transfer that breaks off leaves a part of the file, and the next request streams it. -/
theorem part_streamed :
    ¬ ∀ (sha : Sha256) (uri : Path) (b : Bytes) (σ σ' : State), FilePath uri → σ.w.ring ≠ [] →
    σ.frames = [] → σ.control = .idle →
    (∀ u bytes, (σ.w.stores u).files.lookup uri = some (.regular bytes) → bytes = b) →
    Run sha uri (fun _ _ => True) σ σ' →
    ∀ bytes, σ'.frames = [] → σ'.control = .answer (.streamed bytes) → bytes = b := by
  intro h
  have hrun := run_execute ⟨fun _ => 5, fun _ => 0⟩ [['f']] (Run.refl two)
    (rfl : execute _ _ two [.request ⟨10, ['a']⟩, .call, .call, .transfer (.broken 1) 0,
    .transfer .complete 0,
      .request ⟨10, ['a']⟩, .call] = some _)
  have hbytes := h _ _ [1, 2] two _ (by unfold FilePath; decide) (by decide) rfl rfl two_copies hrun
      [1] rfl rfl
  cases hbytes

end Get

end Fs

end Chord
