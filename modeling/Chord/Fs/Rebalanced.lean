import Chord.Fs.Additions

/-!
# What a rebalanced node keeps

The data directory is a tree of directories, and no entry gets lost.
-/

namespace Chord

namespace Fs

open World

/-! ## Trees of directories -/

/-- What is above a path is a directory. -/
def Files.Closed (files : Files) : Prop :=
  ∀ p ∈ files, p ≠ [] → files.lookup (parent_path p) = some .directory

namespace Files.Closed

variable {files files' : Files} {p q : Path}

theorem mem_of_prefix (h : files.Closed) (hp : p ∈ files) (hq : q <+: p) : q ∈ files := by
  induction p using List.reverseRecOn with
  | nil => rwa [List.prefix_nil.mp hq]
  | append_singleton p a ih =>
    rcases List.prefix_concat_iff.mp hq with rfl | hq
    · exact hp
    · refine ih (AList.lookup_isSome.mp ?_) hq
      have hparent := h _ hp (by simp)
      rw [parent_path, List.dropLast_concat] at hparent
      rw [hparent]
      rfl

theorem remove (h : files.Closed) (hremove : files.remove p = some files') : files'.Closed := by
  obtain rfl := files_remove hremove
  intro q hq hne
  obtain ⟨hqp, hq⟩ := AList.mem_erase.mp hq
  have hparent := h q hq hne
  by_cases heq : parent_path q = p
  · -- a directory that is removed has nothing in it
    rw [heq] at hparent
    unfold Files.remove at hremove
    rw [hparent] at hremove
    dsimp only at hremove
    split at hremove
    · rename_i hempty
      unfold is_empty at hempty
      rw [hparent] at hempty
      have hnot := List.all_eq_true.mp hempty q (AList.mem_keys.mp hq)
      simp [hqp, heq] at hnot
    · cases hremove
  · rw [AList.lookup_erase_ne heq]
    exact hparent

theorem insert_regular (h : files.Closed) (hp : files.lookup p ≠ some .directory)
    (hparent : p ≠ [] → files.lookup (parent_path p) = some .directory) (bytes : Bytes) :
    Files.Closed (files.insert p (.regular bytes)) := by
  intro q hq hne
  have hdirectory : files.lookup (parent_path q) = some .directory := by
    rcases (AList.mem_insert _).mp hq with rfl | hq
    · exact hparent hne
    · exact h q hq hne
  have hpq : parent_path q ≠ p := by
    rintro rfl
    exact hp hdirectory
  rw [AList.lookup_insert_ne hpq, hdirectory]

theorem with_parent (h : files.Closed) (hmade : files.with_parent p = some files') :
    files'.Closed ∧ ∀ q, files.lookup q = some .directory → files'.lookup q = some .directory := by
  unfold Files.with_parent at hmade
  split at hmade
  · cases hmade
    exact ⟨h, fun _ hq => hq⟩
  obtain ⟨hin, hout⟩ := create_each_some hmade
  have hkeep : ∀ q, files.lookup q = some .directory → files'.lookup q = some .directory := by
    intro q hq
    by_cases hmem : q ∈ (parent_path p).inits
    · exact hin q hmem
    · rw [hout q hmem, hq]
  refine ⟨fun q hq hne => ?_, hkeep⟩
  by_cases hmem : q ∈ (parent_path p).inits
  · have hunder := (parent_path_le q).trans ((List.mem_inits _ _).mp hmem)
    exact hin _ ((List.mem_inits _ _).mpr hunder)
  · rw [← AList.lookup_isSome, hout q hmem, AList.lookup_isSome] at hq
    exact hkeep _ (h q hq hne)

theorem create_file (h : files.Closed) (hp : p ∉ files) : (files.create_file p).Closed := by
  unfold Files.create_file
  split
  · rename_i hparent
    refine h.insert_regular ?_ (fun _ => hparent) []
    rw [AList.lookup_eq_none.mpr hp]
    simp
  · exact h

theorem write (h : files.Closed) {bytes : Bytes} (hwrite : files.write p bytes = some files') :
    files'.Closed := by
  unfold Files.write at hwrite
  split at hwrite
  · rename_i old hregular
    cases hwrite
    refine h.insert_regular (by rw [hregular]; simp) (fun hne => h p (AList.lookup_isSome.mp ?_) hne) bytes
    rw [hregular]
    rfl
  · cases hwrite

theorem received {sha : Sha256} {store : Store} (h : store.files.Closed)
    (hreceived : Received sha p store files) : files.Closed := by
  obtain ⟨made, bytes, received, hmade, hreceive⟩ := hreceived
  have hmade := (h.with_parent hmade).1
  have h₁ : (if made.exists_at p then made else made.create_file p).Closed := by
    split
    · exact hmade
    · rename_i hexists
      exact hmade.create_file hexists
  unfold receive at hreceive
  dsimp only at hreceive
  generalize (if made.exists_at p then made else made.create_file p) = files₁ at h₁ hreceive
  split at hreceive
  · cases hreceive
    exact h₁
  split at hreceive
  · cases hreceive
    exact h₁
  · rename_i hwrite
    cases hreceive
    exact h₁.write hwrite

end Files.Closed

/-! ## Entries -/

/-- A member has an entry. -/
def World.HasEntry (w : World) (q : Path) : Prop := ∃ n ∈ w.ring, q ∈ (w.stores n.uuid).metadata

instance (w : World) (q : Path) : Decidable (w.HasEntry q) :=
  inferInstanceAs (Decidable (∃ n ∈ w.ring, q ∈ (w.stores n.uuid).metadata))

/-- The entry is on one disk. -/
structure EntryAt (ring : List Node) (u : Uuid) (q : Path) (w : World) : Prop where
  ring : w.ring = ring
  entry : q ∈ (w.stores u).metadata

section

variable {sha : Sha256} {P : World → Prop} {uri q : Path} {w w' : World} {ring : List Node} {u : Uuid}

theorem EntryAt.has_entry {n : Node} (h : EntryAt ring n.uuid q w) (hn : n ∈ ring) : w.HasEntry q :=
  ⟨n, h.ring ▸ hn, h.entry⟩

theorem EntryAt.set (h : EntryAt ring u q w) {v : Uuid} {store : Store}
    (hstore : u = v → q ∈ (w.stores v).metadata → q ∈ store.metadata) :
    EntryAt ring u q (w.set v store) := by
  refine ⟨h.ring, ?_⟩
  rcases eq_or_ne u v with rfl | hne
  · rw [set_stores_self]
    exact hstore rfl h.entry
  · rw [set_stores_of_ne hne]
    exact h.entry

theorem EntryAt.set_files (h : EntryAt ring u q w) (v : Uuid) (files : Files) :
    EntryAt ring u q (w.set v { w.stores v with files := files }) := h.set fun _ hq => hq

theorem mem_add {store : MetaStore} {p q : Path} {records : MetaSet} (h : q = p ∨ q ∈ store) :
    q ∈ (store.add p records).1 := by
  rw [← AList.lookup_isSome]
  by_cases hq : q = p
  · rw [hq, MetaStore.lookup_add]
    rfl
  · rw [MetaStore.add_lookup_of_ne hq, AList.lookup_isSome]
    exact h.resolve_left hq

theorem EntryAt.adds : Adds (EntryAt ring u q) := fun _ _ _ _ h => h.set fun _ hq => mem_add (Or.inr hq)

/-- What happens to a path whose file stays where it is. -/
structure Moves (uri : Path) (P : World → Prop) : Prop where
  entry : ∀ w u, P w → P (w.set u { w.stores u with metadata := (w.stores u).metadata.erase uri })
  remove : ∀ w u files, P w → (w.stores u).files.remove uri = some files →
    P (w.set u { w.stores u with files := files })
  record : Adds P

/-- What happens to a path on any disk. -/
structure Steps (sha : Sha256) (uri : Path) (P : World → Prop) : Prop extends Moves uri P where
  receive : ∀ w u files, P w → Received sha uri (w.stores u) files →
    P (w.set u { w.stores u with files := files })

theorem Steps.writes (h : Steps sha uri P) (s : Uuid) (rebalance : Bool) : Writes sha uri s rebalance P :=
  ⟨h.receive, h.record, fun _ => ⟨fun w u _ => h.entry w u, fun w u files _ => h.remove w u files⟩⟩

theorem EntryAt.steps (h : uri ≠ q) : Steps sha uri (EntryAt ring u q) where
  entry _ _ hw := hw.set fun _ hq => AList.mem_erase.mpr ⟨h.symm, hq⟩
  remove _ v files hw _ := hw.set_files v files
  receive _ v files hw _ := hw.set_files v files
  record := EntryAt.adds

/-- The node that started a deletion keeps its entry. -/
theorem EntryAt.writes (rebalance : Bool) : Writes sha uri u rebalance (EntryAt ring u q) where
  file _ v files hw _ := hw.set_files v files
  record := EntryAt.adds
  removes _ := ⟨fun _ _ hv hw => hw.set fun heq => absurd heq.symm hv,
    fun _ v files _ hw _ => hw.set_files v files⟩

/-- No step changes what does not depend on the disks. -/
theorem frame_steps {α : Type} {f : World → α} (hf : ∀ w u store, f (w.set u store) = f w) (a : α) :
    Steps sha uri fun w => f w = a where
  entry _ _ h := (hf _ _ _).trans h
  remove _ _ _ h _ := (hf _ _ _).trans h
  receive _ _ _ h _ := (hf _ _ _).trans h
  record _ _ _ _ h := (hf _ _ _).trans h

theorem ring_steps (ring : List Node) : Steps sha uri fun w => w.ring = ring :=
  frame_steps (fun _ _ _ => rfl) ring

theorem closed_steps (u : Uuid) : Steps sha uri fun w => (w.stores u).files.Closed := by
  have hset : ∀ {w : World} {v : Uuid} {store : Store}, (w.stores u).files.Closed →
      ((w.stores v).files.Closed → store.files.Closed) → ((w.set v store).stores u).files.Closed := by
    intro w v store hw hstore
    rcases eq_or_ne u v with rfl | hne
    · rw [set_stores_self]
      exact hstore hw
    · rw [set_stores_of_ne hne]
      exact hw
  exact
    { entry := fun w v hw => hset hw id
      remove := fun w v files hw hremove => hset hw fun hv => hv.remove hremove
      receive := fun w v files hw hreceived => hset hw fun hv => hv.received hreceived
      record := fun w v p entry hw => hset hw id }

theorem Files.mem_with_parent {files made : Files} (h : files.with_parent uri = some made) (p : Path) :
    (p ∈ files → p ∈ made) ∧ (p ∈ made → p ∈ files ∨ p <+: parent_path uri) := by
  unfold Files.with_parent at h
  split at h
  · cases h
    exact ⟨id, Or.inl⟩
  obtain ⟨hin, hout⟩ := Files.create_each_some h
  by_cases hmem : p ∈ (parent_path uri).inits
  · refine ⟨fun _ => AList.lookup_isSome.mp ?_, fun _ => Or.inr ((List.mem_inits _ _).mp hmem)⟩
    rw [hin p hmem]
    rfl
  · rw [← AList.lookup_isSome, ← AList.lookup_isSome, hout p hmem]
    exact ⟨id, Or.inl⟩

/-- The file itself and directories above it are made, and every path stays. -/
theorem Received.mem {files : Files} {store : Store} (h : Received sha uri store files) (p : Path) :
    (p ∈ store.files → p ∈ files) ∧ (p ∈ files → p ∈ store.files ∨ p <+: uri) := by
  obtain ⟨made, bytes, received, hmade, hreceive⟩ := h
  have hsame : ∀ {t : Files}, (p ∈ made → p ∈ t) → (p ∈ t → p ∈ made ∨ p = uri) →
      (p ∈ store.files → p ∈ t) ∧ (p ∈ t → p ∈ store.files ∨ p <+: uri) := by
    intro t hkeep hnew
    obtain ⟨hin, hout⟩ := Files.mem_with_parent hmade p
    refine ⟨fun hp => hkeep (hin hp), fun hp => ?_⟩
    rcases hnew hp with hp | rfl
    · exact (hout hp).imp_right fun hunder => hunder.trans (parent_path_le uri)
    · exact Or.inr (List.prefix_refl p)
  have h₁ : (p ∈ made → p ∈ (if made.exists_at uri then made else made.create_file uri)) ∧
      (p ∈ (if made.exists_at uri then made else made.create_file uri) → p ∈ made ∨ p = uri) := by
    unfold Files.create_file
    split
    · exact ⟨id, Or.inl⟩
    split
    · rw [AList.mem_insert]
      exact ⟨Or.inr, Or.symm⟩
    · exact ⟨id, Or.inl⟩
  unfold receive at hreceive
  dsimp only at hreceive
  generalize (if made.exists_at uri then made else made.create_file uri) = files₁ at h₁ hreceive
  split at hreceive
  · cases hreceive
    exact hsame h₁.1 h₁.2
  split at hreceive
  · cases hreceive
    exact hsame h₁.1 h₁.2
  · rename_i hwrite
    cases hreceive
    unfold Files.write at hwrite
    split at hwrite
    · cases hwrite
      refine hsame (fun hp => (AList.mem_insert _).mpr (Or.inr (h₁.1 hp))) fun hp => ?_
      exact ((AList.mem_insert _).mp hp).elim Or.inr h₁.2
    · cases hwrite

/-- The disk has no other paths than these. -/
def NoOther (u : Uuid) (files : Files) (w : World) : Prop := ∀ p ∈ (w.stores u).files, p ∈ files

theorem NoOther.set {files : Files} (hw : NoOther u files w) {v : Uuid} {store : Store}
    (hstore : u = v → ∀ p ∈ store.files, p ∈ (w.stores v).files ∨ p ∈ files) :
    NoOther u files (w.set v store) := by
  intro p hp
  rcases eq_or_ne u v with rfl | hne
  · rw [set_stores_self] at hp
    exact (hstore rfl p hp).elim (hw p) id
  · rw [set_stores_of_ne hne] at hp
    exact hw p hp

theorem NoOther.moves (u : Uuid) (files : Files) : Moves uri (NoOther u files) where
  entry _ _ hw := hw.set fun _ _ hp => Or.inl hp
  remove _ _ _ hw hremove := hw.set fun _ _ hp => Or.inl (AList.mem_erase.mp (files_remove hremove ▸ hp)).2
  record _ _ _ _ hw := hw.set fun _ _ hp => Or.inl hp

theorem NoOther.steps {files : Files} (hfiles : files.Closed) (huri : uri ∈ files) (u : Uuid) :
    Steps sha uri (NoOther u files) where
  toMoves := NoOther.moves u files
  receive _ _ _ hw hreceived :=
    hw.set fun _ p hp => ((hreceived.mem p).2 hp).imp_right (hfiles.mem_of_prefix huri)

/-! ## The path of a listing -/

/-- A listing has a `.`. -/
def MetaSet.HasDot (s : MetaSet) : Prop := ∃ m ∈ s, m.name = ['.'] ∧ m.file_type = .directory

instance (s : MetaSet) : Decidable (MetaSet.HasDot s) := inferInstanceAs (Decidable (∃ m ∈ s, _))

theorem MetaSet.HasDot.is_directory {s : MetaSet} (h : MetaSet.HasDot s) : MetaSet.is_directory s := by
  obtain ⟨m, hm, hname, htype⟩ := h
  exact ⟨m, hm, Or.inl hname, htype⟩

theorem MetaSet.HasDot.merged {s : MetaSet} (h : MetaSet.HasDot s) (records : MetaSet) :
    MetaSet.HasDot (MetaSet.merged s records) := by
  obtain ⟨m, hm, hname, -⟩ := h
  exact ⟨_, (MetaSet.dots_mem_merged (Or.inl (List.mem_map.mpr ⟨m, hm, hname⟩))).1, rfl, rfl⟩

theorem MetaSet.HasDot.referenced {s : MetaSet} (h : MetaSet.HasDot s) (self : Node) (shallow_copy : Bool) :
    MetaSet.HasDot (referenced self shallow_copy s) := by
  unfold Fs.referenced
  split
  · obtain ⟨m, hm, hdot⟩ := h
    exact ⟨_, List.mem_map.mpr ⟨m, hm, rfl⟩, hdot⟩
  · exact h

/-- The path is on one disk. -/
def PathAt (u : Uuid) (q : Path) (w : World) : Prop := q ∈ (w.stores u).files

/-- The path is on one disk, and its entry there is a listing with a `.`. -/
structure ListingAt (u : Uuid) (q : Path) (w : World) : Prop where
  path : PathAt u q w
  dot : ∃ s ∈ (w.stores u).metadata.lookup q, MetaSet.HasDot s

theorem PathAt.set (h : PathAt u q w) {v : Uuid} {store : Store}
    (hstore : u = v → q ∈ (w.stores v).files → q ∈ store.files) :
    PathAt u q (w.set v store) := by
  unfold PathAt
  rcases eq_or_ne u v with rfl | hne
  · rw [set_stores_self]
    exact hstore rfl h
  · rw [set_stores_of_ne hne]
    exact h

theorem ListingAt.set (h : ListingAt u q w) {v : Uuid} {store : Store}
    (hpath : q ∈ (w.stores v).files → q ∈ store.files)
    (hdot : ∀ s, (w.stores v).metadata.lookup q = some s → MetaSet.HasDot s →
    ∃ t ∈ store.metadata.lookup q, MetaSet.HasDot t) :
    ListingAt u q (w.set v store) := by
  refine ⟨h.path.set fun _ => hpath, ?_⟩
  obtain ⟨s, hs, hs'⟩ := h.dot
  rcases eq_or_ne u v with rfl | hne
  · rw [set_stores_self]
    exact hdot s hs hs'
  · rw [set_stores_of_ne hne]
    exact ⟨s, hs, hs'⟩

theorem PathAt.moves (h : uri ≠ q) : Moves uri (PathAt u q) where
  entry _ _ hw := hw.set fun _ hq => hq
  remove _ _ _ hw hremove := hw.set fun _ hq => files_remove hremove ▸ AList.mem_erase.mpr ⟨h.symm, hq⟩
  record _ _ _ _ hw := hw.set fun _ hq => hq

theorem PathAt.steps (h : uri ≠ q) : Steps sha uri (PathAt u q) where
  toMoves := PathAt.moves h
  receive _ _ _ hw hreceived := hw.set fun _ hq => (hreceived.mem q).1 hq

theorem ListingAt.steps (h : uri ≠ q) : Steps sha uri (ListingAt u q) where
  entry _ _ hw := hw.set id fun s hs hdot => ⟨s, by rw [AList.lookup_erase_ne h.symm]; exact hs, hdot⟩
  remove _ _ _ hw hremove :=
    hw.set (fun hq => files_remove hremove ▸ AList.mem_erase.mpr ⟨h.symm, hq⟩) fun s hs hdot => ⟨s, hs, hdot⟩
  receive _ _ _ hw hreceived := hw.set (fun hq => (hreceived.mem q).1 hq) fun s hs hdot => ⟨s, hs, hdot⟩
  record w v p records hw := by
    refine hw.set id fun s hs hdot => ?_
    rcases eq_or_ne q p with rfl | hne
    · rw [MetaStore.lookup_add, hs]
      exact ⟨_, rfl, hdot.merged records⟩
    · rw [MetaStore.add_lookup_of_ne hne]
      exact ⟨s, hs, hdot⟩

/-! ## One entry -/

theorem successor_mem {id : Uuid} {n : Node} (h : w.successor id = some n) : n ∈ w.ring := List.argmin_mem h

/-- A request with records is refused, or leaves an entry. -/
theorem meta_add_entry {fuel : Nat} {self : Node} {records : MetaSet} {o : Options} {status : StatusCode}
    (ho : o.source = none) (h : meta_add sha fuel w self q records o = some (w', status)) :
    w' = w ∧ status ≠ .OK ∧ status ≠ .ALREADY_EXISTS ∨ EntryAt w.ring self.uuid q w' := by
  cases fuel with
  | zero => cases h
  | succ fuel =>
    by_cases hup : self ∈ w.up
    · have hsource : o.source ≠ some self.uuid := by
        rw [ho]
        simp
      by_cases hempty : MetaSet.of_list (records.map Metadata.sent) = []
      · simp [meta_add, hup, hsource, hempty] at h
        obtain ⟨rfl, rfl⟩ := h
        exact Or.inl ⟨rfl, by decide, by decide⟩
      by_cases hold : ∃ existing ∈ (w.stores self.uuid).metadata.lookup q,
          MetaSet.equal_basic existing (MetaSet.of_list (records.map Metadata.sent))
      · rw [meta_add] at h
        simp only [if_neg (not_not_intro hup), if_neg hsource, if_neg hempty, if_pos hold] at h
        cases h
        obtain ⟨existing, hlookup, -⟩ := hold
        exact Or.inr ⟨rfl, AList.lookup_isSome.mp (by rw [hlookup]; rfl)⟩
      · right
        obtain ⟨entry, hentry⟩ : ∃ entry, (if is_mkdir q (MetaSet.of_list (records.map Metadata.sent)) then
            [MetaSet.create_directory (MetaSet.of_list (records.map Metadata.sent)) ['.']]
          else MetaSet.of_list (records.map Metadata.sent)) = entry := ⟨_, rfl⟩
        rw [meta_add_accepted sha rfl hup hsource hempty (fun existing hmem heq => hold ⟨existing, hmem, heq⟩)
          hentry] at h
        have hentry : EntryAt w.ring self.uuid q (w.add_entry self q entry) := by
          refine ⟨rfl, ?_⟩
          rw [add_entry, set_stores_self]
          exact mem_add (Or.inl rfl)
        obtain ⟨v, hparent, h⟩ := Option.bind_eq_some_iff.mp h
        obtain ⟨z, hcopy, h⟩ := Option.bind_eq_some_iff.mp h
        cases h
        have hv : EntryAt w.ring self.uuid q v := by
          split at hparent
          · obtain ⟨node, -, hparent⟩ := Option.bind_eq_some_iff.mp hparent
            exact after_ignored (EntryAt.adds.meta_add fuel hentry _ _ _ _) hparent
          · cases hparent
            exact hentry
        split at hcopy
        · obtain ⟨node, -, hcopy⟩ := Option.bind_eq_some_iff.mp hcopy
          exact after_ignored (EntryAt.adds.meta_add fuel hv _ _ _ _) hcopy
        · cases hcopy
          exact hv
    · simp [meta_add, hup] at h
      obtain ⟨rfl, rfl⟩ := h
      exact Or.inl ⟨rfl, by decide, by decide⟩

/-! ## `rebalance` -/

theorem foldlM_keeps {α : Type} {f : World → α → Option World} {l : List α}
    (h : ∀ v e v', e ∈ l → P v → f v e = some v' → P v') (hw : P w) (hfold : l.foldlM f w = some w') :
    P w' := by
  induction l generalizing w with
  | nil =>
    cases hfold
    exact hw
  | cons e l ih =>
    obtain ⟨v, hv, hfold⟩ := Option.bind_eq_some_iff.mp hfold
    exact ih (fun v e v' he => h v e v' (List.mem_cons_of_mem _ he)) (h w e v List.mem_cons_self hw hv) hfold

/-- What `rebalance_metadata` does with the status of its request. -/
inductive AfterRequest (self : Peer) (uri : Path) (deleted : MetaSet) (v : World) : StatusCode → World → Prop
  | kept {status : StatusCode} (hstatus : status = .OK ∨ status = .ALREADY_EXISTS) : AfterRequest self uri
    deleted v status v
  | removed {files : Files} (hregular : MetaSet.is_regular_file deleted)
    (hremove : (v.stores self.disk).files.remove uri = some files) :
    AfterRequest self uri deleted v .ALREADY_EXISTS
      (v.set self.disk { v.stores self.disk with files := files })
  | restored {status : StatusCode} (hOK : status ≠ .OK) (hexists : status ≠ .ALREADY_EXISTS) : AfterRequest
    self uri deleted v status
    (v.set self.disk { v.stores self.disk with metadata := ((v.stores self.disk).metadata.add uri deleted).1 })

/-- The entry is taken out and sent to its owner. -/
theorem rebalance_metadata_cases {fuel : Nat} {self : Peer} {shallow_copy : Bool}
    (hcall : rebalance_metadata sha fuel self w uri shallow_copy = some w') :
    ∃ metadata node v status, (w.stores self.disk).metadata.lookup uri = some metadata ∧
      w.successor (sha.uri uri) = some node ∧
      meta_add sha fuel (w.set self.disk
        { w.stores self.disk with metadata := (w.stores self.disk).metadata.erase uri }) node uri
        (referenced self.context shallow_copy metadata) {} = some (v, status) ∧
      AfterRequest self uri (referenced self.context shallow_copy metadata) v status w' := by
  unfold rebalance_metadata at hcall
  obtain ⟨metadata, hlookup, hcall⟩ := Option.bind_eq_some_iff.mp hcall
  obtain ⟨node, hnode, hcall⟩ := Option.bind_eq_some_iff.mp hcall
  obtain ⟨⟨v, status⟩, hadd, hcall⟩ := Option.bind_eq_some_iff.mp hcall
  refine ⟨metadata, node, v, status, hlookup, hnode, hadd, ?_⟩
  dsimp only at hcall
  split at hcall
  · rename_i hexists
    subst hexists
    split at hcall
    · rename_i hregular
      obtain ⟨files, hremove, hcall⟩ := Option.bind_eq_some_iff.mp hcall
      cases hcall
      exact .removed hregular hremove
    · cases hcall
      exact .kept (Or.inr rfl)
  · rename_i hexists
    split at hcall
    · rename_i hOK
      cases hcall
      exact .restored hOK hexists
    · rename_i hOK
      cases hcall
      exact .kept (Or.inl (not_not.mp hOK))

/-- A turn is one of metadata, or of nothing, or a `put` from the disk. -/
theorem rebalance_uri_cases {fuel : Nat} {event : RebalanceEvent} {self : Peer} {metadata : MetaSet}
    (hcall : rebalance_uri sha fuel event self w (uri, metadata) = some w') :
    (∃ shallow_copy, rebalance_metadata sha fuel self w uri shallow_copy = some w') ∨ w' = w ∨
      ∃ data node o status, (w.stores self.disk).files.lookup uri = some data ∧
        w.successor (sha.uri uri) = some node ∧
        o.source = none ∧ o.rebalance = true ∧ put sha fuel w node uri data.bytes o = some (w', status) := by
  unfold rebalance_uri at hcall
  dsimp only at hcall
  split at hcall
  · exact Or.inl ⟨_, hcall⟩
  split at hcall
  · cases hcall
    exact Or.inr (Or.inl rfl)
  · rename_i data hdata
    obtain ⟨node, hnode, hcall⟩ := Option.bind_eq_some_iff.mp hcall
    unfold client_put at hcall
    split at hcall
    · cases hcall
      exact Or.inr (Or.inl rfl)
    · obtain ⟨⟨z, status⟩, hput, rfl⟩ := Option.map_eq_some_iff.mp hcall
      exact Or.inr (Or.inr ⟨data, node, _, status, hdata, hnode, rfl, rfl, hput⟩)

theorem Moves.rebalance_metadata (h : Moves uri P) {fuel : Nat} {self : Peer} {shallow_copy : Bool} (hw : P w)
    (hcall : rebalance_metadata sha fuel self w uri shallow_copy = some w') : P w' := by
  obtain ⟨metadata, node, v, status, -, -, hadd, hafter⟩ := rebalance_metadata_cases hcall
  have hv : P v := h.record.meta_add fuel (h.entry w self.disk hw) _ _ _ _ v status hadd
  cases hafter with
  | kept => exact hv
  | removed _ hremove => exact h.remove v self.disk _ hv hremove
  | restored => exact h.record v self.disk uri _ hv

theorem Steps.rebalance_uri (h : Steps sha uri P) {fuel : Nat} {event : RebalanceEvent} {self : Peer}
    {metadata : MetaSet} (hw : P w) (hcall : rebalance_uri sha fuel event self w (uri, metadata) = some w') :
    P w' := by
  rcases rebalance_uri_cases hcall with ⟨_, hcall⟩ | rfl | ⟨data, node, o, status, -, -, ho, -, hput⟩
  · exact h.toMoves.rebalance_metadata hw hcall
  · exact hw
  · exact (h.writes node.uuid o.rebalance).put fuel hw node _ (by rw [ho]; rfl) w' status hput

/-- The turn of the entry itself: a member has it afterwards. -/
theorem rebalance_uri_entry {fuel : Nat} {event : RebalanceEvent} {self : Peer} {n : Node}
    {metadata : MetaSet} (hn : n ∈ w.ring) (hdisk : n.uuid = self.disk) (hw : w.HasEntry uri)
    (hcall : rebalance_uri sha fuel event self w (uri, metadata) = some w') : w'.HasEntry uri := by
  rcases rebalance_uri_cases hcall with ⟨_, hcall⟩ | rfl | ⟨data, node, o, status, -, hnode, ho,
    hrebalance, hput⟩
  · obtain ⟨records, node, v, status, -, hnode, hadd, hafter⟩ := rebalance_metadata_cases hcall
    have hmem := successor_mem hnode
    rcases meta_add_entry rfl hadd with ⟨rfl, hOK, hexists⟩ | hentry
    · cases hafter with
      | kept hstatus => exact absurd hstatus (not_or.mpr ⟨hOK, hexists⟩)
      | removed => exact absurd rfl hexists
      | restored =>
        -- the entry goes back to the disk
        refine ⟨n, hn, ?_⟩
        rw [hdisk, set_stores_self]
        exact mem_add (Or.inl rfl)
    · cases hafter with
      | kept => exact hentry.has_entry hmem
      | removed => exact (hentry.set_files self.disk _).has_entry hmem
      | restored => exact (EntryAt.adds v self.disk uri _ hentry).has_entry hmem
  · exact hw
  · have hmem := successor_mem hnode
    have hfiles : ∀ files, (w.set node.uuid { w.stores node.uuid with files := files }).HasEntry uri := by
      obtain ⟨x, hx, hentry⟩ := hw
      have hx' : EntryAt w.ring x.uuid uri w := ⟨rfl, hentry⟩
      exact fun files => (hx'.set_files node.uuid files).has_entry hx
    cases fuel with
    | zero => cases hput
    | succ fuel =>
      rcases put_split hput with rfl | ⟨files, hreceived, rfl | ⟨stored, hrest⟩⟩
      · exact hw
      · exact hfiles files
      · -- the owner has the file, and it started everything that follows
        have hwrites : Writes sha uri node.uuid o.rebalance (EntryAt w.ring node.uuid uri) :=
          EntryAt.writes o.rebalance
        have hstored : ∀ replication, EntryAt w.ring node.uuid uri (w.set node.uuid
            (written sha uri files stored replication (w.stores node.uuid))) := by
          refine fun replication => ⟨rfl, ?_⟩
          rw [set_stores_self]
          exact mem_add (Or.inl rfl)
        refine EntryAt.has_entry
          (hwrites.put_rest fuel (hstored _) (fun v x bytes o' ho' _ hv => ?_)
            (by rw [ho]; rfl) stored w' status
          hrest) hmem
        exact (EntryAt.writes o'.rebalance).put fuel hv x bytes (by rw [ho']; rfl)

/-- The entries of a node that rebalances stay in the ring. -/
theorem rebalance_has_entry {fuel : Nat} {event : RebalanceEvent} {self : Peer} {n : Node}
    {metadata : List (Path × MetaSet)} (hn : n ∈ w.ring) (hdisk : n.uuid = self.disk) (hw : w.HasEntry q)
    (hcall : rebalance sha fuel event self w metadata = some w') : w'.HasEntry q := by
  have hkeeps : ∀ v e v', e ∈ metadata → v.ring = w.ring ∧ v.HasEntry q →
      rebalance_uri sha fuel event self v e = some v' →
      v'.ring = w.ring ∧ v'.HasEntry q := by
    rintro v ⟨uri, records⟩ v' - ⟨hring, hv⟩ hcall
    refine ⟨(ring_steps w.ring).rebalance_uri hring hcall, ?_⟩
    by_cases hne : uri = q
    · subst hne
      exact rebalance_uri_entry (hring ▸ hn) hdisk hv hcall
    · obtain ⟨x, hx, hentry⟩ := hv
      have hsteps : Steps sha uri (EntryAt v.ring x.uuid q) := EntryAt.steps hne
      exact EntryAt.has_entry (hsteps.rebalance_uri ⟨rfl, hentry⟩ hcall) hx
  exact (foldlM_keeps hkeeps ⟨rfl, hw⟩ hcall).2

/-- The turn of a listing: what it is about stays on the disk. -/
theorem ListingAt.rebalance_uri {fuel : Nat} {event : RebalanceEvent} {self : Peer} {metadata : MetaSet}
    (h : ListingAt self.disk q w) (hdirectory : MetaSet.is_directory metadata)
    (hcall : rebalance_uri sha fuel event self w (q, metadata) = some w') : PathAt self.disk q w' := by
  have hadds : Adds (PathAt self.disk q) := fun _ _ _ _ hw => hw.set fun _ hq => hq
  unfold Fs.rebalance_uri at hcall
  dsimp only at hcall
  rw [if_pos (Or.inl hdirectory)] at hcall
  obtain ⟨s, node, v, status, hs, -, hadd, hafter⟩ := rebalance_metadata_cases hcall
  have herased : PathAt self.disk q
      (w.set self.disk { w.stores self.disk with metadata := (w.stores self.disk).metadata.erase q }) :=
        h.path.set fun _ hq => hq
  have hv : PathAt self.disk q v := hadds.meta_add fuel herased _ _ _ _ v status hadd
  have hdot : MetaSet.HasDot s := by
    obtain ⟨t, ht, hdot⟩ := h.dot
    rw [hs] at ht
    obtain rfl := Option.some.inj ht
    exact hdot
  cases hafter with
  | kept => exact hv
  | removed hregular =>
    -- a file is deleted only where one record is sent
    exact absurd hregular (hdot.referenced self.context _).is_directory.not_is_regular_file
  | restored => exact hadds v self.disk q _ hv

/-- The path of a listing stays on the disk of a node that rebalances. -/
theorem rebalance_keeps_path {fuel : Nat} {event : RebalanceEvent} {self : Peer}
    {metadata : List (Path × MetaSet)} {s : MetaSet} (hmem : (q, s) ∈ metadata)
    (hnodup : (metadata.map Prod.fst).Nodup) (hs : MetaSet.is_directory s) (h : ListingAt self.disk q w)
    (hcall : rebalance sha fuel event self w metadata = some w') : PathAt self.disk q w' := by
  obtain ⟨before, after, rfl⟩ := List.append_of_mem hmem
  rw [List.map_append, List.map_cons, List.nodup_middle, List.nodup_cons, List.mem_append, not_or] at hnodup
  obtain ⟨⟨hbefore, hafter⟩, -⟩ := hnodup
  unfold rebalance at hcall
  rw [List.foldlM_append] at hcall
  obtain ⟨v, hv, hcall⟩ := Option.bind_eq_some_iff.mp hcall
  obtain ⟨z, hz, hcall⟩ := Option.bind_eq_some_iff.mp hcall
  have hlisting : ListingAt self.disk q v := by
    refine foldlM_keeps (P := ListingAt self.disk q) ?_ h hv
    rintro x ⟨uri, records⟩ x' hentry hx hturn
    have hne : uri ≠ q := by
      rintro rfl
      exact hbefore (List.mem_map.mpr ⟨_, hentry, rfl⟩)
    exact (ListingAt.steps hne).rebalance_uri hx hturn
  refine foldlM_keeps (P := PathAt self.disk q) ?_ (hlisting.rebalance_uri hs hz) hcall
  rintro x ⟨uri, records⟩ x' hentry hx hturn
  have hne : uri ≠ q := by
    rintro rfl
    exact hafter (List.mem_map.mpr ⟨_, hentry, rfl⟩)
  exact (PathAt.steps hne).rebalance_uri hx hturn

theorem rebalance_closed {fuel : Nat} {event : RebalanceEvent} {self : Peer}
    {metadata : List (Path × MetaSet)} (hw : (w.stores u).files.Closed)
    (hcall : rebalance sha fuel event self w metadata = some w') : (w'.stores u).files.Closed := by
  refine foldlM_keeps (P := fun z => (z.stores u).files.Closed) ?_ hw hcall
  rintro v ⟨uri, records⟩ v' - hv hcall
  exact (closed_steps u).rebalance_uri hv hcall

/-- A rebalanced node gets no path that it did not have. -/
theorem rebalance_no_other {fuel : Nat} {event : RebalanceEvent} {self : Peer}
    {metadata : List (Path × MetaSet)} (hw : (w.stores self.disk).files.Closed)
    (hcall : rebalance sha fuel event self w metadata = some w') :
    NoOther self.disk (w.stores self.disk).files w' := by
  refine foldlM_keeps (P := NoOther self.disk (w.stores self.disk).files) ?_ (fun _ hp => hp) hcall
  rintro v ⟨uri, records⟩ v' - hv hcall
  by_cases huri : uri ∈ (w.stores self.disk).files
  · exact (NoOther.steps hw huri self.disk).rebalance_uri hv hcall
  · -- the file is on another node
    rcases rebalance_uri_cases hcall with ⟨_, hcall⟩ | rfl | ⟨data, node, o, status, hdata, -⟩
    · exact (NoOther.moves self.disk _).rebalance_metadata hv hcall
    · exact hv
    · exact absurd (hv uri (AList.lookup_isSome.mp (by rw [hdata]; rfl))) huri

end

end Fs

end Chord
