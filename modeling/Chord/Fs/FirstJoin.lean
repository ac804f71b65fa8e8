import Chord.Fs.Rebalanced
import Chord.Fs.Requests

/-!
# What the first join deletes

`initialize` goes through the entries that the node had before it rebalanced them.
-/

namespace Chord

namespace Fs

open World

section

variable (sha : Sha256)

/-- The entry is deleted in its turn. -/
def Untracks (self : Peer) (w : World) (entry : Path × MetaSet) : Prop :=
  ¬ MetaSet.is_shallow_copy self.context entry.2 ∧ ¬ (w.stores self.disk).files.exists_at entry.1 ∧
    ∃ status records, dir sha w entry.1 = some (status, records) ∧
      (status = .NOT_FOUND ∨ ¬ MetaSet.is_shallow_copy self.context records)

/-- A deletion of `initialize`, which starts at `w`. -/
def Issues (fuel : Nat) (self : Peer) (w : World) (metadata : List (Path × MetaSet))
    (entry : Path × MetaSet) : Prop :=
  ∃ before after v, metadata = before ++ entry :: after ∧ before.foldlM (untrack sha fuel self) w = some v ∧
    Untracks sha self v entry

/-- Only files that are not there are deleted, and no directory with what is below it. What is on the
disk stays there. -/
structure Spares (fuel : Nat) (peer : Peer) (w : World) (metadata : List (Path × MetaSet))
  (w' : World) : Prop where
  file : ∀ entry, Issues sha fuel peer w metadata entry → MetaSet.is_regular_file entry.2 ∧
    ¬ (w.stores peer.disk).files.exists_at entry.1 ∧ ¬ MetaSet.is_shallow_copy peer.context entry.2
  directory : ∀ entry ∈ metadata, MetaSet.is_directory entry.2 → w'.HasEntry entry.1
  below : ∀ dir ∈ metadata, MetaSet.is_directory dir.2 → ∀ entry ∈ metadata, dir.1 <+: entry.1 →
    ¬ Issues sha fuel peer w metadata entry → ¬ MetaSet.is_shallow_copy peer.context entry.2 →
      w'.HasEntry entry.1
  disk : ∀ entry ∈ metadata, (w.stores peer.disk).files.exists_at entry.1 →
    (w'.stores peer.disk).files.exists_at entry.1

variable {sha} {P : World → Prop} {uri q : Path} {w w' : World} {fuel : Nat} {self : Peer}
    {metadata : List (Path × MetaSet)}

/-! ## One turn -/

/-- A response has no references. -/
theorem dir_not_shallow_copy {status : StatusCode} {records : MetaSet}
    (h : dir sha w uri = some (status, records)) (self : Node) :
    ¬ MetaSet.is_shallow_copy self records := by
  obtain ⟨node, -, hdir⟩ := Option.map_eq_some_iff.mp h
  rintro ⟨-, m, hm, n, hn, -⟩
  have hnone : ∀ m ∈ records, m.node_ref = none := by
    unfold meta_dir at hdir
    split at hdir
    · cases hdir
      simp
    split at hdir
    · cases hdir
      simp
    · cases hdir
      intro m hm
      obtain ⟨x, -, rfl⟩ := List.mem_map.mp (MetaSet.mem_of_list hm)
      rfl
  rw [hnone m (List.mem_of_mem_head? hm)] at hn
  cases hn

theorem untrack_cases {entry : Path × MetaSet} (h : untrack sha fuel self w entry = some w') :
    (MetaSet.is_shallow_copy self.context entry.2 ∨ (w.stores self.disk).files.exists_at entry.1) ∧ w' = w ∨
      Untracks sha self w entry ∧ ignored (facade_del sha fuel w entry.1 true) = some w' := by
  obtain ⟨uri, metadata⟩ := entry
  unfold untrack at h
  dsimp only at h
  split at h
  · rename_i hskip
    cases h
    exact Or.inl ⟨hskip, rfl⟩
  · rename_i hskip
    obtain ⟨hshallow, hmissing⟩ := not_or.mp hskip
    obtain ⟨⟨status, records⟩, hdir, h⟩ := Option.bind_eq_some_iff.mp h
    have hnot := dir_not_shallow_copy hdir self.context
    dsimp only at h
    rw [if_pos (Or.inr hnot)] at h
    exact Or.inr ⟨⟨hshallow, hmissing, status, records, hdir, Or.inr hnot⟩, h⟩

/-- A recursive deletion stays below its uri. -/
theorem sweeps_below
    (hentry : ∀ w u q, uri <+: q → P w →
    P (w.set u { w.stores u with metadata := (w.stores u).metadata.erase q }))
    (hfile : ∀ w u q, uri <+: q → P w → P (w.set u { w.stores u with files := (w.stores u).files.erase q }))
    (hlisting : ∀ w u p listing, P w → p ∈ (w.stores u).metadata →
      P (w.set u { w.stores u with metadata := (w.stores u).metadata.insert p listing })) :
    Sweeps true (uri <+: ·) P := by
  have hmeta : ∀ (p : Path) (records : MetaSet) (fuel : Nat) (v : World) (node : Node) (o : Options), P v →
      After P (meta_del fuel v node p records o) := by
    intro p records fuel v node o hv
    refine meta_del_after (fun _ => True) ?_ fuel v node records o (fun _ _ => trivial) hv
    intro w u current names hw hcurrent _
    exact hlisting w u p _ hw (AList.lookup_isSome.mp (by rw [hcurrent]; rfl))
  refine ⟨hentry, hfile, ?_, ?_, ?_⟩
  · intro w u q metadata _ _ _ _ fuel v node o hv
    exact hmeta _ _ fuel v node o hv
  · intro q _ _ fuel v node o hv
    exact hmeta _ _ fuel v node o hv
  · intro _ w u q metadata hq _ _ m _ _
    exact hq.trans (List.prefix_append q [m.name])

theorem Sweeps.facade_del (h : Sweeps true (uri <+: ·) P) (hw : P w)
    (hcall : ignored (facade_del sha fuel w uri true) = some w') :
    P w' := by
  unfold Fs.facade_del at hcall
  refine after_ignored (after_bind fun node _ => ?_) hcall
  exact h.del fuel uri w node {} (List.prefix_refl uri) hw

/-- The paths of a disk. -/
def PathsOf (u : Uuid) (files : Files) (w : World) : Prop := ∀ p, p ∈ (w.stores u).files ↔ p ∈ files

theorem sweeps_paths {u : Uuid} {files : Files} (hfiles : files.Closed) (huri : uri ∉ files) :
    Sweeps true (uri <+: ·) (PathsOf u files) := by
  have hset : ∀ {w : World} {v : Uuid} {store : Store}, PathsOf u files w →
      (u = v → ∀ p, p ∈ store.files ↔ p ∈ (w.stores v).files) → PathsOf u files (w.set v store) := by
    intro w v store hw hstore p
    rcases eq_or_ne u v with rfl | hne
    · rw [set_stores_self, hstore rfl p]
      exact hw p
    · rw [set_stores_of_ne hne]
      exact hw p
  refine sweeps_below (fun w v q _ hw => hset hw fun _ _ => Iff.rfl) (fun w v q hq hw => hset hw ?_)
    (fun w v p listing hw _ => hset hw fun _ _ => Iff.rfl)
  rintro rfl p
  rw [AList.mem_erase, and_iff_right_iff_imp]
  rintro hp rfl
  exact huri (hfiles.mem_of_prefix ((hw p).mp hp) hq)

theorem sweeps_entry {ring : List Node} {u : Uuid} (h : ¬ uri <+: q) :
    Sweeps true (uri <+: ·) (EntryAt ring u q) := by
  refine sweeps_below (fun w v r hr hw => hw.set fun _ hq => AList.mem_erase.mpr ⟨?_, hq⟩)
    (fun w v r _ hw => hw.set_files v _)
      (fun w v p listing hw _ => hw.set fun _ hq => (AList.mem_insert _).mpr (Or.inr hq))
  rintro rfl
  exact h hr

/-! ## The first loop -/

theorem untrack_paths {files : Files} (hfiles : files.Closed) (hw : PathsOf self.disk files w)
    {entry : Path × MetaSet} (h : untrack sha fuel self w entry = some w') : PathsOf self.disk files w' := by
  rcases untrack_cases h with ⟨-, rfl⟩ | ⟨⟨-, hmissing, -⟩, hdel⟩
  · exact hw
  · have huri : entry.1 ∉ files := fun hmem => hmissing ((hw entry.1).mpr hmem)
    exact (sweeps_paths hfiles huri).facade_del hw hdel

/-- What is above a path of the disk is on the disk, and is not deleted. -/
theorem untrack_entry {files : Files} {ring : List Node} {u : Uuid} (hfiles : files.Closed) (hq : q ∈ files)
    (hw : PathsOf self.disk files w) {entry : Path × MetaSet} (h : untrack sha fuel self w entry = some w')
    (hentry : EntryAt ring u q w) : EntryAt ring u q w' := by
  rcases untrack_cases h with ⟨-, rfl⟩ | ⟨⟨-, hmissing, -⟩, hdel⟩
  · exact hentry
  · have habove : ¬ entry.1 <+: q :=
      fun hunder => hmissing ((hw entry.1).mpr (hfiles.mem_of_prefix hq hunder))
    exact (sweeps_entry habove).facade_del hentry hdel

theorem untracked {files : Files} (hfiles : files.Closed) (hw : PathsOf self.disk files w)
    (h : metadata.foldlM (untrack sha fuel self) w = some w') : PathsOf self.disk files w' :=
  foldlM_keeps (fun _ _ _ _ hv hcall => untrack_paths hfiles hv hcall) hw h

theorem untracked_entry {files : Files} {ring : List Node} {u : Uuid} (hfiles : files.Closed) (hq : q ∈ files)
    (hw : PathsOf self.disk files w) (hentry : EntryAt ring u q w)
    (h : metadata.foldlM (untrack sha fuel self) w = some w') :
    EntryAt ring u q w' := by
  have hkeeps : ∀ v e v', e ∈ metadata → PathsOf self.disk files v ∧ EntryAt ring u q v →
      untrack sha fuel self v e = some v' →
      PathsOf self.disk files v' ∧ EntryAt ring u q v' := by
    rintro v e v' - ⟨hv, hentry⟩ hcall
    exact ⟨untrack_paths hfiles hv hcall, untrack_entry hfiles hq hv hcall hentry⟩
  exact (foldlM_keeps hkeeps ⟨hw, hentry⟩ h).2

/-- The test for shallow copies in the answer of the owner keeps nothing from being deleted. -/
theorem issues_iff (hclosed : (w.stores self.disk).files.Closed)
    (h : metadata.foldlM (untrack sha fuel self) w = some w') {entry : Path × MetaSet} :
    Issues sha fuel self w metadata entry ↔
      entry ∈ metadata ∧ ¬ MetaSet.is_shallow_copy self.context entry.2 ∧
        ¬ (w.stores self.disk).files.exists_at entry.1 := by
  have hstart : PathsOf self.disk (w.stores self.disk).files w := fun _ => Iff.rfl
  constructor
  · rintro ⟨before, after, v, rfl, hv, hshallow, hmissing, -⟩
    have hpaths := untracked hclosed hstart hv
    exact ⟨by simp, hshallow, fun hexists => hmissing ((hpaths entry.1).mpr hexists)⟩
  · rintro ⟨hmem, hshallow, hmissing⟩
    obtain ⟨before, after, rfl⟩ := List.append_of_mem hmem
    rw [List.foldlM_append] at h
    obtain ⟨v, hv, h⟩ := Option.bind_eq_some_iff.mp h
    obtain ⟨v', hturn, -⟩ := Option.bind_eq_some_iff.mp h
    have hpaths := untracked hclosed hstart hv
    rcases untrack_cases hturn with ⟨hskip, -⟩ | ⟨huntracks, -⟩
    · rcases hskip with hskip | hexists
      · exact absurd hskip hshallow
      · exact absurd ((hpaths entry.1).mp hexists) hmissing
    · exact ⟨before, after, v, rfl, hv, huntracks⟩

/-! ## The second loop -/

/-- The steps of `put_file_journal`. -/
structure Tracks (sha : Sha256) (u : Uuid) (uri : Path) (P : World → Prop) : Prop where
  moved : ∀ w journal, P w →
    P (w.set u { w.stores u with files := (w.stores u).files.erase uri, journal := journal })
  journal : ∀ w journal, P w → P (w.set u { w.stores u with journal := journal })
  put : ∀ target s, Writes sha target s false P

theorem EntryAt.tracks (ring : List Node) (u v : Uuid) (q : Path) : Tracks sha v uri (EntryAt ring u q) where
  moved _ _ hw := hw.set fun _ hq => hq
  journal _ _ hw := hw.set fun _ hq => hq
  put _ _ := ⟨fun _ x files hw _ => hw.set_files x files, EntryAt.adds, by simp⟩

theorem PathAt.tracks {u : Uuid} (h : uri ≠ q) : Tracks sha u uri (PathAt u q) where
  moved _ _ hw := hw.set fun _ hq => AList.mem_erase.mpr ⟨h.symm, hq⟩
  journal _ _ hw := hw.set fun _ hq => hq
  put _ _ := ⟨fun _ _ _ hw hreceived => hw.set fun _ hq => (hreceived.mem q).1 hq,
    fun _ _ _ _ hw => hw.set fun _ hq => hq, by simp⟩

namespace Tracks

theorem put_file (h : Tracks sha self.disk uri P) (hw : P w) (target : Path) (bytes : Bytes)
    (replication : Replication) :
    After P (put_file sha fuel self w target bytes replication) := by
  unfold Fs.put_file
  refine after_bind fun node _ => ?_
  unfold client_put
  split
  · exact after_some hw _
  · exact (h.put target node.uuid).put fuel hw node bytes rfl

theorem put_file_journal (h : Tracks sha self.disk uri P) (hw : P w) {bytes : Bytes}
    (hcall : put_file_journal sha fuel self w uri bytes = some w') : P w' := by
  have hdone : ∀ v status, P v → some (if status = StatusCode.OK then
      v.set self.disk { v.stores self.disk with journal := (v.stores self.disk).journal.erase uri }
        else v) = some w' → P w' := by
    intro v status hv hsome
    split at hsome
    · cases hsome
      exact h.journal v _ hv
    · cases hsome
      exact hv
  unfold Fs.put_file_journal at hcall
  extract_lets store w₁ at hcall
  have h₁ : P w₁ := h.moved w _ hw
  obtain ⟨⟨status, records⟩, -, hcall⟩ := Option.bind_eq_some_iff.mp hcall
  dsimp only at hcall
  split at hcall
  · obtain ⟨target, -, hcall⟩ := Option.bind_eq_some_iff.mp hcall
    obtain ⟨⟨v, status'⟩, hput, hcall⟩ := Option.bind_eq_some_iff.mp hcall
    exact hdone v status' (h.put_file h₁ _ _ _ v status' hput) hcall
  · split at hcall
    · obtain ⟨target, -, hcall⟩ := Option.bind_eq_some_iff.mp hcall
      obtain ⟨⟨v, status'⟩, hput, hcall⟩ := Option.bind_eq_some_iff.mp hcall
      exact hdone v status' (h.put_file h₁ _ _ _ v status' hput) hcall
    · cases hcall

theorem track (h : uri ∉ metadata.map Prod.fst → Tracks sha self.disk uri P) (hw : P w)
    (hcall : track sha fuel self metadata w uri = some w') : P w' := by
  unfold Fs.track at hcall
  split at hcall
  · split at hcall
    · cases hcall
      exact hw
    · rename_i hnew
      exact (h hnew).put_file_journal hw hcall
  · cases hcall
    exact hw

end Tracks

/-- What stays in the first loop stays in `initialize`, where the files of new uris do not matter. -/
theorem initialize_keeps (hkeeps : ∀ v, metadata.foldlM (untrack sha fuel self) w = some v → P v)
    (htracks : ∀ uri, uri ∉ metadata.map Prod.fst → Tracks sha self.disk uri P)
    (h : initialize_data sha fuel self w metadata = some w') : P w' := by
  unfold initialize_data at h
  obtain ⟨v, hv, h⟩ := Option.bind_eq_some_iff.mp h
  dsimp only at h
  split at h
  · exact foldlM_keeps (fun _ uri _ _ hz hcall => Tracks.track (htracks uri) hz hcall) (hkeeps v hv) h
  · cases h
    exact hkeeps _ hv

theorem initialize_entry {ring : List Node} {u : Uuid} (hclosed : (w.stores self.disk).files.Closed)
    (hq : (w.stores self.disk).files.exists_at q) (hentry : EntryAt ring u q w)
    (h : initialize_data sha fuel self w metadata = some w') : EntryAt ring u q w' :=
  initialize_keeps (fun _ hv => untracked_entry hclosed hq (fun _ => Iff.rfl) hentry hv)
    (fun _ _ => EntryAt.tracks ring u self.disk q) h

/-- The file of an entry stays on the disk. -/
theorem initialize_path (hclosed : (w.stores self.disk).files.Closed) {entry : Path × MetaSet}
    (hentry : entry ∈ metadata) (hq : (w.stores self.disk).files.exists_at entry.1)
    (h : initialize_data sha fuel self w metadata = some w') :
    PathAt self.disk entry.1 w' := by
  refine initialize_keeps (P := PathAt self.disk entry.1) (fun v hv => ?_)
    (fun uri huri => PathAt.tracks ?_) h
  · exact (untracked hclosed (fun _ => Iff.rfl) hv entry.1).mpr hq
  · rintro rfl
    exact huri (List.mem_map.mpr ⟨entry, hentry, rfl⟩)

/-! ## The callback -/

theorem initialize_of_update {a b : Node} {w₁ : World} (hb : b ≠ a)
    (hrebalance : rebalance sha fuel .PREDECESSOR_UPDATE (Peer.of a) w (w.stores a.uuid).metadata.get_all =
    some w₁)
    (hupdate : on_predecessor_update sha fuel (Peer.of a) a b w = some w') :
    initialize_data sha fuel (Peer.of a) w₁ (w.stores a.uuid).metadata.get_all = some w' := by
  unfold on_predecessor_update at hupdate
  obtain ⟨v, hv, hupdate⟩ := Option.bind_eq_some_iff.mp hupdate
  obtain rfl := Option.some.inj (hrebalance.symm.trans hv)
  rwa [if_pos ⟨rfl, hb⟩] at hupdate

theorem lookup_of_get_all {store : MetaStore} {entry : Path × MetaSet} (h : entry ∈ store.get_all) :
    store.lookup entry.1 = some entry.2 := by
  obtain ⟨p, hp, hentry⟩ := List.mem_filterMap.mp h
  obtain ⟨s, hs, rfl⟩ := Option.map_eq_some_iff.mp hentry
  exact hs

theorem get_all_nodup (store : MetaStore) : (store.get_all.map Prod.fst).Nodup := by
  unfold MetaStore.get_all
  rw [List.map_filterMap]
  refine List.Nodup.filterMap ?_ ((List.perm_insertionSort _ _).nodup_iff.mpr store.nodupKeys)
  intro p q r hp hq
  obtain ⟨entry, hentry, rfl⟩ := Option.map_eq_some_iff.mp hp
  obtain ⟨s, -, rfl⟩ := Option.map_eq_some_iff.mp hentry
  obtain ⟨entry, hentry, heq⟩ := Option.map_eq_some_iff.mp hq
  obtain ⟨t, -, rfl⟩ := Option.map_eq_some_iff.mp hentry
  exact heq.symm

/-- What is on the disk of a listing when the callback starts is there when `initialize` starts. -/
theorem rebalance_path_iff {a : Node} {event : RebalanceEvent} {w₁ : World}
    (hdisk : (w.stores a.uuid).files.Closed)
    (hrebalance : rebalance sha fuel event (Peer.of a) w (w.stores a.uuid).metadata.get_all = some w₁)
    {entry : Path × MetaSet} (hentry : entry ∈ (w.stores a.uuid).metadata.get_all)
    (hdot : MetaSet.HasDot entry.2) :
    (w.stores a.uuid).files.exists_at entry.1 ↔ (w₁.stores a.uuid).files.exists_at entry.1 := by
  constructor
  · intro hpath
    have hlisting : ListingAt (Peer.of a).disk entry.1 w := ⟨hpath, entry.2, lookup_of_get_all hentry, hdot⟩
    exact rebalance_keeps_path hentry (get_all_nodup _) hdot.is_directory hlisting hrebalance
  · exact @rebalance_no_other sha w w₁ fuel event (Peer.of a) _ hdisk hrebalance entry.1

end

/-- The first join deletes a directory, unless the disk of the node has the path of every listing. An
entry that is neither a file nor a listing has to keep its path when it is rebalanced. -/
theorem first_join_spares_iff (sha : Sha256) (fuel : Nat) {a b : Node} {w w₁ w' : World} (ha : a ∈ w.ring)
    (hb : b ≠ a) (hdisk : (w.stores a.uuid).files.Closed)
    (hrebalance : rebalance sha fuel .PREDECESSOR_UPDATE (Peer.of a) w (w.stores a.uuid).metadata.get_all =
    some w₁)
    (hupdate : on_predecessor_update sha fuel (Peer.of a) a b w = some w') :
    Spares sha fuel (Peer.of a) w₁ (w.stores a.uuid).metadata.get_all w' ↔
      ∀ entry ∈ (w.stores a.uuid).metadata.get_all, ¬ MetaSet.is_regular_file entry.2 →
        ((if MetaSet.HasDot entry.2 then w else w₁).stores a.uuid).files.exists_at entry.1 := by
  have hinit := initialize_of_update hb hrebalance hupdate
  have hclosed : (w₁.stores (Peer.of a).disk).files.Closed := rebalance_closed hdisk hrebalance
  obtain ⟨v, hv, -⟩ := Option.bind_eq_some_iff.mp hinit
  -- what is on the disk keeps its entry
  have hkeeps : ∀ entry ∈ (w.stores a.uuid).metadata.get_all, (w₁.stores a.uuid).files.exists_at entry.1 →
      w'.HasEntry entry.1 := by
    intro entry hentry hexists
    have hmem : entry.1 ∈ (w.stores a.uuid).metadata :=
      AList.lookup_isSome.mp (by rw [lookup_of_get_all hentry]; rfl)
    obtain ⟨n, hn, hat⟩ := rebalance_has_entry ha rfl ⟨a, ha, hmem⟩ hrebalance
    exact EntryAt.has_entry (initialize_entry hclosed hexists ⟨rfl, hat⟩ hinit) hn
  have hsame : ∀ entry ∈ (w.stores a.uuid).metadata.get_all,
      ((if MetaSet.HasDot entry.2 then w else w₁).stores a.uuid).files.exists_at entry.1 ↔
        (w₁.stores a.uuid).files.exists_at entry.1 := by
    intro entry hentry
    split
    · rename_i hdot
      exact rebalance_path_iff hdisk hrebalance hentry hdot
    · exact Iff.rfl
  constructor
  · intro hspares entry hentry hregular
    rw [hsame entry hentry]
    by_contra hmissing
    have hshallow : ¬ MetaSet.is_shallow_copy a entry.2 := fun h => hregular h.1
    exact hregular (hspares.file entry ((issues_iff hclosed hv).mpr ⟨hentry, hshallow, hmissing⟩)).1
  · intro hall
    have hpresent : ∀ entry ∈ (w.stores a.uuid).metadata.get_all, ¬ MetaSet.is_regular_file entry.2 →
        (w₁.stores a.uuid).files.exists_at entry.1 :=
      fun entry hentry hregular => (hsame entry hentry).mp (hall entry hentry hregular)
    refine ⟨fun entry hissues => ?_, fun entry hentry hdirectory => ?_,
      fun _ _ _ entry hentry _ hnot hshallow => ?_,
      fun entry hentry hexists => initialize_path hclosed hentry hexists hinit⟩
    · obtain ⟨hentry, hshallow, hmissing⟩ := (issues_iff hclosed hv).mp hissues
      refine ⟨?_, hmissing, hshallow⟩
      by_contra hregular
      exact hmissing (hpresent entry hentry hregular)
    · exact hkeeps entry hentry (hpresent entry hentry hdirectory.not_is_regular_file)
    · refine hkeeps entry hentry ?_
      by_contra hmissing
      exact hnot ((issues_iff hclosed hv).mpr ⟨hentry, hshallow, hmissing⟩)

/-- A directory that exists only as metadata when the node joins is deleted. -/
theorem only_metadata_is_deleted (sha : Sha256) (fuel : Nat) {a b : Node} {w w₁ w' : World} (hb : b ≠ a)
    (hdisk : (w.stores a.uuid).files.Closed)
    (hrebalance : rebalance sha fuel .PREDECESSOR_UPDATE (Peer.of a) w (w.stores a.uuid).metadata.get_all =
    some w₁)
    (hupdate : on_predecessor_update sha fuel (Peer.of a) a b w = some w') {entry : Path × MetaSet}
    (hentry : entry ∈ (w.stores a.uuid).metadata.get_all) (hregular : ¬ MetaSet.is_regular_file entry.2)
    (hmissing : ¬ (w.stores a.uuid).files.exists_at entry.1) :
    Issues sha fuel (Peer.of a) w₁ (w.stores a.uuid).metadata.get_all entry := by
  have hinit := initialize_of_update hb hrebalance hupdate
  obtain ⟨v, hv, -⟩ := Option.bind_eq_some_iff.mp hinit
  have hclosed : (w₁.stores (Peer.of a).disk).files.Closed := rebalance_closed hdisk hrebalance
  have hother := @rebalance_no_other sha w w₁ fuel .PREDECESSOR_UPDATE (Peer.of a) _ hdisk hrebalance
  exact (issues_iff hclosed hv).mpr
    ⟨hentry, fun hshallow => hregular hshallow.1, fun hexists => hmissing (hother entry.1 hexists)⟩

/-- A second member with an empty disk. -/
def World.joined (w : World) : World :=
  { w with ring := w.ring ++ [⟨20, ['b']⟩], up := w.up ++ [⟨20, ['b']⟩] }

/-- A lone node has the file `/d/f`. -/
def World.lone_file : World :=
  ((put_file ⟨fun _ => 5, fun _ => 0⟩ 6 (Peer.of ⟨10, ['a']⟩) World.one [['d'], ['f']] [1] ⟨0, 1⟩).getD
    (World.one, .OK)).1

/-- A lone node has the directory `/d`, which nobody has put a file into. -/
def World.lone_directory : World :=
  ((mkdir ⟨fun _ => 5, fun _ => 0⟩ 6 World.one [['d']] ⟨0, 1⟩).getD (World.one, .OK)).1

theorem closed_of_keys {files : Files}
    (h : ∀ p ∈ files.keys, p ≠ [] → files.lookup (parent_path p) = some .directory) :
    files.Closed := fun p hp => h p (AList.mem_keys.mp hp)

theorem first_join_spares_file :
    ∃ w₁ w', rebalance ⟨fun _ => 5, fun _ => 0⟩ 6 .PREDECESSOR_UPDATE (Peer.of ⟨10, ['a']⟩)
      World.lone_file.joined (World.lone_file.joined.stores 10).metadata.get_all = some w₁ ∧
    on_predecessor_update ⟨fun _ => 5, fun _ => 0⟩ 6 (Peer.of ⟨10, ['a']⟩) ⟨10, ['a']⟩
      ⟨20, ['b']⟩ World.lone_file.joined = some w' ∧
    Spares ⟨fun _ => 5, fun _ => 0⟩ 6 (Peer.of ⟨10, ['a']⟩) w₁
      (World.lone_file.joined.stores 10).metadata.get_all w' := by
  refine ⟨_, _, rfl, rfl,
    (first_join_spares_iff ⟨fun _ => 5, fun _ => 0⟩ 6 (a := ⟨10, ['a']⟩) (b := ⟨20, ['b']⟩) (by decide)
    (by decide) (closed_of_keys (by decide)) rfl rfl).mpr ?_⟩
  decide

theorem made_directory_is_deleted :
    ¬ ∀ (sha : Sha256) (fuel : Nat) (a b : Node) (w w₁ w' : World), a ∈ w.ring → b ≠ a →
    (w.stores a.uuid).files.Closed →
    rebalance sha fuel .PREDECESSOR_UPDATE (Peer.of a) w (w.stores a.uuid).metadata.get_all = some w₁ →
    on_predecessor_update sha fuel (Peer.of a) a b w = some w' →
    Spares sha fuel (Peer.of a) w₁ (w.stores a.uuid).metadata.get_all w' := by
  intro h
  have hspares := h ⟨fun _ => 5, fun _ => 0⟩ 6 ⟨10, ['a']⟩ ⟨20, ['b']⟩ World.lone_directory.joined _ _
      (by decide) (by decide)
    (closed_of_keys (by decide)) rfl rfl
  have hentry := hspares.directory
      ([['d']], ((World.lone_directory.stores 10).metadata.lookup [['d']]).getD []) (by decide) (by decide)
  exact absurd hentry (by decide)

end Fs

end Chord
