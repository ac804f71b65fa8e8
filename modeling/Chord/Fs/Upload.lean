import Chord.Fs.Updates

/-!
# What a put leaves on the node itself

The copies and the last deletion of a put stay away from the node that was asked, until they are at the
node where the request started.
-/

open Circle

namespace Chord

namespace Fs

open World

section

variable {sha : Sha256} {P : World → Prop} {uri : Path} {s : Uuid} {region : Uuid → Prop}

/-! ## Copies in a region of the ring -/

/-- The steps of a put that the node `s` started, among the nodes of a region. -/
structure WritesIn (sha : Sha256) (uri : Path) (s : Uuid) (region : Uuid → Prop) (rebalance : Bool)
  (P : World → Prop) : Prop where
  file : ∀ w u files, u ≠ s → region u → P w → Received sha uri (w.stores u) files →
    P (w.set u { w.stores u with files := files })
  written : ∀ w u files stored replication, u ≠ s → region u → P w → Received sha uri (w.stores u) files →
    P (w.set u (written sha uri files stored replication (w.stores u)))
  parent : ∀ w w', P w → w.Above (parent_path uri) w' → P w'
  next : ∀ w x node, x ≠ s → region x → P w → w.successor x = some node → region node.uuid
  removes : rebalance = true → RemovesIn uri s region P

theorem WritesIn.put_rest {o : Options} (h : WritesIn sha uri s region o.rebalance P) (fuel : Nat) {w : World}
    (hw : P w) {self : Node}
    (hput : ∀ (v : World) (node : Node) (bytes : Bytes) (o' : Options), region node.uuid →
    o'.source = some s →
      o'.rebalance = o.rebalance → P v → After P (put sha fuel v node uri bytes o'))
    (hnext : ∀ v node, P v → v.successor self.uuid = some node → region node.uuid)
    (ho : o.source.getD self.uuid = s) (stored : Bytes) :
    After P (put_rest sha fuel self uri stored o w) := by
  refine put_rest_after hw (fun v node z hv hz => ?_) (fun v node z hv hnode hz => ?_)
    fun hrebalance v node z hv hnode hz => ?_
  · exact h.parent v z hv (meta_add_only_above hz)
  · exact after_ignored (hput v node stored _ (hnext v node hv hnode) (started_by ho _) rfl hv) hz
  · exact after_ignored ((h.removes hrebalance).del fuel hv (hnext v node hv hnode) (started_by ho _)) hz

theorem WritesIn.put {o : Options} (h : WritesIn sha uri s region o.rebalance P) (fuel : Nat) {w : World}
    (hw : P w) {self : Node} (hregion : region self.uuid) (bytes : Bytes) (ho : o.source = some s) :
    After P (put sha fuel w self uri bytes o) := by
  induction fuel generalizing w self bytes o with
  | zero => exact after_none
  | succ fuel ih =>
    intro w' status hcall
    by_cases hself : self.uuid = s
    · have hsource : o.source = some self.uuid := by rw [ho, hself]
      rw [Fs.put] at hcall
      dsimp only at hcall
      split at hcall
      · cases hcall
        exact hw
      · cases hcall
        exact hw
    rcases put_split hcall with rfl | ⟨files, hfiles, rfl | ⟨stored, hrest⟩⟩
    · exact hw
    · exact h.file w self.uuid files hself hregion hw hfiles
    · refine h.put_rest fuel (h.written w self.uuid files stored o.replication hself hregion hw hfiles)
        (fun v node bytes o' hnode ho' hrebalance hv => ?_)
          (fun v node hv hnode => h.next v self.uuid node hself hregion hv hnode)
        (by rw [ho]; rfl) stored w' status hrest
      exact ih (hrebalance ▸ h) hv hnode bytes ho'

end

/-! ## The node itself -/

/-- The references of a region lead into it. -/
def References (region : Uuid → Prop) (s : Uuid) (uri : Path) (w : World) : Prop :=
  ∀ x, x ≠ s → region x → ∀ metadata ∈ (w.stores x).metadata.lookup uri, ∀ m ∈ metadata, ∀ node ∈ m.node_ref,
    region node.uuid

/-- The file and the entry of one disk are those of `w`. -/
structure Undisturbed (u s : Uuid) (uri : Path) (region : Uuid → Prop) (rebalance : Bool)
  (w v : World) : Prop where
  ring : v.ring = w.ring
  file : (v.stores u).files.lookup uri = (w.stores u).files.lookup uri
  entry : SameEntry u uri w v
  references : rebalance = true → References region s uri v

section

variable {sha : Sha256} {uri : Path} {self s : Uuid} {region : Uuid → Prop} {rebalance : Bool} {w v : World}

theorem Undisturbed.set (h : Undisturbed self s uri region rebalance w v) {u : Uuid} {store : Store}
    (hu : u ≠ self) (href : ∀ metadata ∈ store.metadata.lookup uri, ∀ m ∈ metadata, ∀ node ∈ m.node_ref,
      ∃ old ∈ (v.stores u).metadata.lookup uri, ∃ x ∈ old, x.node_ref = some node) :
    Undisturbed self s uri region rebalance w (v.set u store) := by
  refine ⟨h.ring, ?_, ?_, fun hrebalance x hx hregion metadata hmetadata m hm node hnode => ?_⟩
  · rw [set_stores_of_ne hu.symm, h.file]
  · rw [SameEntry, set_stores_of_ne hu.symm, h.entry]
  · by_cases hxu : x = u
    · subst hxu
      rw [set_stores_self] at hmetadata
      obtain ⟨old, hold, y, hy, href⟩ := href metadata hmetadata m hm node hnode
      exact h.references hrebalance x hx hregion old hold y hy node href
    · rw [set_stores_of_ne hxu] at hmetadata
      exact h.references hrebalance x hx hregion metadata hmetadata m hm node hnode

theorem references_of_same {store store' : Store}
    (h : store'.metadata.lookup uri = store.metadata.lookup uri) :
    ∀ metadata ∈ store'.metadata.lookup uri, ∀ m ∈ metadata, ∀ node ∈ m.node_ref,
      ∃ old ∈ store.metadata.lookup uri, ∃ x ∈ old, x.node_ref = some node := by
  intro metadata hmetadata m hm node hnode
  exact ⟨metadata, by rw [← h]; exact hmetadata, m, hm, hnode⟩

/-- The record of a put has no reference. -/
theorem references_of_written (store : Store) (files : Files) (stored : Bytes) (replication : Replication) :
    ∀ metadata ∈ (written sha uri files stored replication store).metadata.lookup uri, ∀ m ∈ metadata,
      ∀ node ∈ m.node_ref,
      ∃ old ∈ store.metadata.lookup uri, ∃ x ∈ old, x.node_ref = some node := by
  intro metadata hmetadata m hm node hnode
  rw [written, MetaStore.lookup_add] at hmetadata
  cases hmetadata
  rcases MetaSet.mem_merged hm with (hm | hm) | rfl | rfl
  · rw [List.mem_singleton.mp hm] at hnode
    cases hnode
  · cases hold : store.metadata.lookup uri with
    | none =>
      rw [hold] at hm
      cases hm
    | some old =>
      rw [hold] at hm
      exact ⟨old, rfl, m, hm, hnode⟩
  · cases hnode
  · cases hnode

theorem Undisturbed.removes (haway : ∀ x, x ≠ s → region x → x ≠ self)
    (hnext : ∀ x node, x ≠ s → region x → w.successor x = some node → region node.uuid) :
    RemovesIn uri s region (Undisturbed self s uri region true w) where
  entry v u hu hregion hv := by
    refine hv.set (haway u hu hregion) fun metadata hmetadata => ?_
    rw [AList.lookup_erase] at hmetadata
    cases hmetadata
  file v u files hu hregion hv _ := hv.set (haway u hu hregion) (references_of_same rfl)
  next v x node hx hregion hv hnode := hnext x node hx hregion (by rw [← successor_congr hv.ring, hnode])
  reference v x metadata hx hregion hv hmetadata m hm node hnode :=
    hv.references rfl x hx hregion metadata hmetadata m hm node hnode

theorem Undisturbed.writes (huri : uri ≠ []) (haway : ∀ x, x ≠ s → region x → x ≠ self)
    (hnext : ∀ x node, x ≠ s → region x → w.successor x = some node → region node.uuid) :
    WritesIn sha uri s region rebalance (Undisturbed self s uri region rebalance w) where
  file v u files hu hregion hv _ := hv.set (haway u hu hregion) (references_of_same rfl)
  written v u files stored replication hu hregion hv _ :=
    hv.set (haway u hu hregion) (references_of_written (v.stores u) files stored replication)
  parent v v' hv habove := by
    have hbelow := parent_path_not_below huri
    refine ⟨habove.ring.trans hv.ring, ?_, ?_, fun hrebalance x hx hregion metadata hmetadata => ?_⟩
    · rw [(habove.stores self).files, hv.file]
    · rw [SameEntry, (habove.stores self).metadata uri hbelow, hv.entry]
    · rw [(habove.stores x).metadata uri hbelow] at hmetadata
      exact hv.references hrebalance x hx hregion metadata hmetadata
  next v x node hx hregion hv hnode := hnext x node hx hregion (by rw [← successor_congr hv.ring, hnode])
  removes hrebalance := by
    rw [hrebalance]
    exact Undisturbed.removes haway hnext

end

/-! ## The file that was sent -/

section

variable {sha : Sha256} {w w' : World} {uri : Path}

/-- A put that succeeds has written the file and its record before it goes on. -/
theorem put_succeeded {fuel : Nat} {self : Node} {bytes : Bytes} {o : Options}
    (h : put sha (fuel + 1) w self uri bytes o = some (w', .OK)) :
    ∃ made files stored, (w.stores self.uuid).files.with_parent uri = some made ∧
      receive sha (w.stores self.uuid) uri bytes made = (files, true) ∧
        files.lookup uri = some (.regular stored) ∧
      put_rest sha fuel self uri stored o
        (w.set self.uuid (written sha uri files stored o.replication (w.stores self.uuid))) =
          some (w', .OK) := by
  rw [put] at h
  dsimp only at h
  split at h
  · cases h
  split at h
  · cases h
  split at h
  · cases h
  rename_i made hmade
  split at h
  · cases h
  · rename_i files hreceive
    split at h
    · rename_i stored hstored
      exact ⟨made, files, stored, hmade, hreceive, hstored, h⟩
    · cases h

/-- Where the recorded hash is the one of the client, the file on the disk has the bytes, or the bytes are those of
the empty file that is made. -/
def UpToDate (sha : Sha256) (store : Store) (uri : Path) (bytes : Bytes) : Prop :=
  file_hashes_equal store uri (sha.content bytes) →
    store.files.lookup uri = some (.regular bytes) ∨ uri ∉ store.files ∧ bytes = []

theorem received_iff (huri : uri ≠ []) {store : Store} {made files : Files} {bytes stored : Bytes}
    (hmade : store.files.with_parent uri = some made)
    (hreceive : receive sha store uri bytes made = (files, true))
    (hstored : files.lookup uri = some (.regular stored)) :
    stored = bytes ↔ UpToDate sha store uri bytes := by
  have hsame : made.lookup uri = store.files.lookup uri := by
    unfold Files.with_parent at hmade
    split at hmade
    · cases hmade
      rfl
    · refine (Files.create_each_some hmade).2 uri fun hmem => ?_
      exact parent_path_not_below huri ((List.mem_inits _ _).mp hmem)
  unfold receive at hreceive
  dsimp only at hreceive
  split at hreceive
  · rename_i hhash
    cases hreceive
    have hiff : UpToDate sha store uri bytes ↔
        (store.files.lookup uri = some (.regular bytes) ∨ uri ∉ store.files ∧ bytes = []) :=
      ⟨fun h => h hhash, fun h _ => h⟩
    rw [hiff]
    split at hstored
    · rename_i hexists
      rw [hsame] at hstored
      have hmem : uri ∈ store.files := AList.lookup_isSome.mp (by rw [hstored]; rfl)
      simp [hstored, hmem]
    · rename_i hnew
      have hmem : uri ∉ store.files := by
        rw [← AList.lookup_eq_none, ← hsame, AList.lookup_eq_none]
        exact hnew
      unfold Files.create_file at hstored
      split at hstored
      · rw [AList.lookup_insert] at hstored
        cases hstored
        simp [hmem, AList.lookup_eq_none.mpr hmem, eq_comm]
      · rw [hsame, AList.lookup_eq_none.mpr hmem] at hstored
        cases hstored
  · rename_i hhash
    refine iff_of_true ?_ fun h => absurd h hhash
    split at hreceive
    · cases hreceive
    · rename_i hwrite
      cases hreceive
      unfold Files.write at hwrite
      split at hwrite
      · cases hwrite
        rw [AList.lookup_insert] at hstored
        cases hstored
        rfl
      · cases hwrite

/-- The file and a record with its hash. -/
def HoldsFile (sha : Sha256) (store : Store) (uri : Path) (bytes : Bytes) : Prop :=
  store.files.lookup uri = some (.regular bytes) ∧
    ∃ m, store.record uri (filename uri) = some m ∧ m.file_hash = some (sha.content bytes)

/-- Nothing that a put calls comes back to the node: a client has sent the file, or another member that copies it,
and if it is rebalanced no other disk has a reference in its entry. -/
def StaysAway (w : World) (self : Node) (uri : Path) (o : Options) : Prop :=
  o.source = none ∨ ∃ n ∈ w.ring, o.source = some n.uuid ∧ (o.rebalance = true → ∀ u, u ≠ self.uuid →
    ∀ metadata ∈ (w.stores u).metadata.lookup uri, ∀ m ∈ metadata, m.node_ref = none)

/-- What follows the writing of a file does not disturb it. -/
theorem StaysAway.undisturbed {self : Node} {o : Options} (h : StaysAway w self uri o) (huri : uri ≠ [])
    {fuel : Nat} {stored : Bytes} {store : Store}
    (hrest : put_rest sha fuel self uri stored o (w.set self.uuid store) = some (w', .OK)) :
    ∃ s region, Undisturbed self.uuid s uri region o.rebalance (w.set self.uuid store) w' := by
  obtain ⟨w₁, hw₁⟩ : ∃ w₁, w.set self.uuid store = w₁ := ⟨_, rfl⟩
  have hring : w₁.ring = w.ring := by rw [← hw₁, set_ring]
  have hstores : ∀ u, u ≠ self.uuid → w₁.stores u = w.stores u :=
    fun u hu => by rw [← hw₁, set_stores_of_ne hu]
  rw [hw₁] at hrest ⊢
  obtain ⟨s, region, ho, haway, hnext, hfirst, hreferences⟩ : ∃ (s : Uuid) (region : Uuid → Prop),
      o.source.getD self.uuid = s ∧ (∀ x, x ≠ s → region x → x ≠ self.uuid) ∧
      (∀ x node, x ≠ s → region x → w₁.successor x = some node → region node.uuid) ∧
      (∀ node, w₁.successor self.uuid = some node → region node.uuid) ∧
      (o.rebalance = true → References region s uri w₁) := by
    rcases h with hnone | ⟨n, hn, hsome, hrefs⟩
    · exact ⟨self.uuid, fun _ => True, by rw [hnone]; rfl, fun x hx _ => hx, fun _ _ _ _ _ => trivial, fun _ _ => trivial,
        fun _ _ _ _ _ _ _ _ _ _ => trivial⟩
    · have hlt : ∀ x, x ≠ n.uuid → steps (self.uuid + 1) x ≤ steps (self.uuid + 1) n.uuid →
          steps (self.uuid + 1) x < steps (self.uuid + 1) n.uuid :=
        fun x hx hle => lt_of_le_of_ne hle (mt steps_inj.mp hx)
      have haway : ∀ x, x ≠ n.uuid → steps (self.uuid + 1) x ≤ steps (self.uuid + 1) n.uuid →
          x ≠ self.uuid := by
        rintro x hx hle rfl
        have hlast := hlt _ hx hle
        have hbound := steps_lt (self.uuid + 1) n.uuid
        rw [steps_succ, if_pos rfl] at hlast
        omega
      refine ⟨n.uuid, fun x => steps (self.uuid + 1) x ≤
        steps (self.uuid + 1) n.uuid, by rw [hsome]; rfl, haway,
        fun x node hx hle hnode => next_before (hring ▸ hn) hnode (hlt x hx hle), fun node hnode => ?_, ?_⟩
      · have hfirst : FirstAfter Node.uuid w₁.ring self.uuid node := firstAfter_argmin hnode
        exact hfirst.2 n (hring ▸ hn)
      · intro hrebalance x hx hle metadata hmetadata m hm node hnode
        rw [hstores x (haway x hx hle)] at hmetadata
        rw [hrefs hrebalance x (haway x hx hle) metadata hmetadata m hm] at hnode
        cases hnode
  have hwrites : WritesIn sha uri s region o.rebalance (Undisturbed self.uuid s uri region o.rebalance w₁) :=
    Undisturbed.writes huri haway hnext
  refine ⟨s, region, hwrites.put_rest fuel ⟨rfl, rfl, rfl, hreferences⟩
    (fun v node bytes o' hnode ho' hrebalance hv => ?_)
    (fun v node hv hnode => hfirst node ?_) ho stored w' .OK hrest⟩
  · have hcopies : WritesIn sha uri s region o'.rebalance
      (Undisturbed self.uuid s uri region o.rebalance w₁) := by
      rw [hrebalance]
      exact hwrites
    exact hcopies.put fuel hv hnode bytes ho'
  · rw [← successor_congr hv.ring, hnode]

/-- After a put that succeeds, the node has the file that was sent and a record with its hash, exactly where its
own file was up to date if the upload was skipped. -/
theorem put_stores_sent_iff (sha : Sha256) {fuel : Nat} {self : Node} {bytes : Bytes} {o : Options}
    (huri : FilePath uri) (haway : StaysAway w self uri o)
    (hcall : put sha fuel w self uri bytes o = some (w', .OK)) :
    HoldsFile sha (w'.stores self.uuid) uri bytes ↔ UpToDate sha (w.stores self.uuid) uri bytes := by
  cases fuel with
  | zero => cases hcall
  | succ fuel =>
    obtain ⟨made, files, stored, hmade, hreceive, hstored, hrest⟩ := put_succeeded hcall
    obtain ⟨s, region, hsame⟩ := haway.undisturbed huri.1 hrest
    have hfile : (w'.stores self.uuid).files.lookup uri = some (.regular stored) := by
      rw [hsame.file, set_stores_self, written, hstored]
    have hrecord : (w'.stores self.uuid).record uri (filename uri) =
        some (file_record sha uri stored o.replication) := by
      have hadded := @record_add { w.stores self.uuid with files := files } uri
          [file_record sha uri stored o.replication]
        (filename uri) huri.named (List.pairwise_singleton _ _)
      rw [Store.record, hsame.entry, set_stores_self]
      refine hadded.trans ?_
      simp [file_record]
    rw [← received_iff huri.1 hmade hreceive hstored, HoldsFile, hfile, hrecord]
    constructor
    · rintro ⟨hbytes, -⟩
      cases hbytes
      rfl
    · rintro rfl
      exact ⟨rfl, _, rfl, rfl⟩

end

theorem put_stores_sent_iff_three :
    ∃ w', put ⟨fun _ => 5, fun _ => 0⟩ 6 World.three ⟨10, ['a']⟩ [['f']] [1, 2] {} = some (w', .OK) ∧
    (HoldsFile ⟨fun _ => 5, fun _ => 0⟩ (w'.stores 10) [['f']] [1, 2] ↔
      UpToDate ⟨fun _ => 5, fun _ => 0⟩ (World.three.stores 10) [['f']] [1, 2]) := by
  obtain ⟨w', hcall⟩ : ∃ w', put ⟨fun _ => 5, fun _ => 0⟩ 6 World.three ⟨10, ['a']⟩ [['f']] [1, 2] {} =
      some (w', .OK) := ⟨_, rfl⟩
  exact ⟨w', hcall, put_stores_sent_iff ⟨fun _ => 5, fun _ => 0⟩ (by unfold FilePath; decide)
    (Or.inl rfl) hcall⟩

/-- The hash is recorded, and the bytes are on another disk: an empty file is made, and nothing is sent. -/
theorem skipped_upload_leaves_empty_file :
    ¬ ∀ (sha : Sha256) (fuel : Nat) (w w' : World) (self : Node) (uri : Path)
    (bytes : Bytes) (o : Options), FilePath uri → (∀ b, sha.content b = sha.content bytes → b = bytes) →
    StaysAway w self uri o →
    put sha fuel w self uri bytes o = some (w', .OK) → HoldsFile sha (w'.stores self.uuid) uri bytes := by
  intro h
  have hinj : ∀ b : Bytes, (if b = [1] then 7 else 0 : Uuid) = (if ([1] : Bytes) = [1] then 7 else 0) →
      b = [1] := by
    intro b hb
    by_contra hne
    rw [if_neg hne] at hb
    exact absurd hb (by decide)
  obtain ⟨hfile, -⟩ := h ⟨fun _ => 5, fun b => if b = [1] then 7 else 0⟩ 6 World.three_referenced _
      ⟨10, ['a']⟩ [['f']] [1] {}
    (by unfold FilePath; decide) hinj (Or.inl rfl) rfl
  have hempty : some (Entry.regular []) = some (Entry.regular [1]) := hfile
  exact absurd hempty (by decide)

end Fs

end Chord
