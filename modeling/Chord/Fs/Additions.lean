import Chord.Fs.Deletion
import Chord.Fs.Facade
import Chord.Fs.Grow

/-!
# What a put keeps

A record is added, a file is written, and a rebalanced file is deleted where its copy is too much.
A property of all disks that these steps keep is kept by the whole call.
-/

namespace Chord

namespace Fs

open World

section

variable {sha : Sha256} {P : World → Prop} {uri : Path} {s : Uuid}

/-! ## New records -/

def Adds (P : World → Prop) : Prop :=
  ∀ w u p entry, P w → P (w.set u { w.stores u with metadata := ((w.stores u).metadata.add p entry).1 })

theorem Adds.meta_add (h : Adds P) (fuel : Nat) {w : World} (hw : P w) (self : Node) (p : Path)
    (records : MetaSet) (o : Options) : After P (meta_add sha fuel w self p records o) := by
  induction fuel generalizing w self p records o with
  | zero => exact after_none
  | succ fuel ih =>
    unfold Fs.meta_add
    extract_lets metadata store entry w₁ next done copy
    have hcopy : ∀ v, P v → After P (copy v) := by
      intro v hv
      unfold copy
      split
      · exact after_bind fun node _ => after_bind fun z hz => after_some (after_ignored (ih hv _ _ _ _) hz) _
      · exact after_some hv _
    have h₁ : P w₁ := h w self.uuid p entry hw
    split
    · exact after_some hw _
    split
    · exact after_some hw _
    split
    · exact after_some hw _
    split
    · exact after_some hw _
    split
    · exact after_bind fun node _ => after_bind fun z hz => hcopy z (after_ignored (ih h₁ _ _ _ _) hz)
    · exact hcopy _ h₁

/-! ## The deletion of a copy -/

/-- The steps of a deletion that is not recursive, and that the node `s` started. -/
structure Removes (uri : Path) (s : Uuid) (P : World → Prop) : Prop where
  entry : ∀ w u, u ≠ s → P w → P (w.set u { w.stores u with metadata := (w.stores u).metadata.erase uri })
  file : ∀ w u files, u ≠ s → P w → (w.stores u).files.remove uri = some files →
    P (w.set u { w.stores u with files := files })

theorem Files.remove_regular {files : Files} {p : Path} (h : files.is_regular_file p) :
    files.remove p = some (files.erase p) := by
  unfold is_regular_file at h
  unfold remove
  split
  · rename_i hdir
    rw [hdir] at h
    cases h
  · rfl

theorem Files.remove_empty {files : Files} {p : Path} (h : files.is_empty p) :
    files.remove p = some (files.erase p) := by
  unfold remove
  split
  · exact if_pos h
  · rfl

/-- The same among the nodes of a region, which the next copies and the references do not leave. -/
structure RemovesIn (uri : Path) (s : Uuid) (region : Uuid → Prop) (P : World → Prop) : Prop where
  entry : ∀ w u, u ≠ s → region u → P w →
    P (w.set u { w.stores u with metadata := (w.stores u).metadata.erase uri })
  file : ∀ w u files, u ≠ s → region u → P w → (w.stores u).files.remove uri = some files →
    P (w.set u { w.stores u with files := files })
  next : ∀ w x node, x ≠ s → region x → P w → w.successor x = some node → region node.uuid
  reference : ∀ w x metadata, x ≠ s → region x → P w → (w.stores x).metadata.lookup uri = some metadata →
    ∀ m ∈ metadata, ∀ node ∈ m.node_ref, region node.uuid

/-- The steps of a deletion at the nodes that it may come to. -/
structure Walks (uri : Path) (allowed region : Uuid → Prop) (P : World → Prop) : Prop where
  entry : ∀ w u, allowed u → region u → P w →
    P (w.set u { w.stores u with metadata := (w.stores u).metadata.erase uri })
  file : ∀ w u files, allowed u → region u → P w → (w.stores u).files.remove uri = some files →
    P (w.set u { w.stores u with files := files })
  next : ∀ w x node, allowed x → region x → P w → w.successor x = some node → region node.uuid
  reference : ∀ w x metadata, allowed x → region x → P w → (w.stores x).metadata.lookup uri = some metadata →
    ∀ m ∈ metadata, ∀ node ∈ m.node_ref, region node.uuid

theorem RemovesIn.walks {region : Uuid → Prop} (h : RemovesIn uri s region P) : Walks uri (· ≠ s) region P :=
  ⟨h.entry, h.file, h.next, h.reference⟩

/-- A deletion of the path alone. A parent is named by the node where it starts, and no node works for
its own request. -/
theorem Walks.del {allowed region : Uuid → Prop} (h : Walks uri allowed region P) (fuel : Nat) {w : World}
    (hw : P w) {self : Node} (hregion : region self.uuid) {o : Options}
    (hallowed : ∀ u, o.source ≠ some u → allowed u)
    (hname : o.source = none → ∀ fuel v node p records o, P v → After P (meta_del fuel v node p records o)) :
    After P (del sha fuel w self uri false o) := by
  induction fuel generalizing w self o with
  | zero => exact after_none
  | succ fuel ih =>
    unfold Fs.del
    dsimp only
    split
    · exact after_some hw _
    split
    · exact after_some hw _
    rename_i hsource
    have hself : allowed self.uuid := hallowed self.uuid hsource
    -- the source of the next requests is this node where there was none
    have hinit : ∀ u, (init_source self o).source ≠ some u → allowed u := by
      intro u hu
      refine hallowed u fun ho => hu ?_
      rw [init_source_of_source ho, ho]
    have hinit_name : (init_source self o).source = none →
        ∀ fuel v node p records o, P v → After P (meta_del fuel v node p records o) := by
      rintro ⟨⟩
    have hnext : ∀ v, P v → ∀ node, v.successor self.uuid = some node → ∀ z,
        ignored (Fs.del sha fuel v node uri false (init_source self o)) = some z → P z := by
      intro v hv node hnode z hz
      exact after_ignored (ih hv (h.next v self.uuid node hself hregion hv hnode) hinit hinit_name) hz
    split
    · split
      · rename_i hregular
        exact after_some (h.file w self.uuid _ hself hregion hw (Files.remove_regular hregular)) _
      · exact after_some hw _
    rename_i metadata hlookup
    split
    · exact after_some hw _
    split
    · unfold handle_del_dir
      extract_lets files done parent entry
      have hparent : ∀ v, P v → After P (parent v) := by
        intro v hv
        unfold parent
        extract_lets store left
        have hleft : P left := by
          unfold left
          split
          · rename_i hempty
            exact h.file v self.uuid _ hself hregion hv (Files.remove_empty hempty)
          · exact hv
        split
        · rename_i hnone
          exact after_bind fun node _ => after_bind fun z hz =>
            after_some (after_ignored (hname hnone.1 _ _ _ _ _ _ hleft) hz) _
        · exact after_some hleft _
      have hentry : ∀ v, P v → After P (entry v) := by
        intro v hv
        unfold entry
        extract_lets store
        split
        · exact after_some hv _
        have hv := h.entry v self.uuid hself hregion hv
        split
        · refine after_bind fun node hnode => ?_
          split
          · exact after_bind fun z hz => hparent z (hnext _ hv node hnode z hz)
          · exact hparent _ hv
        · exact hparent _ hv
      split
      · exact after_some hw _
      rw [if_neg (by simp)]
      exact hentry w hw
    · unfold handle_del_file
      extract_lets store w₁ max_repl done parent file
      have hparent : ∀ v, P v → After P (parent v) := by
        intro v hv
        unfold parent
        split
        · rename_i hnone
          exact after_bind fun node _ => after_bind fun z hz =>
            after_some (after_ignored (hname hnone _ _ _ _ _ _ hv) hz) _
        · exact after_some hv _
      have hfile : ∀ v, P v → After P (file v) := by
        intro v hv
        unfold file
        dsimp only
        split
        · exact after_some hv _
        rename_i files hremove
        have hv := h.file v self.uuid files hself hregion hv hremove
        split
        · refine after_bind fun node hnode => ?_
          split
          · exact after_bind fun z hz => hparent z (hnext _ hv node hnode z hz)
          · exact hparent _ hv
        · exact hparent _ hv
      have h₁ : P w₁ := h.entry w self.uuid hself hregion hw
      split
      · rename_i node hnode
        obtain ⟨m, hm, href⟩ := Option.bind_eq_some_iff.mp hnode
        have hnode_region := h.reference w self.uuid metadata hself hregion hw hlookup m
          (List.mem_of_find?_eq_some hm) node href
        split
        · exact after_bind fun z hz => hfile z (after_ignored (ih h₁ hnode_region hinit hinit_name) hz)
        · exact hfile _ h₁
      · exact hfile _ h₁

theorem RemovesIn.del {region : Uuid → Prop} (h : RemovesIn uri s region P) (fuel : Nat) {w : World}
    (hw : P w) {self : Node} (hregion : region self.uuid) {o : Options} (ho : o.source = some s) :
    After P (del sha fuel w self uri false o) := by
  refine h.walks.del fuel hw hregion (fun u hu => ?_) fun hnone => ?_
  · rintro rfl
    exact hu ho
  · rw [ho] at hnone
    cases hnone

theorem Removes.del (h : Removes uri s P) (fuel : Nat) {w : World} (hw : P w) (self : Node) {o : Options}
    (ho : o.source = some s) : After P (del sha fuel w self uri false o) := by
  have hin : RemovesIn uri s (fun _ => True) P :=
    ⟨fun w u hu _ => h.entry w u hu, fun w u files hu _ => h.file w u files hu, fun _ _ _ _ _ _ _ => trivial,
      fun _ _ _ _ _ _ _ _ _ _ _ => trivial⟩
  exact hin.del fuel hw trivial ho

/-! ## A file with its copies -/

/-- What a node has on its disk after it was sent a file. -/
def Received (sha : Sha256) (uri : Path) (store : Store) (files : Files) : Prop :=
  ∃ made bytes received, store.files.with_parent uri = some made ∧
    receive sha store uri bytes made = (files, received)

/-- The steps of a put, and of the deletion after a rebalanced one. -/
structure Writes (sha : Sha256) (uri : Path) (s : Uuid) (rebalance : Bool) (P : World → Prop) : Prop where
  file : ∀ w u files, P w → Received sha uri (w.stores u) files →
    P (w.set u { w.stores u with files := files })
  record : Adds P
  removes : rebalance = true → Removes uri s P

/-- `Service::put` after the file is there with its record. -/
def put_rest (sha : Sha256) (fuel : Nat) (self : Node) (uri : Path) (stored : Bytes) (options : Options)
    (w : World) : Reply := do
  let w ←
    if options.replication.index = 0 then do
      let node ← w.successor (sha.uri (parent_path uri))
      ignored (meta_add sha fuel w node (parent_path uri)
        (parent_listing (file_record sha uri stored options.replication)) options)
    else some w
  let w ←
    if options.replication.next.active then do
      let node ← w.successor self.uuid
      ignored (client_put (put sha fuel) self w node uri stored
        (init_source self { options with replication := options.replication.next }))
    else some w
  let w ←
    if options.rebalance ∧ ¬ options.replication.has_next then do
      let node ← w.successor self.uuid
      let owner ← w.successor (sha.uri uri)
      if node ≠ owner then ignored (del sha fuel w node uri false (init_source self options)) else some w
    else some w
  some (w, .OK)

/-- What a request does: nothing, or only files change, or the file is there with its record. -/
theorem put_split {fuel : Nat} {w : World} {self : Node} {bytes : Bytes} {o : Options}
    {reply : World × StatusCode} (h : put sha (fuel + 1) w self uri bytes o = some reply) : reply.1 = w ∨
    ∃ files, Received sha uri (w.stores self.uuid) files ∧
      (reply.1 = w.set self.uuid { w.stores self.uuid with files := files } ∨
      ∃ stored, put_rest sha fuel self uri stored o
        (w.set self.uuid (written sha uri files stored o.replication (w.stores self.uuid))) =
          some reply) := by
  rw [put] at h
  dsimp only at h
  split at h
  · cases h
    exact Or.inl rfl
  split at h
  · cases h
    exact Or.inl rfl
  split at h
  · cases h
    exact Or.inl rfl
  rename_i made hmade
  split at h
  · rename_i files hreceive
    cases h
    exact Or.inr ⟨files, ⟨made, bytes, false, hmade, hreceive⟩, Or.inl rfl⟩
  · rename_i files hreceive
    refine Or.inr ⟨files, ⟨made, bytes, true, hmade, hreceive⟩, ?_⟩
    split at h
    · rename_i stored _
      exact Or.inr ⟨stored, h⟩
    · cases h
      exact Or.inl rfl

/-- What follows the file, from what the parent, the next copy and the last deletion do. -/
theorem put_rest_after {fuel : Nat} {w : World} {self : Node} {o : Options} {stored : Bytes} (hw : P w)
    (hparent : ∀ v node z, P v → ignored (meta_add sha fuel v node (parent_path uri)
      (parent_listing (file_record sha uri stored o.replication)) o) = some z → P z)
    (hcopy : ∀ v node z, P v → v.successor self.uuid = some node → ignored (put sha fuel v node uri stored
      (init_source self { o with replication := o.replication.next })) = some z → P z)
    (hdel : o.rebalance = true → ∀ v node z, P v → v.successor self.uuid = some node →
      ignored (del sha fuel v node uri false (init_source self o)) = some z → P z) :
    After P (put_rest sha fuel self uri stored o w) := by
  unfold Fs.put_rest
  extract_lets done last copy
  have hlast : ∀ v, P v → After P (last v) := by
    intro v hv
    unfold last
    split
    · rename_i hcond
      refine after_bind fun node hnode => after_bind fun owner _ => ?_
      split
      · exact after_bind fun z hz => after_some (hdel hcond.1 v node z hv hnode hz) _
      · exact after_some hv _
    · exact after_some hv _
  have hcopies : ∀ v, P v → After P (copy v) := by
    intro v hv
    unfold copy
    split
    · refine after_bind fun node hnode => after_bind fun z hz => hlast z ?_
      unfold client_put at hz
      split at hz
      · cases hz
        exact hv
      · exact hcopy v node z hv hnode hz
    · exact hlast v hv
  split
  · exact after_bind fun node _ => after_bind fun z hz => hcopies z (hparent w node z hw hz)
  · exact hcopies w hw

/-- Every call for another copy names the node that started the put. -/
theorem started_by {o : Options} {self : Node} (ho : o.source.getD self.uuid = s) (r : Replication) :
    (init_source self { o with replication := r }).source = some s :=
  congrArg some ho

theorem Writes.put_rest {o : Options} (h : Writes sha uri s o.rebalance P) (fuel : Nat) {w : World} (hw : P w)
    {self : Node} (hput : ∀ (v : World) (node : Node) (bytes : Bytes) (o' : Options), o'.source = some s →
    o'.rebalance = o.rebalance → P v →
      After P (put sha fuel v node uri bytes o'))
    (ho : o.source.getD self.uuid = s) (stored : Bytes) :
    After P (put_rest sha fuel self uri stored o w) := by
  refine put_rest_after hw (fun v node z hv hz => ?_) (fun v node z hv _ hz => ?_) fun hrebalance v node z hv
    _ hz => ?_
  · exact after_ignored (h.record.meta_add fuel hv _ _ _ _) hz
  · exact after_ignored (hput v node stored _ (started_by ho _) rfl hv) hz
  · exact after_ignored ((h.removes hrebalance).del fuel hv node (started_by ho _)) hz

theorem Writes.written {rebalance : Bool} (h : Writes sha uri s rebalance P) {w : World} (hw : P w) {u : Uuid}
    {files : Files} (hfiles : Received sha uri (w.stores u) files) (stored : Bytes)
    (replication : Replication) :
    P (w.set u (written sha uri files stored replication (w.stores u))) := by
  have hrecord := h.record _ u uri [file_record sha uri stored replication] (h.file w u files hw hfiles)
  rwa [set_set, set_stores_self] at hrecord

theorem Writes.put {o : Options} (h : Writes sha uri s o.rebalance P) (fuel : Nat) {w : World} (hw : P w)
    (self : Node) (bytes : Bytes) (ho : o.source.getD self.uuid = s) :
    After P (put sha fuel w self uri bytes o) := by
  induction fuel generalizing w self bytes o with
  | zero => exact after_none
  | succ fuel ih =>
    intro w' status hcall
    rcases put_split hcall with rfl | ⟨files, hfiles, rfl | ⟨stored, hrest⟩⟩
    · exact hw
    · exact h.file w self.uuid files hw hfiles
    · refine h.put_rest fuel (h.written hw hfiles stored o.replication)
        (fun v node bytes o' ho' hrebalance hv => ?_) ho stored
        w' status hrest
      exact ih (hrebalance ▸ h) hv node bytes (by rw [ho']; rfl)

end

end Fs

end Chord
