import Chord.Fs.Above
import Chord.Fs.Facade
import Mathlib.Data.List.Infix

/-!
# Where a file goes

The owner of the uri and the nodes that follow it, one copy each.
-/

open Circle

namespace Chord

namespace Fs

/-! ## One disk -/

/-- No component of the directory is a regular file. -/
def Writable (store : Store) (uri : Path) : Prop :=
  ∀ p, p <+: parent_path uri → ∀ bytes, store.files.lookup p ≠ some (.regular bytes)

/-- Neither the file nor a record of it. -/
def Clear (store : Store) (uri : Path) : Prop :=
  store.files.lookup uri = none ∧ store.metadata.lookup uri = none

/-- The file and its record. -/
def Stored (sha : Sha256) (store : Store) (uri : Path) (bytes : Bytes) (replication : Replication) : Prop :=
  store.files.lookup uri = some (.regular bytes) ∧
    store.metadata.lookup uri = some [file_record sha uri bytes replication]

namespace Files

theorem create_each_cons {files made : Files} {d : Path} {ds : List Path}
    (h : files.create_each (d :: ds) = some made) :
    ∃ next : Files, next.create_each ds = some made ∧ next.lookup d = some .directory ∧
      ∀ q ≠ d, next.lookup q = files.lookup q := by
  rw [create_each] at h
  split at h
  · exact ⟨_, h, AList.lookup_insert _, fun q hq => AList.lookup_insert_ne hq⟩
  · rename_i hdir
    exact ⟨files, h, hdir, fun _ _ => rfl⟩
  · cases h

/-- The directories are there, and everything else is as it was. -/
theorem create_each_some {files made : Files} {ds : List Path} (h : files.create_each ds = some made) :
    (∀ d ∈ ds, made.lookup d = some .directory) ∧ ∀ q ∉ ds, made.lookup q = files.lookup q := by
  induction ds generalizing files with
  | nil =>
    cases h
    exact ⟨by simp, fun _ _ => rfl⟩
  | cons d ds ih =>
    obtain ⟨next, hnext, hdir, hother⟩ := create_each_cons h
    obtain ⟨hin, hout⟩ := ih hnext
    refine ⟨fun q hq => ?_, fun q hq => ?_⟩
    · by_cases hqds : q ∈ ds
      · exact hin q hqds
      · obtain rfl := (List.mem_cons.mp hq).resolve_right hqds
        rw [hout q hqds, hdir]
    · rw [hout q fun h => hq (List.mem_cons_of_mem _ h), hother q fun h => hq (h ▸ List.mem_cons_self)]

theorem create_each_isSome {files : Files} {ds : List Path}
    (h : ∀ d ∈ ds, ∀ bytes, files.lookup d ≠ some (.regular bytes)) :
    ∃ made, files.create_each ds = some made := by
  induction ds generalizing files with
  | nil => exact ⟨files, rfl⟩
  | cons d ds ih =>
    obtain ⟨hd, hds⟩ := List.forall_mem_cons.mp h
    rw [create_each]
    split
    · refine ih fun q hq bytes => ?_
      rcases eq_or_ne q d with rfl | hne
      · simp
      · rw [AList.lookup_insert_ne hne]
        exact hds q hq bytes
    · exact ih hds
    · rename_i bytes hlookup
      exact absurd hlookup (hd bytes)

/-- The data directory with the parent of `uri` in it. -/
def with_parent (files : Files) (uri : Path) : Option Files :=
  if files.exists_at (parent_path uri) then some files else files.create_directories (parent_path uri)

end Files

theorem with_parent_spec {store : Store} {uri : Path} (huri : uri ≠ []) (h : Writable store uri) :
    ∃ files, store.files.with_parent uri = some files ∧ files.lookup (parent_path uri) = some .directory ∧
      files.lookup uri = store.files.lookup uri := by
  unfold Files.with_parent
  split
  · rename_i hexists
    refine ⟨store.files, rfl, ?_, rfl⟩
    obtain ⟨e, he⟩ := Option.isSome_iff_exists.mp (AList.lookup_isSome.mpr hexists)
    cases e with
    | regular bytes => exact absurd he (h _ (List.prefix_refl _) bytes)
    | directory => exact he
  · obtain ⟨files, hfiles⟩ := Files.create_each_isSome
      fun d (hd : d ∈ (parent_path uri).inits) => h d ((List.mem_inits _ _).mp hd)
    obtain ⟨hin, hout⟩ := Files.create_each_some hfiles
    refine ⟨files, hfiles, hin _ ((List.mem_inits _ _).mpr (List.prefix_refl _)), hout _ fun hmem => ?_⟩
    exact parent_path_not_below huri ((List.mem_inits _ _).mp hmem)

section

variable (sha : Sha256)

/-- The disk after a file and its record are written. -/
def place (uri : Path) (bytes : Bytes) (replication : Replication) (store : Store) : Store :=
  { store with
    files := (((store.files.with_parent uri).getD store.files).create_file uri).insert uri (.regular bytes)
    metadata := (store.metadata.add uri [file_record sha uri bytes replication]).1 }

theorem place_stored {uri : Path} (huri : FilePath uri) (bytes : Bytes) (replication : Replication)
    {store : Store} (h : Clear store uri) :
    Stored sha (place sha uri bytes replication store) uri bytes replication := by
  obtain ⟨-, hdot, -⟩ : filename uri ≠ [] ∧ filename uri ≠ ['.'] ∧ filename uri ≠ ['.', '.'] := by
    refine huri.2 _ ?_
    rw [filename, List.getLastD_eq_getLast?, List.getLast?_eq_some_getLast huri.1]
    exact List.getLast_mem huri.1
  refine ⟨AList.lookup_insert _, ?_⟩
  have hname : ['.'] ∉ [file_record sha uri bytes replication].map Metadata.name := by
    simpa [file_record] using Ne.symm hdot
  simp only [place, MetaStore.add, h.2, Option.getD_none, List.foldl_cons, List.foldl_nil,
    MetaSet.insert_or_assign,
    if_neg hname]
  exact AList.lookup_insert _

/-- The files that `put` receives on a disk that has no such file. -/
theorem receive_clear {store : Store} {uri : Path} (hclear : Clear store uri) (bytes : Bytes)
    {files : Files} (hparent : files.lookup (parent_path uri) = some .directory)
    (hfile : files.lookup uri = none) :
    receive sha store uri bytes files = ((files.create_file uri).insert uri (.regular bytes), true) := by
  have hnot : ¬ files.exists_at uri := by
    rw [Files.exists_at, ← AList.lookup_isSome, hfile]
    simp
  have hhash : ¬ file_hashes_equal store uri (sha.content bytes) := by
    rw [file_hashes_equal, hclear.2]
    simp
  have hcreated : (files.create_file uri).lookup uri = some (.regular []) := by
    rw [Files.create_file, if_pos hparent]
    exact AList.lookup_insert _
  simp only [receive, if_neg hnot, if_neg hhash, Files.write, hcreated]

/-- The disk after a file is received that is on it as `stored`. -/
def written (uri : Path) (files : Files) (stored : Bytes) (replication : Replication) (store : Store) :
    Store :=
  { store with files := files, metadata := (store.metadata.add uri [file_record sha uri stored replication]).1 }

/-- A file that is received: its record, the parent, the next copy. -/
theorem put_received {fuel : Nat} {w : World} {self : Node} {uri : Path} {bytes stored : Bytes}
    {made files : Files} {o : Options} (hup : self ∈ w.up) (hsource : o.source ≠ some self.uuid)
    (hrebalance : o.rebalance = false) (hmade : (w.stores self.uuid).files.with_parent uri = some made)
    (hreceive : receive sha (w.stores self.uuid) uri bytes made = (files, true))
    (hstored : files.lookup uri = some (.regular stored)) :
    put sha (fuel + 1) w self uri bytes o =
      (if o.replication.index = 0 then
        (w.successor (sha.uri (parent_path uri))).bind fun node =>
          ignored (meta_add sha fuel
            (w.set self.uuid (written sha uri files stored o.replication (w.stores self.uuid))) node
              (parent_path uri)
            (parent_listing (file_record sha uri stored o.replication)) o)
      else some (w.set self.uuid (written sha uri files stored o.replication (w.stores self.uuid)))).bind
        fun w =>
        (if o.replication.next.active then
          (w.successor self.uuid).bind fun node => ignored (client_put (put sha fuel) self w node uri stored
            (init_source self { o with replication := o.replication.next }))
        else some w).bind fun w => some (w, .OK) := by
  rw [put]
  simp only [if_neg (not_not_intro hup), if_neg hsource]
  rw [Files.with_parent] at hmade
  simp only [hmade, hreceive, hstored, hrebalance, Bool.false_eq_true, false_and, if_false,
    Option.bind_eq_bind, bind_ite, Option.bind_assoc, Option.bind_some]
  rfl

/-- A node that has no such file: the file, the parent, the next copy. -/
theorem put_accepted {fuel : Nat} {w : World} {self : Node} {uri : Path} {bytes : Bytes} {o : Options}
    (huri : uri ≠ []) (hup : self ∈ w.up) (hsource : o.source ≠ some self.uuid)
    (hrebalance : o.rebalance = false) (hclear : Clear (w.stores self.uuid) uri)
    (hdisk : Writable (w.stores self.uuid) uri) :
    put sha (fuel + 1) w self uri bytes o =
      (if o.replication.index = 0 then
        (w.successor (sha.uri (parent_path uri))).bind fun node =>
          ignored (meta_add sha fuel
            (w.set self.uuid (place sha uri bytes o.replication (w.stores self.uuid))) node (parent_path uri)
            (parent_listing (file_record sha uri bytes o.replication)) o)
      else some (w.set self.uuid (place sha uri bytes o.replication (w.stores self.uuid)))).bind fun w =>
        (if o.replication.next.active then
          (w.successor self.uuid).bind fun node => ignored (client_put (put sha fuel) self w node uri bytes
            (init_source self { o with replication := o.replication.next }))
        else some w).bind fun w => some (w, .OK) := by
  obtain ⟨files, hfiles, hparent, hfile⟩ := with_parent_spec huri hdisk
  have hreceive := receive_clear sha hclear bytes hparent (hfile.trans hclear.1)
  have hplace : place sha uri bytes o.replication (w.stores self.uuid) =
      written sha uri ((files.create_file uri).insert uri (.regular bytes)) bytes o.replication
        (w.stores self.uuid) := by
    rw [place, hfiles]
    rfl
  rw [hplace]
  exact put_received sha hup hsource hrebalance hfiles hreceive (AList.lookup_insert _)

/-! ## All disks -/

open World

variable {w : World} {uri : Path} {bytes : Bytes} {k : UInt32}

theorem put_relayed {s : Node} {l : List Node} {i fuel : Nat} {x : Node} (huri : uri ≠ []) (hi : 0 < i)
    (hik : i < k.toNat) (hfuel : l.length < fuel) (hx : (l ++ [s]).head? = some x)
    (hchain : (l ++ [s]).IsChain fun a b => w.successor a.uuid = some b)
    (hl : (l ++ [s]).Pairwise fun x y => x.uuid ≠ y.uuid) (hup : ∀ x ∈ l, x ∈ w.up)
    (hready : ∀ x ∈ l.take (k.toNat - i), Clear (w.stores x.uuid) uri ∧ Writable (w.stores x.uuid) uri) :
    ignored (put sha fuel w x uri bytes { replication := .copy k i, source := some s.uuid }) =
      some (at_each (fun i => place sha uri bytes (.copy k i)) i (l.take (k.toNat - i)) w) := by
  refine relayed _ (fun i store => 0 < i ∧ Clear store uri ∧ Writable store uri)
    (fun fuel w x i => ignored
      (put sha fuel w x uri bytes { replication := .copy k i, source := some s.uuid }))
    ?_ ?_ hik hfuel hx hchain hl hup fun j x hx => ⟨by omega, hready x (List.mem_of_getElem? hx)⟩
  · rintro fuel w x y i hup hxs - hik ⟨hi, hclear, hdisk⟩ hnext
    have hindex : (Replication.copy k i).index ≠ 0 := Replication.index_copy_ne_zero hi hik
    have hne : some s.uuid ≠ some x.uuid := fun h => hxs (Option.some.inj h).symm
    rw [put_accepted sha huri hup hne rfl hclear hdisk]
    simp only [if_neg hindex, Option.bind_some, Replication.next_copy_active (by omega : i < max 1 k.toNat)]
    split
    · rw [set_successor, hnext, Option.bind_some, client_put, if_neg (fun h => hne h.2),
        Replication.next_copy]
      exact ignored_bind_some _ _
    · rfl
  · intro fuel w i
    by_cases hs : s ∈ w.up <;> simp [put, hs, ignored]

/-- The copies after the one at the owner. -/
theorem put_copies (bytes : Bytes) (k : UInt32) {id : Uuid} {x : Node} {rest : List Node} {fuel : Nat}
    (hw : w.Exact) (hl : w.clockwise id = x :: rest) (huri : uri ≠ []) (hfuel : w.ring.length < fuel)
    (hready : ∀ y ∈ rest.take (k.toNat - 1), Clear (w.stores y.uuid) uri ∧ Writable (w.stores y.uuid) uri) :
    (if (Replication.copy k 0).next.active then
      (w.successor x.uuid).bind fun node => ignored (client_put (put sha fuel) x w node uri bytes
        (init_source x { replication := (Replication.copy k 0).next }))
    else some w) = some (at_each (fun i => place sha uri bytes (.copy k i)) 1
      (rest.take (k.toNat - 1)) w) := by
  rw [if_congr (Replication.next_copy_active (by omega)) rfl rfl]
  split
  · rename_i hk
    have hlength : rest.length < w.ring.length := by
      rw [← w.length_clockwise id, hl]
      exact Nat.lt_succ_self _
    obtain ⟨y, hy, hsucc, hchain⟩ := hw.tail_chain hl
    rw [hsucc, Option.bind_some, client_put, Replication.next_copy]
    split
    · rename_i hself
      rw [hw.alone hl (hself.1 ▸ hy), List.take_nil]
      rfl
    · exact put_relayed sha huri Nat.one_pos hk (by omega) hy hchain (hw.pairwise hl)
        (fun z hz => hw.up z (mem_clockwise.mp (hl ▸ List.mem_cons_of_mem _ hz))) hready
  · rename_i hk
    have hzero : k.toNat - 1 = 0 := by omega
    rw [hzero, List.take_zero]
    rfl

theorem Clear.above {store store' : Store} (h : Clear store uri) (ha : store.Above (parent_path uri) store')
    (huri : uri ≠ []) : Clear store' uri :=
  ⟨by rw [ha.files, h.1], by rw [ha.metadata _ (parent_path_not_below huri), h.2]⟩

theorem Stored.above {store store' : Store} {r : Replication} (h : Stored sha store uri bytes r)
    (ha : store.Above (parent_path uri) store') (huri : uri ≠ []) : Stored sha store' uri bytes r :=
  ⟨by rw [ha.files, h.1], by rw [ha.metadata _ (parent_path_not_below huri), h.2]⟩

section

variable {x : Node} {rest : List Node} {w₁ : World}

/-- The ring after the file is at the owner and in the listing of its parent. -/
theorem put_stores_above (hw : w.Exact) (hl : w.clockwise (sha.uri uri) = x :: rest)
    (h₁ : (w.set x.uuid (place sha uri bytes (.copy k 0) (w.stores x.uuid))).Above (parent_path uri) w₁) :
    ∀ y ∈ rest, (w.stores y.uuid).Above (parent_path uri) (w₁.stores y.uuid) := by
  intro y hy
  have hne : y.uuid ≠ x.uuid := (List.pairwise_append.mp (hw.pairwise hl)).2.2 y hy x List.mem_cons_self
  have habove := h₁.stores y.uuid
  rwa [set_stores_of_ne hne] at habove

theorem put_file_eq (self : Peer) {node : Node} {fuel : Nat} (hw : w.Exact) (huri : uri ≠ [])
    (hl : w.clockwise (sha.uri uri) = x :: rest) (hclear : ∀ n ∈ w.ring, Clear (w.stores n.uuid) uri)
    (hdisk : ∀ n ∈ (w.clockwise (sha.uri uri)).take (max 1 k.toNat), Writable (w.stores n.uuid) uri)
    (hfuel : w.ring.length < fuel) (hnode : w.successor (sha.uri (parent_path uri)) = some node)
    (hparent : ignored (meta_add sha fuel
    (w.set x.uuid (place sha uri bytes (.copy k 0) (w.stores x.uuid))) node
      (parent_path uri) (parent_listing (file_record sha uri bytes (.copy k 0)))
        { replication := .copy k 0 }) = some w₁)
    (h₁ : (w.set x.uuid (place sha uri bytes (.copy k 0) (w.stores x.uuid))).Above (parent_path uri) w₁) :
    put_file sha (fuel + 1) self w uri bytes ⟨0, k⟩ =
      some (at_each (fun i => place sha uri bytes (.copy k i)) 1 (rest.take (k.toNat - 1)) w₁, .OK) := by
  obtain ⟨c, hc⟩ : ∃ c, max 1 k.toNat = c + 1 := ⟨max 1 k.toNat - 1, by omega⟩
  rw [hl, hc, List.take_succ_cons] at hdisk
  have hmem : ∀ y ∈ x :: rest, y ∈ w.ring := fun y hy => mem_clockwise.mp (hl ▸ hy)
  have hx := hmem x List.mem_cons_self
  have hput : put_file sha (fuel + 1) self w uri bytes ⟨0, k⟩ =
      put sha (fuel + 1) w x uri bytes { replication := .copy k 0 } := by
    rw [put_file, hw.successor_owner hl, Option.bind_eq_bind, Option.bind_some, client_put, if_neg (by simp)]
    rfl
  have hstores := put_stores_above sha hw hl h₁
  have hcopies := put_copies sha bytes k (h₁.exact (hw.of_ring rfl rfl))
    (by rw [clockwise_congr h₁.ring, ← hl]; rfl) huri (by rw [h₁.ring]; exact hfuel) fun y hy => by
      have hyr := List.mem_of_mem_take hy
      have hydisk := hdisk y (List.mem_cons_of_mem _ (by rwa [show c = k.toNat - 1 by omega]))
      refine ⟨(hclear y (hmem y (List.mem_cons_of_mem _ hyr))).above (hstores y hyr) huri,
        fun p hp bytes => ?_⟩
      rw [(hstores y hyr).files]
      exact hydisk p hp bytes
  rw [hput, put_accepted sha huri (hw.up x hx) (by simp) rfl (hclear x hx) (hdisk x List.mem_cons_self),
    if_pos (by simp [Replication.copy]), hnode, Option.bind_some, hparent, Option.bind_some]
  exact congrArg (Option.bind · _) hcopies

/-- The stores of all members after a file is put. -/
theorem put_stored (hw : w.Exact) (huri : FilePath uri) (hl : w.clockwise (sha.uri uri) = x :: rest)
    (hclear : ∀ n ∈ w.ring, Clear (w.stores n.uuid) uri)
    (h₁ : (w.set x.uuid (place sha uri bytes (.copy k 0) (w.stores x.uuid))).Above (parent_path uri) w₁)
    {j : Nat} {n : Node} (hn : (x :: rest)[j]? = some n) :
    let w' := at_each (fun i => place sha uri bytes (.copy k i)) 1 (rest.take (k.toNat - 1)) w₁
    if j < max 1 k.toNat then Stored sha (w'.stores n.uuid) uri bytes (.copy k j)
    else Clear (w'.stores n.uuid) uri := by
  intro w'
  have hmem : ∀ y ∈ x :: rest, y ∈ w.ring := fun y hy => mem_clockwise.mp (hl ▸ hy)
  have hpair := hw.pairwise hl
  cases j with
  | zero =>
    cases hn
    have hdistinct : ∀ y ∈ rest.take (k.toNat - 1), y.uuid ≠ x.uuid := fun y hy =>
      (List.pairwise_append.mp hpair).2.2 y (List.mem_of_mem_take hy) x List.mem_cons_self
    have hplace := place_stored sha huri bytes (.copy k 0) (hclear x (hmem x List.mem_cons_self))
    have habove := h₁.stores x.uuid
    rw [set_stores_self] at habove
    rw [if_pos (by omega), at_each_stores_of_ne hdistinct]
    exact hplace.above sha habove huri.1
  | succ j =>
    rw [List.getElem?_cons_succ] at hn
    have hnr := List.mem_of_getElem? hn
    have hnclear := (hclear n (hmem n (List.mem_cons_of_mem _ hnr))).above
        (put_stores_above sha hw hl h₁ n hnr) huri.1
    rw [at_each_take_stores (List.pairwise_append.mp hpair).1 hn, Nat.add_comm 1 j]
    by_cases hj : j < k.toNat - 1
    · rw [if_pos (by omega), if_pos hj]
      exact place_stored sha huri bytes _ hnclear
    · rw [if_neg (by omega), if_neg hj]
      exact hnclear

end

end

/-- Three members with empty disks. -/
def World.three : World where
  ring := [⟨10, ['a']⟩, ⟨20, ['b']⟩, ⟨30, ['c']⟩]
  up := [⟨10, ['a']⟩, ⟨20, ['b']⟩, ⟨30, ['c']⟩]
  stores _ := .fresh 1

theorem writable_fresh (c : UInt32) (uri : Path) : Writable (Store.fresh c) uri := by
  intro p _ bytes
  rw [Store.fresh]
  rcases eq_or_ne p [] with rfl | hp
  · rw [AList.lookup_insert]
    simp
  · rw [AList.lookup_insert_ne hp]
    simp

theorem World.three_exact : World.three.Exact := ⟨by decide, by decide, by decide⟩

end Fs

end Chord
