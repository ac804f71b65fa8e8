import Chord.Fs.Overwrite
import Chord.Fs.Recover
import Chord.Lib.Simulation
import Mathlib.Algebra.Order.BigOperators.Group.List
import Mathlib.Algebra.Order.Group.Nat

/-!
# What the file service is for

The nodes of a ring hold one map from paths to files together. A put sets a path, a deletion
removes it, and a `get` reads it. Which node asks makes no difference.
-/

open Circle

namespace Chord

namespace Fs

open World

/-! ## The map -/

/-- The bytes of a file, and how many copies there are to be. -/
structure File where
  bytes : Bytes
  count : UInt32

abbrev Contents := Path → Option File

inductive Command where
  | put (self : Peer) (uri : Path) (bytes : Bytes) (count : UInt32)
  | del (uri : Path) (recursive : Bool)
  | get (uri : Path)

def Command.uri : Command → Path
  | .put _ uri _ _ => uri
  | .del uri _ => uri
  | .get uri => uri

/-- What a client sees of a command. -/
inductive Outcome where
  | status (code : StatusCode)
  | content (answer : Get.Answer)

section

variable (sha : Sha256)

def read : Option File → Get.Answer
  | none => .failed
  | some file => .streamed file.bytes

def Contents.perform (m : Contents) : Command → Contents × Outcome
  | .put _ uri bytes count =>
    (Function.update m uri (some ⟨kept sha ((m uri).map File.bytes) bytes, count⟩), .status .OK)
  | .del uri _ =>
    match m uri with
    | none => (m, .status .UNKNOWN)
    | some _ => (Function.update m uri none, .status .OK)
  | .get uri => (m, .content (read (m uri)))

/-- The same on the disks of the nodes. -/
def World.perform (fuel : Nat) (w : World) : Command → Option (World × Outcome)
  | .put self uri bytes count => do
    let (w, status) ← put_file sha fuel self w uri bytes ⟨0, count⟩
    some (w, .status status)
  | .del uri recursive => do
    let (w, status) ← facade_del sha fuel w uri recursive
    some (w, .status status)
  | .get uri => do
    let (w, answer) ← Get.get_file sha uri fuel w
    some (w, .content answer)

/-! ## The copies of one path -/

/-- What copy number `j` of a file is on a disk. -/
def CopyAt (store : Store) (uri : Path) (j : Nat) : Option File → Prop
  | none => Clear store uri
  | some file =>
    if j < max 1 file.count.toNat then Stored sha store uri file.bytes (.copy file.count j)
      else Clear store uri

/-- The owner of the uri and the nodes after it have the copies, and no other node has one. -/
def Spread (w : World) (uri : Path) (file : Option File) : Prop :=
  ∀ j n, (w.clockwise (sha.uri uri))[j]? = some n → CopyAt sha (w.stores n.uuid) uri j file

variable {sha} {w w' : World} {uri : Path} {file : Option File} {store store' : Store} {j : Nat}

theorem CopyAt.owner (h : CopyAt sha store uri 0 file) : Holding sha store uri (file.map File.bytes) := by
  cases file with
  | none => exact h
  | some file =>
    rw [CopyAt, if_pos (by omega)] at h
    exact ⟨_, h⟩

/-- What a copy is put over. -/
theorem CopyAt.holding (h : CopyAt sha store uri j file) :
    Holding sha store uri none ∨ Holding sha store uri (file.map File.bytes) := by
  cases file with
  | none => exact Or.inl h
  | some file =>
    rw [CopyAt] at h
    split at h
    · exact Or.inr ⟨_, h⟩
    · exact Or.inl h

/-- Beyond all counts there is nothing. -/
theorem CopyAt.clear (h : CopyAt sha store uri j file) (hj : ∀ f ∈ file, max 1 f.count.toNat ≤ j) :
    Clear store uri := by
  cases file with
  | none => exact h
  | some file =>
    rwa [CopyAt, if_neg (Nat.not_lt.mpr (hj file rfl))] at h

theorem Clear.congr (h : Clear store uri) (hfiles : store'.files.lookup uri = store.files.lookup uri)
    (hmetadata : store'.metadata.lookup uri = store.metadata.lookup uri) : Clear store' uri :=
  ⟨hfiles.trans h.1, hmetadata.trans h.2⟩

theorem CopyAt.congr (h : CopyAt sha store uri j file)
    (hfiles : store'.files.lookup uri = store.files.lookup uri)
    (hmetadata : store'.metadata.lookup uri = store.metadata.lookup uri) : CopyAt sha store' uri j file := by
  cases file with
  | none => exact Clear.congr h hfiles hmetadata
  | some file =>
    rw [CopyAt] at h ⊢
    split
    · rename_i hj
      rw [if_pos hj] at h
      exact ⟨hfiles.trans h.1, hmetadata.trans h.2⟩
    · rename_i hj
      rw [if_neg hj] at h
      exact Clear.congr h hfiles hmetadata

/-- What happens to one path leaves the copies of another alone. -/
theorem Spread.along {q : Path} (h : Spread sha w q file) (halong : w.Along uri w') (hq : ¬ q <+: uri) :
    Spread sha w' q file := by
  intro j n hn
  rw [clockwise_congr halong.ring] at hn
  exact (h j n hn).congr ((halong.stores n.uuid).files q hq) ((halong.stores n.uuid).metadata q hq)

/-! ## `put` -/

theorem CopyAt.takes {bytes : Bytes} (h : CopyAt sha store uri j file) (hdisk : Writable store uri) :
    Takes sha uri (kept sha (file.map File.bytes) bytes) store := by
  rcases h.holding with hclear | hholding
  · exact ⟨hdisk, none, hclear, rfl⟩
  · exact ⟨hdisk, _, hholding, kept_kept sha _ _⟩

/-- The file is at the owner and in the listing of its parent, and the next copies are as they were. -/
structure First (sha : Sha256) (w w₁ : World) (uri : Path) (x : Node) (rest : List Node) (file : Option File)
    (stored : Bytes) (k : UInt32) : Prop where
  along : w.Along uri w₁
  owner : Stored sha (w₁.stores x.uuid) uri stored (.copy k 0)
  copies : ∀ (j : Nat) y, rest[j]? = some y → CopyAt sha (w₁.stores y.uuid) uri (j + 1) file

theorem put_first {self : Peer} {bytes stored : Bytes} {k : UInt32} {lap fuel : Nat} {x : Node}
    {rest : List Node} (hlap : Lap lap) (hw : w.Exact) (huri : FilePath uri)
    (hl : w.clockwise (sha.uri uri) = x :: rest) (hspread : Spread sha w uri file)
    (hdisk : Writable (w.stores x.uuid) uri) (hstored : kept sha (file.map File.bytes) bytes = stored)
    (hfuel : uri.length * (lap + 1) + lap < fuel) :
    ∃ w₁, First sha w w₁ uri x rest file stored k ∧ put_file sha (fuel + 1) self w uri bytes ⟨0, k⟩ =
      (if (Replication.copy k 0).next.active then
        (w₁.successor x.uuid).bind fun node => ignored (client_put (put sha fuel) x w₁ node uri stored
          (init_source x { replication := (Replication.copy k 0).next }))
      else some w₁).bind fun w => some (w, .OK) := by
  obtain ⟨node, hnode, hsucc⟩ := hw.exists_successor (sha.uri (parent_path uri))
  have hx : x ∈ w.ring := mem_clockwise.mp (by rw [hl]; exact List.mem_cons_self)
  have hdistinct : ∀ n ∈ rest, n.uuid ≠ x.uuid := fun n hn =>
    (List.pairwise_append.mp (hw.pairwise hl)).2.2 n hn x List.mem_cons_self
  have howner := (hspread 0 x (by rw [hl]; rfl)).owner
  obtain ⟨made, files, -, -, -, -, hfirst, halong⟩ := accept_spec sha howner huri hdisk bytes (.copy k 0)
  rw [hstored] at hfirst halong
  have hparentfuel := Nat.mul_le_mul_right (lap + 1) (parent_path_le uri).length_le
  generalize hplaced : w.set x.uuid (accept sha uri bytes stored (.copy k 0) (w.stores x.uuid)) = w₀
  have hexact : w₀.Exact := hw.of_ring (hplaced ▸ rfl) (hplaced ▸ rfl)
  obtain ⟨w₁, status, hparent, habove⟩ := @meta_add_above sha lap hlap fuel w₀ node (parent_path uri)
    (parent_listing (file_record sha uri stored (.copy k 0))) { replication := .copy k 0 } hexact
    (hplaced ▸ hnode) (by simp) (by rw [left]; omega)
  refine ⟨w₁, ⟨?_, ?_, ?_⟩, ?_⟩
  · exact (hplaced ▸ Along.set halong).trans (.of_above habove (parent_path_le uri))
  · have hxabove := habove.stores x.uuid
    rw [← hplaced, set_stores_self] at hxabove
    exact hfirst.above sha hxabove huri.1
  · intro j y hy
    have hyabove := habove.stores y.uuid
    rw [← hplaced, set_stores_of_ne (hdistinct y (List.mem_of_getElem? hy))] at hyabove
    have hold := hspread (j + 1) y (by rw [hl]; exact hy)
    exact hold.congr (by rw [hyabove.files]) (hyabove.metadata _ (parent_path_not_below huri.1))
  · have hput : put_file sha (fuel + 1) self w uri bytes ⟨0, k⟩ =
        put sha (fuel + 1) w x uri bytes { replication := .copy k 0 } := by
      rw [put_file, hw.successor_owner hl, Option.bind_eq_bind, Option.bind_some, client_put,
        if_neg (by simp)]
      rfl
    rw [hput, put_over sha huri (hw.up x hx) (by simp) rfl howner hdisk, hstored, hplaced,
      if_pos (by simp [Replication.copy]), hsucc, Option.bind_some, hparent]
    rfl

/-- A put with a count that is not smaller than the one before. -/
theorem put_spread (self : Peer) (bytes : Bytes) {k : UInt32} {lap fuel : Nat} (hlap : Lap lap) (hw : w.Exact)
    (huri : FilePath uri) (hspread : Spread sha w uri file) (hcount : ∀ f ∈ file, f.count ≤ k)
    (hdisk : ∀ n ∈ w.ring, Writable (w.stores n.uuid) uri)
    (hfuel : uri.length * (lap + 1) + lap + w.ring.length + 1 < fuel) :
    ∃ w', put_file sha fuel self w uri bytes ⟨0, k⟩ = some (w', .OK) ∧ w.Along uri w' ∧
      Spread sha w' uri (some ⟨kept sha (file.map File.bytes) bytes, k⟩) := by
  obtain ⟨fuel, rfl⟩ : ∃ n, fuel = n + 1 := ⟨fuel - 1, by omega⟩
  obtain ⟨x, rest, hl⟩ := hw.exists_owner (sha.uri uri)
  have hmem : ∀ n ∈ x :: rest, n ∈ w.ring := fun n hn => mem_clockwise.mp (hl ▸ hn)
  have hpair := hw.pairwise hl
  have hdistinct : ∀ n ∈ rest, n.uuid ≠ x.uuid := fun n hn =>
    (List.pairwise_append.mp hpair).2.2 n hn x List.mem_cons_self
  generalize hstored : kept sha (file.map File.bytes) bytes = stored
  obtain ⟨w₁, hfirst, hput⟩ := @put_first sha w uri file self bytes stored k lap fuel x rest hlap hw huri hl
    hspread (hdisk x (hmem x List.mem_cons_self)) hstored (by omega)
  have htakes : ∀ y ∈ rest, Takes sha uri stored (w₁.stores y.uuid) := by
    intro y hy
    obtain ⟨j, hj⟩ := List.getElem?_of_mem hy
    have hold := hdisk y (hmem y (List.mem_cons_of_mem _ hy))
    rw [← hstored]
    exact (hfirst.copies j y hj).takes ((hfirst.along.stores y.uuid).writable huri.1 hold)
  have hring := hfirst.along.ring
  have hl₁ : w₁.clockwise (sha.uri uri) = x :: rest := by rw [clockwise_congr hring, hl]
  rw [put_over_copies sha (hw.of_ring hring hfirst.along.up) hl₁ huri (by rw [hring]; omega)
    fun y hy => htakes y (List.mem_of_mem_take hy)] at hput
  have hchanged := (List.pairwise_append.mp hpair).1.sublist (List.take_sublist (k.toNat - 1) rest)
  refine ⟨_, hput, hfirst.along.trans (at_each_along hchanged fun j y hy =>
    (htakes y (List.mem_of_mem_take hy)).along sha huri _), fun j n hn => ?_⟩
  rw [clockwise_congr (at_each_ring _ _ _), hl₁] at hn
  cases j with
  | zero =>
    cases hn
    rw [at_each_stores_of_ne fun y hy => hdistinct y (List.mem_of_mem_take hy), CopyAt, if_pos (by omega)]
    exact hfirst.owner
  | succ j =>
    rw [List.getElem?_cons_succ] at hn
    rw [at_each_take_stores (List.pairwise_append.mp hpair).1 hn, Nat.add_comm 1 j, CopyAt]
    by_cases hj : j < k.toNat - 1
    · rw [if_pos (by dsimp only; omega), if_pos hj]
      exact (htakes n (List.mem_of_getElem? hn)).accepted sha huri _
    · rw [if_neg (by dsimp only; omega), if_neg hj]
      refine (hfirst.copies j n hn).clear fun f hf => ?_
      have hle := UInt32.le_iff_toNat_le.mp (hcount f hf)
      omega

/-! ## `del` -/

/-- The deletion of names from a listing always comes to an end. -/
theorem meta_del_above {lap : Nat} (hlap : Lap lap) (fuel : Nat) {self : Node} (p : Path) (records : MetaSet)
    {o : Options} (hw : w.Exact) (hself : self ∈ w.ring) (hsource : ∀ s ∈ o.source, ∃ n ∈ w.ring, n.uuid = s)
    (hfuel : left lap self o.source < fuel) :
    ∃ w' status, meta_del fuel w self p records o = some (w', status) ∧ w.Above p w' := by
  induction fuel generalizing w self records o with
  | zero => omega
  | succ fuel ih =>
    unfold meta_del
    dsimp only
    rw [if_neg (not_not_intro (hw.up self hself))]
    split
    · exact ⟨w, .ALREADY_EXISTS, rfl, .refl _ _⟩
    rename_i hne
    split
    · exact ⟨w, .NOT_FOUND, rfl, .refl _ _⟩
    split
    · exact ⟨w, .NOT_FOUND, rfl, .refl _ _⟩
    rename_i removed deleted hremove
    have habove : w.Above p (w.set self.uuid { w.stores self.uuid with metadata := removed }) := by
      obtain ⟨current, -, heq⟩ := Option.map_eq_some_iff.mp hremove
      cases heq
      refine set_above ⟨rfl, rfl, rfl, fun q hq => AList.lookup_insert_ne ?_⟩
      rintro rfl
      exact hq (List.prefix_refl _)
    split
    · obtain ⟨node, hnode, hsucc⟩ := hw.exists_successor self.uuid
      have hleft := left_successor hlap hsource hne hsucc
      have hinit : ∀ s ∈ (init_source self o).source, ∃ n ∈ w.ring, n.uuid = s := by
        intro s hs
        obtain rfl := Option.some.inj hs
        cases ho : o.source with
        | none => exact ⟨self, hself, rfl⟩
        | some s => exact hsource s ho
      obtain ⟨w', status, hcall, hrest⟩ := ih (MetaSet.increase_replication_and_clean deleted)
        (habove.exact hw) hnode hinit (by omega)
      rw [set_successor, hsucc, Option.bind_eq_bind, Option.bind_some, hcall]
      exact ⟨w', .OK, rfl, habove.trans hrest⟩
    · exact ⟨_, .OK, rfl, habove⟩

theorem unplace_along (uri : Path) (store : Store) : store.Along uri (unplace uri store) := by
  have hne : ∀ {q}, ¬ q <+: uri → q ≠ uri := fun hq heq => hq (heq ▸ List.prefix_refl _)
  refine ⟨fun q hq => AList.lookup_erase_ne (hne hq), fun q hq => AList.lookup_erase_ne (hne hq),
    fun q bytes hlookup => ?_⟩
  rcases eq_or_ne q uri with heq | hq
  · exact Or.inl heq
  · exact Or.inr ((AList.lookup_erase_ne hq).symm.trans hlookup)

/-- The copies of a file are gone, and its name is still in the listing. -/
structure Unplaced (w w₁ : World) (uri : Path) : Prop where
  along : w.Along uri w₁
  entries : ∀ u q, q ≠ uri → (w₁.stores u).metadata.lookup q = (w.stores u).metadata.lookup q
  clear : ∀ n ∈ w.ring, Clear (w₁.stores n.uuid) uri

theorem del_unplaced {f : File} (recursive : Bool) {fuel : Nat} (hw : w.Exact)
    (hspread : Spread sha w uri (some f)) (hfuel : w.ring.length < fuel) :
    ∃ w₁ node, Unplaced w w₁ uri ∧ w.successor (sha.uri (parent_path uri)) = some node ∧
      facade_del sha (fuel + 1) w uri recursive = (ignored (meta_del fuel w₁ node (parent_path uri)
        [file_record sha uri f.bytes (.copy f.count 0)] (clear_source {}))).bind fun w => some (w, .OK) := by
  obtain ⟨x, rest, hl⟩ := hw.exists_owner (sha.uri uri)
  obtain ⟨node, hnode, hsucc⟩ := hw.exists_successor (sha.uri (parent_path uri))
  have hpair : (x :: rest).Pairwise fun x y => x.uuid ≠ y.uuid :=
    ((List.perm_append_singleton x rest).pairwise_iff fun h => Ne.symm h).mp (hw.pairwise hl)
  have hstored : ∀ j n, (x :: rest)[j]? = some n → if j < max 1 f.count.toNat then
      Stored sha (w.stores n.uuid) uri f.bytes (.copy f.count j) else Clear (w.stores n.uuid) uri :=
    fun j n hn => hspread j n (by rw [hl]; exact hn)
  have hdel := del_copies sha fuel recursive {} hw hl rfl hstored hfuel
  rw [hsucc, Option.bind_some] at hdel
  have hplaces : (x :: rest.take (f.count.toNat - 1)).Pairwise fun x y => x.uuid ≠ y.uuid :=
    hpair.sublist (List.cons_sublist_cons.mpr (List.take_sublist _ _))
  refine ⟨_, node, ⟨at_each_along hplaces fun _ y _ => unplace_along uri (w.stores y.uuid), ?_,
    unplaced_clear sha hw hl hstored⟩, hsucc, ?_⟩
  · intro u q hq
    exact at_each_stores_congr (g := fun _ => unplace uri) (fun store => store.metadata.lookup q)
      (fun _ _ => AList.lookup_erase_ne hq) _ _ _ _
  · rw [facade_del, hw.successor_owner hl, Option.bind_eq_bind, Option.bind_some, hdel]

theorem del_spread {f : File} (recursive : Bool) {lap fuel : Nat} (hlap : Lap lap) (hw : w.Exact)
    (huri : FilePath uri) (hspread : Spread sha w uri (some f)) (hfuel : lap + w.ring.length + 1 < fuel) :
    ∃ w', facade_del sha fuel w uri recursive = some (w', .OK) ∧ w.Along uri w' ∧ Spread sha w' uri none := by
  obtain ⟨fuel, rfl⟩ : ∃ n, fuel = n + 1 := ⟨fuel - 1, by omega⟩
  obtain ⟨w₁, node, h₁, hsucc, hdel⟩ := del_unplaced recursive hw hspread
    (show w.ring.length < fuel by omega)
  have hnode : node ∈ w₁.ring := h₁.along.ring ▸ (firstAfter_argmin hsucc).1
  obtain ⟨w₂, status, hmeta, habove⟩ := @meta_del_above w₁ lap hlap fuel node (parent_path uri)
    [file_record sha uri f.bytes (.copy f.count 0)] (clear_source {})
    (hw.of_ring h₁.along.ring h₁.along.up) hnode (by simp [clear_source])
    (by rw [clear_source, left]; omega)
  have halong := h₁.along.trans (.of_above habove (parent_path_le uri))
  refine ⟨w₂, by rw [hdel, hmeta]; rfl, halong, fun j n hn => ?_⟩
  have hn : n ∈ w.ring := by
    rw [← h₁.along.ring, ← habove.ring]
    exact mem_clockwise.mp (List.mem_of_getElem? hn)
  exact (h₁.clear n hn).above (habove.stores n.uuid) huri.1

/-- There is nothing to delete. -/
theorem del_absent (recursive : Bool) {fuel : Nat} (hw : w.Exact) (hspread : Spread sha w uri none) :
    facade_del sha (fuel + 1) w uri recursive = some (w, .UNKNOWN) := by
  obtain ⟨x, rest, hl⟩ := hw.exists_owner (sha.uri uri)
  have hx : x ∈ w.ring := mem_clockwise.mp (by rw [hl]; exact List.mem_cons_self)
  have hclear : Clear (w.stores x.uuid) uri := hspread 0 x (by rw [hl]; rfl)
  have hregular : ¬ (w.stores x.uuid).files.is_regular_file uri := by
    rw [Files.is_regular_file, hclear.1]
    simp
  rw [facade_del, hw.successor_owner hl, Option.bind_eq_bind, Option.bind_some, del]
  simp only [if_neg (not_not_intro (hw.up x hx)), hclear.2, if_neg hregular]
  exact if_neg (by simp)

/-! ## `get` -/

theorem get_spread {fuel : Nat} (hw : w.Exact) (hspread : Spread sha w uri file) :
    Get.get_file sha uri (fuel + 2) w = some (w, read file) := by
  obtain ⟨x, rest, hl⟩ := hw.exists_owner (sha.uri uri)
  have hx : x ∈ w.ring := mem_clockwise.mp (by rw [hl]; exact List.mem_cons_self)
  have hcopy := hspread 0 x (by rw [hl]; rfl)
  rw [Get.get_file, hw.successor_owner hl, Option.bind_eq_bind, Option.bind_some, Get.drive]
  cases file with
  | none => simp only [Get.step, Get.get_clear [] (hw.up x hx) hcopy, Option.bind_some, Get.drive, read]
  | some f =>
    rw [CopyAt, if_pos (by omega)] at hcopy
    simp only [Get.step, Get.get_present [] (hw.up x hx) hcopy.1, Option.bind_some, Get.drive, read]

/-! ## All commands -/

/-- No path of the set is a directory of another one. -/
structure Names (paths : Path → Prop) : Prop where
  file : ∀ p, paths p → FilePath p
  apart : ∀ p q, paths p → paths q → p <+: q → p = q

variable (sha) in
/-- The disks hold the files of the map, and no others. -/
structure Reflects (paths : Path → Prop) (w : World) (m : Contents) : Prop where
  exact : w.Exact
  spread : ∀ p, paths p → Spread sha w p (m p)
  regular : ∀ n ∈ w.ring, ∀ p bytes, (w.stores n.uuid).files.lookup p = some (.regular bytes) → paths p

/-- A file is not put again with a smaller count. -/
def Command.Fits (paths : Path → Prop) (m : Contents) (c : Command) : Prop :=
  paths c.uri ∧ match c with
    | .put _ uri _ count => ∀ f ∈ m uri, f.count ≤ count
    | _ => True

variable {paths : Path → Prop} {m : Contents}

/-- A directory on the way to a file is none of the files. -/
theorem Names.writable (hpaths : Names paths) (huri : paths uri)
    (hregular : ∀ p bytes, store.files.lookup p = some (.regular bytes) → paths p) : Writable store uri := by
  intro p hp bytes hlookup
  obtain rfl := hpaths.apart p uri (hregular p bytes hlookup) huri (hp.trans (parent_path_le uri))
  exact parent_path_not_below (hpaths.file p huri).1 hp

theorem Reflects.writable (h : Reflects sha paths w m) (hpaths : Names paths) (huri : paths uri) :
    ∀ n ∈ w.ring, Writable (w.stores n.uuid) uri := fun n hn => hpaths.writable huri (h.regular n hn)

/-- A change along one path, with what there is of its file then. -/
theorem Reflects.update (h : Reflects sha paths w m) (hpaths : Names paths) (huri : paths uri)
    (halong : w.Along uri w') (hspread : Spread sha w' uri file) :
    Reflects sha paths w' (Function.update m uri file) where
  exact := h.exact.of_ring halong.ring halong.up
  spread p hp := by
    rcases eq_or_ne p uri with rfl | hne
    · rwa [Function.update_self]
    · rw [Function.update_of_ne hne]
      exact (h.spread p hp).along halong fun hbelow => hne (hpaths.apart p uri hp huri hbelow)
  regular n hn p bytes hlookup := by
    rw [halong.ring] at hn
    rcases (halong.stores n.uuid).regular p bytes hlookup with rfl | hold
    · exact huri
    · exact h.regular n hn p bytes hold

/-- One command, on the disks and on the map. -/
theorem Reflects.perform (h : Reflects sha paths w m) (hpaths : Names paths) {lap longest fuel : Nat}
    (hlap : Lap lap) {c : Command} (hfits : c.Fits paths m) (hlength : c.uri.length ≤ longest)
    (hfuel : longest * (lap + 1) + lap + w.ring.length + 2 < fuel) :
    ∃ w', World.perform sha fuel w c = some (w', (m.perform sha c).2) ∧
      Reflects sha paths w' (m.perform sha c).1 ∧ w'.ring = w.ring := by
  obtain ⟨hc, hfits⟩ := hfits
  have hlong := Nat.mul_le_mul_right (lap + 1) hlength
  have hspread := h.spread c.uri hc
  obtain ⟨fuel, rfl⟩ : ∃ n, fuel = n + 2 := ⟨fuel - 2, by omega⟩
  cases c with
  | put self uri bytes count =>
    simp only [Command.uri] at hc hlong hspread
    obtain ⟨w', hput, halong, hnew⟩ := put_spread self bytes hlap h.exact (hpaths.file uri hc) hspread hfits
      (h.writable hpaths hc) (by omega : uri.length * (lap + 1) + lap + w.ring.length + 1 < fuel + 2)
    refine ⟨w', ?_, h.update hpaths hc halong hnew, halong.ring⟩
    rw [World.perform, hput]
    rfl
  | del uri recursive =>
    simp only [Command.uri] at hc hspread
    simp only [World.perform, Contents.perform]
    cases hm : m uri with
    | none =>
      rw [hm] at hspread
      refine ⟨w, ?_, h, rfl⟩
      rw [del_absent recursive h.exact hspread]
      rfl
    | some f =>
      rw [hm] at hspread
      obtain ⟨w', hdel, halong, hnew⟩ := del_spread recursive hlap h.exact (hpaths.file uri hc) hspread
        (by omega : lap + w.ring.length + 1 < fuel + 2)
      refine ⟨w', ?_, h.update hpaths hc halong hnew, halong.ring⟩
      rw [hdel]
      rfl
  | get uri =>
    simp only [Command.uri] at hspread
    have hget := @get_spread sha w uri (m uri) fuel h.exact hspread
    refine ⟨w, ?_, h, rfl⟩
    rw [World.perform, hget]
    rfl

/-- Commands one after the other, with all that the clients see. -/
abbrev run (sha : Sha256) (fuel : Nat) (w : World) (commands : List Command) :
    Option (World × List Outcome) :=
  Simulation.run (World.perform sha fuel) w commands

abbrev Contents.run (sha : Sha256) (m : Contents) (commands : List Command) : Contents × List Outcome :=
  Simulation.abstract_run (Contents.perform sha) m commands

theorem fresh_lookup (c : UInt32) {p : Path} (hp : p ≠ []) : Clear (Store.fresh c) p :=
  ⟨by rw [Store.fresh, AList.lookup_insert_ne hp]; rfl,
    by rw [Store.fresh, MetaStore.add_lookup_of_ne hp]; rfl⟩

/-- Empty disks hold the empty map. -/
theorem fresh_holds (sha : Sha256) (hpaths : Names paths) (hw : w.Exact)
    (hstores : ∀ n ∈ w.ring, ∃ c, w.stores n.uuid = .fresh c) : Reflects sha paths w fun _ => none where
  exact := hw
  spread p hp j n hn := by
    obtain ⟨c, hc⟩ := hstores n (mem_clockwise.mp (List.mem_of_getElem? hn))
    rw [hc]
    exact fresh_lookup c (hpaths.file p hp).1
  regular n hn p bytes hlookup := by
    obtain ⟨c, hc⟩ := hstores n hn
    rw [hc] at hlookup
    rcases eq_or_ne p [] with rfl | hp
    · rw [Store.fresh, AList.lookup_insert] at hlookup
      cases hlookup
    · rw [(fresh_lookup c hp).1] at hlookup
      cases hlookup

def Contents.three_paths (p : Path) : Prop := p = [['d'], ['f']] ∨ p = [['g']]

theorem Contents.three_names : Names three_paths := by
  constructor
  · rintro p (rfl | rfl) <;> unfold FilePath <;> decide
  · rintro p q (rfl | rfl) (rfl | rfl) <;> decide

theorem Contents.three_holds (sha : Sha256) : Reflects sha three_paths World.three fun _ => none :=
  fresh_holds sha three_names World.three_exact fun _ _ => ⟨1, rfl⟩

/-- A file is put, put again with more copies, read and deleted. -/
def Contents.three_commands : List Command :=
  [.put (Peer.of ⟨10, ['a']⟩) [['d'], ['f']] [1] 1, .put (Peer.of ⟨30, ['c']⟩) [['d'], ['f']] [1, 2] 2,
    .get [['d'], ['f']], .del [['d'], ['f']] false, .get [['d'], ['f']]]

end

end Fs

end Chord
