import Chord.Fs.Absorbed
import Chord.Fs.FirstJoin
import Chord.Fs.Upload

/-!
# Rebalancing what is in place

The owner sends its own entries to itself. A file whose record is there is not written again, and no node
beyond the last copy has it. What can change are the listings that are told of it.
-/

open Circle

namespace Chord

namespace Fs

open World

/-! ## What is in place -/

/-- The file is on the nodes where a put leaves it, and on no other. -/
structure FileInPlace (sha : Sha256) (w : World) (uri : Path) (bytes : Bytes) (k : UInt32) : Prop where
  path : FilePath uri
  copies : ∀ j n, (w.clockwise (sha.uri uri))[j]? = some n →
    if j < max 1 k.toNat then Stored sha (w.stores n.uuid) uri bytes (.copy k j)
      else Clear (w.stores n.uuid) uri

/-- The names of a directory are on the nodes that their counts ask for. -/
structure DirectoryInPlace (sha : Sha256) (w : World) (uri : Path) (s : MetaSet) : Prop where
  path : uri = [] ∨ FilePath uri
  is_directory : MetaSet.is_directory s
  arrived : ∀ m ∈ s, m.sent = m
  copies : ∀ m ∈ s, Named m.name → ∀ j n, (w.clockwise (sha.uri uri))[j]? = some n →
    (w.stores n.uuid).record uri m.name =
      if j < max 1 m.replication.count.toNat then some { m with replication := .copy m.replication.count j }
        else none

/-- All that the node stores is its own, and has its copies. -/
structure InPlace (sha : Sha256) (w : World) (x : Node) : Prop where
  exact : w.Exact
  member : x ∈ w.ring
  disks : ∀ n ∈ w.ring, (w.stores n.uuid).files.Closed
  sets : ∀ u p, ∀ s ∈ (w.stores u).metadata.lookup p, MetaSet.Ordered s
  owned : ∀ uri ∈ (w.stores x.uuid).metadata, w.successor (sha.uri uri) = some x
  stored : ∀ uri, ∀ s ∈ (w.stores x.uuid).metadata.lookup uri,
    (∃ bytes k, FileInPlace sha w uri bytes k) ∨ DirectoryInPlace sha w uri s

/-- An update of the listing of `p` changes nothing at its owner and at the copies. -/
def Absorbed (sha : Sha256) (w : World) (p : Path) (metadata : MetaSet) : Prop :=
  Absorbs (w.entry_at p) p metadata (w.clockwise (sha.uri p))

instance (sha : Sha256) (w : World) (p : Path) (metadata : MetaSet) : Decidable (Absorbed sha w p metadata) :=
  inferInstanceAs (Decidable (Absorbs _ _ _ _))

/-- What the listings have to say already: of a file with another count than one, its parent has the records that
`put` sends. A directory has its largest count in `.` and `..`, its copies have it too, and so has the record of it in its
parent. -/
def Idle (sha : Sha256) (w : World) (entry : Path × MetaSet) : Prop :=
  if MetaSet.is_directory entry.2 then
    Restorable false entry.2 ∧
      (entry.1 ≠ [] → (MetaSet.max_replication entry.2).index = 0 →
        Absorbed sha w (parent_path entry.1) [MetaSet.create_directory entry.2 (filename entry.1)]) ∧
      Absorbs (w.entry_at entry.1) entry.1 (MetaSet.increase_replication_and_clean entry.2)
        (w.clockwise (sha.uri entry.1)).tail
  else MetaSet.max_replication entry.2 ≠ .NONE ∧
    ∀ m ∈ entry.2, Absorbed sha w (parent_path entry.1)
      (MetaSet.of_list ((parent_listing m).map Metadata.sent))

instance (sha : Sha256) (w : World) (entry : Path × MetaSet) : Decidable (Idle sha w entry) :=
  inferInstanceAs (Decidable (ite _ _ _))

section

variable {sha : Sha256} {w v w' : World} {uri : Path} {bytes : Bytes} {k : UInt32}

/-! ## Worlds that are the same to a lookup -/

theorem Stored.unchanged {u : Uuid} {r : Replication} (h : Stored sha (w.stores u) uri bytes r)
    (hsame : Unchanged w v) :
    Stored sha (v.stores u) uri bytes r :=
  ⟨by rw [hsame.files, h.1], (hsame.entries u uri).trans h.2⟩

theorem Clear.unchanged {u : Uuid} (h : Clear (w.stores u) uri) (hsame : Unchanged w v) :
    Clear (v.stores u) uri :=
  ⟨by rw [hsame.files, h.1], (hsame.entries u uri).trans h.2⟩

theorem Unchanged.sets (h : Unchanged w v)
    (hsets : ∀ u p, ∀ e ∈ (w.stores u).metadata.lookup p, MetaSet.Ordered e) :
    ∀ u p, ∀ e ∈ (v.stores u).metadata.lookup p, MetaSet.Ordered e := by
  intro u p
  rw [h.entries u p]
  exact hsets u p

theorem absorbed_congr (h : Unchanged w v) (p : Path) (metadata : MetaSet) :
    Absorbed sha v p metadata ↔ Absorbed sha w p metadata := by
  rw [Absorbed, Absorbed, h.entry_at, clockwise_congr h.ring]

/-! ## The copies of a file -/

theorem del_clear {fuel : Nat} {self : Node} {recursive : Bool} {o : Options}
    (h : Clear (w.stores self.uuid) uri) :
    ignored (del sha (fuel + 1) w self uri recursive o) = some w := by
  unfold del
  dsimp only
  split
  · rfl
  split
  · rfl
  rw [h.2]
  have hregular : (w.stores self.uuid).files.is_regular_file uri = false := by
    rw [Files.is_regular_file, h.1]
  simp [hregular, ignored]

/-- The file is on the disk with a record of this copy: nothing is written. -/
theorem put_in_place (fuel : Nat) {self : Node} (o : Options) (huri : FilePath uri)
    (h : Stored sha (w.stores self.uuid) uri bytes o.replication)
    (hparent : (w.stores self.uuid).files.exists_at (parent_path uri)) (hup : self ∈ w.up)
    (hnot : o.source ≠ some self.uuid) :
    ∃ v, Unchanged w v ∧ put sha (fuel + 1) w self uri bytes o = put_rest sha fuel self uri bytes o v := by
  have hexists : (w.stores self.uuid).files.exists_at uri := AList.lookup_isSome.mp (by rw [h.1]; rfl)
  have hhash : file_hashes_equal (w.stores self.uuid) uri (sha.content bytes) :=
    ⟨_, h.2, ⟨rfl, by simp [file_record]⟩, by simp [file_record]⟩
  have hreceive : receive sha (w.stores self.uuid) uri bytes (w.stores self.uuid).files =
      ((w.stores self.uuid).files, true) := by
    simp only [receive, if_pos hexists, if_pos hhash]
  have hmerged : MetaSet.merged [file_record sha uri bytes o.replication]
      [file_record sha uri bytes o.replication] =
      [file_record sha uri bytes o.replication] := merged_file huri.named.1 (Or.inr ⟨_, rfl, rfl⟩)
  refine ⟨_, Unchanged.add (fun _ => rfl) h.2 hmerged, ?_⟩
  rw [put]
  simp only [if_neg (not_not_intro hup), if_neg hnot, if_pos hparent, hreceive, h.1]
  rfl

theorem ignored_put_rest (fuel : Nat) (self : Node) (uri : Path) (stored : Bytes) (o : Options) (w : World) :
    ignored (put_rest sha fuel self uri stored o w) =
      (if o.replication.index = 0 then
        (w.successor (sha.uri (parent_path uri))).bind fun node =>
          ignored (meta_add sha fuel w node (parent_path uri)
            (parent_listing (file_record sha uri stored o.replication)) o)
      else some w).bind fun w =>
        (if o.replication.next.active then
          (w.successor self.uuid).bind fun node => ignored (client_put (put sha fuel) self w node uri stored
            (init_source self { o with replication := o.replication.next }))
        else some w).bind fun w =>
          if o.rebalance ∧ ¬ o.replication.has_next then
            (w.successor self.uuid).bind fun node => (w.successor (sha.uri uri)).bind fun owner =>
              if node ≠ owner then ignored (del sha fuel w node uri false (init_source self o)) else some w
          else some w := by
  refine Eq.trans (congrArg ignored ?_) (ignored_bind_some _ .OK)
  unfold put_rest
  simp only [Option.bind_eq_bind, bind_ite, Option.bind_assoc, Option.bind_some]

/-- The directory of a file that is on the disk. -/
def HasParent (w : World) (uri : Path) (n : Node) : Prop :=
  (w.stores n.uuid).files.lookup uri ≠ none →
    (w.stores n.uuid).files.lookup (parent_path uri) = some .directory

theorem HasParent.unchanged {n : Node} (h : HasParent w uri n) (hsame : Unchanged w v) :
    HasParent v uri n := by
  unfold HasParent
  rwa [hsame.files, hsame.files]

theorem HasParent.exists_at {n : Node} {r : Replication} (h : HasParent w uri n)
    (hstored : Stored sha (w.stores n.uuid) uri bytes r) :
    (w.stores n.uuid).files.exists_at (parent_path uri) :=
  AList.lookup_isSome.mp (by rw [h (by rw [hstored.1]; simp)]; rfl)

/-- The copies of a file that is in place, and the node after the last one. -/
theorem put_copies_in_place {s x : Node} {l : List Node} {j fuel : Nat} (huri : FilePath uri) (hj : 0 < j)
    (hjk : j < k.toNat) (howner : w.successor (sha.uri uri) = some s) (hx : (l ++ [s]).head? = some x)
    (hchain : (l ++ [s]).IsChain fun a b => w.successor a.uuid = some b)
    (hl : (l ++ [s]).Pairwise fun x y => x.uuid ≠ y.uuid) (hup : ∀ x ∈ l, x ∈ w.up)
    (hparent : ∀ n ∈ l, HasParent w uri n) (hplace : ∀ i n, l[i]? = some n →
      if j + i < k.toNat then Stored sha (w.stores n.uuid) uri bytes (.copy k (j + i))
        else Clear (w.stores n.uuid) uri)
    (hfuel : l.length + 1 < fuel) :
    ∃ w', ignored (put sha fuel w x uri bytes
      { replication := .copy k j, source := some s.uuid, rebalance := true }) = some w' ∧
      Unchanged w w' := by
  obtain ⟨fuel, rfl⟩ : ∃ n, fuel = n + 2 := ⟨fuel - 2, by omega⟩
  induction l generalizing w j fuel x with
  | nil =>
    cases hx
    refine ⟨w, ?_, .refl w⟩
    by_cases hs : s ∈ w.up <;> simp [put, hs, ignored]
  | cons z l ih =>
    obtain rfl : z = x := by simpa using hx
    obtain ⟨hne, hl⟩ := List.pairwise_cons.mp hl
    obtain ⟨y, hy, hnext, hchain⟩ := chain_next hchain
    have hindex := Replication.index_copy_ne_zero hj hjk
    have hnot : some s.uuid ≠ some z.uuid := fun heq => hne s (by simp) (Option.some.inj heq).symm
    have hz := hplace 0 z rfl
    rw [if_pos (by omega)] at hz
    obtain ⟨v, hsame, hput⟩ :=
      put_in_place (fuel + 1) { replication := .copy k j, source := some s.uuid, rebalance := true }
      huri hz ((hparent z List.mem_cons_self).exists_at hz) (hup z List.mem_cons_self) hnot
    obtain ⟨fuel, rfl⟩ := Nat.exists_eq_succ_of_ne_zero (by rw [List.length_cons] at hfuel; omega : fuel ≠ 0)
    have hkept : ∀ i n, l[i]? = some n →
        if j + 1 + i < k.toNat then Stored sha (v.stores n.uuid) uri bytes (.copy k (j + 1 + i))
        else Clear (v.stores n.uuid) uri := by
      intro i n hn
      have hn := hplace (i + 1) n hn
      rw [show j + (i + 1) = j + 1 + i by omega] at hn
      by_cases hi : j + 1 + i < k.toNat
      · rw [if_pos hi] at hn ⊢
        exact hn.unchanged hsame
      · rw [if_neg hi] at hn ⊢
        exact hn.unchanged hsame
    rw [hput, ignored_put_rest]
    simp only [if_neg hindex, Option.bind_some,
      Replication.has_next_copy (Replication.succ_lt_of_lt (by omega : j < max 1 k.toNat)),
      Replication.next_copy_active (by omega : j < max 1 k.toNat), true_and,
        successor_congr hsame.ring, hnext]
    by_cases hmore : j + 1 < k.toNat
    · obtain ⟨w', hw', hsame'⟩ := ih (w := v) (by omega) hmore (by rw [successor_congr hsame.ring, howner]) hy
        (by simpa only [successor_congr hsame.ring] using hchain) hl
          (fun n hn => hsame.up ▸ hup n (List.mem_cons_of_mem _ hn))
        (fun n hn => (hparent n (List.mem_cons_of_mem _ hn)).unchanged hsame) hkept fuel
          (by rw [List.length_cons] at hfuel; omega)
      refine ⟨w', ?_, hsame.trans hsame'⟩
      simp only [if_pos hmore, if_neg (not_not_intro hmore)]
      rw [client_put, if_neg fun h => hnot h.2, Replication.next_copy]
      simp only [init_source, Option.getD_some, hw', Option.bind_some]
    · simp only [if_neg hmore, if_pos hmore, Option.bind_some, successor_congr hsame.ring, hnext, howner]
      by_cases hys : y = s
      · rw [if_neg (not_not_intro hys)]
        exact ⟨v, rfl, hsame⟩
      · rw [if_pos hys]
        obtain ⟨y', l', rfl⟩ : ∃ y' l', l = y' :: l' := by
          cases l with
          | nil => exact absurd (Option.some.inj hy).symm hys
          | cons y' l' => exact ⟨y', l', rfl⟩
        cases hy
        have hclear := hkept 0 y rfl
        rw [if_neg hmore] at hclear
        exact ⟨v, del_clear hclear, hsame⟩

/-- After the parent is told, nothing changes any more. -/
theorem put_rest_in_place {x : Node} {rest : List Node} {fuel : Nat} (hw : w.Exact)
    (hl : w.clockwise (sha.uri uri) = x :: rest) (h : FileInPlace sha w uri bytes k)
    (hparent : ∀ n ∈ w.ring, HasParent w uri n) (hfuel : w.ring.length + 1 < fuel)
    (habove : w.Above (parent_path uri) v) :
    ∃ w', ((if (Replication.copy k 0).next.active then
        (v.successor x.uuid).bind fun node => ignored (client_put (put sha fuel) x v node uri bytes
          (init_source x { replication := (Replication.copy k 0).next, rebalance := true }))
      else some v).bind fun w =>
        if true ∧ ¬ (Replication.copy k 0).has_next then
          (w.successor x.uuid).bind fun node => (w.successor (sha.uri uri)).bind fun owner =>
            if node ≠ owner then ignored
              (del sha fuel w node uri false (init_source x { replication := .copy k 0, rebalance := true }))
            else some w
        else some w) = some w' ∧ Unchanged v w' := by
  have hv := habove.exact hw
  have hlv : v.clockwise (sha.uri uri) = x :: rest := by rw [clockwise_congr habove.ring, hl]
  have hmem : ∀ n ∈ x :: rest, n ∈ w.ring := fun n hn => mem_clockwise.mp (hl ▸ hn)
  have howner := hv.successor_owner hlv
  obtain ⟨y, hy, hsucc, hchain⟩ := hv.tail_chain hlv
  have hlength : rest.length < w.ring.length := by
    rw [← w.length_clockwise (sha.uri uri), hl]
    exact Nat.lt_succ_self _
  have hplace : ∀ i n, rest[i]? = some n →
      if 1 + i < max 1 k.toNat then Stored sha (v.stores n.uuid) uri bytes (.copy k (1 + i))
      else Clear (v.stores n.uuid) uri := by
    intro i n hn
    have hcopy := h.copies (i + 1) n (by rw [hl, List.getElem?_cons_succ, hn])
    rw [Nat.add_comm i 1] at hcopy
    by_cases hi : 1 + i < max 1 k.toNat
    · rw [if_pos hi] at hcopy ⊢
      exact hcopy.above sha (habove.stores n.uuid) h.path.1
    · rw [if_neg hi] at hcopy ⊢
      exact hcopy.above (habove.stores n.uuid) h.path.1
  simp only [Replication.has_next_copy (by omega : 0 + 1 < 2 ^ 32),
    Replication.next_copy_active (by omega : 0 < max 1 k.toNat), true_and]
  by_cases hmore : 0 + 1 < k.toNat
  · have hdirs : ∀ n ∈ rest, HasParent v uri n := by
      intro n hn
      unfold HasParent
      rw [(habove.stores n.uuid).files]
      exact hparent n (hmem n (List.mem_cons_of_mem _ hn))
    simp only [if_pos hmore, if_neg (not_not_intro hmore), hsucc, Option.bind_some, Option.bind_fun_some]
    rw [client_put, Replication.next_copy]
    split
    · exact ⟨v, rfl, .refl v⟩
    · exact put_copies_in_place h.path Nat.one_pos hmore howner hy hchain (hv.pairwise hlv)
        (fun n hn => hv.up n (habove.ring ▸ hmem n (List.mem_cons_of_mem _ hn))) hdirs
        (fun i n hn => by simpa only [show max 1 k.toNat = k.toNat by omega] using hplace i n hn) (by omega)
  · simp only [if_neg hmore, if_pos hmore, Option.bind_some, hsucc, howner]
    by_cases hyx : y = x
    · rw [if_neg (not_not_intro hyx)]
      exact ⟨v, rfl, .refl v⟩
    · rw [if_pos hyx]
      cases rest with
      | nil => exact absurd (Option.some.inj hy).symm hyx
      | cons z rest =>
        cases hy
        have hclear := hplace 0 y rfl
        rw [if_neg (by omega)] at hclear
        obtain ⟨fuel, rfl⟩ := Nat.exists_eq_succ_of_ne_zero (by omega : fuel ≠ 0)
        exact ⟨v, del_clear hclear, .refl v⟩

theorem FileInPlace.unchanged (h : FileInPlace sha w uri bytes k) (hsame : Unchanged w v) :
    FileInPlace sha v uri bytes k := by
  refine ⟨h.path, fun j n hn => ?_⟩
  rw [clockwise_congr hsame.ring] at hn
  have hcopy := h.copies j n hn
  by_cases hj : j < max 1 k.toNat
  · rw [if_pos hj] at hcopy ⊢
    exact hcopy.unchanged hsame
  · rw [if_neg hj] at hcopy ⊢
    exact hcopy.unchanged hsame

/-! ## The turn of a file -/

theorem FileInPlace.owner {x : Node} {rest : List Node} (h : FileInPlace sha w uri bytes k)
    (hl : w.clockwise (sha.uri uri) = x :: rest) : Stored sha (w.stores x.uuid) uri bytes (.copy k 0) := by
  have hx := h.copies 0 x (by rw [hl]; rfl)
  rwa [if_pos (by omega)] at hx

theorem rebalance_uri_file {self : Node} (fuel : Nat)
    (h : Stored sha (w.stores self.uuid) uri bytes (.copy k 0))
    (howner : w.successor (sha.uri uri) = some self) (hk : Replication.copy k 0 ≠ .NONE) :
    rebalance_uri sha fuel .PREDECESSOR_UPDATE (Peer.of self) w
      (uri, [file_record sha uri bytes (.copy k 0)]) =
      ignored (put sha fuel w self uri bytes { replication := .copy k 0, rebalance := true }) := by
  have hdirectory : ¬ MetaSet.is_directory [file_record sha uri bytes (.copy k 0)] := by
    simp [MetaSet.is_directory, Metadata.is_directory, file_record]
  have hshallow : ¬ MetaSet.is_shallow_copy self [file_record sha uri bytes (.copy k 0)] := by
    simp [MetaSet.is_shallow_copy, file_record]
  have hcopyable : ¬ MetaSet.is_shallow_copyable self [file_record sha uri bytes (.copy k 0)] :=
    fun hc => hk hc.2.1
  unfold rebalance_uri
  simp only [Peer.of, hdirectory, hshallow, hcopyable, and_false, decide_false, Bool.false_eq_true, or_self,
    if_false, h.1, howner,
    Option.bind_eq_bind, Option.bind_some]
  rw [client_put, if_neg (by simp)]
  rfl

/-- A file with several copies, or with none at all: only the listing of its parent can change. -/
theorem file_unchanged_iff {self : Node} {rest : List Node} {fuel : Nat} (hw : w.Exact)
    (hl : w.clockwise (sha.uri uri) = self :: rest)
    (hsets : ∀ u p, ∀ s ∈ (w.stores u).metadata.lookup p, MetaSet.Ordered s)
    (hparent : ∀ n ∈ w.ring, HasParent w uri n) (h : FileInPlace sha w uri bytes k)
    (hk : Replication.copy k 0 ≠ .NONE) (hfuel : w.ring.length + 2 < fuel) :
    (∃ w', rebalance_uri sha fuel .PREDECESSOR_UPDATE (Peer.of self) w
      (uri, [file_record sha uri bytes (.copy k 0)]) = some w' ∧
      Unchanged w w') ↔
    Absorbed sha w (parent_path uri)
      (MetaSet.of_list ((parent_listing (file_record sha uri bytes (.copy k 0))).map Metadata.sent)) := by
  obtain ⟨fuel, rfl⟩ := Nat.exists_eq_succ_of_ne_zero (by omega : fuel ≠ 0)
  have hself : self ∈ w.ring := mem_clockwise.mp (hl ▸ List.mem_cons_self)
  have hstored := h.owner hl
  obtain ⟨v, hsame, hput⟩ := put_in_place fuel { replication := .copy k 0, rebalance := true } h.path hstored
    ((hparent self hself).exists_at hstored) (hw.up self hself) (by simp)
  have hv := hsame.exact hw
  have hlv : v.clockwise (sha.uri uri) = self :: rest := by rw [clockwise_congr hsame.ring, hl]
  have hring : v.ring.length + 1 < fuel := by
    rw [hsame.ring]
    omega
  have hrest : ∀ a, v.Above (parent_path uri) a → _ := fun a => put_rest_in_place hv hlv (h.unchanged hsame)
    (fun n hn => (hparent n (hsame.ring ▸ hn)).unchanged hsame) hring
  obtain ⟨y, others, hy⟩ := hv.exists_owner (sha.uri (parent_path uri))
  have hentries : ∀ n, ∀ e ∈ v.entry_at (parent_path uri) n, MetaSet.Ordered e := by
    rw [hsame.entry_at]
    exact fun n => hsets n.uuid _
  rw [rebalance_uri_file _ hstored (hw.successor_owner hl) hk, hput, ignored_put_rest, if_pos (by rfl),
    hv.successor_owner hy, Option.bind_some, Absorbed, ← hsame.entry_at, ← clockwise_congr hsame.ring, hy]
  constructor
  · rintro ⟨w', hcall, hw'⟩
    obtain ⟨a, ha, hcall⟩ := Option.bind_eq_some_iff.mp hcall
    obtain ⟨z, hz, hafter⟩ := hrest a (meta_add_only_above ha)
    obtain rfl : z = w' := Option.some.inj (hz.symm.trans hcall)
    exact absorbs_of_request hv hy rfl hentries rfl ha fun u =>
      ((hsame.symm.trans hw').trans hafter.symm).entries u _
  · intro habs
    obtain ⟨a, ha, hunchanged⟩ :=
      habs.request sha { replication := .copy k 0, rebalance := true } hv hy rfl hentries rfl
      (by omega : v.ring.length < fuel)
    obtain ⟨z, hz, hafter⟩ := hrest a (meta_add_only_above ha)
    exact ⟨z, by rw [ha, Option.bind_some]; exact hz, (hsame.trans hunchanged).trans hafter⟩

/-! ## The turn of a directory -/

section

variable {s : MetaSet} {self : Node}

theorem DirectoryInPlace.not_mkdir (h : DirectoryInPlace sha w uri s) : ¬ is_mkdir uri s := by
  intro hmkdir
  obtain ⟨m, hm, hdots, -⟩ := h.is_directory
  match s, hmkdir with
  | [x], hmkdir =>
    obtain rfl := List.mem_singleton.mp hm
    rw [hmkdir.2] at hdots
    rcases h.path with rfl | huri
    · rcases hdots with hdots | hdots <;> cases hdots
    · exact hdots.elim huri.named.1 huri.named.2

theorem DirectoryInPlace.entry_of (h : DirectoryInPlace sha w uri s) : entry_of uri s = s :=
  if_neg h.not_mkdir

theorem DirectoryInPlace.ne_nil (h : DirectoryInPlace sha w uri s) : s ≠ [] := by
  obtain ⟨m, hm, -⟩ := h.is_directory
  exact List.ne_nil_of_mem hm

/-- The entry is taken out and added again. -/
def World.add_again (w : World) (self : Node) (uri : Path) (s : MetaSet) : World :=
  (w.set self.uuid { w.stores self.uuid with metadata := (w.stores self.uuid).metadata.erase uri }).add_entry
    self uri s

theorem add_again_entry (w : World) (self : Node) (uri : Path) (s : MetaSet) :
    ((w.add_again self uri s).stores self.uuid).metadata.lookup uri = some (MetaSet.merged [] s) := by
  rw [add_again, add_entry, set_stores_self, set_stores_self, MetaStore.lookup_add, AList.lookup_erase,
    Option.getD_none]

theorem add_again_other {u : Uuid} {p : Path} (h : u ≠ self.uuid ∨ p ≠ uri) :
    SameEntry u p w (w.add_again self uri s) := by
  unfold SameEntry
  rcases eq_or_ne u self.uuid with rfl | hu
  · have hp := h.resolve_left (not_not_intro rfl)
    rw [add_again, add_entry, set_stores_self, set_stores_self, MetaStore.add_lookup_of_ne hp,
      AList.lookup_erase_ne hp]
  · rw [add_again, add_entry, set_stores_of_ne hu, set_stores_of_ne hu]

theorem add_again_unchanged_iff (hlookup : (w.stores self.uuid).metadata.lookup uri = some s)
    (hordered : s.Ordered) :
    Unchanged w (w.add_again self uri s) ↔ Restorable false s := by
  rw [← restored_iff hordered self false, referenced, if_neg Bool.false_ne_true]
  constructor
  · intro h
    have hentry := h.entries self.uuid uri
    rw [SameEntry, add_again_entry, hlookup] at hentry
    exact Option.some.inj hentry
  · intro hmerged
    refine ⟨rfl, rfl, fun u p => ?_, fun u p => ?_⟩
    · rcases eq_or_ne u self.uuid with rfl | hu
      · rw [add_again, add_entry, set_stores_self, set_stores_self]
      · rw [add_again, add_entry, set_stores_of_ne hu, set_stores_of_ne hu]
    · by_cases hother : u ≠ self.uuid ∨ p ≠ uri
      · exact add_again_other hother
      · obtain ⟨rfl, rfl⟩ := not_or.mp hother |>.imp not_not.mp not_not.mp
        rw [SameEntry, add_again_entry, hlookup, hmerged]

/-- The record of a directory goes to its parent. -/
def tell_parent (sha : Sha256) (fuel : Nat) (w : World) (uri : Path) (s : MetaSet) : Option World :=
  if uri ≠ [] ∧ (MetaSet.max_replication s).index = 0 then
    (w.successor (sha.uri (parent_path uri))).bind fun node =>
      ignored (meta_add sha fuel w node (parent_path uri) [MetaSet.create_directory s (filename uri)] {})
  else some w

theorem tell_parent_keeps {fuel : Nat} (h : tell_parent sha fuel w uri s = some v) :
    (∀ u, SameEntry u uri w v) ∧ v.ring = w.ring ∧ v.up = w.up := by
  unfold tell_parent at h
  split at h
  · rename_i hcond
    obtain ⟨node, -, h⟩ := Option.bind_eq_some_iff.mp h
    have habove := meta_add_only_above h
    exact ⟨fun u => (habove.stores u).metadata uri (parent_path_not_below hcond.1), habove.ring, habove.up⟩
  · cases h
    exact ⟨fun _ => rfl, rfl, rfl⟩

theorem absorbed_of_tell_parent {fuel : Nat} (hw : w.Exact)
    (hsets : ∀ u p, ∀ e ∈ (w.stores u).metadata.lookup p, MetaSet.Ordered e)
    (hcall : tell_parent sha fuel w uri s = some v) (hsame : ∀ u, SameEntry u (parent_path uri) w v)
    (hcond : uri ≠ [] ∧ (MetaSet.max_replication s).index = 0) :
    Absorbed sha w (parent_path uri) [MetaSet.create_directory s (filename uri)] := by
  obtain ⟨y, others, hy⟩ := hw.exists_owner (sha.uri (parent_path uri))
  rw [tell_parent, if_pos hcond, hw.successor_owner hy, Option.bind_some] at hcall
  rw [Absorbed, hy]
  exact absorbs_of_request hw hy rfl (fun n => hsets n.uuid _) rfl hcall hsame

theorem tell_parent_of_absorbed (fuel : Nat) (hw : w.Exact)
    (hsets : ∀ u p, ∀ e ∈ (w.stores u).metadata.lookup p, MetaSet.Ordered e)
    (h : uri ≠ [] → (MetaSet.max_replication s).index = 0 →
      Absorbed sha w (parent_path uri) [MetaSet.create_directory s (filename uri)])
    (hfuel : w.ring.length < fuel) : ∃ v, tell_parent sha fuel w uri s = some v ∧ Unchanged w v := by
  obtain ⟨y, others, hy⟩ := hw.exists_owner (sha.uri (parent_path uri))
  unfold tell_parent
  split
  · rename_i hcond
    have habs := h hcond.1 hcond.2
    rw [Absorbed, hy] at habs
    rw [hw.successor_owner hy, Option.bind_some]
    exact habs.request sha {} hw hy rfl (fun n => hsets n.uuid _) rfl hfuel
  · exact ⟨w, rfl, .refl w⟩

/-- The parent is told, and the copies are sent. -/
theorem rebalance_uri_directory (fuel : Nat) (hw : w.Exact) (hself : self ∈ w.ring)
    (howner : w.successor (sha.uri uri) = some self)
    (hlookup : (w.stores self.uuid).metadata.lookup uri = some s) (hordered : s.Ordered)
    (h : DirectoryInPlace sha w uri s) :
    rebalance_uri sha (fuel + 1) .PREDECESSOR_UPDATE (Peer.of self) w (uri, s) =
      (tell_parent sha fuel (w.add_again self uri s) uri s).bind fun a =>
        next_copy sha fuel a self uri s {} := by
  have hcopyable : ¬ MetaSet.is_shallow_copyable self s := fun hc => h.is_directory.not_is_regular_file hc.1
  have hagain : MetaSet.of_list (s.map Metadata.sent) = s := Arrived.again ⟨hordered, h.arrived⟩
  obtain ⟨w₁, hw₁⟩ : ∃ w₁,
      w.set self.uuid { w.stores self.uuid with metadata := (w.stores self.uuid).metadata.erase uri } = w₁ :=
    ⟨_, rfl⟩
  have hring : w₁.ring = w.ring := by rw [← hw₁, set_ring]
  have hup : self ∈ w₁.up := by
    rw [← hw₁]
    exact hw.up self hself
  have hnone : (w₁.stores self.uuid).metadata.lookup uri = none := by
    rw [← hw₁, set_stores_self, AList.lookup_erase]
  have hadded : ((w₁.stores self.uuid).metadata.add uri s).2 = true := added_of_none hnone h.ne_nil
  have hparent : parent_path uri ≠ uri ↔ uri ≠ [] := by
    constructor
    · rintro hne rfl
      exact hne rfl
    · exact parent_path_ne
  have hnew : ∀ existing ∈ (w₁.stores self.uuid).metadata.lookup uri, ¬ MetaSet.equal_basic existing s := by
    rw [hnone]
    simp
  have hadd := @meta_add_accepted sha fuel w₁ self uri s s _ {} hagain hup (by simp) h.ne_nil hnew
      (show _ = entry_of uri s from rfl)
  have hstatus : ∀ v status, meta_add sha (fuel + 1) w₁ self uri s {} = some (v, status) → status = .OK :=
    fun v status hcall =>
    (meta_add_leaves_entry (hring ▸ hself) hagain hup (by simp) h.ne_nil hnew (by simp) hcall).1
  unfold rebalance_uri rebalance_metadata tell_parent
  simp only [h.is_directory, true_or, if_true, Peer.of, hcopyable, and_false, decide_false, referenced,
    Bool.false_eq_true, if_false,
    hlookup, hw₁, Option.bind_eq_bind, Option.bind_some, successor_congr hring, howner]
  refine Eq.trans (b := ignored (meta_add sha (fuel + 1) w₁ self uri s {})) ?_ ?_
  · cases hcall : meta_add sha (fuel + 1) w₁ self uri s {} with
    | none => rfl
    | some reply =>
      obtain ⟨v, status⟩ := reply
      obtain rfl := hstatus v status hcall
      simp [ignored]
  · have hagain : w₁.add_entry self uri s = w.add_again self uri s := by rw [add_again, hw₁]
    rw [h.entry_of, hadded, hagain] at hadd
    simp only [hadd, true_and, hparent, successor_congr hring]
    rw [← Option.bind_assoc, ignored_bind_some]
    rfl

/-- What is told of a directory is there already, with the same largest count. -/
theorem directory_unchanged_iff {rest : List Node} {fuel : Nat} (hw : w.Exact)
    (hl : w.clockwise (sha.uri uri) = self :: rest)
    (hsets : ∀ u p, ∀ e ∈ (w.stores u).metadata.lookup p, MetaSet.Ordered e)
    (hlookup : (w.stores self.uuid).metadata.lookup uri = some s) (h : DirectoryInPlace sha w uri s)
    (hfuel : w.ring.length + 2 < fuel) :
    (∃ w', rebalance_uri sha fuel .PREDECESSOR_UPDATE (Peer.of self) w (uri, s) = some w' ∧ Unchanged w w') ↔
    Idle sha w (uri, s) := by
  obtain ⟨fuel, rfl⟩ := Nat.exists_eq_succ_of_ne_zero (by omega : fuel ≠ 0)
  have hself : self ∈ w.ring := mem_clockwise.mp (hl ▸ List.mem_cons_self)
  have hordered := hsets self.uuid uri s hlookup
  have harrived : Arrived s := ⟨hordered, h.arrived⟩
  obtain ⟨v, hv⟩ : ∃ v, w.add_again self uri s = v := ⟨_, rfl⟩
  have hring : v.ring = w.ring := by rw [← hv]; rfl
  have hentry : (v.stores self.uuid).metadata.lookup uri = some (MetaSet.merged [] s) := by
    rw [← hv, add_again_entry]
  have hiff : Unchanged w v ↔ Restorable false s := hv ▸ add_again_unchanged_iff hlookup hordered
  have hunder : Idle sha w (uri, s) ↔ Restorable false s ∧
      (uri ≠ [] → (MetaSet.max_replication s).index = 0 →
        Absorbed sha w (parent_path uri) [MetaSet.create_directory s (filename uri)]) ∧
      Absorbs (w.entry_at uri) uri (MetaSet.increase_replication_and_clean s) rest := by
    rw [Idle, if_pos h.is_directory, hl]
    rfl
  rw [rebalance_uri_directory fuel hw hself (hw.successor_owner hl) hlookup hordered h, hv, hunder]
  constructor
  · rintro ⟨w', hcall, hsame⟩
    obtain ⟨a, htold, hcopies⟩ := Option.bind_eq_some_iff.mp hcall
    obtain ⟨hva, hra, hpa⟩ := tell_parent_keeps htold
    have ha : a.Exact := hw.of_ring (hra.trans hring) (hpa.trans (by rw [← hv]; rfl))
    have hla : a.clockwise (sha.uri uri) = self :: rest := by rw [clockwise_congr (hra.trans hring), hl]
    -- neither the parent nor the copies touch the entry of the node itself
    have hkept : SameEntry self.uuid uri a w' := next_copy_keeps_entry (by rwa [hra, hring]) rfl hcopies
    have hmerged : some (MetaSet.merged [] s) = some s := by
      rw [← hentry, ← hva self.uuid, ← hkept, hsame.entries self.uuid uri, hlookup]
    have hdots := (restored_iff hordered self false).mp (Option.some.inj hmerged)
    have hwv := hiff.mpr hdots
    have hwa : a.entry_at uri = w.entry_at uri := by
      funext n
      exact (hva n.uuid).trans (hwv.entries n.uuid uri)
    have hsets' : ∀ n, ∀ e ∈ a.entry_at uri n, MetaSet.Ordered e := by
      rw [hwa]
      exact fun n => hsets n.uuid uri
    have hcopied : Absorbs (a.entry_at uri) uri (MetaSet.increase_replication_and_clean s) rest :=
      absorbs_of_next_copy ha hla harrived hsets' rfl hcopies
        fun n _ => (hsame.entries n.uuid uri).trans ((hva n.uuid).trans (hwv.entries n.uuid uri)).symm
    obtain ⟨z, hz, hlast⟩ :=
      hcopied.next_copy sha fuel {} ha hla harrived hsets' rfl (by rw [hra, hring]; omega)
    obtain rfl : z = w' := Option.some.inj (hz.symm.trans hcopies)
    refine ⟨hdots, fun hne hindex => ?_, hwa ▸ hcopied⟩
    refine (absorbed_congr hwv _ _).mp
      (absorbed_of_tell_parent (hwv.exact hw) (hwv.sets hsets) htold (fun u => ?_) ⟨hne, hindex⟩)
    exact ((hwv.symm.trans hsame).trans hlast.symm).entries u _
  · rintro ⟨hdots, hparent, hcopies⟩
    have hwv := hiff.mpr hdots
    obtain ⟨a, htold, hva⟩ := tell_parent_of_absorbed fuel (hwv.exact hw) (hwv.sets hsets)
      (fun hne hindex => (absorbed_congr hwv _ _).mpr (hparent hne hindex)) (by rw [hring]; omega)
    have hwa := hwv.trans hva
    rw [← hwa.entry_at] at hcopies
    obtain ⟨w', hw', hlast⟩ :=
      hcopies.next_copy sha fuel {} (hwa.exact hw) (by rw [clockwise_congr hwa.ring, hl]) harrived
      (fun n => hwa.sets hsets n.uuid uri) rfl (by rw [hwa.ring]; omega)
    exact ⟨w', by rw [htold]; exact hw', hwa.trans hlast⟩

end

end

end Fs

end Chord
