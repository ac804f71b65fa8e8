import Chord.Fs.Remove

/-!
# Putting a file again

A node whose copy has the hash of the new contents is not sent them. Every other node writes
them over what it has.
-/

open Circle

namespace Chord

namespace Fs

/-- Only the way to `uri` is another one, and no other path on it has become a file. -/
structure Store.Along (uri : Path) (store store' : Store) : Prop where
  files : ∀ q, ¬ q <+: uri → store'.files.lookup q = store.files.lookup q
  metadata : ∀ q, ¬ q <+: uri → store'.metadata.lookup q = store.metadata.lookup q
  regular : ∀ q bytes, store'.files.lookup q = some (.regular bytes) → q = uri ∨
    store.files.lookup q = some (.regular bytes)

namespace Store.Along

variable {uri p : Path} {a b c : Store}

theorem refl (uri : Path) (a : Store) : a.Along uri a := ⟨fun _ _ => rfl, fun _ _ => rfl, fun _ _ => Or.inr⟩

theorem trans (h : a.Along uri b) (h' : b.Along uri c) : a.Along uri c where
  files q hq := (h'.files q hq).trans (h.files q hq)
  metadata q hq := (h'.metadata q hq).trans (h.metadata q hq)
  regular q bytes hlookup := by
    rcases h'.regular q bytes hlookup with heq | hlookup
    · exact Or.inl heq
    · exact h.regular q bytes hlookup

theorem of_above (h : a.Above p b) (hp : p <+: uri) : a.Along uri b where
  files q _ := by rw [h.files]
  metadata q hq := h.metadata q fun hqp => hq (hqp.trans hp)
  regular q bytes hlookup := Or.inr (h.files ▸ hlookup)

theorem writable (h : a.Along uri b) (huri : uri ≠ []) (hdisk : Writable a uri) : Writable b uri := by
  intro p hp bytes hlookup
  rcases h.regular p bytes hlookup with rfl | hold
  · exact parent_path_not_below huri hp
  · exact hdisk p hp bytes hold

end Store.Along

namespace World

structure Along (uri : Path) (w w' : World) : Prop where
  ring : w'.ring = w.ring
  up : w'.up = w.up
  stores : ∀ u, (w.stores u).Along uri (w'.stores u)

namespace Along

variable {uri p : Path} {w v z : World}

theorem refl (uri : Path) (w : World) : w.Along uri w := ⟨rfl, rfl, fun _ => .refl _ _⟩

theorem trans (h : w.Along uri v) (h' : v.Along uri z) : w.Along uri z :=
  ⟨h'.ring.trans h.ring, h'.up.trans h.up, fun u => (h.stores u).trans (h'.stores u)⟩

theorem of_above (h : w.Above p v) (hp : p <+: uri) : w.Along uri v :=
  ⟨h.ring, h.up, fun u => .of_above (h.stores u) hp⟩

theorem set {u : Uuid} {store : Store} (h : (w.stores u).Along uri store) : w.Along uri (w.set u store) := by
  refine ⟨rfl, rfl, fun v => ?_⟩
  rcases eq_or_ne v u with rfl | hv
  · rw [set_stores_self]
    exact h
  · rw [set_stores_of_ne hv]
    exact .refl _ _

end Along

/-- A change of the nodes of a list that leaves all other paths alone. -/
theorem at_each_along {g : Nat → Store → Store} {uri : Path} {i : Nat} {l : List Node} {w : World}
    (hl : l.Pairwise fun x y => x.uuid ≠ y.uuid)
    (h : ∀ j, ∀ x ∈ l, (w.stores x.uuid).Along uri (g j (w.stores x.uuid))) :
    w.Along uri (at_each g i l w) := by
  induction l generalizing i w with
  | nil => exact .refl _ _
  | cons x l ih =>
    obtain ⟨hx, hl⟩ := List.pairwise_cons.mp hl
    refine (Along.set (h i x List.mem_cons_self)).trans (ih hl fun j y hy => ?_)
    rw [set_stores_of_ne (hx y hy).symm]
    exact h j y (List.mem_cons_of_mem _ hy)

end World

section

variable (sha : Sha256)

/-! ## One disk -/

/-- What a node has of a file: nothing, or a copy with these bytes. -/
def Holding (store : Store) (uri : Path) : Option Bytes → Prop
  | none => Clear store uri
  | some bytes => ∃ r, Stored sha store uri bytes r

/-- What is there after a put: a copy with the hash of the new contents stays. -/
def kept (old : Option Bytes) (bytes : Bytes) : Bytes :=
  match old with
  | none => bytes
  | some stored => if sha.content stored = sha.content bytes then stored else bytes

variable {uri : Path} {bytes stored : Bytes} {old : Option Bytes} {store : Store}

/-- The next copy has the same bytes, and keeps what it is sent. -/
theorem kept_kept (old : Option Bytes) (bytes : Bytes) :
    kept sha old (kept sha old bytes) = kept sha old bytes := by
  cases old with
  | none => rfl
  | some stored =>
    by_cases hhash : sha.content stored = sha.content bytes
    · simp [kept, hhash]
    · simp [kept, hhash]

theorem file_hashes_equal_stored {r : Replication} (h : Stored sha store uri stored r) (bytes : Bytes) :
    file_hashes_equal store uri (sha.content bytes) ↔ sha.content stored = sha.content bytes := by
  simp [file_hashes_equal, h.2, MetaSet.is_regular_file, file_record]

theorem receive_holding (h : Holding sha store uri old) (bytes : Bytes) {made : Files}
    (hparent : made.lookup (parent_path uri) = some .directory)
    (hfile : made.lookup uri = store.files.lookup uri) :
    ∃ files, receive sha store uri bytes made = (files, true) ∧
      files.lookup uri = some (.regular (kept sha old bytes)) ∧
        ∀ q ≠ uri, files.lookup q = made.lookup q := by
  cases old with
  | none =>
    refine ⟨_, receive_clear sha h bytes hparent (hfile.trans h.1), AList.lookup_insert _, fun q hq => ?_⟩
    rw [AList.lookup_insert_ne hq, Files.create_file, if_pos hparent, AList.lookup_insert_ne hq]
  | some stored =>
    obtain ⟨r, hstored⟩ := h
    have hfile := hfile.trans hstored.1
    have hexists : made.exists_at uri := AList.lookup_isSome.mp (by rw [hfile]; rfl)
    have hequal := file_hashes_equal_stored sha hstored bytes
    by_cases hhash : sha.content stored = sha.content bytes
    · refine ⟨made, ?_, ?_, fun _ _ => rfl⟩
      · simp only [receive, if_pos hexists, if_pos (hequal.mpr hhash)]
      · rw [hfile, kept, if_pos hhash]
    · refine ⟨made.insert uri (.regular bytes), ?_, ?_, fun q hq => AList.lookup_insert_ne hq⟩
      · simp only [receive, if_pos hexists, if_neg (mt hequal.mp hhash), Files.write, hfile]
      · rw [kept, if_neg hhash]
        exact AList.lookup_insert _

/-- The disk after a put of `bytes` that leaves `stored`. -/
def accept (uri : Path) (bytes stored : Bytes) (r : Replication) (store : Store) : Store :=
  written sha uri (receive sha store uri bytes ((store.files.with_parent uri).getD store.files)).1 stored
    r store

/-- A record takes the place of the one with its name. -/
theorem add_record (h : Holding sha store uri old) (huri : FilePath uri) (bytes : Bytes) (r : Replication) :
    (store.metadata.add uri [file_record sha uri bytes r]).1.lookup uri =
      some [file_record sha uri bytes r] := by
  have hdot : ['.'] ∉ [file_record sha uri bytes r].map Metadata.name := by
    simpa [file_record] using huri.named.1.symm
  have hmerged : [file_record sha uri bytes r].foldl (fun s m => MetaSet.insert_or_assign m s)
      ((store.metadata.lookup uri).getD []) = [file_record sha uri bytes r] := by
    cases old with
    | none =>
      rw [h.2]
      rfl
    | some stored =>
      obtain ⟨r', hstored⟩ := h
      rw [hstored.2]
      exact if_pos rfl
  simp only [MetaStore.add, hmerged, if_neg hdot]
  exact AList.lookup_insert _

/-- A directory is made along its path, and no file. -/
theorem create_directories_along {files made : Files} {p : Path}
    (h : files.create_directories p = some made) :
    (∀ q, ¬ q <+: p → made.lookup q = files.lookup q) ∧
      ∀ q b, made.lookup q = some (.regular b) → files.lookup q = some (.regular b) := by
  obtain ⟨hin, hout⟩ := Files.create_each_some h
  refine ⟨fun q hq => hout q fun hmem => hq ((List.mem_inits _ _).mp hmem), fun q b hlookup => ?_⟩
  by_cases hmem : q ∈ p.inits
  · rw [hin q hmem] at hlookup
    cases hlookup
  · rwa [hout q hmem] at hlookup

theorem with_parent_along {files made : Files} (h : files.with_parent uri = some made) :
    (∀ q, ¬ q <+: parent_path uri → made.lookup q = files.lookup q) ∧
      ∀ q b, made.lookup q = some (.regular b) → files.lookup q = some (.regular b) := by
  unfold Files.with_parent at h
  split at h
  · cases h
    exact ⟨fun _ _ => rfl, fun _ _ => id⟩
  · exact create_directories_along h

/-- All that a put does on one disk. -/
theorem accept_spec (h : Holding sha store uri old) (huri : FilePath uri) (hdisk : Writable store uri)
    (bytes : Bytes) (r : Replication) :
    ∃ made files, store.files.with_parent uri = some made ∧
      receive sha store uri bytes made = (files, true) ∧
      files.lookup uri = some (.regular (kept sha old bytes)) ∧
      accept sha uri bytes (kept sha old bytes) r store = written sha uri files (kept sha old bytes) r store ∧
      Stored sha (accept sha uri bytes (kept sha old bytes) r store) uri (kept sha old bytes) r ∧
      store.Along uri (accept sha uri bytes (kept sha old bytes) r store) := by
  obtain ⟨made, hmade, hparent, hfile⟩ := with_parent_spec huri.1 hdisk
  obtain ⟨files, hreceive, hstored, hothers⟩ := receive_holding sha h bytes hparent hfile
  have haccept : accept sha uri bytes (kept sha old bytes) r store =
      written sha uri files (kept sha old bytes) r store := by
    rw [accept, hmade, Option.getD_some, hreceive]
  obtain ⟨hsame, hregular⟩ := with_parent_along hmade
  refine ⟨made, files, hmade, hreceive, hstored, haccept, ?_, ?_⟩
  · rw [haccept]
    exact ⟨hstored, add_record sha h huri _ _⟩
  · rw [haccept]
    constructor
    · intro q hq
      have hne : q ≠ uri := fun heq => hq (heq ▸ List.prefix_refl _)
      exact (hothers q hne).trans (hsame q fun hp => hq (hp.trans (parent_path_le uri)))
    · intro q hq
      exact MetaStore.add_lookup_of_ne fun heq => hq (heq ▸ List.prefix_refl _)
    · intro q b hlookup
      rcases eq_or_ne q uri with heq | hne
      · exact Or.inl heq
      · exact Or.inr (hregular q b ((hothers q hne).symm.trans hlookup))

/-- The file at one node, the parent, the next copy. -/
theorem put_over {fuel : Nat} {w : World} {self : Node} {o : Options} (huri : FilePath uri)
    (hup : self ∈ w.up) (hsource : o.source ≠ some self.uuid) (hrebalance : o.rebalance = false)
    (h : Holding sha (w.stores self.uuid) uri old) (hdisk : Writable (w.stores self.uuid) uri)
    (bytes : Bytes) :
    put sha (fuel + 1) w self uri bytes o =
      (if o.replication.index = 0 then
        (w.successor (sha.uri (parent_path uri))).bind fun node =>
          ignored (meta_add sha fuel
            (w.set self.uuid
              (accept sha uri bytes (kept sha old bytes) o.replication (w.stores self.uuid))) node
            (parent_path uri) (parent_listing (file_record sha uri (kept sha old bytes) o.replication)) o)
      else some (w.set self.uuid
        (accept sha uri bytes (kept sha old bytes) o.replication (w.stores self.uuid)))).bind fun w =>
        (if o.replication.next.active then
          (w.successor self.uuid).bind fun node => ignored (client_put (put sha fuel) self w node uri
            (kept sha old bytes) (init_source self { o with replication := o.replication.next }))
        else some w).bind fun w => some (w, .OK) := by
  obtain ⟨made, files, hmade, hreceive, hstored, haccept, -, -⟩ :=
    accept_spec sha h huri hdisk bytes o.replication
  rw [haccept]
  exact put_received sha hup hsource hrebalance hmade hreceive hstored

/-! ## All disks -/

open World

variable {w : World} {k : UInt32}

/-- A node on the way of the copies of `stored`. -/
def Takes (uri : Path) (stored : Bytes) (store : Store) : Prop :=
  Writable store uri ∧ ∃ old, Holding sha store uri old ∧ kept sha old stored = stored

theorem Takes.along (h : Takes sha uri stored store) (huri : FilePath uri) (r : Replication) :
    store.Along uri (accept sha uri stored stored r store) := by
  obtain ⟨hdisk, old, hold, hkept⟩ := h
  obtain ⟨made, files, -, -, -, -, -, halong⟩ := accept_spec sha hold huri hdisk stored r
  rwa [hkept] at halong

theorem Takes.accepted (h : Takes sha uri stored store) (huri : FilePath uri) (r : Replication) :
    Stored sha (accept sha uri stored stored r store) uri stored r := by
  obtain ⟨hdisk, old, hold, hkept⟩ := h
  obtain ⟨made, files, -, -, -, -, hstored, -⟩ := accept_spec sha hold huri hdisk stored r
  rwa [hkept] at hstored

theorem put_over_relayed {s : Node} {l : List Node} {i fuel : Nat} {x : Node} (huri : FilePath uri)
    (hi : 0 < i) (hik : i < k.toNat) (hfuel : l.length < fuel) (hx : (l ++ [s]).head? = some x)
    (hchain : (l ++ [s]).IsChain fun a b => w.successor a.uuid = some b)
    (hl : (l ++ [s]).Pairwise fun x y => x.uuid ≠ y.uuid) (hup : ∀ x ∈ l, x ∈ w.up)
    (hready : ∀ x ∈ l.take (k.toNat - i), Takes sha uri stored (w.stores x.uuid)) :
    ignored (put sha fuel w x uri stored { replication := .copy k i, source := some s.uuid }) =
      some (at_each (fun i => accept sha uri stored stored (.copy k i)) i (l.take (k.toNat - i)) w) := by
  refine relayed _ (fun i store => 0 < i ∧ Takes sha uri stored store)
    (fun fuel w x i => ignored
      (put sha fuel w x uri stored { replication := .copy k i, source := some s.uuid }))
    ?_ ?_ hik hfuel hx hchain hl hup fun j x hx => ⟨by omega, hready x (List.mem_of_getElem? hx)⟩
  · rintro fuel w x y i hup hxs - hik ⟨hi, hdisk, old, hold, hkept⟩ hnext
    have hindex : (Replication.copy k i).index ≠ 0 := Replication.index_copy_ne_zero hi hik
    have hne : some s.uuid ≠ some x.uuid := fun h => hxs (Option.some.inj h).symm
    rw [put_over sha huri hup hne rfl hold hdisk]
    simp only [hkept, if_neg hindex, Option.bind_some,
      Replication.next_copy_active (by omega : i < max 1 k.toNat)]
    split
    · rw [set_successor, hnext, Option.bind_some, client_put, if_neg (fun h => hne h.2),
        Replication.next_copy]
      exact ignored_bind_some _ _
    · rfl
  · intro fuel w i
    by_cases hs : s ∈ w.up <;> simp [put, hs, ignored]

/-- The copies after the one at the owner. -/
theorem put_over_copies {id : Uuid} {x : Node} {rest : List Node} {fuel : Nat} (hw : w.Exact)
    (hl : w.clockwise id = x :: rest) (huri : FilePath uri) (hfuel : w.ring.length < fuel)
    (hready : ∀ y ∈ rest.take (k.toNat - 1), Takes sha uri stored (w.stores y.uuid)) :
    (if (Replication.copy k 0).next.active then
      (w.successor x.uuid).bind fun node => ignored (client_put (put sha fuel) x w node uri stored
        (init_source x { replication := (Replication.copy k 0).next }))
    else some w) = some (at_each (fun i => accept sha uri stored stored (.copy k i)) 1
      (rest.take (k.toNat - 1)) w) := by
  rw [if_congr (Replication.next_copy_active (by omega)) rfl rfl]
  split
  · rename_i hk
    have hlength : rest.length < w.ring.length := by
      rw [← w.length_clockwise id, hl]
      exact Nat.lt_succ_self _
    obtain ⟨y, hy, hsucc, hchain⟩ := hw.tail_chain hl
    rw [hsucc, Option.bind_some, client_put, Replication.next_copy]
    split
    · rename_i hself
      rw [hw.alone hl (hself.1 ▸ hy), List.take_nil]
      rfl
    · exact put_over_relayed sha huri Nat.one_pos hk (by omega) hy hchain (hw.pairwise hl)
        (fun z hz => hw.up z (mem_clockwise.mp (hl ▸ List.mem_cons_of_mem _ hz))) hready
  · rename_i hk
    have hzero : k.toNat - 1 = 0 := by omega
    rw [hzero, List.take_zero]
    rfl

end

end Fs

end Chord
