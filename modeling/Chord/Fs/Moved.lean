import Chord.Fs.Move
import Chord.Fs.Remove

/-!
# What a move leaves

The destination is put with the replication that arrives with a move, which is none. The copies of the
source are deleted.
-/

open Circle

namespace Chord

namespace Fs

open World

section

variable {sha : Sha256} {w w' : World} {uri src dst : Path} {bytes : Bytes} {k : UInt32}

/-! ## The disk of the new owner -/

/-- Only the file itself and the directories above it are touched. -/
theorem Received.other {files : Files} {store : Store} (h : Received sha uri store files) {q : Path}
    (hq : ¬ q <+: uri) : files.lookup q = store.files.lookup q := by
  obtain ⟨made, bytes, received, hmade, hreceive⟩ := h
  have hne : q ≠ uri := fun heq => hq (heq ▸ List.prefix_refl _)
  have hparent : made.lookup q = store.files.lookup q := by
    unfold Files.with_parent at hmade
    split at hmade
    · cases hmade
      rfl
    · refine (Files.create_each_some hmade).2 q fun hmem => ?_
      exact hq (((List.mem_inits _ _).mp hmem).trans (parent_path_le uri))
  have hcreated : (if made.exists_at uri then made else made.create_file uri).lookup q = made.lookup q := by
    split
    · rfl
    · unfold Files.create_file
      split
      · exact AList.lookup_insert_ne hne
      · rfl
  unfold receive at hreceive
  dsimp only at hreceive
  generalize (if made.exists_at uri then made else made.create_file uri) = opened at hcreated hreceive
  rw [← hparent, ← hcreated]
  split at hreceive
  · cases hreceive
    rfl
  split at hreceive
  · cases hreceive
    rfl
  · rename_i hwrite
    cases hreceive
    unfold Files.write at hwrite
    split at hwrite
    · cases hwrite
      exact AList.lookup_insert_ne hne
    · cases hwrite

theorem written_stored (huri : FilePath uri) {store : Store} (h : Clear store uri) {files : Files}
    (hfile : files.lookup uri = some (.regular bytes)) (r : Replication) :
    Stored sha (written sha uri files bytes r store) uri bytes r := by
  refine ⟨hfile, ?_⟩
  have hmerged : MetaSet.merged [] [file_record sha uri bytes r] = [file_record sha uri bytes r] :=
    merged_file huri.named.1 (Or.inl rfl)
  rw [written, MetaStore.lookup_add, h.2]
  exact congrArg some hmerged

/-- What a path has on a disk. -/
def Same (q : Path) (store store' : Store) : Prop :=
  store'.files.lookup q = store.files.lookup q ∧ store'.metadata.lookup q = store.metadata.lookup q

theorem Same.trans {q : Path} {a b c : Store} (h : Same q a b) (h' : Same q b c) : Same q a c :=
  ⟨h'.1.trans h.1, h'.2.trans h.2⟩

theorem Same.clear {q : Path} {store store' : Store} (h : Same q store store') (hq : Clear store q) :
    Clear store' q := ⟨h.1.trans hq.1, h.2.trans hq.2⟩

theorem Same.stored {q : Path} {store store' : Store} {r : Replication} (h : Same q store store')
    (hq : Stored sha store q bytes r) : Stored sha store' q bytes r := ⟨h.1.trans hq.1, h.2.trans hq.2⟩

theorem same_above {p q : Path} {store store' : Store} (h : store.Above p store') (hq : ¬ q <+: p) :
    Same q store store' := ⟨by rw [h.files], h.metadata q hq⟩

theorem same_unplace {q : Path} (hq : q ≠ uri) (store : Store) : Same q store (unplace uri store) :=
  ⟨AList.lookup_erase_ne hq, AList.lookup_erase_ne hq⟩

/-- The ring after the destination was put. -/
structure DestinationPut (sha : Sha256) (w : World) (y : Node) (dst : Path) (bytes : Bytes)
  (w' : World) : Prop where
  ring : w'.ring = w.ring
  up : w'.up = w.up
  stored : Stored sha (w'.stores y.uuid) dst bytes .NONE
  clear : ∀ n ∈ w.ring, n.uuid ≠ y.uuid → Clear (w'.stores n.uuid) dst
  others : ∀ u q, ¬ q <+: dst → Same q (w.stores u) (w'.stores u)

/-- A put without replication that succeeds, where nobody has the file. -/
theorem put_arrived {fuel : Nat} {y : Node} (hy : y ∈ w.ring) (hdst : FilePath dst)
    (hclear : ∀ n ∈ w.ring, Clear (w.stores n.uuid) dst)
    (hput : put sha fuel w y dst bytes {} = some (w', .OK)) : DestinationPut sha w y dst bytes w' := by
  cases fuel with
  | zero => cases hput
  | succ fuel =>
    obtain ⟨made, files, stored, hmade, hreceive, hstored, hrest⟩ := put_succeeded hput
    have hfresh : UpToDate sha (w.stores y.uuid) dst bytes := by
      rintro ⟨metadata, hmetadata, -⟩
      rw [(hclear y hy).2] at hmetadata
      cases hmetadata
    obtain rfl : stored = bytes := (received_iff hdst.1 hmade hreceive hstored).mpr hfresh
    have hreceived : Received sha dst (w.stores y.uuid) files := ⟨made, stored, true, hmade, hreceive⟩
    generalize hw₁ : w.set y.uuid (written sha dst files stored .NONE (w.stores y.uuid)) = w₁ at hrest
    obtain ⟨node, hparent⟩ : ∃ node, ignored (meta_add sha fuel w₁ node (parent_path dst)
        (parent_listing (file_record sha dst stored .NONE)) {}) = some w' := by
      have hone : ¬ (Replication.NONE.next.active) := by decide
      simp only [put_rest, if_pos (show Replication.NONE.index = 0 from rfl), if_neg hone, Bool.false_eq_true,
        false_and, if_false, Option.bind_eq_bind, Option.bind_some] at hrest
      obtain ⟨node, -, hrest⟩ := Option.bind_eq_some_iff.mp hrest
      obtain ⟨z, hz, hdone⟩ := Option.bind_eq_some_iff.mp hrest
      cases hdone
      exact ⟨node, hz⟩
    have habove := meta_add_only_above hparent
    have hsame : ∀ u q, ¬ q <+: dst → Same q (w.stores u) (w₁.stores u) := by
      intro u q hq
      rw [← hw₁]
      rcases eq_or_ne u y.uuid with rfl | hne
      · rw [set_stores_self]
        exact ⟨hreceived.other hq, MetaStore.add_lookup_of_ne fun heq => hq (heq ▸ List.prefix_refl _)⟩
      · rw [set_stores_of_ne hne]
        exact ⟨rfl, rfl⟩
    have hbelow := parent_path_not_below hdst.1
    constructor
    · rw [habove.ring, ← hw₁, set_ring]
    · rw [habove.up, ← hw₁]
      rfl
    · have hwritten : Stored sha (w₁.stores y.uuid) dst stored .NONE := by
        rw [← hw₁, set_stores_self]
        exact written_stored hdst (hclear y hy) hstored .NONE
      exact (same_above (habove.stores y.uuid) hbelow).stored hwritten
    · intro n hn hne
      have hsame : Same dst (w.stores n.uuid) (w₁.stores n.uuid) := by
        rw [← hw₁, set_stores_of_ne hne]
        exact ⟨rfl, rfl⟩
      exact (hsame.trans (same_above (habove.stores n.uuid) hbelow)).clear (hclear n hn)
    · intro u q hq
      exact (hsame u q hq).trans
        (same_above (habove.stores u) fun hp => hq (hp.trans (parent_path_le dst)))

/-! ## The source -/

theorem meta_del_only_above {fuel : Nat} {node : Node} {p : Path} {records : MetaSet} {o : Options}
    (h : ignored (meta_del fuel w node p records o) = some w') : w.Above p w' := by
  have hafter : After (w.Above p) (meta_del fuel w node p records o) := by
    refine meta_del_after (fun _ => True) (fun v u current names hv _ _ => hv.trans (set_above ?_))
      fuel w node
      records o (fun _ _ => trivial) (.refl _ _)
    exact ⟨rfl, rfl, rfl, fun q hq => AList.lookup_insert_ne fun heq => hq (heq ▸ List.prefix_refl _)⟩
  exact after_ignored hafter h

/-- A file in place is deleted on every node, and other paths stay. -/
theorem del_in_place {fuel : Nat} {x : Node} (hw : w.Exact) (h : FileInPlace sha w src bytes k)
    (hx : w.successor (sha.uri src) = some x) (hfuel : w.ring.length + 1 < fuel)
    (hdel : del sha fuel w x src false {} = some (w', .OK)) :
    (∀ n ∈ w.ring, Clear (w'.stores n.uuid) src) ∧ ∀ u q, ¬ q <+: src →
      Same q (w.stores u) (w'.stores u) := by
  obtain ⟨fuel, rfl⟩ : ∃ n, fuel = n + 1 := ⟨fuel - 1, by omega⟩
  obtain ⟨z, rest, hl⟩ := hw.exists_owner (sha.uri src)
  obtain rfl : z = x := Option.some.inj ((hw.successor_owner hl).symm.trans hx)
  have hcopies := h.copies
  rw [hl] at hcopies
  rw [del_copies sha fuel false {} hw hl rfl hcopies (by omega)] at hdel
  obtain ⟨v, hv, hdone⟩ := Option.bind_eq_some_iff.mp hdel
  cases hdone
  obtain ⟨node, -, hmeta⟩ := Option.bind_eq_some_iff.mp hv
  have habove := meta_del_only_above hmeta
  constructor
  · intro n hn
    exact (unplaced_clear sha hw hl hcopies n hn).above (habove.stores n.uuid) h.path.1
  · intro u q hq
    have hne : q ≠ src := fun heq => hq (heq ▸ List.prefix_refl _)
    have hcut : Same q (w.stores u)
        ((at_each (fun _ => unplace src) 0 (z :: rest.take (k.toNat - 1)) w).stores u) :=
      ⟨at_each_stores_congr (fun store => store.files.lookup q)
        (fun _ store => (same_unplace hne store).1) _ _ w u,
        at_each_stores_congr (fun store => store.metadata.lookup q)
          (fun _ store => (same_unplace hne store).2) _
          _ w u⟩
    exact hcut.trans (same_above (habove.stores u) fun hp => hq (hp.trans (parent_path_le src)))

/-- A deletion from any node, and the names that it takes from the parents. -/
theorem Moves.del {P : World → Prop} (h : Moves uri P)
    (hname : ∀ fuel v node p records o, P v → After P (meta_del fuel v node p records o)) (fuel : Nat)
    (hw : P w) (self : Node) (o : Options) : After P (del sha fuel w self uri false o) := by
  have hwalks : Walks uri (fun _ => True) (fun _ => True) P :=
    ⟨fun w u _ _ => h.entry w u, fun w u files _ _ => h.remove w u files, fun _ _ _ _ _ _ _ => trivial,
      fun _ _ _ _ _ _ _ _ _ _ _ => trivial⟩
  exact hwalks.del fuel hw trivial (fun _ _ => trivial) fun _ => hname

/-- A deletion keeps the data directory of every node a tree. -/
theorem del_closed {fuel : Nat} {u : Uuid} (hw : (w.stores u).files.Closed) (self : Node) (o : Options)
    {status : StatusCode} (hdel : del sha fuel w self uri false o = some (w', status)) :
    (w'.stores u).files.Closed := by
  have hsteps : Steps sha uri fun w => (w.stores u).files.Closed := closed_steps u
  refine hsteps.toMoves.del ?_ fuel hw self o w' status hdel
  intro fuel v node p records o hv z status hmeta
  have habove := meta_del_only_above
      (show ignored (meta_del fuel v node p records o) = some z by rw [hmeta]; rfl)
  rw [(habove.stores u).files]
  exact hv

/-! ## The whole move -/

/-- The destination is where the source was, in as many copies, and the source is nowhere. -/
structure Moved (sha : Sha256) (w w' : World) (src dst : Path) (bytes : Bytes) (k : UInt32) : Prop where
  gone : ∀ n ∈ w.ring, Clear (w'.stores n.uuid) src
  copies : ∀ j n, (w.clockwise (sha.uri dst))[j]? = some n →
    if j < max 1 (min k.toNat w.ring.length) then Stored sha (w'.stores n.uuid) dst bytes ⟨UInt32.ofNat j, k⟩
      else Clear (w'.stores n.uuid) dst

/-- A move that succeeds is a put at the owner of the destination, and a deletion. -/
theorem move_succeeded {fuel : Nat} {force : Bool} {x : Node} (hne : src ≠ dst)
    (hx : w.successor (sha.uri src) = some x)
    (hfile : (w.stores x.uuid).files.lookup src = some (.regular bytes))
    (hcall : move sha fuel w src dst force = some (w', .OK)) :
    ∃ y v, w.successor (sha.uri dst) = some y ∧ put sha fuel w y dst bytes {} = some (v, .OK) ∧
      ∃ z, v.successor (sha.uri src) = some z ∧ del sha fuel v z src false {} = some (w', .OK) := by
  obtain ⟨⟨status, records⟩, -, hcall⟩ := Option.bind_eq_some_iff.mp hcall
  dsimp only at hcall
  split at hcall
  · rename_i hstatus
    cases hcall
    exact absurd rfl hstatus
  rw [client_mov, if_neg hne, hx, Option.bind_eq_bind, Option.bind_some] at hcall
  unfold mov at hcall
  dsimp only at hcall
  split at hcall
  · cases hcall
  rw [if_neg (by simp [Options.received])] at hcall
  split at hcall
  · cases hcall
  rw [hfile] at hcall
  obtain ⟨y, hy, hcall⟩ := Option.bind_eq_some_iff.mp hcall
  obtain ⟨⟨v, status⟩, hput, hcall⟩ := Option.bind_eq_some_iff.mp hcall
  dsimp only at hcall
  split at hcall
  · rename_i hstatus
    subst hstatus
    obtain ⟨z, hz, hdel⟩ := Option.bind_eq_some_iff.mp hcall
    rw [client_put, if_neg (by simp [Options.received])] at hput
    exact ⟨y, v, hy, hput, z, hz, hdel⟩
  · rename_i hstatus
    cases hcall
    exact absurd rfl hstatus

/-- Of a destination that is not below the source, only the owner has a copy. -/
theorem move_single {fuel : Nat} {y z : Node} {v : World} {rest : List Node} (hw : w.Exact)
    (h : FileInPlace sha w src bytes k) (hdst : FilePath dst) (hbelow : ¬ src <+: dst)
    (habove : ¬ dst <+: src) (hclear : ∀ n ∈ w.ring, Clear (w.stores n.uuid) dst)
    (hfuel : w.ring.length + 1 < fuel) (hl : w.clockwise (sha.uri dst) = y :: rest)
    (hput : put sha fuel w y dst bytes {} = some (v, .OK)) (hz : v.successor (sha.uri src) = some z)
    (hdel : del sha fuel v z src false {} = some (w', .OK)) :
    (∀ n ∈ w.ring, Clear (w'.stores n.uuid) src) ∧ Stored sha (w'.stores y.uuid) dst bytes .NONE ∧
      ∀ n ∈ rest, Clear (w'.stores n.uuid) dst := by
  have hmem : ∀ n ∈ y :: rest, n ∈ w.ring := fun n hn => mem_clockwise.mp (hl ▸ hn)
  have hv := put_arrived (hmem y List.mem_cons_self) hdst hclear hput
  have hplace : FileInPlace sha v src bytes k := by
    refine ⟨h.path, fun j n hn => ?_⟩
    rw [clockwise_congr hv.ring] at hn
    have hcopy := h.copies j n hn
    have hsame := hv.others n.uuid src hbelow
    by_cases hj : j < max 1 k.toNat
    · rw [if_pos hj] at hcopy ⊢
      exact hsame.stored hcopy
    · rw [if_neg hj] at hcopy ⊢
      exact hsame.clear hcopy
  obtain ⟨hgone, hothers⟩ :=
    del_in_place (hw.of_ring hv.ring hv.up) hplace hz (by rw [hv.ring]; exact hfuel) hdel
  rw [hv.ring] at hgone
  refine ⟨hgone, (hothers y.uuid dst habove).stored hv.stored, fun n hn => ?_⟩
  have hne := (List.pairwise_append.mp (hw.pairwise hl)).2.2 n hn y List.mem_cons_self
  exact (hothers n.uuid dst habove).clear (hv.clear n (hmem n (List.mem_cons_of_mem _ hn)) hne)

/-- A move that succeeds keeps the file and its count exactly where the count is one, and the destination
is no path below the file itself. -/
theorem move_keeps_copies_iff (sha : Sha256) (w w' : World) (src dst : Path) (bytes : Bytes) (k : UInt32)
    (fuel : Nat) (force : Bool) (hw : w.Exact) (hdisks : ∀ n ∈ w.ring, (w.stores n.uuid).files.Closed)
    (hsrc : FileInPlace sha w src bytes k) (hdst : FilePath dst) (hne : src ≠ dst)
    (hclear : ∀ n ∈ w.ring, Clear (w.stores n.uuid) dst) (hfuel : w.ring.length + 1 < fuel)
    (hcall : move sha fuel w src dst force = some (w', .OK)) :
    Moved sha w w' src dst bytes k ↔ k = 1 ∧ ¬ src <+: dst := by
  obtain ⟨x, restx, hlx⟩ := hw.exists_owner (sha.uri src)
  obtain ⟨y, rest, hl⟩ := hw.exists_owner (sha.uri dst)
  have hx := hw.successor_owner hlx
  have hxr : x ∈ w.ring := mem_clockwise.mp (hlx ▸ List.mem_cons_self)
  have hyr : y ∈ w.ring := mem_clockwise.mp (hl ▸ List.mem_cons_self)
  have hstored := hsrc.owner hlx
  obtain ⟨y', v, hy', hput, z, hz, hdel⟩ := move_succeeded hne hx hstored.1 hcall
  obtain rfl : y = y' := Option.some.inj ((hw.successor_owner hl).symm.trans hy')
  by_cases hbelow : src <+: dst
  · -- the destination would need the source as a directory
    refine iff_of_false (fun h => ?_) fun h => h.2 hbelow
    have hclosed : (w'.stores y.uuid).files.Closed :=
      del_closed (((closed_steps y.uuid).writes y.uuid false).put fuel
        (hdisks y hyr) y bytes rfl v .OK hput) z {}
        hdel
    have hdstored := h.copies 0 y (by rw [hl]; rfl)
    rw [if_pos (by omega)] at hdstored
    have hmem : dst ∈ (w'.stores y.uuid).files := AList.lookup_isSome.mp (by rw [hdstored.1]; rfl)
    exact AList.lookup_eq_none.mp (h.gone y hyr).1 (hclosed.mem_of_prefix hmem hbelow)
  · have habove : ¬ dst <+: src := by
      intro hunder
      have hmem : src ∈ (w.stores x.uuid).files := AList.lookup_isSome.mp (by rw [hstored.1]; rfl)
      have hfiles := hdisks x hxr
      exact AList.lookup_eq_none.mp (hclear x hxr).1 (hfiles.mem_of_prefix hmem hunder)
    obtain ⟨hgone, hcopy, hothers⟩ := move_single hw hsrc hdst hbelow habove hclear hfuel hl hput hz hdel
    constructor
    · intro h
      have hdstored := h.copies 0 y (by rw [hl]; rfl)
      rw [if_pos (by omega)] at hdstored
      have hrecord := hdstored.2.symm.trans hcopy.2
      simp only [file_record, Option.some.injEq, List.cons.injEq, Metadata.mk.injEq, Replication.NONE,
        Replication.mk.injEq] at hrecord
      exact ⟨by tauto, hbelow⟩
    · rintro ⟨rfl, -⟩
      refine ⟨hgone, fun j n hn => ?_⟩
      have hone : (1 : UInt32).toNat = 1 := rfl
      rw [hl] at hn
      cases j with
      | zero =>
        cases hn
        rw [if_pos (by omega)]
        exact hcopy
      | succ j =>
        rw [if_neg (by omega)]
        exact hothers n (List.mem_of_getElem? hn)

end

/-- A lone node has `/d/f`. -/
theorem World.lone_file_in_place :
    FileInPlace ⟨fun _ => 5, fun _ => 0⟩ World.lone_file [['d'], ['f']] [1] 1 := by
  refine ⟨by unfold FilePath; decide, fun j n hn => ?_⟩
  have hl : World.lone_file.clockwise 5 = [⟨10, ['a']⟩] := by decide
  rw [show World.lone_file.clockwise _ = _ from hl] at hn
  cases j with
  | zero =>
    cases hn
    exact ⟨rfl, rfl⟩
  | succ j => cases hn

theorem move_keeps_copies_iff_lone : ∃ w',
    move ⟨fun _ => 5, fun _ => 0⟩ 6 World.lone_file [['d'], ['f']] [['d'], ['g']] false = some (w', .OK) ∧
      Moved ⟨fun _ => 5, fun _ => 0⟩ World.lone_file w' [['d'], ['f']] [['d'], ['g']] [1] 1 := by
  refine ⟨_, rfl, (move_keeps_copies_iff ⟨fun _ => 5, fun _ => 0⟩ World.lone_file _ [['d'], ['f']]
    [['d'], ['g']] [1] 1 6 false ⟨by decide, by decide, by decide⟩ ?_ World.lone_file_in_place
    (by unfold FilePath; decide) (by decide) ?_ (by decide) rfl).mpr ⟨rfl, by decide⟩⟩
  · intro n hn
    obtain rfl : n = ⟨10, ['a']⟩ := List.mem_singleton.mp hn
    exact closed_of_keys (by decide)
  · intro n hn
    obtain rfl : n = ⟨10, ['a']⟩ := List.mem_singleton.mp hn
    exact ⟨rfl, rfl⟩

/-- The members of `World.three` with two copies of `/d/f`, at 20 and at 30. -/
def World.two_copies : World :=
  ((put_file ⟨fun _ => 15, fun _ => 0⟩ 12 (Peer.of ⟨10, ['a']⟩) World.three [['d'], ['f']] [1] ⟨0, 2⟩).getD
    (World.three, .OK)).1

theorem World.two_copies_in_place :
    FileInPlace ⟨fun _ => 15, fun _ => 0⟩ World.two_copies [['d'], ['f']] [1] 2 := by
  refine ⟨by unfold FilePath; decide, fun j n hn => ?_⟩
  have hl : World.two_copies.clockwise 15 = [⟨20, ['b']⟩, ⟨30, ['c']⟩, ⟨10, ['a']⟩] := by decide
  rw [show World.two_copies.clockwise _ = _ from hl] at hn
  match j with
  | 0 =>
    cases hn
    exact ⟨rfl, rfl⟩
  | 1 =>
    cases hn
    exact ⟨rfl, rfl⟩
  | 2 =>
    cases hn
    exact ⟨rfl, rfl⟩
  | j + 3 => cases hn

/-- The file with two copies is at node 20 only after it was moved. -/
theorem move_loses_copy : ¬ ∀ (sha : Sha256) (w w' : World) (src dst : Path) (bytes : Bytes) (k : UInt32)
    (fuel : Nat) (force : Bool), w.Exact → (∀ n ∈ w.ring, (w.stores n.uuid).files.Closed) →
    FileInPlace sha w src bytes k → FilePath dst → src ≠ dst → (∀ n ∈ w.ring, Clear (w.stores n.uuid) dst) →
    w.ring.length + 1 < fuel → move sha fuel w src dst force = some (w', .OK) →
    Moved sha w w' src dst bytes k := by
  intro h
  have hcases : ∀ n ∈ World.two_copies.ring, n = ⟨10, ['a']⟩ ∨ n = ⟨20, ['b']⟩ ∨ n = ⟨30, ['c']⟩ := by
    intro n hn
    simpa using show n ∈ [(⟨10, ['a']⟩ : Node), ⟨20, ['b']⟩, ⟨30, ['c']⟩] from hn
  have hmoved := h ⟨fun _ => 15, fun _ => 0⟩ World.two_copies _ [['d'], ['f']] [['d'], ['g']] [1] 2 12 false
    ⟨by decide, by decide, by decide⟩ (by
      intro n hn
      rcases hcases n hn with rfl | rfl | rfl <;> exact closed_of_keys (by decide))
    World.two_copies_in_place (by unfold FilePath; decide) (by decide) (by
      intro n hn
      rcases hcases n hn with rfl | rfl | rfl <;> exact ⟨rfl, rfl⟩) (by decide) rfl
  have hcopy := hmoved.copies 1 ⟨30, ['c']⟩ rfl
  rw [if_pos (by decide)] at hcopy
  exact absurd hcopy.1 (by decide)

end Fs

end Chord
