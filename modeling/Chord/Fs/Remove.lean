import Chord.Fs.Listing
import Chord.Fs.Place

/-!
# Deleting a file

It goes from the nodes that have a copy, and its name from the listings that have it.
-/

open Circle

namespace Chord

namespace Fs

open World

section

variable (sha : Sha256) {w : World} {uri p : Path} {bytes : Bytes} {k : UInt32} {r : Metadata}

/-! ## `del` -/

/-- The disk without the file and its record. -/
def unplace (uri : Path) (store : Store) : Store :=
  { store with files := store.files.erase uri, metadata := store.metadata.erase uri }

theorem unplace_clear (uri : Path) (store : Store) : Clear (unplace uri store) uri :=
  ⟨AList.lookup_erase _ _, AList.lookup_erase _ _⟩

theorem del_accepted {fuel : Nat} {self : Node} {recursive : Bool} {o : Options} {i : Nat} (hup : self ∈ w.up)
    (hsource : o.source ≠ some self.uuid) (hi : i < max 1 k.toNat)
    (hstored : Stored sha (w.stores self.uuid) uri bytes (.copy k i)) :
    del sha (fuel + 1) w self uri recursive o =
      (if i + 1 < k.toNat then
        (w.successor self.uuid).bind fun node =>
          if node ≠ self then
            ignored (del sha fuel (w.set self.uuid (unplace uri (w.stores self.uuid))) node uri recursive
              (init_source self o))
          else some (w.set self.uuid (unplace uri (w.stores self.uuid)))
      else some (w.set self.uuid (unplace uri (w.stores self.uuid)))).bind fun w =>
        (if o.source = none then
          (w.successor (sha.uri (parent_path uri))).bind fun node =>
            ignored (meta_del fuel w node (parent_path uri)
            [file_record sha uri bytes (.copy k i)] (clear_source o))
        else some w).bind fun w => some (w, .OK) := by
  have hfind : [file_record sha uri bytes (.copy k i)].find? (fun m => m.name = filename uri ∨
      m.is_directory) =
      some (file_record sha uri bytes (.copy k i)) := by simp [file_record]
  have hnode : ([file_record sha uri bytes (.copy k i)].find? fun m => m.name = filename uri).bind
      Metadata.node_ref =
      none := by simp [file_record]
  have hmax : MetaSet.max_replication [file_record sha uri bytes (.copy k i)] = .copy k i := rfl
  have hremove : (w.stores self.uuid).files.remove uri = some ((w.stores self.uuid).files.erase uri) := by
    rw [Files.remove, hstored.1]
  have hmore : ((Replication.copy k i).active ∧ (Replication.copy k i).has_next) ↔ i + 1 < k.toNat := by
    have hlt := Replication.succ_lt_of_lt hi
    rw [Replication.active_copy (by omega), Replication.has_next_copy hlt]
    omega
  have hset : ((w.set self.uuid
      { w.stores self.uuid with metadata := (w.stores self.uuid).metadata.erase uri }).set
      self.uuid { w.stores self.uuid with files := (w.stores self.uuid).files.erase uri,
                                          metadata := (w.stores self.uuid).metadata.erase uri }) =
      w.set self.uuid (unplace uri (w.stores self.uuid)) := set_set _ _ _ _
  rw [del]
  simp only [if_neg (not_not_intro hup), if_neg hsource, hstored.2, hfind]
  rw [if_neg (by simp [file_record]), handle_del_file]
  simp only [hnode, hmax, set_stores_self, hremove, hset, hmore, Option.bind_eq_bind, bind_ite,
    Option.bind_assoc,
    Option.bind_some, set_successor]

theorem del_relayed (bytes : Bytes) {s : Node} {l : List Node} {i fuel : Nat} {x : Node} {recursive : Bool}
    {o : Options} (ho : o.source = some s.uuid) (hik : i < k.toNat) (hfuel : l.length < fuel)
    (hx : (l ++ [s]).head? = some x) (hchain : (l ++ [s]).IsChain fun a b => w.successor a.uuid = some b)
    (hl : (l ++ [s]).Pairwise fun x y => x.uuid ≠ y.uuid) (hup : ∀ x ∈ l, x ∈ w.up)
    (hstored : ∀ j x, (l.take (k.toNat - i))[j]? = some x →
      Stored sha (w.stores x.uuid) uri bytes (.copy k (i + j))) :
    ignored (del sha fuel w x uri recursive o) =
      some (at_each (fun _ => unplace uri) i (l.take (k.toNat - i)) w) := by
  refine relayed (fun _ => unplace uri) (fun i store => Stored sha store uri bytes (.copy k i))
    (fun fuel w x i => ignored (del sha fuel w x uri recursive o)) ?_ ?_ hik hfuel hx hchain hl hup hstored
  · intro fuel w x y i hup hxs hxy hik hstored hnext
    have hne : o.source ≠ some x.uuid := fun h => hxs (Option.some.inj (h.symm.trans ho))
    have hyx : y ≠ x := fun h => hxy (by rw [h])
    rw [del_accepted sha hup hne (by omega) hstored, hnext, Option.bind_some, if_pos hyx,
      init_source_of_source ho]
    simp only [ho, reduceCtorEq, if_false, Option.bind_some, ignored_bind_some]
  · intro fuel w i
    by_cases hs : s ∈ w.up <;> simp [del, hs, ho, ignored]

/-! ## `meta_del` -/

/-- The listing of `p` without the name. -/
def unlist (p : Path) (name : Name) (store : Store) : Store :=
  (store.metadata.lookup p).elim store fun current =>
    { store with metadata := store.metadata.insert p (current.filter fun x => x.name ≠ name) }

theorem record_unlist (p : Path) (name : Name) (store : Store) :
    (unlist p name store).record p name = none := by
  unfold unlist Store.record
  cases h : store.metadata.lookup p with
  | none => simp [h]
  | some current => simp

theorem unlist_above (p : Path) (name : Name) (store : Store) : store.Above p (unlist p name store) := by
  unfold unlist
  cases store.metadata.lookup p with
  | none => exact .refl _ _
  | some current =>
    exact ⟨rfl, rfl, rfl, fun q hq => AList.lookup_insert_ne fun heq => hq (heq ▸ List.prefix_refl _)⟩

theorem meta_del_nil (fuel : Nat) (w : World) (self : Node) (p : Path) (o : Options) :
    ignored (meta_del (fuel + 1) w self p [] o) = some w := by
  rw [meta_del]
  split
  · rfl
  · split <;> rfl

theorem meta_del_accepted (fuel : Nat) {self node : Node} {m : Metadata} {o : Options} {i : Nat}
    (hup : self ∈ w.up) (hsource : o.source ≠ some self.uuid) (hi : i < max 1 k.toNat)
    (hrecord : (w.stores self.uuid).record p m.name = some { r with replication := .copy k i })
    (hnode : w.successor self.uuid = some node) :
    ignored (meta_del (fuel + 2) w self p [m] o) =
      if i + 1 < k.toNat then
        ignored (meta_del (fuel + 1) (w.set self.uuid (unlist p m.name (w.stores self.uuid))) node p
          [{ r with replication := .copy k (i + 1) }] (init_source self o))
      else some (w.set self.uuid (unlist p m.name (w.stores self.uuid))) := by
  obtain ⟨current, hcurrent, hfind⟩ := Option.bind_eq_some_iff.mp hrecord
  have hsent : MetaSet.of_list ([m].map Metadata.sent) = [m.sent] := rfl
  have hremove : (w.stores self.uuid).metadata.remove p [m.sent] =
      some ((unlist p m.name (w.stores self.uuid)).metadata, [{ r with replication := .copy k i }]) := by
    have hsame : current.find? (fun x => x.name = m.sent.name) =
        some { r with replication := .copy k i } := hfind
    have hfilter : current.filter (fun x => x.name ∉ [m.sent].map Metadata.name) =
        current.filter fun x => x.name ≠ m.name := by simp
    rw [MetaStore.remove, hcurrent, Option.map_some, List.map_singleton, hsame, unlist, hcurrent]
    exact congrArg (fun l => some (AList.insert p l _, _)) hfilter
  have hset : w.set self.uuid { w.stores self.uuid with
      metadata := (unlist p m.name (w.stores self.uuid)).metadata } =
      w.set self.uuid (unlist p m.name (w.stores self.uuid)) := by
    rw [unlist, hcurrent]
    rfl
  have hnext : MetaSet.increase_replication_and_clean [{ r with replication := .copy k i }] =
      if i + 1 < k.toNat then [{ r with replication := .copy k (i + 1) }] else [] := by
    have hactive := Replication.next_copy_active hi
    rw [Replication.next_copy] at hactive
    rw [MetaSet.increase_replication_and_clean, List.map_singleton, Replication.next_copy,
      List.filter_singleton]
    simp only [hactive, Bool.cond_decide]
  rw [meta_del]
  simp only [hsent, if_neg (not_not_intro hup), if_neg hsource, if_neg (List.cons_ne_nil _ _), hremove,
    hset, hnext]
  have hone : ∀ x : Metadata, ¬ MetaSet.is_empty [x] := fun x h => absurd h.1 (by simp)
  split
  · rw [if_pos (hone _), set_successor, hnode]
    exact ignored_bind_some _ _
  · rw [set_successor, hnode, Option.bind_eq_bind, Option.bind_some, meta_del_nil]
    rfl

theorem meta_del_relayed {s : Node} {l : List Node} {i fuel : Nat} {x : Node} {o : Options}
    (ho : o.source = some s.uuid) (hik : i < k.toNat) (hfuel : l.length < fuel)
    (hx : (l ++ [s]).head? = some x) (hchain : (l ++ [s]).IsChain fun a b => w.successor a.uuid = some b)
    (hl : (l ++ [s]).Pairwise fun x y => x.uuid ≠ y.uuid) (hup : ∀ x ∈ l, x ∈ w.up)
    (hrecord : ∀ j x, (l.take (k.toNat - i))[j]? = some x →
      (w.stores x.uuid).record p r.name = some { r with replication := .copy k (i + j) }) :
    ignored (meta_del fuel w x p [{ r with replication := .copy k i }] o) =
      some (at_each (fun _ => unlist p r.name) i (l.take (k.toNat - i)) w) := by
  refine relayed (fun _ => unlist p r.name)
    (fun i store => store.record p r.name = some { r with replication := .copy k i })
    (fun fuel w x i => ignored (meta_del fuel w x p [{ r with replication := .copy k i }] o)) ?_ ?_ hik
      hfuel hx
    hchain hl hup hrecord
  · intro fuel w x y i hup hxs _ hik hrecord hnext
    have hne : o.source ≠ some x.uuid := fun h => hxs (Option.some.inj (h.symm.trans ho))
    have haccepted := meta_del_accepted fuel (m := { r with replication := .copy k i }) hup hne
      (by omega : i < max 1 k.toNat) hrecord hnext
    rwa [init_source_of_source ho] at haccepted
  · intro fuel w i
    by_cases hs : s ∈ w.up <;> simp [meta_del, hs, ho, ignored]

/-- The name goes from every listing that has it. -/
theorem meta_del_listing (fuel : Nat) {y : Node} {rest : List Node} {m : Metadata} {o : Options}
    (hw : w.Exact) (hl : w.clockwise (sha.uri p) = y :: rest) (ho : o.source = none) (hm : m.name = r.name)
    (hrecord : ∀ j n, (y :: rest)[j]? = some n → (w.stores n.uuid).record p r.name =
      if j < max 1 k.toNat then some { r with replication := .copy k j } else none)
    (hfuel : w.ring.length < fuel) :
    ∃ w', ignored (meta_del (fuel + 1) w y p [m] o) = some w' ∧ w.Above p w' ∧
      ∀ n ∈ w.ring, (w'.stores n.uuid).record p r.name = none := by
  have hmem : ∀ n ∈ y :: rest, n ∈ w.ring := fun n hn => mem_clockwise.mp (hl ▸ hn)
  have hy := hmem y List.mem_cons_self
  have hpair := hw.pairwise hl
  have hdistinct : ∀ n ∈ rest, n.uuid ≠ y.uuid := fun n hn =>
    (List.pairwise_append.mp hpair).2.2 n hn y List.mem_cons_self
  obtain ⟨fuel, rfl⟩ : ∃ n, fuel = n + 1 := ⟨fuel - 1, by omega⟩
  obtain ⟨x, hx, hsucc, hchain⟩ := hw.tail_chain hl
  have hfirst : (w.stores y.uuid).record p m.name = some { r with replication := .copy k 0 } := by
    rw [hm, hrecord 0 y rfl, if_pos (by omega)]
  have howner := meta_del_accepted fuel (o := o) (hw.up y hy) (by simp [ho])
      (by omega : 0 < max 1 k.toNat) hfirst
    hsucc
  generalize hw₁ : w.set y.uuid (unlist p m.name (w.stores y.uuid)) = w₁ at howner
  have hothers : ∀ n ∈ rest, w₁.stores n.uuid = w.stores n.uuid := fun n hn => by
    rw [← hw₁, set_stores_of_ne (hdistinct n hn)]
  have habove : w.Above p w₁ := hw₁ ▸ set_above (unlist_above _ _ _)
  have hcopies : ignored (meta_del (fuel + 2) w y p [m] o) =
      some (at_each (fun _ => unlist p r.name) 1 (rest.take (k.toNat - 1)) w₁) := by
    rw [howner]
    split
    · rename_i hk
      refine meta_del_relayed (s := y) (by simp [init_source, ho]) hk ?_ hx
        (by simpa only [successor_congr habove.ring] using hchain) hpair (fun n hn => ?_) fun j n hn => ?_
      · have hlength : rest.length < w.ring.length := by
          rw [← w.length_clockwise (sha.uri p), hl]
          exact Nat.lt_succ_self _
        omega
      · rw [habove.up]
        exact hw.up n (hmem n (List.mem_cons_of_mem _ hn))
      · rw [List.getElem?_take] at hn
        split at hn
        · rw [hothers n (List.mem_of_getElem? hn), hrecord (j + 1) n hn, if_pos (by omega), Nat.add_comm 1 j]
        · cases hn
    · rename_i hk
      rw [show k.toNat - 1 = 0 by omega, List.take_zero]
      rfl
  refine ⟨_, hcopies, habove.trans (at_each_above (fun _ => unlist_above p r.name) _ _ _), fun n hn => ?_⟩
  obtain ⟨j, hj⟩ := List.getElem?_of_mem (mem_clockwise.mpr hn : n ∈ w.clockwise (sha.uri p))
  rw [hl] at hj
  cases j with
  | zero =>
    cases hj
    rw [at_each_stores_of_ne fun z hz => hdistinct z (List.mem_of_mem_take hz), ← hw₁, set_stores_self, ← hm,
      record_unlist]
  | succ j =>
    rw [List.getElem?_cons_succ] at hj
    rw [at_each_take_stores (List.pairwise_append.mp hpair).1 hj]
    split
    · exact record_unlist _ _ _
    · rw [hothers n (List.mem_of_getElem? hj), hrecord (j + 1) n hj, if_neg (by omega)]

/-! ## Putting a file and deleting it -/

/-- Every copy goes. -/
theorem del_copies (fuel : Nat) {x : Node} {rest : List Node} (recursive : Bool) (o : Options) (hw : w.Exact)
    (hl : w.clockwise (sha.uri uri) = x :: rest) (ho : o.source = none)
    (hstored : ∀ j n, (x :: rest)[j]? = some n → if j < max 1 k.toNat then
      Stored sha (w.stores n.uuid) uri bytes (.copy k j) else Clear (w.stores n.uuid) uri)
    (hfuel : w.ring.length < fuel) :
    del sha (fuel + 1) w x uri recursive o =
      ((w.successor (sha.uri (parent_path uri))).bind fun node => ignored (meta_del fuel
        (at_each (fun _ => unplace uri) 0 (x :: rest.take (k.toNat - 1)) w) node (parent_path uri)
        [file_record sha uri bytes (.copy k 0)] (clear_source o))).bind fun w => some (w, .OK) := by
  have hmem : ∀ n ∈ x :: rest, n ∈ w.ring := fun n hn => mem_clockwise.mp (hl ▸ hn)
  have hpair := hw.pairwise hl
  have hx := hstored 0 x rfl
  rw [if_pos (by omega)] at hx
  rw [del_accepted sha (hw.up x (hmem x List.mem_cons_self)) (by simp [ho]) (by omega) hx, at_each]
  simp only [if_pos ho]
  generalize hw₁ : w.set x.uuid (unplace uri (w.stores x.uuid)) = w₁
  have hring : w₁.ring = w.ring := hw₁ ▸ rfl
  have hup : w₁.up = w.up := hw₁ ▸ rfl
  have hcopies : (if 0 + 1 < k.toNat then
      (w.successor x.uuid).bind fun node =>
        if node ≠ x then ignored (del sha fuel w₁ node uri recursive (init_source x o)) else some w₁
      else some w₁) = some (at_each (fun _ => unplace uri) (0 + 1) (rest.take (k.toNat - 1)) w₁) := by
    split
    · rename_i hk
      obtain ⟨y, hy, hsucc, hchain⟩ := hw.tail_chain hl
      rw [hsucc, Option.bind_some]
      split
      · refine del_relayed sha bytes (s := x) (by simp [init_source, ho]) hk ?_ hy
          (by simpa only [successor_congr hring] using hchain) hpair (fun n hn => ?_) fun j n hn => ?_
        · have hlength : rest.length < w.ring.length := by
            rw [← w.length_clockwise (sha.uri uri), hl]
            exact Nat.lt_succ_self _
          omega
        · rw [hup]
          exact hw.up n (hmem n (List.mem_cons_of_mem _ hn))
        · rw [List.getElem?_take] at hn
          split at hn
          · have hn' := hstored (j + 1) n hn
            have hne := (List.pairwise_append.mp hpair).2.2 n (List.mem_of_getElem? hn) x List.mem_cons_self
            rw [if_pos (by omega), Nat.add_comm j 1] at hn'
            rwa [← hw₁, set_stores_of_ne hne]
          · cases hn
      · rename_i hself
        rw [hw.alone hl (not_not.mp hself ▸ hy), List.take_nil]
        rfl
    · rename_i hk
      rw [show k.toNat - 1 = 0 by omega, List.take_zero]
      rfl
  rw [hcopies, Option.bind_some]
  simp only [successor_congr (at_each_ring _ _ _), successor_congr hring]

/-- A file does not change the record of a name in its parent. -/
theorem place_record (huri : uri ≠ []) (r : Replication) (store : Store) (name : Name) :
    (place sha uri bytes r store).record (parent_path uri) name = store.record (parent_path uri) name := by
  rw [Store.record, place, MetaStore.add_lookup_of_ne (parent_path_ne huri)]
  rfl

theorem unplace_record (huri : uri ≠ []) (store : Store) (name : Name) :
    (unplace uri store).record (parent_path uri) name = store.record (parent_path uri) name := by
  rw [Store.record, unplace, AList.lookup_erase_ne (parent_path_ne huri)]
  rfl

/-- The file is on the first nodes after the owner, and its name is in the listings of the first
nodes after the owner of the parent. -/
structure Laid (w : World) (uri : Path) (bytes : Bytes) (k : UInt32) : Prop where
  stored : ∀ j n, (w.clockwise (sha.uri uri))[j]? = some n → if j < max 1 k.toNat then
    Stored sha (w.stores n.uuid) uri bytes (.copy k j) else Clear (w.stores n.uuid) uri
  listed : ∀ j n, (w.clockwise (sha.uri (parent_path uri)))[j]? = some n →
    (w.stores n.uuid).record (parent_path uri) (filename uri) = if j < max 1 k.toNat then
      some { (file_record sha uri bytes (.copy k 0)).sent with replication := .copy k j } else none

theorem put_laid (w : World) (self : Peer) (bytes : Bytes) (hw : w.Exact) (huri : FilePath uri)
    (hclear : ∀ n ∈ w.ring, Clear (w.stores n.uuid) uri)
    (hlist : ∀ n ∈ w.ring, ¬ Lists (w.stores n.uuid) (parent_path uri) (filename uri))
    (hdisk : ∀ n ∈ (w.clockwise (sha.uri uri)).take (max 1 k.toNat), Writable (w.stores n.uuid) uri) :
    ∃ enough, ∀ fuel ≥ enough, ∃ w', put_file sha fuel self w uri bytes ⟨0, k⟩ = some (w', .OK) ∧
      w'.ring = w.ring ∧ w'.up = w.up ∧ Laid sha w' uri bytes k := by
  obtain ⟨lap, hlap⟩ := exists_lap
  obtain ⟨x, rest, hl⟩ := hw.exists_owner (sha.uri uri)
  obtain ⟨y, rest', hl'⟩ := hw.exists_owner (sha.uri (parent_path uri))
  refine ⟨(parent_path uri).length * (lap + 1) + lap + w.ring.length + 3, fun fuel hfuel => ?_⟩
  obtain ⟨fuel, rfl⟩ : ∃ n, fuel = n + 2 := ⟨fuel - 2, by omega⟩
  have hrecord : ∀ n ∈ w.ring,
      ¬ Lists ((w.set x.uuid (place sha uri bytes (.copy k 0) (w.stores x.uuid))).stores n.uuid)
      (parent_path uri) (filename uri) := by
    intro n hn
    rw [← record_eq_none]
    rcases eq_or_ne n.uuid x.uuid with heq | hne
    · rw [heq, set_stores_self, place_record sha huri.1, ← heq]
      exact record_eq_none.mpr (hlist n hn)
    · rw [set_stores_of_ne hne]
      exact record_eq_none.mpr (hlist n hn)
  obtain ⟨w₁, hparent, h₁, hlisted⟩ := meta_add_listing sha hlap fuel
    (file_record sha uri bytes (.copy k 0)) { replication := .copy k 0 }
    (hw.of_ring rfl rfl : (w.set x.uuid (place sha uri bytes (.copy k 0) (w.stores x.uuid))).Exact) hl' rfl
    huri.named
    rfl hrecord (by rw [set_ring]; omega)
  have hput := put_file_eq sha self hw huri.1 hl hclear hdisk (by omega) (hw.successor_owner hl') hparent h₁
  refine ⟨_, hput, by rw [at_each_ring, h₁.ring]; rfl, by rw [at_each_up, h₁.up]; rfl, ?_⟩
  have hclockwise : ∀ id,
      (at_each (fun i => place sha uri bytes (.copy k i)) 1 (rest.take (k.toNat - 1)) w₁).clockwise
      id = w.clockwise id := fun id => clockwise_congr (by rw [at_each_ring, h₁.ring]; rfl) id
  constructor
  · intro j n hn
    rw [hclockwise, hl] at hn
    exact put_stored sha hw huri hl hclear h₁ hn
  · intro j n hn
    rw [hclockwise, hl'] at hn
    rw [at_each_stores_congr (fun store => store.record (parent_path uri) (filename uri))
      (fun i store => place_record sha huri.1 _ store _)]
    exact hlisted j n hn

/-- A copy is gone from every node: the node had it, or it never had one. -/
theorem unplaced_clear {x : Node} {rest : List Node} (hw : w.Exact) (hl : w.clockwise (sha.uri uri) = x :: rest)
    (hstored : ∀ j n, (x :: rest)[j]? = some n → if j < max 1 k.toNat then
      Stored sha (w.stores n.uuid) uri bytes (.copy k j) else Clear (w.stores n.uuid) uri) :
    ∀ n ∈ w.ring,
      Clear ((at_each (fun _ => unplace uri) 0 (x :: rest.take (k.toNat - 1)) w).stores n.uuid) uri := by
  intro n hn
  obtain ⟨j, hj⟩ := List.getElem?_of_mem (mem_clockwise.mpr hn : n ∈ w.clockwise (sha.uri uri))
  rw [hl] at hj
  have hpair : (x :: rest).Pairwise fun x y => x.uuid ≠ y.uuid :=
    ((List.perm_append_singleton x rest).pairwise_iff fun h => Ne.symm h).mp (hw.pairwise hl)
  have hn := hstored j n hj
  rw [← List.take_succ_cons, at_each_take_stores hpair hj]
  split
  · exact unplace_clear _ _
  · rwa [if_neg (by omega)] at hn

theorem del_laid (w : World) (recursive : Bool) (fuel : Nat) (hw : w.Exact) (huri : FilePath uri)
    (hlaid : Laid sha w uri bytes k) (hfuel : w.ring.length + 2 < fuel) :
    ∃ w', facade_del sha fuel w uri recursive = some (w', .OK) ∧ ∀ n ∈ w.ring, Clear (w'.stores n.uuid) uri ∧
      ¬ Lists (w'.stores n.uuid) (parent_path uri) (filename uri) := by
  obtain ⟨fuel, rfl⟩ : ∃ n, fuel = n + 2 := ⟨fuel - 2, by omega⟩
  obtain ⟨x, rest, hl⟩ := hw.exists_owner (sha.uri uri)
  obtain ⟨y, rest', hl'⟩ := hw.exists_owner (sha.uri (parent_path uri))
  have hstored := hlaid.stored
  have hlisted := hlaid.listed
  rw [hl] at hstored
  rw [hl'] at hlisted
  have hdel := del_copies sha (fuel + 1) recursive {} hw hl rfl hstored (by omega)
  rw [hw.successor_owner hl', Option.bind_some] at hdel
  generalize hw₁ : at_each (fun _ => unplace uri) 0 (x :: rest.take (k.toNat - 1)) w = w₁ at hdel
  have hring : w₁.ring = w.ring := by rw [← hw₁, at_each_ring]
  have hup : w₁.up = w.up := by rw [← hw₁, at_each_up]
  have hrecord : ∀ j n, (y :: rest')[j]? = some n →
      (w₁.stores n.uuid).record (parent_path uri) (filename uri) =
      if j < max 1 k.toNat then
        some { (file_record sha uri bytes (.copy k 0)).sent with replication := .copy k j } else none := by
    intro j n hn
    rw [← hw₁, at_each_stores_congr (fun store => store.record (parent_path uri) (filename uri))
      (fun _ store => unplace_record huri.1 store _)]
    exact hlisted j n hn
  obtain ⟨w₂, hmeta, h₂, hnone⟩ := meta_del_listing sha fuel (o := clear_source {}) (p := parent_path uri)
    (m := file_record sha uri bytes (.copy k 0)) (r := (file_record sha uri bytes (.copy k 0)).sent)
    (hw.of_ring hring hup) (by rw [clockwise_congr hring, hl']) rfl rfl hrecord (by rw [hring]; omega)
  refine ⟨w₂, ?_, fun n hn => ⟨?_, record_eq_none.mp (hnone n (hring ▸ hn))⟩⟩
  · rw [facade_del, hw.successor_owner hl, Option.bind_eq_bind, Option.bind_some, hdel, hmeta]
    rfl
  · have hclear := unplaced_clear sha hw hl hstored n hn
    rw [hw₁] at hclear
    exact hclear.above (h₂.stores n.uuid) huri.1

/-- A file that is put and then deleted leaves nothing on any node, and no name in any listing. -/
theorem put_del_spec (w : World) (self : Peer) (uri : Path) (bytes : Bytes) (k : UInt32) (recursive : Bool)
    (hw : w.Exact) (huri : FilePath uri) (hclear : ∀ n ∈ w.ring, Clear (w.stores n.uuid) uri)
    (hlist : ∀ n ∈ w.ring, ¬ Lists (w.stores n.uuid) (parent_path uri) (filename uri))
    (hdisk : ∀ n ∈ (w.clockwise (sha.uri uri)).take (max 1 k.toNat), Writable (w.stores n.uuid) uri) :
    ∃ enough, ∀ fuel ≥ enough, ∃ w₁ w₂, put_file sha fuel self w uri bytes ⟨0, k⟩ = some (w₁, .OK) ∧
      facade_del sha fuel w₁ uri recursive = some (w₂, .OK) ∧
      ∀ n ∈ w.ring, Clear (w₂.stores n.uuid) uri ∧
        ¬ Lists (w₂.stores n.uuid) (parent_path uri) (filename uri) := by
  obtain ⟨enough, hput⟩ := put_laid sha w self bytes hw huri hclear hlist hdisk
  refine ⟨enough + w.ring.length + 3, fun fuel hfuel => ?_⟩
  obtain ⟨w₁, hw₁, hring, hup, hlaid⟩ := hput fuel (by omega)
  obtain ⟨w₂, hw₂, hgone⟩ := del_laid sha w₁ recursive fuel (hw.of_ring hring hup) huri hlaid
    (by rw [hring]; omega)
  exact ⟨w₁, w₂, hw₁, hw₂, hring ▸ hgone⟩

end

theorem put_del_three : ∃ enough, ∀ fuel ≥ enough, ∃ w₁ w₂,
    put_file ⟨fun _ => 15, fun _ => 0⟩ fuel (Peer.of ⟨10, ['a']⟩) World.three [['d'], ['f']] [1, 2] ⟨0, 2⟩ =
      some (w₁, .OK) ∧
      facade_del ⟨fun _ => 15, fun _ => 0⟩ fuel w₁ [['d'], ['f']] false = some (w₂, .OK) ∧
      ∀ n ∈ World.three.ring, Clear (w₂.stores n.uuid) [['d'], ['f']] ∧
        ¬ Lists (w₂.stores n.uuid) (parent_path [['d'], ['f']]) (filename [['d'], ['f']]) :=
  put_del_spec ⟨fun _ => 15, fun _ => 0⟩ World.three (Peer.of ⟨10, ['a']⟩) [['d'], ['f']] [1, 2] 2 false
    World.three_exact (by unfold FilePath; decide) (fun _ _ => ⟨rfl, rfl⟩)
    (fun _ _ => record_eq_none.mp rfl) (fun _ _ => writable_fresh 1 _)

end Fs

end Chord
