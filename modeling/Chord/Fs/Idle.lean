import Chord.Fs.InPlace

/-!
# A rebalance that changes nothing

The entries come in the order of `get_all`, the deepest first. Nothing that follows a file touches its
entry, and a file with one copy gets a reference to the node itself.
-/

open Circle

namespace Chord

namespace Fs

open World

/-! ## The order of `get_all` -/

namespace MetaStore

instance : Std.Total uri_descending := by
  constructor
  intro a b
  unfold uri_descending
  by_cases h : slashes a = slashes b
  · rw [if_neg (not_not_intro h), if_neg (not_not_intro h.symm)]
    by_contra hnot
    obtain ⟨hab, hba⟩ := not_or.mp hnot
    exact List.lt_asymm (not_not.mp hab) (not_not.mp hba)
  · rw [if_pos h, if_pos (Ne.symm h)]
    omega

instance : IsTrans Path uri_descending := by
  constructor
  intro a b c hab hbc
  unfold uri_descending at hab hbc ⊢
  by_cases h : slashes a = slashes b
  · rw [if_neg (not_not_intro h)] at hab
    rw [h]
    by_cases h' : slashes b = slashes c
    · rw [if_neg (not_not_intro h')] at hbc ⊢
      exact List.not_lt.mpr (List.le_trans (List.not_lt.mp hbc) (List.not_lt.mp hab))
    · rwa [if_pos h'] at hbc ⊢
  · rw [if_pos h] at hab
    split at hbc <;> (rw [if_pos (by omega)]; omega)

theorem get_all_descending (store : MetaStore) :
    store.get_all.Pairwise fun e e' => uri_descending e.1 e'.1 := by
  refine List.Pairwise.filterMap _ ?_ (List.pairwise_insertionSort uri_descending store.keys)
  intro p q hpq e he e' he'
  obtain ⟨s, -, rfl⟩ := Option.map_eq_some_iff.mp he
  obtain ⟨t, -, rfl⟩ := Option.map_eq_some_iff.mp he'
  exact hpq

theorem slashes_lt {p q : Path} (hp : p ≠ []) (hpq : p <+: q) (hne : p ≠ q) : slashes p < slashes q := by
  obtain ⟨t, rfl⟩ := hpq
  cases t with
  | nil => exact absurd (List.append_nil p).symm hne
  | cons n t =>
    simp only [slashes, text, List.append_eq_nil_iff, hp, false_and, if_false, List.flatMap_append,
      List.flatMap_cons,
      List.count_append, List.cons_append, List.count_cons_self]
    omega

/-- What comes after an entry is not below it. -/
theorem not_below_of_descending {p q : Path} (hp : p ≠ []) (hne : p ≠ q) (h : uri_descending p q) :
    ¬ p <+: q := by
  intro hpq
  have hlt := slashes_lt hp hpq hne
  unfold uri_descending at h
  rw [if_pos (by omega)] at h
  omega

end MetaStore

section

variable {sha : Sha256} {w w' : World} {uri q : Path}

/-! ## Entries that a turn does not touch -/

theorem SameEntry.set {v : World} (h : SameEntry self q w v) {u : Uuid} {store : Store}
    (hstore : self = u → store.metadata.lookup q = (v.stores u).metadata.lookup q) :
    SameEntry self q w (v.set u store) := by
  unfold SameEntry at h ⊢
  rcases eq_or_ne self u with rfl | hne
  · rw [set_stores_self, hstore rfl, h]
  · rw [set_stores_of_ne hne, h]

theorem same_entry_writes {u s : Uuid} {rebalance : Bool} (h : ¬ q <+: uri) :
    WritesIn sha uri s (fun _ => True) rebalance (SameEntry u q w) where
  file _ _ _ _ _ hv _ := hv.set fun _ => rfl
  written _ _ _ _ _ _ _ hv _ :=
    hv.set fun _ => MetaStore.add_lookup_of_ne fun heq => h (heq ▸ List.prefix_refl _)
  parent _ _ hv habove := ((habove.stores u).metadata q fun hq => h (hq.trans (parent_path_le uri))).trans hv
  next _ _ _ _ _ _ _ := trivial
  removes _ :=
    { entry := fun _ _ _ _ hv => hv.set fun _ => AList.lookup_erase_ne fun heq => h (heq ▸ List.prefix_refl _)
      file := fun _ _ _ _ _ hv _ => hv.set fun _ => rfl
      next := fun _ _ _ _ _ _ _ => trivial
      reference := fun _ _ _ _ _ _ _ _ _ _ _ => trivial }

theorem rebalance_uri_keeps_entry {fuel : Nat} {event : RebalanceEvent} {self : Peer} {metadata : MetaSet}
    (h : ¬ q <+: uri) (hcall : rebalance_uri sha fuel event self w (uri, metadata) = some w') (u : Uuid) :
    SameEntry u q w w' := by
  have hne : q ≠ uri := fun heq => h (heq ▸ List.prefix_refl _)
  rcases rebalance_uri_cases hcall with ⟨_, hcall⟩ | rfl | ⟨data, node, o, status, -, -, ho, -, hput⟩
  · obtain ⟨current, node, v, status, -, -, hadd, hafter⟩ := rebalance_metadata_cases hcall
    have herased : SameEntry u q w (w.set self.disk
        { w.stores self.disk with metadata := (w.stores self.disk).metadata.erase uri }) :=
      SameEntry.set rfl fun _ => AList.lookup_erase_ne hne
    have hv : SameEntry u q w v := by
      have habove := meta_add_only_above (congrArg ignored hadd)
      exact ((habove.stores u).metadata q h).trans herased
    cases hafter with
    | kept => exact hv
    | removed => exact hv.set fun _ => rfl
    | restored => exact hv.set fun _ => MetaStore.add_lookup_of_ne hne
  · rfl
  · have hwrites := fun rebalance => @same_entry_writes sha w uri q u node.uuid rebalance h
    cases fuel with
    | zero => cases hput
    | succ fuel =>
      rcases put_split hput with rfl | ⟨files, hfiles, rfl | ⟨stored, hrest⟩⟩
      · rfl
      · exact SameEntry.set rfl fun _ => rfl
      · have hwritten : ∀ replication,
            SameEntry u q w (w.set node.uuid
              (written sha uri files stored replication (w.stores node.uuid))) :=
          fun _ => SameEntry.set rfl fun _ => MetaStore.add_lookup_of_ne hne
        exact (hwrites o.rebalance).put_rest fuel (hwritten _)
          (fun v x bytes o' _ ho' _ hv => (hwrites o'.rebalance).put fuel hv trivial bytes ho')
          (fun _ _ _ _ => trivial) (by rw [ho]; rfl) stored w' status hrest

/-! ## The turn of a file with one copy -/

theorem up_steps (up : List Node) : Steps sha uri fun w => w.up = up := frame_steps (fun _ _ _ => rfl) up

theorem rebalance_ring {fuel : Nat} {event : RebalanceEvent} {self : Peer} {metadata : List (Path × MetaSet)}
    (hcall : rebalance sha fuel event self w metadata = some w') : w'.ring = w.ring ∧ w'.up = w.up := by
  refine foldlM_keeps (P := fun v => v.ring = w.ring ∧ v.up = w.up) ?_ ⟨rfl, rfl⟩ hcall
  rintro v ⟨uri, records⟩ v' - ⟨hring, hup⟩ hturn
  exact ⟨(ring_steps w.ring).rebalance_uri hring hturn, (up_steps w.up).rebalance_uri hup hturn⟩

/-- All but `.` and `..` is on a node that the record names. -/
def Referred (s : MetaSet) : Prop := ∀ m ∈ s, Named m.name → m.node_ref ≠ none

theorem Referred.merged {s : MetaSet} (h : Referred s) : Referred (MetaSet.merged [] s) := by
  intro m hm hnamed
  rcases MetaSet.mem_merged hm with (hm | hm) | rfl | rfl
  · exact h m hm hnamed
  · cases hm
  · exact absurd rfl hnamed.1
  · exact absurd rfl hnamed.2

theorem referenced_referred (self : Node) (s : MetaSet) : Referred (referenced self true s) := by
  intro m hm _
  obtain ⟨x, -, rfl⟩ := List.mem_map.mp hm
  exact Option.some_ne_none _

theorem Referred.entry_of {s : MetaSet} (h : Referred s) (p : Path) : Referred (entry_of p s) := by
  unfold Fs.entry_of
  split
  · intro m hm hnamed
    obtain rfl := List.mem_singleton.mp hm
    exact absurd rfl hnamed.1
  · exact h

/-- The owner refers to itself. -/
theorem rebalance_uri_refers {fuel : Nat} {self : Node} {metadata : MetaSet} (hself : self ∈ w.ring)
    (hup : self ∈ w.up) (howner : w.successor (sha.uri uri) = some self)
    (hcopyable : MetaSet.is_shallow_copyable self metadata)
    (hcall : rebalance_uri sha fuel .PREDECESSOR_UPDATE (Peer.of self) w (uri, metadata) = some w') :
    ∃ s, (w'.stores self.uuid).metadata.lookup uri = some s ∧ Referred s := by
  unfold rebalance_uri at hcall
  simp only [Peer.of, hcopyable, ne_eq, reduceCtorEq, not_false_eq_true, and_true, decide_true, or_true,
    if_true] at hcall
  obtain ⟨t, node, v, status, -, hnode, hadd, hafter⟩ := rebalance_metadata_cases hcall
  obtain rfl : self = node := Option.some.inj (howner.symm.trans hnode)
  obtain ⟨w₁, hw₁⟩ : ∃ w₁,
      w.set self.uuid { w.stores self.uuid with metadata := (w.stores self.uuid).metadata.erase uri } = w₁ :=
    ⟨_, rfl⟩
  have hnone : (w₁.stores self.uuid).metadata.lookup uri = none := by
    rw [← hw₁, set_stores_self, AList.lookup_erase]
  obtain ⟨records, hrecords⟩ : ∃ records, MetaSet.of_list ((referenced self true t).map Metadata.sent) =
      records := ⟨_, rfl⟩
  have hreferred : Referred records := by
    intro m hm hnamed
    obtain ⟨x, hx, rfl⟩ := List.mem_map.mp (MetaSet.mem_of_list (hrecords ▸ hm))
    exact referenced_referred self t x hx hnamed
  rw [hw₁] at hadd
  cases fuel with
  | zero => cases hadd
  | succ fuel =>
    by_cases hempty : records = []
    · -- a request without records is refused, and the entry goes back to the disk
      have hrefused : v = w₁ ∧ status ≠ .ALREADY_EXISTS ∧ status ≠ .OK := by
        rw [meta_add] at hadd
        simp only [hrecords, hempty, if_true, reduceCtorEq, if_false] at hadd
        split at hadd
        · cases hadd
          exact ⟨rfl, by decide, by decide⟩
        · cases hadd
          exact ⟨rfl, by decide, by decide⟩
      obtain ⟨rfl, hexists, hOK⟩ := hrefused
      cases hafter with
      | kept hstatus => exact absurd hstatus (not_or.mpr ⟨hOK, hexists⟩)
      | removed => exact absurd rfl hexists
      | restored =>
        refine ⟨_, ?_, (referenced_referred self t).merged⟩
        rw [set_stores_self, MetaStore.lookup_add, hnone, Option.getD_none]
    · have hup₁ : self ∈ w₁.up := by
        rw [← hw₁]
        exact hup
      have hself₁ : self ∈ w₁.ring := by
        rw [← hw₁]
        exact hself
      have hnew : ∀ existing ∈ (w₁.stores self.uuid).metadata.lookup uri,
          ¬ MetaSet.equal_basic existing records := by
        rw [hnone]
        simp
      obtain ⟨rfl, hstored⟩ := meta_add_leaves_entry hself₁ hrecords hup₁ (by simp) hempty hnew (by simp) hadd
      rw [hnone, Option.getD_none] at hstored
      cases hafter with
      | kept => exact ⟨_, hstored, (hreferred.entry_of uri).merged⟩
      | restored hOK => exact absurd rfl hOK

/-! ## The run over `get_all` -/

section

variable {v : World} {self : Node} {s : MetaSet}

theorem DirectoryInPlace.unchanged (h : DirectoryInPlace sha w uri s) (hsame : Unchanged w v) :
    DirectoryInPlace sha v uri s := by
  refine ⟨h.path, h.is_directory, h.arrived, fun m hm hnamed j n hn => ?_⟩
  rw [clockwise_congr hsame.ring] at hn
  rw [Store.record, hsame.entries n.uuid uri]
  exact h.copies m hm hnamed j n hn

theorem InPlace.unchanged (h : InPlace sha w self) (hsame : Unchanged w v) : InPlace sha v self where
  exact := hsame.exact h.exact
  member := hsame.ring ▸ h.member
  disks n hn p hp hne := by
    rw [hsame.files]
    refine h.disks n (hsame.ring ▸ hn) p ?_ hne
    rwa [← AList.lookup_isSome, ← hsame.files, AList.lookup_isSome]
  sets := hsame.sets h.sets
  owned uri huri := by
    rw [successor_congr hsame.ring]
    refine h.owned uri ?_
    rwa [← AList.lookup_isSome, ← hsame.entries self.uuid uri, AList.lookup_isSome]
  stored uri s hs := by
    rw [hsame.entries self.uuid uri] at hs
    exact (h.stored uri s hs).imp (fun ⟨bytes, k, hfile⟩ => ⟨bytes, k, hfile.unchanged hsame⟩) fun hdir =>
      hdir.unchanged hsame

theorem idle_congr (hsame : Unchanged w v) (entry : Path × MetaSet) :
    Idle sha v entry ↔ Idle sha w entry := by
  simp only [Idle, Absorbed, hsame.entry_at, clockwise_congr hsame.ring]

theorem InPlace.has_parent (h : InPlace sha w self) (huri : FilePath uri) :
    ∀ n ∈ w.ring, HasParent w uri n := by
  intro n hn hfile
  exact h.disks n hn uri (AList.lookup_isSome.mp (Option.isSome_iff_ne_none.mpr hfile)) huri.1

theorem InPlace.clockwise (h : InPlace sha w self)
    (hlookup : (w.stores self.uuid).metadata.lookup uri = some s) :
    ∃ rest, w.clockwise (sha.uri uri) = self :: rest := by
  obtain ⟨x, rest, hl⟩ := h.exact.exists_owner (sha.uri uri)
  have howner := h.owned uri (AList.lookup_isSome.mp (by rw [hlookup]; rfl))
  obtain rfl : self = x := Option.some.inj (howner.symm.trans (h.exact.successor_owner hl))
  exact ⟨rest, hl⟩

/-- The turn of one entry changes nothing where the listings have what they are told. -/
theorem turn_unchanged_iff {fuel : Nat} (h : InPlace sha w self)
    (hlookup : (w.stores self.uuid).metadata.lookup uri = some s) (hfuel : w.ring.length + 2 < fuel) :
    (∃ w', rebalance_uri sha fuel .PREDECESSOR_UPDATE (Peer.of self) w (uri, s) = some w' ∧ Unchanged w w') ↔
    Idle sha w (uri, s) := by
  obtain ⟨rest, hl⟩ := h.clockwise hlookup
  rcases h.stored uri s hlookup with ⟨bytes, k, hfile⟩ | hdir
  · have hstored := hfile.owner hl
    obtain rfl : s = [file_record sha uri bytes (.copy k 0)] := Option.some.inj (hlookup.symm.trans hstored.2)
    have hdirectory : ¬ MetaSet.is_directory [file_record sha uri bytes (.copy k 0)] := by
      simp [MetaSet.is_directory, Metadata.is_directory, file_record]
    rw [Idle, if_neg hdirectory]
    by_cases hk : Replication.copy k 0 = .NONE
    · -- the record gets a reference
      refine iff_of_false ?_ fun hidle => hidle.1 hk
      rintro ⟨w', hcall, hsame⟩
      have hcopyable : MetaSet.is_shallow_copyable self [file_record sha uri bytes (.copy k 0)] :=
        ⟨⟨rfl, by simp [file_record]⟩, hk, by simp [file_record]⟩
      obtain ⟨t, ht, hreferred⟩ :=
        rebalance_uri_refers h.member (h.exact.up self h.member) (h.exact.successor_owner hl) hcopyable hcall
      rw [hsame.entries self.uuid uri, hlookup] at ht
      cases ht
      exact hreferred _ List.mem_cons_self hfile.path.named rfl
    · rw [file_unchanged_iff h.exact hl h.sets (h.has_parent hfile.path) hfile hk hfuel,
        List.forall_mem_singleton]
      exact (and_iff_right hk).symm
  · exact directory_unchanged_iff h.exact hl h.sets hlookup hdir hfuel

/-- The entries are rebalanced, and nothing is another one afterwards. -/
def Leaves (sha : Sha256) (fuel : Nat) (self : Node) (w : World) (entries : List (Path × MetaSet)) : Prop :=
  ∃ w', rebalance sha fuel .PREDECESSOR_UPDATE (Peer.of self) w entries = some w' ∧ Unchanged w w'

theorem Leaves.cons_iff {fuel : Nat} {entry : Path × MetaSet} {l : List (Path × MetaSet)}
    (hturn : rebalance_uri sha fuel .PREDECESSOR_UPDATE (Peer.of self) w entry = some v)
    (hsame : Unchanged w v) :
    Leaves sha fuel self w (entry :: l) ↔ Leaves sha fuel self v l := by
  unfold Leaves rebalance
  simp only [List.foldlM_cons, hturn, Option.bind_eq_bind, Option.bind_some]
  exact exists_congr fun w' => and_congr_right fun _ => ⟨hsame.symm.trans, hsame.trans⟩

/-- A run and all of its beginnings leave everything as it is if every turn does. -/
theorem idle_iff_leaves {fuel : Nat} {l : List (Path × MetaSet)} (h : InPlace sha w self)
    (hl : ∀ e ∈ l, (w.stores self.uuid).metadata.lookup e.1 = some e.2) (hfuel : w.ring.length + 2 < fuel) :
    (∀ e ∈ l, Idle sha w e) ↔ ∀ l', l' <+: l → Leaves sha fuel self w l' := by
  induction l generalizing w with
  | nil =>
    refine iff_of_true (by simp) fun l' hl' => ?_
    obtain rfl := List.prefix_nil.mp hl'
    exact ⟨w, rfl, .refl w⟩
  | cons e l ih =>
    have hiff := turn_unchanged_iff h (hl e List.mem_cons_self) hfuel
    have hrest : ∀ v, Unchanged w v →
        ((∀ e ∈ l, Idle sha w e) ↔ ∀ l', l' <+: l → Leaves sha fuel self v l') := by
      intro v hsame
      rw [← ih (h.unchanged hsame)
        (fun e he => (hsame.entries self.uuid e.1).trans (hl e (List.mem_cons_of_mem _ he)))
        (by rwa [hsame.ring])]
      exact forall₂_congr fun e _ => (idle_congr hsame e).symm
    rw [List.forall_mem_cons]
    constructor
    · rintro ⟨he, hall⟩ l' hl'
      obtain ⟨v, hturn, hsame⟩ := hiff.mpr he
      cases l' with
      | nil => exact ⟨w, rfl, .refl w⟩
      | cons e' l' =>
        obtain ⟨rfl, hprefix⟩ := List.cons_prefix_cons.mp hl'
        exact (Leaves.cons_iff hturn hsame).mpr ((hrest v hsame).mp hall l' hprefix)
    · intro hleaves
      obtain ⟨v, hcall, hsame⟩ := hleaves [e] (List.cons_prefix_cons.mpr ⟨rfl, List.nil_prefix⟩)
      have hturn : rebalance_uri sha fuel .PREDECESSOR_UPDATE (Peer.of self) w e = some v := by
        simpa [rebalance] using hcall
      refine ⟨hiff.mp ⟨v, hturn, hsame⟩, (hrest v hsame).mpr fun l' hl' => ?_⟩
      exact (Leaves.cons_iff hturn hsame).mp (hleaves (e :: l') (List.cons_prefix_cons.mpr ⟨rfl, hl'⟩))

/-- Whatever the other entries do, a file with one copy is not left as it is. -/
theorem not_shallow_copyable_of_leaves {fuel : Nat} (h : InPlace sha w self)
    (hleaves : Leaves sha fuel self w (w.stores self.uuid).metadata.get_all) :
    ∀ e ∈ (w.stores self.uuid).metadata.get_all, ¬ MetaSet.is_shallow_copyable self e.2 := by
  rintro ⟨uri, s⟩ he hcopyable
  obtain ⟨w', hcall, hsame⟩ := hleaves
  have hlookup := lookup_of_get_all he
  obtain ⟨rest, hl⟩ := h.clockwise hlookup
  rcases h.stored uri s hlookup with ⟨bytes, k, hfile⟩ | hdir
  swap
  · exact hdir.is_directory.not_is_regular_file hcopyable.1
  obtain ⟨before, after, hsplit⟩ := List.append_of_mem he
  have hnodup := get_all_nodup (w.stores self.uuid).metadata
  have horder := MetaStore.get_all_descending (w.stores self.uuid).metadata
  rw [hsplit] at hcall hnodup horder
  rw [rebalance, List.foldlM_append] at hcall
  obtain ⟨v, hv, hcall⟩ := Option.bind_eq_some_iff.mp hcall
  obtain ⟨z, hz, hcall⟩ := Option.bind_eq_some_iff.mp hcall
  obtain ⟨hring, hup⟩ := rebalance_ring hv
  obtain ⟨t, ht, hreferred⟩ := rebalance_uri_refers (hring ▸ h.member) (hup ▸ h.exact.up self h.member)
    (by rw [successor_congr hring, h.exact.successor_owner hl]) hcopyable hz
  -- nothing that comes after the file is below it
  have hkept : SameEntry self.uuid uri z w' := by
    refine foldlM_keeps (P := SameEntry self.uuid uri z) ?_ rfl hcall
    rintro x ⟨q, records⟩ x' hq hx hturn
    have hbelow : ¬ uri <+: q := by
      have hne : uri ≠ q := by
        rintro rfl
        simp only [List.map_append, List.map_cons, List.nodup_middle, List.nodup_cons,
          List.mem_append] at hnodup
        exact hnodup.1 (Or.inr (List.mem_map.mpr ⟨_, hq, rfl⟩))
      exact MetaStore.not_below_of_descending hfile.path.1 hne
        ((List.pairwise_cons.mp (List.pairwise_append.mp horder).2.1).1 _ hq)
    exact (rebalance_uri_keeps_entry hbelow hturn self.uuid).trans hx
  have hstored := hfile.owner hl
  rw [← hkept, hsame.entries self.uuid uri, hstored.2] at ht
  cases ht
  exact hreferred _ List.mem_cons_self hfile.path.named rfl

end

end

/-- A rebalance of what is in place, and every beginning of it, leaves everything as it is if no file has exactly one copy
and the listings have what they are told. A file with one copy is never left as it is. -/
theorem rebalance_is_idle (sha : Sha256) {fuel : Nat} {w : World} {self : Node} (h : InPlace sha w self)
    (hfuel : w.ring.length + 2 < fuel) :
    ((∀ e ∈ (w.stores self.uuid).metadata.get_all, Idle sha w e) ↔
      ∀ l, l <+: (w.stores self.uuid).metadata.get_all → Leaves sha fuel self w l) ∧
    (Leaves sha fuel self w (w.stores self.uuid).metadata.get_all →
      ∀ e ∈ (w.stores self.uuid).metadata.get_all, ¬ MetaSet.is_shallow_copyable self e.2) :=
  ⟨idle_iff_leaves h (fun _ he => lookup_of_get_all he) hfuel, not_shallow_copyable_of_leaves h⟩

/-- Three members, and the file `/f` with so many copies. -/
def World.three_put (k : UInt32) : World :=
  ((put_file ⟨fun _ => 5, fun _ => 0⟩ 8 (Peer.of ⟨10, ['a']⟩) World.three [['f']] [1] ⟨0, k⟩).getD
    (World.three, .OK)).1

theorem lookup_of_keys {store : MetaStore} {P : Path → MetaSet → Prop}
    (h : ∀ p ∈ store.keys, ∀ s ∈ store.lookup p, P p s) :
    ∀ p, ∀ s ∈ store.lookup p, P p s := by
  intro p s hs
  exact h p (AList.mem_keys.mp (AList.lookup_isSome.mp (by rw [hs]; rfl))) s hs

theorem sets_tracks (u : Uuid) (uri : Path) :
    Tracks sha u uri fun w => ∀ v p, ∀ s ∈ (w.stores v).metadata.lookup p, MetaSet.Ordered s := by
  have hset : ∀ {w : World} {u : Uuid} {store : Store},
      (∀ v p, ∀ s ∈ (w.stores v).metadata.lookup p, MetaSet.Ordered s) →
      (∀ p, ∀ s ∈ store.metadata.lookup p, MetaSet.Ordered s) →
      ∀ v p, ∀ s ∈ ((w.set u store).stores v).metadata.lookup p, MetaSet.Ordered s := by
    intro w u store hw hstore v p
    rcases eq_or_ne v u with rfl | hne
    · rw [set_stores_self]
      exact hstore p
    · rw [set_stores_of_ne hne]
      exact hw v p
  exact
    { moved := fun w _ hw => hset hw (hw u)
      journal := fun w _ hw => hset hw (hw u)
      put := fun _ _ =>
        { file := fun w v _ hw _ => hset hw (hw v)
          record := by
            intro w v q entry hw
            refine hset hw fun p s hs => ?_
            rcases eq_or_ne p q with rfl | hne
            · rw [MetaStore.lookup_add] at hs
              cases hs
              refine MetaSet.Ordered.merged ?_ entry
              cases hold : (w.stores v).metadata.lookup p with
              | none => exact List.Pairwise.nil
              | some old => exact hw v p old hold
            · rw [MetaStore.add_lookup_of_ne hne] at hs
              exact hw v p s hs
          removes := by simp } }

theorem three_put_sets (k : UInt32) (u : Uuid) (p : Path) :
    ∀ s ∈ ((World.three_put k).stores u).metadata.lookup p, MetaSet.Ordered s := by
  have hthree : ∀ v p, ∀ s ∈ (World.three.stores v).metadata.lookup p, MetaSet.Ordered s :=
    fun _ => @lookup_of_keys (Store.fresh 1).metadata _ (by unfold MetaSet.Ordered; decide)
  unfold World.three_put
  cases hput : put_file ⟨fun _ => 5, fun _ => 0⟩ 8 (Peer.of ⟨10, ['a']⟩) World.three [['f']] [1] ⟨0, k⟩ with
  | none => exact hthree u p
  | some reply =>
    have htracks := @sets_tracks ⟨fun _ => 5, fun _ => 0⟩ (Peer.of ⟨10, ['a']⟩).disk [['f']]
    exact htracks.put_file hthree _ _ _ reply.1 reply.2 hput u p

theorem three_put_in_place (k : UInt32) (hk : k = 1 ∨ k = 2) :
    InPlace ⟨fun _ => 5, fun _ => 0⟩ (World.three_put k) ⟨10, ['a']⟩ := by
  have hring : (World.three_put k).ring = World.three.ring ∧ (World.three_put k).up = World.three.up := by
    rcases hk with rfl | rfl <;> decide
  have hturns : ∀ id j n, id = 5 → ((World.three_put k).clockwise id)[j]? = some n →
      (j, n) ∈ [(0, ⟨10, ['a']⟩), (1, ⟨20, ['b']⟩), (2, (⟨30, ['c']⟩ : Node))] := by
    rintro _ j n rfl hn
    rw [clockwise_congr hring.1, show World.three.clockwise 5 = World.three.ring by decide] at hn
    match j, hn with
    | 0, hn => cases hn; decide
    | 1, hn => cases hn; decide
    | 2, hn => cases hn; decide
  have hentries : ∀ p ∈ ((World.three_put k).stores 10).metadata.keys,
      ∀ s ∈ ((World.three_put k).stores 10).metadata.lookup p,
      (FilePath p ∧ ∀ t ∈ [(0, ⟨10, ['a']⟩), (1, ⟨20, ['b']⟩), (2, (⟨30, ['c']⟩ : Node))],
        if t.1 < max 1 k.toNat then Stored ⟨fun _ => 5, fun _ => 0⟩ ((World.three_put k).stores t.2.uuid) p
          [1] (.copy k t.1)
        else Clear ((World.three_put k).stores t.2.uuid) p) ∨
      (p = [] ∧ MetaSet.is_directory s ∧ (∀ m ∈ s, m.sent = m) ∧ ∀ m ∈ s, Named m.name →
        ∀ t ∈ [(0, ⟨10, ['a']⟩), (1, ⟨20, ['b']⟩), (2, (⟨30, ['c']⟩ : Node))],
          ((World.three_put k).stores t.2.uuid).record p m.name =
          if t.1 < max 1 m.replication.count.toNat then some
            { m with replication := .copy m.replication.count t.1 } else none) := by
    unfold FilePath Stored Clear
    rcases hk with rfl | rfl <;> decide
  refine
    { exact := World.three_exact.of_ring hring.1 hring.2
      member := by rw [hring.1]; decide
      disks := fun n hn => closed_of_keys ?_
      sets := three_put_sets k
      owned := fun uri _ => (successor_congr hring.1 5).trans (by decide)
      stored := fun uri s hs =>
        (lookup_of_keys hentries uri s hs).imp (fun hfile => ⟨[1], k, hfile.1, ?_⟩) fun hdir => ?_ }
  · revert n
    rcases hk with rfl | rfl <;> decide
  · exact fun j n hn => hfile.2 (j, n) (hturns 5 j n rfl hn)
  · exact ⟨Or.inl hdir.1, hdir.2.1, hdir.2.2.1, fun m hm hnamed j n hn => hdir.2.2.2 m hm hnamed (j, n)
      (hturns 5 j n rfl hn)⟩

theorem rebalance_is_idle_three :
    Leaves ⟨fun _ => 5, fun _ => 0⟩ 6 ⟨10, ['a']⟩ (World.three_put 2)
      ((World.three_put 2).stores 10).metadata.get_all :=
  (rebalance_is_idle ⟨fun _ => 5, fun _ => 0⟩ (three_put_in_place 2 (by decide)) (by decide)).1.mp
    (by decide) _ List.prefix_rfl

/-- The only copy of `/f` gets a reference to its own node. -/
theorem only_copy_is_not_left :
    ¬ ∀ (sha : Sha256) (fuel : Nat) (w : World) (self : Node), InPlace sha w self →
    w.ring.length + 2 < fuel → Leaves sha fuel self w (w.stores self.uuid).metadata.get_all := by
  intro h
  have hleaves := h ⟨fun _ => 5, fun _ => 0⟩ 6 (World.three_put 1) ⟨10, ['a']⟩
      (three_put_in_place 1 (by decide)) (by decide)
  have hcopyable : ∃ e ∈ ((World.three_put 1).stores 10).metadata.get_all,
      MetaSet.is_shallow_copyable ⟨10, ['a']⟩ e.2 := by decide
  obtain ⟨e, he, hcopyable⟩ := hcopyable
  exact not_shallow_copyable_of_leaves (three_put_in_place 1 (by decide)) hleaves e he hcopyable

end Fs

end Chord
