import Chord.Fs.Upload
import Mathlib.Data.List.Chain

/-!
# The directories above a new file

The owner of each directory asks the owner of the one above it. A directory whose name its child also
has takes the request for the one that made it, and does not list the child.
-/

open Circle

namespace Chord

namespace Fs

open World

/-! ## Copies do not go up -/

/-- Only the entries of `p` are other ones. -/
structure OnlyEntry (p : Path) (w w' : World) : Prop where
  ring : w'.ring = w.ring
  entries : ∀ u q, q ≠ p → SameEntry u q w w'

namespace OnlyEntry

variable {p : Path} {w v z : World}

theorem refl (p : Path) (w : World) : OnlyEntry p w w := ⟨rfl, fun _ _ _ => rfl⟩

theorem trans (h : OnlyEntry p w v) (h' : OnlyEntry p v z) : OnlyEntry p w z :=
  ⟨h'.ring.trans h.ring, fun u q hq => (h'.entries u q hq).trans (h.entries u q hq)⟩

theorem set {u : Uuid} {store : Store}
    (h : ∀ q, q ≠ p → store.metadata.lookup q = (w.stores u).metadata.lookup q) :
    OnlyEntry p w (w.set u store) := by
  refine ⟨rfl, fun v q hq => ?_⟩
  unfold SameEntry
  rcases eq_or_ne v u with rfl | hv
  · rw [set_stores_self]
    exact h q hq
  · rw [set_stores_of_ne hv]

theorem add_entry (w : World) (self : Node) (p : Path) (entry : MetaSet) :
    OnlyEntry p w (w.add_entry self p entry) := by
  apply set
  intro q hq
  exact MetaStore.add_lookup_of_ne hq

end OnlyEntry

section

variable (sha : Sha256) {w w' : World} {p : Path} {k : UInt32}

theorem meta_add_copies_only_entry {s : MetaSet} (hs : s ≠ []) (hordered : s.Ordered) {fuel i : Nat}
    (hi : 0 < i) (hik : i < k.toNat) {x : Node} {o : Options}
    (h : ignored (meta_add sha fuel w x p (copied s k i) o) = some w') : OnlyEntry p w w' := by
  induction fuel generalizing w w' i x o with
  | zero => cases h
  | succ fuel ih =>
    rcases meta_add_cases sha (of_list_copied hordered i) h with rfl | ⟨-, v, hv, hrest⟩
    · exact .refl _ _
    have hindex := Replication.index_copy_ne_zero hi hik
    rw [max_replication_copied hs, if_neg fun hcond => hindex hcond.2.2] at hv
    cases hv
    have hentry := OnlyEntry.add_entry w x p (entry_of p (copied s k i))
    rw [increase_copied, if_congr (Replication.next_copy_active (by omega)) rfl rfl] at hrest
    by_cases hmore : i + 1 < k.toNat
    · rw [if_pos hmore, if_pos (copied_ne_nil hs k _)] at hrest
      obtain ⟨node, -, hrest⟩ := Option.bind_eq_some_iff.mp hrest
      exact hentry.trans (ih (by omega) hmore hrest)
    · rw [if_neg hmore, if_neg (by simp)] at hrest
      cases hrest
      exact hentry

theorem put_copies_only_entry {uri : Path} {fuel i : Nat} (hi : 0 < i) (hik : i < k.toNat) {x : Node}
    {bytes : Bytes} {o : Options} (hrepl : o.replication = .copy k i) (hrebalance : o.rebalance = false)
    (h : ignored (put sha fuel w x uri bytes o) = some w') : OnlyEntry uri w w' := by
  induction fuel generalizing w w' i x bytes o with
  | zero => cases h
  | succ fuel ih =>
    rcases put_cases sha hrebalance h with ⟨files, rfl⟩ | ⟨-, files, stored, v, hv, hrest⟩
    · exact OnlyEntry.set fun _ _ => rfl
    have hindex := Replication.index_copy_ne_zero hi hik
    rw [hrepl, if_neg hindex] at hv
    cases hv
    have hwritten : OnlyEntry uri w
        (w.set x.uuid (written sha uri files stored (.copy k i) (w.stores x.uuid))) :=
      OnlyEntry.set fun q hq => MetaStore.add_lookup_of_ne hq
    rw [hrepl, if_congr (Replication.next_copy_active (by omega)) rfl rfl] at hrest
    split at hrest
    · rename_i hmore
      obtain ⟨node, -, hrest⟩ := Option.bind_eq_some_iff.mp hrest
      unfold client_put at hrest
      split at hrest
      · cases hrest
        exact hwritten
      · exact hwritten.trans
          (ih (by omega) hmore (by exact Replication.next_copy k i) (by exact hrebalance) hrest)
    · cases hrest
      exact hwritten

end

/-! ## From a directory to the root -/

/-- There is no entry, or it is that of a root without names. -/
def Nameless (store : Store) (p : Path) : Prop :=
  ∀ existing ∈ store.metadata.lookup p, p = [] ∧ ∀ m ∈ existing, ¬ Named m.name

theorem Nameless.record {store : Store} {p : Path} (h : Nameless store p) {n : Name} (hn : Named n) :
    store.record p n = none := by
  rw [record_eq_none]
  rintro ⟨existing, hlookup, hmem⟩
  obtain ⟨m, hm, rfl⟩ := List.mem_map.mp hmem
  exact (h existing hlookup).2 m hm hn

theorem Nameless.of_same {u : Uuid} {p : Path} {w w' : World} (hsame : SameEntry u p w w')
    (h : Nameless (w.stores u) p) :
    Nameless (w'.stores u) p := by
  unfold Nameless
  rwa [hsame]

theorem nameless_fresh (c : UInt32) (p : Path) : Nameless (Store.fresh c) p := by
  intro existing hlookup
  rcases eq_or_ne p [] with rfl | hp
  · refine ⟨rfl, fun m hm hname => ?_⟩
    have hnames : existing.map Metadata.name = [['.'], ['.', '.']] := by
      cases hlookup
      rfl
    have hmem := List.mem_map_of_mem (f := Metadata.name) hm
    rw [hnames] at hmem
    simp only [List.mem_cons, List.not_mem_nil, or_false] at hmem
    exact hmem.elim hname.1 hname.2
  · rw [Store.fresh, MetaStore.add_lookup_of_ne hp] at hlookup
    cases hlookup

theorem lists_iff_record {store : Store} {p : Path} {n : Name} :
    Lists store p n ↔ store.record p n ≠ none := by
  rw [Ne, record_eq_none, not_not]

section

variable {sha : Sha256} {w w' : World} {p : Path} {k : UInt32}

/-- A new entry has the names of the request, or only its own `.` and `..`. -/
theorem lists_add_entry {self : Node} (hnameless : Nameless (w.stores self.uuid) p) {entry : MetaSet}
    (hentry : entry.Ordered) {n : Name} (hn : Named n) :
    Lists ((w.add_entry self p entry).stores self.uuid) p n ↔ n ∈ entry.map Metadata.name := by
  rw [lists_iff_record, add_entry, set_stores_self, record_add hn hentry, hnameless.record hn, Option.or_none]
  simp

theorem entry_of_ne_nil {s : MetaSet} (h : s ≠ []) (p : Path) : entry_of p s ≠ [] := by
  unfold entry_of
  split
  · exact List.cons_ne_nil _ _
  · exact h

/-- The entries of `p` and of the directories above it, on the members. -/
def NamelessAbove (p : Path) (w : World) : Prop := ∀ n ∈ w.ring, ∀ q, q <+: p → Nameless (w.stores n.uuid) q

/-- What one owner does before the copies: its entry, and the request to the owner of the directory above. -/
theorem meta_add_goes_up {s records : MetaSet} (hw : w.Exact) (hs : s ≠ []) (hordered : s.Ordered) {n : Name}
    (hn : Named n) (hns : n ∈ s.map Metadata.name)
    (hrecords : MetaSet.of_list (records.map Metadata.sent) = copied s k 0) (hnameless : NamelessAbove p w)
    {self : Node} (hself : self ∈ w.ring) {o : Options} (ho : o.source = none) {fuel : Nat}
    (h : ignored (meta_add sha (fuel + 1) w self p records o) = some w') :
    ∃ v, (if p ≠ [] then
        (w.successor (sha.uri (parent_path p))).bind fun node =>
          ignored (meta_add sha fuel (w.add_entry self p (entry_of p (copied s k 0))) node (parent_path p)
            [MetaSet.create_directory (copied s k 0) (filename p)] o)
      else some (w.add_entry self p (entry_of p (copied s k 0)))) = some v ∧
      OnlyEntry p v w' ∧ SameEntry self.uuid p v w' := by
  have hb := hnameless self hself p (List.prefix_refl p)
  have hnew : ∀ existing ∈ (w.stores self.uuid).metadata.lookup p,
      ¬ MetaSet.equal_basic existing (copied s k 0) := by
    intro existing hlookup heq
    have hnames := MetaSet.equal_basic_names heq
    have hmem : n ∈ existing.map Metadata.name := by
      rw [hnames, copied, List.map_map]
      exact hns
    obtain ⟨m, hm, rfl⟩ := List.mem_map.mp hmem
    exact (hb existing hlookup).2 m hm hn
  rw [meta_add_accepted sha hrecords (hw.up self hself) (by rw [ho]; simp) (copied_ne_nil hs k 0) hnew
    (show _ = entry_of p (copied s k 0) from rfl)] at h
  obtain ⟨v, hv, hcopy⟩ := ignored_bind_bind h
  refine ⟨v, ?_, ?_⟩
  · rw [← hv]
    apply if_congr ?_ rfl rfl
    rw [max_replication_copied hs]
    constructor
    · intro hp
      refine ⟨?_, parent_path_ne hp, rfl⟩
      have hnone : (w.stores self.uuid).metadata.lookup p = none := by
        by_contra hsome
        obtain ⟨existing, hlookup⟩ := Option.ne_none_iff_exists'.mp hsome
        exact hp (hb existing hlookup).1
      exact added_of_none hnone (entry_of_ne_nil (copied_ne_nil hs k 0) p)
    · rintro ⟨-, hp, -⟩ rfl
      exact hp rfl
  · have hring : v.ring = w.ring := by
      split at hv
      · obtain ⟨node, -, hv⟩ := Option.bind_eq_some_iff.mp hv
        exact (meta_add_only_above hv).ring
      · cases hv
        rfl
    rw [increase_copied, if_congr (Replication.next_copy_active (by omega)) rfl rfl] at hcopy
    by_cases hmore : 0 + 1 < k.toNat
    · rw [if_pos hmore, if_pos (copied_ne_nil hs k _)] at hcopy
      obtain ⟨node, hnode, hcopy⟩ := Option.bind_eq_some_iff.mp hcopy
      refine ⟨meta_add_copies_only_entry sha hs hordered Nat.one_pos hmore hcopy, ?_⟩
      have hfirst : FirstAfter Node.uuid v.ring self.uuid node := firstAfter_argmin hnode
      have hmem : self ∈ v.ring := hring ▸ hself
      exact meta_add_copies_keep_entry hmem (by rw [init_source, ho]; rfl) (hfirst.2 self hmem) hcopy
    · rw [if_neg hmore, if_neg (by simp)] at hcopy
      cases hcopy
      exact ⟨.refl _ _, rfl⟩

theorem SameEntry.lists {u : Uuid} (h : SameEntry u p w w') (n : Name) :
    Lists (w'.stores u) p n ↔ Lists (w.stores u) p n := by
  unfold Lists
  rw [h]

theorem NamelessAbove.mono {d : Path} (h : NamelessAbove p w) (hd : d <+: p) : NamelessAbove d w :=
  fun n hn q hq => h n hn q (hq.trans hd)

theorem ne_of_child_below {q : Path} {m : Name} (h : q ++ [m] <+: p) : q ≠ p := by
  rintro rfl
  have hlength := h.length_le
  rw [List.length_append, List.length_singleton] at hlength
  omega

theorem NamelessAbove.of_only_entry {d : Path} {a : Name} (h : NamelessAbove d w)
    (honly : OnlyEntry (d ++ [a]) w w') :
    NamelessAbove d w' := by
  intro n hn q hq
  have hne : q ≠ d ++ [a] := by
    rintro rfl
    exact ne_of_child_below hq rfl
  apply Nameless.of_same (honly.entries n.uuid q hne)
  exact h n (honly.ring ▸ hn) q hq

theorem mem_parent_names {m : Name} (hm : Named m) (q : Path) : m ∈ parent_names q m ↔ m ≠ filename q := by
  unfold parent_names
  split
  · rename_i heq
    simp [heq ▸ hm.1, heq]
  · rename_i hne
    simp [hne]

/-- The induction goes up from the directory `p`: its owner asks the one above with a request of the same kind. -/
theorem meta_add_lists {s records : MetaSet} (hw : w.Exact) (hs : s ≠ []) (hordered : s.Ordered) {n : Name}
    (hn : Named n) (hns : n ∈ s.map Metadata.name)
    (hrecords : MetaSet.of_list (records.map Metadata.sent) = copied s k 0) (hnameless : NamelessAbove p w)
    (hp : ∀ x ∈ p, Named x) {self : Node} (hself : w.successor (sha.uri p) = some self) {o : Options}
    (ho : o.source = none) {fuel : Nat} (h : ignored (meta_add sha fuel w self p records o) = some w') :
    (Lists (w'.stores self.uuid) p n ↔ n ∈ (entry_of p s).map Metadata.name) ∧
      ∀ q m, q ++ [m] <+: p → ∃ x, w.successor (sha.uri q) = some x ∧
        (Lists (w'.stores x.uuid) q m ↔ m ≠ filename q) := by
  induction fuel generalizing w w' self p s records n with
  | zero => cases h
  | succ fuel ih =>
    have hmem : self ∈ w.ring := (firstAfter_argmin hself).1
    obtain ⟨v, hv, honly, hsame⟩ := meta_add_goes_up hw hs hordered hn hns hrecords hnameless hmem ho h
    have hentry := lists_add_entry (hnameless self hmem p (List.prefix_refl p))
      (entry_of_ordered (copied_ordered hordered k 0) p) hn
    rw [entry_of_copied_names] at hentry
    rcases List.eq_nil_or_concat' p with rfl | ⟨d, a, rfl⟩
    · rw [if_neg (not_not_intro rfl)] at hv
      cases hv
      exact ⟨(hsame.lists n).trans hentry, fun q m hq => absurd (List.prefix_nil.mp hq) (by simp)⟩
    · have hdrop : parent_path (d ++ [a]) = d := List.dropLast_concat
      have hlast : filename (d ++ [a]) = a := by simp [filename]
      rw [if_pos (by simp), hdrop, hlast] at hv
      obtain ⟨node, hnode, hv⟩ := Option.bind_eq_some_iff.mp hv
      have ha : Named a := hp a (by simp)
      have hup : SameEntry self.uuid (d ++ [a]) _ v :=
        SameEntry.parent (parent_path_ne (by simp)) (by rw [hdrop]; exact hv) self.uuid
      obtain ⟨hd, habove⟩ :=
        ih (hw.of_ring rfl rfl : (w.add_entry self (d ++ [a]) (entry_of (d ++ [a]) (copied s k 0))).Exact)
        (List.cons_ne_nil _ _) (List.pairwise_singleton _ _) ha List.mem_cons_self
          (sent_create_directory hs k a)
        ((hnameless.mono (List.prefix_append d [a])).of_only_entry (OnlyEntry.add_entry w self _ _))
          (fun x hx => hp x (List.mem_append_left _ hx)) hnode hv
      refine ⟨(hsame.lists n).trans ((hup.lists n).trans hentry), fun q m hq => ?_⟩
      have hne := ne_of_child_below hq
      rcases List.prefix_concat_iff.mp hq with heq | hq
      · obtain ⟨rfl, hm⟩ := List.append_inj' heq rfl
        obtain rfl : m = a := List.singleton_inj.mp hm
        refine ⟨node, hnode, ((honly.entries node.uuid q hne).lists m).trans ?_⟩
        rw [hd, entry_of_directory, mem_parent_names ha]
      · obtain ⟨x, hx, hlists⟩ := habove q m hq
        exact ⟨x, hx, ((honly.entries x.uuid q hne).lists m).trans hlists⟩

end

/-! ## After a put -/

/-- Every directory above `uri` lists its child, at its owner. -/
def ListsChildren (sha : Sha256) (w : World) (uri : Path) : Prop :=
  ∀ q n, q ++ [n] <+: uri → ∃ x, w.successor (sha.uri q) = some x ∧ Lists (w.stores x.uuid) q n

theorem isChain_iff_filename {dirs : Path} (hdirs : ∀ x ∈ dirs, x ≠ []) :
    dirs.IsChain (· ≠ ·) ↔ ∀ q n, q ++ [n] <+: dirs → n ≠ filename q := by
  rw [List.isChain_iff_forall_rel_of_append_cons_cons]
  constructor
  · intro h q n hq
    rcases List.eq_nil_or_concat' q with rfl | ⟨d, a, rfl⟩
    · exact hdirs n (hq.subset (by simp))
    · obtain ⟨t, ht⟩ := hq
      have hne := @h a n d t (by rw [← ht]; simp)
      simpa [filename] using hne.symm
  · intro h a b l₁ l₂ hl
    have hne := h (l₁ ++ [a]) b ⟨l₂, by rw [hl]; simp⟩
    simpa [filename] using hne.symm

section

variable {sha : Sha256} {w w' : World} {k : UInt32}

/-- A put that succeeds asks the owner of the parent, after it has changed entries of `uri` only, and before its
copies do so. -/
theorem put_file_asks_parent {fuel : Nat} {self : Peer} {uri : Path} {bytes : Bytes} (hw : w.Exact)
    (hcall : put_file sha fuel self w uri bytes (.copy k 0) = some (w', .OK)) :
    ∃ fuel stored w₁ node v, OnlyEntry uri w w₁ ∧ w₁.Exact ∧
      w₁.successor (sha.uri (parent_path uri)) = some node ∧
      ignored (meta_add sha fuel w₁ node (parent_path uri)
        (parent_listing (file_record sha uri stored (.copy k 0)))
        { replication := .copy k 0 }) = some v ∧ OnlyEntry uri v w' := by
  rw [put_file] at hcall
  obtain ⟨x, hx, hcall⟩ := Option.bind_eq_some_iff.mp hcall
  rw [client_put, if_neg (by simp)] at hcall
  cases fuel with
  | zero => cases hcall
  | succ fuel =>
    obtain ⟨made, files, stored, hmade, hreceive, hstored, -⟩ := put_succeeded hcall
    rw [put_received sha (hw.up x (firstAfter_argmin hx).1) (by simp) rfl hmade hreceive hstored,
      if_pos (by rfl)] at hcall
    obtain ⟨v, hv, hcall⟩ := Option.bind_eq_some_iff.mp hcall
    obtain ⟨node, hnode, hv⟩ := Option.bind_eq_some_iff.mp hv
    obtain ⟨z, hcopies, hcall⟩ := Option.bind_eq_some_iff.mp hcall
    cases hcall
    refine ⟨fuel, stored, _, node, v, OnlyEntry.set fun q hq => MetaStore.add_lookup_of_ne hq,
      hw.of_ring rfl rfl, hnode, hv, ?_⟩
    rw [if_congr (Replication.next_copy_active (by omega)) rfl rfl] at hcopies
    split at hcopies
    · rename_i hmore
      obtain ⟨next, -, hcopies⟩ := Option.bind_eq_some_iff.mp hcopies
      rw [client_put] at hcopies
      split at hcopies
      · cases hcopies
        exact .refl _ _
      · exact put_copies_only_entry sha Nat.one_pos hmore (by exact Replication.next_copy k 0) rfl hcopies
    · cases hcopies
      exact .refl _ _

/-- The listings after a put: that of the parent has the file, and those above have a child of another name. -/
theorem put_file_lists (hw : w.Exact) (hfresh : ∀ n ∈ w.ring, ∃ c, w.stores n.uuid = .fresh c) {dirs : Path}
    {f : Name} (huri : FilePath (dirs ++ [f])) {fuel : Nat} {self : Peer} {bytes : Bytes}
    (hcall : put_file sha fuel self w (dirs ++ [f]) bytes (.copy k 0) = some (w', .OK)) {q : Path} {n : Name}
    (hq : q ++ [n] <+: dirs ++ [f]) :
    ∃ y, w'.successor (sha.uri q) = some y ∧ (Lists (w'.stores y.uuid) q n ↔ q = dirs ∨ n ≠ filename q) := by
  have hparent : parent_path (dirs ++ [f]) = dirs := List.dropLast_concat
  have hlast : filename (dirs ++ [f]) = f := by simp [filename]
  obtain ⟨fuel, stored, w₁, node, v, hwritten, hexact, hnode, hv, hcopied⟩ := put_file_asks_parent hw hcall
  rw [hparent] at hnode hv
  have hnameless : NamelessAbove dirs w₁ := by
    refine NamelessAbove.of_only_entry (fun n hn q _ => ?_) hwritten
    obtain ⟨c, hc⟩ := hfresh n hn
    rw [hc]
    exact nameless_fresh c q
  obtain ⟨hdirs, habove⟩ :=
    meta_add_lists hexact (parent_listing_ne_nil _) (parent_listing_ordered _) (hlast ▸ huri.named)
    ((mem_parent_listing_names _ f).mpr (by simp [file_record, hlast]))
    (copied_zero (parent_listing_ordered _) (parent_listing_replication rfl)) hnameless
    (fun y hy => (huri.2 y (List.mem_append_left _ hy)).2) hnode rfl hv
  have hring : w'.ring = w₁.ring := hcopied.ring.trans (meta_add_only_above hv).ring
  have hne := ne_of_child_below hq
  rcases List.prefix_concat_iff.mp hq with heq | hq
  · obtain ⟨rfl, hn⟩ := List.append_inj' heq rfl
    obtain rfl : n = f := List.singleton_inj.mp hn
    refine ⟨node, by rw [successor_congr hring, hnode], ?_⟩
    rw [(hcopied.entries node.uuid q hne).lists, hdirs,
      entry_of_parent_listing (by rw [file_record]; exact huri.named)]
    simp [file_record, hlast]
  · obtain ⟨y, hy, hiff⟩ := habove q n hq
    refine ⟨y, by rw [successor_congr hring, hy], ?_⟩
    rw [(hcopied.entries y.uuid q hne).lists, hiff, or_iff_right (ne_of_child_below hq)]

/-- After a put into fresh stores all directories above the file list their children, exactly where no directory has
the name of the one above it. -/
theorem put_lists_children_iff (hw : w.Exact) (hfresh : ∀ n ∈ w.ring, ∃ c, w.stores n.uuid = .fresh c)
    {dirs : Path} {f : Name} (huri : FilePath (dirs ++ [f])) {fuel : Nat} {self : Peer} {bytes : Bytes}
    (hcall : put_file sha fuel self w (dirs ++ [f]) bytes ⟨0, k⟩ = some (w', .OK)) :
    ListsChildren sha w' (dirs ++ [f]) ↔ dirs.IsChain (· ≠ ·) := by
  have hlists := fun q n hq => @put_file_lists sha w w' k hw hfresh dirs f huri fuel self bytes hcall q n hq
  rw [isChain_iff_filename fun y hy => (huri.2 y (List.mem_append_left _ hy)).1]
  constructor
  · intro h q n hq
    have hq' := hq.trans (List.prefix_append dirs [f])
    obtain ⟨y, hy, hlisted⟩ := h q n hq'
    obtain ⟨y', hy', hiff⟩ := hlists q n hq'
    obtain rfl : y = y' := Option.some.inj (hy.symm.trans hy')
    exact (hiff.mp hlisted).resolve_left (ne_of_child_below hq)
  · intro h q n hq
    obtain ⟨y, hy, hiff⟩ := hlists q n hq
    refine ⟨y, hy, hiff.mpr ?_⟩
    rcases List.prefix_concat_iff.mp hq with heq | hq
    · exact Or.inl (List.append_inj' heq rfl).1
    · exact Or.inr (h q n hq)

end

theorem put_lists_children_iff_two : ∃ w',
    put_file ⟨fun _ => 5, fun _ => 0⟩ 8 (Peer.of ⟨10, ['a']⟩) World.three [['a'], ['b'], ['f']] [1] ⟨0, 2⟩ =
      some (w', .OK) ∧
      (ListsChildren ⟨fun _ => 5, fun _ => 0⟩ w' [['a'], ['b'], ['f']] ↔
        List.IsChain (· ≠ ·) [['a'], ['b']]) := by
  obtain ⟨w', hcall⟩ : ∃ w', put_file ⟨fun _ => 5, fun _ => 0⟩ 8 (Peer.of ⟨10, ['a']⟩) World.three
      [['a'], ['b'], ['f']] [1] ⟨0, 2⟩ =
    some (w', .OK) := ⟨_, rfl⟩
  exact ⟨w', hcall, @put_lists_children_iff ⟨fun _ => 5, fun _ => 0⟩ _ w' 2 World.three_exact
    (fun _ _ => ⟨1, rfl⟩) [['a'], ['b']] ['f']
    (by unfold FilePath; decide) _ _ _ hcall⟩

/-- `/a` gets the name `a` of its child, and takes the request for the one that made it. -/
theorem child_of_same_name_is_not_listed :
    ¬ ∀ (sha : Sha256) (w w' : World) (fuel : Nat) (self : Peer) (dirs : Path) (f : Name)
    (bytes : Bytes) (k : UInt32), w.Exact → (∀ n ∈ w.ring, ∃ c, w.stores n.uuid = .fresh c) → dirs ≠ [] →
    FilePath (dirs ++ [f]) →
    put_file sha fuel self w (dirs ++ [f]) bytes ⟨0, k⟩ = some (w', .OK) →
      ListsChildren sha w' (dirs ++ [f]) := by
  intro h
  obtain ⟨w', hcall⟩ : ∃ w', put_file ⟨fun _ => 5, fun _ => 0⟩ 8 (Peer.of ⟨10, ['a']⟩) World.three
      [['a'], ['a'], ['f']] [1] ⟨0, 1⟩ =
    some (w', .OK) := ⟨_, rfl⟩
  have huri : FilePath ([['a'], ['a']] ++ [['f']]) := by unfold FilePath; decide
  have hfresh : ∀ n ∈ World.three.ring, ∃ c, World.three.stores n.uuid = .fresh c := fun _ _ => ⟨1, rfl⟩
  obtain ⟨x, hx, hlisted⟩ :=
    h _ _ w' 8 _ [['a'], ['a']] ['f'] [1] 1 World.three_exact hfresh (by decide) huri hcall [['a']] ['a']
      (by decide)
  obtain ⟨y, hy, hiff⟩ :=
    put_file_lists World.three_exact hfresh huri hcall (q := [['a']]) (n := ['a']) (by decide)
  obtain rfl : x = y := Option.some.inj (hx.symm.trans hy)
  exact absurd (hiff.mp hlisted) (by decide)

end Fs

end Chord
