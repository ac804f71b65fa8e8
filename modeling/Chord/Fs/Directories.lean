import Chord.Fs.Ancestors
import Chord.Fs.Contents
import Chord.Fs.Sweep

/-!
# What the directories list

The owner of a directory lists the files in it and the directories in it that were made on the way
to a file. Files come and go, and directories stay.
-/

open Circle

namespace Chord

namespace Fs

open World

/-! ## The names at an owner -/

section

variable (sha : Sha256)

/-- The owner of `d` has the name in its listing. -/
def OwnerLists (w : World) (d : Path) (n : Name) : Prop :=
  ∃ x, w.successor (sha.uri d) = some x ∧ Lists (w.stores x.uuid) d n

variable {sha} {w w' : World} {p : Path} {k : UInt32}

theorem owner_lists_at {x : Node} {d : Path} {n : Name} (hx : w.successor (sha.uri d) = some x) :
    OwnerLists sha w d n ↔ Lists (w.stores x.uuid) d n := by
  constructor
  · rintro ⟨y, hy, h⟩
    rwa [Option.some.inj (hx.symm.trans hy)]
  · exact fun h => ⟨x, hx, h⟩

theorem OwnerLists.congr {d : Path} {n : Name} (hring : w'.ring = w.ring)
    (hsame : ∀ x, w.successor (sha.uri d) = some x → SameEntry x.uuid d w w') :
    OwnerLists sha w' d n ↔ OwnerLists sha w d n := by
  unfold OwnerLists
  rw [successor_congr hring]
  exact exists_congr fun x => and_congr_right fun hx => (hsame x hx).lists n

/-- The owner of `d` has an entry. -/
def OwnerHas (sha : Sha256) (w : World) (d : Path) : Prop :=
  ∃ x, w.successor (sha.uri d) = some x ∧ (w.stores x.uuid).metadata.lookup d ≠ none

theorem OwnerHas.congr {d : Path} (hring : w'.ring = w.ring) (hsame : ∀ u,
    (w'.stores u).metadata.lookup d = none ↔ (w.stores u).metadata.lookup d = none) :
    OwnerHas sha w' d ↔ OwnerHas sha w d := by
  unfold OwnerHas
  rw [successor_congr hring]
  exact exists_congr fun x => and_congr_right fun _ => not_congr (hsame x.uuid)

theorem OwnerLists.has {d : Path} {n : Name} (h : OwnerLists sha w d n) : OwnerHas sha w d := by
  obtain ⟨x, hx, records, hlookup, -⟩ := h
  exact ⟨x, hx, by rw [hlookup]; simp⟩

theorem Lists.add {store : Store} {q : Path} {n : Name} (h : Lists store q n) (p : Path) (entry : MetaSet) :
    Lists { store with metadata := (store.metadata.add p entry).1 } q n := by
  obtain ⟨records, hlookup, hn⟩ := h
  rcases eq_or_ne q p with rfl | hq
  · refine ⟨_, MetaStore.lookup_add _ _ _, ?_⟩
    rw [hlookup, Option.getD_some, MetaSet.merged]
    have hnames := MetaSet.names_foldl_insert_or_assign (l := entry) (Or.inl hn)
    split
    · exact name_mem_insert_or_assign _ (name_mem_insert_or_assign _ hnames)
    · exact hnames
  · exact ⟨records, by rw [MetaStore.add_lookup_of_ne hq]; exact hlookup, hn⟩

/-- Updates take no name from a listing. -/
theorem lists_adds (u : Uuid) (q : Path) (n : Name) : Adds fun v => Lists (v.stores u) q n := by
  intro w v p entry h
  rcases eq_or_ne u v with rfl | hu
  · rw [set_stores_self]
    exact h.add p entry
  · rwa [set_stores_of_ne hu]

theorem OwnerLists.meta_add {fuel : Nat} {self : Node} {records : MetaSet} {o : Options} {d : Path} {n : Name}
    (hl : OwnerLists sha w d n) (h : ignored (meta_add sha fuel w self p records o) = some w') :
    OwnerLists sha w' d n := by
  obtain ⟨x, hx, hlists⟩ := hl
  refine ⟨x, by rw [successor_congr (meta_add_only_above h).ring, hx], ?_⟩
  exact after_ignored ((lists_adds x.uuid d n).meta_add fuel hlists self p records o) h

theorem OwnerLists.add_entry {d : Path} {n : Name} (hl : OwnerLists sha w d n) (self : Node)
    (entry : MetaSet) :
    OwnerLists sha (w.add_entry self p entry) d n := by
  obtain ⟨x, hx, hlists⟩ := hl
  exact ⟨x, hx, lists_adds x.uuid d n w self.uuid p entry hlists⟩

/-- Updates take no entry away. -/
theorem has_adds (u : Uuid) (q : Path) : Adds fun v => (v.stores u).metadata.lookup q ≠ none := by
  intro w v p entry h
  rcases eq_or_ne u v with rfl | hu
  · rw [set_stores_self]
    rcases eq_or_ne q p with rfl | hq
    · rw [MetaStore.lookup_add]
      simp
    · rwa [MetaStore.add_lookup_of_ne hq]
  · rwa [set_stores_of_ne hu]

theorem OwnerHas.meta_add {fuel : Nat} {self : Node} {records : MetaSet} {o : Options} {d : Path}
    (hd : OwnerHas sha w d) (h : ignored (meta_add sha fuel w self p records o) = some w') :
    OwnerHas sha w' d := by
  obtain ⟨x, hx, hentry⟩ := hd
  refine ⟨x, by rw [successor_congr (meta_add_only_above h).ring, hx], ?_⟩
  exact after_ignored ((has_adds x.uuid d).meta_add fuel hentry self p records o) h

theorem owner_has_add_entry {self : Node} (hself : w.successor (sha.uri p) = some self) (entry : MetaSet) :
    OwnerHas sha (w.add_entry self p entry) p := by
  refine ⟨self, hself, ?_⟩
  rw [World.add_entry, set_stores_self, MetaStore.lookup_add]
  simp

/-- The names after the update of one entry. -/
theorem owner_lists_add_entry {self : Node} (hself : w.successor (sha.uri p) = some self) {entry : MetaSet}
    (hentry : entry.Ordered) {d : Path} {n : Name} (hn : Named n) :
    OwnerLists sha (w.add_entry self p entry) d n ↔ OwnerLists sha w d n ∨ d = p ∧
      n ∈ entry.map Metadata.name := by
  rcases eq_or_ne d p with rfl | hd
  · rw [owner_lists_at hself, owner_lists_at (w := w.add_entry self d entry) hself, lists_iff_record,
      World.add_entry,
      set_stores_self, record_add hn hentry, lists_iff_record]
    cases (w.stores self.uuid).record d n <;> simp
  · have hsame := (OnlyEntry.add_entry w self p entry).entries
    rw [OwnerLists.congr (show (w.add_entry self p entry).ring = w.ring from rfl) fun x _ => hsame
      x.uuid d hd]
    simp [hd]

theorem add_entry_listed {self : Node} (hself : w.successor (sha.uri p) = some self) {entry : MetaSet}
    {n : Name} (hn : n ∈ entry.map Metadata.name) : OwnerLists sha (w.add_entry self p entry) p n := by
  refine ⟨self, hself, _, by rw [World.add_entry, set_stores_self]; exact MetaStore.lookup_add _ _ _, ?_⟩
  have hnames := MetaSet.names_foldl_insert_or_assign (s := ((w.stores self.uuid).metadata.lookup p).getD [])
    (Or.inr hn)
  rw [MetaSet.merged]
  split
  · exact name_mem_insert_or_assign _ (name_mem_insert_or_assign _ hnames)
  · exact hnames

/-- The copies of a listing go to other nodes than its owner. -/
theorem copies_owner_lists {s : MetaSet} (hs : s ≠ []) (hordered : s.Ordered) {self : Node}
    (hself : w.successor (sha.uri p) = some self) {o : Options} (ho : o.source = none) {fuel : Nat}
    (h : (if MetaSet.increase_replication_and_clean (copied s k 0) ≠ [] then
      (w.successor self.uuid).bind fun node => ignored (meta_add sha fuel w node p
        (MetaSet.increase_replication_and_clean (copied s k 0)) (init_source self o)) else some w) = some w')
    (d : Path) (n : Name) : OwnerLists sha w' d n ↔ OwnerLists sha w d n := by
  have hmem : self ∈ w.ring := (firstAfter_argmin hself).1
  rw [increase_copied, if_congr (Replication.next_copy_active (by omega)) rfl rfl] at h
  by_cases hmore : 0 + 1 < k.toNat
  · rw [if_pos hmore, if_pos (copied_ne_nil hs k _)] at h
    obtain ⟨node, hnode, hcopy⟩ := Option.bind_eq_some_iff.mp h
    have honly := meta_add_copies_only_entry sha hs hordered Nat.one_pos hmore hcopy
    refine OwnerLists.congr honly.ring fun x hx => ?_
    rcases eq_or_ne d p with rfl | hd
    · obtain rfl := Option.some.inj (hself.symm.trans hx)
      have hfirst : FirstAfter Node.uuid w.ring self.uuid node := firstAfter_argmin hnode
      exact meta_add_copies_keep_entry hmem (by rw [init_source, ho]; rfl) (hfirst.2 self hmem) hcopy
    · exact honly.entries x.uuid d hd
  · rw [if_neg hmore, if_neg (by simp)] at h
    cases h
    exact Iff.rfl

/-- An update of the listing of `p` with one name tells each directory above of its child, and of
nothing else. -/
theorem meta_add_only_children {s records : MetaSet} (hw : w.Exact) (hs : s ≠ []) (hordered : s.Ordered)
    {n : Name} (hentry : ∀ m, Named m → m ∈ (entry_of p s).map Metadata.name → m = n)
    (hrecords : MetaSet.of_list (records.map Metadata.sent) = copied s k 0) {self : Node}
    (hself : w.successor (sha.uri p) = some self) {o : Options} (ho : o.source = none) {fuel : Nat}
    (h : ignored (meta_add sha fuel w self p records o) = some w') {d : Path} {m : Name} (hm : Named m)
    (hl : OwnerLists sha w' d m) : OwnerLists sha w d m ∨ d ++ [m] <+: p ++ [n] := by
  induction fuel generalizing w w' self p s records n with
  | zero => cases h
  | succ fuel ih =>
    rcases meta_add_cases sha hrecords h with rfl | ⟨-, v, hv, hcopy⟩
    · exact Or.inl hl
    have hring : v.ring = w.ring := by
      split at hv
      · obtain ⟨node, -, hv⟩ := Option.bind_eq_some_iff.mp hv
        exact (meta_add_only_above hv).ring
      · cases hv
        rfl
    rw [copies_owner_lists hs hordered (by rw [successor_congr hring, hself]) ho hcopy] at hl
    have hadded : OwnerLists sha (w.add_entry self p (entry_of p (copied s k 0))) d m →
        OwnerLists sha w d m ∨ d ++ [m] <+: p ++ [n] := by
      rw [owner_lists_add_entry hself (entry_of_ordered (copied_ordered hordered k 0) p) hm,
        entry_of_copied_names]
      refine Or.imp_right ?_
      rintro ⟨rfl, hmem⟩
      rw [hentry m hm hmem]
    split at hv
    · rename_i hcond
      obtain ⟨node, hnode, hv⟩ := Option.bind_eq_some_iff.mp hv
      obtain ⟨c, a, rfl⟩ := (List.eq_nil_or_concat' p).resolve_left fun hnil => hcond.2.1 (by rw [hnil]; rfl)
      rw [parent_path, List.dropLast_concat] at hnode hv
      have hparent : ∀ b, Named b → b ∈ (entry_of c [MetaSet.directory_record a]).map Metadata.name →
          b = a := by
        intro b hb hmem
        rw [entry_of_directory, parent_names] at hmem
        split at hmem
        · exact absurd (List.mem_singleton.mp hmem) hb.1
        · exact List.mem_singleton.mp hmem
      have hlast : filename (c ++ [a]) = a := by simp [filename]
      rw [hlast] at hv
      have hexact : (w.add_entry self (c ++ [a]) (entry_of (c ++ [a]) (copied s k 0))).Exact :=
        hw.of_ring rfl rfl
      rcases ih hexact (List.cons_ne_nil _ _) (List.pairwise_singleton _ _) hparent
        (sent_create_directory hs k a) hnode hv hl with hold | hbelow
      · exact hadded hold
      · exact Or.inr (hbelow.trans (List.prefix_append _ _))
    · cases hv
      exact hadded hl

/-- Where a name is listed, everything above is. -/
def Upward (sha : Sha256) (w : World) (p : Path) : Prop :=
  ∀ d, d <+: p → ∀ n, Named n → OwnerLists sha w d n → ∀ q m, q ++ [m] <+: d → OwnerLists sha w q m

/-- The entry of `c ++ [a]` says nothing of the names above. -/
theorem Upward.add_entry {c : Path} {a : Name} (h : Upward sha w c) (self : Node) (entry : MetaSet) :
    Upward sha (w.add_entry self (c ++ [a]) entry) c := by
  intro d hd n hn hl q m hq
  have hne : d ≠ c ++ [a] := by
    rintro rfl
    exact ne_of_child_below hd rfl
  have hsame := (OnlyEntry.add_entry w self (c ++ [a]) entry).entries
  rw [OwnerLists.congr (show (w.add_entry self (c ++ [a]) entry).ring = w.ring from rfl)
    fun x _ => hsame x.uuid d hne] at hl
  exact (h d hd n hn hl q m hq).add_entry self entry

/-- The owner lists the names that it is sent. -/
theorem meta_add_listed {s records : MetaSet} (hw : w.Exact) (hs : s ≠ []) {n : Name}
    (hns : n ∈ s.map Metadata.name) (hentry : n ∈ (entry_of p s).map Metadata.name)
    (hrecords : MetaSet.of_list (records.map Metadata.sent) = copied s k 0) {self : Node}
    (hself : w.successor (sha.uri p) = some self) {o : Options} (ho : o.source = none) {fuel : Nat}
    (h : ignored (meta_add sha fuel w self p records o) = some w') : OwnerLists sha w' p n := by
  by_cases hold : OwnerLists sha w p n
  · exact hold.meta_add h
  cases fuel with
  | zero => cases h
  | succ fuel =>
    have hmem : self ∈ w.ring := (firstAfter_argmin hself).1
    have hnew : ∀ existing ∈ (w.stores self.uuid).metadata.lookup p,
        ¬ MetaSet.equal_basic existing (copied s k 0) := by
      intro existing hlookup heq
      refine hold ⟨self, hself, existing, hlookup, ?_⟩
      rw [MetaSet.equal_basic_names heq, copied, List.map_map]
      exact hns
    rw [meta_add_accepted sha hrecords (hw.up self hmem) (by rw [ho]; simp) (copied_ne_nil hs k 0) hnew
      (show _ = entry_of p (copied s k 0) from rfl)] at h
    obtain ⟨v, hv, hcopy⟩ := ignored_bind_bind h
    have hlisted : OwnerLists sha v p n := by
      have hfirst : OwnerLists sha (w.add_entry self p (entry_of p (copied s k 0))) p n :=
        add_entry_listed hself (by rwa [entry_of_copied_names])
      split at hv
      · obtain ⟨node, -, hv⟩ := Option.bind_eq_some_iff.mp hv
        exact hfirst.meta_add hv
      · cases hv
        exact hfirst
    split at hcopy
    · obtain ⟨node, -, hcopy⟩ := Option.bind_eq_some_iff.mp hcopy
      exact hlisted.meta_add hcopy
    · cases hcopy
      exact hlisted

/-- Then the update leaves a name in the listing, and all directories above it in theirs. -/
theorem meta_add_all_children {s records : MetaSet} (hw : w.Exact) (hs : s ≠ []) (hordered : s.Ordered)
    {n : Name} (hn : Named n) (hns : n ∈ s.map Metadata.name) (hentry : n ∈ (entry_of p s).map Metadata.name)
    (hrecords : MetaSet.of_list (records.map Metadata.sent) = copied s k 0) (hp : ∀ x ∈ p, x ≠ [] ∧ Named x)
    (hsteep : p.IsChain (· ≠ ·)) (hup : Upward sha w p) {self : Node}
    (hself : w.successor (sha.uri p) = some self) {o : Options} (ho : o.source = none) {fuel : Nat}
    (h : ignored (meta_add sha fuel w self p records o) = some w') {q : Path} {m : Name}
    (hq : q ++ [m] <+: p ++ [n]) : OwnerLists sha w' q m := by
  induction fuel generalizing w w' self p s records n q m with
  | zero => cases h
  | succ fuel ih =>
    rcases List.prefix_concat_iff.mp hq with heq | hq
    · obtain ⟨rfl, hm⟩ := List.append_inj' heq rfl
      obtain rfl := List.singleton_inj.mp hm
      exact meta_add_listed hw hs hns hentry hrecords hself ho h
    by_cases hold : OwnerLists sha w p n
    · exact (hup p (List.prefix_refl p) n hn hold q m hq).meta_add h
    have hmem : self ∈ w.ring := (firstAfter_argmin hself).1
    have hnone : ¬ Lists (w.stores self.uuid) p n := fun hl => hold ((owner_lists_at hself).mpr hl)
    have hnew : ∀ existing ∈ (w.stores self.uuid).metadata.lookup p,
        ¬ MetaSet.equal_basic existing (copied s k 0) := by
      intro existing hlookup heq
      refine hnone ⟨existing, hlookup, ?_⟩
      rw [MetaSet.equal_basic_names heq, copied, List.map_map]
      exact hns
    rw [meta_add_accepted sha hrecords (hw.up self hmem) (by rw [ho]; simp) (copied_ne_nil hs k 0) hnew
      (show _ = entry_of p (copied s k 0) from rfl)] at h
    obtain ⟨v, hv, hcopy⟩ := ignored_bind_bind h
    -- the name is new, and the parent hears of it
    have hadded : ((w.stores self.uuid).metadata.add p (entry_of p (copied s k 0))).2 = true := by
      obtain ⟨x, hx, hname⟩ := List.mem_map.mp (show n ∈ (entry_of p (copied s k 0)).map Metadata.name by
        rwa [entry_of_copied_names])
      refine decide_eq_true ⟨x, hx, fun hin => ?_⟩
      rw [hname] at hin
      cases hlookup : (w.stores self.uuid).metadata.lookup p with
      | none => simp [hlookup] at hin
      | some existing =>
        rw [hlookup, Option.getD_some] at hin
        exact hnone ⟨existing, hlookup, hin⟩
    obtain ⟨c, a, rfl⟩ := (List.eq_nil_or_concat' p).resolve_left fun hnil => by
      rw [hnil] at hq
      exact absurd (List.prefix_nil.mp hq) (by simp)
    have hlast : filename (c ++ [a]) = a := by simp [filename]
    rw [if_pos ⟨hadded, parent_path_ne (by simp), by rw [max_replication_copied hs]; rfl⟩, hlast, parent_path,
      List.dropLast_concat] at hv
    obtain ⟨node, hnode, hv⟩ := Option.bind_eq_some_iff.mp hv
    have hlisted : OwnerLists sha v q m := by
      have ha : Named a := (hp a (by simp)).2
      have hne : a ≠ filename c :=
        (isChain_iff_filename fun x hx => (hp x hx).1).mp hsteep c a (List.prefix_refl _)
      have hexact : (w.add_entry self (c ++ [a]) (entry_of (c ++ [a]) (copied s k 0))).Exact :=
        hw.of_ring rfl rfl
      have habove : Upward sha w c := fun d hd => hup d (hd.trans (List.prefix_append _ _))
      have hchain : c.IsChain (· ≠ ·) := List.IsChain.prefix hsteep (List.prefix_append _ _)
      exact ih hexact (List.cons_ne_nil _ _) (List.pairwise_singleton _ _) ha List.mem_cons_self
        (by rw [entry_of_directory, mem_parent_names ha]; exact hne) (sent_create_directory hs k a)
        (fun x hx => hp x (List.mem_append_left _ hx)) hchain (habove.add_entry self _) hnode hv hq
    split at hcopy
    · obtain ⟨next, -, hcopy⟩ := Option.bind_eq_some_iff.mp hcopy
      exact hlisted.meta_add hcopy
    · cases hcopy
      exact hlisted

/-! ## `put`, `mkdir` and `del` -/

/-- The owners of the directories on the way to `uri` list it, where no directory is one of `files`. -/
structure Announced (sha : Sha256) (files : Path → Prop) (uri : Path) (w w' : World) : Prop where
  ring : w'.ring = w.ring
  children : ∀ d n, d ++ [n] <+: uri → OwnerLists sha w' d n
  kept : ∀ d, ¬ files d → ∀ n, OwnerLists sha w d n → OwnerLists sha w' d n
  only : ∀ d, ¬ files d → ∀ n, Named n → OwnerLists sha w' d n → OwnerLists sha w d n ∨ d ++ [n] <+: uri
  has : ¬ files uri → OwnerHas sha w' uri
  entries : ∀ d u, ¬ d <+: uri → SameEntry u d w w'

/-- `d` is a directory that is made on the way to `p`. -/
structure OnTheWay (d p : Path) : Prop where
  nonempty : d ≠ []
  ne : d ≠ p
  above : d <+: p

theorem OnTheWay.trans {a b c : Path} (h : OnTheWay a b) (h' : b <+: c) : OnTheWay a c := by
  refine ⟨h.nonempty, ?_, h.above.trans h'⟩
  rintro rfl
  exact h.ne (h.above.eq_of_length_le h'.length_le)

theorem OnTheWay.above_parent {d p : Path} (h : OnTheWay d p) : d <+: parent_path p := by
  rcases List.eq_nil_or_concat' p with rfl | ⟨c, a, rfl⟩
  · exact h.above
  · rw [parent_path, List.dropLast_concat]
    exact (List.prefix_concat_iff.mp h.above).resolve_left h.ne

theorem on_the_way_parent {uri d : Path} {n : Name} (h : d ++ [n] <+: uri) (hne : d ++ [n] ≠ uri) :
    OnTheWay (d ++ [n]) uri := ⟨by simp, hne, h⟩

/-- What a put makes of the listings at the owners. -/
theorem put_file_listings {files : Path → Prop} {uri : Path} {bytes : Bytes} {self : Peer} {fuel : Nat}
    (hw : w.Exact) (hfile : files uri) (huri : FilePath uri) (hsteep : (parent_path uri).IsChain (· ≠ ·))
    (hup : Upward sha w (parent_path uri))
    (hcall : put_file sha fuel self w uri bytes ⟨0, k⟩ = some (w', .OK)) :
    Announced sha files uri w w' ∧ OwnerLists sha w' (parent_path uri) ['.'] := by
  obtain ⟨c, f, rfl⟩ := (List.eq_nil_or_concat' uri).resolve_left huri.1
  have hparent : parent_path (c ++ [f]) = c := List.dropLast_concat
  have hlast : filename (c ++ [f]) = f := by simp [filename]
  have hf : Named f := hlast ▸ huri.named
  obtain ⟨fuel, stored, w₁, node, v, hbefore, hexact, hnode, hv, hafter⟩ := put_file_asks_parent hw hcall
  rw [hparent] at hnode hv hsteep hup
  have hring : v.ring = w₁.ring := (meta_add_only_above hv).ring
  have hfirst : ∀ d n, d ≠ c ++ [f] → (OwnerLists sha w₁ d n ↔ OwnerLists sha w d n) := fun d n hd =>
    OwnerLists.congr hbefore.ring fun x _ => hbefore.entries x.uuid d hd
  have hlater : ∀ d n, d ≠ c ++ [f] → (OwnerLists sha w' d n ↔ OwnerLists sha v d n) := fun d n hd =>
    OwnerLists.congr hafter.ring fun x _ => hafter.entries x.uuid d hd
  have hway : ∀ d, d <+: c → d ≠ c ++ [f] := by
    rintro d hd rfl
    exact ne_of_child_below hd rfl
  have hrecords := copied_zero (parent_listing_ordered (file_record sha (c ++ [f]) stored (.copy k 0)))
    (parent_listing_replication (k := k) rfl)
  have hentry : ∀ m, m ∈ (entry_of c (parent_listing (file_record sha (c ++ [f]) stored (.copy k 0)))).map
      Metadata.name ↔ m ∈ [f, ['.'], ['.', '.']] := by
    intro m
    rw [entry_of_parent_listing (by rw [file_record]; exact huri.named)]
    simp [file_record, hlast]
  have hchildren : ∀ d n, d ++ [n] <+: c ++ [f] → OwnerLists sha w' d n := by
    intro d n hd
    rw [hlater d n (ne_of_child_below hd)]
    refine meta_add_all_children hexact (parent_listing_ne_nil _) (parent_listing_ordered _) hf
      ((mem_parent_listing_names _ f).mpr (by simp [file_record, hlast])) ((hentry f).mpr List.mem_cons_self)
      hrecords (fun x hx => huri.2 x (List.mem_append_left _ hx)) hsteep ?_ hnode rfl hv hd
    intro e he m hm hl q b hq
    rw [hfirst q b (ne_of_child_below (hq.trans (he.trans (List.prefix_append _ _))))]
    exact hup e he m hm ((hfirst e m (hway e he)).mp hl) q b hq
  have hdir : ∀ d, ¬ files d → d ≠ c ++ [f] := fun d hd heq => hd (heq ▸ hfile)
  refine ⟨⟨hafter.ring.trans (hring.trans hbefore.ring), hchildren, fun d hd n hl => ?_,
    fun d hd n hn hl => ?_,
    fun h => absurd hfile h, fun d u hd => ?_⟩, ?_⟩
  · rw [hlater d n (hdir d hd)]
    exact ((hfirst d n (hdir d hd)).mpr hl).meta_add hv
  · rw [hlater d n (hdir d hd)] at hl
    refine (meta_add_only_children hexact (parent_listing_ne_nil _) (parent_listing_ordered _)
      (fun m hm hmem => ?_) hrecords hnode rfl hv hn hl).imp_left (hfirst d n (hdir d hd)).mp
    simpa [hm.1, hm.2] using (hentry m).mp hmem
  · have hne : d ≠ c ++ [f] := fun heq => hd (heq ▸ List.prefix_refl _)
    have hnot : ¬ d <+: c := fun h => hd (h.trans (List.prefix_append _ _))
    exact ((hafter.entries u d hne).trans (((meta_add_only_above hv).stores u).metadata d hnot)).trans
      (hbefore.entries u d hne)
  · rw [hparent, hlater c _ (hway c (List.prefix_refl c))]
    exact meta_add_listed hexact (parent_listing_ne_nil _) ((mem_parent_listing_names _ _).mpr (by simp))
      ((hentry _).mpr (by simp)) hrecords hnode rfl hv

/-- What a `mkdir` makes of them. A directory that its owner has is in all listings above. -/
theorem mkdir_listings (files : Path → Prop) {uri : Path} {fuel : Nat} {status : StatusCode} (hw : w.Exact)
    (huri : FilePath uri)
    (hsteep : uri.IsChain (· ≠ ·)) (hup : Upward sha w (parent_path uri))
    (hknown : OwnerHas sha w uri → ∀ d n, d ++ [n] <+: uri → OwnerLists sha w d n)
    (hdots : OwnerLists sha w uri (filename uri) → OwnerLists sha w uri ['.'])
    (hcall : mkdir sha fuel w uri ⟨0, k⟩ = some (w', status)) :
    status = .OK ∧ Announced sha files uri w w' := by
  obtain ⟨x, hx, hcall⟩ := Option.bind_eq_some_iff.mp hcall
  have hmem : x ∈ w.ring := (firstAfter_argmin hx).1
  have hignored : ignored (meta_add sha fuel w x uri [directory uri ⟨0, k⟩] {}) = some w' := by
    rw [hcall]
    rfl
  have hmkdir : is_mkdir uri [directory uri ⟨0, k⟩] := ⟨rfl, rfl⟩
  have hnil : [directory uri ⟨0, k⟩] ≠ [] := List.cons_ne_nil _ _
  have hordered : MetaSet.Ordered [directory uri ⟨0, k⟩] := List.pairwise_singleton _ _
  have hrecords := copied_zero hordered (k := k) (by simp [directory, Replication.copy])
  have habove := meta_add_only_above hignored
  have honly : ∀ d n, Named n → OwnerLists sha w' d n → OwnerLists sha w d n ∨ d ++ [n] <+: uri := by
    intro d n hn hl
    -- the new entry has a `.` and no other name
    have hdot : ∀ m, Named m → m ∈ (entry_of uri [directory uri ⟨0, k⟩]).map Metadata.name → m = ['.'] := by
      intro m _ hm
      rw [entry_of, if_pos hmkdir] at hm
      exact List.mem_singleton.mp hm
    refine (meta_add_only_children hw hnil hordered hdot hrecords hx rfl hignored hn hl).imp_right fun h => ?_
    refine (List.prefix_concat_iff.mp h).resolve_left fun heq => ?_
    obtain ⟨-, hname⟩ := List.append_inj' heq rfl
    exact hn.1 (List.singleton_inj.mp hname)
  cases fuel with
  | zero => cases hcall
  | succ fuel =>
    have hfresh : ∀ existing ∈ (w.stores x.uuid).metadata.lookup uri,
        ¬ MetaSet.equal_basic existing (copied [directory uri ⟨0, k⟩] k 0) := by
      -- a listing with one name has no `.`
      intro existing hlookup heq
      have hone : existing.map Metadata.name = [filename uri] := MetaSet.equal_basic_names heq
      obtain ⟨records, hrecords, hdot⟩ := (owner_lists_at hx).mp
        (hdots ⟨x, hx, existing, hlookup, by rw [hone]; exact List.mem_singleton_self _⟩)
      obtain rfl := Option.some.inj (hlookup.symm.trans hrecords)
      rw [hone] at hdot
      exact huri.named.1 (List.mem_singleton.mp hdot).symm
    rw [meta_add_accepted sha hrecords (hw.up x hmem) (by simp) (copied_ne_nil hnil k 0) hfresh
      (show _ = entry_of uri (copied [directory uri ⟨0, k⟩] k 0) from rfl)] at hcall
    obtain ⟨v, hv, hcall⟩ := Option.bind_eq_some_iff.mp hcall
    obtain ⟨z, hcopy, hcall⟩ := Option.bind_eq_some_iff.mp hcall
    cases hcall
    have hring : v.ring = w.ring := by
      split at hv
      · obtain ⟨node, -, hv⟩ := Option.bind_eq_some_iff.mp hv
        exact (meta_add_only_above hv).ring
      · cases hv
        rfl
    have hcopied := copies_owner_lists hnil hordered (by rw [successor_congr hring, hx]) rfl hcopy
    have hchildren : ∀ d n, d ++ [n] <+: uri → OwnerLists sha w' d n := by
      intro d n hd
      rw [hcopied]
      by_cases hadded : ((w.stores x.uuid).metadata.add uri
          (entry_of uri (copied [directory uri ⟨0, k⟩] k 0))).2 = true
      · obtain ⟨c, a, rfl⟩ := (List.eq_nil_or_concat' uri).resolve_left huri.1
        have hlast : filename (c ++ [a]) = a := by simp [filename]
        rw [if_pos ⟨hadded, parent_path_ne (by simp), by rw [max_replication_copied hnil]; rfl⟩, hlast,
          parent_path, List.dropLast_concat] at hv
        obtain ⟨node, hnode, hv⟩ := Option.bind_eq_some_iff.mp hv
        have ha : Named a := (huri.2 a (by simp)).2
        have hne : a ≠ filename c :=
          (isChain_iff_filename fun x hx => (huri.2 x hx).1).mp hsteep c a (List.prefix_refl _)
        have hchain : c.IsChain (· ≠ ·) := List.IsChain.prefix hsteep (List.prefix_append _ _)
        refine meta_add_all_children
          (hw.of_ring rfl rfl : (w.add_entry x (c ++ [a]) (entry_of (c ++ [a]) (copied _ k 0))).Exact)
          (List.cons_ne_nil _ _) (List.pairwise_singleton _ _) ha List.mem_cons_self
          (by rw [entry_of_directory, mem_parent_names ha]; exact hne) (sent_create_directory hnil k a)
          (fun y hy => huri.2 y (List.mem_append_left _ hy)) hchain ?_ hnode rfl hv hd
        rw [parent_path, List.dropLast_concat] at hup
        exact hup.add_entry x _
      · -- the old entry has the `.` already
        rw [if_neg fun h => hadded h.1] at hv
        cases hv
        refine (hknown ⟨x, hx, fun hlookup => hadded ?_⟩ d n hd).add_entry x _
        rw [entry_of, if_pos ((is_mkdir_copied uri _ k 0).mpr hmkdir)]
        exact decide_eq_true ⟨_, List.mem_singleton_self _, by simp [hlookup]⟩
    have hhas : OwnerHas sha w' uri := by
      have hlater : OwnerHas sha v uri := by
        have hfirst := owner_has_add_entry hx (entry_of uri (copied [directory uri ⟨0, k⟩] k 0))
        split at hv
        · obtain ⟨node, -, hv⟩ := Option.bind_eq_some_iff.mp hv
          exact hfirst.meta_add hv
        · cases hv
          exact hfirst
      split at hcopy
      · obtain ⟨node, -, hcopy⟩ := Option.bind_eq_some_iff.mp hcopy
        exact hlater.meta_add hcopy
      · cases hcopy
        exact hlater
    exact ⟨rfl, habove.ring, hchildren, fun d _ n hl => hl.meta_add hignored, fun d _ n hn => honly d n hn,
      fun _ => hhas, fun d u hd => (habove.stores u).metadata d hd⟩

/-- A deletion adds no name. -/
theorem meta_del_unlisted {u : Uuid} {n : Name} (h : ¬ Lists (w.stores u) p n) (fuel : Nat) (self : Node)
    (records : MetaSet) (o : Options) :
    After (fun v => ¬ Lists (v.stores u) p n) (meta_del fuel w self p records o) := by
  refine meta_del_after (fun _ => True) ?_ fuel w self records o (fun _ _ => trivial) h
  intro v z current names hv hlookup _
  rcases eq_or_ne u z with rfl | hu
  · rw [set_stores_self]
    rintro ⟨records, hrecords, hmem⟩
    cases (AList.lookup_insert _).symm.trans hrecords
    obtain ⟨x, hx, rfl⟩ := List.mem_map.mp hmem
    exact hv ⟨current, hlookup, List.mem_map_of_mem (List.mem_of_mem_filter hx)⟩
  · rwa [set_stores_of_ne hu]

/-- The owner that is asked first does not have the name afterwards. -/
theorem meta_del_at_owner {y : Node} (hy : y ∈ w.up) {m : Metadata} {o : Options} (ho : o.source = none)
    {fuel : Nat} (h : ignored (meta_del fuel w y p [m] o) = some w') :
    ¬ Lists (w'.stores y.uuid) p m.name := by
  cases fuel with
  | zero => cases h
  | succ fuel =>
    unfold meta_del at h
    extract_lets metadata store done at h
    have hmetadata : metadata = [m.sent] := rfl
    rw [if_neg (not_not_intro hy), if_neg (by rw [ho]; simp), if_neg (by simp [hmetadata])] at h
    cases hremove : store.metadata.remove p metadata with
    | none =>
      rw [hremove] at h
      cases h
      rintro ⟨records, hrecords, -⟩
      cases hrecords.symm.trans (Option.map_eq_none_iff.mp hremove)
    | some removed =>
      obtain ⟨left, deleted⟩ := removed
      rw [hremove] at h
      have hgone : ¬ Lists ((w.set y.uuid { store with metadata := left }).stores y.uuid) p m.name := by
        obtain ⟨current, -, heq⟩ := Option.map_eq_some_iff.mp hremove
        cases heq
        rw [set_stores_self]
        rintro ⟨records, hrecords, hmem⟩
        cases (AList.lookup_insert _).symm.trans hrecords
        obtain ⟨x, hx, hname⟩ := List.mem_map.mp hmem
        exact of_decide_eq_true (List.mem_filter.mp hx).2 (by simp [hmetadata, hname, Metadata.sent])
      refine after_ignored (P := fun v => ¬ Lists (v.stores y.uuid) p m.name) ?_ h
      dsimp only
      split
      · exact after_bind fun node _ => after_bind fun z hz =>
          after_some (after_ignored (meta_del_unlisted hgone _ _ _ _) hz) _
      · exact after_some hgone _

theorem child_eq_iff {uri d : Path} (huri : uri ≠ []) {n : Name} :
    d ++ [n] = uri ↔ d = parent_path uri ∧ n = filename uri := by
  obtain ⟨c, f, rfl⟩ := (List.eq_nil_or_concat' uri).resolve_left huri
  have hlast : filename (c ++ [f]) = f := by simp [filename]
  rw [parent_path, List.dropLast_concat, hlast]
  constructor
  · intro heq
    obtain ⟨hd, hn⟩ := List.append_inj' heq rfl
    exact ⟨hd, List.singleton_inj.mp hn⟩
  · rintro ⟨rfl, rfl⟩
    rfl

/-- What a deletion makes of the listings at the owners. -/
theorem facade_del_listings {uri : Path} {f : File} {recursive : Bool} {fuel : Nat} (hw : w.Exact)
    (huri : FilePath uri) (hspread : Spread sha w uri (some f)) (hfuel : w.ring.length < fuel)
    (hcall : facade_del sha (fuel + 1) w uri recursive = some (w', .OK)) {d : Path} (hd : d ≠ uri) :
    (OwnerHas sha w' d ↔ OwnerHas sha w d) ∧
      ∀ n, OwnerLists sha w' d n ↔ OwnerLists sha w d n ∧ d ++ [n] ≠ uri := by
  obtain ⟨w₁, node, h₁, hnode, hdel⟩ := del_unplaced recursive hw hspread hfuel
  rw [hcall] at hdel
  obtain ⟨v, hmeta, hv⟩ := Option.bind_eq_some_iff.mp hdel.symm
  cases hv
  have hring := h₁.along.ring
  have hunnamed : Unnamed (parent_path uri) (filename uri) w₁ w' :=
    after_ignored (meta_del_unnamed (by simp [file_record]) _ _ _) hmeta
  constructor
  · rw [← OwnerHas.congr hring fun u => by rw [h₁.entries u d hd]]
    refine OwnerHas.congr hunnamed.ring fun u => ?_
    by_cases hparent : d = parent_path uri
    · rw [hparent]
      rcases hunnamed.entry u with hsame | hfiltered
      · rw [hsame]
      · rw [hfiltered, Option.map_eq_none_iff]
    · rw [hunnamed.metadata u d hparent]
  intro n
  have hbefore : OwnerLists sha w₁ d n ↔ OwnerLists sha w d n :=
    OwnerLists.congr hring fun x _ => h₁.entries x.uuid d hd
  rw [← hbefore, Ne, child_eq_iff huri.1]
  by_cases hparent : d = parent_path uri
  · subst hparent
    have hnode₁ : w₁.successor (sha.uri (parent_path uri)) = some node := by rw [successor_congr hring, hnode]
    have hup : node ∈ w₁.up := h₁.along.up ▸ hw.up node (firstAfter_argmin hnode).1
    have hgone := meta_del_at_owner hup rfl hmeta
    rw [owner_lists_at hnode₁, owner_lists_at (by rw [successor_congr hunnamed.ring, hnode₁])]
    have hfiltered := hunnamed.filtered (record_eq_none.mpr hgone)
    unfold Lists
    rw [hfiltered]
    cases (w₁.stores node.uuid).metadata.lookup (parent_path uri) with
    | none => simp
    | some s =>
      simp only [Option.map_some, Option.mem_some_iff, exists_eq_left', List.mem_map, List.mem_filter,
        decide_eq_true_eq, true_and, ne_eq]
      constructor
      · rintro ⟨m, ⟨hm, hname⟩, rfl⟩
        exact ⟨⟨m, hm, rfl⟩, hname⟩
      · rintro ⟨⟨m, hm, rfl⟩, hname⟩
        exact ⟨m, ⟨hm, hname⟩, rfl⟩
  · have hsame : ∀ x : Node, SameEntry x.uuid d w₁ w' := fun x => hunnamed.metadata x.uuid d hparent
    rw [OwnerLists.congr hunnamed.ring fun x _ => hsame x]
    simp [hparent]

/-! ## The files and the directories -/

/-- Directories are made for the files below them, and on their own. -/
structure Namespace where
  files : Contents
  directories : Path → Prop

namespace Namespace

inductive Action where
  | file (c : Command)
  | mkdir (uri : Path) (count : UInt32)

def Action.uri : Action → Path
  | .file c => c.uri
  | .mkdir uri _ => uri

def made (t : Namespace) : Action → Path → Prop
  | .file (.put _ uri _ _), d => t.directories d ∨ OnTheWay d uri
  | .file _, d => t.directories d
  | .mkdir uri _, d => t.directories d ∨ d ≠ [] ∧ d <+: uri

def perform (sha : Sha256) (t : Namespace) : Action → Namespace × Outcome
  | .file c => (⟨(t.files.perform sha c).1, t.made (.file c)⟩, (t.files.perform sha c).2)
  | .mkdir uri count => (⟨t.files, t.made (.mkdir uri count)⟩, .status .OK)

def child (t : Namespace) (d : Path) (n : Name) : Prop :=
  (t.files (d ++ [n])).isSome ∨ t.directories (d ++ [n])

/-- All directories above are there too, and none is a file. -/
structure Closed (paths : Path → Prop) (t : Namespace) : Prop where
  known : ∀ p, (t.files p).isSome → paths p
  above : ∀ p, (t.files p).isSome ∨ t.directories p → ∀ d, OnTheWay d p → t.directories d
  apart : ∀ d, t.directories d → ¬ paths d
  steep : ∀ d, t.directories d → d.IsChain (· ≠ ·)

/-- No file is on the way to a new directory. -/
def Action.Fits (paths : Path → Prop) (t : Namespace) : Action → Prop
  | .file c => c.Fits paths t.files
  | .mkdir uri _ => FilePath uri ∧ uri.IsChain (· ≠ ·) ∧ ∀ p, paths p → ¬ p <+: uri

variable {paths : Path → Prop} {t : Namespace}

theorem not_isChain_filename {d : Path} (hd : d ≠ []) : ¬ (d ++ [filename d]).IsChain (· ≠ ·) := by
  obtain ⟨c, a, rfl⟩ := (List.eq_nil_or_concat' d).resolve_left hd
  rw [show filename (c ++ [a]) = a by simp [filename], List.append_assoc]
  exact fun h => absurd (List.isChain_append.mp h).2.1 (by simp)

theorem Closed.put (h : t.Closed paths) (hpaths : Names paths) {uri : Path} (huri : paths uri)
    (hsteep : (parent_path uri).IsChain (· ≠ ·)) (file : File) :
    Closed paths ⟨Function.update t.files uri (some file), fun d => t.directories d ∨ OnTheWay d uri⟩ where
  known p hp := by
    dsimp only at hp
    rcases eq_or_ne p uri with rfl | hne
    · exact huri
    · exact h.known p (by rwa [Function.update_of_ne hne] at hp)
  above p hp d hd := by
    dsimp only at hp ⊢
    rcases eq_or_ne p uri with rfl | hne
    · exact Or.inr hd
    rw [Function.update_of_ne hne] at hp
    rcases hp with hp | hp | hp
    · exact Or.inl (h.above p (Or.inl hp) d hd)
    · exact Or.inl (h.above p (Or.inr hp) d hd)
    · exact Or.inr (hd.trans hp.above)
  apart d hd := by
    rcases hd with hd | hd
    · exact h.apart d hd
    · exact fun hfile => hd.ne (hpaths.apart d uri hfile huri hd.above)
  steep d hd := by
    rcases hd with hd | hd
    · exact h.steep d hd
    · exact List.IsChain.prefix hsteep hd.above_parent

theorem Closed.mkdir (h : t.Closed paths) {uri : Path} (hsteep : uri.IsChain (· ≠ ·))
    (hnone : ∀ p, paths p → ¬ p <+: uri) :
    Closed paths ⟨t.files, fun d => t.directories d ∨ d ≠ [] ∧ d <+: uri⟩ where
  known := h.known
  above p hp d hd := by
    rcases hp with hp | hp | ⟨-, hp⟩
    · exact Or.inl (h.above p (Or.inl hp) d hd)
    · exact Or.inl (h.above p (Or.inr hp) d hd)
    · exact Or.inr ⟨hd.nonempty, hd.above.trans hp⟩
  apart d hd := by
    rcases hd with hd | ⟨-, hd⟩
    · exact h.apart d hd
    · exact fun hfile => hnone d hfile hd
  steep d hd := by
    rcases hd with hd | ⟨-, hd⟩
    · exact h.steep d hd
    · exact List.IsChain.prefix hsteep hd

theorem Closed.del (h : t.Closed paths) (uri : Path) :
    Closed paths ⟨Function.update t.files uri none, t.directories⟩ := by
  have hold : ∀ p, (Function.update t.files uri none p).isSome → (t.files p).isSome := by
    intro p hp
    rcases eq_or_ne p uri with rfl | hne
    · rw [Function.update_self] at hp
      cases hp
    · rwa [Function.update_of_ne hne] at hp
  exact ⟨fun p hp => h.known p (hold p hp), fun p hp => h.above p (hp.imp_left (hold p)), h.apart, h.steep⟩

end Namespace

/-- The disks hold the files of the namespace, and the owners of its directories list their children. -/
structure Presents (sha : Sha256) (paths : Path → Prop) (w : World) (t : Namespace) : Prop
    extends Reflects sha paths w t.files where
  closed : t.Closed paths
  names : ∀ d, ¬ paths d → ∀ n, Named n → (OwnerLists sha w d n ↔ t.child d n)
  entries : ∀ d, ¬ paths d → (OwnerHas sha w d ↔ d = [] ∨ t.directories d)
  dots : ∀ d, ¬ paths d → ∀ n, (t.files (d ++ [n])).isSome → OwnerLists sha w d ['.']

section

variable {paths : Path → Prop} {t : Namespace}

theorem Presents.upward (h : Presents sha paths w t) {p : Path} (hp : ∀ n ∈ p, Named n)
    (hnone : ∀ e, e <+: p → ¬ paths e) : Upward sha w p := by
  intro d hd n hn hl q m hq
  have hnofile : ∀ e, e <+: d → ¬ paths e := fun e he => hnone e (he.trans hd)
  have hchild := (h.names d (hnofile d (List.prefix_refl d)) n hn).mp hl
  have hway : OnTheWay (q ++ [m]) (d ++ [n]) := by
    refine on_the_way_parent (hq.trans (List.prefix_append _ _)) fun heq => ?_
    have hlength := hq.length_le
    rw [heq, List.length_append, List.length_singleton] at hlength
    omega
  rw [h.names q (hnofile q (prefix_of_child hq)) m (hp m ((hq.trans hd).subset (by simp)))]
  exact Or.inr (h.closed.above _ hchild _ hway)

/-- The listings after an announcement, where the namespace has grown on the way to `uri` only. -/
theorem Presents.announced (h : Presents sha paths w t) (t' : Namespace) {uri : Path}
    (hnew : Announced sha paths uri w w')
    (hchild : ∀ d, ¬ paths d → ∀ n, t'.child d n ↔ t.child d n ∨ d ++ [n] <+: uri)
    (hmade : ∀ d, ¬ paths d → (t'.directories d ↔ t.directories d ∨ d ≠ [] ∧ d <+: uri)) :
    (∀ d, ¬ paths d → ∀ n, Named n → (OwnerLists sha w' d n ↔ t'.child d n)) ∧
      ∀ d, ¬ paths d → (OwnerHas sha w' d ↔ d = [] ∨ t'.directories d) := by
  constructor
  · intro d hd n hn
    rw [hchild d hd n, ← h.names d hd n hn]
    constructor
    · exact hnew.only d hd n hn
    · rintro (hl | hl)
      · exact hnew.kept d hd n hl
      · exact hnew.children d n hl
  · intro d hd
    rw [hmade d hd]
    by_cases hbelow : d <+: uri
    · refine iff_of_true ?_ ?_
      · rcases prefix_child hbelow with rfl | ⟨n, hn⟩
        · exact hnew.has hd
        · exact (hnew.children d n hn).has
      · by_cases hroot : d = []
        · exact Or.inl hroot
        · exact Or.inr (Or.inr ⟨hroot, hbelow⟩)
    · rw [OwnerHas.congr hnew.ring fun u => by rw [hnew.entries d u hbelow], h.entries d hd]
      simp [hbelow]

theorem Presents.put (h : Presents sha paths w t) (hpaths : Names paths)
    (hsteep : ∀ p, paths p → (parent_path p).IsChain (· ≠ ·)) {uri : Path} (huri : paths uri) {self : Peer}
    {bytes : Bytes} {fuel : Nat} {file : File}
    (hcall : put_file sha fuel self w uri bytes ⟨0, k⟩ = some (w', .OK))
    (hholds : Reflects sha paths w' (Function.update t.files uri (some file))) :
    Presents sha paths w'
      ⟨Function.update t.files uri (some file), fun d => t.directories d ∨ OnTheWay d uri⟩ := by
  have hfile := hpaths.file uri huri
  have hup : Upward sha w (parent_path uri) := by
    refine h.upward (fun n hn => (hfile.2 n (List.mem_of_mem_dropLast hn)).2) fun e he hpath => ?_
    obtain rfl := hpaths.apart e uri hpath huri (he.trans (parent_path_le uri))
    exact parent_path_not_below hfile.1 he
  obtain ⟨hnew, hdot⟩ := put_file_listings h.exact huri hfile (hsteep uri huri) hup hcall
  have hne : ∀ d, ¬ paths d → d ≠ uri := fun d hd heq => hd (heq ▸ huri)
  have hgrown := h.announced
    ⟨Function.update t.files uri (some file), fun d => t.directories d ∨ OnTheWay d uri⟩ hnew
    (fun d hd n => ?_) fun d hd => ?_
  · refine ⟨hholds, h.closed.put hpaths huri (hsteep uri huri) file, hgrown.1, hgrown.2, fun d hd n hn => ?_⟩
    rcases eq_or_ne (d ++ [n]) uri with rfl | hother
    · rwa [parent_path, List.dropLast_concat] at hdot
    · refine hnew.kept d hd _ (h.dots d hd n ?_)
      dsimp only at hn
      rwa [Function.update_of_ne hother] at hn
  · by_cases heq : d ++ [n] = uri
    · simp [Namespace.child, heq]
    · have hway : d ++ [n] <+: uri ↔ OnTheWay (d ++ [n]) uri :=
        ⟨fun hbelow => on_the_way_parent hbelow heq, OnTheWay.above⟩
      rw [hway, Namespace.child, Namespace.child, or_assoc]
      dsimp only
      rw [Function.update_of_ne heq]
  · exact or_congr_right ⟨fun hway => ⟨hway.nonempty, hway.above⟩, fun hway => ⟨hway.1, hne d hd, hway.2⟩⟩

theorem Presents.mkdir (h : Presents sha paths w t) {lap fuel : Nat} (hlap : Lap lap) {uri : Path}
    (huri : FilePath uri) (hsteep : uri.IsChain (· ≠ ·)) (hnone : ∀ p, paths p → ¬ p <+: uri)
    (hfuel : uri.length * (lap + 1) + lap < fuel) :
    ∃ w', Fs.mkdir sha fuel w uri ⟨0, k⟩ = some (w', .OK) ∧
      Presents sha paths w' ⟨t.files, fun d => t.directories d ∨ d ≠ [] ∧ d <+: uri⟩ ∧ w'.ring = w.ring := by
  have hfree : ∀ d, d <+: uri → ¬ paths d := fun d hd hpath => hnone d hpath hd
  have hnamed : ∀ n ∈ uri, Named n := fun n hn => (huri.2 n hn).2
  obtain ⟨x, hx, hsucc⟩ := h.exact.exists_successor (sha.uri uri)
  obtain ⟨w', status, hmeta, habove⟩ := @meta_add_above sha lap hlap fuel w x uri [directory uri ⟨0, k⟩] {}
    h.exact hx (by simp) (by rw [left]; omega)
  have hcall : Fs.mkdir sha fuel w uri ⟨0, k⟩ = some (w', status) := by
    rw [Fs.mkdir, hsucc, Option.bind_eq_bind, Option.bind_some, hmeta]
  have hup : Upward sha w (parent_path uri) := h.upward
    (fun n hn => hnamed n (List.mem_of_mem_dropLast hn)) fun e he => hfree e (he.trans (parent_path_le uri))
  have hknown : OwnerHas sha w uri → ∀ d n, d ++ [n] <+: uri → OwnerLists sha w d n := by
    intro hhas d n hd
    have hdir := ((h.entries uri (hfree uri (List.prefix_refl _))).mp hhas).resolve_left huri.1
    rw [h.names d (hfree d (prefix_of_child hd)) n (hnamed n (hd.subset (by simp)))]
    rcases eq_or_ne (d ++ [n]) uri with rfl | hne
    · exact Or.inr hdir
    · exact Or.inr (h.closed.above uri (Or.inr hdir) _ (on_the_way_parent hd hne))
  -- a child with the name of its directory is a file
  have hdots : OwnerLists sha w uri (filename uri) → OwnerLists sha w uri ['.'] := by
    intro hl
    have hfree := hfree uri (List.prefix_refl _)
    rcases (h.names uri hfree _ huri.named).mp hl with hfile | hdir
    · exact h.dots uri hfree _ hfile
    · exact absurd (h.closed.steep _ hdir) (Namespace.not_isChain_filename huri.1)
  obtain ⟨rfl, hnew⟩ := mkdir_listings paths h.exact huri hsteep hup hknown hdots hcall
  have hgrown := h.announced ⟨t.files, fun d => t.directories d ∨ d ≠ [] ∧ d <+: uri⟩ hnew
    (fun d _ n => ?_) fun d _ => Iff.rfl
  · refine ⟨w', hcall, ⟨⟨habove.exact h.exact, fun p hp => ?_, fun n hn p bytes hlookup => ?_⟩,
      h.closed.mkdir hsteep hnone, hgrown.1, hgrown.2, fun d hd n hn => hnew.kept d hd _ (h.dots d hd n hn)⟩,
      habove.ring⟩
    · exact (h.spread p hp).along (.of_above habove (List.prefix_refl uri)) (hnone p hp)
    · rw [habove.ring] at hn
      exact h.regular n hn p bytes (by rwa [(habove.stores n.uuid).files] at hlookup)
  · rw [Namespace.child, Namespace.child, or_assoc]
    simp

theorem Presents.del (h : Presents sha paths w t) (hpaths : Names paths) {uri : Path} (huri : paths uri)
    {f : File} (hfile : t.files uri = some f) {recursive : Bool} {fuel : Nat} (hfuel : w.ring.length < fuel)
    (hcall : facade_del sha (fuel + 1) w uri recursive = some (w', .OK))
    (hholds : Reflects sha paths w' (Function.update t.files uri none)) :
    Presents sha paths w' ⟨Function.update t.files uri none, t.directories⟩ := by
  have hspread := h.spread uri huri
  rw [hfile] at hspread
  refine ⟨hholds, h.closed.del uri, fun d hd n hn => ?_, fun d hd => ?_,
    fun d hd n hn => ?_⟩
  · have hne : d ≠ uri := fun heq => hd (heq ▸ huri)
    rw [(facade_del_listings h.exact (hpaths.file uri huri) hspread hfuel hcall hne).2 n, h.names d hd n hn]
    by_cases heq : d ++ [n] = uri
    · have hdir : ¬ t.directories uri := fun hdir => h.closed.apart uri hdir huri
      simp [Namespace.child, heq, hdir]
    · rw [Namespace.child, Namespace.child, and_iff_left heq]
      dsimp only
      rw [Function.update_of_ne heq]
  · have hne : d ≠ uri := fun heq => hd (heq ▸ huri)
    rw [(facade_del_listings h.exact (hpaths.file uri huri) hspread hfuel hcall hne).1, h.entries d hd]
  · have hne : d ≠ uri := fun heq => hd (heq ▸ huri)
    rw [(facade_del_listings h.exact (hpaths.file uri huri) hspread hfuel hcall hne).2]
    have hother : d ++ [n] ≠ uri := by
      rintro rfl
      simp at hn
    dsimp only at hn
    rw [Function.update_of_ne hother] at hn
    refine ⟨h.dots d hd n hn, ?_⟩
    rintro rfl
    exact ((hpaths.file _ huri).2 ['.'] (by simp)).2.1 rfl

variable (sha) in
def World.act (fuel : Nat) (w : World) : Namespace.Action → Option (World × Outcome)
  | .file c => w.perform sha fuel c
  | .mkdir uri count => do
    let (w, status) ← mkdir sha fuel w uri ⟨0, count⟩
    some (w, .status status)

/-- One action, on the disks and on the namespace. -/
theorem Presents.perform (h : Presents sha paths w t) (hpaths : Names paths)
    (hsteep : ∀ p, paths p → (parent_path p).IsChain (· ≠ ·)) {lap longest fuel : Nat} (hlap : Lap lap)
    {a : Namespace.Action} (hfits : a.Fits paths t) (hlength : a.uri.length ≤ longest)
    (hfuel : longest * (lap + 1) + lap + w.ring.length + 2 < fuel) :
    ∃ w', World.act sha fuel w a = some (w', (t.perform sha a).2) ∧
      Presents sha paths w' (t.perform sha a).1 ∧ w'.ring = w.ring := by
  cases a with
  | mkdir uri count =>
    obtain ⟨huri, hchain, hnone⟩ := hfits
    have hlong := Nat.mul_le_mul_right (lap + 1) hlength
    simp only [Namespace.Action.uri] at hlong
    obtain ⟨w', hcall, hholds, hring⟩ := h.mkdir (k := count) hlap huri hchain hnone
      (by omega : uri.length * (lap + 1) + lap < fuel)
    refine ⟨w', ?_, hholds, hring⟩
    rw [World.act, hcall]
    rfl
  | file c =>
    obtain ⟨w', hcall, hholds, hring⟩ := h.toReflects.perform hpaths hlap hfits hlength hfuel
    refine ⟨w', hcall, ?_, hring⟩
    have huri := hfits.1
    have hspread := h.spread c.uri huri
    obtain ⟨fuel, rfl⟩ : ∃ n, fuel = n + 2 := ⟨fuel - 2, by omega⟩
    cases c with
    | put self uri bytes count =>
      obtain ⟨⟨v, status⟩, hput, heq⟩ := Option.bind_eq_some_iff.mp hcall
      cases heq
      exact h.put hpaths hsteep huri hput hholds
    | del uri recursive =>
      simp only [Namespace.perform, Contents.perform, Command.uri] at hcall hholds hspread ⊢
      cases hfile : t.files uri with
      | none =>
        rw [hfile] at hcall hspread
        rw [World.perform, del_absent recursive h.exact hspread] at hcall
        cases hcall
        exact h
      | some f =>
        rw [hfile] at hcall hholds
        obtain ⟨⟨v, status⟩, hdel, heq⟩ := Option.bind_eq_some_iff.mp hcall
        cases heq
        exact h.del hpaths huri hfile (by omega) hdel hholds
    | get uri =>
      have hget := @get_spread sha w uri (t.files uri) fuel h.exact hspread
      rw [World.perform, hget] at hcall
      cases hcall
      exact h

/-- What a client hears about the directory `d`. -/
def Answers (t : Namespace) (d : Path) : Option (StatusCode × MetaSet) → Prop
  | some (.OK, records) => (d = [] ∨ t.directories d) ∧
    ∀ n, Named n → (n ∈ records.map Metadata.name ↔ t.child d n)
  | some (.NOT_FOUND, records) => ¬ (d = [] ∨ t.directories d) ∧ records = []
  | _ => False

theorem answered_names (s : MetaSet) (n : Name) :
    n ∈ (MetaSet.of_list (s.map Metadata.answered)).map Metadata.name ↔ n ∈ s.map Metadata.name := by
  have hnone : (MetaSet.of_list (s.map Metadata.answered)).records n = none ↔ _ := Database.records_eq_none
  rw [Database.find_of_list, List.find?_eq_none] at hnone
  rw [← not_iff_not, ← hnone]
  simp [Metadata.answered]

theorem Presents.answers (h : Presents sha paths w t) {d : Path} (hd : ¬ paths d) :
    Answers t d (dir sha w d) := by
  obtain ⟨x, hx, hsucc⟩ := h.exact.exists_successor (sha.uri d)
  have hentry := h.entries d hd
  rw [dir, hsucc, Option.map_some, meta_dir, if_neg (not_not_intro (h.exact.up x hx))]
  cases hlookup : (w.stores x.uuid).metadata.lookup d with
  | none =>
    refine ⟨fun hdir => ?_, rfl⟩
    obtain ⟨y, hy, hsome⟩ := hentry.mpr hdir
    obtain rfl := Option.some.inj (hsucc.symm.trans hy)
    exact hsome hlookup
  | some records =>
    refine ⟨hentry.mp ⟨x, hsucc, by rw [hlookup]; simp⟩, fun n hn => ?_⟩
    rw [answered_names, ← h.names d hd n hn, owner_lists_at hsucc, Lists, hlookup]
    simp

/-- Actions one after the other, on the disks and on the namespace. -/
abbrev World.act_all (sha : Sha256) (fuel : Nat) (w : World) (actions : List Namespace.Action) :
    Option (World × List Outcome) := Simulation.run (World.act sha fuel) w actions

abbrev Namespace.run (sha : Sha256) (t : Namespace) (actions : List Namespace.Action) :
    Namespace × List Outcome :=
  Simulation.abstract_run (Namespace.perform sha) t actions

/-- Fresh disks hold a namespace with a root alone. -/
theorem fresh_presents (sha : Sha256) (hpaths : Names paths) (hw : w.Exact)
    (hstores : ∀ n ∈ w.ring, ∃ c, w.stores n.uuid = .fresh c) :
    Presents sha paths w ⟨fun _ => none, fun _ => False⟩ where
  toReflects := fresh_holds sha hpaths hw hstores
  closed := ⟨by simp, by simp, by simp, by simp⟩
  names d _ n hn := by
    refine iff_of_false ?_ (by simp [Namespace.child])
    rintro ⟨x, hx, hlists⟩
    obtain ⟨c, hc⟩ := hstores x (firstAfter_argmin hx).1
    rw [hc] at hlists
    exact record_eq_none.mp ((nameless_fresh c d).record hn) hlists
  entries d _ := by
    obtain ⟨x, hx, hsucc⟩ := hw.exists_successor (sha.uri d)
    obtain ⟨c, hc⟩ := hstores x hx
    rw [or_false]
    constructor
    · rintro ⟨y, hy, hsome⟩
      obtain rfl := Option.some.inj (hsucc.symm.trans hy)
      by_contra hd
      rw [hc] at hsome
      exact hsome (fresh_lookup c hd).2
    · rintro rfl
      refine ⟨x, hsucc, ?_⟩
      rw [hc, Store.fresh, MetaStore.lookup_add]
      simp
  dots d _ n hn := by simp at hn

/-- A file is put below `d` and one below the root, a directory is made in `d`, and the first file is
deleted. -/
def Namespace.three_actions : List Namespace.Action :=
  [.file (.put (Peer.of ⟨10, ['a']⟩) [['d'], ['f']] [1] 1), .file (.put (Peer.of ⟨30, ['c']⟩) [['g']] [2] 2),
    .mkdir [['d'], ['e']] 1, .file (.del [['d'], ['f']] false)]

end

end

end Fs

end Chord
