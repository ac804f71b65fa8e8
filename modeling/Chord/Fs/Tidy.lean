import Chord.Fs.Directories
import Chord.Fs.Rebalanced

/-!
# Directories that change their owner

There is one copy of every record, and the owner of a directory has its listing. A node that
rebalances has the listings whose turn has not come. What their owners are told of children in the
meantime makes a listing without a `.`, which is completed when the other one arrives.
-/

open Circle

namespace Chord

namespace Fs

open World

/-! ## One disk -/

/-- The entry is a listing with a `.`. -/
def Store.Dotted (store : Store) (d : Path) : Prop := ∃ r, store.metadata.lookup d = some r ∧ MetaSet.HasDot r

/-- There are entries of files and of directories, with one copy each, and no file is where there is
a directory. A listing without a `.` is one that waits. -/
structure Store.Tidy (paths made waiting : Path → Prop) (store : Store) : Prop where
  keys : ∀ q ∈ store.metadata, paths q ∨ made q
  records : ∀ q r, store.metadata.lookup q = some r → r.Ordered ∧ ∀ m ∈ r, m.replication = .NONE
  dotted : ∀ d r, made d → store.metadata.lookup d = some r → MetaSet.HasDot r ∨ waiting d
  regular : ∀ p bytes, store.files.lookup p = some (.regular bytes) → paths p

section

variable {paths made waiting : Path → Prop} {store : Store} {p d : Path} {r records entry : MetaSet}

theorem Store.Dotted.add (h : store.Dotted d) (p : Path) (entry : MetaSet) :
    Store.Dotted { store with metadata := (store.metadata.add p entry).1 } d := by
  obtain ⟨r, hr, hdot⟩ := h
  rcases eq_or_ne d p with rfl | hne
  · exact ⟨_, MetaStore.lookup_add _ _ _, by rw [hr]; exact hdot.merged entry⟩
  · exact ⟨r, by rw [MetaStore.add_lookup_of_ne hne]; exact hr, hdot⟩

theorem MetaSet.max_replication_none (h : ∀ m ∈ r, m.replication = .NONE) : max_replication r = .NONE := by
  rcases eq_or_ne r [] with rfl | hr
  · rfl
  · exact max_replication_of_forall hr h

theorem MetaSet.create_directory_none (h : ∀ m ∈ r, m.replication = .NONE) (n : Name) :
    (create_directory r n).replication = .NONE := by
  rw [create_directory, max_replication_index_zero, max_replication_none h]
  rfl

/-- One copy has no next one. -/
theorem MetaSet.no_next_copy (h : ∀ m ∈ r, m.replication = .NONE) :
    increase_replication_and_clean r = [] := by
  rw [increase_replication_and_clean, List.filter_eq_nil_iff]
  intro m hm
  obtain ⟨x, hx, rfl⟩ := List.mem_map.mp hm
  simp [h x hx, Replication.next, Replication.active, Replication.NONE]

theorem sent_none (h : ∀ m ∈ records, m.replication = .NONE) :
    ∀ m ∈ MetaSet.of_list (records.map Metadata.sent), m.replication = .NONE := by
  intro m hm
  obtain ⟨x, hx, rfl⟩ := List.mem_map.mp (MetaSet.mem_of_list hm)
  exact h x hx

theorem entry_of_none (h : ∀ m ∈ r, m.replication = .NONE) (p : Path) :
    ∀ m ∈ entry_of p r, m.replication = .NONE := by
  unfold entry_of
  split
  · intro m hm
    obtain rfl := List.mem_singleton.mp hm
    exact MetaSet.create_directory_none h _
  · exact h

theorem merged_none (h : ∀ m ∈ r, m.replication = .NONE) (hentry : ∀ m ∈ entry, m.replication = .NONE) :
    ∀ m ∈ MetaSet.merged r entry, m.replication = .NONE := by
  intro m hm
  rcases MetaSet.mem_merged hm with (hm | hm) | rfl | rfl
  · exact hentry m hm
  · exact h m hm
  · exact MetaSet.create_directory_none hentry _
  · exact MetaSet.create_directory_none hentry _

namespace Store.Tidy

theorem mono {waiting' : Path → Prop} (h : store.Tidy paths made waiting)
    (hwaiting : ∀ d r, made d → store.metadata.lookup d = some r → waiting d → waiting' d ∨
    MetaSet.HasDot r) :
    store.Tidy paths made waiting' where
  keys := h.keys
  records := h.records
  dotted d r hd hr := by
    rcases h.dotted d r hd hr with hdot | hwaits
    · exact Or.inl hdot
    · exact (hwaiting d r hd hr hwaits).symm
  regular := h.regular

theorem add (h : store.Tidy paths made waiting) (hp : paths p ∨ made p)
    (hentry : ∀ m ∈ entry, m.replication = .NONE)
    (hdot : made p → store.Dotted p ∨ ['.'] ∈ entry.map Metadata.name ∨ waiting p) :
    Store.Tidy paths made waiting { store with metadata := (store.metadata.add p entry).1 } where
  keys q hq := by
    rcases eq_or_ne q p with rfl | hne
    · exact hp
    · rw [← AList.lookup_isSome, MetaStore.add_lookup_of_ne hne, AList.lookup_isSome] at hq
      exact h.keys q hq
  records q r hr := by
    rcases eq_or_ne q p with rfl | hne
    · rw [MetaStore.lookup_add, Option.some.injEq] at hr
      subst hr
      have hold : MetaSet.Ordered ((store.metadata.lookup q).getD []) ∧
          ∀ m ∈ (store.metadata.lookup q).getD [], m.replication = .NONE := by
        cases hlookup : store.metadata.lookup q with
        | none => exact ⟨List.Pairwise.nil, by simp⟩
        | some r => exact h.records q r hlookup
      exact ⟨hold.1.merged entry, merged_none hold.2 hentry⟩
    · rw [MetaStore.add_lookup_of_ne hne] at hr
      exact h.records q r hr
  dotted d r hd hr := by
    rcases eq_or_ne d p with rfl | hne
    · rw [MetaStore.lookup_add, Option.some.injEq] at hr
      subst hr
      rcases hdot hd with ⟨old, hold, hdot⟩ | hname | hwaits
      · rw [hold]
        exact Or.inl (hdot.merged entry)
      · exact Or.inl ⟨_, (MetaSet.dots_mem_merged (Or.inr hname)).1, rfl, rfl⟩
      · exact Or.inr hwaits
    · rw [MetaStore.add_lookup_of_ne hne] at hr
      exact h.dotted d r hd hr
  regular := h.regular

theorem erase (h : store.Tidy paths made waiting) (p : Path) :
    Store.Tidy paths made waiting { store with metadata := store.metadata.erase p } := by
  have hlookup : ∀ q r, (store.metadata.erase p).lookup q = some r → store.metadata.lookup q = some r := by
    intro q r hr
    rcases eq_or_ne q p with rfl | hne
    · rw [AList.lookup_erase] at hr
      cases hr
    · rwa [AList.lookup_erase_ne hne] at hr
  exact ⟨fun q hq => h.keys q (AList.mem_erase.mp hq).2, fun q r hr => h.records q r (hlookup q r hr),
    fun d r hd hr => h.dotted d r hd (hlookup d r hr), h.regular⟩

theorem files (h : store.Tidy paths made waiting) {files : Files}
    (hfiles : ∀ p bytes, files.lookup p = some (.regular bytes) →
      paths p ∨ store.files.lookup p = some (.regular bytes)) :
    Store.Tidy paths made waiting { store with files := files } :=
  ⟨h.keys, h.records, h.dotted, fun p bytes hp => (hfiles p bytes hp).elim id (h.regular p bytes)⟩

theorem erase_file (h : store.Tidy paths made waiting) (p : Path) :
    Store.Tidy paths made waiting { store with files := store.files.erase p } := by
  refine h.files fun q bytes hq => Or.inr ?_
  rcases eq_or_ne q p with rfl | hne
  · rw [AList.lookup_erase] at hq
    cases hq
  · rwa [AList.lookup_erase_ne hne] at hq

/-- Names other than `.` go from a listing. -/
theorem filter (h : store.Tidy paths made waiting) (hr : store.metadata.lookup p = some r) {names : List Name}
    (hnames : ['.'] ∉ names) : Store.Tidy paths made waiting
      { store with metadata := store.metadata.insert p (r.filter fun x => x.name ∉ names) } where
  keys q hq := by
    rcases (AList.mem_insert _).mp hq with rfl | hq
    · exact h.keys q (AList.lookup_isSome.mp (by rw [hr]; rfl))
    · exact h.keys q hq
  records q s hs := by
    rcases eq_or_ne q p with rfl | hne
    · rw [AList.lookup_insert, Option.some.injEq] at hs
      subst hs
      obtain ⟨hordered, hnone⟩ := h.records q r hr
      exact ⟨hordered.sublist List.filter_sublist, fun m hm => hnone m (List.mem_of_mem_filter hm)⟩
    · rw [AList.lookup_insert_ne hne] at hs
      exact h.records q s hs
  dotted d s hd hs := by
    rcases eq_or_ne d p with rfl | hne
    · rw [AList.lookup_insert, Option.some.injEq] at hs
      subst hs
      refine (h.dotted d r hd hr).imp_left ?_
      rintro ⟨m, hm, hname, htype⟩
      exact ⟨m, List.mem_filter.mpr ⟨hm, by simpa [hname] using hnames⟩, hname, htype⟩
    · rw [AList.lookup_insert_ne hne] at hs
      exact h.dotted d s hd hs
  regular := h.regular

end Store.Tidy

end

/-! ## All disks -/

section

variable (sha : Sha256)

/-- The owner of `d` waits for the listing that the node `s` has. -/
def Waits (w : World) (s : Uuid) (todo : List Path) (u : Uuid) (d : Path) : Prop :=
  d ∈ todo ∧ u ≠ s ∧ ∃ n, w.successor (sha.uri d) = some n ∧ n.uuid = u

def World.Tidy (paths made : Path → Prop) (s : Uuid) (todo : List Path) (w : World) : Prop :=
  ∀ n ∈ w.ring, (w.stores n.uuid).Tidy paths made (Waits sha w s todo n.uuid)

/-- The listing of a directory is at its owner, or at the node `s` if its turn has not come. -/
def AllListed (there : Path → Prop) (s : Uuid) (todo : List Path) (w : World) : Prop :=
  ∀ d, there d → ∃ n ∈ w.ring, (w.successor (sha.uri d) = some n ∨ n.uuid = s ∧ d ∈ todo) ∧
    (w.stores n.uuid).Dotted d

variable {sha} {paths made there : Path → Prop} {s u : Uuid} {todo : List Path} {w w' : World} {d p : Path}
    {fuel : Nat} {self : Node} {records : MetaSet} {o : Options} {store : Store}

theorem set_files_metadata (w : World) (u : Uuid) (files : Files) (v : Uuid) :
    ((w.set u { w.stores u with files := files }).stores v).metadata = (w.stores v).metadata := by
  rcases eq_or_ne v u with rfl | hne
  · rw [set_stores_self]
  · rw [set_stores_of_ne hne]

theorem World.Tidy.set (h : w.Tidy sha paths made s todo)
    (hstore : (w.stores u).Tidy paths made (Waits sha w s todo u) →
      store.Tidy paths made (Waits sha w s todo u)) : (w.set u store).Tidy sha paths made s todo := by
  intro n hn
  rcases eq_or_ne n.uuid u with rfl | hne
  · rw [set_stores_self]
    exact hstore (h n hn)
  · rw [set_stores_of_ne hne]
    exact h n hn

theorem AllListed.of_stores (h : AllListed sha there s todo w) (hring : w'.ring = w.ring)
    (hstores : ∀ u d, there d → (w.stores u).Dotted d → (w'.stores u).Dotted d) :
    AllListed sha there s todo w' := by
  intro d hd
  obtain ⟨n, hn, hat, hdot⟩ := h d hd
  refine ⟨n, hring ▸ hn, ?_, hstores n.uuid d hd hdot⟩
  rwa [successor_congr hring]

theorem AllListed.set (h : AllListed sha there s todo w)
    (hstore : ∀ d, there d → (w.stores u).Dotted d → store.Dotted d) :
    AllListed sha there s todo (w.set u store) := by
  refine h.of_stores rfl fun v d hd hdot => ?_
  rcases eq_or_ne v u with rfl | hne
  · rw [set_stores_self]
    exact hstore d hd hdot
  · rwa [set_stores_of_ne hne]

theorem dotted_adds (u : Uuid) (d : Path) : Adds fun w => (w.stores u).Dotted d := by
  intro w v p entry h
  rcases eq_or_ne u v with rfl | hne
  · rw [set_stores_self]
    exact h.add p entry
  · rwa [set_stores_of_ne hne]

theorem AllListed.adds : Adds (AllListed sha there s todo) :=
  fun _ _ p entry h => h.set fun _ _ hdot => hdot.add p entry

/-- The listing of a directory that somebody has: at its owner, or else the owner waits. -/
theorem AllListed.owner (h : AllListed sha there s todo w) (hd : there d)
    (hself : w.successor (sha.uri d) = some self) :
    (w.stores self.uuid).Dotted d ∨ Waits sha w s todo self.uuid d := by
  obtain ⟨n, -, hat | ⟨rfl, htodo⟩, hdot⟩ := h d hd
  · rw [Option.some.inj (hself.symm.trans hat)]
    exact Or.inl hdot
  · by_cases hself' : self.uuid = n.uuid
    · rw [hself']
      exact Or.inl hdot
    · exact Or.inr ⟨htodo, hself', self, hself, rfl⟩

/-! ## `meta` -/

/-- An update goes up to directories that are there. Only its own listing may be a new one, and then there
is a `.` among the records. -/
theorem World.Tidy.meta_add (h : w.Tidy sha paths made s todo) (hlisted : AllListed sha there s todo w)
    (hmade : ∀ c, c <+: d → made c) (hthere : ∀ c, c <+: parent_path d → c ≠ d → there c)
    (hrecords : ∀ m ∈ records, m.replication = .NONE)
    (hdot : there d ∨
      ['.'] ∈ (entry_of d (MetaSet.of_list (records.map Metadata.sent))).map Metadata.name)
    (hself : w.successor (sha.uri d) = some self)
    (hcall : ignored (meta_add sha fuel w self d records o) = some w') : w'.Tidy sha paths made s todo := by
  induction fuel generalizing w w' self d records o with
  | zero => cases hcall
  | succ fuel ih =>
    rcases meta_add_cases sha rfl hcall with rfl | ⟨-, v, hv, hcopy⟩
    · exact h
    have hnone := sent_none hrecords
    rw [MetaSet.no_next_copy hnone, if_neg (by simp)] at hcopy
    cases hcopy
    generalize MetaSet.of_list (records.map Metadata.sent) = metadata at hdot hv hnone
    have hentry : (w.add_entry self d (entry_of d metadata)).Tidy sha paths made s todo := by
      refine h.set fun hold =>
        hold.add (Or.inr (hmade d (List.prefix_refl d))) (entry_of_none hnone d) fun _ => ?_
      rcases hdot with hd | hname
      · exact (hlisted.owner hd hself).imp_right Or.inr
      · exact Or.inr (Or.inl hname)
    split at hv
    · rename_i hcond
      obtain ⟨node, hnode, hv⟩ := Option.bind_eq_some_iff.mp hv
      have hne : d ≠ [] := fun hnil => hcond.2.1 (by rw [hnil]; rfl)
      have hup : ∀ c, c <+: parent_path (parent_path d) → there c := by
        intro c hc
        have hparent := hc.trans (parent_path_le (parent_path d))
        exact hthere c hparent fun heq => parent_path_not_below hne (heq ▸ hparent)
      refine ih hentry (AllListed.adds w self.uuid d _ hlisted)
        (fun c hc => hmade c (hc.trans (parent_path_le d)))
        (fun c hc _ => hup c hc) ?_ (Or.inl (hthere _ (List.prefix_refl _) hcond.2.1)) hnode hv
      intro m hm
      obtain rfl := List.mem_singleton.mp hm
      exact MetaSet.create_directory_none hnone _
    · cases hv
      exact hentry

/-- Each directory has its listing. -/
structure World.Orderly (sha : Sha256) (paths made : Path → Prop) (s : Uuid) (todo : List Path)
    (w : World) : Prop where
  tidy : w.Tidy sha paths made s todo
  listed : AllListed sha made s todo w

/-- When nothing is left to do it does not matter who did it. -/
theorem World.Orderly.settled (h : w.Orderly sha paths made s []) (u : Uuid) (todo : List Path) :
    w.Orderly sha paths made u todo where
  tidy n hn := (h.tidy n hn).mono fun _ _ _ _ hwaits => by cases hwaits.1
  listed d hd := by
    obtain ⟨n, hn, hat | ⟨-, hmem⟩, hdot⟩ := h.listed d hd
    · exact ⟨n, hn, Or.inl hat, hdot⟩
    · cases hmem

/-- What is not a directory loses its entry. -/
theorem World.Orderly.erase (h : w.Orderly sha paths made s todo) (hp : ¬ made p) (u : Uuid) :
    (w.set u { w.stores u with metadata := (w.stores u).metadata.erase p }).Orderly sha paths made s
      todo where
  tidy := h.tidy.set fun hold => hold.erase p
  listed := by
    refine h.listed.set fun d hd hdot => ?_
    obtain ⟨r, hr, hdot⟩ := hdot
    refine ⟨r, (AList.lookup_erase_ne ?_).trans hr, hdot⟩
    rintro rfl
    exact hp hd

theorem World.Orderly.erase_file (h : w.Orderly sha paths made s todo) (p : Path) (u : Uuid) :
    (w.set u { w.stores u with files := (w.stores u).files.erase p }).Orderly sha paths made s todo :=
  ⟨h.tidy.set fun hold => hold.erase_file p, h.listed.set fun _ _ => id⟩

/-- A file and its record arrive. -/
theorem World.Orderly.record (h : w.Orderly sha paths made s todo) (hp : paths p) (hdirectory : ¬ made p)
    {entry : MetaSet} (hentry : ∀ m ∈ entry, m.replication = .NONE) (u : Uuid) {files : Files}
    (hfiles : ∀ q bytes, files.lookup q = some (.regular bytes) →
      q = p ∨ (w.stores u).files.lookup q = some (.regular bytes)) :
    (w.set u { w.stores u with files := files, metadata := ((w.stores u).metadata.add p entry).1 }).Orderly sha
      paths made s todo where
  tidy := by
    refine h.tidy.set fun hold => ?_
    have hwith : Store.Tidy paths made (Waits sha w s todo u) { w.stores u with files := files } := by
      refine hold.files fun q bytes hq => ?_
      rcases hfiles q bytes hq with rfl | hthere
      · exact Or.inl hp
      · exact Or.inr hthere
    exact hwith.add (Or.inl hp) hentry fun hd => absurd hd hdirectory
  listed := h.listed.set fun _ _ hdot => hdot.add p entry

theorem World.Orderly.meta_add (h : w.Orderly sha paths made s todo) (hmade : ∀ c, c <+: d → made c)
    (hrecords : ∀ m ∈ records, m.replication = .NONE) (hself : w.successor (sha.uri d) = some self)
    (hcall : ignored (meta_add sha fuel w self d records o) = some w') :
    w'.Orderly sha paths made s todo where
  tidy := h.tidy.meta_add h.listed hmade (fun c hc _ => hmade c (hc.trans (parent_path_le d))) hrecords
    (Or.inl (hmade d (List.prefix_refl d))) hself hcall
  listed := after_ignored (AllListed.adds.meta_add fuel h.listed _ _ _ _) hcall

/-- Names other than `.` go from listings. -/
theorem World.Orderly.meta_del (h : w.Orderly sha paths made s todo)
    (hrecords : ∀ m ∈ records, m.name ≠ ['.'])
    (hcall : ignored (meta_del fuel w self p records o) = some w') : w'.Orderly sha paths made s todo := by
  refine after_ignored (meta_del_after (fun n => n ≠ ['.']) ?_ fuel w self records o hrecords h) hcall
  intro w u r names h hr hnames
  have hdot : ['.'] ∉ names := fun hmem => hnames _ hmem rfl
  refine ⟨h.tidy.set fun hold => hold.filter hr hdot, h.listed.set fun d _ hd => ?_⟩
  rcases eq_or_ne d p with rfl | hne
  · obtain ⟨old, hold, m, hm, hname, htype⟩ := hd
    obtain rfl := Option.some.inj (hr.symm.trans hold)
    exact ⟨_, AList.lookup_insert _, m, List.mem_filter.mpr ⟨hm, by simpa [hname] using hdot⟩, hname, htype⟩
  · obtain ⟨old, hold, hdot⟩ := hd
    exact ⟨old, (AList.lookup_insert_ne hne).trans hold, hdot⟩

/-! ## The turn of a listing -/

theorem MetaSet.HasDot.of_equal_basic {r t : MetaSet} (h : MetaSet.equal_basic r t) (ht : MetaSet.HasDot t) :
    MetaSet.HasDot r := by
  induction r generalizing t with
  | nil =>
    cases t with
    | nil => exact ht
    | cons x t => cases h
  | cons m r ih =>
    cases t with
    | nil => cases h
    | cons x t =>
      obtain ⟨⟨hname, htype, -⟩, hrest⟩ := h
      obtain ⟨y, hy, hyname, hytype⟩ := ht
      rcases List.mem_cons.mp hy with rfl | hy
      · exact ⟨m, List.mem_cons_self, hname.trans hyname, htype.trans hytype⟩
      · obtain ⟨z, hz, hdot⟩ := ih hrest ⟨y, hy, hyname, hytype⟩
        exact ⟨z, List.mem_cons_of_mem _ hz, hdot⟩

theorem MetaSet.HasDot.sent {r : MetaSet} (h : MetaSet.HasDot r) (hordered : r.Ordered) :
    MetaSet.HasDot (MetaSet.of_list (r.map Metadata.sent)) := by
  have hsent : Ordered (r.map Metadata.sent) := (ordered_map Metadata.sent_name).mpr hordered
  rw [MetaSet.of_list_ordered hsent]
  obtain ⟨m, hm, hdot⟩ := h
  exact ⟨m.sent, List.mem_map_of_mem hm, hdot⟩

theorem MetaSet.HasDot.entry_of {r : MetaSet} (h : MetaSet.HasDot r) (d : Path) :
    ['.'] ∈ (entry_of d r).map Metadata.name := by
  unfold Fs.entry_of
  split
  · exact List.mem_singleton.mpr rfl
  · obtain ⟨m, hm, hname, -⟩ := h
    exact List.mem_map.mpr ⟨m, hm, hname⟩

/-- A listing with a `.` is not the request of a `mkdir` for another name. -/
theorem MetaSet.HasDot.names_entry {r : MetaSet} (h : MetaSet.HasDot r) {n : Name} (hn : Named n)
    (hmem : n ∈ r.map Metadata.name) (d : Path) : n ∈ (Fs.entry_of d r).map Metadata.name := by
  unfold Fs.entry_of
  split
  · rename_i hmkdir
    obtain ⟨y, hy, hname, -⟩ := h
    match r, hmkdir with
    | [m], _ =>
      obtain rfl := List.mem_singleton.mp hy
      obtain rfl := List.mem_singleton.mp hmem
      exact absurd hname hn.1
  · exact hmem

/-- A listing with a `.` that is not the one before. -/
theorem meta_add_new {metadata : MetaSet} (hup : self ∈ w.up) (hsource : o.source ≠ some self.uuid)
    (hmetadata : MetaSet.of_list (records.map Metadata.sent) = metadata) (hne : metadata ≠ [])
    (hnew : ∀ existing ∈ (w.stores self.uuid).metadata.lookup d, ¬ MetaSet.equal_basic existing metadata)
    (hdot : ['.'] ∈ (entry_of d metadata).map Metadata.name) {status : StatusCode}
    (hcall : meta_add sha (fuel + 1) w self d records o = some (w', status)) :
    status = .OK ∧ (w'.stores self.uuid).Dotted d := by
  rw [meta_add_accepted sha hmetadata hup hsource hne hnew (show _ = entry_of d metadata from rfl)] at hcall
  have hadded : ((w.add_entry self d (entry_of d metadata)).stores self.uuid).Dotted d := by
    rw [add_entry, set_stores_self]
    exact ⟨_, MetaStore.lookup_add _ _ _, _, (MetaSet.dots_mem_merged (Or.inr hdot)).1, rfl, rfl⟩
  obtain ⟨v, hv, hcall⟩ := Option.bind_eq_some_iff.mp hcall
  obtain ⟨z, hz, hcall⟩ := Option.bind_eq_some_iff.mp hcall
  cases hcall
  have hadds := dotted_adds self.uuid d
  have hdotted : (v.stores self.uuid).Dotted d := by
    split at hv
    · obtain ⟨node, -, hv⟩ := Option.bind_eq_some_iff.mp hv
      exact after_ignored (hadds.meta_add fuel hadded _ _ _ _) hv
    · cases hv
      exact hadded
  refine ⟨rfl, ?_⟩
  split at hz
  · obtain ⟨node, -, hz⟩ := Option.bind_eq_some_iff.mp hz
    exact after_ignored (hadds.meta_add fuel hdotted _ _ _ _) hz
  · cases hz
    exact hdotted

/-- A listing that is sent with its `.` is there afterwards, and the sender is told so. -/
theorem meta_add_dotted (hup : self ∈ w.up) (ho : o.source = none)
    (hdot : MetaSet.HasDot (MetaSet.of_list (records.map Metadata.sent))) {status : StatusCode}
    (hcall : meta_add sha fuel w self d records o = some (w', status)) :
    (status = .OK ∨ status = .ALREADY_EXISTS) ∧ (w'.stores self.uuid).Dotted d := by
  cases fuel with
  | zero => cases hcall
  | succ fuel =>
    generalize hmetadata : MetaSet.of_list (records.map Metadata.sent) = metadata at hdot
    have hsource : o.source ≠ some self.uuid := by
      rw [ho]
      simp
    have hempty : metadata ≠ [] := by
      rintro rfl
      obtain ⟨m, hm, -⟩ := hdot
      cases hm
    by_cases hold : ∃ existing ∈ (w.stores self.uuid).metadata.lookup d, MetaSet.equal_basic existing metadata
    · rw [meta_add] at hcall
      simp only [hmetadata, if_neg (not_not_intro hup), if_neg hsource, if_neg hempty, if_pos hold] at hcall
      cases hcall
      obtain ⟨existing, hlookup, heq⟩ := hold
      exact ⟨Or.inr rfl, existing, hlookup, hdot.of_equal_basic heq⟩
    · exact (meta_add_new hup hsource hmetadata hempty (fun existing hmem heq => hold ⟨existing, hmem, heq⟩)
        (hdot.entry_of d) hcall).imp_left Or.inl

/-- The owner has the listing, and waits no longer. -/
theorem World.Tidy.next (h : w.Tidy sha paths made s (d :: todo))
    (howner : ∀ n, w.successor (sha.uri d) = some n → (w.stores n.uuid).Dotted d) :
    w.Tidy sha paths made s todo := by
  intro n hn
  refine (h n hn).mono ?_
  rintro c r - hr ⟨hc, hne, m, hm, hmn⟩
  rcases List.mem_cons.mp hc with rfl | hc
  · obtain ⟨old, hold, hdot⟩ := howner m hm
    rw [hmn, hr] at hold
    obtain rfl := Option.some.inj hold
    exact Or.inr hdot
  · exact Or.inl ⟨hc, hne, m, hm, hmn⟩

theorem AllListed.next (h : AllListed sha (fun c => made c ∧ c ≠ d) s (d :: todo) w) {n : Node}
    (hn : n ∈ w.ring) (howner : w.successor (sha.uri d) = some n) (hdot : (w.stores n.uuid).Dotted d) :
    AllListed sha made s todo w := by
  intro c hc
  rcases eq_or_ne c d with rfl | hne
  · exact ⟨n, hn, Or.inl howner, hdot⟩
  · obtain ⟨m, hm, hat, hdotted⟩ := h c ⟨hc, hne⟩
    exact ⟨m, hm, hat.imp_right fun h => ⟨h.1, (List.mem_cons.mp h.2).resolve_left hne⟩, hdotted⟩

theorem erase_above (w : World) (u : Uuid) (p : Path) :
    w.Above p (w.set u { w.stores u with metadata := (w.stores u).metadata.erase p }) := by
  refine set_above ⟨rfl, rfl, rfl, fun q hq => AList.lookup_erase_ne ?_⟩
  rintro rfl
  exact hq (List.prefix_refl _)

/-- The owner gets the listing with all names, and everything above it hears of it. -/
theorem rebalance_listing {lap : Nat} (hlap : Lap lap) {x : Node} (hw : w.Exact)
    (h : w.Orderly sha paths made x.uuid (d :: todo)) (hmade : ∀ c, c <+: d → made c)
    (hrecords : ∃ r, (w.stores x.uuid).metadata.lookup d = some r ∧
      MetaSet.HasDot r ∧ r.Ordered ∧ ∀ m ∈ r, m.replication = .NONE)
    (hfuel : d.length * (lap + 1) + lap < fuel) :
    ∃ w', rebalance_metadata sha fuel (Peer.of x) w d false = some w' ∧ w.Above d w' ∧
      w'.Orderly sha paths made x.uuid todo ∧ ∀ n, Named n →
        OwnerLists sha w d n ∨ Lists (w.stores x.uuid) d n → OwnerLists sha w' d n := by
  obtain ⟨r, hr, hdot, hordered, hnone⟩ := hrecords
  obtain ⟨node, hnode, howner⟩ := hw.exists_successor (sha.uri d)
  generalize herased : w.set x.uuid
    { w.stores x.uuid with metadata := (w.stores x.uuid).metadata.erase d } = w₀
  have habove : w.Above d w₀ := herased ▸ erase_above w x.uuid d
  have htidy : w₀.Tidy sha paths made x.uuid (d :: todo) := herased ▸ h.tidy.set fun hold => hold.erase d
  have hthere : AllListed sha (fun c => made c ∧ c ≠ d) x.uuid (d :: todo) w₀ := by
    have hrest : AllListed sha (fun c => made c ∧ c ≠ d) x.uuid (d :: todo) w := fun c hc => h.listed c hc.1
    rw [← herased]
    refine hrest.set fun c hc hdotted => ?_
    obtain ⟨old, hold, hdotted⟩ := hdotted
    exact ⟨old, (AList.lookup_erase_ne hc.2).trans hold, hdotted⟩
  obtain ⟨w₁, status, hcall, hup⟩ := @meta_add_above sha lap hlap fuel w₀ node d r {} (habove.exact hw)
    (habove.ring ▸ hnode) (by simp) (by rw [left]; omega)
  have hsent := hdot.sent hordered
  have hsucc : w₀.successor (sha.uri d) = some node := by rw [successor_congr habove.ring, howner]
  obtain ⟨hstatus, hdotted⟩ :=
    meta_add_dotted ((habove.exact hw).up node (habove.ring ▸ hnode)) rfl hsent hcall
  have hignored : ignored (meta_add sha fuel w₀ node d r {}) = some w₁ := by
    rw [hcall]
    rfl
  have htidy₁ := htidy.meta_add hthere hmade
      (fun c hc hne => ⟨hmade c (hc.trans (parent_path_le d)), hne⟩) hnone
    (Or.inr (hsent.entry_of d)) hsucc hignored
  have hthere₁ : AllListed sha (fun c => made c ∧ c ≠ d) x.uuid (d :: todo) w₁ :=
    after_ignored (AllListed.adds.meta_add fuel hthere _ _ _ _) hignored
  have hfinal := habove.trans hup
  have howner₁ : w₁.successor (sha.uri d) = some node := by rw [successor_congr hfinal.ring, howner]
  have hsends : ∀ n, Named n → Lists (w.stores x.uuid) d n → OwnerLists sha w₁ d n := by
    rintro n hn ⟨old, hold, hmem⟩
    obtain rfl := Option.some.inj (hr.symm.trans hold)
    exact meta_add_listed (k := 1) (habove.exact hw) (fun hnil => by rw [hnil] at hmem; cases hmem) hmem
      (hdot.names_entry hn hmem d) (copied_zero hordered hnone) hsucc rfl hignored
  refine ⟨w₁, ?_, hfinal, ⟨htidy₁.next ?_, hthere₁.next (hfinal.ring ▸ hnode) howner₁ hdotted⟩,
    fun n hn hl => ?_⟩
  · unfold rebalance_metadata
    simp only [Peer.of, referenced, Bool.false_eq_true, if_false, hr, herased, hsucc, hcall,
      Option.bind_eq_bind, Option.bind_some, if_neg hdot.is_directory.not_is_regular_file]
    rcases hstatus with rfl | rfl <;> rfl
  · intro n hn
    rwa [← Option.some.inj (howner₁.symm.trans hn)]
  · rcases hl with ⟨y, hy, hl⟩ | hl
    · obtain rfl := Option.some.inj (howner.symm.trans hy)
      by_cases hself : node.uuid = x.uuid
      · exact hsends n hn (hself ▸ hl)
      · refine OwnerLists.meta_add ⟨node, hsucc, ?_⟩ hignored
        rwa [← herased, set_stores_of_ne hself]
    · exact hsends n hn hl

end

end Fs

end Chord
