import Chord.Fs.Tree

/-!
# Deleting one path of a tree

A file goes with its copies, or with the file of a reference. A listing without children goes from
all nodes that have it.
-/

namespace Chord

namespace Fs

open World

/-! ## The name in the parent -/

/-- A name may be gone from entries of `p`. -/
structure Unnamed (p : Path) (name : Name) (w w' : World) : Prop where
  ring : w'.ring = w.ring
  up : w'.up = w.up
  files : ∀ u, (w'.stores u).files = (w.stores u).files
  metadata : ∀ u r, r ≠ p → (w'.stores u).metadata.lookup r = (w.stores u).metadata.lookup r
  entry : ∀ u, (w'.stores u).metadata.lookup p = (w.stores u).metadata.lookup p ∨
    (w'.stores u).metadata.lookup p = ((w.stores u).metadata.lookup p).map fun s => s.filter fun m =>
      m.name ≠ name

section

variable {sha : Sha256} {p : Path} {name : Name} {w w' : World}

theorem filter_names {names : List Name} (hnames : ∀ n ∈ names, n = name) (s : MetaSet) :
    s.filter (fun m => m.name ∉ names) = s ∨ s.filter (fun m => m.name ∉ names) = s.filter fun m =>
      m.name ≠ name := by
  cases names with
  | nil => exact Or.inl (by simp)
  | cons n names =>
    have hmem : ∀ x, x ∈ n :: names ↔ x = name := fun x =>
      ⟨hnames x, fun hx => by rw [hx, ← hnames n List.mem_cons_self]; exact List.mem_cons_self⟩
    exact Or.inr (List.filter_congr fun m _ => by simp only [hmem])

theorem meta_del_unnamed {records : MetaSet} (hrecords : ∀ m ∈ records, m.name = name) (fuel : Nat)
    (node : Node) (o : Options) : After (Unnamed p name w) (meta_del fuel w node p records o) := by
  refine meta_del_after (· = name) ?_ fuel w node records o hrecords
    ⟨rfl, rfl, fun _ => rfl, fun _ _ _ => rfl, fun _ => Or.inl rfl⟩
  intro v u current names hv hcurrent hnames
  refine ⟨hv.ring, hv.up, fun z => ?_, fun z r hr => ?_, fun z => ?_⟩
  · rw [← hv.files z]
    rcases eq_or_ne z u with rfl | hz
    · rw [set_stores_self]
    · rw [set_stores_of_ne hz]
  · rw [← hv.metadata z r hr]
    rcases eq_or_ne z u with rfl | hz
    · rw [set_stores_self, AList.lookup_insert_ne hr]
    · rw [set_stores_of_ne hz]
  · rcases eq_or_ne z u with rfl | hz
    · rw [set_stores_self, AList.lookup_insert]
      have hentry := hv.entry z
      rw [hcurrent] at hentry
      rcases filter_names hnames current with heq | heq
      · rw [heq]
        exact hentry
      · rw [heq]
        right
        rcases hentry with hentry | hentry
        · rw [← hentry, Option.map_some]
        · obtain ⟨s, hs, rfl⟩ := Option.map_eq_some_iff.mp hentry.symm
          rw [hs, Option.map_some, List.filter_filter]
          simp
    · rw [set_stores_of_ne hz]
      exact hv.entry z

/-- Where no entry has the name any more, it is gone and nothing else. -/
theorem Unnamed.filtered (h : Unnamed p name w w') {u : Uuid} (hnone : (w'.stores u).record p name = none) :
    (w'.stores u).metadata.lookup p = ((w.stores u).metadata.lookup p).map fun s => s.filter fun m =>
      m.name ≠ name := by
  rcases h.entry u with hsame | hfiltered
  · rw [hsame]
    cases hlookup : (w.stores u).metadata.lookup p with
    | none => rfl
    | some s =>
      rw [Store.record, hsame, hlookup, Option.bind_some, List.find?_eq_none] at hnone
      have hall : s.filter (fun m => m.name ≠ name) = s := by
        refine List.filter_eq_self.mpr fun m hm => ?_
        simpa using hnone m hm
      rw [Option.map_some, hall]
  · exact hfiltered

/-- It always comes to an end. -/
theorem meta_del_returns {lap : Nat} (hlap : Lap lap) (fuel : Nat) {node : Node} (records : MetaSet)
    {o : Options} (hw : w.Exact) (hnode : node ∈ w.ring) (hsource : ∀ s ∈ o.source, ∃ n ∈ w.ring, n.uuid = s)
    (hfuel : left lap node o.source < fuel) :
    ∃ w' status, meta_del fuel w node p records o = some (w', status) := by
  induction fuel generalizing w node records o with
  | zero => omega
  | succ fuel ih =>
    unfold meta_del
    extract_lets metadata store done
    split
    · exact ⟨_, _, rfl⟩
    split
    · exact ⟨_, _, rfl⟩
    rename_i hne
    split
    · exact ⟨_, _, rfl⟩
    split
    · exact ⟨_, _, rfl⟩
    rename_i left deleted hremove
    dsimp only
    split
    · have hw' : (w.set node.uuid { store with metadata := left }).Exact := hw.of_ring rfl rfl
      obtain ⟨next, hnext, hsucc⟩ := hw'.exists_successor node.uuid
      have hinit : ∀ s ∈ (init_source node o).source, ∃ n ∈ w.ring, n.uuid = s := by
        intro s hs
        obtain rfl := Option.some.inj hs
        cases ho : o.source with
        | none => exact ⟨node, hnode, rfl⟩
        | some s => exact hsource s ho
      have hleft := left_successor hlap hsource hne hsucc
      obtain ⟨w', status, hcall⟩ :=
        ih (MetaSet.increase_replication_and_clean deleted) hw' hnext hinit (by omega)
      exact ⟨w', .OK, by rw [hsucc]; simp [ignored, hcall, done]⟩
    · exact ⟨_, _, rfl⟩

/-- The name of a child goes from all listings of `p` that have it. -/
theorem meta_del_recorded (fuel : Nat) {y : Node} {m : Metadata} {o : Options} (hw : w.Exact)
    (hy : w.successor (sha.uri p) = some y) (ho : o.source = none) (hm : m.name = name)
    (hr : Recorded sha w p name) (hfuel : w.ring.length < fuel) :
    ∃ w', ignored (meta_del (fuel + 1) w y p [m] o) = some w' ∧ Unnamed p name w w' ∧
      ∀ n ∈ w.ring, (w'.stores n.uuid).metadata.lookup p =
        ((w.stores n.uuid).metadata.lookup p).map fun s => s.filter fun m => m.name ≠ name := by
  obtain ⟨r, k, hname, hrecord⟩ := hr
  obtain ⟨x, rest, hl⟩ := hw.exists_owner (sha.uri p)
  obtain rfl : x = y := Option.some.inj ((hw.successor_owner hl).symm.trans hy)
  rw [hl, ← hname] at hrecord
  obtain ⟨w', hcall, -, hnone⟩ := meta_del_listing sha fuel hw hl ho (hm.trans hname.symm) hrecord hfuel
  have hunnamed : Unnamed p name w w' :=
    after_ignored (meta_del_unnamed (by simpa using hm) (fuel + 1) x o) hcall
  exact ⟨w', hcall, hunnamed, fun n hn => hunnamed.filtered (hname ▸ hnone n hn)⟩

end

/-! ## A file -/

section

variable {sha : Sha256} {q : Path} {w : World}

theorem no_fails {fuel : Nat} {x : Node} {o : Options} (hnot : ∀ metadata, ¬ DirCall w x q o metadata)
    (d : Path) :
    ¬ Fails sha fuel w x q o d := by
  intro h
  cases h with
  | child hcall => exact hnot _ hcall
  | deeper hcall => exact hnot _ hcall
  | copy hcall => exact hnot _ hcall

/-- The result of a deletion before the name goes from the parent. -/
structure Deleted (sha : Sha256) (fuel : Nat) (w : World) (x : Node) (q : Path) (m : Metadata)
  (v : World) : Prop where
  name : m.name = filename q
  swept : Swept q w v
  fails : ∀ d, ¬ Fails sha (fuel + 1) w x q {} d
  call : del sha (fuel + 1) w x q true {} =
    (if parent_path q ≠ q then
      (v.successor (sha.uri (parent_path q))).bind fun node =>
        ignored (meta_del fuel v node (parent_path q) [m] {})
    else some v).bind fun w => some (w, .OK)

theorem unplace_metadata {r : Path} (hr : r ≠ q) (store : Store) :
    (unplace q store).metadata.lookup r = store.metadata.lookup r := AList.lookup_erase_ne hr

theorem unplace_files {r : Path} (hr : r ≠ q) (store : Store) :
    (unplace q store).files.lookup r = store.files.lookup r := AList.lookup_erase_ne hr

theorem del_file_copied {bytes : Bytes} {k : UInt32} {x : Node} {fuel : Nat} (hw : w.Exact) (hq : FilePath q)
    (h : Copied sha w q bytes k) (hx : w.successor (sha.uri q) = some x) (hfuel : w.ring.length < fuel) :
    ∃ m v, Deleted sha fuel w x q m v := by
  obtain ⟨z, rest, hl⟩ := hw.exists_owner (sha.uri q)
  obtain rfl : z = x := Option.some.inj ((hw.successor_owner hl).symm.trans hx)
  have hstored := h.stored
  rw [hl] at hstored
  have hdel := del_copies sha fuel true {} hw hl rfl hstored hfuel
  generalize hv : at_each (fun _ => unplace q) 0 (z :: rest.take (k.toNat - 1)) w = v at hdel
  refine ⟨file_record sha q bytes (.copy k 0), v, rfl, ?_, ?_, ?_⟩
  · have hmetadata : ∀ u r, r ≠ q → (v.stores u).metadata.lookup r = (w.stores u).metadata.lookup r :=
      fun u r hr => by
      rw [← hv, at_each_stores_congr (fun store => store.metadata.lookup r) fun _ store => unplace_metadata
        hr store]
    have hfiles : ∀ u r, r ≠ q → (v.stores u).files.lookup r = (w.stores u).files.lookup r := fun u r hr => by
      rw [← hv, at_each_stores_congr (fun store => store.files.lookup r) fun _ store => unplace_files
        hr store]
    have hne : ∀ r, ¬ q <+: r → r ≠ q := fun r hr heq => hr (heq ▸ List.prefix_refl _)
    refine ⟨by rw [← hv, at_each_ring], by rw [← hv, at_each_up], fun n hn r hr => ?_, fun u r hr => hmetadata u r (hne r hr),
      fun u r hr => hfiles u r (hne r hr)⟩
    rcases prefix_child hr with rfl | ⟨a, hr⟩
    · -- the node had a copy, or it never had one
      obtain ⟨j, hj⟩ := List.getElem?_of_mem (mem_clockwise.mpr hn : n ∈ w.clockwise (sha.uri r))
      rw [hl] at hj
      have hpair : (z :: rest).Pairwise fun x y => x.uuid ≠ y.uuid :=
        ((List.perm_append_singleton z rest).pairwise_iff fun h => Ne.symm h).mp (hw.pairwise hl)
      have hn := hstored j n hj
      rw [← hv, ← List.take_succ_cons, at_each_take_stores hpair hj]
      split
      · exact (unplace_clear _ _).bare
      · rw [if_neg (by omega)] at hn
        exact hn.bare
    · have hne : r ≠ q := fun heq => child_not_above q a (heq ▸ hr)
      rw [Bare, hmetadata _ _ hne, hfiles _ _ hne]
      exact h.below n hn a r hr
  · refine no_fails fun metadata hcall => ?_
    obtain ⟨-, -, hlookup, element, hfind, htype⟩ := hcall
    have hz := hstored 0 z rfl
    rw [if_pos (by omega)] at hz
    rw [hz.2] at hlookup
    cases hlookup
    have hone := List.mem_singleton.mp (List.mem_of_find?_eq_some hfind)
    rw [hone] at htype
    cases htype
  · rw [if_pos (parent_path_ne hq.1), hdel]
    rw [← hv, successor_congr (at_each_ring _ _ _)]
    rfl

/-- A file without a record, at the node of a reference. -/
theorem del_unrecorded {node : Node} {o : Options} (bytes : Bytes) (fuel : Nat) (hup : node ∈ w.up)
    (hsource : o.source ≠ some node.uuid) (hrecord : (w.stores node.uuid).metadata.lookup q = none)
    (hfile : (w.stores node.uuid).files.lookup q = some (.regular bytes)) :
    ignored (del sha (fuel + 1) w node q true o) =
      some (w.set node.uuid { w.stores node.uuid with files := (w.stores node.uuid).files.erase q }) := by
  have hregular : (w.stores node.uuid).files.is_regular_file q = true := by rw [Files.is_regular_file, hfile]
  rw [del]
  simp only [if_neg (not_not_intro hup), if_neg hsource, hrecord, if_pos hregular]
  rfl

theorem del_file_referenced {x node : Node} {m : Metadata} {fuel : Nat} (hw : w.Exact) (hq : FilePath q)
    (h : Referenced sha w q x node m) (hfuel : 0 < fuel) : ∃ v, Deleted sha fuel w x q m v := by
  obtain ⟨fuel, rfl⟩ := Nat.exists_eq_succ_of_ne_zero (Nat.ne_of_gt hfuel)
  obtain ⟨bytes, hfile⟩ := h.file
  have hx : x ∈ w.up := by
    obtain ⟨z, hz, hsucc⟩ := hw.exists_successor (sha.uri q)
    obtain rfl := Option.some.inj (h.owner.symm.trans hsucc)
    exact hw.up x hz
  generalize hw₁ : w.set x.uuid { w.stores x.uuid with metadata := (w.stores x.uuid).metadata.erase q } = w₁
  have hstore₁ : w₁.stores node.uuid = w.stores node.uuid := by rw [← hw₁, set_stores_of_ne h.node_ne]
  have hnode : ignored (del sha (fuel + 1) w₁ node q true (init_source x {})) =
      some (w₁.set node.uuid { w₁.stores node.uuid with files := (w₁.stores node.uuid).files.erase q }) := by
    refine del_unrecorded bytes fuel ?_ ?_ ?_ ?_
    · rw [← hw₁]
      exact hw.up node h.node_mem
    · simpa [init_source] using h.node_ne.symm
    · rw [hstore₁]
      exact h.others node h.node_mem h.node_ne
    · rw [hstore₁, hfile]
  generalize hw₂ : w₁.set node.uuid
    { w₁.stores node.uuid with files := (w₁.stores node.uuid).files.erase q } = w₂ at hnode
  have hstore₂ : w₂.stores x.uuid =
      { w.stores x.uuid with metadata := (w.stores x.uuid).metadata.erase q } := by
    rw [← hw₂, set_stores_of_ne h.node_ne.symm, ← hw₁, set_stores_self]
  have hremove : (w₂.stores x.uuid).files.remove q = some ((w₂.stores x.uuid).files.erase q) := by
    rw [hstore₂, Files.remove]
    split
    · rename_i hdir
      exact absurd hdir h.disk
    · rfl
  have hfind : [m].find? (fun m => m.name = filename q ∨ m.is_directory) = some m := by simp [h.name]
  have href : ([m].find? fun m => m.name = filename q).bind Metadata.node_ref = some node := by
    simp [h.name, h.node_ref]
  have hmax : MetaSet.max_replication [m] = .NONE := h.replication
  have hne : node ≠ x := fun heq => h.node_ne (by rw [heq])
  have hregular : m.file_type ≠ .directory := by rw [h.file_type]; decide
  generalize hv : w₂.set x.uuid { w₂.stores x.uuid with files := (w₂.stores x.uuid).files.erase q } = v
  -- what is left on a node
  have hring : v.ring = w.ring := by rw [← hv, ← hw₂, ← hw₁]; rfl
  have hup : v.up = w.up := by rw [← hv, ← hw₂, ← hw₁]; rfl
  have hvx : v.stores x.uuid = unplace q (w.stores x.uuid) := by
    rw [← hv, set_stores_self, hstore₂]
    rfl
  have hvnode : v.stores node.uuid =
      { w.stores node.uuid with files := (w.stores node.uuid).files.erase q } := by
    rw [← hv, set_stores_of_ne h.node_ne, ← hw₂, set_stores_self, hstore₁]
  have hvother : ∀ u, u ≠ x.uuid → u ≠ node.uuid → v.stores u = w.stores u := by
    intro u hux hunode
    rw [← hv, set_stores_of_ne hux, ← hw₂, set_stores_of_ne hunode, ← hw₁, set_stores_of_ne hux]
  have hothers : ∀ u r, r ≠ q → (v.stores u).metadata.lookup r = (w.stores u).metadata.lookup r ∧
      (v.stores u).files.lookup r = (w.stores u).files.lookup r := by
    intro u r hr
    rcases eq_or_ne u x.uuid with rfl | hux
    · rw [hvx]
      exact ⟨unplace_metadata hr _, unplace_files hr _⟩
    · rcases eq_or_ne u node.uuid with rfl | hunode
      · rw [hvnode]
        exact ⟨rfl, AList.lookup_erase_ne hr⟩
      · rw [hvother u hux hunode]
        exact ⟨rfl, rfl⟩
  have hbelow : ∀ r, ¬ q <+: r → r ≠ q := fun r hr heq => hr (heq ▸ List.prefix_refl _)
  refine ⟨v, h.name, ⟨hring, hup, fun n hn r hr => ?_, fun u r hr => (hothers u r (hbelow r hr)).1,
    fun u r hr => (hothers u r (hbelow r hr)).2⟩, ?_, ?_⟩
  · rcases prefix_child hr with rfl | ⟨a, hr⟩
    · by_cases hnx : n.uuid = x.uuid
      · rw [hnx, hvx]
        exact (unplace_clear _ _).bare
      · by_cases hnnode : n.uuid = node.uuid
        · rw [hnnode, hvnode]
          exact ⟨h.others node h.node_mem h.node_ne, fun bytes => by simp⟩
        · rw [hvother _ hnx hnnode]
          exact ⟨h.others n hn hnx, h.files n hn hnx hnnode⟩
    · have hne : r ≠ q := fun heq => child_not_above q a (heq ▸ hr)
      rw [Bare, (hothers n.uuid r hne).1, (hothers n.uuid r hne).2]
      exact h.below n hn a r hr
  · refine no_fails fun metadata hcall => ?_
    obtain ⟨-, -, hlookup, element, hfind, htype⟩ := hcall
    rw [h.record] at hlookup
    cases hlookup
    have hone := List.mem_singleton.mp (List.mem_of_find?_eq_some hfind)
    exact hregular (hone ▸ htype)
  · rw [if_pos (parent_path_ne hq.1), del]
    simp only [if_neg (not_not_intro hx), h.record, hfind, if_neg hregular]
    rw [if_neg (by simp), handle_del_file]
    simp only [href, hmax, hw₁, if_pos hne, hnode, hremove, hv, Option.bind_eq_bind, Option.bind_some]
    rw [if_neg (by decide)]
    simp only [if_true]
    cases v.successor (sha.uri (parent_path q)) with
    | none => rfl
    | some y => rfl

end

/-! ## The other nodes with a listing -/

/-- The disk without the entry of `q`. -/
def World.erase_entry (w : World) (self : Node) (q : Path) : World :=
  w.set self.uuid { w.stores self.uuid with metadata := (w.stores self.uuid).metadata.erase q }

/-- The disk without `q`, where that is an empty directory. -/
def World.erase_empty (w : World) (self : Node) (q : Path) : World :=
  if (w.stores self.uuid).files.is_empty q then
    w.set self.uuid { w.stores self.uuid with files := (w.stores self.uuid).files.erase q }
  else w

section

variable {sha : Sha256} {q : Path} {w : World}

/-- The children, the entry, the next copy, the empty directory, the name in the parent. -/
theorem del_dir_eq {fuel : Nat} {self : Node} {o : Options} {metadata : MetaSet}
    (hcall : DirCall w self q o metadata) :
    del sha (fuel + 1) w self q true o =
      (if ¬ (w.stores self.uuid).files.is_empty q then
        ignored (handle_del_recursive sha (del sha fuel) q true o metadata w) else some w).bind fun z =>
      ((z.stores self.uuid).metadata.lookup q).elim (some (z, .UNKNOWN)) fun deleted =>
        (if (MetaSet.max_replication deleted).next.active then
          (z.successor self.uuid).bind fun node =>
            if node ≠ self then ignored (del sha fuel (z.erase_entry self q) node q true (init_source self o))
            else some (z.erase_entry self q)
        else some (z.erase_entry self q)).bind fun v =>
        (if o.source = none ∧ parent_path q ≠ q then
          ((v.erase_empty self q).successor (sha.uri (parent_path q))).bind fun node =>
            ignored (meta_del fuel (v.erase_empty self q) node (parent_path q)
              [MetaSet.directory_record (filename q)] (clear_source o))
        else some (v.erase_empty self q)).bind fun v => some (v, .OK) := by
  obtain ⟨hup, hsource, hlookup, element, hfind, htype⟩ := hcall
  rw [del]
  simp only [if_neg (not_not_intro hup), if_neg hsource, hlookup, hfind, if_pos htype]
  unfold handle_del_dir
  extract_lets files done parent entry
  have hparent : ∀ v, parent v = (if o.source = none ∧ parent_path q ≠ q then
      ((v.erase_empty self q).successor (sha.uri (parent_path q))).bind fun node =>
        ignored (meta_del fuel (v.erase_empty self q) node (parent_path q)
          [MetaSet.directory_record (filename q)] (clear_source o))
      else some (v.erase_empty self q)).bind fun v => some (v, .OK) := by
    intro v
    rw [bind_ite, Option.bind_assoc]
    rfl
  have hentry : entry = fun z =>
    ((z.stores self.uuid).metadata.lookup q).elim (some (z, .UNKNOWN)) fun deleted =>
      (if (MetaSet.max_replication deleted).next.active then
        (z.successor self.uuid).bind fun node =>
          if node ≠ self then ignored (del sha fuel (z.erase_entry self q) node q true (init_source self o))
          else some (z.erase_entry self q)
      else some (z.erase_entry self q)).bind fun v => parent v := by
    funext z
    simp only [entry]
    cases (z.stores self.uuid).metadata.lookup q with
    | none => rfl
    | some deleted =>
      simp only [Option.elim_some, bind_ite, Option.bind_assoc, Option.bind_some]
      rfl
  simp only [← hparent]
  rw [if_neg (by simp), ← hentry, bind_ite]
  simp only [and_true]
  rfl

theorem handle_del_recursive_dots (del : DelCall) (o : Options) {metadata : MetaSet}
    (hdots : ∀ m ∈ metadata, m.is_directory) (w : World) :
    handle_del_recursive sha del q true o metadata w = some (w, .OK) := by
  induction metadata with
  | nil => rfl
  | cons m metadata ih =>
    obtain ⟨hm, hdots⟩ := List.forall_mem_cons.mp hdots
    rw [handle_del_recursive, if_pos hm, ih hdots]

/-- Only `q` itself may be another one. -/
structure OnlyAt (q : Path) (w w' : World) : Prop where
  ring : w'.ring = w.ring
  up : w'.up = w.up
  metadata : ∀ u r, r ≠ q → (w'.stores u).metadata.lookup r = (w.stores u).metadata.lookup r
  files : ∀ u r, r ≠ q → (w'.stores u).files.lookup r = (w.stores u).files.lookup r
  disk : ∀ u, (w'.stores u).files.lookup q = none ∨ (w'.stores u).files.lookup q = (w.stores u).files.lookup q

namespace OnlyAt

variable {v z : World}

theorem refl (q : Path) (w : World) : OnlyAt q w w :=
  ⟨rfl, rfl, fun _ _ _ => rfl, fun _ _ _ => rfl, fun _ => Or.inr rfl⟩

theorem trans (h : OnlyAt q w v) (h' : OnlyAt q v z) : OnlyAt q w z where
  ring := h'.ring.trans h.ring
  up := h'.up.trans h.up
  metadata u r hr := (h'.metadata u r hr).trans (h.metadata u r hr)
  files u r hr := (h'.files u r hr).trans (h.files u r hr)
  disk u := by
    rcases h'.disk u with hnone | heq
    · exact Or.inl hnone
    · rw [heq]
      exact h.disk u

theorem set {u : Uuid} {store : Store}
    (hmetadata : ∀ r ≠ q, store.metadata.lookup r = (w.stores u).metadata.lookup r)
    (hfiles : ∀ r ≠ q, store.files.lookup r = (w.stores u).files.lookup r)
    (hdisk : store.files.lookup q = none ∨ store.files.lookup q = (w.stores u).files.lookup q) :
    OnlyAt q w (w.set u store) := by
  refine ⟨rfl, rfl, fun v r hr => ?_, fun v r hr => ?_, fun v => ?_⟩
  all_goals rcases eq_or_ne v u with rfl | hv
  · rw [set_stores_self, hmetadata r hr]
  · rw [set_stores_of_ne hv]
  · rw [set_stores_self, hfiles r hr]
  · rw [set_stores_of_ne hv]
  · rwa [set_stores_self]
  · rw [set_stores_of_ne hv]
    exact Or.inr rfl

theorem erase_entry (w : World) (self : Node) (q : Path) : OnlyAt q w (w.erase_entry self q) :=
  set (fun _ hr => AList.lookup_erase_ne hr) (fun _ _ => rfl) (Or.inr rfl)

theorem erase_empty (w : World) (self : Node) (q : Path) : OnlyAt q w (w.erase_empty self q) := by
  unfold World.erase_empty
  split
  · exact set (fun _ _ => rfl) (fun _ hr => AList.lookup_erase_ne hr) (Or.inl (AList.lookup_erase _ _))
  · exact refl q w

end OnlyAt

theorem erase_empty_metadata (w : World) (self : Node) (q : Path) (u : Uuid) :
    ((w.erase_empty self q).stores u).metadata = (w.stores u).metadata := by
  unfold World.erase_empty
  split
  · rcases eq_or_ne u self.uuid with rfl | hu
    · rw [set_stores_self]
    · rw [set_stores_of_ne hu]
  · rfl

theorem erase_entry_lookup (w : World) (self : Node) (q : Path) (u : Uuid) :
    ((w.erase_entry self q).stores u).metadata.lookup q =
      if u = self.uuid then none else (w.stores u).metadata.lookup q := by
  split
  · rename_i hu
    rw [World.erase_entry, hu, set_stores_self, AList.lookup_erase]
  · rename_i hu
    rw [World.erase_entry, set_stores_of_ne hu]

/-- The nodes after the owner, whose listings have no children any more. -/
theorem del_listings {s x : Node} {l : List Node} {fuel : Nat} {o : Options} (ho : o.source = some s.uuid)
    (hfuel : l.length < fuel) (hx : (l ++ [s]).head? = some x)
    (hchain : (l ++ [s]).IsChain fun a b => w.successor a.uuid = some b)
    (hl : (l ++ [s]).Pairwise fun x y => x.uuid ≠ y.uuid) (hup : ∀ y ∈ l, y ∈ w.up)
    (hentry : ∀ y ∈ l, ∀ t, (w.stores y.uuid).metadata.lookup q = some t → t ≠ [] ∧ ∀ m ∈ t, m.is_directory)
    (hdisk : ∀ y ∈ l, ∀ bytes, (w.stores y.uuid).files.lookup q ≠ some (.regular bytes))
    (hreach : l.Pairwise fun x y => (w.stores y.uuid).metadata.lookup q ≠ none →
      ∃ t, (w.stores x.uuid).metadata.lookup q = some t ∧ (MetaSet.max_replication t).next.active) :
    ∃ v, ignored (del sha fuel w x q true o) = some v ∧ OnlyAt q w v ∧
      (∀ y ∈ l, (v.stores y.uuid).metadata.lookup q = none) ∧
      (∀ u, (∀ y ∈ l, y.uuid ≠ u) → (v.stores u).metadata.lookup q = (w.stores u).metadata.lookup q) ∧
      ∀ d, ¬ Fails sha fuel w x q o d := by
  induction l generalizing fuel w x with
  | nil =>
    obtain ⟨fuel, rfl⟩ := Nat.exists_eq_succ_of_ne_zero (Nat.ne_of_gt hfuel)
    cases hx
    refine ⟨w, ?_, .refl q w, by simp, fun _ _ => rfl, no_fails fun metadata hcall => hcall.2.1 ho⟩
    by_cases hs : s ∈ w.up <;> simp [del, hs, ho, ignored]
  | cons z l ih =>
    obtain rfl : z = x := by simpa using hx
    obtain ⟨fuel, rfl⟩ := Nat.exists_eq_succ_of_ne_zero (by omega : fuel ≠ 0)
    obtain ⟨hne, hl⟩ := List.pairwise_cons.mp hl
    obtain ⟨hzreach, hreach⟩ := List.pairwise_cons.mp hreach
    obtain ⟨hzentry, hentry⟩ := List.forall_mem_cons.mp hentry
    obtain ⟨hzdisk, hdisk⟩ := List.forall_mem_cons.mp hdisk
    have hzup := hup z List.mem_cons_self
    have hsource : o.source ≠ some z.uuid := fun h =>
      hne s (List.mem_append_right _ List.mem_cons_self) (Option.some.inj (h.symm.trans ho))
    cases hlookup : (w.stores z.uuid).metadata.lookup q with
    | none =>
      have hregular : ¬ (w.stores z.uuid).files.is_regular_file q = true := by
        unfold Files.is_regular_file
        split
        · rename_i bytes hfile
          exact absurd hfile (hzdisk bytes)
        · simp
      have hnone : ∀ y ∈ l, (w.stores y.uuid).metadata.lookup q = none := by
        intro y hy
        by_contra hsome
        obtain ⟨t, ht, -⟩ := hzreach y hy hsome
        rw [hlookup] at ht
        cases ht
      refine ⟨w, ?_, .refl q w, ?_, fun _ _ => rfl, no_fails fun metadata hcall => ?_⟩
      · rw [del]
        simp only [if_neg (not_not_intro hzup), if_neg hsource, hlookup, if_neg hregular]
        rfl
      · intro y hy
        rcases List.mem_cons.mp hy with rfl | hy
        · exact hlookup
        · exact hnone y hy
      · have h := hcall.2.2.1
        rw [hlookup] at h
        cases h
    | some t =>
      obtain ⟨htne, hdots⟩ := hzentry t hlookup
      have hcall : DirCall w z q o t := by
        obtain ⟨e, t, rfl⟩ := List.exists_cons_of_ne_nil htne
        have he := hdots e List.mem_cons_self
        exact ⟨hzup, hsource, hlookup, e, by simp [he], he.2⟩
      have hdescend : (if ¬ (w.stores z.uuid).files.is_empty q then
          ignored (handle_del_recursive sha (del sha fuel) q true o t w) else some w) = some w := by
        rw [handle_del_recursive_dots _ _ hdots]
        split <;> rfl
      have hstores : ∀ y ∈ l, (w.erase_entry z q).stores y.uuid = w.stores y.uuid := fun y hy =>
        set_stores_of_ne (hne y (List.mem_append_left _ hy)).symm
      obtain ⟨v, hcopy, hv, hnone, hsame, hfails⟩ : ∃ v, (if (MetaSet.max_replication t).next.active then
          (w.successor z.uuid).bind fun node =>
            if node ≠ z then ignored (del sha fuel (w.erase_entry z q) node q true (init_source z o))
            else some (w.erase_entry z q)
          else some (w.erase_entry z q)) = some v ∧ OnlyAt q (w.erase_entry z q) v ∧
          (∀ y ∈ l, (v.stores y.uuid).metadata.lookup q = none) ∧
          (∀ u, (∀ y ∈ l, y.uuid ≠ u) →
            (v.stores u).metadata.lookup q = ((w.erase_entry z q).stores u).metadata.lookup q) ∧
          ((MetaSet.max_replication t).next.active → ∀ node d, w.successor z.uuid = some node →
            ¬ Fails sha fuel (w.erase_entry z q) node q (init_source z o) d) := by
        split
        · obtain ⟨y, hy, hnext, hchain⟩ := chain_next hchain
          have hyz : y ≠ z := fun h => hne y (List.mem_of_mem_head? hy) (by rw [h])
          obtain ⟨v, hcall, hv, hnone, hsame, hfails⟩ := @ih (w.erase_entry z q) y fuel
            (by simp only [List.length_cons] at hfuel; omega) hy hchain hl
            (fun y hy => hup y (List.mem_cons_of_mem _ hy))
              (fun y hy => by rw [hstores y hy]; exact hentry y hy)
            (fun y hy => by rw [hstores y hy]; exact hdisk y hy)
            (hreach.imp_of_mem fun ha hb h => by rwa [hstores _ ha, hstores _ hb])
          refine ⟨v, ?_, hv, hnone, hsame, fun _ node d hnode => ?_⟩
          · rw [hnext, Option.bind_some, if_pos hyz, init_source_of_source ho, hcall]
          · obtain rfl := Option.some.inj (hnext.symm.trans hnode)
            rw [init_source_of_source ho]
            exact hfails d
        · rename_i hactive
          refine ⟨_, rfl, .refl _ _, fun y hy => ?_, fun _ _ => rfl, fun h => absurd h hactive⟩
          by_contra hsome
          rw [hstores y hy] at hsome
          obtain ⟨t', ht', hactive'⟩ := hzreach y hy hsome
          rw [hlookup] at ht'
          cases ht'
          exact hactive hactive'
      refine ⟨v.erase_empty z q, ?_, ((OnlyAt.erase_entry w z q).trans hv).trans (.erase_empty v z q), ?_,
        ?_, ?_⟩
      · rw [ignored, del_dir_eq hcall, hdescend, Option.bind_some, hlookup, Option.elim_some, hcopy,
          Option.bind_some,
          if_neg (by simp [ho])]
        rfl
      · intro y hy
        rw [erase_empty_metadata]
        rcases List.mem_cons.mp hy with rfl | hy
        · rw [hsame _ fun y' hy' => (hne y' (List.mem_append_left _ hy')).symm, erase_entry_lookup,
            if_pos rfl]
        · exact hnone y hy
      · intro u hu
        obtain ⟨hzu, hu⟩ := List.forall_mem_cons.mp hu
        rw [erase_empty_metadata, hsame u hu, erase_entry_lookup, if_neg hzu.symm]
      · intro d hfail
        cases hfail with
        | child hcall' _ _ hm =>
          have h := hcall'.2.2.1
          rw [hlookup] at h
          cases h
          exact hm (hdots _ (by simp))
        | deeper hcall' _ _ hm =>
          have h := hcall'.2.2.1
          rw [hlookup] at h
          cases h
          exact hm (hdots _ (by simp))
        | copy hcall' hbefore hdeleted hnext hnode _ hdel =>
          have h := hcall'.2.2.1
          rw [hlookup] at h
          cases h
          rw [hdescend] at hbefore
          cases hbefore
          rw [hlookup] at hdeleted
          cases hdeleted
          exact hfails hnext _ d hnode hdel

end

end Fs

end Chord
