import Chord.Fs.Additions
import Chord.Fs.Maps

/-!
# What an update leaves in the entry

A request that is refused finds the same names, types and hashes. Any other one leaves all its
records, and the copies do not come back to the node before they have gone around the ring.
-/

open Circle

namespace Chord

namespace Fs

open World

section

variable {sha : Sha256} {w w' : World} {p : Path}

theorem meta_add_only_above {fuel : Nat} {self : Node} {records : MetaSet} {o : Options}
    (h : ignored (meta_add sha fuel w self p records o) = some w') : w.Above p w' := by
  induction fuel generalizing w w' self p records o with
  | zero => cases h
  | succ fuel ih =>
    rcases meta_add_cases sha rfl h with rfl | ⟨-, v, hparent, hcopy⟩
    · exact .refl _ _
    have hentry := w.add_entry_above self p (entry_of p (MetaSet.of_list (records.map Metadata.sent)))
    have hv : w.Above p v := by
      split at hparent
      · obtain ⟨node, -, hparent⟩ := Option.bind_eq_some_iff.mp hparent
        exact hentry.trans ((ih hparent).mono (parent_path_le p))
      · cases hparent
        exact hentry
    split at hcopy
    · obtain ⟨node, -, hcopy⟩ := Option.bind_eq_some_iff.mp hcopy
      exact hv.trans (ih hcopy)
    · cases hcopy
      exact hv

/-- The entry of `p` on the disk `u`. -/
def SameEntry (u : Uuid) (p : Path) (w w' : World) : Prop :=
  (w'.stores u).metadata.lookup p = (w.stores u).metadata.lookup p

theorem SameEntry.parent (hp : parent_path p ≠ p) {fuel : Nat} {self : Node} {records : MetaSet} {o : Options}
    (h : ignored (meta_add sha fuel w self (parent_path p) records o) = some w') (u : Uuid) :
    SameEntry u p w w' := by
  have hne : p ≠ [] := fun hnil => hp (by rw [hnil]; rfl)
  exact ((meta_add_only_above h).stores u).metadata p (parent_path_not_below hne)

/-- The next node is not farther than the one where the copies end. -/
theorem next_before {a x : Uuid} {y n : Node} (hn : n ∈ w.ring) (hnext : w.successor x = some y)
    (hlt : steps (a + 1) x < steps (a + 1) n.uuid) :
    steps (a + 1) y.uuid ≤ steps (a + 1) n.uuid := by
  have hfirst : FirstAfter Node.uuid w.ring x y := firstAfter_argmin hnext
  have hle := hfirst.2 n hn
  have hne : x ≠ n.uuid := fun heq => by
    rw [heq] at hlt
    exact Nat.lt_irrefl _ hlt
  have hn' := steps_lt (a + 1) n.uuid
  have hy' := steps_lt (a + 1) y.uuid
  rw [steps_succ, steps_succ, if_neg hne, steps_shift (a + 1) x n.uuid, if_pos hlt.le,
    steps_shift (a + 1) x y.uuid] at hle
  split at hle
  · omega
  · rename_i hxy
    have hpos := mt (steps_inj (a := a + 1)).mp hxy
    split at hle <;> omega

/-- The copies of a request that goes on from `self` end before they are at `self` again. -/
theorem meta_add_copies_keep_entry {self n : Node} (hn : n ∈ w.ring) {fuel : Nat} {x : Node}
    {records : MetaSet} {o : Options} (ho : o.source = some n.uuid)
    (hx : steps (self.uuid + 1) x.uuid ≤ steps (self.uuid + 1) n.uuid)
    (h : ignored (meta_add sha fuel w x p records o) = some w') : SameEntry self.uuid p w w' := by
  induction fuel generalizing w w' x records with
  | zero => cases h
  | succ fuel ih =>
    rcases meta_add_cases sha rfl h with rfl | ⟨hsource, v, hparent, hcopy⟩
    · rfl
    have hne : x.uuid ≠ n.uuid := fun heq => hsource (by rw [ho, heq])
    have hlt : steps (self.uuid + 1) x.uuid < steps (self.uuid + 1) n.uuid :=
      lt_of_le_of_ne hx (mt steps_inj.mp hne)
    have hself : self.uuid ≠ x.uuid := by
      intro heq
      have hlast := steps_lt (self.uuid + 1) n.uuid
      rw [steps_succ, if_pos heq] at hlt
      omega
    obtain ⟨entry, hentry⟩ : ∃ entry, entry_of p (MetaSet.of_list (records.map Metadata.sent)) = entry :=
      ⟨_, rfl⟩
    rw [hentry] at hparent
    have hadded : SameEntry self.uuid p w (w.add_entry x p entry) := by
      rw [SameEntry, add_entry, set_stores_of_ne hself]
    have hv : SameEntry self.uuid p w v ∧ v.ring = w.ring := by
      split at hparent
      · rename_i hcond
        obtain ⟨node, -, hparent⟩ := Option.bind_eq_some_iff.mp hparent
        exact ⟨(SameEntry.parent hcond.2.1 hparent self.uuid).trans hadded,
          (meta_add_only_above hparent).ring⟩
      · cases hparent
        exact ⟨hadded, rfl⟩
    split at hcopy
    · obtain ⟨node, hnode, hcopy⟩ := Option.bind_eq_some_iff.mp hcopy
      rw [init_source_of_source ho] at hcopy
      have hnext := next_before (hv.2 ▸ hn) hnode hlt
      exact (ih (hv.2 ▸ hn) hnext hcopy).trans hv.1
    · cases hcopy
      exact hv.1

theorem added_of_none {store : MetaStore} {entry : MetaSet} (hnone : store.lookup p = none)
    (hne : entry ≠ []) :
    (store.add p entry).2 = true := by
  obtain ⟨m, hm⟩ := List.exists_mem_of_ne_nil _ hne
  simp only [MetaStore.add, hnone, Option.getD_none, List.map_nil, List.not_mem_nil, not_false_eq_true,
    and_true, decide_eq_true_eq]
  exact ⟨m, hm⟩

/-- A request that is not refused leaves its records at the node, whatever it calls afterwards. -/
theorem meta_add_leaves_entry {self : Node} (hself : self ∈ w.ring) {records metadata : MetaSet}
    (hrecords : MetaSet.of_list (records.map Metadata.sent) = metadata) (hup : self ∈ w.up) {o : Options}
    (hnot : o.source ≠ some self.uuid) (hne : metadata ≠ [])
    (hnew : ∀ existing ∈ (w.stores self.uuid).metadata.lookup p, ¬ MetaSet.equal_basic existing metadata)
    (hsource : ∀ s ∈ o.source, ∃ n ∈ w.ring, n.uuid = s) {fuel : Nat} {status : StatusCode}
    (hcall : meta_add sha (fuel + 1) w self p records o = some (w', status)) :
    status = .OK ∧ (w'.stores self.uuid).metadata.lookup p =
      some (MetaSet.merged (((w.stores self.uuid).metadata.lookup p).getD []) (entry_of p metadata)) := by
  obtain ⟨entry, hentry⟩ : ∃ entry, entry_of p metadata = entry := ⟨_, rfl⟩
  rw [meta_add_accepted sha hrecords hup hnot hne hnew hentry] at hcall
  obtain ⟨v, hparent, hcall⟩ := Option.bind_eq_some_iff.mp hcall
  obtain ⟨z, hcopy, hcall⟩ := Option.bind_eq_some_iff.mp hcall
  cases hcall
  have hstored : ((w.add_entry self p entry).stores self.uuid).metadata.lookup p =
      some (MetaSet.merged (((w.stores self.uuid).metadata.lookup p).getD []) (entry_of p metadata)) := by
    rw [add_entry, set_stores_self, MetaStore.lookup_add, hentry]
  have hv : SameEntry self.uuid p (w.add_entry self p entry) v ∧ v.ring = w.ring := by
    split at hparent
    · rename_i hcond
      obtain ⟨node, -, hparent⟩ := Option.bind_eq_some_iff.mp hparent
      exact ⟨SameEntry.parent hcond.2.1 hparent self.uuid, (meta_add_only_above hparent).ring⟩
    · cases hparent
      exact ⟨rfl, rfl⟩
  have hw' : SameEntry self.uuid p v w' := by
    split at hcopy
    · obtain ⟨node, hnode, hcopy⟩ := Option.bind_eq_some_iff.mp hcopy
      obtain ⟨n, hn, hsource⟩ : ∃ n ∈ w.ring, (init_source self o).source = some n.uuid := by
        cases ho : o.source with
        | none => exact ⟨self, hself, by rw [init_source, ho]; rfl⟩
        | some s =>
          obtain ⟨n, hn, rfl⟩ := hsource s ho
          exact ⟨n, hn, by rw [init_source, ho]; rfl⟩
      have hfirst : FirstAfter Node.uuid v.ring self.uuid node := firstAfter_argmin hnode
      exact meta_add_copies_keep_entry (hv.2 ▸ hn) hsource (hfirst.2 n (hv.2 ▸ hn)) hcopy
    · cases hcopy
      rfl
  exact ⟨rfl, hw'.trans (hv.1.trans hstored)⟩

/-- The records of a request are in the entry: of a new directory its `.`, and else all but `.` and `..` as they
were sent. -/
def Holds (p : Path) (metadata stored : MetaSet) : Prop :=
  if is_mkdir p metadata then MetaSet.create_directory metadata ['.'] ∈ stored
  else ∀ m ∈ metadata, m.name ∈ stored.map Metadata.name ∧ (Named m.name → m ∈ stored)

theorem create_directory_twice (metadata : MetaSet) :
    MetaSet.create_directory [MetaSet.create_directory metadata ['.']] ['.'] =
      MetaSet.create_directory metadata ['.'] := by
  have hmax : MetaSet.max_replication [MetaSet.create_directory metadata ['.']] =
      MetaSet.max_replication_index_zero metadata := rfl
  have htwice : MetaSet.max_replication_index_zero [MetaSet.create_directory metadata ['.']] =
      MetaSet.max_replication_index_zero metadata := by
    rw [MetaSet.max_replication_index_zero, hmax]
    split
    · rename_i hactive
      unfold MetaSet.max_replication_index_zero at hactive ⊢
      split <;> simp_all
    · rfl
  rw [MetaSet.create_directory, htwice]
  rfl

theorem name_mem_insert_or_assign (m : Metadata) {s : MetaSet} {name : Name}
    (h : name ∈ s.map Metadata.name) :
    name ∈ (MetaSet.insert_or_assign m s).map Metadata.name := by
  obtain ⟨x, hx, rfl⟩ := List.mem_map.mp h
  by_cases hname : m.name = x.name
  · exact List.mem_map.mpr ⟨m, MetaSet.mem_insert_or_assign_self m s, hname⟩
  · exact List.mem_map_of_mem (MetaSet.mem_insert_or_assign_of_ne hx hname)

theorem merged_holds (old : MetaSet) {metadata : MetaSet} (h : metadata.Ordered) :
    Holds p metadata (MetaSet.merged old (entry_of p metadata)) := by
  unfold Holds entry_of
  split
  · have hdot := (@MetaSet.dots_mem_merged old [MetaSet.create_directory metadata ['.']]
      (Or.inr List.mem_cons_self)).1
    rwa [create_directory_twice] at hdot
  · intro m hm
    have hnamed : Named m.name → m ∈ MetaSet.merged old metadata := by
      intro hname
      apply List.mem_of_find?_eq_some (p := fun x => x.name = m.name)
      have hrecords := @Database.records_merged old metadata h m.name hname
      rw [(Database.mem_iff_records h m).mp hm] at hrecords
      exact hrecords
    have hname := MetaSet.names_foldl_insert_or_assign (s := old)
        (Or.inr (List.mem_map_of_mem (f := Metadata.name) hm))
    refine ⟨?_, hnamed⟩
    unfold MetaSet.merged
    dsimp only
    split
    · exact name_mem_insert_or_assign _ (name_mem_insert_or_assign _ hname)
    · exact hname

theorem compared {s t : MetaSet} (h : MetaSet.equal_basic s t) :
    (∀ m ∈ t, ∃ x ∈ s, x.compare_basic m) ∧ ∀ x ∈ s, ∃ m ∈ t, x.compare_basic m := by
  induction s generalizing t with
  | nil => cases t <;> simp_all [MetaSet.equal_basic]
  | cons x s ih =>
    cases t with
    | nil => exact absurd h (by simp [MetaSet.equal_basic])
    | cons m t =>
      obtain ⟨hm, hs⟩ := h
      obtain ⟨hleft, hright⟩ := ih hs
      constructor
      · intro y hy
        rcases List.mem_cons.mp hy with rfl | hy
        · exact ⟨x, List.mem_cons_self, hm⟩
        · obtain ⟨z, hz, hzy⟩ := hleft y hy
          exact ⟨z, List.mem_cons_of_mem _ hz, hzy⟩
      · intro y hy
        rcases List.mem_cons.mp hy with rfl | hy
        · exact ⟨m, List.mem_cons_self, hm⟩
        · obtain ⟨z, hz, hzy⟩ := hright y hy
          exact ⟨z, List.mem_cons_of_mem _ hz, hzy⟩

variable (sha)

/-- An update is refused where the entry has the same names, types and hashes, and nothing changes. Any other one
leaves its records in the entry. -/
theorem update_is_kept (hw : w.Exact) {self : Node} (hself : self ∈ w.ring) {records metadata : MetaSet}
    (hrecords : MetaSet.of_list (records.map Metadata.sent) = metadata) (hne : metadata ≠ []) {o : Options}
    (hsource : ∀ s ∈ o.source, s ≠ self.uuid ∧ ∃ n ∈ w.ring, n.uuid = s) :
    ∃ enough, ∀ fuel ≥ enough, ∃ w' status, meta_add sha fuel w self p records o = some (w', status) ∧
      (status = .ALREADY_EXISTS ∧ w' = w ∧ (∃ existing ∈ (w.stores self.uuid).metadata.lookup p,
          (∀ m ∈ metadata, ∃ x ∈ existing, x.compare_basic m) ∧
            ∀ x ∈ existing, ∃ m ∈ metadata, x.compare_basic m) ∨
        status = .OK ∧ ∃ stored ∈ (w'.stores self.uuid).metadata.lookup p, Holds p metadata stored) := by
  obtain ⟨lap, hlap⟩ := exists_lap
  refine ⟨p.length * (lap + 1) + left lap self o.source + 2, fun fuel hfuel => ?_⟩
  obtain ⟨w', status, hcall, -⟩ :=
    meta_add_above sha hlap fuel p records hw hself (fun s hs => (hsource s hs).2) (by omega)
  refine ⟨w', status, hcall, ?_⟩
  obtain ⟨fuel, rfl⟩ : ∃ f, fuel = f + 1 := ⟨fuel - 1, by omega⟩
  have hnot : o.source ≠ some self.uuid := fun heq => (hsource _ heq).1 rfl
  by_cases hold : ∃ existing ∈ (w.stores self.uuid).metadata.lookup p, MetaSet.equal_basic existing metadata
  · left
    rw [meta_add] at hcall
    simp only [hrecords, if_neg (not_not_intro (hw.up self hself)), if_neg hnot, if_neg hne,
      if_pos hold] at hcall
    cases hcall
    obtain ⟨existing, hlookup, heq⟩ := hold
    exact ⟨rfl, rfl, existing, hlookup, compared heq⟩
  · right
    have hordered : metadata.Ordered := hrecords ▸ Database.of_list_is_ordered _
    obtain ⟨rfl, hstored⟩ := meta_add_leaves_entry hself hrecords (hw.up self hself) hnot hne
      (fun existing hmem heq => hold ⟨existing, hmem, heq⟩) (fun s hs => (hsource s hs).2) hcall
    exact ⟨rfl, _, hstored, merged_holds _ hordered⟩

end

/-- The file `/f`, with so many copies and a reference. -/
def referenced_file (node_ref : Option Node) (count : UInt32) : Metadata :=
  { MetaSet.directory_record ['f'] with
    file_type := .regular, file_hash := some 7, node_ref := node_ref, replication := ⟨0, count⟩ }

/-- Three nodes, and the entry of `/f` on the first of them. -/
def World.three_referenced : World :=
  three.set 10 { three.stores 10 with metadata := ((three.stores 10).metadata.add [['f']] [referenced_file none 1]).1 }

theorem update_is_kept_three : ∃ enough, ∀ fuel ≥ enough, ∃ w' status,
    meta_add ⟨fun _ => 5, fun _ => 0⟩ fuel World.three ⟨10, ['a']⟩ [['f']] [referenced_file none 1] {} =
      some (w', status) ∧
      (status = .ALREADY_EXISTS ∧ w' = World.three ∧
        (∃ existing ∈ (World.three.stores 10).metadata.lookup [['f']],
          (∀ m ∈ [referenced_file none 1], ∃ x ∈ existing, x.compare_basic m) ∧
            ∀ x ∈ existing, ∃ m ∈ [referenced_file none 1], x.compare_basic m) ∨
        status = .OK ∧ ∃ stored ∈ (w'.stores 10).metadata.lookup [['f']],
          Holds [['f']] [referenced_file none 1] stored) :=
  update_is_kept ⟨fun _ => 5, fun _ => 0⟩ World.three_exact (by decide) rfl (by decide) (by simp)

/-- A reference and another count of copies are not compared, and are lost. -/
theorem reference_is_dropped :
    ¬ ∀ (sha : Sha256) (fuel : Nat) (w : World) (self : Node) (p : Path) (records existing : MetaSet),
    w.Exact → self ∈ w.ring → (w.stores self.uuid).metadata.lookup p = some existing →
    MetaSet.of_list (records.map Metadata.sent) ≠ [] →
    meta_add sha fuel w self p records {} = some (w, .ALREADY_EXISTS) →
    ∀ m ∈ MetaSet.of_list (records.map Metadata.sent), ∃ x ∈ existing, x.equal m := by
  intro h
  obtain ⟨x, hx, -, href, -⟩ := h ⟨fun _ => 5, fun _ => 0⟩ 1 World.three_referenced ⟨10, ['a']⟩ [['f']]
    [referenced_file (some ⟨20, ['b']⟩) 3] [referenced_file none 1] ⟨by decide, by decide, by decide⟩
    (by decide) (by decide)
    (by decide) rfl (referenced_file (some ⟨20, ['b']⟩) 3) (by decide)
  rw [List.mem_singleton.mp hx] at href
  cases href

end Fs

end Chord
