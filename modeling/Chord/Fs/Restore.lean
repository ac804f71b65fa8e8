import Chord.Fs.Rebalanced
import Chord.Fs.Updates

/-!
# What a failed rebalance of metadata leaves

The entry is taken out, perhaps with references, and goes back through `add` if the request fails. An
exception of the lookup leaves it out.
-/

namespace Chord

namespace Fs

open World

section

variable (sha : Sha256)

/-- `rebalance_metadata` with the world it leaves behind: `found` is what the lookup of the responsible node
gives, and the status is `none` where an exception leaves the function. -/
def rebalance_metadata_leaves (fuel : Nat) (self : Peer) (w : World) (uri : Path) (shallow_copy : Bool)
    (found : Option Node) :
    Option (World × Option StatusCode) :=
  let store := w.stores self.disk
  match store.metadata.lookup uri with
  | none => some (w, none)
  | some metadata =>
    let w := w.set self.disk { store with metadata := store.metadata.erase uri }
    let deleted := referenced self.context shallow_copy metadata
    match found with
    | none => some (w, none)
    | some node => do
      let (w, status) ← meta_add sha fuel w node uri deleted {}
      let store := w.stores self.disk
      if status = .ALREADY_EXISTS then
        if MetaSet.is_regular_file deleted then
          match store.files.remove uri with
          | none => some (w, none)
          | some files => some (w.set self.disk { store with files := files }, some .OK)
        else some (w, some .OK)
      else if status ≠ .OK then
        some (w.set self.disk { store with metadata := (store.metadata.add uri deleted).1 }, some status)
      else some (w, some .OK)

/-- Where no exception leaves the function, it is the one of the callbacks. -/
theorem rebalance_metadata_eq (fuel : Nat) (self : Peer) (w : World) (uri : Path) (shallow_copy : Bool) :
    rebalance_metadata sha fuel self w uri shallow_copy =
      (rebalance_metadata_leaves sha fuel self w uri shallow_copy (w.successor (sha.uri uri))).bind fun r =>
        r.2.map fun _ => r.1 := by
  unfold rebalance_metadata rebalance_metadata_leaves
  dsimp only
  cases (w.stores self.disk).metadata.lookup uri with
  | none => rfl
  | some metadata =>
    simp only [Option.bind_eq_bind, Option.bind_some, set_successor]
    cases w.successor (sha.uri uri) with
    | none => rfl
    | some node =>
      simp only [Option.bind_some, Option.bind_assoc]
      refine Option.bind_congr fun r _ => ?_
      obtain ⟨v, status⟩ := r
      dsimp only
      split
      · split
        · cases (v.stores self.disk).files.remove uri <;> rfl
        · rfl
      · split <;> rfl

end

/-! ## What goes back -/

/-- The restored entry is the one that was taken out: references were there before, and `.` and `..` are as
`add` computes them. -/
structure Restorable (shallow_copy : Bool) (entry : MetaSet) : Prop where
  referenced : shallow_copy = true → ∀ m ∈ entry, Named m.name ∨ ['.'] ∉ entry.map Metadata.name →
    m.node_ref ≠ none
  dots : ['.'] ∈ entry.map Metadata.name →
    MetaSet.create_directory entry ['.'] ∈ entry ∧ MetaSet.create_directory entry ['.', '.'] ∈ entry

instance (shallow_copy : Bool) (entry : MetaSet) : Decidable (Restorable shallow_copy entry) :=
  decidable_of_iff
    ((shallow_copy = true → ∀ m ∈ entry, (Named m.name ∨ ¬ ∃ x ∈ entry, x.name = ['.']) → m.node_ref ≠ none) ∧
      ((∃ x ∈ entry, x.name = ['.']) →
        MetaSet.create_directory entry ['.'] ∈ entry ∧ MetaSet.create_directory entry ['.', '.'] ∈ entry))
    (by simp only [← List.mem_map]; exact ⟨fun h => ⟨h.1, h.2⟩, fun h => ⟨h.1, h.2⟩⟩)

namespace MetaSet

theorem Ordered.ext {s t : MetaSet} (hs : s.Ordered) (ht : t.Ordered)
    (h : ∀ name, s.records name = t.records name) :
    s = t := by
  have hirrefl : Std.Irrefl fun a b : Metadata => a.name < b.name := ⟨fun a => List.lt_irrefl a.name⟩
  refine List.Pairwise.eq_of_mem_iff hs ht fun x => ?_
  rw [Database.mem_iff_records hs, Database.mem_iff_records ht, h]

/-- The records after `__add`: those of the call, the others as they were, and `.` and `..` anew. -/
theorem records_merged_all {old s : MetaSet} (h : s.Ordered) (name : Name) : (merged old s).records name =
    if (['.'] ∈ old.map Metadata.name ∨ ['.'] ∈ s.map Metadata.name) ∧ (name = ['.'] ∨ name = ['.', '.']) then
      some (create_directory s name)
    else (s.records name).or (old.records name) := by
  have hname : ∀ n, (create_directory s n).name = n := fun _ => rfl
  have hfold := find_foldl_insert_or_assign h.distinct old name
  have hdot : (∃ m ∈ s.foldl (fun s m => insert_or_assign m s) old, m.name = ['.']) ↔
      (['.'] ∈ old.map Metadata.name ∨ ['.'] ∈ s.map Metadata.name) := by
    constructor
    · rintro ⟨m, hm, hmname⟩
      rcases mem_foldl_insert_or_assign hm with hm | hm
      · exact Or.inr (List.mem_map.mpr ⟨m, hm, hmname⟩)
      · exact Or.inl (List.mem_map.mpr ⟨m, hm, hmname⟩)
    · exact fun hdot => List.mem_map.mp (names_foldl_insert_or_assign hdot)
  unfold merged
  dsimp only
  split
  · rename_i hthere
    have hthere := hdot.mp hthere
    rw [records, find_insert_or_assign, find_insert_or_assign, hname, hname]
    by_cases htwo : name = ['.', '.']
    · rw [if_pos htwo.symm, if_pos ⟨hthere, Or.inr htwo⟩, htwo]
    by_cases hone : name = ['.']
    · rw [if_neg (Ne.symm htwo), if_pos hone.symm, if_pos ⟨hthere, Or.inl hone⟩, hone]
    · rw [if_neg (Ne.symm htwo), if_neg (Ne.symm hone), if_neg (by simp [hone, htwo])]
      exact hfold
  · rename_i hnone
    rw [if_neg fun hand => hnone (hdot.mpr hand.1)]
    exact hfold

/-- The records of an entry that is added to nothing. -/
theorem records_merged_nil {s : MetaSet} (h : s.Ordered) (name : Name) : (merged [] s).records name =
    if ['.'] ∈ s.map Metadata.name ∧ (name = ['.'] ∨ name = ['.', '.']) then some (create_directory s name)
    else s.records name := by
  have hnil : records [] name = none := rfl
  rw [records_merged_all h, hnil, Option.or_none]
  simp only [List.map_nil, List.not_mem_nil, false_or]

theorem records_map {s : MetaSet} {f : Metadata → Metadata} (hf : ∀ m, (f m).name = m.name) (name : Name) :
    records (s.map f) name = (s.records name).map f := by
  unfold records
  rw [List.find?_map]
  simp only [Function.comp_def, hf]

end MetaSet

/-- The record with a reference. -/
def with_reference (self : Node) (shallow_copy : Bool) (m : Metadata) : Metadata :=
  if shallow_copy then { m with node_ref := some (m.node_ref.getD self) } else m

theorem with_reference_name (self : Node) (shallow_copy : Bool) (m : Metadata) :
    (with_reference self shallow_copy m).name = m.name := by
  unfold with_reference
  split <;> rfl

theorem with_reference_eq_iff {self : Node} {shallow_copy : Bool} {m : Metadata} :
    with_reference self shallow_copy m = m ↔ (shallow_copy = true → m.node_ref ≠ none) := by
  unfold with_reference
  cases shallow_copy with
  | false => simp
  | true =>
    cases m with
    | mk name owner group permissions file_type file_size file_hash node_ref replication =>
      cases node_ref <;> simp

theorem referenced_eq (self : Node) (shallow_copy : Bool) (s : MetaSet) :
    referenced self shallow_copy s = s.map (with_reference self shallow_copy) := by
  unfold referenced with_reference
  split <;> simp

theorem max_replication_map {s : MetaSet} {f : Metadata → Metadata}
    (hf : ∀ m, (f m).replication = m.replication) :
    MetaSet.max_replication (s.map f) = MetaSet.max_replication s := by
  cases s with
  | nil => rfl
  | cons m s =>
    rw [List.map_cons, MetaSet.max_replication, MetaSet.max_replication, List.foldl_map]
    simp only [hf]
    have hfold : ∀ (l : MetaSet) (best : Metadata),
        (l.foldl (fun best x => if best.replication.count < x.replication.count then f x else best)
          (f best)).replication =
          (l.foldl (fun best x => if best.replication.count < x.replication.count then x
            else best) best).replication := by
      intro l
      induction l with
      | nil => exact hf
      | cons x l ih =>
        intro best
        rw [List.foldl_cons, List.foldl_cons, hf]
        split
        · exact ih x
        · exact ih best
    exact hfold s m

theorem create_directory_referenced (self : Node) (shallow_copy : Bool) (s : MetaSet) (name : Name) :
    MetaSet.create_directory (referenced self shallow_copy s) name = MetaSet.create_directory s name := by
  have hreplication : ∀ m, (with_reference self shallow_copy m).replication = m.replication := by
    intro m
    unfold with_reference
    split <;> rfl
  rw [referenced_eq, MetaSet.create_directory, MetaSet.create_directory, MetaSet.max_replication_index_zero,
    MetaSet.max_replication_index_zero, max_replication_map hreplication]

/-- Taking an entry out and adding it again. -/
theorem restored_iff {entry : MetaSet} (h : entry.Ordered) (self : Node) (shallow_copy : Bool) :
    MetaSet.merged [] (referenced self shallow_copy entry) = entry ↔ Restorable shallow_copy entry := by
  have hordered : (referenced self shallow_copy entry).Ordered := by
    rw [referenced_eq]
    exact (MetaSet.ordered_map (with_reference_name self shallow_copy)).mpr h
  have hnames : (referenced self shallow_copy entry).map Metadata.name = entry.map Metadata.name := by
    rw [referenced_eq, List.map_map]
    exact List.map_congr_left fun m _ => with_reference_name self shallow_copy m
  have hrecords : ∀ name, (MetaSet.merged [] (referenced self shallow_copy entry)).records name =
      if ['.'] ∈ entry.map Metadata.name ∧
        (name = ['.'] ∨ name = ['.', '.']) then some (MetaSet.create_directory entry name)
      else (entry.records name).map (with_reference self shallow_copy) := by
    intro name
    rw [MetaSet.records_merged_nil hordered, hnames, create_directory_referenced, referenced_eq,
      MetaSet.records_map (with_reference_name self shallow_copy)]
  constructor
  · intro heq
    rw [heq] at hrecords
    constructor
    · intro hshallow m hm hkept
      have hsame := hrecords m.name
      rw [if_neg, (Database.mem_iff_records h m).mp hm, Option.map_some, Option.some.injEq, eq_comm,
        with_reference_eq_iff] at hsame
      · exact hsame hshallow
      · rintro ⟨hdot, hdots⟩
        rcases hkept with hnamed | hnone
        · exact hdots.elim hnamed.1 hnamed.2
        · exact hnone hdot
    · intro hdot
      have hone := hrecords ['.']
      have htwo := hrecords ['.', '.']
      rw [if_pos ⟨hdot, by simp⟩] at hone htwo
      exact ⟨List.mem_of_find?_eq_some hone, List.mem_of_find?_eq_some htwo⟩
  · rintro ⟨hreferenced, hdots⟩
    refine (MetaSet.Ordered.merged List.Pairwise.nil _).ext h fun name => ?_
    rw [hrecords]
    split
    · rename_i hcond
      have hname : ∀ n, (MetaSet.create_directory entry n).name = n := fun _ => rfl
      obtain ⟨hone, htwo⟩ := hdots hcond.1
      rcases hcond.2 with rfl | rfl
      · exact ((Database.mem_iff_records h _).mp hone).symm
      · exact ((Database.mem_iff_records h _).mp htwo).symm
    · rename_i hcond
      cases hm : entry.records name with
      | none => rfl
      | some m =>
        rw [Option.map_some, with_reference_eq_iff.mpr]
        intro hshallow
        refine hreferenced hshallow m (List.mem_of_find?_eq_some hm) ?_
        rw [Database.records_name hm]
        by_cases hdot : ['.'] ∈ entry.map Metadata.name
        · exact Or.inl (not_or.mp fun hor => hcond ⟨hdot, hor⟩)
        · exact Or.inr hdot

/-! ## A rebalance that fails -/

section

variable (sha : Sha256) {w w' : World}

/-- A request that does not succeed changes nothing. -/
theorem meta_add_failed {fuel : Nat} {self : Node} {p : Path} {records : MetaSet} {o : Options}
    {status : StatusCode} (h : meta_add sha fuel w self p records o = some (w', status))
    (hstatus : status ≠ .OK) : w' = w := by
  cases fuel with
  | zero => cases h
  | succ fuel =>
    by_cases hup : self ∈ w.up
    · by_cases hsource : o.source = some self.uuid
      · simp [meta_add, hup, hsource] at h
        exact h.1.symm
      by_cases hempty : MetaSet.of_list (records.map Metadata.sent) = []
      · simp [meta_add, hup, hsource, hempty] at h
        exact h.1.symm
      by_cases hold : ∃ existing ∈ (w.stores self.uuid).metadata.lookup p,
          MetaSet.equal_basic existing (MetaSet.of_list (records.map Metadata.sent))
      · rw [meta_add] at h
        simp only [if_neg (not_not_intro hup), if_neg hsource, if_neg hempty, if_pos hold] at h
        cases h
        rfl
      rw [meta_add_accepted sha rfl hup hsource hempty (fun existing hmem heq => hold ⟨existing, hmem, heq⟩)
        rfl] at h
      obtain ⟨v, -, h⟩ := Option.bind_eq_some_iff.mp h
      obtain ⟨z, -, h⟩ := Option.bind_eq_some_iff.mp h
      cases h
      exact absurd rfl hstatus
    · simp [meta_add, hup] at h
      exact h.1.symm

/-- After a rebalance that does not hand the entry over, the entry is the same one exactly where the lookup has
found a node and the entry is restorable. -/
theorem failed_rebalance_restores_iff {fuel : Nat} {self : Peer} {uri : Path} {shallow_copy : Bool}
    {found : Option Node} {entry : MetaSet} {status : Option StatusCode}
    (hentry : (w.stores self.disk).metadata.lookup uri = some entry) (hordered : entry.Ordered)
    (hcall : rebalance_metadata_leaves sha fuel self w uri shallow_copy found = some (w', status))
    (hfailed : found = none ∨ ∃ code, status = some code ∧ code ≠ .OK) :
    (w'.stores self.disk).metadata.lookup uri = some entry ↔ found ≠ none ∧
      Restorable shallow_copy entry := by
  unfold rebalance_metadata_leaves at hcall
  dsimp only at hcall
  rw [hentry] at hcall
  cases found with
  | none =>
    cases hcall
    refine iff_of_false ?_ (fun h => h.1 rfl)
    rw [set_stores_self, AList.lookup_erase]
    simp
  | some node =>
    obtain ⟨code, rfl, hcode⟩ := hfailed.resolve_left (by simp)
    obtain ⟨⟨v, reply⟩, hadd, hcall⟩ := Option.bind_eq_some_iff.mp hcall
    dsimp only at hcall
    split at hcall
    · split at hcall
      · split at hcall
        · cases hcall
        · cases hcall
          exact absurd rfl hcode
      · cases hcall
        exact absurd rfl hcode
    · split at hcall
      · rename_i hreply
        obtain rfl := meta_add_failed sha hadd hreply
        cases hcall
        rw [set_stores_self, set_stores_self, MetaStore.lookup_add, AList.lookup_erase, Option.getD_none,
          Option.some.injEq,
          restored_iff hordered]
        simp
      · cases hcall
        exact absurd rfl hcode

end

/-- The members do not answer. -/
def World.three_down : World := { World.three_referenced with up := [] }

theorem failed_rebalance_restores_file :
    ∃ w', rebalance_metadata_leaves ⟨fun _ => 15, fun _ => 0⟩ 1 (Peer.of ⟨10, ['a']⟩)
      World.three_down [['f']] false (some ⟨20, ['b']⟩) = some (w', some .UNAVAILABLE) ∧
    ((w'.stores 10).metadata.lookup [['f']] = some [referenced_file none 1] ↔
      some (⟨20, ['b']⟩ : Node) ≠ none ∧ Restorable false [referenced_file none 1]) := by
  have hentry : (World.three_down.stores (Peer.of ⟨10, ['a']⟩).disk).metadata.lookup [['f']] =
      some [referenced_file none 1] := by
    decide
  obtain ⟨w', hcall⟩ : ∃ w', rebalance_metadata_leaves ⟨fun _ => 15, fun _ => 0⟩ 1
      (Peer.of ⟨10, ['a']⟩) World.three_down
      [['f']] false (some ⟨20, ['b']⟩) = some (w', some .UNAVAILABLE) := ⟨_, rfl⟩
  exact ⟨w', hcall, failed_rebalance_restores_iff ⟨fun _ => 15, fun _ => 0⟩ hentry
    (List.pairwise_singleton _ _) hcall
    (Or.inr ⟨.UNAVAILABLE, rfl, by decide⟩)⟩

/-- The reference of a shallow copy stays in the entry. -/
theorem failed_rebalance_leaves_reference :
    ¬ ∀ (sha : Sha256) (fuel : Nat) (self : Peer) (w w' : World) (uri : Path)
    (shallow_copy : Bool) (found : Option Node) (entry : MetaSet) (status : Option StatusCode),
    (w.stores self.disk).metadata.lookup uri = some entry → entry.Ordered →
    rebalance_metadata_leaves sha fuel self w uri shallow_copy found = some (w', status) →
    (found = none ∨ ∃ code, status = some code ∧ code ≠ .OK) →
      (w'.stores self.disk).metadata.lookup uri = some entry := by
  intro h
  have hsame := h ⟨fun _ => 15, fun _ => 0⟩ 1 (Peer.of ⟨10, ['a']⟩) World.three_down _ [['f']] true
      (some ⟨20, ['b']⟩)
    [referenced_file none 1] (some .UNAVAILABLE) (by decide) (List.pairwise_singleton _ _) rfl
    (Or.inr ⟨.UNAVAILABLE, rfl, by decide⟩)
  have hreference : some [referenced_file (some ⟨10, ['a']⟩) 1] = some [referenced_file none 1] := hsame
  exact absurd hreference (by decide)

end Fs

end Chord
