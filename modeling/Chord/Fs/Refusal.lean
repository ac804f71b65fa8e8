import Chord.Fs.Failover

/-!
# The deletion of a directory with contents

Without the recursive flag, `handle_del_dir` looks at the disk of the node and not at the listing.
-/

namespace Chord

namespace Fs

open World

section

variable {sha : Sha256} {w w' : World} {uri : Path} {u : Uuid}

/-- The node has no entry any more. -/
def Gone (u : Uuid) (uri : Path) (w : World) : Prop := (w.stores u).metadata.lookup uri = none

theorem Gone.set (h : Gone u uri w) {v : Uuid} {store : Store}
    (hstore : u = v → (w.stores v).metadata.lookup uri = none → store.metadata.lookup uri = none) :
    Gone u uri (w.set v store) := by
  unfold Gone
  rcases eq_or_ne u v with rfl | hne
  · rw [set_stores_self]
    exact hstore rfl h
  · rw [set_stores_of_ne hne]
    exact h

theorem Gone.meta_del (h : Gone u uri w) (fuel : Nat) (self : Node) (p : Path) (records : MetaSet)
    (o : Options) :
    After (Gone u uri) (meta_del fuel w self p records o) := by
  refine meta_del_after (fun _ => True) (fun v x current names hv hcurrent _ => hv.set fun _ hnone => ?_) fuel
    w self records o
    (fun _ _ => trivial) h
  by_cases hp : uri = p
  · subst hp
    rw [hnone] at hcurrent
    cases hcurrent
  · rw [AList.lookup_insert_ne hp, hnone]

/-- A deletion makes no entry. -/
theorem Gone.sweeps : Sweeps false (· = uri) (Gone u uri) where
  entry w v q _ hw := hw.set fun _ hnone => by
    by_cases hq : uri = q
    · rw [hq, AList.lookup_erase]
    · rw [AList.lookup_erase_ne hq, hnone]
  file w v q _ hw := hw.set fun _ hnone => hnone
  name _ _ _ _ _ _ _ _ fuel _ node o hv := hv.meta_del fuel node _ _ o
  name_dir _ _ _ fuel _ node o hv := hv.meta_del fuel node _ _ o
  child h := by cases h

/-- A reply that can only be a success. -/
def Succeeds (reply : Reply) : Prop := ∀ w status, reply = some (w, status) → status = .OK

theorem succeeds_some (w : World) : Succeeds (some (w, .OK)) := by
  rintro _ _ ⟨⟩
  rfl

theorem succeeds_bind {α : Type} {x : Option α} {f : α → Reply} (h : ∀ a, Succeeds (f a)) :
    Succeeds (x.bind f) := by
  intro w status hcall
  obtain ⟨a, -, hcall⟩ := Option.bind_eq_some_iff.mp hcall
  exact h a w status hcall

/-- A directory is refused, or deleted. -/
theorem handle_del_dir_cases {fuel : Nat} {del : DelCall} {self : Node} {metadata : MetaSet} {o : Options}
    {status : StatusCode} (hlookup : (w.stores self.uuid).metadata.lookup uri = some metadata)
    (h : handle_del_dir sha fuel del w self uri metadata false o = some (w', status)) :
    if (w.stores self.uuid).files.lookup uri = some .directory ∧
      ¬ (w.stores self.uuid).files.is_empty uri = true then
      status = .FAILED_PRECONDITION ∧ w' = w
    else status = .OK := by
  have hparent : ∀ (c : Prop) [Decidable c] (v : World), Succeeds (if c then
      (v.successor (sha.uri (parent_path uri))).bind fun node =>
        (ignored (meta_del fuel v node (parent_path uri)
        [MetaSet.directory_record (filename uri)] (clear_source o))).bind fun z => some (z, .OK)
      else some (v, .OK)) := by
    intro c _ v
    split
    · exact succeeds_bind fun node => succeeds_bind fun z => succeeds_some z
    · exact succeeds_some v
  unfold handle_del_dir at h
  simp only [Bool.false_eq_true, not_false_eq_true, and_true, and_false, if_false, Option.bind_eq_bind,
    Option.bind_some,
    hlookup] at h
  split
  · rename_i hcond
    rw [if_pos hcond] at h
    cases h
    exact ⟨rfl, rfl⟩
  · rename_i hcond
    rw [if_neg hcond] at h
    refine (?_ : Succeeds _) w' status h
    split
    · refine succeeds_bind fun node => ?_
      split
      · exact succeeds_bind fun z => hparent _ _
      · exact hparent _ _
    · exact hparent _ _

variable (sha)

/-- A directory that is deleted without the recursive flag is refused, with nothing changed, exactly where the
node does not take the request, or its disk has the directory with something in it. -/
theorem refuses_nonempty_iff {fuel : Nat} {self : Node} {s : MetaSet} {o : Options} {status : StatusCode}
    (hlookup : (w.stores self.uuid).metadata.lookup uri = some s) (hdirectory : MetaSet.is_directory s)
    (_hnamed : ∃ m ∈ s, Named m.name) (hcall : del sha (fuel + 1) w self uri false o = some (w', status)) :
    status ≠ .OK ∧ w' = w ↔ self ∉ w.up ∨ o.source = some self.uuid ∨
      ((∀ m ∈ s.find? (fun m => m.name = filename uri ∨ m.is_directory), m.file_type = .directory) ∧
        (w.stores self.uuid).files.lookup uri = some .directory ∧
          ¬ (w.stores self.uuid).files.is_empty uri = true) := by
  obtain ⟨element, helement⟩ : ∃ element, s.find? (fun m => m.name = filename uri ∨ m.is_directory) =
      some element := by
    obtain ⟨m, hm, hdot⟩ := hdirectory
    refine Option.isSome_iff_exists.mp (List.find?_isSome.mpr ⟨m, hm, ?_⟩)
    simp [hdot]
  unfold del at hcall
  dsimp only at hcall
  split at hcall
  · rename_i hdown
    cases hcall
    exact iff_of_true ⟨by decide, rfl⟩ (Or.inl hdown)
  rename_i hup
  split at hcall
  · rename_i hsource
    cases hcall
    exact iff_of_true ⟨by decide, rfl⟩ (Or.inr (Or.inl hsource))
  rename_i hsource
  simp only [hup, hsource, false_or, helement, Option.mem_some_iff, forall_eq', hlookup] at hcall ⊢
  split at hcall
  · rename_i htype
    have hcases := handle_del_dir_cases hlookup hcall
    split at hcases
    · rename_i hcond
      exact iff_of_true ⟨by rw [hcases.1]; decide, hcases.2⟩ ⟨htype, hcond⟩
    · rename_i hcond
      exact iff_of_false (fun h => h.1 hcases) fun h => hcond h.2
  · rename_i htype
    refine iff_of_false ?_ fun h => htype h.1
    rintro ⟨-, rfl⟩
    -- the entry is gone
    have herased : Gone self.uuid uri
        (w'.set self.uuid { w'.stores self.uuid with metadata := (w'.stores self.uuid).metadata.erase uri }) := by
      rw [Gone, set_stores_self, AList.lookup_erase]
    have hgone : Gone self.uuid uri w' := Gone.sweeps.handle_del_file_erased rfl fuel
      (fun v x o' hv => Gone.sweeps.del fuel uri v x o' rfl hv) herased
      (fun fuel v node o' hv => hv.meta_del fuel node _ _ o') o w' status hcall
    rw [Gone, hlookup] at hgone
    cases hgone

end

theorem refuses_nonempty_iff_lone :
    ∃ w', del ⟨fun _ => 5, fun _ => 0⟩ 3 World.lone_file ⟨10, ['a']⟩ [['d']] false {} =
      some (w', .FAILED_PRECONDITION) ∧
    (StatusCode.FAILED_PRECONDITION ≠ .OK ∧ w' = World.lone_file ↔
      (⟨10, ['a']⟩ : Node) ∉ World.lone_file.up ∨ ({} : Options).source = some 10 ∨
        ((∀ m ∈ (((World.lone_file.stores 10).metadata.lookup [['d']]).getD []).find?
          (fun m => m.name = filename [['d']] ∨ m.is_directory),
            m.file_type = .directory) ∧
          (World.lone_file.stores 10).files.lookup [['d']] = some .directory ∧
            ¬ (World.lone_file.stores 10).files.is_empty [['d']] = true)) := by
  obtain ⟨w', hcall⟩ : ∃ w', del ⟨fun _ => 5, fun _ => 0⟩ 3 World.lone_file ⟨10, ['a']⟩ [['d']] false {} =
      some (w', .FAILED_PRECONDITION) := ⟨_, rfl⟩
  have hlookup : (World.lone_file.stores 10).metadata.lookup [['d']] =
      some (((World.lone_file.stores 10).metadata.lookup [['d']]).getD []) := by decide
  have hnamed : ∃ m ∈ ((World.lone_file.stores 10).metadata.lookup [['d']]).getD [], Named m.name := by
    unfold Named
    decide
  exact ⟨w', hcall, refuses_nonempty_iff ⟨fun _ => 5, fun _ => 0⟩ hlookup (by decide) hnamed hcall⟩

/-- The contents of `/d` are on other nodes, and the path of `/d` is not on the disk of its owner. -/
theorem nonempty_directory_is_deleted :
    ¬ ∀ (sha : Sha256) (fuel : Nat) (w w' : World) (self : Node) (uri : Path) (s : MetaSet)
    (o : Options) (status : StatusCode), (w.stores self.uuid).metadata.lookup uri = some s →
    MetaSet.is_directory s →
    (∃ m ∈ s, Named m.name) → del sha fuel w self uri false o = some (w', status) → status ≠ .OK ∧
      w' = w := by
  intro h
  have hlookup : ((World.three_listed false).stores 10).metadata.lookup [['d']] =
      some [MetaSet.directory_record ['.'],
      MetaSet.directory_record ['.', '.'], second_copy] := by decide
  have hnamed : Named second_copy.name := by simp [Named, second_copy, MetaSet.directory_record]
  obtain ⟨hstatus, -⟩ :=
    h ⟨fun _ => 5, fun _ => 0⟩ 3 (World.three_listed false) _ ⟨10, ['a']⟩ [['d']] _ {} .OK hlookup (by decide)
    ⟨second_copy, by simp, hnamed⟩ rfl
  exact hstatus rfl

end Fs

end Chord
