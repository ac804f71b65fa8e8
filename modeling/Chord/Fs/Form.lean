import Chord.Fs.Listing

/-!
# The two forms of an entry

An entry is the record of a file, or a listing with `.` and `..`.
-/

namespace Chord

namespace Fs

/-- One record, with the name of the file. -/
def FileForm (p : Path) (s : MetaSet) : Prop := ∃ m, s = [m] ∧ m.file_type = .regular ∧ m.name = filename p

/-- The records of files are those of children, which are among `puts`. -/
structure ListingForm (puts : List Path) (p : Path) (s : MetaSet) : Prop where
  dot : ∃ m ∈ s, m.name = ['.'] ∧ m.file_type = .directory
  dot_dot : ∃ m ∈ s, m.name = ['.', '.'] ∧ m.file_type = .directory
  children : ∀ m ∈ s, m.file_type = .directory ∨ m.file_type = .regular ∧ p ++ [m.name] ∈ puts

def WellFormed (puts : List Path) (p : Path) (s : MetaSet) : Prop := FileForm p s ∨ ListingForm puts p s

/-! ## What the predicates of the code say of the forms -/

section

variable {puts : List Path} {p : Path} {s t : MetaSet}

theorem FileForm.is_regular_file (h : FileForm p s) : MetaSet.is_regular_file s := by
  obtain ⟨m, rfl, hm, -⟩ := h
  simp [MetaSet.is_regular_file, hm]

theorem FileForm.not_is_directory (h : FileForm p s) : ¬ MetaSet.is_directory s := by
  obtain ⟨m, rfl, hm, -⟩ := h
  simp [MetaSet.is_directory, Metadata.is_directory, hm]

theorem ListingForm.is_directory (h : ListingForm puts p s) : MetaSet.is_directory s := by
  obtain ⟨m, hm, hname, htype⟩ := h.dot
  exact ⟨m, hm, Or.inl hname, htype⟩

theorem MetaSet.is_directory.not_is_regular_file (h : MetaSet.is_directory s) :
    ¬ MetaSet.is_regular_file s := by
  rintro ⟨hlength, hregular⟩
  obtain ⟨m, rfl⟩ := List.length_eq_one_iff.mp hlength
  obtain ⟨x, hx, -, htype⟩ := h
  obtain rfl := List.mem_singleton.mp hx
  rw [hregular x rfl] at htype
  cases htype

theorem ListingForm.not_is_regular_file (h : ListingForm puts p s) : ¬ MetaSet.is_regular_file s :=
  h.is_directory.not_is_regular_file

theorem WellFormed.listing (h : WellFormed puts p s) (hs : MetaSet.is_directory s) : ListingForm puts p s :=
  h.resolve_left fun hfile => hfile.not_is_directory hs

theorem WellFormed.file (h : WellFormed puts p s) (hs : MetaSet.is_regular_file s) : FileForm p s :=
  h.resolve_right fun hlisting => hlisting.not_is_regular_file hs

theorem WellFormed.mono {puts' : List Path} (h : WellFormed puts p s) (hputs : puts ⊆ puts') :
    WellFormed puts' p s := by
  refine h.imp_right fun h => ⟨h.dot, h.dot_dot, fun m hm => ?_⟩
  exact (h.children m hm).imp_right fun hregular => ⟨hregular.1, hputs hregular.2⟩

/-! ## A record is added -/

/-- The records of an entry after `__add`. -/
def MetaSet.merged (old metadata : MetaSet) : MetaSet :=
  let current := metadata.foldl (fun s m => insert_or_assign m s) old
  if ∃ m ∈ current, m.name = ['.'] then
    insert_or_assign (create_directory metadata ['.', '.'])
      (insert_or_assign (create_directory metadata ['.']) current)
  else current

theorem MetaStore.lookup_add (store : MetaStore) (p : Path) (metadata : MetaSet) :
    (store.add p metadata).1.lookup p = some (MetaSet.merged ((store.lookup p).getD []) metadata) := by
  unfold add MetaSet.merged
  simp only [List.mem_map]
  exact AList.lookup_insert _

namespace MetaSet

theorem mem_insert_or_assign_self (m : Metadata) (s : MetaSet) : m ∈ insert_or_assign m s := by
  have hfind := find_insert_or_assign m s m.name
  rw [if_pos rfl] at hfind
  exact List.mem_of_find?_eq_some hfind

theorem mem_insert_or_assign_of_ne {m x : Metadata} {s : MetaSet} (hx : x ∈ s) (h : m.name ≠ x.name) :
    x ∈ insert_or_assign m s := by
  induction s with
  | nil => cases hx
  | cons y s ih =>
    unfold insert_or_assign
    rcases List.mem_cons.mp hx with rfl | hx
    · rw [if_neg h]
      split <;> simp
    · split
      · exact List.mem_cons_of_mem _ hx
      · split
        · simp [hx]
        · exact List.mem_cons_of_mem _ (ih hx)

theorem mem_foldl_insert_or_assign {l : List Metadata} {s : MetaSet} {x : Metadata}
    (h : x ∈ l.foldl (fun s m => insert_or_assign m s) s) : x ∈ l ∨ x ∈ s := by
  induction l generalizing s with
  | nil => exact Or.inr h
  | cons m l ih =>
    rcases ih h with hx | hx
    · exact Or.inl (List.mem_cons_of_mem _ hx)
    · rcases mem_insert_or_assign hx with rfl | hx
      · exact Or.inl List.mem_cons_self
      · exact Or.inr hx

theorem Ordered.foldl_insert_or_assign {s : MetaSet} (h : s.Ordered) (l : List Metadata) :
    Ordered (l.foldl (fun s m => MetaSet.insert_or_assign m s) s) := by
  induction l generalizing s with
  | nil => exact h
  | cons m l ih => exact ih (h.insert_or_assign m)

theorem names_foldl_insert_or_assign {l : List Metadata} {s : MetaSet} {n : Name}
    (h : n ∈ s.map Metadata.name ∨ n ∈ l.map Metadata.name) :
    n ∈ (l.foldl (fun s m => insert_or_assign m s) s).map Metadata.name := by
  induction l generalizing s with
  | nil => simpa using h
  | cons m l ih =>
    apply ih
    by_cases hn : m.name = n
    · exact Or.inl (List.mem_map.mpr ⟨m, mem_insert_or_assign_self m s, hn⟩)
    · refine h.imp (fun h => ?_) fun h => ?_
      · obtain ⟨x, hx, rfl⟩ := List.mem_map.mp h
        exact List.mem_map.mpr ⟨x, mem_insert_or_assign_of_ne hx hn, rfl⟩
      · simpa [Ne.symm hn] using h

variable {old metadata : MetaSet}

theorem Ordered.merged (h : old.Ordered) (metadata : MetaSet) : Ordered (MetaSet.merged old metadata) := by
  unfold MetaSet.merged
  dsimp only
  split
  · exact ((h.foldl_insert_or_assign metadata).insert_or_assign _).insert_or_assign _
  · exact h.foldl_insert_or_assign metadata

theorem mem_merged {x : Metadata} (h : x ∈ merged old metadata) :
    (x ∈ metadata ∨ x ∈ old) ∨ x = create_directory metadata ['.'] ∨
      x = create_directory metadata ['.', '.'] := by
  unfold merged at h
  dsimp only at h
  split at h
  · rcases mem_insert_or_assign h with rfl | h
    · exact Or.inr (Or.inr rfl)
    · rcases mem_insert_or_assign h with rfl | h
      · exact Or.inr (Or.inl rfl)
      · exact Or.inl (mem_foldl_insert_or_assign h)
  · exact Or.inl (mem_foldl_insert_or_assign h)

theorem dots_mem_merged (h : ['.'] ∈ old.map Metadata.name ∨ ['.'] ∈ metadata.map Metadata.name) :
    create_directory metadata ['.'] ∈ merged old metadata ∧
      create_directory metadata ['.', '.'] ∈ merged old metadata := by
  unfold merged
  dsimp only
  rw [if_pos (List.mem_map.mp (names_foldl_insert_or_assign h))]
  constructor
  · refine mem_insert_or_assign_of_ne (mem_insert_or_assign_self _ _) ?_
    simp [create_directory, directory_record]
  · exact mem_insert_or_assign_self _ _

end MetaSet

/-- The record of a file, to the entry of that file or to none. -/
theorem merged_file {m : Metadata} (hm : m.name ≠ ['.']) (hold : s = [] ∨ ∃ x, s = [x] ∧ x.name = m.name) :
    MetaSet.merged s [m] = [m] := by
  have hone : MetaSet.insert_or_assign m s = [m] := by
    rcases hold with rfl | ⟨x, rfl, hx⟩
    · rfl
    · simp [MetaSet.insert_or_assign, hx]
  have hdot : ¬ ∃ x ∈ [m], x.name = ['.'] := by simpa using hm
  simp only [MetaSet.merged, List.foldl_cons, List.foldl_nil, hone, if_neg hdot]

/-- Records of children, to a listing or with a `.` of their own. -/
theorem merged_listing (hold : s = [] ∨ ListingForm puts p s)
    (hchildren : ∀ m ∈ t, m.file_type = .directory ∨ m.file_type = .regular ∧ p ++ [m.name] ∈ puts)
    (hdot : ListingForm puts p s ∨ ['.'] ∈ t.map Metadata.name) :
    ListingForm puts p (MetaSet.merged s t) := by
  have hname : ['.'] ∈ s.map Metadata.name ∨ ['.'] ∈ t.map Metadata.name := by
    refine hdot.imp_left fun h => ?_
    obtain ⟨m, hm, hname, -⟩ := h.dot
    exact List.mem_map.mpr ⟨m, hm, hname⟩
  obtain ⟨hone, htwo⟩ := MetaSet.dots_mem_merged hname
  refine ⟨⟨_, hone, rfl, rfl⟩, ⟨_, htwo, rfl, rfl⟩, fun m hm => ?_⟩
  rcases MetaSet.mem_merged hm with (hm | hm) | rfl | rfl
  · exact hchildren m hm
  · rcases hold with rfl | hold
    · cases hm
    · exact hold.children m hm
  · exact Or.inl rfl
  · exact Or.inl rfl

/-! ## Names are taken away -/

theorem ListingForm.filter (h : ListingForm puts p s) {names : List Name} (hdot : ['.'] ∉ names)
    (hdot_dot : ['.', '.'] ∉ names) : ListingForm puts p (s.filter fun m => m.name ∉ names) := by
  refine ⟨?_, ?_, fun m hm => h.children m (List.mem_of_mem_filter hm)⟩
  · obtain ⟨m, hm, hname, htype⟩ := h.dot
    exact ⟨m, List.mem_filter.mpr ⟨hm, by simpa [hname] using hdot⟩, hname, htype⟩
  · obtain ⟨m, hm, hname, htype⟩ := h.dot_dot
    exact ⟨m, List.mem_filter.mpr ⟨hm, by simpa [hname] using hdot_dot⟩, hname, htype⟩

theorem FileForm.filter (h : FileForm p s) {names : List Name} (hname : filename p ∉ names) :
    s.filter (fun m => m.name ∉ names) = s := by
  obtain ⟨m, rfl, -, hm⟩ := h
  simpa [hm] using hname

end

end Fs

end Chord
