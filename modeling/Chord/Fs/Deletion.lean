import Chord.Fs.Listing

/-!
# What a deletion keeps

`del` goes from node to node, and from a listing to its children. A property of all disks that
its steps keep is kept by the whole call.
-/

namespace Chord

namespace Fs

open World

/-! ## Names in a listing -/

namespace MetaSet

theorem mem_of_list {l : List Metadata} {x : Metadata} (h : x ∈ of_list l) : x ∈ l := by
  have hfold : ∀ (l s : List Metadata), x ∈ l.foldl (fun s m => insert m s) s → x ∈ l ∨ x ∈ s := by
    intro l
    induction l with
    | nil => exact fun _ h => Or.inr h
    | cons m l ih =>
      intro s h
      rcases ih _ h with hx | hx
      · exact Or.inl (List.mem_cons_of_mem _ hx)
      · rcases mem_insert hx with rfl | hx
        · exact Or.inl List.mem_cons_self
        · exact Or.inr hx
  exact (hfold l [] h).resolve_right List.not_mem_nil

end MetaSet

/-- The next copy is asked for names that were asked for here. -/
theorem removed_name {store left : MetaStore} {p : Path} {metadata deleted : MetaSet}
    (h : store.remove p metadata = some (left, deleted)) {x : Metadata}
    (hx : x ∈ MetaSet.increase_replication_and_clean deleted) : ∃ m ∈ metadata, x.name = m.name := by
  obtain ⟨current, -, hremove⟩ := Option.map_eq_some_iff.mp h
  cases hremove
  obtain ⟨hx, hactive⟩ := List.mem_filter.mp hx
  obtain ⟨y, hy, rfl⟩ := List.mem_map.mp hx
  obtain ⟨m, hm, rfl⟩ := List.mem_map.mp (MetaSet.mem_of_list hy)
  refine ⟨m, hm, ?_⟩
  cases hfind : current.find? fun x => x.name = m.name with
  | none =>
    rw [hfind] at hactive
    exact absurd hactive (by decide)
  | some y => simpa using List.find?_some hfind

/-- A property that is kept where names that are `allowed` go from a listing of `p`. -/
theorem meta_del_after {P : World → Prop} {p : Path} (allowed : Name → Prop)
    (hfilter : ∀ w u current (names : List Name), P w → (w.stores u).metadata.lookup p = some current →
      (∀ n ∈ names, allowed n) → P (w.set u { w.stores u with
        metadata := (w.stores u).metadata.insert p (current.filter fun x => x.name ∉ names) }))
    (fuel : Nat) (w : World) (self : Node) (records : MetaSet) (o : Options)
    (hrecords : ∀ m ∈ records, allowed m.name) (hw : P w) : After P (meta_del fuel w self p records o) := by
  induction fuel generalizing w self records o with
  | zero => exact after_none
  | succ fuel ih =>
    unfold meta_del
    extract_lets metadata store
    have hmetadata : ∀ m ∈ metadata, allowed m.name := by
      intro m hm
      obtain ⟨x, hx, rfl⟩ := List.mem_map.mp (MetaSet.mem_of_list hm)
      exact hrecords x hx
    split
    · exact after_some hw _
    split
    · exact after_some hw _
    split
    · exact after_some hw _
    split
    · exact after_some hw _
    rename_i left deleted hremove
    have hleft : P (w.set self.uuid { store with metadata := left }) := by
      obtain ⟨current, hcurrent, hremove⟩ := Option.map_eq_some_iff.mp hremove
      cases hremove
      refine hfilter w self.uuid current _ hw hcurrent fun n hn => ?_
      obtain ⟨m, hm, rfl⟩ := List.mem_map.mp hn
      exact hmetadata m hm
    have hnext : ∀ m ∈ MetaSet.increase_replication_and_clean deleted, allowed m.name := by
      intro x hx
      obtain ⟨m, hm, hname⟩ := removed_name hremove hx
      rw [hname]
      exact hmetadata m hm
    dsimp only
    split
    · exact after_bind fun node _ => after_bind fun z hz =>
        after_some (after_ignored (ih _ _ _ _ hnext hleft) hz) _
    · exact after_some hleft _

/-! ## Files and directories -/

theorem files_remove {files files' : Files} {p : Path} (h : files.remove p = some files') :
    files' = files.erase p := by
  unfold Files.remove at h
  split at h
  · split at h <;> cases h
    rfl
  · cases h
    rfl

/-- The steps of a deletion of `paths` keep the property. -/
structure Sweeps (recursive : Bool) (paths : Path → Prop) (P : World → Prop) : Prop where
  entry : ∀ w u q, paths q → P w → P (w.set u { w.stores u with metadata := (w.stores u).metadata.erase q })
  file : ∀ w u q, paths q → P w → P (w.set u { w.stores u with files := (w.stores u).files.erase q })
  /-- The name of a file in the listing of its parent. -/
  name : ∀ w u q metadata, paths q → P w → (w.stores u).metadata.lookup q = some metadata →
    (∃ element, metadata.find? (fun m => m.name = filename q ∨ m.is_directory) = some element ∧
      element.file_type ≠ .directory) →
    ∀ fuel v node o, P v → After P (meta_del fuel v node (parent_path q) metadata o)
  /-- The name of a directory in the listing of its parent. -/
  name_dir : ∀ q, paths q → parent_path q ≠ q → ∀ fuel v node o, P v →
    After P (meta_del fuel v node (parent_path q) [MetaSet.directory_record (filename q)] o)
  child : recursive = true → ∀ w u q metadata, paths q → P w →
    (w.stores u).metadata.lookup q = some metadata →
    ∀ m ∈ metadata, ¬ m.is_directory → paths (q ++ [m.name])

namespace Sweeps

variable {sha : Sha256} {recursive : Bool} {paths : Path → Prop} {P : World → Prop} {uri : Path}

/-- What follows once the entry is erased. -/
theorem handle_del_file_erased {del : DelCall} (h : Sweeps recursive paths P) (huri : paths uri) (fuel : Nat)
    (hdel : ∀ w self o, P w → After P (del w self uri recursive o)) {w : World} {self : Node}
    {metadata : MetaSet} (h₁ : P
    (w.set self.uuid { w.stores self.uuid with metadata := (w.stores self.uuid).metadata.erase uri }))
    (hname : ∀ fuel v node o, P v → After P (meta_del fuel v node (parent_path uri) metadata o))
    (o : Options) :
    After P (Fs.handle_del_file sha fuel del w self uri metadata recursive o) := by
  unfold Fs.handle_del_file
  extract_lets store w₁ max_repl done parent file
  have hparent : ∀ v, P v → After P (parent v) := by
    intro v hv
    unfold parent
    split
    · exact after_bind fun node _ => after_bind fun z hz => after_some (after_ignored (hname _ _ _ _ hv) hz) _
    · exact after_some hv _
  have hfile : ∀ v, P v → After P (file v) := by
    intro v hv
    unfold file
    dsimp only
    split
    · exact after_some hv _
    rename_i files hremove
    obtain rfl := files_remove hremove
    have hv := h.file v self.uuid uri huri hv
    split
    · refine after_bind fun node _ => ?_
      split
      · exact after_bind fun z hz => hparent z (after_ignored (hdel _ _ _ hv) hz)
      · exact hparent _ hv
    · exact hparent _ hv
  split
  · split
    · exact after_bind fun z hz => hfile z (after_ignored (hdel _ _ _ h₁) hz)
    · exact hfile _ h₁
  · exact hfile _ h₁

theorem handle_del_file {del : DelCall} (h : Sweeps recursive paths P) (huri : paths uri) (fuel : Nat)
    (hdel : ∀ w self o, P w → After P (del w self uri recursive o)) {w : World} (hw : P w) {self : Node}
    {metadata : MetaSet} (hlookup : (w.stores self.uuid).metadata.lookup uri = some metadata)
    (helement : ∃ element, metadata.find? (fun m => m.name = filename uri ∨ m.is_directory) = some element ∧
      element.file_type ≠ .directory) (o : Options) :
    After P (Fs.handle_del_file sha fuel del w self uri metadata recursive o) :=
  h.handle_del_file_erased huri fuel hdel (h.entry w self.uuid uri huri hw)
    (h.name w self.uuid uri metadata huri hw hlookup helement) o

theorem handle_del_recursive {del : DelCall}
    (hdel : ∀ q w self o, paths q → P w → After P (del w self q recursive o)) {metadata : MetaSet}
    (hchild : ∀ m ∈ metadata, ¬ m.is_directory → paths (uri ++ [m.name])) (o : Options) {w : World}
    (hw : P w) : After P (handle_del_recursive sha del uri recursive o metadata w) := by
  induction metadata generalizing w with
  | nil => exact after_some hw _
  | cons m metadata ih =>
    obtain ⟨hm, hmetadata⟩ := List.forall_mem_cons.mp hchild
    unfold Fs.handle_del_recursive
    split
    · exact ih hmetadata hw
    · rename_i hnot
      refine after_bind fun node _ => after_bind fun reply hreply => ?_
      have hv := hdel _ _ _ _ (hm hnot) hw reply.1 reply.2 hreply
      dsimp only
      split
      · exact ih hmetadata hv
      · exact after_some hv _

theorem handle_del_dir {del : DelCall} (h : Sweeps recursive paths P) (huri : paths uri) (fuel : Nat)
    (hdel : ∀ q w self o, paths q → P w → After P (del w self q recursive o)) {w : World} (hw : P w)
    {self : Node} {metadata : MetaSet} (hlookup : (w.stores self.uuid).metadata.lookup uri = some metadata)
    (o : Options) :
    After P (handle_del_dir sha fuel del w self uri metadata recursive o) := by
  unfold Fs.handle_del_dir
  extract_lets files done parent entry
  have hparent : ∀ v, P v → After P (parent v) := by
    intro v hv
    unfold parent
    extract_lets store left
    have hleft : P left := by
      unfold left
      split
      · exact h.file v self.uuid uri huri hv
      · exact hv
    split
    · rename_i hcond
      exact after_bind fun node _ => after_bind fun z hz =>
        after_some (after_ignored (h.name_dir uri huri hcond.2 _ _ _ _ hleft) hz) _
    · exact after_some hleft _
  have hentry : ∀ v, P v → After P (entry v) := by
    intro v hv
    unfold entry
    extract_lets store
    split
    · exact after_some hv _
    have hv := h.entry v self.uuid uri huri hv
    split
    · refine after_bind fun node _ => ?_
      split
      · exact after_bind fun z hz => hparent z (after_ignored (hdel _ _ _ _ huri hv) hz)
      · exact hparent _ hv
    · exact hparent _ hv
  split
  · exact after_some hw _
  split
  · rename_i hcond
    exact after_bind fun z hz => hentry z (after_ignored
      (handle_del_recursive hdel (h.child hcond.2 w self.uuid uri metadata huri hw hlookup) o hw) hz)
  · exact hentry w hw

/-- The induction over all calls. -/
theorem del (h : Sweeps recursive paths P) (fuel : Nat) (q : Path) (w : World) (self : Node) (o : Options)
    (hq : paths q) (hw : P w) : After P (Fs.del sha fuel w self q recursive o) := by
  induction fuel generalizing q w self o with
  | zero => exact after_none
  | succ fuel ih =>
    unfold Fs.del
    dsimp only
    split
    · exact after_some hw _
    split
    · exact after_some hw _
    split
    · split
      · exact after_some (h.file w self.uuid q hq hw) _
      · exact after_some hw _
    rename_i metadata hlookup
    split
    · exact after_some hw _
    rename_i element hfind
    split
    · exact h.handle_del_dir hq fuel ih hw hlookup o
    · rename_i htype
      exact h.handle_del_file hq fuel (fun w self o hw => ih q w self o hq hw) hw hlookup
        ⟨element, hfind, htype⟩ o

end Sweeps

end Fs

end Chord
