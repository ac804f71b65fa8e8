import Chord.Fs.Form
import Chord.Fs.Place

/-!
# Requests that add records

`meta_add` goes from a listing to the listing above it, and from node to node. What it finds there
decides whether the entries stay well formed.
-/

namespace Chord

namespace Fs

open World

/-- The entries of all disks. -/
def Sound (puts : List Path) (w : World) : Prop :=
  ∀ u p s, (w.stores u).metadata.lookup p = some s → s.Ordered ∧ WellFormed puts p s

def HasFile (store : Store) (p : Path) : Prop := ∃ s ∈ store.metadata.lookup p, MetaSet.is_regular_file s

def HasListing (store : Store) (p : Path) : Prop := ∃ s ∈ store.metadata.lookup p, MetaSet.is_directory s

/-- New names with a `.` among them go to a listing or make one, others need one. -/
def Fits (store : Store) (p : Path) (names : List Name) : Prop :=
  ¬ HasFile store p ∧ (HasListing store p ∨ ['.'] ∈ names)

instance (store : Store) (p : Path) : Decidable (HasFile store p) :=
  inferInstanceAs (Decidable (∃ s ∈ store.metadata.lookup p, MetaSet.is_regular_file s))

instance (store : Store) (p : Path) : Decidable (HasListing store p) :=
  inferInstanceAs (Decidable (∃ s ∈ store.metadata.lookup p, MetaSet.is_directory s))

instance (store : Store) (p : Path) (names : List Name) : Decidable (Fits store p names) :=
  inferInstanceAs (Decidable (¬ HasFile store p ∧ (HasListing store p ∨ ['.'] ∈ names)))

/-- What an update makes of the records for the entry of `p`. -/
def entry_of (p : Path) (s : MetaSet) : MetaSet :=
  if is_mkdir p s then [MetaSet.create_directory s ['.']] else s

/-- The name that a directory gets in its parent `p`. -/
def parent_names (p : Path) (name : Name) : List Name := if name = filename p then [['.']] else [name]

section

variable (sha : Sha256)

/-- The nodes that get a copy. -/
def reached (w : World) (p : Path) (k : UInt32) : List Node := (w.clockwise (sha.uri p)).take (max 1 k.toNat)

/-- The names fit in the listings of `p`, and the name of a listing that is new at the owner fits in
the listings above it. -/
inductive Grows (w : World) (k : UInt32) : Path → List Name → Prop
  | known {p : Path} {names : List Name} (h : ∀ n ∈ reached sha w p k, Fits (w.stores n.uuid) p names)
      (hknown : ∀ x, w.successor (sha.uri p) = some x → ∀ n ∈ names, Lists (w.stores x.uuid) p n) :
      Grows w k p names
  | root {names : List Name} (h : ∀ n ∈ reached sha w [] k, Fits (w.stores n.uuid) [] names) : Grows w k
    [] names
  | above {p : Path} {names : List Name} (h : ∀ n ∈ reached sha w p k, Fits (w.stores n.uuid) p names)
      (hparent : Grows w k (parent_path p) (parent_names (parent_path p) (filename p))) : Grows w k p names

/-- A put that writes nothing, for its owner has a directory there, or one whose file goes to no
listing and whose name fits in the listings above it. -/
def PutFits (w : World) (uri : Path) (k : UInt32) : Prop :=
  (∀ x, w.successor (sha.uri uri) = some x → (w.stores x.uuid).files.lookup uri = some .directory) ∨
    uri ≠ [] ∧ (∀ n ∈ reached sha w uri k, HasListing (w.stores n.uuid) uri →
      (w.stores n.uuid).files.lookup uri = some .directory) ∧
    Grows sha w k (parent_path uri) [filename uri, ['.'], ['.', '.']]

end

/-! ## One entry -/

/-- The records of a request: directories, and files that were put. -/
structure Children (puts : List Path) (p : Path) (s : MetaSet) : Prop where
  nonempty : s ≠ []
  ordered : s.Ordered
  children : ∀ m ∈ s, m.file_type = .directory ∨ m.file_type = .regular ∧ p ++ [m.name] ∈ puts

section

variable {puts : List Path} {p : Path} {s : MetaSet} {k : UInt32} {w : World}

theorem is_mkdir_copied (p : Path) (s : MetaSet) (k : UInt32) (i : Nat) :
    is_mkdir p (copied s k i) ↔ is_mkdir p s := by
  match s with
  | [] => rfl
  | [m] => rfl
  | _ :: _ :: _ => rfl

theorem entry_of_copied_names (p : Path) (s : MetaSet) (k : UInt32) (i : Nat) :
    (entry_of p (copied s k i)).map Metadata.name = (entry_of p s).map Metadata.name := by
  unfold entry_of
  rw [if_congr (is_mkdir_copied p s k i) rfl rfl]
  split
  · rfl
  · rw [copied, List.map_map]
    rfl

theorem entry_of_directory (p : Path) (name : Name) :
    (entry_of p [MetaSet.directory_record name]).map Metadata.name = parent_names p name := by
  have hmkdir : is_mkdir p [MetaSet.directory_record name] ↔ name = filename p := by
    simp [is_mkdir, MetaSet.directory_record]
  unfold entry_of parent_names
  rw [if_congr hmkdir rfl rfl]
  split <;> rfl

theorem entry_of_ordered (h : s.Ordered) (p : Path) : (entry_of p s).Ordered := by
  unfold entry_of
  split
  · exact List.pairwise_singleton _ _
  · exact h

namespace Children

theorem copied (h : Children puts p s) (k : UInt32) (i : Nat) : Children puts p (copied s k i) := by
  refine ⟨copied_ne_nil h.nonempty k i, copied_ordered h.ordered k i, fun m hm => ?_⟩
  obtain ⟨x, hx, rfl⟩ := List.mem_map.mp hm
  exact h.children x hx

theorem directory (puts : List Path) (p : Path) (name : Name) :
    Children puts p [MetaSet.directory_record name] :=
  ⟨by simp, List.pairwise_singleton _ _, by simp [MetaSet.directory_record]⟩

end Children

theorem Sound.set (h : Sound puts w) {u : Uuid} {store : Store}
    (hstore : ∀ p s, store.metadata.lookup p = some s → s.Ordered ∧ WellFormed puts p s) :
    Sound puts (w.set u store) := by
  intro v q s hlookup
  rcases eq_or_ne v u with rfl | hv
  · rw [set_stores_self] at hlookup
    exact hstore q s hlookup
  · rw [set_stores_of_ne hv] at hlookup
    exact h v q s hlookup

theorem Sound.old (h : Sound puts w) (u : Uuid) (p : Path) :
    MetaSet.Ordered (((w.stores u).metadata.lookup p).getD []) := by
  cases hlookup : (w.stores u).metadata.lookup p with
  | none => exact List.Pairwise.nil
  | some s => exact (h u p s hlookup).1

theorem Sound.add_entry (h : Sound puts w) {self : Node} {names : List Name} (hs : Children puts p s)
    (hnames : ∀ n, n ∈ (entry_of p s).map Metadata.name ↔ n ∈ names)
    (hfits : Fits (w.stores self.uuid) p names) :
    Sound puts (w.add_entry self p (entry_of p s)) := by
  refine h.set fun q t hlookup => ?_
  rcases eq_or_ne q p with rfl | hq
  · rw [MetaStore.lookup_add] at hlookup
    cases hlookup
    refine ⟨(h.old self.uuid q).merged _, Or.inr (merged_listing ?_ ?_ ?_)⟩
    · cases hlookup : (w.stores self.uuid).metadata.lookup q with
      | none => exact Or.inl rfl
      | some t =>
        refine Or.inr ((h self.uuid q t hlookup).2.resolve_left fun hfile => hfits.1 ?_)
        exact ⟨t, hlookup, hfile.is_regular_file⟩
    · unfold entry_of
      split
      · intro m hm
        obtain rfl := List.mem_singleton.mp hm
        exact Or.inl rfl
      · exact hs.children
    · refine hfits.2.imp (fun ⟨t, hlookup, ht⟩ => ?_) fun hdot => (hnames _).mpr hdot
      rw [Option.mem_def.mp hlookup]
      exact (h self.uuid q t hlookup).2.listing ht
  · rw [MetaStore.add_lookup_of_ne hq] at hlookup
    exact h self.uuid q t hlookup

theorem Fits.congr {store store' : Store} {names : List Name} (h : Fits store p names)
    (heq : store'.metadata.lookup p = store.metadata.lookup p) : Fits store' p names := by
  unfold Fits HasFile HasListing at *
  rwa [heq]

end

/-! ## The copies of a listing -/

section

variable (sha : Sha256) {puts : List Path} {p : Path} {s : MetaSet} {names : List Name} {k : UInt32}
    {w w' : World}

/-- What a request does: nothing, or the entry, the parent and the next copy. -/
theorem meta_add_cases {fuel : Nat} {self : Node} {records metadata : MetaSet} {o : Options}
    (hrecords : MetaSet.of_list (records.map Metadata.sent) = metadata)
    (h : ignored (meta_add sha (fuel + 1) w self p records o) = some w') :
    w' = w ∨ o.source ≠ some self.uuid ∧ ∃ v,
      (if ((w.stores self.uuid).metadata.add p (entry_of p metadata)).2 ∧ parent_path p ≠ p ∧
          (MetaSet.max_replication metadata).index = 0 then
        (w.successor (sha.uri (parent_path p))).bind fun node =>
          ignored (meta_add sha fuel (w.add_entry self p (entry_of p metadata)) node (parent_path p)
            [MetaSet.create_directory metadata (filename p)] o)
      else some (w.add_entry self p (entry_of p metadata))) = some v ∧
      (if MetaSet.increase_replication_and_clean metadata ≠ [] then
        (v.successor self.uuid).bind fun node =>
          ignored (meta_add sha fuel v node p (MetaSet.increase_replication_and_clean metadata)
            (init_source self o))
      else some v) = some w' := by
  by_cases hup : self ∈ w.up
  · by_cases hsource : o.source = some self.uuid
    · simp [meta_add, hup, hsource, ignored] at h
      exact Or.inl h.symm
    by_cases hempty : metadata = []
    · simp [meta_add, hup, hsource, hrecords, hempty, ignored] at h
      exact Or.inl h.symm
    by_cases hold : ∃ existing ∈ (w.stores self.uuid).metadata.lookup p, MetaSet.equal_basic existing metadata
    · rw [meta_add] at h
      simp only [hrecords, if_neg (not_not_intro hup), if_neg hsource, if_neg hempty, if_pos hold] at h
      cases h
      exact Or.inl rfl
    rw [meta_add_accepted sha hrecords hup hsource hempty
      (fun existing hmem heq => hold ⟨existing, hmem, heq⟩) rfl] at h
    exact Or.inr ⟨hsource, ignored_bind_bind h⟩
  · simp [meta_add, hup, ignored] at h
    exact Or.inl h.symm

/-- The copies that are not at the owner. -/
theorem meta_add_copies {s : MetaSet} (src : Node) {x : Node} {l : List Node} {fuel : Nat} {o : Options}
    {w₀ : World} (hs : Children puts p s) (hnames : ∀ n, n ∈ (entry_of p s).map Metadata.name ↔ n ∈ names)
    (ho : o.source = some src.uuid) (hk : 1 < k.toNat) (hx : (l ++ [src]).head? = some x)
    (hchain : (l ++ [src]).IsChain fun a b => w.successor a.uuid = some b)
    (hl : (l ++ [src]).Pairwise fun x y => x.uuid ≠ y.uuid)
    (hfits : ∀ x ∈ l.take (k.toNat - 1), Fits (w.stores x.uuid) p names) (hsound : Sound puts w)
    (habove : w₀.Above p w) (hcall : ignored (meta_add sha fuel w x p (copied s k 1) o) = some w') :
    Sound puts w' ∧ w₀.Above p w' := by
  refine relayed_keeps (fun w => Sound puts w ∧ w₀.Above p w) (fun store => Fits store p names)
    (fun fuel w x i w' => ignored (meta_add sha fuel w x p (copied s k (i + 1)) o) = some w')
      (k := k.toNat - 1)
    (i := 0) ?_ (fun _ _ _ _ h => by cases h) ?_ (by omega) hx hchain hl hfits ⟨hsound, habove⟩ hcall
  · rintro fuel w x y i w' ⟨hsound, habove⟩ hxs hi hfits hnext hcall
    have hindex : (Replication.copy k (i + 1)).index ≠ 0 :=
      Replication.index_copy_ne_zero (by omega) (by omega)
    have hcopied := hs.copied k (i + 1)
    rcases meta_add_cases sha (of_list_copied hs.ordered (i + 1)) hcall with rfl | ⟨-, v, hv, hrest⟩
    · exact Or.inl ⟨hsound, habove⟩
    rw [max_replication_copied hs.nonempty, if_neg fun h => hindex h.2.2] at hv
    cases hv
    have hsound' := hsound.add_entry hcopied (by simpa only [entry_of_copied_names] using hnames) hfits
    have habove' := habove.trans (add_entry_above w x p (entry_of p (copied s k (i + 1))))
    rw [increase_copied, if_congr (Replication.next_copy_active (by omega)) rfl rfl] at hrest
    by_cases hmore : i + 1 + 1 < k.toNat
    · rw [if_pos hmore, if_pos (copied_ne_nil hs.nonempty k _), init_source_of_source ho] at hrest
      refine Or.inr ⟨by omega, _, ⟨hsound', habove'⟩, rfl, fun u hu => set_stores_of_ne hu, ?_⟩
      rwa [World.add_entry, set_successor, hnext] at hrest
    · rw [if_neg hmore, if_neg (by simp)] at hrest
      cases hrest
      exact Or.inl ⟨hsound', habove'⟩
  · intro fuel w i w' hcall
    have hsource : ignored (meta_add sha (fuel + 1) w src p (copied s k (i + 1)) o) = some w := by
      by_cases hup : src ∈ w.up <;> simp [meta_add, hup, ho, ignored]
    exact Option.some.inj (hcall.symm.trans hsource)

/-- The entry at the owner, what `parent` says of the listing above, and the copies. -/
theorem meta_add_at_owner {s records : MetaSet} {y : Node} {fuel : Nat} {o : Options}
    (hw : w.Exact) (hsuccessor : w.successor (sha.uri p) = some y) (ho : o.source = none) (hs : Children puts p s)
    (hrecords : MetaSet.of_list (records.map Metadata.sent) = copied s k 0)
    (hnames : ∀ n, n ∈ (entry_of p s).map Metadata.name ↔ n ∈ names) (hsound : Sound puts w)
    (hfits : ∀ n ∈ reached sha w p k, Fits (w.stores n.uuid) p names)
    (hparent : ((w.stores y.uuid).metadata.add p (entry_of p (copied s k 0))).2 = true → parent_path p ≠ p →
      Sound puts (w.add_entry y p (entry_of p (copied s k 0))) → ∀ m node v,
      w.successor (sha.uri (parent_path p)) = some node →
      ignored (meta_add sha m (w.add_entry y p (entry_of p (copied s k 0))) node (parent_path p)
        [MetaSet.create_directory (copied s k 0) (filename p)] o) = some v →
      Sound puts v ∧ (w.add_entry y p (entry_of p (copied s k 0))).Above (parent_path p) v)
    (hcall : ignored (meta_add sha fuel w y p records o) = some w') : Sound puts w' ∧ w.Above p w' := by
  obtain ⟨x, rest, hl⟩ := hw.exists_owner (sha.uri p)
  obtain rfl : y = x := Option.some.inj (hsuccessor.symm.trans (hw.successor_owner hl))
  obtain ⟨fuel, rfl⟩ : ∃ m, fuel = m + 1 := by
    cases fuel with
    | zero => cases hcall
    | succ m => exact ⟨m, rfl⟩
  obtain ⟨c, hc⟩ : ∃ c, max 1 k.toNat = c + 1 := ⟨max 1 k.toNat - 1, by omega⟩
  rw [reached, hl, hc, List.take_succ_cons] at hfits
  obtain ⟨hy, hfits⟩ := List.forall_mem_cons.mp hfits
  rcases meta_add_cases sha hrecords hcall with rfl | ⟨-, v, hv, hrest⟩
  · exact ⟨hsound, .refl _ _⟩
  have habove := w.add_entry_above y p (entry_of p (copied s k 0))
  have hsound' : Sound puts (w.add_entry y p (entry_of p (copied s k 0))) :=
    hsound.add_entry (hs.copied k 0) (by simpa only [entry_of_copied_names] using hnames) hy
  obtain ⟨hv, hvabove, hvstores⟩ : Sound puts v ∧ w.Above p v ∧
      ∀ n ∈ rest, (v.stores n.uuid).metadata.lookup p = (w.stores n.uuid).metadata.lookup p := by
    have hne : ∀ n ∈ rest, n.uuid ≠ y.uuid := fun n hn =>
      (List.pairwise_append.mp (hw.pairwise hl)).2.2 n hn y List.mem_cons_self
    split at hv
    · rename_i hcond
      obtain ⟨node, hnode, hv⟩ := Option.bind_eq_some_iff.mp hv
      obtain ⟨hv, hv'⟩ := hparent hcond.1 hcond.2.1 hsound' fuel node v hnode hv
      refine ⟨hv, habove.trans (hv'.mono (parent_path_le p)), fun n hn => ?_⟩
      have hp : p ≠ [] := fun hnil => hcond.2.1 (by rw [hnil]; rfl)
      rw [(hv'.stores n.uuid).metadata p (parent_path_not_below hp), World.add_entry,
        set_stores_of_ne (hne n hn)]
    · cases hv
      exact ⟨hsound', habove, fun n hn => by rw [World.add_entry, set_stores_of_ne (hne n hn)]⟩
  rw [increase_copied, if_congr (Replication.next_copy_active (by omega)) rfl rfl] at hrest
  by_cases hk : 0 + 1 < k.toNat
  · rw [if_pos hk, if_pos (copied_ne_nil hs.nonempty k _)] at hrest
    obtain ⟨x, hx, hsucc, hchain⟩ := (hvabove.exact hw).tail_chain (by rw [clockwise_congr hvabove.ring, hl])
    rw [hsucc, Option.bind_some] at hrest
    refine meta_add_copies sha y hs hnames (by simp [init_source, ho]) hk hx hchain (hw.pairwise hl) ?_ hv
      hvabove hrest
    intro n hn
    have hn' := hfits n (by rwa [show c = k.toNat - 1 by omega])
    exact hn'.congr (hvstores n (List.mem_of_mem_take hn))
  · rw [if_neg hk, if_neg (by simp)] at hrest
    cases hrest
    exact ⟨hv, hvabove⟩

/-- The entries of `p` and of the directories above it are those of `w`. -/
structure SameAbove (p : Path) (w w' : World) : Prop where
  ring : w'.ring = w.ring
  up : w'.up = w.up
  entries : ∀ u q, q <+: p → (w'.stores u).metadata.lookup q = (w.stores u).metadata.lookup q

theorem SameAbove.add_entry {w₀ : World} (h : SameAbove p w₀ w) (hp : p ≠ []) (y : Node) (entry : MetaSet) :
    SameAbove (parent_path p) w₀ (w.add_entry y p entry) := by
  refine ⟨h.ring, h.up, fun u q hq => ?_⟩
  have hne : q ≠ p := fun heq => parent_path_not_below hp (heq ▸ hq)
  rw [← h.entries u q (hq.trans (parent_path_le p)), World.add_entry]
  rcases eq_or_ne u y.uuid with rfl | hu
  · rw [set_stores_self, MetaStore.add_lookup_of_ne hne]
  · rw [set_stores_of_ne hu]

theorem SameAbove.reached {w₀ : World} (h : SameAbove p w₀ w) (q : Path) (k : UInt32) :
    reached sha w q k = reached sha w₀ q k := by
  rw [Fs.reached, Fs.reached, clockwise_congr h.ring]

theorem SameAbove.fits {w₀ : World} (h : SameAbove p w₀ w)
    (hfits : ∀ n ∈ Fs.reached sha w₀ p k, Fits (w₀.stores n.uuid) p names) :
    ∀ n ∈ Fs.reached sha w p k, Fits (w.stores n.uuid) p names := by
  intro n hn
  rw [h.reached] at hn
  exact (hfits n hn).congr (h.entries n.uuid p (List.prefix_refl _))

/-- The record of a directory for its parent. -/
theorem sent_create_directory {s : MetaSet} (hs : s ≠ []) (k : UInt32) (name : Name) :
    MetaSet.of_list ([MetaSet.create_directory (copied s k 0) name].map Metadata.sent) =
      copied [MetaSet.directory_record name] k 0 := by
  have hreplication := create_directory_replication (copied_ne_nil hs k 0)
    (fun m hm => by obtain ⟨m, -, rfl⟩ := List.mem_map.mp hm; rfl) name
  have heq : MetaSet.create_directory (copied s k 0) name =
      { MetaSet.directory_record name with replication := .copy k 0 } := by
    rw [← hreplication]
    rfl
  rw [heq]
  rfl

/-- An update that fits keeps all entries well formed. -/
theorem meta_add_keeps {w₀ : World} (h : Grows sha w₀ k p names) (fuel : Nat) {w w' : World} {y : Node}
    {o : Options} {s records : MetaSet} (hw : w.Exact) (hsame : SameAbove p w₀ w)
    (hy : w.successor (sha.uri p) = some y) (ho : o.source = none) (hs : Children puts p s)
    (hrecords : MetaSet.of_list (records.map Metadata.sent) = copied s k 0)
    (hnames : ∀ n, n ∈ (entry_of p s).map Metadata.name ↔ n ∈ names) (hsound : Sound puts w)
    (hcall : ignored (meta_add sha fuel w y p records o) = some w') : Sound puts w' ∧ w.Above p w' := by
  induction h generalizing fuel w w' y s records with
  | @known p names hfits hknown =>
    refine meta_add_at_owner sha hw hy ho hs hrecords hnames hsound (hsame.fits sha hfits) ?_ hcall
    -- nothing is added where all names are known
    intro hadded
    simp only [MetaStore.add, decide_eq_true_eq] at hadded
    obtain ⟨m, hm, hnot⟩ := hadded
    have hmem : m.name ∈ (entry_of p (copied s k 0)).map Metadata.name := List.mem_map_of_mem hm
    rw [entry_of_copied_names] at hmem
    obtain ⟨records, hlookup, hrecord⟩ :=
      hknown y (by rw [← successor_congr hsame.ring, hy]) _ ((hnames _).mp hmem)
    rw [hsame.entries _ _ (List.prefix_refl _), Option.mem_def.mp hlookup] at hnot
    exact absurd hrecord hnot
  | @root names hfits =>
    exact meta_add_at_owner sha hw hy ho hs hrecords hnames hsound (hsame.fits sha hfits)
      (fun _ hne => absurd rfl hne) hcall
  | @above p names hfits hparent ih =>
    refine meta_add_at_owner sha hw hy ho hs hrecords hnames hsound (hsame.fits sha hfits) ?_ hcall
    intro _ hne hsound' m node v hnode hcall
    have hp : p ≠ [] := fun hnil => hne (by rw [hnil]; rfl)
    exact ih m (hw.of_ring rfl rfl) (hsame.add_entry hp y _) hnode
      (Children.directory puts _ (filename p))
      (sent_create_directory hs.nonempty k (filename p)) (fun n => by rw [entry_of_directory]) hsound' hcall

/-! ## A file -/

theorem with_parent_directory {files made : Files} {uri : Path} (h : files.with_parent uri = some made)
    (huri : files.lookup uri = some .directory) : made.lookup uri = some .directory := by
  unfold Files.with_parent at h
  split at h
  · cases h
    exact huri
  · obtain ⟨hin, hout⟩ := Files.create_each_some h
    by_cases hmem : uri ∈ (parent_path uri).inits
    · exact hin uri hmem
    · rw [hout uri hmem, huri]

theorem receive_directory {store : Store} {uri : Path} {bytes : Bytes} {files made : Files} {b : Bool}
    (h : receive sha store uri bytes files = (made, b)) (huri : files.lookup uri = some .directory) :
    made.lookup uri = some .directory := by
  have hexists : files.exists_at uri := AList.lookup_isSome.mp (by rw [huri]; rfl)
  simp only [receive, if_pos hexists, Files.write, huri] at h
  split at h <;> cases h <;> exact huri

/-- What a request does: only files change, or the file is there with its record, and the parent
and the next copy are asked. -/
theorem put_cases {fuel : Nat} {self : Node} {uri : Path} {bytes : Bytes} {o : Options}
    (hrebalance : o.rebalance = false) (h : ignored (put sha (fuel + 1) w self uri bytes o) = some w') :
    (∃ files, w' = w.set self.uuid { w.stores self.uuid with files := files }) ∨
    (w.stores self.uuid).files.lookup uri ≠ some .directory ∧ ∃ files stored v,
      (if o.replication.index = 0 then
        (w.successor (sha.uri (parent_path uri))).bind fun node =>
          ignored (meta_add sha fuel
            (w.set self.uuid (written sha uri files stored o.replication (w.stores self.uuid))) node
              (parent_path uri)
            (parent_listing (file_record sha uri stored o.replication)) o)
      else some (w.set self.uuid (written sha uri files stored o.replication (w.stores self.uuid)))) =
        some v ∧
      (if o.replication.next.active then
        (v.successor self.uuid).bind fun node => ignored (client_put (put sha fuel) self v node uri stored
          (init_source self { o with replication := o.replication.next }))
      else some v) = some w' := by
  have hsame : w = w.set self.uuid { w.stores self.uuid with files := (w.stores self.uuid).files } :=
    (set_stores_eq w self.uuid).symm
  by_cases hup : self ∈ w.up
  · by_cases hsource : o.source = some self.uuid
    · simp [put, hup, hsource, ignored] at h
      exact Or.inl ⟨_, h.symm.trans hsame⟩
    cases hmade : (w.stores self.uuid).files.with_parent uri with
    | none =>
      rw [Files.with_parent] at hmade
      simp [put, hup, hsource, hmade, ignored] at h
      exact Or.inl ⟨_, h.symm.trans hsame⟩
    | some made =>
      obtain ⟨⟨files, received⟩, hreceive⟩ : ∃ r, receive sha (w.stores self.uuid) uri bytes made = r :=
        ⟨_, rfl⟩
      by_cases hstored : received = true ∧ ∃ stored, files.lookup uri = some (.regular stored)
      · obtain ⟨rfl, stored, hstored⟩ := hstored
        have hdisk : (w.stores self.uuid).files.lookup uri ≠ some .directory := by
          intro hdir
          have hlookup := receive_directory sha hreceive (with_parent_directory hmade hdir)
          rw [hstored] at hlookup
          cases hlookup
        refine Or.inr ⟨hdisk, files, stored, ?_⟩
        rw [put_received sha hup hsource hrebalance hmade hreceive hstored] at h
        exact ignored_bind_bind h
      · left
        refine ⟨files, ?_⟩
        rw [Files.with_parent] at hmade
        rw [put] at h
        simp only [if_neg (not_not_intro hup), if_neg hsource, hmade, hreceive] at h
        cases received with
        | false =>
          cases h
          rfl
        | true =>
          simp only at h
          split at h
          · rename_i stored hlookup
            exact absurd ⟨rfl, stored, hlookup⟩ hstored
          · cases h
            rfl
  · simp [put, hup, ignored] at h
    exact Or.inl ⟨_, h.symm.trans hsame⟩

/-! ## The copies of a file -/

variable {sha} {uri : Path}

theorem FilePath.parent_filename (h : FilePath uri) : parent_path uri ++ [filename uri] = uri := by
  rw [parent_path, filename, List.getLastD_eq_getLast?, List.getLast?_eq_some_getLast h.1, Option.getD_some,
    List.dropLast_append_getLast h.1]

theorem mem_parent_listing {r m : Metadata} (h : m ∈ parent_listing r) :
    m = r ∨ m.file_type = .directory ∧ (m.name = ['.'] ∨ m.name = ['.', '.']) := by
  rcases MetaSet.mem_insert h with rfl | h
  · exact Or.inr ⟨rfl, Or.inr rfl⟩
  · rcases MetaSet.mem_insert h with rfl | h
    · exact Or.inr ⟨rfl, Or.inl rfl⟩
    · exact Or.inl (List.mem_singleton.mp h)

theorem mem_parent_listing_names (r : Metadata) (n : Name) :
    n ∈ (parent_listing r).map Metadata.name ↔ n ∈ [r.name, ['.'], ['.', '.']] := by
  have hdot_dot : ((parent_listing r).find? fun m => m.name = ['.', '.']).isSome := by
    rw [parent_listing, MetaSet.find_insert]
    cases List.find? (fun m : Metadata => m.name = ['.', '.']) _ <;> rfl
  constructor
  · intro h
    obtain ⟨m, hm, rfl⟩ := List.mem_map.mp h
    rcases mem_parent_listing hm with rfl | ⟨-, hname⟩
    · exact List.mem_cons_self
    · rcases hname with hname | hname <;> simp [hname]
  · intro h
    rcases List.mem_cons.mp h with rfl | h
    · exact List.mem_map_of_mem (List.mem_of_find?_eq_some (find_parent_listing r))
    · rcases List.mem_cons.mp h with rfl | h
      · obtain ⟨m, hm, hname⟩ := dot_mem_parent_listing r
        exact List.mem_map.mpr ⟨m, hm, hname⟩
      · obtain rfl := List.mem_singleton.mp h
        simpa using hdot_dot

theorem entry_of_parent_listing {r : Metadata} (hname : Named r.name) (p : Path) (n : Name) :
    n ∈ (entry_of p (parent_listing r)).map Metadata.name ↔ n ∈ [r.name, ['.'], ['.', '.']] := by
  have hnot : ¬ is_mkdir p (parent_listing r) := fun h =>
    not_is_mkdir_parent_records (k := 0) hname p 0 ((is_mkdir_copied p _ 0 0).mpr h)
  rw [entry_of, if_neg hnot, mem_parent_listing_names]

theorem Children.parent_listing {r : Metadata} (hr : r.file_type = .regular) (hputs : p ++ [r.name] ∈ puts) :
    Children puts p (Fs.parent_listing r) := by
  refine ⟨parent_listing_ne_nil r, parent_listing_ordered r, fun m hm => ?_⟩
  rcases mem_parent_listing hm with rfl | ⟨hdir, -⟩
  · exact Or.inr ⟨hr, hputs⟩
  · exact Or.inl hdir

/-- The record of a file goes to an entry that is no listing. -/
theorem Sound.written (h : Sound puts w) (sha : Sha256) (huri : FilePath uri) {self : Node}
    (hlisting : ¬ HasListing (w.stores self.uuid) uri) (files : Files) (stored : Bytes)
    (replication : Replication) :
    Sound puts (w.set self.uuid (Fs.written sha uri files stored replication (w.stores self.uuid))) := by
  refine h.set fun q t hlookup => ?_
  rw [Fs.written] at hlookup
  rcases eq_or_ne q uri with rfl | hq
  · rw [MetaStore.lookup_add, merged_file huri.named.1] at hlookup
    · cases hlookup
      exact ⟨List.pairwise_singleton _ _, Or.inl ⟨_, rfl, rfl, rfl⟩⟩
    · cases hold : (w.stores self.uuid).metadata.lookup q with
      | none => exact Or.inl rfl
      | some t =>
        obtain ⟨m, rfl, -, hname⟩ := (h self.uuid q t hold).2.resolve_right fun hform =>
          hlisting ⟨t, hold, hform.is_directory⟩
        exact Or.inr ⟨m, rfl, hname⟩
  · rw [MetaStore.add_lookup_of_ne hq] at hlookup
    exact h self.uuid q t hlookup

theorem Sound.set_files (h : Sound puts w) (u : Uuid) (files : Files) :
    Sound puts (w.set u { w.stores u with files := files }) := h.set (h u)

theorem put_copies_keep {src x : Node} {l : List Node} {fuel : Nat} {bytes : Bytes} {w₀ : World}
    (huri : FilePath uri) (hk : 1 < k.toNat) (hx : (l ++ [src]).head? = some x)
    (hchain : (l ++ [src]).IsChain fun a b => w.successor a.uuid = some b)
    (hl : (l ++ [src]).Pairwise fun x y => x.uuid ≠ y.uuid)
    (hready : ∀ x ∈ l.take (k.toNat - 1), HasListing (w.stores x.uuid) uri →
      (w.stores x.uuid).files.lookup uri = some .directory)
    (hsound : Sound puts w) (hring : w.ring = w₀.ring) (hup : w.up = w₀.up)
    (hcall : ignored (put sha fuel w x uri bytes { replication := .copy k 1, source := some src.uuid }) =
    some w') :
    Sound puts w' ∧ w'.ring = w₀.ring ∧ w'.up = w₀.up := by
  refine relayed_keeps (fun w => Sound puts w ∧ w.ring = w₀.ring ∧ w.up = w₀.up)
    (fun store => HasListing store uri → store.files.lookup uri = some .directory)
    (fun fuel w x i w' => ∃ bytes,
      ignored (put sha fuel w x uri bytes { replication := .copy k (i + 1), source := some src.uuid }) =
        some w')
    (k := k.toNat - 1) (i := 0) ?_ ?_ ?_ (by omega) hx hchain hl hready
    ⟨hsound, hring, hup⟩ ⟨bytes, hcall⟩
  · rintro fuel w x y i w' ⟨hsound, hring, hup⟩ hxs hi hready hnext ⟨bytes, hcall⟩
    have hindex : (Replication.copy k (i + 1)).index ≠ 0 :=
      Replication.index_copy_ne_zero (by omega) (by omega)
    rcases put_cases sha rfl hcall with ⟨files, rfl⟩ | ⟨hdisk, files, stored, v, hv, hrest⟩
    · exact Or.inl ⟨hsound.set_files x.uuid files, hring, hup⟩
    rw [if_neg hindex] at hv
    cases hv
    have hsound' := hsound.written sha huri (fun h => hdisk (hready h)) files stored (.copy k (i + 1))
    rw [if_congr (Replication.next_copy_active (by omega : i + 1 < max 1 k.toNat)) rfl rfl] at hrest
    split at hrest
    · rw [set_successor, hnext, Option.bind_some, client_put, Replication.next_copy] at hrest
      split at hrest
      · cases hrest
        exact Or.inl ⟨hsound', hring, hup⟩
      · exact Or.inr ⟨by omega, _, ⟨hsound', hring, hup⟩, rfl, fun u hu => set_stores_of_ne hu, stored, hrest⟩
    · cases hrest
      exact Or.inl ⟨hsound', hring, hup⟩
  · rintro w x i w' ⟨bytes, hcall⟩
    cases hcall
  · rintro fuel w i w' ⟨bytes, hcall⟩
    have hsource : ignored (put sha (fuel + 1) w src uri bytes
        { replication := .copy k (i + 1), source := some src.uuid }) = some w := by
      by_cases hup : src ∈ w.up <;> simp [put, hup, ignored]
    exact Option.some.inj (hcall.symm.trans hsource)

/-- A put that fits keeps all entries well formed. -/
theorem put_keeps {fuel : Nat} {bytes : Bytes} {x : Node} (hw : w.Exact) (huri : uri ≠ [] → FilePath uri)
    (h : PutFits sha w uri k) (hsound : Sound puts w) (hx : w.successor (sha.uri uri) = some x)
    (hcall : ignored (put sha fuel w x uri bytes { replication := .copy k 0 }) = some w') :
    Sound (uri :: puts) w' ∧ w'.ring = w.ring ∧ w'.up = w.up := by
  have hsound : Sound (uri :: puts) w := fun u q s hlookup =>
    (hsound u q s hlookup).imp_right fun h => h.mono (List.subset_cons_self _ _)
  cases fuel with
  | zero => cases hcall
  | succ fuel =>
    rcases put_cases sha rfl hcall with ⟨files, rfl⟩ | ⟨hdisk, files, stored, v, hv, hrest⟩
    · exact ⟨hsound.set_files x.uuid files, rfl, rfl⟩
    obtain ⟨hne, hready, hgrows⟩ := h.resolve_left fun hdir => hdisk (hdir x hx)
    have huri := huri hne
    obtain ⟨z, rest, hl⟩ := hw.exists_owner (sha.uri uri)
    obtain rfl : z = x := Option.some.inj ((hw.successor_owner hl).symm.trans hx)
    obtain ⟨c, hc⟩ : ∃ c, max 1 k.toNat = c + 1 := ⟨max 1 k.toNat - 1, by omega⟩
    rw [reached, hl, hc, List.take_succ_cons] at hready
    obtain ⟨hz, hready⟩ := List.forall_mem_cons.mp hready
    -- the owner, and the listing of the parent
    have hsound₁ := hsound.written sha huri (fun h => hdisk (hz h)) files stored (.copy k 0)
    have hsame : SameAbove (parent_path uri) w
        (w.set z.uuid (written sha uri files stored (.copy k 0) (w.stores z.uuid))) := by
      refine ⟨rfl, rfl, fun u q hq => ?_⟩
      have hq : q ≠ uri := fun heq => parent_path_not_below hne (heq ▸ hq)
      rcases eq_or_ne u z.uuid with rfl | hu
      · rw [set_stores_self, written, MetaStore.add_lookup_of_ne hq]
      · rw [set_stores_of_ne hu]
    rw [if_pos (by rfl)] at hv
    obtain ⟨y, hy, hv⟩ := Option.bind_eq_some_iff.mp hv
    have hchildren : Children (uri :: puts) (parent_path uri)
        (parent_listing (file_record sha uri stored (.copy k 0))) :=
      Children.parent_listing rfl (by rw [file_record, huri.parent_filename]; exact List.mem_cons_self)
    have hw₁ : (w.set z.uuid (written sha uri files stored (.copy k 0) (w.stores z.uuid))).Exact :=
      hw.of_ring rfl rfl
    obtain ⟨hsound₂, habove⟩ := meta_add_keeps sha hgrows fuel hw₁ hsame hy rfl hchildren
      (copied_zero (parent_listing_ordered _) (parent_listing_replication rfl))
      (entry_of_parent_listing huri.named (parent_path uri)) hsound₁ hv
    have hring : v.ring = w.ring := habove.ring
    have hup : v.up = w.up := habove.up
    rw [if_congr (Replication.next_copy_active (by omega)) rfl rfl] at hrest
    split at hrest
    · rename_i hk
      have hv : v.Exact := habove.exact hw₁
      obtain ⟨n, hn, hsucc, hchain⟩ := hv.tail_chain (by rw [clockwise_congr hring, hl])
      rw [hsucc, Option.bind_some, client_put, Replication.next_copy] at hrest
      split at hrest
      · cases hrest
        exact ⟨hsound₂, hring, hup⟩
      · refine put_copies_keep huri hk hn hchain (hw.pairwise hl) (fun n hn => ?_) hsound₂ hring hup hrest
        -- the parent's update leaves the entries and files of `uri` alone
        have hne : n.uuid ≠ z.uuid :=
          (List.pairwise_append.mp (hw.pairwise hl)).2.2 n (List.mem_of_mem_take hn) z
          List.mem_cons_self
        have hstore := habove.stores n.uuid
        rw [set_stores_of_ne hne] at hstore
        have hready := hready n (by rwa [show c = k.toNat - 1 by omega])
        rw [HasListing, hstore.metadata uri (parent_path_not_below huri.1), hstore.files]
        exact hready
    · cases hrest
      exact ⟨hsound₂, hring, hup⟩

end

end Fs

end Chord
