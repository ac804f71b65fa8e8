import Chord.Fs.Restore

/-!
# Updates that change nothing

A request is refused by an entry with the same names, types and hashes. It can also be accepted and find all of
its records there, with `.` and `..` of its own replication.
-/

open Circle

namespace Chord

namespace Fs

open World

/-! ## The same files and entries -/

/-- Nothing that can be looked up is another one. -/
structure Unchanged (w w' : World) : Prop where
  ring : w'.ring = w.ring
  up : w'.up = w.up
  files : ∀ u p, (w'.stores u).files.lookup p = (w.stores u).files.lookup p
  entries : ∀ u p, SameEntry u p w w'

namespace Unchanged

variable {w v z : World}

theorem refl (w : World) : Unchanged w w := ⟨rfl, rfl, fun _ _ => rfl, fun _ _ => rfl⟩

theorem symm (h : Unchanged w v) : Unchanged v w :=
  ⟨h.ring.symm, h.up.symm, fun u p => (h.files u p).symm, fun u p => (h.entries u p).symm⟩

theorem trans (h : Unchanged w v) (h' : Unchanged v z) : Unchanged w z :=
  ⟨h'.ring.trans h.ring, h'.up.trans h.up, fun u p => (h'.files u p).trans (h.files u p),
    fun u p => (h'.entries u p).trans (h.entries u p)⟩

theorem set {u : Uuid} {store : Store} (hfiles : ∀ p, store.files.lookup p = (w.stores u).files.lookup p)
    (hentries : ∀ p, store.metadata.lookup p = (w.stores u).metadata.lookup p) :
    Unchanged w (w.set u store) := by
  refine ⟨rfl, rfl, fun v p => ?_, fun v p => ?_⟩
  · rcases eq_or_ne v u with rfl | hv
    · rw [set_stores_self, hfiles]
    · rw [set_stores_of_ne hv]
  · unfold SameEntry
    rcases eq_or_ne v u with rfl | hv
    · rw [set_stores_self, hentries]
    · rw [set_stores_of_ne hv]

theorem exact (h : Unchanged w v) (hw : w.Exact) : v.Exact := hw.of_ring h.ring h.up

/-- A record that does not change its entry does not change anything. -/
theorem add {u : Uuid} {files : Files} {p : Path} {existing entry : MetaSet}
    (hfiles : ∀ q, files.lookup q = (w.stores u).files.lookup q)
    (hlookup : (w.stores u).metadata.lookup p = some existing)
    (hmerged : MetaSet.merged existing entry = existing) :
    Unchanged w (w.set u { w.stores u with files := files, metadata := ((w.stores u).metadata.add p entry).1 }) := by
  apply set hfiles
  intro q
  rcases eq_or_ne q p with rfl | hq
  · rw [MetaStore.lookup_add, hlookup, Option.getD_some, hmerged]
  · exact MetaStore.add_lookup_of_ne hq

end Unchanged

/-! ## One entry -/

/-- The records of an update are in the entry, and its `.` and `..` have the replication of the update. -/
def HasRecords (existing metadata : MetaSet) : Prop :=
  if (∃ m ∈ existing, m.name = ['.']) ∨ ∃ m ∈ metadata, m.name = ['.'] then
    (∀ m ∈ metadata, Named m.name → m ∈ existing) ∧ MetaSet.create_directory metadata ['.'] ∈ existing ∧
      MetaSet.create_directory metadata ['.', '.'] ∈ existing
  else ∀ m ∈ metadata, m ∈ existing

instance (existing metadata : MetaSet) : Decidable (HasRecords existing metadata) :=
  inferInstanceAs (Decidable (ite _ _ _))

theorem merged_eq_iff {old metadata : MetaSet} (hold : old.Ordered) (h : metadata.Ordered) :
    MetaSet.merged old metadata = old ↔ HasRecords old metadata := by
  have hrecords := fun name => @MetaSet.records_merged_all old metadata h name
  have hname : ∀ n, (MetaSet.create_directory metadata n).name = n := fun _ => rfl
  have hmem : ∀ m ∈ metadata, (metadata.records m.name) = some m :=
    fun m hm => (Database.mem_iff_records h m).mp hm
  unfold HasRecords
  simp only [← List.mem_map]
  constructor
  · intro heq
    rw [heq] at hrecords
    split
    · rename_i hdot
      refine ⟨fun m hm hnamed => ?_, ?_, ?_⟩
      · have hsame := hrecords m.name
        rw [if_neg fun hand => hand.2.elim hnamed.1 hnamed.2, hmem m hm, Option.some_or] at hsame
        exact (Database.mem_iff_records hold m).mpr hsame
      · have hsame := hrecords ['.']
        rw [if_pos ⟨hdot, Or.inl rfl⟩] at hsame
        exact List.mem_of_find?_eq_some hsame
      · have hsame := hrecords ['.', '.']
        rw [if_pos ⟨hdot, Or.inr rfl⟩] at hsame
        exact List.mem_of_find?_eq_some hsame
    · rename_i hdot
      intro m hm
      have hsame := hrecords m.name
      rw [if_neg fun hand => hdot hand.1, hmem m hm, Option.some_or] at hsame
      exact (Database.mem_iff_records hold m).mpr hsame
  · intro hthere
    refine (hold.merged metadata).ext hold fun name => ?_
    rw [hrecords]
    have hother : (∀ m ∈ metadata, m.name = name → m ∈ old) →
        (metadata.records name).or (old.records name) = old.records name := by
      intro hin
      cases hfind : metadata.records name with
      | none => rw [Option.none_or]
      | some m =>
        have hm : m.name = name := Database.records_name hfind
        have hmold := hin m (List.mem_of_find?_eq_some hfind) hm
        rw [Option.some_or, ← hm, (Database.mem_iff_records hold m).mp hmold]
    split at hthere
    · rename_i hdot
      obtain ⟨hnamed, hone, htwo⟩ := hthere
      split
      · rename_i hcond
        rcases hcond.2 with rfl | rfl
        · exact ((Database.mem_iff_records hold _).mp hone).symm
        · exact ((Database.mem_iff_records hold _).mp htwo).symm
      · rename_i hcond
        refine hother fun m hm hmname => hnamed m hm ?_
        rw [hmname]
        exact ⟨fun hdots => hcond ⟨hdot, Or.inl hdots⟩, fun hdots => hcond ⟨hdot, Or.inr hdots⟩⟩
    · rename_i hdot
      rw [if_neg fun hand => hdot hand.1]
      exact hother fun m hm _ => hthere m hm

theorem not_added_of_merged {store : MetaStore} {p : Path} {existing entry : MetaSet}
    (hlookup : store.lookup p = some existing) (hmerged : MetaSet.merged existing entry = existing) :
    (store.add p entry).2 = false := by
  have hnames : ∀ m ∈ entry, m.name ∈ existing.map Metadata.name := by
    intro m hm
    have hname := @MetaSet.names_foldl_insert_or_assign entry existing m.name
        (Or.inr (List.mem_map_of_mem hm))
    rw [← hmerged]
    unfold MetaSet.merged
    dsimp only
    split
    · exact name_mem_insert_or_assign _ (name_mem_insert_or_assign _ hname)
    · exact hname
  simp only [MetaStore.add, hlookup, Option.getD_some, decide_eq_false_iff_not, not_exists, not_and, not_not]
  exact hnames

/-! ## Records that come over the wire -/

/-- A request as its receiver has it. -/
def Arrived (metadata : MetaSet) : Prop := metadata.Ordered ∧ ∀ m ∈ metadata, m.sent = m

namespace Arrived

theorem of_list (records : MetaSet) : Arrived (MetaSet.of_list (records.map Metadata.sent)) := by
  refine ⟨Database.of_list_is_ordered _, fun m hm => ?_⟩
  obtain ⟨x, -, rfl⟩ := List.mem_map.mp (MetaSet.mem_of_list hm)
  rfl

theorem again {metadata : MetaSet} (h : Arrived metadata) :
    MetaSet.of_list (metadata.map Metadata.sent) = metadata := by
  have hsent : metadata.map Metadata.sent = metadata := by
    conv_rhs => rw [← List.map_id metadata]
    exact List.map_congr_left h.2
  rw [hsent, MetaSet.of_list_ordered h.1]

theorem next {metadata : MetaSet} (h : Arrived metadata) :
    Arrived (MetaSet.increase_replication_and_clean metadata) := by
  constructor
  · have hordered := (@MetaSet.ordered_map metadata (fun m => { m with replication := m.replication.next })
      fun _ => rfl).mpr h.1
    exact List.Pairwise.filter _ hordered
  · intro m hm
    obtain ⟨x, hx, rfl⟩ := List.mem_map.mp (List.mem_of_mem_filter hm)
    have hsent := h.2 x hx
    conv_rhs => rw [← hsent]
    rfl

end Arrived

/-! ## A request from node to node -/

/-- The entry of `p` at every node. -/
def World.entry_at (w : World) (p : Path) (n : Node) : Option MetaSet := (w.stores n.uuid).metadata.lookup p

theorem Unchanged.entry_at {w v : World} (h : Unchanged w v) (p : Path) : v.entry_at p = w.entry_at p := by
  funext n
  exact h.entries n.uuid p

/-- Every node that the request reaches has its records, up to the first one that refuses it. -/
def Absorbs (entry : Node → Option MetaSet) (p : Path) : MetaSet → List Node → Prop
  | _, [] => True
  | metadata, n :: l =>
    metadata = [] ∨ (∃ existing ∈ entry n, MetaSet.equal_basic existing metadata) ∨
      (∃ existing ∈ entry n, HasRecords existing (entry_of p metadata)) ∧
        Absorbs entry p (MetaSet.increase_replication_and_clean metadata) l

instance instDecidableAbsorbs (entry : Node → Option MetaSet) (p : Path) :
    (metadata : MetaSet) → (l : List Node) →
    Decidable (Absorbs entry p metadata l)
  | _, [] => inferInstanceAs (Decidable True)
  | metadata, _ :: l =>
    have := instDecidableAbsorbs entry p (MetaSet.increase_replication_and_clean metadata) l
    inferInstanceAs (Decidable (_ ∨ _ ∨ _ ∧ _))

theorem Absorbs.nil (entry : Node → Option MetaSet) (p : Path) (l : List Node) : Absorbs entry p [] l := by
  cases l with
  | nil => trivial
  | cons n l => exact Or.inl rfl

section

variable {sha : Sha256} {w w' : World} {p : Path} {metadata : MetaSet}

/-- What `meta_add` does after the update of a node that has its records already. -/
def next_copy (sha : Sha256) (fuel : Nat) (w : World) (self : Node) (p : Path) (metadata : MetaSet)
    (o : Options) : Option World :=
  if MetaSet.increase_replication_and_clean metadata ≠ [] then
    (w.successor self.uuid).bind fun node =>
      ignored (meta_add sha fuel w node p (MetaSet.increase_replication_and_clean metadata)
        (init_source self o))
  else some w

theorem meta_add_refused {fuel : Nat} {self : Node} {records : MetaSet} {o : Options}
    (hrecords : MetaSet.of_list (records.map Metadata.sent) = metadata)
    (h : o.source = some self.uuid ∨ metadata = [] ∨
    ∃ existing ∈ w.entry_at p self, MetaSet.equal_basic existing metadata) :
    ignored (meta_add sha (fuel + 1) w self p records o) = some w := by
  unfold meta_add
  dsimp only
  rw [hrecords]
  split
  · rfl
  split
  · rfl
  rename_i hnot
  split
  · rfl
  rename_i hne
  split
  · rfl
  · rename_i hnew
    exact absurd ((h.resolve_left hnot).resolve_left hne) hnew

variable (sha) in
theorem meta_add_has_records (fuel : Nat) {self : Node} {records existing : MetaSet} {o : Options}
    (hrecords : MetaSet.of_list (records.map Metadata.sent) = metadata) (hup : self ∈ w.up)
    (hnot : o.source ≠ some self.uuid) (hne : metadata ≠ [])
    (hnew : ∀ existing ∈ w.entry_at p self, ¬ MetaSet.equal_basic existing metadata)
    (hlookup : w.entry_at p self = some existing)
    (hmerged : MetaSet.merged existing (entry_of p metadata) = existing) :
    ignored (meta_add sha (fuel + 1) w self p records o) =
      next_copy sha fuel (w.add_entry self p (entry_of p metadata)) self p metadata o ∧
      Unchanged w (w.add_entry self p (entry_of p metadata)) := by
  have hadded : ((w.stores self.uuid).metadata.add p (entry_of p metadata)).2 = false :=
    not_added_of_merged hlookup hmerged
  refine ⟨?_, Unchanged.add (fun _ => rfl) hlookup hmerged⟩
  rw [meta_add_accepted sha hrecords hup hnot hne hnew (show _ = entry_of p metadata from rfl), hadded,
    if_neg (by simp)]
  exact ignored_bind_some _ _

/-- A request that is accepted and leaves the entry as it is has found its records there. -/
theorem merged_of_same {fuel : Nat} {self : Node} {records : MetaSet} {o : Options} (hself : self ∈ w.ring)
    (hrecords : MetaSet.of_list (records.map Metadata.sent) = metadata) (hup : self ∈ w.up)
    (hnot : o.source ≠ some self.uuid) (hne : metadata ≠ [])
    (hnew : ∀ existing ∈ w.entry_at p self, ¬ MetaSet.equal_basic existing metadata)
    (hsource : ∀ s ∈ o.source, ∃ n ∈ w.ring, n.uuid = s)
    (hcall : ignored (meta_add sha (fuel + 1) w self p records o) = some w')
    (hsame : SameEntry self.uuid p w w') :
    ∃ existing, w.entry_at p self = some existing ∧
      MetaSet.merged existing (entry_of p metadata) = existing := by
  obtain ⟨⟨z, status⟩, hreply, hz⟩ := Option.map_eq_some_iff.mp hcall
  cases hz
  obtain ⟨-, hstored⟩ := meta_add_leaves_entry hself hrecords hup hnot hne hnew hsource hreply
  rw [hsame] at hstored
  refine ⟨_, hstored, ?_⟩
  rw [hstored, Option.getD_some] at hstored
  exact (Option.some.inj hstored).symm

variable (sha) in
/-- The turn of one node: it refuses the request, or has its records and passes it on. -/
theorem Absorbs.step {x : Node} {l : List Node} (fuel : Nat) {records : MetaSet} (o : Options)
    (h : Absorbs (w.entry_at p) p metadata (x :: l))
    (hrecords : MetaSet.of_list (records.map Metadata.sent) = metadata)
    (hsets : ∀ n, ∀ e ∈ w.entry_at p n, MetaSet.Ordered e) (hup : x ∈ w.up) (hnot : o.source ≠ some x.uuid) :
    ignored (meta_add sha (fuel + 1) w x p records o) = some w ∨ ∃ v, Unchanged w v ∧
      Absorbs (v.entry_at p) p (MetaSet.increase_replication_and_clean metadata) l ∧
      ignored (meta_add sha (fuel + 1) w x p records o) = next_copy sha fuel v x p metadata o := by
  by_cases hrefused : metadata = [] ∨ ∃ existing ∈ w.entry_at p x, MetaSet.equal_basic existing metadata
  · exact Or.inl (meta_add_refused hrecords (Or.inr hrefused))
  obtain ⟨hempty, hnew⟩ := not_or.mp hrefused
  obtain ⟨⟨existing, hlookup, hhas⟩, hrest⟩ := (h.resolve_left hempty).resolve_left hnew
  have hordered : metadata.Ordered := hrecords ▸ Database.of_list_is_ordered _
  have hmerged := (merged_eq_iff (hsets x existing hlookup) (entry_of_ordered hordered p)).mpr hhas
  obtain ⟨hcall, hsame⟩ := meta_add_has_records sha fuel hrecords hup hnot hempty
    (fun existing hmem heq => hnew ⟨existing, hmem, heq⟩) hlookup hmerged
  exact Or.inr ⟨_, hsame, by rwa [hsame.entry_at], hcall⟩

theorem absorbs_step {x : Node} {fuel : Nat} {records : MetaSet} {o : Options}
    (hrecords : MetaSet.of_list (records.map Metadata.sent) = metadata)
    (hsets : ∀ n, ∀ e ∈ w.entry_at p n, MetaSet.Ordered e) (hx : x ∈ w.ring) (hup : x ∈ w.up)
    (hnot : o.source ≠ some x.uuid) (hsource : ∀ s ∈ o.source, ∃ n ∈ w.ring, n.uuid = s)
    (hcall : ignored (meta_add sha fuel w x p records o) = some w') (hsame : SameEntry x.uuid p w w') :
    metadata = [] ∨ (∃ existing ∈ w.entry_at p x, MetaSet.equal_basic existing metadata) ∨
      (∃ existing ∈ w.entry_at p x, HasRecords existing (entry_of p metadata)) ∧
        ∃ fuel v, Unchanged w v ∧ next_copy sha fuel v x p metadata o = some w' := by
  cases fuel with
  | zero => cases hcall
  | succ fuel =>
    by_cases hempty : metadata = []
    · exact Or.inl hempty
    by_cases hold : ∃ existing ∈ w.entry_at p x, MetaSet.equal_basic existing metadata
    · exact Or.inr (Or.inl hold)
    have hnew : ∀ existing ∈ w.entry_at p x, ¬ MetaSet.equal_basic existing metadata :=
      fun existing hlookup heq => hold ⟨existing, hlookup, heq⟩
    have hordered : metadata.Ordered := hrecords ▸ Database.of_list_is_ordered _
    obtain ⟨existing, hlookup, hmerged⟩ := merged_of_same hx hrecords hup hnot hempty hnew hsource hcall hsame
    obtain ⟨hnext, hunchanged⟩ := meta_add_has_records sha fuel hrecords hup hnot hempty hnew hlookup hmerged
    have hhas := (merged_eq_iff (hsets x existing hlookup) (entry_of_ordered hordered p)).mp hmerged
    exact Or.inr (Or.inr ⟨⟨existing, hlookup, hhas⟩, fuel, _, hunchanged, by rw [← hnext, hcall]⟩)

/-- The copies of a request, from the node `x` to the one where it started. -/
theorem Absorbs.copies {s x : Node} {l : List Node} {fuel : Nat} {o : Options}
    (h : Absorbs (w.entry_at p) p metadata l) (hmetadata : Arrived metadata)
    (hsets : ∀ n, ∀ e ∈ w.entry_at p n, MetaSet.Ordered e) (ho : o.source = some s.uuid)
    (hfuel : l.length < fuel) (hx : (l ++ [s]).head? = some x)
    (hchain : (l ++ [s]).IsChain fun a b => w.successor a.uuid = some b)
    (hl : (l ++ [s]).Pairwise fun x y => x.uuid ≠ y.uuid) (hup : ∀ x ∈ l, x ∈ w.up) :
    ∃ w', ignored (meta_add sha fuel w x p metadata o) = some w' ∧ Unchanged w w' := by
  obtain ⟨fuel, rfl⟩ := Nat.exists_eq_succ_of_ne_zero (by omega : fuel ≠ 0)
  induction l generalizing w fuel x metadata with
  | nil =>
    cases hx
    exact ⟨w, meta_add_refused hmetadata.again (Or.inl ho), .refl w⟩
  | cons z l ih =>
    obtain rfl : z = x := by simpa using hx
    obtain ⟨fuel, rfl⟩ := Nat.exists_eq_succ_of_ne_zero (by rw [List.length_cons] at hfuel; omega : fuel ≠ 0)
    obtain ⟨hne, hl⟩ := List.pairwise_cons.mp hl
    obtain ⟨y, hy, hnext, hchain⟩ := chain_next hchain
    have hnot : o.source ≠ some z.uuid := fun heq => hne s (by simp) (Option.some.inj (heq.symm.trans ho))
    rcases h.step sha (fuel + 1) o hmetadata.again hsets (hup z List.mem_cons_self) hnot with
      hcall | ⟨v, hsame, hrest, hcall⟩
    · exact ⟨w, hcall, .refl w⟩
    rw [hcall, next_copy]
    split
    · rw [successor_congr hsame.ring, hnext, Option.bind_some, init_source_of_source ho]
      rw [← hsame.entry_at] at hsets
      obtain ⟨w', hw', hsame'⟩ :=
        ih hrest hmetadata.next hsets hy (by simpa only [successor_congr hsame.ring] using hchain) hl
        (fun n hn => hsame.up ▸ hup n (List.mem_cons_of_mem _ hn)) fuel (by simpa using hfuel)
      exact ⟨w', hw', hsame.trans hsame'⟩
    · exact ⟨_, rfl, hsame⟩

theorem absorbs_of_copies {s x : Node} {l : List Node} {fuel : Nat} {o : Options}
    (hmetadata : Arrived metadata) (hsets : ∀ n, ∀ e ∈ w.entry_at p n, MetaSet.Ordered e)
    (ho : o.source = some s.uuid) (hx : (l ++ [s]).head? = some x)
    (hchain : (l ++ [s]).IsChain fun a b => w.successor a.uuid = some b)
    (hl : (l ++ [s]).Pairwise fun x y => x.uuid ≠ y.uuid) (hup : ∀ x ∈ l, x ∈ w.up)
    (hring : ∀ x ∈ l ++ [s], x ∈ w.ring) (hcall : ignored (meta_add sha fuel w x p metadata o) = some w')
    (hsame : ∀ n ∈ l, SameEntry n.uuid p w w') :
    Absorbs (w.entry_at p) p metadata l := by
  induction l generalizing w fuel x metadata with
  | nil => trivial
  | cons z l ih =>
    obtain rfl : z = x := by simpa using hx
    obtain ⟨hne, hl⟩ := List.pairwise_cons.mp hl
    obtain ⟨y, hy, hnext, hchain⟩ := chain_next hchain
    have hnot : o.source ≠ some z.uuid := fun heq => hne s (by simp) (Option.some.inj (heq.symm.trans ho))
    have hmember : ∀ u ∈ o.source, ∃ n ∈ w.ring, n.uuid = u := by
      intro u hu
      rw [ho] at hu
      cases hu
      exact ⟨s, hring s (by simp), rfl⟩
    refine (absorbs_step hmetadata.again hsets (hring z (by simp))
      (hup z List.mem_cons_self) hnot hmember hcall
      (hsame z List.mem_cons_self)).imp_right fun h => h.imp_right fun ⟨hhas, fuel, v, hv, hrest⟩ =>
        ⟨hhas, ?_⟩
    rw [next_copy] at hrest
    split at hrest
    · rw [successor_congr hv.ring, hnext, Option.bind_some, init_source_of_source ho] at hrest
      rw [← hv.entry_at] at hsets ⊢
      exact ih hmetadata.next hsets hy (by simpa only [successor_congr hv.ring] using hchain) hl
        (fun n hn => hv.up ▸ hup n (List.mem_cons_of_mem _ hn))
          (fun n hn => hv.ring ▸ hring n (List.mem_cons_of_mem _ hn)) hrest
        fun n hn => (hsame n (List.mem_cons_of_mem _ hn)).trans (hv.symm.entries n.uuid p)
    · rename_i hlast
      rw [not_not.mp hlast]
      exact Absorbs.nil _ _ _

variable (sha) in
/-- The copies of a request that a client has sent to the owner. -/
theorem Absorbs.next_copy {id : Uuid} {x : Node} {rest : List Node} (fuel : Nat) (o : Options)
    (h : Absorbs (w.entry_at p) p (MetaSet.increase_replication_and_clean metadata) rest) (hw : w.Exact)
    (hl : w.clockwise id = x :: rest) (hmetadata : Arrived metadata)
    (hsets : ∀ n, ∀ e ∈ w.entry_at p n, MetaSet.Ordered e) (ho : o.source = none)
    (hfuel : w.ring.length ≤ fuel) :
    ∃ w', next_copy sha fuel w x p metadata o = some w' ∧ Unchanged w w' := by
  unfold Fs.next_copy
  split
  · obtain ⟨y, hy, hsucc, hchain⟩ := hw.tail_chain hl
    have hlength : rest.length < w.ring.length := by
      rw [← w.length_clockwise id, hl]
      exact Nat.lt_succ_self _
    rw [hsucc, Option.bind_some]
    exact h.copies hmetadata.next hsets (by simp [init_source, ho]) (by omega) hy hchain (hw.pairwise hl)
      fun n hn => hw.up n (mem_clockwise.mp (hl ▸ List.mem_cons_of_mem x hn))
  · exact ⟨w, rfl, .refl w⟩

theorem absorbs_of_next_copy {id : Uuid} {x : Node} {rest : List Node} {fuel : Nat} {o : Options}
    (hw : w.Exact) (hl : w.clockwise id = x :: rest) (hmetadata : Arrived metadata)
    (hsets : ∀ n, ∀ e ∈ w.entry_at p n, MetaSet.Ordered e) (ho : o.source = none)
    (hcall : next_copy sha fuel w x p metadata o = some w') (hsame : ∀ n ∈ rest, SameEntry n.uuid p w w') :
    Absorbs (w.entry_at p) p (MetaSet.increase_replication_and_clean metadata) rest := by
  rw [next_copy] at hcall
  split at hcall
  · obtain ⟨y, hy, hsucc, hchain⟩ := hw.tail_chain hl
    have hmem : ∀ n ∈ x :: rest, n ∈ w.ring := fun n hn => mem_clockwise.mp (hl ▸ hn)
    rw [hsucc, Option.bind_some] at hcall
    exact absorbs_of_copies hmetadata.next hsets (by simp [init_source, ho]) hy hchain (hw.pairwise hl)
      (fun n hn => hw.up n (hmem n (List.mem_cons_of_mem _ hn)))
        (fun n hn => hmem n (by simpa [or_comm] using hn)) hcall hsame
  · rename_i hlast
    rw [not_not.mp hlast]
    exact Absorbs.nil _ _ _

theorem next_copy_keeps_entry {x : Node} {fuel : Nat} {o : Options} (hx : x ∈ w.ring) (ho : o.source = none)
    (hcall : next_copy sha fuel w x p metadata o = some w') : SameEntry x.uuid p w w' := by
  rw [next_copy] at hcall
  split at hcall
  · obtain ⟨node, hnode, hcall⟩ := Option.bind_eq_some_iff.mp hcall
    have hfirst : FirstAfter Node.uuid w.ring x.uuid node := firstAfter_argmin hnode
    exact meta_add_copies_keep_entry hx (by rw [init_source, ho]; rfl) (hfirst.2 x hx) hcall
  · cases hcall
    rfl

variable (sha) in
/-- A request that a client sends to the owner. -/
theorem Absorbs.request {id : Uuid} {x : Node} {rest : List Node} {fuel : Nat} {records : MetaSet}
    (o : Options) (h : Absorbs (w.entry_at p) p metadata (x :: rest)) (hw : w.Exact)
    (hl : w.clockwise id = x :: rest) (hrecords : MetaSet.of_list (records.map Metadata.sent) = metadata)
    (hsets : ∀ n, ∀ e ∈ w.entry_at p n, MetaSet.Ordered e) (ho : o.source = none)
    (hfuel : w.ring.length < fuel) :
    ∃ w', ignored (meta_add sha fuel w x p records o) = some w' ∧ Unchanged w w' := by
  obtain ⟨fuel, rfl⟩ := Nat.exists_eq_succ_of_ne_zero (by omega : fuel ≠ 0)
  have hx : x ∈ w.ring := mem_clockwise.mp (hl ▸ List.mem_cons_self)
  rcases h.step sha fuel o hrecords hsets (hw.up x hx) (by simp [ho]) with hcall | ⟨v, hv, hrest, hcall⟩
  · exact ⟨w, hcall, .refl w⟩
  rw [← hv.entry_at] at hsets
  obtain ⟨w', hw', hsame⟩ := hrest.next_copy sha fuel o (hv.exact hw) (by rw [clockwise_congr hv.ring, hl])
    (hrecords ▸ Arrived.of_list records) hsets ho (by rw [hv.ring]; omega)
  exact ⟨w', hcall.trans hw', hv.trans hsame⟩

theorem absorbs_of_request {id : Uuid} {x : Node} {rest : List Node} {fuel : Nat} {records : MetaSet}
    {o : Options} (hw : w.Exact) (hl : w.clockwise id = x :: rest)
    (hrecords : MetaSet.of_list (records.map Metadata.sent) = metadata)
    (hsets : ∀ n, ∀ e ∈ w.entry_at p n, MetaSet.Ordered e) (ho : o.source = none)
    (hcall : ignored (meta_add sha fuel w x p records o) = some w') (hsame : ∀ u, SameEntry u p w w') :
    Absorbs (w.entry_at p) p metadata (x :: rest) := by
  have hx : x ∈ w.ring := mem_clockwise.mp (hl ▸ List.mem_cons_self)
  refine (absorbs_step hrecords hsets hx (hw.up x hx) (by simp [ho]) (by simp [ho]) hcall
    (hsame x.uuid)).imp_right fun h =>
    h.imp_right fun ⟨hhas, fuel, v, hv, hrest⟩ => ⟨hhas, ?_⟩
  rw [← hv.entry_at] at hsets ⊢
  exact absorbs_of_next_copy (hv.exact hw) (by rw [clockwise_congr hv.ring, hl])
    (hrecords ▸ Arrived.of_list records) hsets ho hrest
    fun n _ => (hsame n.uuid).trans (hv.symm.entries n.uuid p)

end

end Fs

end Chord
