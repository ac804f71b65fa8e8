import Chord.Fs.Above
import Chord.Fs.Wire

/-!
# A name in the listing of its directory

`meta_add` puts it on the owner of the directory and on the next nodes, and `meta_del` takes it
away from the same nodes.
-/

open Circle

namespace Chord

namespace Fs

/-! ## Sets with one record more -/

namespace MetaSet

theorem find_insert_or_assign (m : Metadata) (s : MetaSet) (n : Name) :
    (insert_or_assign m s).find? (fun x => x.name = n) =
      if m.name = n then some m else s.find? fun x => x.name = n := by
  induction s with
  | nil => by_cases h : m.name = n <;> simp [insert_or_assign, h]
  | cons x s ih =>
    unfold insert_or_assign
    split
    · rename_i heq
      by_cases h : m.name = n
      · simp [h]
      · simp [h, ← heq]
    · split
      · by_cases h : m.name = n <;> simp [h]
      · rename_i hne _
        by_cases h : x.name = n
        · have hmn : m.name ≠ n := fun heq => hne (heq.trans h.symm)
          simp [h, hmn]
        · simp [h, ih]

theorem mem_insert_or_assign {m x : Metadata} {s : MetaSet} (h : x ∈ insert_or_assign m s) :
    x = m ∨ x ∈ s := by
  induction s with
  | nil => simpa [insert_or_assign] using h
  | cons y s ih =>
    unfold insert_or_assign at h
    split at h
    · exact (List.mem_cons.mp h).imp_right fun h => List.mem_cons_of_mem _ h
    · split at h
      · exact List.mem_cons.mp h
      · rcases List.mem_cons.mp h with rfl | h
        · exact Or.inr List.mem_cons_self
        · exact (ih h).imp_right fun h => List.mem_cons_of_mem _ h

theorem Ordered.insert_or_assign {s : MetaSet} (h : s.Ordered) (m : Metadata) :
    Ordered (insert_or_assign m s) := by
  induction s with
  | nil => exact List.pairwise_singleton _ _
  | cons x s ih =>
    obtain ⟨hx, hs⟩ := List.pairwise_cons.mp h
    unfold MetaSet.insert_or_assign
    split
    · rename_i heq
      exact List.pairwise_cons.mpr ⟨fun y hy => heq ▸ hx y hy, hs⟩
    · rename_i hne
      split
      · rename_i hlt
        refine List.pairwise_cons.mpr ⟨fun y hy => ?_, h⟩
        rcases List.mem_cons.mp hy with rfl | hy
        · exact hlt
        · exact List.lt_trans hlt (hx y hy)
      · rename_i hle
        refine List.pairwise_cons.mpr ⟨fun y hy => ?_, ih hs⟩
        rcases mem_insert_or_assign hy with rfl | hy
        · exact (List.le_iff_lt_or_eq.mp (List.not_lt.mp hle)).resolve_right (Ne.symm hne)
        · exact hx y hy

theorem Ordered.insert {s : MetaSet} (h : s.Ordered) (m : Metadata) : Ordered (insert m s) := by
  unfold MetaSet.insert
  split
  · exact h
  · exact h.insert_or_assign m

theorem find_insert (m : Metadata) (s : MetaSet) (n : Name) :
    (insert m s).find? (fun x => x.name = n) =
      (s.find? fun x => x.name = n).or (if m.name = n then some m else none) := by
  unfold insert
  split
  · rename_i hexists
    obtain ⟨x, hx, hxm⟩ := hexists
    split
    · rename_i heq
      have hsome : (s.find? fun x => x.name = n).isSome := by
        rw [List.find?_isSome]
        exact ⟨x, hx, by simp [hxm, heq]⟩
      obtain ⟨y, hy⟩ := Option.isSome_iff_exists.mp hsome
      rw [hy]
      rfl
    · exact (Option.or_none).symm
  · rename_i hnone
    rw [find_insert_or_assign]
    split
    · rename_i heq
      have hfind : s.find? (fun x => x.name = n) = none := by
        rw [List.find?_eq_none]
        intro x hx
        simpa [← heq] using fun hxm => hnone ⟨x, hx, hxm⟩
      rw [hfind]
      rfl
    · exact (Option.or_none).symm

theorem mem_insert {m x : Metadata} {s : MetaSet} (h : x ∈ insert m s) : x = m ∨ x ∈ s := by
  unfold insert at h
  split at h
  · exact Or.inr h
  · exact mem_insert_or_assign h

/-- Records with names of their own, one after the other. -/
theorem find_foldl_insert_or_assign {l : List Metadata} (hl : l.Pairwise fun a b => a.name ≠ b.name)
    (s : MetaSet) (n : Name) : (l.foldl (fun s m => insert_or_assign m s) s).find? (fun x => x.name = n) =
      (l.find? fun x => x.name = n).or (s.find? fun x => x.name = n) := by
  induction l generalizing s with
  | nil => rfl
  | cons m l ih =>
    obtain ⟨hm, hl⟩ := List.pairwise_cons.mp hl
    rw [List.foldl_cons, ih hl, find_insert_or_assign]
    by_cases h : m.name = n
    · have hnone : l.find? (fun x => x.name = n) = none := by
        rw [List.find?_eq_none]
        intro x hx
        simpa [← h] using (hm x hx).symm
      simp [h, hnone]
    · simp [h]

theorem equal_basic_names {s t : MetaSet} (h : equal_basic s t) :
    s.map Metadata.name = t.map Metadata.name := by
  induction s generalizing t with
  | nil => cases t <;> simp_all [equal_basic]
  | cons m s ih =>
    cases t with
    | nil => exact absurd h (by simp [equal_basic])
    | cons x t =>
      obtain ⟨hm, hs⟩ := h
      rw [List.map_cons, List.map_cons, hm.1, ih hs]

theorem max_replication_of_forall {s : MetaSet} {r : Replication} (hs : s ≠ [])
    (h : ∀ m ∈ s, m.replication = r) :
    max_replication s = r := by
  cases s with
  | nil => exact absurd rfl hs
  | cons m s =>
    obtain ⟨hm, hs⟩ := List.forall_mem_cons.mp h
    rw [max_replication]
    generalize hbest : m = best at hm
    clear hbest h
    induction s generalizing best with
    | nil => exact hm
    | cons x s ih =>
      obtain ⟨hx, hs⟩ := List.forall_mem_cons.mp hs
      rw [List.foldl_cons]
      split
      · exact ih (by simp) hs x hx
      · exact ih (by simp) hs best hm

end MetaSet

/-! ## The records of a name -/

/-- The record of a name in the listing of `p`. -/
def Store.record (store : Store) (p : Path) (name : Name) : Option Metadata :=
  (store.metadata.lookup p).bind fun records => records.find? fun m => m.name = name

/-- The listing of `p` has the name. -/
def Lists (store : Store) (p : Path) (name : Name) : Prop :=
  ∃ records ∈ store.metadata.lookup p, name ∈ records.map Metadata.name

theorem record_eq_none {store : Store} {p : Path} {name : Name} :
    store.record p name = none ↔ ¬ Lists store p name := by
  unfold Store.record Lists
  cases store.metadata.lookup p with
  | none => simp
  | some records => simp

theorem Store.Above.record {store store' : Store} {p q : Path} (h : store.Above p store') (hq : ¬ q <+: p)
    (name : Name) : store'.record q name = store.record q name := by
  rw [Store.record, Store.record, h.metadata q hq]

/-- A name other than `.` and `..`. -/
def Named (name : Name) : Prop := name ≠ ['.'] ∧ name ≠ ['.', '.']

instance (name : Name) : Decidable (Named name) := inferInstanceAs (Decidable (_ ∧ _))

theorem FilePath.named {uri : Path} (h : FilePath uri) : Named (filename uri) := by
  have hmem : filename uri ∈ uri := by
    rw [filename, List.getLastD_eq_getLast?, List.getLast?_eq_some_getLast h.1]
    exact List.getLast_mem h.1
  exact (h.2 _ hmem).2

/-- The record after an update is the one of the update, if that has one. -/
theorem record_add {store : Store} {p : Path} {records : MetaSet} {name : Name} (hname : Named name)
    (hrecords : records.Ordered) :
    ({ store with metadata := (store.metadata.add p records).1 } : Store).record p name =
      (records.find? fun m => m.name = name).or (store.record p name) := by
  have hfold := MetaSet.find_foldl_insert_or_assign hrecords.distinct ((store.metadata.lookup p).getD []) name
  have hold : ((store.metadata.lookup p).getD []).find? (fun m => m.name = name) = store.record p name := by
    rw [Store.record]
    cases store.metadata.lookup p <;> rfl
  rw [hold] at hfold
  have hdot : ∀ s n, (MetaSet.create_directory s n).name = n := fun _ _ => rfl
  rw [Store.record, MetaStore.add, AList.lookup_insert, Option.bind_some, ← hfold]
  split
  · rw [MetaSet.find_insert_or_assign, MetaSet.find_insert_or_assign, hdot, hdot, if_neg hname.2.symm,
      if_neg hname.1.symm]
  · rfl

/-! ## The copies of a request -/

/-- The request that the copy number `i` of a listing gets. -/
def copied (s : MetaSet) (k : UInt32) (i : Nat) : MetaSet :=
  s.map fun m => { m.sent with replication := .copy k i }

section

variable {s : MetaSet} {k : UInt32}

theorem copied_ordered (h : s.Ordered) (k : UInt32) (i : Nat) : (copied s k i).Ordered :=
  (MetaSet.ordered_map (f := fun m => { m.sent with replication := .copy k i }) fun _ => rfl).mpr h

/-- A request arrives as it was sent. -/
theorem of_list_copied (h : s.Ordered) (i : Nat) :
    MetaSet.of_list ((copied s k i).map Metadata.sent) = copied s k i := by
  have hsent : (copied s k i).map Metadata.sent = copied s k i := by
    rw [copied, List.map_map]
    rfl
  rw [hsent, MetaSet.of_list_ordered (copied_ordered h k i)]

theorem copied_zero (h : s.Ordered) (hs : ∀ m ∈ s, m.replication = .copy k 0) :
    MetaSet.of_list (s.map Metadata.sent) = copied s k 0 := by
  have heq : s.map Metadata.sent = copied s k 0 := by
    refine List.map_congr_left fun m hm => ?_
    rw [← hs m hm]
    rfl
  rw [heq, MetaSet.of_list_ordered (copied_ordered h k 0)]

theorem copied_ne_nil (h : s ≠ []) (k : UInt32) (i : Nat) : copied s k i ≠ [] :=
  fun hnil => h (List.map_eq_nil_iff.mp hnil)

theorem max_replication_copied (h : s ≠ []) (i : Nat) :
    MetaSet.max_replication (copied s k i) = .copy k i := by
  refine MetaSet.max_replication_of_forall (copied_ne_nil h k i) fun m hm => ?_
  obtain ⟨m, -, rfl⟩ := List.mem_map.mp hm
  rfl

theorem increase_copied (s : MetaSet) (i : Nat) : MetaSet.increase_replication_and_clean (copied s k i) =
    if (Replication.copy k i).next.active then copied s k (i + 1) else [] := by
  have hmap : (copied s k i).map (fun m => { m with replication := m.replication.next }) =
      copied s k (i + 1) := by
    rw [copied, List.map_map]
    exact List.map_congr_left fun m _ => by simp [Replication.next_copy]
  rw [MetaSet.increase_replication_and_clean, hmap, Replication.next_copy]
  split
  · rename_i hactive
    refine List.filter_eq_self.mpr fun m hm => ?_
    obtain ⟨m, -, rfl⟩ := List.mem_map.mp hm
    simpa using hactive
  · rename_i hactive
    refine List.filter_eq_nil_iff.mpr fun m hm => ?_
    obtain ⟨m, -, rfl⟩ := List.mem_map.mp hm
    simpa using hactive

end

/-! ## The records that `put` sends to the parent -/

theorem parent_listing_ordered (r : Metadata) : (parent_listing r).Ordered :=
  MetaSet.Ordered.insert (MetaSet.Ordered.insert (List.pairwise_singleton _ _) _) _

/-- The request that the copy number `i` of the listing gets. -/
def parent_records (r : Metadata) (k : UInt32) (i : Nat) : MetaSet :=
  (parent_listing r).map fun m => { m.sent with replication := .copy k i }

variable {r : Metadata} {k : UInt32}

theorem parent_records_ordered (i : Nat) : (parent_records r k i).Ordered :=
  copied_ordered (parent_listing_ordered r) k i

theorem of_list_parent_records (i : Nat) :
    MetaSet.of_list ((parent_records r k i).map Metadata.sent) = parent_records r k i :=
  of_list_copied (parent_listing_ordered r) i

theorem find_parent_listing (r : Metadata) :
    (parent_listing r).find? (fun m => m.name = r.name) = some r := by
  simp [parent_listing, MetaSet.find_insert]

theorem dot_mem_parent_listing (r : Metadata) : ∃ m ∈ parent_listing r, m.name = ['.'] := by
  have hfind : ((parent_listing r).find? fun m => m.name = ['.']).isSome := by
    have hdot : ∀ s n, (MetaSet.create_directory s n).name = n := fun _ _ => rfl
    rw [parent_listing, MetaSet.find_insert, MetaSet.find_insert, hdot, if_pos rfl]
    cases [r].find? fun m => m.name = ['.'] <;> rfl
  simpa using hfind

theorem create_directory_replication {s : MetaSet} (hs : s ≠ []) (h : ∀ m ∈ s, m.replication = .copy k 0)
    (n : Name) : (MetaSet.create_directory s n).replication = .copy k 0 := by
  have hmax := MetaSet.max_replication_of_forall hs h
  simp only [MetaSet.create_directory, MetaSet.max_replication_index_zero, hmax]
  split <;> rfl

theorem parent_listing_replication (h : r.replication = .copy k 0) :
    ∀ m ∈ parent_listing r, m.replication = .copy k 0 := by
  have hone : ∀ m ∈ [r], m.replication = .copy k 0 := by simpa using h
  have htwo : ∀ m ∈ MetaSet.insert (MetaSet.create_directory [r] ['.']) [r], m.replication = .copy k 0 := by
    intro m hm
    rcases MetaSet.mem_insert hm with rfl | hm
    · exact create_directory_replication (by simp) hone _
    · exact hone m hm
  intro m hm
  rcases MetaSet.mem_insert hm with rfl | hm
  · refine create_directory_replication ?_ htwo _
    unfold MetaSet.insert
    split
    · simp
    · unfold MetaSet.insert_or_assign
      split <;> [simp; (split <;> simp)]
  · exact htwo m hm

theorem parent_records_zero (h : r.replication = .copy k 0) :
    MetaSet.of_list ((parent_listing r).map Metadata.sent) = parent_records r k 0 :=
  copied_zero (parent_listing_ordered r) (parent_listing_replication h)

theorem find_parent_records (i : Nat) :
    (parent_records r k i).find? (fun m => m.name = r.name) =
      some { r.sent with replication := .copy k i } := by
  have hcomp : ((fun m : Metadata => decide (m.name = r.name)) ∘ fun m : Metadata =>
      { m.sent with replication := .copy k i }) = fun m => decide (m.name = r.name) := rfl
  rw [parent_records, List.find?_map, hcomp, find_parent_listing]
  rfl

theorem parent_listing_ne_nil (r : Metadata) : parent_listing r ≠ [] := by
  obtain ⟨m, hm, -⟩ := dot_mem_parent_listing r
  exact List.ne_nil_of_mem hm

theorem parent_records_ne_nil (i : Nat) : parent_records r k i ≠ [] :=
  copied_ne_nil (parent_listing_ne_nil r) k i

theorem max_replication_parent_records (i : Nat) :
    MetaSet.max_replication (parent_records r k i) = .copy k i :=
  max_replication_copied (parent_listing_ne_nil r) i

theorem increase_parent_records (i : Nat) : MetaSet.increase_replication_and_clean (parent_records r k i) =
    if (Replication.copy k i).next.active then parent_records r k (i + 1) else [] :=
  increase_copied (parent_listing r) i

theorem not_is_mkdir_parent_records (hname : Named r.name) (p : Path) (i : Nat) :
    ¬ is_mkdir p (parent_records r k i) := by
  intro h
  obtain ⟨m, hm, hdot⟩ := dot_mem_parent_listing r
  have hr := List.mem_of_find?_eq_some (find_parent_listing r)
  have hlength : ∃ x, parent_listing r = [x] := by
    match hl : parent_listing r with
    | [] => rw [hl] at hm; cases hm
    | [x] => exact ⟨x, rfl⟩
    | x :: y :: l => rw [parent_records, hl] at h; exact absurd h (by simp [is_mkdir])
  obtain ⟨x, hx⟩ := hlength
  rw [hx, List.mem_singleton] at hm hr
  exact hname.1 (by rw [hr, ← hm, hdot])

/-! ## The chain of a listing -/

open World

variable (sha : Sha256) {w : World} {p : Path}

/-- The records are added to the listing of `p`. -/
def add_listing (p : Path) (records : MetaSet) (store : Store) : Store :=
  { store with metadata := (store.metadata.add p records).1 }

theorem init_source_of_source {o : Options} {u : Uuid} (h : o.source = some u) (x : Node) :
    init_source x o = o := by
  rw [init_source, h]
  cases o
  exact congrArg (Options.mk _ · _) h.symm

/-- A listing without the name has other records. -/
theorem not_equal_basic_parent_records {store : Store} (h : ¬ Lists store p r.name) (i : Nat) :
    ∀ existing ∈ store.metadata.lookup p, ¬ MetaSet.equal_basic existing (parent_records r k i) := by
  intro existing hmem heq
  refine h ⟨existing, hmem, ?_⟩
  rw [MetaSet.equal_basic_names heq]
  exact List.mem_map.mpr ⟨_, List.mem_of_find?_eq_some (find_parent_records i), rfl⟩

theorem meta_add_relayed {s : Node} {l : List Node} {i fuel : Nat} {x : Node} {o : Options}
    (ho : o.source = some s.uuid) (hname : Named r.name) (hi : 0 < i)
    (hik : i < k.toNat) (hfuel : l.length < fuel) (hx : (l ++ [s]).head? = some x)
    (hchain : (l ++ [s]).IsChain fun a b => w.successor a.uuid = some b)
    (hl : (l ++ [s]).Pairwise fun x y => x.uuid ≠ y.uuid) (hup : ∀ x ∈ l, x ∈ w.up)
    (hready : ∀ x ∈ l, ¬ Lists (w.stores x.uuid) p r.name) :
    ignored (meta_add sha fuel w x p (parent_records r k i) o) =
      some (at_each (fun i => add_listing p (parent_records r k i)) i (l.take (k.toNat - i)) w) := by
  refine relayed _ (fun i store => 0 < i ∧ ¬ Lists store p r.name)
    (fun fuel w x i => ignored (meta_add sha fuel w x p (parent_records r k i) o)) ?_ ?_ hik hfuel hx hchain
      hl hup fun j x hx => ⟨by omega, hready x (List.mem_of_mem_take (List.mem_of_getElem? hx))⟩
  · rintro fuel w x y i hup hxs - hik ⟨hi, hlist⟩ hnext
    have hindex : (Replication.copy k i).index ≠ 0 := Replication.index_copy_ne_zero hi hik
    have hne : o.source ≠ some x.uuid := fun h => hxs (Option.some.inj (h.symm.trans ho))
    rw [meta_add_accepted sha (of_list_parent_records i) hup hne (parent_records_ne_nil i)
      (not_equal_basic_parent_records hlist i) (if_neg (not_is_mkdir_parent_records hname p i)),
      max_replication_parent_records, increase_parent_records, if_neg fun h => hindex h.2.2, Option.bind_some,
      if_congr (Replication.next_copy_active (by omega)) rfl rfl, init_source_of_source ho]
    split
    · rw [if_pos (parent_records_ne_nil (i + 1)), add_entry, set_successor, hnext]
      exact ignored_bind_some _ _
    · rfl
  · intro fuel w i
    by_cases hs : s ∈ w.up <;> simp [meta_add, hs, ho, ignored]

theorem record_add_listing {store : Store} (hname : Named r.name) (i : Nat) :
    (add_listing p (parent_records r k i) store).record p r.name =
      some { r.sent with replication := .copy k i } := by
  rw [add_listing, record_add hname (parent_records_ordered i), find_parent_records]
  rfl

/-- The update at the owner and above it, before the next copy gets it. -/
theorem meta_add_owner {lap : Nat} (hlap : Lap lap) (fuel : Nat) {y : Node} {o : Options} (hw : w.Exact)
    (hy : y ∈ w.ring) (ho : o.source = none) (hname : Named r.name) (hr : r.replication = .copy k 0)
    (hlist : ¬ Lists (w.stores y.uuid) p r.name) (hfuel : p.length * (lap + 1) + lap < fuel) :
    ∃ w₂, w.Above p w₂ ∧ (∀ n, (w₂.stores n).record p r.name =
        ((w.set y.uuid (add_listing p (parent_records r k 0) (w.stores y.uuid))).stores n).record p r.name) ∧
      meta_add sha (fuel + 1) w y p (parent_listing r) o =
        ((if (Replication.copy k 0).next.active then
          (w₂.successor y.uuid).bind fun node =>
            ignored (meta_add sha fuel w₂ node p (parent_records r k 1) (init_source y o))
        else some w₂).bind fun w => some (w, .OK)) := by
  have h₁ := w.add_entry_above y p (parent_records r k 0)
  obtain ⟨w₂, hparent, h₂, hsame⟩ : ∃ w₂,
      (if ((w.stores y.uuid).metadata.add p (parent_records r k 0)).2 = true ∧
      parent_path p ≠ p ∧ (MetaSet.max_replication (parent_records r k 0)).index = 0 then
        (w.successor (sha.uri (parent_path p))).bind fun node =>
          ignored (meta_add sha fuel (w.add_entry y p (parent_records r k 0)) node (parent_path p)
            [MetaSet.create_directory (parent_records r k 0) (filename p)] o)
      else some (w.add_entry y p (parent_records r k 0))) = some w₂ ∧
      (w.add_entry y p (parent_records r k 0)).Above p w₂ ∧ ∀ n, (w₂.stores n).record p r.name =
        ((w.add_entry y p (parent_records r k 0)).stores n).record p r.name := by
    split
    · rename_i hcond
      obtain ⟨node, hnode, hsucc⟩ := hw.exists_successor (sha.uri (parent_path p))
      have hlength := Nat.mul_le_mul_right (lap + 1) (parent_path_le p).length_le
      have hleft := left_le hlap node o.source
      obtain ⟨w₂, status, hcall, h₂⟩ := meta_add_above sha hlap fuel (parent_path p) (o := o)
        [MetaSet.create_directory (parent_records r k 0) (filename p)] (h₁.exact hw) hnode
        (by simp [ho]) (by omega)
      refine ⟨w₂, by rw [hsucc, Option.bind_some, hcall]; rfl, h₂.mono (parent_path_le p), fun n => ?_⟩
      refine (h₂.stores n).record (parent_path_not_below fun hnil => hcond.2.1 ?_) _
      rw [hnil]
      rfl
    · exact ⟨_, rfl, .refl _ _, fun _ => rfl⟩
  refine ⟨w₂, h₁.trans h₂, hsame, ?_⟩
  rw [meta_add_accepted sha (parent_records_zero hr) (hw.up y hy) (by simp [ho]) (parent_records_ne_nil 0)
    (not_equal_basic_parent_records hlist 0) (if_neg (not_is_mkdir_parent_records hname p 0)), hparent,
    Option.bind_some, increase_parent_records]
  by_cases hactive : (Replication.copy k 0).next.active
  · rw [if_pos hactive, if_pos hactive, if_pos (parent_records_ne_nil 1)]
  · rw [if_neg hactive, if_neg hactive, if_neg (by simp)]

/-- After an update that starts at the owner, the name is in the listings of the owner and of the
next nodes until the count is reached. -/
theorem meta_add_listing {lap : Nat} (hlap : Lap lap) (fuel : Nat) {y : Node} {rest : List Node}
    (r : Metadata) (o : Options) (hw : w.Exact)
    (hl : w.clockwise (sha.uri p) = y :: rest) (ho : o.source = none) (hname : Named r.name)
    (hr : r.replication = .copy k 0) (hlist : ∀ n ∈ w.ring, ¬ Lists (w.stores n.uuid) p r.name)
    (hfuel : p.length * (lap + 1) + lap + w.ring.length < fuel) :
    ∃ w', ignored (meta_add sha (fuel + 1) w y p (parent_listing r) o) = some w' ∧ w.Above p w' ∧
      ∀ j n, (y :: rest)[j]? = some n → (w'.stores n.uuid).record p r.name =
        if j < max 1 k.toNat then some { r.sent with replication := .copy k j } else none := by
  have hmem : ∀ n ∈ y :: rest, n ∈ w.ring := fun n hn => mem_clockwise.mp (hl ▸ hn)
  have hy := hmem y List.mem_cons_self
  have hdistinct : ∀ n ∈ rest, n.uuid ≠ y.uuid := fun n hn =>
    (List.pairwise_append.mp (hw.pairwise hl)).2.2 n hn y List.mem_cons_self
  obtain ⟨w₂, h₂, hsame, hcall⟩ := meta_add_owner sha hlap fuel hw hy ho hname hr (hlist y hy) (by omega)
  -- the nodes after the owner do not have the name yet
  have hold : ∀ n ∈ rest, (w₂.stores n.uuid).record p r.name = none := by
    intro n hn
    rw [hsame, set_stores_of_ne (hdistinct n hn)]
    exact record_eq_none.mpr (hlist n (hmem n (List.mem_cons_of_mem _ hn)))
  have hl₂ : w₂.clockwise (sha.uri p) = y :: rest := by rw [clockwise_congr h₂.ring, hl]
  have hcopies : (if (Replication.copy k 0).next.active then
      (w₂.successor y.uuid).bind fun node =>
        ignored (meta_add sha fuel w₂ node p (parent_records r k 1) (init_source y o))
      else some w₂) = some (at_each (fun i => add_listing p (parent_records r k i)) 1
        (rest.take (k.toNat - 1)) w₂) := by
    rw [if_congr (Replication.next_copy_active (by omega)) rfl rfl]
    split
    · rename_i hk
      have hlength : rest.length < w.ring.length := by
        rw [← w.length_clockwise (sha.uri p), hl]
        exact Nat.lt_succ_self _
      obtain ⟨x, hx, hsucc, hchain⟩ := (h₂.exact hw).tail_chain hl₂
      rw [hsucc, Option.bind_some]
      exact meta_add_relayed sha (s := y) (by simp [init_source, ho]) hname Nat.one_pos hk
        (by omega) hx hchain
        ((h₂.exact hw).pairwise hl₂)
          (fun n hn => (h₂.exact hw).up n (h₂.ring ▸ hmem n (List.mem_cons_of_mem _ hn)))
        fun n hn => record_eq_none.mp (hold n hn)
    · rename_i hk
      rw [show k.toNat - 1 = 0 by omega, List.take_zero]
      rfl
  rw [hcopies, Option.bind_some] at hcall
  refine ⟨at_each (fun i => add_listing p (parent_records r k i)) 1 (rest.take (k.toNat - 1)) w₂,
    by rw [hcall]; rfl, h₂.trans (at_each_above (fun i _ => MetaStore.add_above _ _ _) _ _ _), ?_⟩
  intro j n hn
  cases j with
  | zero =>
    cases hn
    rw [at_each_stores_of_ne fun z hz => hdistinct z (List.mem_of_mem_take hz), hsame, set_stores_self,
      record_add_listing hname, if_pos (by omega)]
  | succ j =>
    rw [List.getElem?_cons_succ] at hn
    rw [at_each_take_stores (List.pairwise_append.mp (hw.pairwise hl)).1 hn, Nat.add_comm 1 j]
    by_cases hj : j < k.toNat - 1
    · rw [if_pos hj, if_pos (by omega), record_add_listing hname]
    · rw [if_neg hj, if_neg (by omega), hold n (List.mem_of_getElem? hn)]

end Fs

end Chord
