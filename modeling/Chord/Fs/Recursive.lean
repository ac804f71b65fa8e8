import Chord.Fs.Sweep

/-!
# Deleting a tree

`del` of a directory goes to the children of its listing, wherever they are, and then to the other
nodes that have the listing. Where no file is hidden from it, it leaves nothing.
-/

namespace Chord

namespace Fs

open World

/-! ## The children -/

/-- With fuel from `enough` on, the deletion of `q` leaves nothing of it. -/
def Deletes (sha : Sha256) (w₀ : World) (q : Path) (enough : Nat) : Prop :=
  ∀ fuel ≥ enough, ∀ w x, Agrees q w₀ w → w.successor (sha.uri q) = some x → ∃ m v, Deleted sha fuel w x q m v

/-- The children `names` of `q` are gone, with their names. -/
structure Emptied (names : List Name) (q : Path) (w v : World) : Prop where
  ring : v.ring = w.ring
  up : v.up = w.up
  gone : ∀ a ∈ names, ∀ n ∈ w.ring, ∀ r, q ++ [a] <+: r → Bare (v.stores n.uuid) r
  metadata : ∀ u r, r ≠ q → (∀ a ∈ names, ¬ q ++ [a] <+: r) →
    (v.stores u).metadata.lookup r = (w.stores u).metadata.lookup r
  files : ∀ u r, (∀ a ∈ names, ¬ q ++ [a] <+: r) → (v.stores u).files.lookup r = (w.stores u).files.lookup r
  entry : ∀ n ∈ w.ring, (v.stores n.uuid).metadata.lookup q =
    ((w.stores n.uuid).metadata.lookup q).map fun s => s.filter fun m => m.name ∉ names

/-- The names of the children in a listing. -/
def child_names (s : MetaSet) : List Name := (s.filter fun m => ¬ m.is_directory).map Metadata.name

section

variable {sha : Sha256} {q : Path} {w₀ w v z : World} {names : List Name}

theorem child_ne {r : Path} {a : Name} (h : q ++ [a] <+: r) : r ≠ q :=
  fun heq => child_not_above q a (heq ▸ h)

namespace Emptied

theorem nil (q : Path) (w : World) : Emptied [] q w w := by
  refine ⟨rfl, rfl, by simp, fun _ _ _ _ => rfl, fun _ _ _ => rfl, fun n _ => ?_⟩
  cases (w.stores n.uuid).metadata.lookup q <;> simp

theorem cons {a : Name} (h : Emptied [a] q w v) (h' : Emptied names q v z) (ha : a ∉ names) :
    Emptied (a :: names) q w z := by
  refine ⟨h'.ring.trans h.ring, h'.up.trans h.up, fun b hb n hn r hr => ?_, fun u r hr hnot => ?_,
    fun u r hnot => ?_,
    fun n hn => ?_⟩
  · rcases List.mem_cons.mp hb with rfl | hb
    · have hothers : ∀ c ∈ names, ¬ q ++ [c] <+: r := fun c hc hcr => ha (child_disjoint hr hcr ▸ hc)
      rw [Bare, h'.metadata _ r (child_ne hr) hothers, h'.files _ r hothers]
      exact h.gone b List.mem_cons_self n hn r hr
    · exact h'.gone b hb n (h.ring ▸ hn) r hr
  · obtain ⟨hnota, hnot⟩ := List.forall_mem_cons.mp hnot
    rw [h'.metadata u r hr hnot, h.metadata u r hr (by simpa using hnota)]
  · obtain ⟨hnota, hnot⟩ := List.forall_mem_cons.mp hnot
    rw [h'.files u r hnot, h.files u r (by simpa using hnota)]
  · rw [h'.entry n (h.ring ▸ hn), h.entry n hn]
    cases (w.stores n.uuid).metadata.lookup q with
    | none => rfl
    | some s =>
      simp only [Option.map_some, List.filter_filter]
      congr 2
      funext m
      simp [Bool.and_comm]

theorem agrees {a : Name} (h : Emptied names q w v) (ha : a ∉ names) (hagrees : Agrees (q ++ [a]) w₀ w) :
    Agrees (q ++ [a]) w₀ v := by
  have hothers : ∀ r, q ++ [a] <+: r → ∀ b ∈ names, ¬ q ++ [b] <+: r := fun r hr b hb hbr =>
    ha (child_disjoint hr hbr ▸ hb)
  refine ⟨h.ring.trans hagrees.ring, h.up.trans hagrees.up, fun u r hr => ?_, fun u r hr => ?_⟩
  · rw [h.metadata u r (child_ne hr) (hothers r hr), hagrees.metadata u r hr]
  · rw [h.files u r (hothers r hr), hagrees.files u r hr]

theorem recorded {a : Name} (h : Emptied names q w v) (ha : a ∉ names) (hr : Recorded sha w q a) :
    Recorded sha v q a := by
  obtain ⟨r, k, hname, hrecord⟩ := hr
  refine ⟨r, k, hname, fun j n hn => ?_⟩
  rw [clockwise_congr h.ring] at hn
  have hn' : n ∈ w.ring := mem_clockwise.mp (List.mem_of_getElem? hn)
  rw [← hrecord j n hn, Store.record, Store.record, h.entry n hn']
  cases (w.stores n.uuid).metadata.lookup q with
  | none => rfl
  | some s =>
    rw [Option.map_some, Option.bind_some, Option.bind_some, List.find?_filter]
    congr 1
    funext m
    by_cases hm : m.name = a
    · simp [hm, ha]
    · simp [hm]

end Emptied

/-- A child, and its name in the listing. -/
theorem del_child {a : Name} {enough : Nat} (fuel : Nat) {x : Node} (hw : w.Exact)
    (hd : Deletes sha w₀ (q ++ [a]) enough) (hfuel : enough ≤ fuel) (hlength : w.ring.length + 1 < fuel)
    (hagrees : Agrees (q ++ [a]) w₀ w) (hr : Recorded sha w q a)
    (hx : w.successor (sha.uri (q ++ [a])) = some x) :
    ∃ w', del sha (fuel + 1) w x (q ++ [a]) true {} = some (w', .OK) ∧ Emptied [a] q w w' ∧
      ∀ d, ¬ Fails sha (fuel + 1) w x (q ++ [a]) {} d := by
  obtain ⟨m, v, hname, hswept, hfails, hcall⟩ := hd fuel hfuel w x hagrees hx
  have hparent : parent_path (q ++ [a]) = q := by simp [parent_path]
  have hfilename : filename (q ++ [a]) = a := by simp [filename]
  have hv : v.Exact := hw.of_ring hswept.ring hswept.up
  obtain ⟨y, hy, hsucc⟩ := hv.exists_successor (sha.uri q)
  have hq : ∀ u, (v.stores u).metadata.lookup q = (w.stores u).metadata.lookup q := fun u =>
    hswept.metadata u q (child_not_above q a)
  have hrecorded : Recorded sha v q a := by
    obtain ⟨r, k, hr, hrecord⟩ := hr
    refine ⟨r, k, hr, fun j n hn => ?_⟩
    rw [clockwise_congr hswept.ring] at hn
    rw [← hrecord j n hn, Store.record, Store.record, hq]
  obtain ⟨fuel, rfl⟩ := Nat.exists_eq_succ_of_ne_zero (by omega : fuel ≠ 0)
  obtain ⟨w', hmeta, hunnamed, hentry⟩ :=
    meta_del_recorded fuel (o := {}) hv hsucc rfl (hname.trans hfilename)
    hrecorded (by rw [hswept.ring]; omega)
  refine ⟨w', ?_, ?_, hfails⟩
  · rw [hcall, hparent, if_pos (by simp), hsucc, Option.bind_some, hmeta]
    rfl
  · refine ⟨hunnamed.ring.trans hswept.ring, hunnamed.up.trans hswept.up, fun b hb n hn r hbelow => ?_,
      fun u r hne hnot => ?_, fun u r hnot => ?_, fun n hn => ?_⟩
    · obtain rfl := List.mem_singleton.mp hb
      rw [Bare, hunnamed.metadata _ r (child_ne hbelow), hunnamed.files]
      exact hswept.gone n hn r hbelow
    · rw [hunnamed.metadata u r hne, hswept.metadata u r (hnot a List.mem_cons_self)]
    · rw [hunnamed.files, hswept.files u r (hnot a List.mem_cons_self)]
    · rw [hentry n (hswept.ring ▸ hn), hq]
      simp only [List.mem_singleton]

/-- All children of a listing, one after the other. -/
theorem del_children {enough fuel : Nat} {l : MetaSet} (hw : w.Exact) (hfuel : enough ≤ fuel)
    (hlength : w.ring.length + 1 < fuel) (hnodup : (child_names l).Nodup)
    (hl : ∀ a ∈ child_names l, Deletes sha w₀ (q ++ [a]) enough ∧ Agrees (q ++ [a]) w₀ w ∧
    Recorded sha w q a) :
    ∃ v, handle_del_recursive sha (del sha (fuel + 1)) q true {} l w = some (v, .OK) ∧
      Emptied (child_names l) q w v := by
  induction l generalizing w with
  | nil => exact ⟨w, rfl, .nil q w⟩
  | cons m l ih =>
    by_cases hm : m.is_directory
    · have hnames : child_names (m :: l) = child_names l := by simp [child_names, hm]
      rw [hnames] at hnodup hl ⊢
      rw [handle_del_recursive, if_pos hm]
      exact ih hw hlength hnodup hl
    · have hnames : child_names (m :: l) = m.name :: child_names l := by simp [child_names, hm]
      rw [hnames] at hnodup hl ⊢
      obtain ⟨hnot, hnodup⟩ := List.nodup_cons.mp hnodup
      obtain ⟨⟨hd, hagrees, hrecorded⟩, hl⟩ := List.forall_mem_cons.mp hl
      obtain ⟨x, hx, hsucc⟩ := hw.exists_successor (sha.uri (q ++ [m.name]))
      obtain ⟨w', hcall, hemptied, -⟩ := del_child fuel hw hd hfuel hlength hagrees hrecorded hsucc
      have hne : ∀ a ∈ child_names l, a ∉ [m.name] := fun a ha heq => hnot (List.mem_singleton.mp heq ▸ ha)
      obtain ⟨v, hrest, hemptied'⟩ :=
        ih (hw.of_ring hemptied.ring hemptied.up) (by rw [hemptied.ring]; exact hlength)
        hnodup fun a ha => ⟨(hl a ha).1, hemptied.agrees (hne a ha) (hl a ha).2.1,
          hemptied.recorded (hne a ha) (hl a ha).2.2⟩
      refine ⟨v, ?_, hemptied.cons hemptied' hnot⟩
      rw [handle_del_recursive, if_neg hm, hsucc]
      simp only [Option.bind_eq_bind, Option.bind_some]
      have hclear : clear_source {} = {} := rfl
      rw [hclear, hcall, Option.bind_some]
      exact (if_pos (Or.inl rfl : is_successful .OK)).trans hrest

/-! ## A directory -/

/-- What is left of a listing without its children. -/
theorem Listed.filter (h : Listed sha w q names) {n : Node} (hn : n ∈ w.ring) {s : MetaSet}
    (hs : (w.stores n.uuid).metadata.lookup q = some s) : s.filter (fun m => m.name ∉ names) = dots s := by
  refine List.filter_congr fun m hm => ?_
  have hiff : m.name ∉ names ↔ m.is_directory := by
    constructor
    · intro hnot
      by_contra hdir
      exact hnot ((h.entry n hn s hs).2 m hm hdir)
    · rintro ⟨hname, -⟩ hmem
      rcases hname with hname | hname
      · exact (h.named _ hmem).1 hname
      · exact (h.named _ hmem).2 hname
  simp only [hiff]

theorem Listed.emptied (h : Listed sha w q names) (hz : Emptied names q w z) {n : Node} (hn : n ∈ w.ring) :
    (z.stores n.uuid).metadata.lookup q = ((w.stores n.uuid).metadata.lookup q).map dots := by
  rw [hz.entry n hn]
  cases hs : (w.stores n.uuid).metadata.lookup q with
  | none => rfl
  | some s => rw [Option.map_some, Option.map_some, h.filter hn hs]

theorem dots_ne_nil {s : MetaSet} (h : MetaSet.is_directory s) : dots s ≠ [] := by
  obtain ⟨m, hm, hdir⟩ := h
  exact List.ne_nil_of_mem (List.mem_filter.mpr ⟨hm, by simpa using hdir⟩)

theorem mem_dots {s : MetaSet} {m : Metadata} (h : m ∈ dots s) : m.is_directory := by
  simpa using (List.mem_filter.mp h).2

/-- The nodes after the owner, when the children are gone. -/
theorem del_copies_listed (fuel : Nat) {x : Node} {rest : List Node} {s : MetaSet} (hw : w.Exact)
    (hl : Listed sha w q names) (hclockwise : w.clockwise (sha.uri q) = x :: rest)
    (hs : (w.stores x.uuid).metadata.lookup q = some s) (hz : Emptied names q w z)
    (hfuel : w.ring.length < fuel) :
    ∃ v, (if (MetaSet.max_replication (dots s)).next.active then
        (z.successor x.uuid).bind fun node =>
          if node ≠ x then ignored (del sha fuel (z.erase_entry x q) node q true (init_source x {}))
          else some (z.erase_entry x q)
      else some (z.erase_entry x q)) = some v ∧ OnlyAt q z v ∧
      (∀ n ∈ w.ring, (v.stores n.uuid).metadata.lookup q = none) ∧
      ((MetaSet.max_replication (dots s)).next.active → ∀ node d, z.successor x.uuid = some node → node ≠ x →
        ¬ Fails sha fuel (z.erase_entry x q) node q (init_source x {}) d) := by
  have hmem : ∀ n ∈ x :: rest, n ∈ w.ring := fun n hn => mem_clockwise.mp (hclockwise ▸ hn)
  have hpair := hw.pairwise hclockwise
  have hne : ∀ n ∈ rest, n.uuid ≠ x.uuid := fun n hn =>
    (List.pairwise_append.mp hpair).2.2 n hn x List.mem_cons_self
  have hchain := hl.chain
  rw [hclockwise] at hchain
  obtain ⟨hxchain, hchain⟩ := List.pairwise_cons.mp hchain
  have hstores : ∀ n ∈ rest, ((z.erase_entry x q).stores n.uuid).metadata.lookup q =
      ((w.stores n.uuid).metadata.lookup q).map dots := by
    intro n hn
    rw [erase_entry_lookup, if_neg (hne n hn), hl.emptied hz (hmem n (List.mem_cons_of_mem _ hn))]
  -- where all entries after the owner are gone, none is left
  have hgone : ∀ v : World, (∀ n ∈ rest, (v.stores n.uuid).metadata.lookup q = none) →
      (v.stores x.uuid).metadata.lookup q = none →
        ∀ n ∈ w.ring, (v.stores n.uuid).metadata.lookup q = none := by
    intro v hrest hx n hn
    have hn' : n ∈ x :: rest := hclockwise ▸ mem_clockwise.mpr hn
    rcases List.mem_cons.mp hn' with rfl | hn'
    · exact hx
    · exact hrest n hn'
  have herased : ((z.erase_entry x q).stores x.uuid).metadata.lookup q = none := by
    rw [erase_entry_lookup, if_pos rfl]
  split
  · have hzw : z.Exact := hw.of_ring hz.ring hz.up
    obtain ⟨y, hy, hsucc, hnext⟩ := hzw.tail_chain (by rw [clockwise_congr hz.ring, hclockwise])
    rw [hsucc, Option.bind_some]
    by_cases hyx : y = x
    · obtain rfl := hw.alone hclockwise (hyx ▸ hy)
      refine ⟨_, if_neg (not_not_intro hyx), .erase_entry z x q, hgone _ (by simp) herased, ?_⟩
      intro _ node d hnode hnode_ne
      exact absurd ((Option.some.inj hnode).symm.trans hyx) hnode_ne
    · obtain ⟨v, hcall, hv, hnone, hsame, hfails⟩ := @del_listings sha q (z.erase_entry x q) x y rest fuel
        (init_source x {}) rfl
        (by rw [← w.length_clockwise (sha.uri q), hclockwise] at hfuel; exact Nat.lt_of_succ_lt hfuel) hy
          hnext hpair
        (fun n hn => hzw.up n (hz.ring ▸ hmem n (List.mem_cons_of_mem _ hn)))
        (fun n hn t ht => by
          rw [hstores n hn] at ht
          obtain ⟨t', ht', rfl⟩ := Option.map_eq_some_iff.mp ht
          exact ⟨dots_ne_nil (hl.entry n (hmem n (List.mem_cons_of_mem _ hn)) t' ht').1,
            fun m hm => mem_dots hm⟩)
        (fun n hn bytes => by
          have hfiles : ((z.erase_entry x q).stores n.uuid).files = (z.stores n.uuid).files := by
            rw [World.erase_entry, set_stores_of_ne (hne n hn)]
          rw [hfiles, hz.files _ q fun a _ => child_not_above q a]
          exact hl.disk n (hmem n (List.mem_cons_of_mem _ hn)) bytes)
        (hchain.imp_of_mem fun {a b} ha hb h hsome => by
          rw [hstores b hb, ne_eq, Option.map_eq_none_iff] at hsome
          obtain ⟨t, ht, hactive⟩ := h hsome
          exact ⟨dots t, by rw [hstores a ha, ht, Option.map_some], hactive⟩)
      refine ⟨v, by rw [if_pos hyx, hcall], (OnlyAt.erase_entry z x q).trans hv, hgone v hnone ?_, ?_⟩
      · rw [hsame _ hne, herased]
      · intro _ node d hnode _
        obtain rfl := Option.some.inj hnode
        exact hfails d
  · rename_i hactive
    refine ⟨_, rfl, .erase_entry z x q, hgone _ (fun n hn => ?_) herased, fun h => absurd h hactive⟩
    rw [hstores n hn, Option.map_eq_none_iff]
    by_contra hsome
    obtain ⟨t, ht, hactive'⟩ := hxchain n hn hsome
    rw [hs] at ht
    cases ht
    exact hactive hactive'

/-- The children, the other nodes with the listing, the directory on the disk. -/
theorem del_listed {x : Node} (enough fuel : Nat) (hw : w.Exact) (hl : Listed sha w q names)
    (hdisk : names ≠ [] → ¬ (w.stores x.uuid).files.is_empty q)
    (hd : ∀ a ∈ names, Deletes sha w₀ (q ++ [a]) enough) (hagrees : Agrees q w₀ w)
    (hx : w.successor (sha.uri q) = some x) (hfuel : enough < fuel) (hlength : w.ring.length + 2 < fuel) :
    ∃ v, Deleted sha fuel w x q (MetaSet.directory_record (filename q)) v := by
  obtain ⟨fuel, rfl⟩ := Nat.exists_eq_succ_of_ne_zero (by omega : fuel ≠ 0)
  obtain ⟨z, rest, hclockwise⟩ := hw.exists_owner (sha.uri q)
  obtain rfl : z = x := Option.some.inj ((hw.successor_owner hclockwise).symm.trans hx)
  have hmem : z ∈ w.ring := mem_clockwise.mp (hclockwise ▸ List.mem_cons_self)
  obtain ⟨s, hs, hnames, helement⟩ := hl.owner z hx
  have hcall : DirCall w z q {} s := ⟨hw.up z hmem, by simp, hs, helement⟩
  have hchild : ∀ a ∈ names, Deletes sha w₀ (q ++ [a]) enough ∧ Agrees (q ++ [a]) w₀ w ∧ Recorded sha w q a :=
    fun a ha => ⟨hd a ha, hagrees.child a, hl.recorded a ha⟩
  -- the children
  obtain ⟨v₁, hdescend, hemptied⟩ : ∃ v, (if ¬ (w.stores z.uuid).files.is_empty q then
      ignored (handle_del_recursive sha (del sha (fuel + 1)) q true {} s w) else some w) = some v ∧
      Emptied names q w v := by
    split
    · obtain ⟨v, hcall, hemptied⟩ := @del_children sha q w₀ w enough fuel s hw (by omega) (by omega)
        (by rw [child_names, hnames]; exact hl.nodup) (by rw [child_names, hnames]; exact hchild)
      rw [child_names, hnames] at hemptied
      exact ⟨v, by rw [hcall]; rfl, hemptied⟩
    · rename_i hempty
      have hnil : names = [] := by
        by_contra hne
        exact hempty (hdisk hne)
      exact ⟨w, rfl, hnil ▸ .nil q w⟩
  have hdeleted : (v₁.stores z.uuid).metadata.lookup q = some (dots s) := by
    rw [hl.emptied hemptied hmem, hs, Option.map_some]
  -- the copies
  obtain ⟨v₂, hcopies, honly, hnone, hfails⟩ :=
    del_copies_listed (fuel + 1) hw hl hclockwise hs hemptied (by omega)
  have honly' := honly.trans (.erase_empty v₂ z q)
  have hbelow : ∀ r, ¬ q <+: r → ∀ a ∈ names, ¬ q ++ [a] <+: r := fun r hr a _ h => hr (prefix_of_child h)
  have hne : ∀ r, ¬ q <+: r → r ≠ q := fun r hr heq => hr (heq ▸ List.prefix_refl _)
  refine ⟨v₂.erase_empty z q, rfl, ⟨honly'.ring.trans hemptied.ring, honly'.up.trans hemptied.up, ?_, ?_, ?_⟩,
    ?_, ?_⟩
  · intro n hn r hr
    rcases prefix_child hr with rfl | ⟨a, hr⟩
    · refine ⟨by rw [erase_empty_metadata, hnone n hn], fun bytes hfile => ?_⟩
      rcases honly'.disk n.uuid with hnofile | hsame
      · rw [hnofile] at hfile
        cases hfile
      · rw [hsame, hemptied.files _ r fun a _ => child_not_above r a] at hfile
        exact hl.disk n hn bytes hfile
    · rw [Bare, honly'.metadata _ r (child_ne hr), honly'.files _ r (child_ne hr)]
      by_cases ha : a ∈ names
      · exact hemptied.gone a ha n hn r hr
      · have hothers : ∀ b ∈ names, ¬ q ++ [b] <+: r := fun b hb hbr => ha (child_disjoint hr hbr ▸ hb)
        rw [hemptied.metadata _ r (child_ne hr) hothers, hemptied.files _ r hothers]
        exact hl.others n hn a ha r hr
  · intro u r hr
    rw [honly'.metadata u r (hne r hr), hemptied.metadata u r (hne r hr) (hbelow r hr)]
  · intro u r hr
    rw [honly'.files u r (hne r hr), hemptied.files u r (hbelow r hr)]
  · -- nothing fails before, at or after a child
    have hbefore : ∀ before m after v x', s = before ++ m :: after → ¬ m.is_directory →
        handle_del_recursive sha (del sha (fuel + 1)) q true {} before w = some (v, .OK) →
        v.successor (sha.uri (q ++ [m.name])) = some x' →
        ∃ w', del sha (fuel + 1) v x' (q ++ [m.name]) true {} = some (w', .OK) ∧
          ∀ d, ¬ Fails sha (fuel + 1) v x' (q ++ [m.name]) {} d := by
      intro before m after v x' hsplit hm hv hx'
      have hsnames : child_names s = child_names before ++ m.name :: child_names after := by
        rw [hsplit]
        simp [child_names, hm]
      have hnodup := hl.nodup
      rw [← hnames, ← child_names, hsnames] at hnodup
      obtain ⟨hnodup, -, hdisjoint⟩ := List.nodup_append.mp hnodup
      have hsub : ∀ a ∈ child_names before, a ∈ names := fun a ha => by
        rw [← hnames, ← child_names, hsnames]
        exact List.mem_append_left _ ha
      have hmname : m.name ∈ names := by
        rw [← hnames, ← child_names, hsnames]
        exact List.mem_append_right _ List.mem_cons_self
      have hnot : m.name ∉ child_names before := fun hmem => hdisjoint _ hmem _ List.mem_cons_self rfl
      obtain ⟨v', hcall', hemptied'⟩ :=
        @del_children sha q w₀ w enough fuel before hw (by omega) (by omega) hnodup
        fun a ha => hchild a (hsub a ha)
      obtain rfl : v' = v := by
        rw [hv] at hcall'
        cases hcall'
        rfl
      obtain ⟨hdm, hagreesm, hrecordedm⟩ := hchild _ hmname
      obtain ⟨w', hcallm, -, hfailsm⟩ :=
        del_child fuel (hw.of_ring hemptied'.ring hemptied'.up) hdm (by omega)
        (by rw [hemptied'.ring]; omega) (hemptied'.agrees hnot hagreesm)
          (hemptied'.recorded hnot hrecordedm) hx'
      exact ⟨w', hcallm, hfailsm⟩
    intro d hfail
    cases hfail with
    | child hcall' _ hv hm hnode hdel hstatus =>
      have hsplit := hcall'.2.2.1
      rw [hs] at hsplit
      obtain ⟨w', hok, -⟩ := hbefore _ _ _ _ _ (Option.some.inj hsplit) hm hv hnode
      have hclear : clear_source {} = {} := rfl
      rw [hclear, hok] at hdel
      cases hdel
      exact hstatus (Or.inl rfl)
    | deeper hcall' _ hv hm hnode hdel =>
      have hsplit := hcall'.2.2.1
      rw [hs] at hsplit
      obtain ⟨-, -, hnofail⟩ := hbefore _ _ _ _ _ (Option.some.inj hsplit) hm hv hnode
      exact hnofail d hdel
    | copy hcall' hv hdel' hnext hnode hne hdel =>
      have hsame := hcall'.2.2.1
      rw [hs] at hsame
      cases hsame
      rw [hdescend] at hv
      cases hv
      rw [hdeleted] at hdel'
      cases hdel'
      exact hfails hnext _ d hnode hne hdel
  · rw [del_dir_eq hcall, hdescend, Option.bind_some, hdeleted, Option.elim_some, hcopies, Option.bind_some]
    simp only [true_and]
    rfl

/-- Every tree goes with all that is in it. -/
theorem del_tree (hw₀ : w₀.Exact) (h : Tree sha w₀ q) : ∃ enough, Deletes sha w₀ q enough := by
  induction h with
  | @file q bytes k hq hcopied =>
    refine ⟨w₀.ring.length + 1, fun fuel hfuel w x hagrees hx => ?_⟩
    obtain ⟨m, v, hdeleted⟩ :=
      del_file_copied (hw₀.of_ring hagrees.ring hagrees.up) hq (hagrees.copied hcopied) hx
      (by rw [hagrees.ring]; exact hfuel)
    exact ⟨m, v, hdeleted⟩
  | @reference q z node m hq href =>
    refine ⟨1, fun fuel hfuel w x hagrees hx => ?_⟩
    have href' := hagrees.referenced href
    obtain rfl := Option.some.inj (href'.owner.symm.trans hx)
    obtain ⟨v, hdeleted⟩ := del_file_referenced (hw₀.of_ring hagrees.ring hagrees.up) hq href' hfuel
    exact ⟨m, v, hdeleted⟩
  | @dir q names hq hlisted hdisk hchildren ih =>
    -- the children need no more than the sum of what each of them needs
    obtain ⟨enough, henough⟩ : ∃ enough, ∀ a ∈ names, Deletes sha w₀ (q ++ [a]) enough := by
      clear hlisted hdisk hchildren
      induction names with
      | nil => exact ⟨0, by simp⟩
      | cons a names ihnames =>
        obtain ⟨iha, ih⟩ := List.forall_mem_cons.mp ih
        obtain ⟨m, hm⟩ := iha
        obtain ⟨n, hn⟩ := ihnames ih
        refine ⟨m + n, fun b hb fuel hfuel => ?_⟩
        rcases List.mem_cons.mp hb with rfl | hb
        · exact hm fuel (by omega)
        · exact hn b hb fuel (by omega)
    refine ⟨enough + w₀.ring.length + 3, fun fuel hfuel w x hagrees hx => ?_⟩
    have hw := hw₀.of_ring hagrees.ring hagrees.up
    have hx₀ : x ∈ w₀.ring := by
      obtain ⟨z, hz, hsucc⟩ := hw.exists_successor (sha.uri q)
      obtain rfl := Option.some.inj (hsucc.symm.trans hx)
      exact hagrees.ring ▸ hz
    have hdisk' : names ≠ [] → ¬ (w.stores x.uuid).files.is_empty q := by
      intro hne
      rw [hagrees.is_empty (hlisted.disk x hx₀)]
      exact hdisk hne x (by rw [← successor_congr hagrees.ring, hx])
    obtain ⟨v, hdeleted⟩ :=
      del_listed enough fuel hw (hagrees.listed hlisted) hdisk' henough hagrees hx (by omega)
      (by rw [hagrees.ring]; omega)
    exact ⟨_, v, hdeleted⟩

end

/-! ## The whole deletion -/

/-- Two members with empty disks. -/
def World.pair : World where
  ring := [⟨10, ['a']⟩, ⟨20, ['b']⟩]
  up := [⟨10, ['a']⟩, ⟨20, ['b']⟩]
  stores _ := .fresh 1

/-- The file `/d/f` is on the second node, everything else on the first. -/
def spread_sha : Sha256 := ⟨fun uri => if uri = [['d'], ['f']] then 15 else 5, fun _ => 0⟩

/-- The directory is on the first node only as a listing. -/
def World.far : World :=
  ((put_file spread_sha 6 (Peer.of ⟨10, ['a']⟩) World.pair [['d'], ['f']] [1] ⟨0, 1⟩).getD
    (World.pair, .OK)).1

theorem far_ring {n : Node} (hn : n ∈ World.far.ring) : n = ⟨10, ['a']⟩ ∨ n = ⟨20, ['b']⟩ := by
  have hmem : n ∈ World.pair.ring := hn
  simpa [World.pair] using hmem

theorem far_keys : ∀ n ∈ World.far.ring, ∀ r ∈ (World.far.stores n.uuid).metadata.keys ++
    (World.far.stores n.uuid).files.keys, r ∈ [[], [['d']], [['d'], ['f']]] := by decide

theorem far_bare {n : Node} (hn : n ∈ World.far.ring) {r : Path} (hr : r ∉ [[], [['d']], [['d'], ['f']]]) :
    Bare (World.far.stores n.uuid) r := by
  have hkeys := fun h => hr (far_keys n hn r h)
  rw [List.mem_append] at hkeys
  refine ⟨AList.lookup_eq_none.mpr fun h => hkeys (Or.inl (AList.mem_keys.mp h)),
    fun bytes hfile => hkeys (Or.inr ?_)⟩
  exact AList.mem_keys.mp (AList.lookup_isSome.mp (by rw [hfile]; rfl))

theorem far_file : Copied spread_sha World.far [['d'], ['f']] [1] 1 := by
  refine ⟨fun j n hn => ?_, fun n hn a r hr => far_bare hn fun hmem => ?_⟩
  · have hl : World.far.clockwise (spread_sha.uri [['d'], ['f']]) = [⟨20, ['b']⟩, ⟨10, ['a']⟩] := by decide
    rw [hl] at hn
    match j with
    | 0 =>
      cases hn
      exact ⟨by decide, by decide⟩
    | 1 =>
      cases hn
      exact ⟨by decide, by decide⟩
    | j + 2 => cases hn
  · have hlength := hr.length_le
    simp only [List.mem_cons, List.not_mem_nil, or_false] at hmem
    rcases hmem with rfl | rfl | rfl <;> simp at hlength

theorem far_listed : Listed spread_sha World.far [['d']] [['f']] := by
  have hl : World.far.clockwise (spread_sha.uri [['d']]) = [⟨10, ['a']⟩, ⟨20, ['b']⟩] := by decide
  have hnone : (World.far.stores 20).metadata.lookup [['d']] = none := by decide
  constructor
  · intro x hx
    obtain rfl : (⟨10, ['a']⟩ : Node) = x := Option.some.inj ((by decide : _ = _).symm.trans hx)
    exact ⟨_, rfl, by decide, _, rfl, by decide⟩
  · intro a ha
    obtain rfl := List.mem_singleton.mp ha
    exact ⟨by decide, by decide⟩
  · decide
  · intro a ha
    obtain rfl := List.mem_singleton.mp ha
    refine ⟨(file_record spread_sha [['d'], ['f']] [1] ⟨0, 1⟩).sent, 1, rfl, fun j n hn => ?_⟩
    rw [hl] at hn
    match j with
    | 0 =>
      cases hn
      decide
    | 1 =>
      cases hn
      decide
    | j + 2 => cases hn
  · intro n hn s hs
    rcases far_ring hn with rfl | rfl
    · cases hs
      decide
    · rw [hnone] at hs
      cases hs
  · rw [hl, List.pairwise_pair]
    exact fun hsome => absurd hnone hsome
  · intro n hn bytes
    rcases far_ring hn with rfl | rfl
    · rw [(by decide : (World.far.stores 10).files.lookup [['d']] = none)]
      simp
    · rw [(by decide : (World.far.stores 20).files.lookup [['d']] = some .directory)]
      simp
  · intro n hn a ha r hr
    refine far_bare hn fun hmem => ?_
    simp only [List.mem_cons, List.not_mem_nil, or_false] at hmem ha
    rcases hmem with rfl | rfl | rfl <;> simp at hr
    exact ha hr

theorem far_tree : Tree spread_sha World.far [['d']] := by
  refine .dir (fun _ => by unfold FilePath; decide) far_listed (fun _ x hx => ?_) fun a ha => ?_
  · obtain rfl : (⟨10, ['a']⟩ : Node) = x := Option.some.inj ((by decide : _ = _).symm.trans hx)
    decide
  · obtain rfl := List.mem_singleton.mp ha
    exact .file (by unfold FilePath; decide) far_file

/-- The first node had a file in `/d`, and has the empty directory. -/
def World.spread : World :=
  (do
    let (w, _) ← put_file spread_sha 6 (Peer.of ⟨10, ['a']⟩) World.pair [['d'], ['g']] [1] ⟨0, 1⟩
    let (w, _) ← facade_del spread_sha 6 w [['d'], ['g']] false
    let (w, _) ← put_file spread_sha 6 (Peer.of ⟨10, ['a']⟩) w [['d'], ['f']] [1] ⟨0, 1⟩
    some w).getD World.pair

end Fs

end Chord
