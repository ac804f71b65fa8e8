import Chord.Fs.Placed

/-!
# A file with one copy

A put writes the file at the owner of its path, wherever it was kept before. A rebalanced put takes the
file away from the node that had it. A `get` brings the file to the owner.
-/

open Circle

namespace Chord

namespace Fs

open World

section

variable {sha : Sha256} {w w' v : World} {uri q : Path} {bytes : Bytes} {x o self : Node} {m : Metadata}
    {paths made : Path → Prop} {s : Uuid} {todo : List Path} {lap fuel : Nat} {store : Store}

/-! ## `put` -/

/-- What is received is what is on the disk, unless the hash of the record says that it is there. -/
theorem receive_file {made : Files} (hparent : made.lookup (parent_path uri) = some .directory)
    (hfile : made.lookup uri = store.files.lookup uri) (hregular : store.files.lookup uri ≠ some .directory)
    (hsame : file_hashes_equal store uri (sha.content bytes) →
      store.files.lookup uri = some (.regular bytes)) :
    ∃ files, receive sha store uri bytes made = (files, true) ∧ files.lookup uri = some (.regular bytes) ∧
      ∀ q ≠ uri, files.lookup q = made.lookup q := by
  by_cases hequal : file_hashes_equal store uri (sha.content bytes)
  · have hthere := hfile.trans (hsame hequal)
    have hexists : made.exists_at uri := AList.lookup_isSome.mp (by rw [hthere]; rfl)
    exact ⟨made, by simp only [receive, if_pos hexists, if_pos hequal], hthere, fun _ _ => rfl⟩
  · cases hlookup : store.files.lookup uri with
    | none =>
      have hnot : ¬ made.exists_at uri := by
        rw [Files.exists_at, ← AList.lookup_isSome, hfile, hlookup]
        simp
      have hcreated : (made.create_file uri).lookup uri = some (.regular []) := by
        rw [Files.create_file, if_pos hparent]
        exact AList.lookup_insert _
      refine ⟨(made.create_file uri).insert uri (.regular bytes), ?_, AList.lookup_insert _, fun q hq => ?_⟩
      · simp only [receive, if_neg hnot, if_neg hequal, Files.write, hcreated]
      · rw [AList.lookup_insert_ne hq, Files.create_file, if_pos hparent, AList.lookup_insert_ne hq]
    | some entry =>
      cases entry with
      | directory => exact absurd hlookup hregular
      | regular old =>
        rw [hlookup] at hfile
        have hexists : made.exists_at uri := AList.lookup_isSome.mp (by rw [hfile]; rfl)
        refine ⟨made.insert uri (.regular bytes), ?_, AList.lookup_insert _, fun q hq =>
          AList.lookup_insert_ne hq⟩
        simp only [receive, if_pos hexists, if_neg hequal, Files.write, hfile]

/-- One copy: the file, its record and the parent, and after a rebalanced file the one that is too much. -/
theorem put_single (sha : Sha256) (fuel : Nat) (rebalance : Bool) {made files : Files} (hup : o ∈ w.up)
    (hmade : (w.stores o.uuid).files.with_parent uri = some made)
    (hreceive : receive sha (w.stores o.uuid) uri bytes made = (files, true))
    (hstored : files.lookup uri = some (.regular bytes)) :
    put sha (fuel + 1) w o uri bytes { replication := .NONE, rebalance := rebalance } =
      (w.successor (sha.uri (parent_path uri))).bind fun node =>
        (ignored (meta_add sha fuel (w.set o.uuid (written sha uri files bytes .NONE (w.stores o.uuid))) node
          (parent_path uri) (parent_listing (file_record sha uri bytes .NONE))
          { replication := .NONE, rebalance := rebalance })).bind fun w =>
        (if rebalance then (w.successor o.uuid).bind fun node => (w.successor (sha.uri uri)).bind fun owner =>
          if node ≠ owner then ignored (del sha fuel w node uri false
            { replication := .NONE, source := some o.uuid, rebalance := rebalance }) else some w
        else some w).bind fun w => some (w, .OK) := by
  have hindex : Replication.NONE.index = 0 := rfl
  have hnext : ¬ Replication.NONE.next.active := by decide
  have hhas : ¬ Replication.NONE.has_next := by decide
  rw [put]
  simp only [if_neg (not_not_intro hup)]
  rw [Files.with_parent] at hmade
  simp only [hmade, hreceive, hstored, hindex, if_neg hnext, hhas, not_false_eq_true, and_true, if_true,
    Option.bind_eq_bind, bind_ite, Option.bind_assoc, Option.bind_some, set_successor]
  rfl

/-- The file is on the disk `u` with its record, and no other disk is another one there. -/
structure WrittenAt (sha : Sha256) (u : Uuid) (uri : Path) (bytes : Bytes) (w w' : World) : Prop where
  along : w.Along uri w'
  file : (w'.stores u).files.lookup uri = some (.regular bytes)
  record : (w'.stores u).metadata.lookup uri = some [file_record sha uri bytes .NONE]
  files : ∀ v ≠ u, (w'.stores v).files.lookup uri = (w.stores v).files.lookup uri
  metadata : ∀ v ≠ u, (w'.stores v).metadata.lookup uri = (w.stores v).metadata.lookup uri

/-- The directories above a file are made, and then the file is there with its record. -/
theorem Store.Along.of_made {made files : Files}
    (hunder : ∀ q, ¬ q <+: parent_path uri → made.lookup q = store.files.lookup q)
    (hregular : ∀ q b, made.lookup q = some (.regular b) → store.files.lookup q = some (.regular b))
    (hothers : ∀ q ≠ uri, files.lookup q = made.lookup q) (entry : MetaSet) :
    store.Along uri { store with files := files, metadata := (store.metadata.add uri entry).1 } := by
  refine ⟨fun q hq => ?_, fun q hq => MetaStore.add_lookup_of_ne ?_, fun q b hlookup => ?_⟩
  · have hne : q ≠ uri := fun heq => hq (heq ▸ List.prefix_refl _)
    exact (hothers q hne).trans (hunder q fun hp => hq (hp.trans (parent_path_le uri)))
  · rintro rfl
    exact hq (List.prefix_refl _)
  · rcases eq_or_ne q uri with heq | hne
    · exact Or.inl heq
    · exact Or.inr (hregular q b ((hothers q hne).symm.trans hlookup))

theorem put_written (bytes : Bytes) (rebalance : Bool) (hlap : Lap lap) (hw : w.Exact) (ho : o ∈ w.ring)
    (huri : FileIn paths made uri) (hdisk : Writable (w.stores o.uuid) uri)
    (hregular : (w.stores o.uuid).files.lookup uri ≠ some .directory)
    (hsame : file_hashes_equal (w.stores o.uuid) uri (sha.content bytes) →
      (w.stores o.uuid).files.lookup uri = some (.regular bytes))
    (hold : (w.stores o.uuid).metadata.lookup uri = none ∨
      ∃ old, (w.stores o.uuid).metadata.lookup uri = some [old] ∧ old.name = filename uri)
    (h : w.Orderly sha paths made s todo) (hfuel : uri.length * (lap + 1) + lap < fuel) :
    ∃ w', WrittenAt sha o.uuid uri bytes w w' ∧ w'.Orderly sha paths made s todo ∧
      put sha (fuel + 1) w o uri bytes { replication := .NONE, rebalance := rebalance } =
        (if rebalance then (w'.successor o.uuid).bind fun node => (w'.successor (sha.uri uri)).bind
          fun owner =>
          if node ≠ owner then ignored (del sha fuel w' node uri false
            { replication := .NONE, source := some o.uuid, rebalance := rebalance }) else some w'
        else some w').bind fun w => some (w, .OK) := by
  obtain ⟨made', hmade, hparent, hfile⟩ := with_parent_spec huri.file.1 hdisk
  obtain ⟨files, hreceive, hstored, hothers⟩ := receive_file hparent hfile hregular hsame
  obtain ⟨hunder, hmaderegular⟩ := with_parent_along hmade
  have halong : (w.stores o.uuid).Along uri (written sha uri files bytes .NONE (w.stores o.uuid)) :=
    .of_made hunder hmaderegular hothers [file_record sha uri bytes .NONE]
  have hput := put_single sha fuel rebalance (hw.up o ho) hmade hreceive hstored
  generalize hw₁ : w.set o.uuid (written sha uri files bytes .NONE (w.stores o.uuid)) = w₁ at hput
  have hwritten : WrittenAt sha o.uuid uri bytes w w₁ := by
    subst hw₁
    refine ⟨Along.set halong, ?_, ?_, fun v hv => ?_, fun v hv => ?_⟩
    · rw [set_stores_self]
      exact hstored
    · rw [set_stores_self]
      exact lookup_add_record huri.file rfl hold
    · rw [set_stores_of_ne hv]
    · rw [set_stores_of_ne hv]
  have horderly : w₁.Orderly sha paths made s todo := by
    subst hw₁
    exact h.record huri.path huri.apart (by simp [file_record]) o.uuid halong.regular
  have hexact : w₁.Exact := hw.of_ring hwritten.along.ring hwritten.along.up
  obtain ⟨node, hnode, hsucc⟩ := hexact.exists_successor (sha.uri (parent_path uri))
  have hlength := Nat.mul_le_mul_right (lap + 1) (parent_path_le uri).length_le
  obtain ⟨w', status, hcall, habove⟩ := @meta_add_above sha lap hlap fuel w₁ node (parent_path uri)
    (parent_listing (file_record sha uri bytes .NONE)) { replication := .NONE, rebalance := rebalance } hexact
    hnode (by simp) (by rw [left]; omega)
  have hrecords : ∀ m ∈ parent_listing (file_record sha uri bytes .NONE), m.replication = .NONE :=
    parent_listing_replication (k := 1) rfl
  have hsame : w₁.SameAt uri w' := (Along.of_above habove (List.prefix_refl _)).same_at huri.not_below_parent
  refine ⟨w', ⟨?_, ?_, ?_, fun v hv => ?_, fun v hv => ?_⟩, ?_, ?_⟩
  · exact hwritten.along.trans (.of_above habove (parent_path_le uri))
  · rw [hsame.files, hwritten.file]
  · rw [hsame.metadata, hwritten.record]
  · rw [hsame.files, hwritten.files v hv]
  · rw [hsame.metadata, hwritten.metadata v hv]
  · exact horderly.meta_add huri.above hrecords hsucc (by rw [hcall]; rfl)
  · rw [hput, ← successor_congr hwritten.along.ring, hsucc, Option.bind_some, hcall]
    rfl

/-! ## `del` -/

/-- A node without a record deletes its file alone. -/
theorem del_without_record {recursive : Bool} {o : Options} (hup : self ∈ w.up)
    (hsource : o.source ≠ some self.uuid) (hnone : (w.stores self.uuid).metadata.lookup uri = none) :
    del sha (fuel + 1) w self uri recursive o =
      if (w.stores self.uuid).files.is_regular_file uri then
        some (w.set self.uuid { w.stores self.uuid with files := (w.stores self.uuid).files.erase uri }, .OK)
      else some (w, .UNKNOWN) := by
  rw [del]
  simp only [if_neg (not_not_intro hup), if_neg hsource, hnone]

/-- What a deletion makes of the node that has the record, after the node of the reference. -/
theorem del_recorded (fuel : Nat) (recursive : Bool) {o : Options} {w₁ : World} (hup : self ∈ w.up)
    (hsource : o.source ≠ some self.uuid) (hm : (w.stores self.uuid).metadata.lookup uri = some [m])
    (hrecord : SoleRecord sha uri bytes m)
    (hreference : (∀ k ∈ m.node_ref, k = self) ∧ w₁ = w.set self.uuid
        { w.stores self.uuid with metadata := (w.stores self.uuid).metadata.erase uri } ∨
      ∃ k, m.node_ref = some k ∧ k ≠ self ∧ ignored (del sha fuel (w.set self.uuid
        { w.stores self.uuid with metadata := (w.stores self.uuid).metadata.erase uri }) k uri recursive
          (init_source self o)) = some w₁)
    (hregular : (w₁.stores self.uuid).files.lookup uri ≠ some .directory) :
    del sha (fuel + 1) w self uri recursive o =
      (if o.source = none then
        (w₁.successor (sha.uri (parent_path uri))).bind fun node => ignored (meta_del fuel (w₁.set self.uuid
          { w₁.stores self.uuid with files := (w₁.stores self.uuid).files.erase uri }) node
            (parent_path uri) [m]
            (clear_source o))
      else some (w₁.set self.uuid
        { w₁.stores self.uuid with files := (w₁.stores self.uuid).files.erase uri })).bind fun w =>
          some (w, .OK) := by
  have helement : [m].find? (fun m => m.name = filename uri ∨ m.is_directory) = some m := by
    simp [hrecord.name]
  have hfind : ([m].find? fun m => m.name = filename uri).bind Metadata.node_ref = m.node_ref := by
    simp [hrecord.name]
  have hmax : MetaSet.max_replication [m] = .NONE := hrecord.replication
  have hremove : (w₁.stores self.uuid).files.remove uri = some ((w₁.stores self.uuid).files.erase uri) := by
    unfold Files.remove
    split
    · rename_i hdir
      exact absurd hdir hregular
    · rfl
  have hnext : ¬ (Replication.NONE.active ∧ Replication.NONE.has_next) := by decide
  have htype : m.file_type ≠ .directory := by
    rw [hrecord.file_type]
    decide
  rw [del]
  simp only [if_neg (not_not_intro hup), if_neg hsource, hm, helement, if_neg htype]
  unfold handle_del_file
  simp only [hfind, hmax, if_neg hnext, Option.bind_eq_bind]
  rcases hreference with ⟨hhere, hw₁⟩ | ⟨k, hk, hne, hdel⟩
  · have hskip : ∀ k, m.node_ref = some k → ¬ k ≠ self := fun k hk => not_not_intro (hhere k hk)
    cases hmref : m.node_ref with
    | none => simp only [← hw₁, Option.bind_some, hremove, bind_ite, Option.bind_assoc, set_successor]
    | some k =>
      simp only [← hw₁, if_neg (hskip k hmref), Option.bind_some, hremove, bind_ite, Option.bind_assoc,
        set_successor]
  · simp only [hk, if_pos hne, hdel, Option.bind_some, hremove, bind_ite, Option.bind_assoc, set_successor]

/-! ## A rebalanced put -/

theorem World.Orderly.unplace (h : w.Orderly sha paths made s todo) (huri : FileIn paths made uri)
    (u : Uuid) :
    (w.set u (unplace uri (w.stores u))).Orderly sha paths made s todo := by
  have hboth := (h.erase huri.apart u).erase_file uri u
  rwa [set_set, set_stores_self] at hboth

/-- A node loses what it has of a file: the record of its own copy, or a copy without a record. -/
structure Cleared (sha : Sha256) (paths made : Path → Prop) (s : Uuid) (todo : List Path) (uri : Path)
  (u : Uuid)
    (w w' : World) : Prop where
  along : w.Along uri w'
  stores : ∀ v ≠ u, w'.stores v = w.stores v
  record : (w'.stores u).metadata.lookup uri = none
  orderly : w'.Orderly sha paths made s todo

theorem del_after_put (fuel : Nat) {o : Options} (hup : self ∈ w.up)
    (hsource : ∃ u, o.source = some u ∧ u ≠ self.uuid) (huri : FileIn paths made uri)
    (hentry : (w.stores self.uuid).metadata.lookup uri = none ∨
      ∃ m, (w.stores self.uuid).metadata.lookup uri = some [m] ∧ SoleRecord sha uri bytes m ∧
        (∀ k ∈ m.node_ref, k = self) ∧ (w.stores self.uuid).files.lookup uri ≠ some .directory)
    (h : w.Orderly sha paths made s todo) :
    ∃ w', ignored (del sha (fuel + 1) w self uri false o) = some w' ∧
      Cleared sha paths made s todo uri self.uuid w w' := by
  obtain ⟨u, hu, hne⟩ := hsource
  have hsource : o.source ≠ some self.uuid := fun heq => hne (Option.some.inj (hu.symm.trans heq))
  rcases hentry with hnone | ⟨m, hm, hrecord, hhere, hregular⟩
  · rw [del_without_record hup hsource hnone]
    split
    · refine ⟨_, rfl, Along.set (erase_along uri _), fun v hv => set_stores_of_ne hv, ?_,
        h.erase_file uri self.uuid⟩
      rw [set_stores_self]
      exact hnone
    · exact ⟨w, rfl, .refl _ _, fun _ _ => rfl, hnone, h⟩
  · have hstore : (w.set self.uuid
        { w.stores self.uuid with metadata := (w.stores self.uuid).metadata.erase uri }).stores self.uuid =
          { w.stores self.uuid with metadata := (w.stores self.uuid).metadata.erase uri } :=
            set_stores_self _ _ _
    have hdel := del_recorded fuel false hup hsource hm hrecord (Or.inl ⟨hhere, rfl⟩)
      (by rw [hstore]; exact hregular)
    rw [if_neg (by rw [hu]; simp), hstore, set_set, Option.bind_some] at hdel
    refine ⟨w.set self.uuid (unplace uri (w.stores self.uuid)), ?_, Along.set (unplace_along uri _),
      fun v hv => set_stores_of_ne hv, ?_, h.unplace huri self.uuid⟩
    · rw [hdel]
      rfl
    · rw [set_stores_self]
      exact AList.lookup_erase _ _

/-- The owner has the file and the only record of it. -/
theorem WrittenAt.placed (h : WrittenAt sha o.uuid uri bytes w w') (ho : o ∈ w.ring)
    (hstore : v.stores o.uuid = w'.stores o.uuid) (hring : v.ring = w.ring)
    (hothers : ∀ n ∈ w.ring, n.uuid ≠ o.uuid → (v.stores n.uuid).metadata.lookup uri = none) :
    Placed sha v uri bytes o where
  holder := hring ▸ ho
  entry := ⟨file_record sha uri bytes .NONE, by rw [hstore, h.record], ⟨rfl, rfl, rfl, rfl⟩,
    .here (by simp [file_record]) (by rw [hstore, h.file])⟩
  others n hn := hothers n (hring ▸ hn)

/-- The owner had the file, or nothing of it. -/
theorem Inherits.fresh (h : Inherits w uri x o) (hw : w.Exact) (ho : o ∈ w.ring)
    (hplaced : Placed sha w uri bytes x) :
    o = x ∨ (w.stores o.uuid).files.lookup uri = none ∧ (w.stores o.uuid).metadata.lookup uri = none := by
  by_cases hox : o = x
  · exact Or.inl hox
  · exact Or.inr ⟨(h hox).1, hplaced.others o ho fun heq => hox (hw.members o ho x hplaced.holder heq)⟩

/-- Another record may be at the node after the owner only. -/
theorem WrittenAt.only_next {n : Node} (h : WrittenAt sha o.uuid uri bytes w w') (hw : w.Exact)
    (ho : o ∈ w.ring) (hplaced : Placed sha w uri bytes x) (hinherits : Inherits w uri x o)
    (hn : w.successor o.uuid = some n) :
    ∀ y ∈ w.ring, y ≠ o → y ≠ n → (w'.stores y.uuid).metadata.lookup uri = none := by
  intro y hy hyo hyn
  rw [h.metadata y.uuid fun heq => hyo (hw.members y hy o ho heq)]
  refine hplaced.others y hy fun heq => ?_
  obtain rfl := hw.members y hy x hplaced.holder heq
  exact hyn (Option.some.inj ((hinherits fun hoy => hyo hoy.symm).2.symm.trans hn))

/-- The owner gets the file and the record, and who had them has neither. -/
theorem rebalance_put (hlap : Lap lap) (hw : w.Exact) (huri : FileIn paths made uri)
    (hdisk : ∀ n ∈ w.ring, Writable (w.stores n.uuid) uri) (hplaced : Placed sha w uri bytes x)
    (howner : w.successor (sha.uri uri) = some o) (hinherits : Inherits w uri x o)
    (hm : (w.stores x.uuid).metadata.lookup uri = some [m]) (hself : m.node_ref = some x)
    (h : w.Orderly sha paths made s todo) (hfuel : uri.length * (lap + 1) + lap + 1 < fuel) :
    ∃ w', ignored (put sha fuel w o uri bytes { replication := .NONE, rebalance := true }) = some w' ∧
      w.Along uri w' ∧ Placed sha w' uri bytes o ∧ w'.Orderly sha paths made s todo := by
  obtain ⟨fuel, rfl⟩ : ∃ n, fuel = n + 2 := ⟨fuel - 2, by omega⟩
  have ho : o ∈ w.ring := successor_mem howner
  obtain ⟨m', hm', hrecord, hkept⟩ := hplaced.entry
  obtain rfl : m' = m := by simpa using hm'.symm.trans hm
  have hfile : (w.stores x.uuid).files.lookup uri = some (.regular bytes) := by
    cases hkept with
    | here _ hfile => exact hfile
    | there k _ hne hnode _ _ =>
      rw [hself, Option.some.injEq] at hnode
      exact absurd (congrArg Node.uuid hnode).symm hne
  have hfresh := hinherits.fresh hw ho hplaced
  have hregular : (w.stores o.uuid).files.lookup uri ≠ some .directory := by
    rcases hfresh with rfl | ⟨hnone, -⟩
    · simp [hfile]
    · simp [hnone]
  have hsame : file_hashes_equal (w.stores o.uuid) uri (sha.content bytes) →
      (w.stores o.uuid).files.lookup uri = some (.regular bytes) := by
    rintro ⟨records, hrecords, -⟩
    rcases hfresh with rfl | ⟨-, hnone⟩
    · exact hfile
    · rw [hnone] at hrecords
      cases hrecords
  have hold : (w.stores o.uuid).metadata.lookup uri = none ∨
      ∃ old, (w.stores o.uuid).metadata.lookup uri = some [old] ∧ old.name = filename uri := by
    rcases hfresh with rfl | ⟨-, hnone⟩
    · exact Or.inr ⟨m', hm, hrecord.name⟩
    · exact Or.inl hnone
  obtain ⟨w₁, hwritten, horderly, hput⟩ :=
    put_written bytes true hlap hw ho huri (hdisk o ho) hregular hsame hold
    h (by omega : _ < fuel + 1)
  have hring := hwritten.along.ring
  obtain ⟨n, hn, hsucc⟩ := hw.exists_successor o.uuid
  have honly := hwritten.only_next hw ho hplaced hinherits hsucc
  rw [successor_congr hring, hsucc, successor_congr hring, howner] at hput
  simp only [Option.bind_some, if_true] at hput
  by_cases hno : n = o
  · -- the owner is alone
    rw [if_neg (not_not_intro hno), Option.bind_some] at hput
    refine ⟨w₁, by rw [hput]; rfl, hwritten.along, hwritten.placed ho rfl hring fun y hy hne => ?_, horderly⟩
    have hyo : y ≠ o := fun heq => hne (congrArg Node.uuid heq)
    exact honly y hy hyo (hno ▸ hyo)
  · rw [if_pos hno] at hput
    have hnuuid : n.uuid ≠ o.uuid := fun heq => hno (hw.members n hn o ho heq)
    have hentry : (w₁.stores n.uuid).metadata.lookup uri = none ∨
        ∃ m, (w₁.stores n.uuid).metadata.lookup uri = some [m] ∧ SoleRecord sha uri bytes m ∧
          (∀ k ∈ m.node_ref, k = n) ∧ (w₁.stores n.uuid).files.lookup uri ≠ some .directory := by
      rw [hwritten.metadata n.uuid hnuuid, hwritten.files n.uuid hnuuid]
      by_cases hnx : n = x
      · subst hnx
        exact Or.inr ⟨m', hm, hrecord,
          fun k hk => (Option.some.inj (hself.symm.trans hk)).symm, by simp [hfile]⟩
      · exact Or.inl (hplaced.others n hn fun heq => hnx (hw.members n hn x hplaced.holder heq))
    have hup : n ∈ w₁.up := (hw.of_ring hring hwritten.along.up).up n (hring ▸ hn)
    obtain ⟨w₂, hdel, hcleared⟩ := del_after_put fuel
      (o := { replication := .NONE, source := some o.uuid, rebalance := true }) hup ⟨o.uuid, rfl, hnuuid.symm⟩
      huri hentry horderly
    rw [hdel, Option.bind_some] at hput
    refine ⟨w₂, by rw [hput]; rfl, hwritten.along.trans hcleared.along,
      hwritten.placed ho (hcleared.stores o.uuid hnuuid.symm)
        (hcleared.along.ring.trans hring) fun y hy hne => ?_,
      hcleared.orderly⟩
    by_cases hyn : y = n
    · rw [hyn]
      exact hcleared.record
    · rw [hcleared.stores y.uuid fun heq => hyn (hw.members y hy n hn heq)]
      exact honly y hy (fun heq => hne (congrArg Node.uuid heq)) hyn

/-! ## Commands of a client -/

/-- A file is put where there is none, or one with another hash. -/
theorem put_placed (self : Peer) (hlap : Lap lap) (hw : w.Exact) (huri : FileIn paths made uri)
    (hdisk : ∀ n ∈ w.ring, Writable (w.stores n.uuid) uri) (howner : w.successor (sha.uri uri) = some o)
    (hstate : Nowhere sha w uri ∨ ∃ old, Placed sha w uri old o ∧ sha.content old ≠ sha.content bytes)
    (h : w.Orderly sha paths made s todo) (hfuel : uri.length * (lap + 1) + lap + 1 < fuel) :
    ∃ w', put_file sha fuel self w uri bytes .NONE = some (w', .OK) ∧ w.Along uri w' ∧
      Placed sha w' uri bytes o ∧ w'.Orderly sha paths made s todo := by
  obtain ⟨fuel, rfl⟩ : ∃ n, fuel = n + 1 := ⟨fuel - 1, by omega⟩
  have ho : o ∈ w.ring := successor_mem howner
  have hold : (w.stores o.uuid).metadata.lookup uri = none ∨
      ∃ m, (w.stores o.uuid).metadata.lookup uri = some [m] ∧ m.name = filename uri := by
    rcases hstate with hnowhere | ⟨old, hplaced, -⟩
    · exact Or.inl (hnowhere.entries o ho)
    · obtain ⟨m, hm, hrecord, -⟩ := hplaced.entry
      exact Or.inr ⟨m, hm, hrecord.name⟩
  have hregular : (w.stores o.uuid).files.lookup uri ≠ some .directory := by
    rcases hstate with hnowhere | ⟨old, hplaced, -⟩
    · rw [hnowhere.file o howner]
      simp
    · obtain ⟨m, -, -, hkept⟩ := hplaced.entry
      cases hkept with
      | here _ hfile =>
        rw [hfile]
        simp
      | there _ _ _ _ _ hnone =>
        rw [hnone]
        simp
  have hnew : ¬ file_hashes_equal (w.stores o.uuid) uri (sha.content bytes) := by
    rintro ⟨records, hrecords, -, hhash⟩
    rcases hstate with hnowhere | ⟨old, hplaced, hne⟩
    · rw [hnowhere.entries o ho] at hrecords
      cases hrecords
    · obtain ⟨m, hm, hrecord, -⟩ := hplaced.entry
      rw [hm, Option.mem_some_iff] at hrecords
      subst hrecords
      exact hne (Option.some.inj (hrecord.hash.symm.trans (hhash m rfl)))
  have hothers : ∀ n ∈ w.ring, n.uuid ≠ o.uuid → (w.stores n.uuid).metadata.lookup uri = none := by
    rcases hstate with hnowhere | ⟨old, hplaced, -⟩
    · exact fun n hn _ => hnowhere.entries n hn
    · exact hplaced.others
  obtain ⟨w', hwritten, horderly, hput⟩ := put_written bytes false hlap hw ho huri
    (hdisk o ho) hregular (fun hequal => absurd hequal hnew) hold h (by omega : _ < fuel)
  refine ⟨w', ?_, hwritten.along, hwritten.placed ho rfl hwritten.along.ring fun n hn hne => ?_, horderly⟩
  · rw [put_file, howner, Option.bind_eq_bind, Option.bind_some, client_put, if_neg (by simp)]
    exact hput
  · rw [hwritten.metadata n.uuid hne]
    exact hothers n hn hne

/-- The node that keeps a file deletes it before its owner does. -/
theorem del_kept (recursive : Bool) (fuel : Nat) (hw : w.Exact) (hkept : KeptBy w uri bytes o m)
    (hothers : ∀ n ∈ w.ring, n.uuid ≠ o.uuid → (w.stores n.uuid).metadata.lookup uri = none)
    (h : w.Orderly sha paths made s todo) :
    ∃ w', ((∀ k ∈ m.node_ref, k = o) ∧ w' = w ∨ ∃ k, m.node_ref = some k ∧ k ≠ o ∧
        ignored (del sha (fuel + 1) w k uri recursive (init_source o {})) = some w') ∧
      w.Along uri w' ∧ w'.stores o.uuid = w.stores o.uuid ∧
      (∀ u, (w'.stores u).metadata = (w.stores u).metadata) ∧ w'.Orderly sha paths made s todo := by
  cases hkept with
  | here hnode _ => exact ⟨w, Or.inl ⟨hnode, rfl⟩, .refl _ _, rfl, fun _ => rfl, h⟩
  | there k hk hne hnode hfile _ =>
    have hdel : del sha (fuel + 1) w k uri recursive (init_source o {}) = _ :=
      del_without_record (hw.up k hk) (fun heq => hne (Option.some.inj heq).symm) (hothers k hk hne)
    have hregular : (w.stores k.uuid).files.is_regular_file uri := by
      rw [Files.is_regular_file, hfile]
    rw [if_pos hregular] at hdel
    exact ⟨_, Or.inr ⟨k, hnode, fun heq => hne (congrArg Node.uuid heq), by rw [hdel]; rfl⟩,
      Along.set (erase_along uri _), set_stores_of_ne hne.symm, set_files_metadata w k.uuid _,
      h.erase_file uri k.uuid⟩

/-- Other names stay in the listing. -/
theorem Unnamed.owner_lists {p d : Path} {name n : Name} (h : Unnamed p name w w') (hn : d = p → n ≠ name)
    (hl : OwnerLists sha w d n) : OwnerLists sha w' d n := by
  obtain ⟨y, hy, r, hr, hmem⟩ := hl
  refine ⟨y, by rw [successor_congr h.ring, hy], ?_⟩
  by_cases hd : d = p
  · subst hd
    rcases h.entry y.uuid with hsame | hfiltered
    · exact ⟨r, by rw [hsame]; exact hr, hmem⟩
    · obtain ⟨m, hm, rfl⟩ := List.mem_map.mp hmem
      have hin : m ∈ r.filter fun m => m.name ≠ name := List.mem_filter.mpr ⟨hm, decide_eq_true (hn rfl)⟩
      exact ⟨_, by rw [hfiltered, Option.mem_def.mp hr]; rfl, List.mem_map_of_mem hin⟩
  · exact ⟨r, by rw [h.metadata y.uuid d hd]; exact hr, hmem⟩

/-- The node `o` gives up its record and its copy of a file; nobody else's records change. -/
structure Erasure (uri : Path) (o : Node) (w w' : World) : Prop where
  ring : w'.ring = w.ring
  metadata : ∀ u, (w'.stores u).metadata = ((w.set o.uuid
    { w.stores o.uuid with metadata := (w.stores o.uuid).metadata.erase uri }).stores u).metadata
  files : (w'.stores o.uuid).files.lookup uri = none

theorem Erasure.same_entry (h : Erasure uri o w w') (u : Uuid) (hd : d ≠ uri) : SameEntry u d w w' := by
  rw [SameEntry, h.metadata]
  rcases eq_or_ne u o.uuid with rfl | hne
  · rw [set_stores_self]
    exact AList.lookup_erase_ne hd
  · rw [set_stores_of_ne hne]

theorem Placed.erased (hplaced : Placed sha w uri bytes o)
    (howner : w.successor (sha.uri uri) = some o) (h : Erasure uri o w w') : Nowhere sha w' uri := by
  refine ⟨fun n hn => ?_, fun y hy => ?_⟩
  · rw [h.metadata]
    exact hplaced.unrecorded (h.ring ▸ hn)
  · rw [successor_congr h.ring, howner, Option.some.injEq] at hy
    rw [← hy]
    exact h.files

/-- Nobody has a record of the file afterwards. -/
theorem del_placed (recursive : Bool) (hlap : Lap lap) (hw : w.Exact) (huri : FileIn paths made uri)
    (howner : w.successor (sha.uri uri) = some o) (hplaced : Placed sha w uri bytes o)
    (h : w.Orderly sha paths made s todo) (hfuel : lap + 1 < fuel) :
    ∃ w', facade_del sha fuel w uri recursive = some (w', .OK) ∧ w.Along uri w' ∧ Nowhere sha w' uri ∧
      w'.Orderly sha paths made s todo ∧ ∀ d n, d ≠ uri → (d = parent_path uri → n ≠ filename uri) →
        OwnerLists sha w d n → OwnerLists sha w' d n := by
  obtain ⟨fuel, rfl⟩ : ∃ n, fuel = n + 2 := ⟨fuel - 2, by omega⟩
  have ho := hplaced.holder
  obtain ⟨m, hm, hrecord, hkept⟩ := hplaced.entry
  generalize herased : w.set o.uuid
    { w.stores o.uuid with metadata := (w.stores o.uuid).metadata.erase uri } = w₀
  have hstore : w₀.stores o.uuid =
      { w.stores o.uuid with metadata := (w.stores o.uuid).metadata.erase uri } := by
    rw [← herased, set_stores_self]
  have habove₀ : w.Above uri w₀ := herased ▸ erase_above w o.uuid uri
  have hexact₀ := habove₀.exact hw
  have hothers : ∀ n ∈ w₀.ring, n.uuid ≠ o.uuid → (w₀.stores n.uuid).metadata.lookup uri = none :=
    fun n hn _ => herased ▸ hplaced.unrecorded (habove₀.ring ▸ hn)
  -- the node of the reference loses its file first
  obtain ⟨w₁, hreference, halong₁, hstore₁, hmetadata₁, h₁⟩ := del_kept recursive fuel hexact₀
    (hkept.congr habove₀.ring fun u => by rw [(habove₀.stores u).files]) hothers
    (herased ▸ h.erase huri.apart o.uuid)
  have hregular : (w₁.stores o.uuid).files.lookup uri ≠ some .directory := by
    rw [hstore₁, hstore]
    cases hkept with
    | here _ hfile => simp [hfile]
    | there _ _ _ _ _ hnone => simp [hnone]
  rw [← herased] at hreference
  have hdel := del_recorded (fuel + 1) recursive (hw.up o ho) (by simp) hm hrecord hreference hregular
  rw [if_pos rfl] at hdel
  generalize hcleared : w₁.set o.uuid
    { w₁.stores o.uuid with files := (w₁.stores o.uuid).files.erase uri } = w₂ at hdel
  have halong₀ : w.Along uri w₀ := .of_above habove₀ (List.prefix_refl _)
  have halong : w.Along uri w₂ := (halong₀.trans halong₁).trans (hcleared ▸ Along.set (erase_along uri _))
  have h₂ : w₂.Orderly sha paths made s todo := hcleared ▸ h₁.erase_file uri o.uuid
  have hexact : w₂.Exact := hw.of_ring halong.ring halong.up
  obtain ⟨node, hnode, hsucc⟩ := hexact.exists_successor (sha.uri (parent_path uri))
  obtain ⟨w', status, hcall, habove⟩ := meta_del_above hlap (fuel + 1) (parent_path uri) [m]
    (o := clear_source {}) hexact hnode (by simp [clear_source]) (by rw [clear_source, left]; omega)
  have hsame : w₂.SameAt uri w' := (Along.of_above habove (List.prefix_refl _)).same_at huri.not_below_parent
  have herasure : Erasure uri o w w₂ := by
    refine ⟨halong.ring, fun u => ?_, ?_⟩
    · rw [← hcleared, set_files_metadata, hmetadata₁, ← herased]
    · rw [← hcleared, set_stores_self]
      exact AList.lookup_erase _ _
  have hnowhere := hplaced.erased howner herasure
  have hignored : ignored (meta_del (fuel + 1) w₂ node (parent_path uri) [m] (clear_source {})) =
      some w' := by
    rw [hcall]
    rfl
  have hunnamed : Unnamed (parent_path uri) (filename uri) w₂ w' :=
    after_ignored (meta_del_unnamed (by simp [hrecord.name]) _ _ _) hignored
  refine ⟨w', ?_, halong.trans (.of_above habove (parent_path_le uri)), hnowhere.congr hsame,
    h₂.meta_del (fun x hx => ?_) hignored, fun d n hd hn hl => hunnamed.owner_lists hn ?_⟩
  · have hring : w₁.ring = w₂.ring := by rw [← hcleared, set_ring]
    rw [facade_del, howner, Option.bind_eq_bind, Option.bind_some, hdel, successor_congr hring, hsucc,
      Option.bind_some, hcall]
    rfl
  · obtain rfl := List.mem_singleton.mp hx
    rw [hrecord.name]
    exact huri.file.named.1
  · exact (OwnerLists.congr halong.ring fun y _ => herasure.same_entry y.uuid hd).mpr hl

/-- There is nothing to delete. -/
theorem del_nowhere (recursive : Bool) (hw : w.Exact) (howner : w.successor (sha.uri uri) = some o)
    (h : Nowhere sha w uri) : facade_del sha (fuel + 1) w uri recursive = some (w, .UNKNOWN) := by
  have ho : o ∈ w.ring := successor_mem howner
  have hregular : ¬ (w.stores o.uuid).files.is_regular_file uri := by
    rw [Files.is_regular_file, h.file o howner]
    simp
  rw [facade_del, howner, Option.bind_eq_bind, Option.bind_some,
    del_without_record (hw.up o ho) (by simp) (h.entries o ho), if_neg hregular]

theorem get_nowhere (hw : w.Exact) (howner : w.successor (sha.uri uri) = some o) (h : Nowhere sha w uri) :
    Get.get_file sha uri (fuel + 2) w = some (w, .failed) := by
  have ho : o ∈ w.ring := successor_mem howner
  rw [Get.get_file, howner, Option.bind_eq_bind, Option.bind_some, Get.drive]
  simp only [Get.step, Get.get_clear [] (hw.up o ho) ⟨h.file o howner, h.entries o ho⟩, Option.bind_some,
    Get.drive]

/-- The owner without the file opens an empty one and asks the node of the reference. -/
theorem get_reference {k : Node} {made' : Files} (hup : o ∈ w.up)
    (hm : (w.stores o.uuid).metadata.lookup uri = some [m]) (hnode : m.node_ref = some k)
    (hnone : (w.stores o.uuid).files.lookup uri = none)
    (hmade : (w.stores o.uuid).files.create_parent uri = some made') (hfile : made'.lookup uri = none)
    (hparent : made'.lookup (parent_path uri) = some .directory) :
    Get.State.get uri ⟨w, [], .call o⟩ o =
      ⟨w.set o.uuid { w.stores o.uuid with files := made'.insert uri (.regular []) },
        [⟨o, .reference m k []⟩], .call k⟩ := by
  have hexists : ¬ (w.stores o.uuid).files.exists_at uri := by
    rw [Files.exists_at, ← AList.lookup_isSome, hnone]
    simp
  have htruncate : made'.truncate uri = some (made'.insert uri (.regular [])) := by
    unfold Files.truncate
    rw [hfile]
    exact if_pos hparent
  unfold Get.State.get
  dsimp only
  rw [if_neg (not_not_intro hup), if_neg hexists, hm]
  simp only [Get.State.get_from_reference_or_replication, hmade, hnode, Get.State.set, Get.State.ask,
    set_stores_self, htruncate, set_set]

/-- The record of a file that has come to its owner. -/
def arrived (sha : Sha256) (m : Metadata) (bytes : Bytes) : Metadata :=
  { m with node_ref := none, file_hash := some (sha.content bytes) }

/-- The file arrives, and the node of the reference deletes it. -/
theorem resume_reference (sha : Sha256) (m : Metadata) (fuel : Nat) {k : Node} (hk : k ∈ w.up)
    (hne : k.uuid ≠ o.uuid) (hfile : (w.stores o.uuid).files.lookup uri = some (.regular []))
    (hkfile : (w.stores k.uuid).files.lookup uri = some (.regular bytes))
    (hkrecord : (w.stores k.uuid).metadata.lookup uri = none) :
    Get.State.resume sha uri (fuel + 1) ⟨w, [], .answer (.streamed bytes)⟩ ⟨o, .reference m k []⟩
        (.streamed bytes) .complete =
      some ⟨(w.set o.uuid { w.stores o.uuid with
          files := (w.stores o.uuid).files.insert uri (.regular bytes)
          metadata := ((w.stores o.uuid).metadata.add uri [arrived sha m bytes]).1 }).set k.uuid
            { w.stores k.uuid with files := (w.stores k.uuid).files.erase uri }, [],
        .answer (.streamed bytes)⟩ := by
  generalize hw₁ : w.set o.uuid { w.stores o.uuid with
        files := (w.stores o.uuid).files.insert uri (.regular bytes)
        metadata := ((w.stores o.uuid).metadata.add uri [arrived sha m bytes]).1 } = w₁
  have hwrite : (w.stores o.uuid).files.write uri bytes =
      some ((w.stores o.uuid).files.insert uri (.regular bytes)) := by
    unfold Files.write
    rw [hfile]
  have hkstore : w₁.stores k.uuid = w.stores k.uuid := by rw [← hw₁, set_stores_of_ne hne]
  have hregular : (w₁.stores k.uuid).files.is_regular_file uri := by
    rw [Files.is_regular_file, hkstore, hkfile]
  have hdel : del sha (fuel + 1) w₁ k uri false {} = _ :=
    del_without_record (by rw [← hw₁]; exact hk) (by simp) (by rw [hkstore]; exact hkrecord)
  rw [if_pos hregular, hkstore] at hdel
  have hfinal : ((w₁.set k.uuid { w.stores k.uuid with
      files := (w.stores k.uuid).files.erase uri }).stores o.uuid).files.lookup uri =
        some (.regular bytes) := by
    rw [set_stores_of_ne hne.symm, ← hw₁, set_stores_self]
    exact AList.lookup_insert _
  rw [arrived] at hw₁
  unfold Get.State.resume
  simp only [Get.received, hwrite, Option.getD_some, if_true, Get.State.set, AList.lookup_insert,
    set_set, hw₁,
    hdel, Option.bind_eq_bind, Option.bind_some, Get.State.stream, hfinal, Get.State.answer]

/-- The disk of the owner after a file has come from the node of the reference. -/
def fetched (sha : Sha256) (uri : Path) (m : Metadata) (bytes : Bytes) (made : Files) (store : Store) :
    Store :=
  { store with
    files := (made.insert uri (.regular [])).insert uri (.regular bytes)
    metadata := (store.metadata.add uri [arrived sha m bytes]).1 }

theorem get_through {k : Node} {made' : Files} (fuel : Nat) (howner : w.successor (sha.uri uri) = some o)
    (hup : o ∈ w.up) (hk : k ∈ w.up) (hne : k.uuid ≠ o.uuid)
    (hm : (w.stores o.uuid).metadata.lookup uri = some [m]) (hnode : m.node_ref = some k)
    (hnone : (w.stores o.uuid).files.lookup uri = none)
    (hmade : (w.stores o.uuid).files.create_parent uri = some made') (hmissing : made'.lookup uri = none)
    (hparent : made'.lookup (parent_path uri) = some .directory)
    (hfile : (w.stores k.uuid).files.lookup uri = some (.regular bytes))
    (hrecord : (w.stores k.uuid).metadata.lookup uri = none) :
    Get.get_file sha uri (fuel + 4) w = some ((w.set o.uuid
      (fetched sha uri m bytes made' (w.stores o.uuid))).set k.uuid
        { w.stores k.uuid with files := (w.stores k.uuid).files.erase uri }, .streamed bytes) := by
  have hget := get_reference hup hm hnode hnone hmade hmissing hparent
  generalize hopened : w.set o.uuid { w.stores o.uuid with files := made'.insert uri (.regular []) } =
    w₀ at hget
  have hostore : w₀.stores o.uuid = { w.stores o.uuid with files := made'.insert uri (.regular []) } := by
    rw [← hopened, set_stores_self]
  have hkstore : w₀.stores k.uuid = w.stores k.uuid := by rw [← hopened, set_stores_of_ne hne]
  have hkup : k ∈ w₀.up := hopened ▸ hk
  have hpresent : Get.State.get uri ⟨w₀, [⟨o, .reference m k []⟩], .call k⟩ k = _ :=
    Get.get_present [⟨o, .reference m k []⟩] hkup (by rw [hkstore]; exact hfile)
  have hresume := resume_reference sha m (fuel + 3) hkup hne (by rw [hostore]; exact AList.lookup_insert _)
    (by rw [hkstore]; exact hfile) (by rw [hkstore]; exact hrecord)
  rw [hostore, hkstore] at hresume
  rw [Get.get_file, howner, Option.bind_eq_bind, Option.bind_some, Get.drive]
  simp only [Get.step, hget, Option.bind_some, Get.drive, hpresent, hresume]
  rw [← hopened, set_set]
  rfl

/-- A `get` answers the bytes. The file is at its owner afterwards. -/
theorem get_placed (fuel : Nat) (hw : w.Exact) (huri : FileIn paths made uri)
    (hdisk : ∀ n ∈ w.ring, Writable (w.stores n.uuid) uri) (howner : w.successor (sha.uri uri) = some o)
    (hplaced : Placed sha w uri bytes o) (h : w.Orderly sha paths made s todo) :
    ∃ w', Get.get_file sha uri (fuel + 4) w = some (w', .streamed bytes) ∧ w.Along uri w' ∧
      Placed sha w' uri bytes o ∧ w'.Orderly sha paths made s todo ∧ ∀ u q, q ≠ uri → SameEntry u q w w' := by
  have ho := hplaced.holder
  have hup := hw.up o ho
  obtain ⟨m, hm, hrecord, hkept⟩ := hplaced.entry
  cases hkept with
  | here hnode hfile =>
    refine ⟨w, ?_, .refl _ _, hplaced, h, fun _ _ _ => rfl⟩
    rw [Get.get_file, howner, Option.bind_eq_bind, Option.bind_some, Get.drive]
    simp only [Get.step, Get.get_present [] hup hfile, Option.bind_some, Get.drive]
  | there k hk hne hnode hfile hnone =>
    obtain ⟨made', hmade, hmissing, hparent⟩ := Get.create_parent_missing hnone (hdisk o ho) huri.file.1
    obtain ⟨hunder, hregular⟩ := create_parent_along hmade
    have halong : (w.stores o.uuid).Along uri (fetched sha uri m bytes made' (w.stores o.uuid)) :=
      .of_made hunder hregular (fun q hq => by rw [AList.lookup_insert_ne hq, AList.lookup_insert_ne hq]) _
    have horderly : (w.set o.uuid (fetched sha uri m bytes made' (w.stores o.uuid))).Orderly sha paths made s
        todo :=
      h.record huri.path huri.apart (by simp [arrived, hrecord.replication]) o.uuid halong.regular
    have hkeeper : (w.set o.uuid (fetched sha uri m bytes made' (w.stores o.uuid))).stores k.uuid =
      w.stores k.uuid := set_stores_of_ne hne
    refine ⟨_, get_through fuel howner hup (hw.up k hk) hne hm hnode hnone hmade hmissing hparent hfile
      (hplaced.others k hk hne), (Along.set halong).trans ?_, ⟨ho, ⟨arrived sha m bytes, ?_,
        ⟨hrecord.name, hrecord.file_type, hrecord.replication, rfl⟩, .here (by simp [arrived]) ?_⟩,
      fun n hn hno => ?_⟩, ?_, fun u q hq => ?_⟩
    · rw [← hkeeper]
      exact Along.set (erase_along uri _)
    · rw [set_stores_of_ne hne.symm, set_stores_self]
      exact lookup_add_record huri.file hrecord.name (Or.inr ⟨m, hm, hrecord.name⟩)
    · rw [set_stores_of_ne hne.symm, set_stores_self]
      exact AList.lookup_insert _
    · rw [← hkeeper, set_files_metadata, set_stores_of_ne hno]
      exact hplaced.others n hn hno
    · rw [← hkeeper]
      exact horderly.erase_file uri k.uuid
    · rw [SameEntry, ← hkeeper, set_files_metadata]
      rcases eq_or_ne u o.uuid with rfl | hu
      · rw [set_stores_self]
        exact MetaStore.add_lookup_of_ne hq
      · rw [set_stores_of_ne hu]

end

end Fs

end Chord
