import Chord.Fs.Repair
import Chord.Fs.Tidy

/-!
# Where the only copy of a file is

The record is at one node. The file is at the same node, or the record has a reference to the node
that keeps it.
-/

open Circle

namespace Chord

namespace Fs

open World

section

variable (sha : Sha256)

/-- The only record of a file with these bytes. -/
structure SoleRecord (uri : Path) (bytes : Bytes) (m : Metadata) : Prop where
  name : m.name = filename uri
  file_type : m.file_type = .regular
  replication : m.replication = .NONE
  hash : m.file_hash = some (sha.content bytes)

/-- The file that the record `m` at the node `x` is about. -/
inductive KeptBy (w : World) (uri : Path) (bytes : Bytes) (x : Node) (m : Metadata) : Prop
  | here (hnode : ∀ k ∈ m.node_ref, k = x)
    (hfile : (w.stores x.uuid).files.lookup uri = some (.regular bytes))
  | there (k : Node) (hk : k ∈ w.ring) (hne : k.uuid ≠ x.uuid) (hnode : m.node_ref = some k)
    (hfile : (w.stores k.uuid).files.lookup uri = some (.regular bytes))
    (hnone : (w.stores x.uuid).files.lookup uri = none)

/-- The node `x` has the record, and no other member has one. -/
structure Placed (w : World) (uri : Path) (bytes : Bytes) (x : Node) : Prop where
  holder : x ∈ w.ring
  entry : ∃ m, (w.stores x.uuid).metadata.lookup uri = some [m] ∧ SoleRecord sha uri bytes m ∧
    KeptBy w uri bytes x m
  others : ∀ n ∈ w.ring, n.uuid ≠ x.uuid → (w.stores n.uuid).metadata.lookup uri = none

/-- Nobody has a record, and the owner does not have the file either. -/
structure Nowhere (w : World) (uri : Path) : Prop where
  entries : ∀ n ∈ w.ring, (w.stores n.uuid).metadata.lookup uri = none
  file : ∀ x, w.successor (sha.uri uri) = some x → (w.stores x.uuid).files.lookup uri = none

/-- What there is at one path. -/
structure World.SameAt (uri : Path) (w w' : World) : Prop where
  ring : w'.ring = w.ring
  files : ∀ u, (w'.stores u).files.lookup uri = (w.stores u).files.lookup uri
  metadata : ∀ u, (w'.stores u).metadata.lookup uri = (w.stores u).metadata.lookup uri

variable {sha} {w w' v : World} {uri q : Path} {bytes : Bytes} {x : Node} {m : Metadata}

theorem World.Along.same_at (h : w.Along q w') (hq : ¬ uri <+: q) : w.SameAt uri w' :=
  ⟨h.ring, fun u => (h.stores u).files uri hq, fun u => (h.stores u).metadata uri hq⟩

theorem KeptBy.congr (h : KeptBy w uri bytes x m) (hring : w'.ring = w.ring)
    (hfiles : ∀ u, (w'.stores u).files.lookup uri = (w.stores u).files.lookup uri) :
    KeptBy w' uri bytes x m := by
  cases h with
  | here hnode hfile => exact .here hnode (by rw [hfiles, hfile])
  | there k hk hne hnode hfile hnone =>
    exact .there k (hring ▸ hk) hne hnode (by rw [hfiles, hfile]) (by rw [hfiles, hnone])

theorem Placed.congr (h : Placed sha w uri bytes x) (hsame : w.SameAt uri w') :
    Placed sha w' uri bytes x := by
  obtain ⟨m, hm, hrecord, hkept⟩ := h.entry
  refine ⟨hsame.ring ▸ h.holder,
    ⟨m, by rw [hsame.metadata, hm], hrecord, hkept.congr hsame.ring hsame.files⟩, ?_⟩
  intro n hn hne
  rw [hsame.metadata]
  exact h.others n (hsame.ring ▸ hn) hne

theorem Nowhere.congr (h : Nowhere sha w uri) (hsame : w.SameAt uri w') : Nowhere sha w' uri := by
  refine ⟨fun n hn => ?_, fun x hx => ?_⟩
  · rw [hsame.metadata]
    exact h.entries n (hsame.ring ▸ hn)
  · rw [hsame.files]
    exact h.file x (by rwa [successor_congr hsame.ring] at hx)

/-! ## The record is sent to its owner -/

variable {paths made : Path → Prop} {s : Uuid} {todo : List Path} {lap fuel : Nat} {o : Node}

/-- The file is none of the directories, and those above it were made. -/
structure FileIn (paths made : Path → Prop) (uri : Path) : Prop where
  path : paths uri
  file : FilePath uri
  apart : ¬ made uri
  above : ∀ c, c <+: parent_path uri → made c

/-- A record goes to a node that has none. -/
theorem meta_add_record (hlap : Lap lap) (hw : w.Exact) (ho : o ∈ w.ring) (huri : FileIn paths made uri)
    (htype : m.file_type = .regular) (hnone : m.replication = .NONE)
    (hclear : (w.stores o.uuid).metadata.lookup uri = none) (h : w.Orderly sha paths made s todo)
    (hfuel : uri.length * (lap + 1) + lap < fuel) :
    ∃ w', meta_add sha fuel w o uri [m] {} = some (w', .OK) ∧
      (w.add_entry o uri [m.sent]).Above (parent_path uri) w' ∧ w'.Orderly sha paths made s todo := by
  obtain ⟨fuel, rfl⟩ : ∃ n, fuel = n + 1 := ⟨fuel - 1, by omega⟩
  obtain ⟨w', status, hcall, -⟩ := @meta_add_above sha lap hlap (fuel + 1) w o uri [m] {} hw ho (by simp)
    (by rw [left]; omega)
  have hsent : MetaSet.of_list ([m].map Metadata.sent) = [m.sent] :=
    MetaSet.of_list_ordered (List.pairwise_singleton _ _)
  have hentry : entry_of uri [m.sent] = [m.sent] := by
    refine if_neg fun hmkdir => ?_
    have hdirectory : m.file_type = .directory := hmkdir.1
    rw [htype] at hdirectory
    cases hdirectory
  have hnone' : ∀ x ∈ [m.sent], x.replication = .NONE := by simpa [Metadata.sent] using hnone
  have hadded : (w.add_entry o uri [m.sent]).Orderly sha paths made s todo :=
    h.record huri.path huri.apart hnone' o.uuid fun _ _ => Or.inr
  have haccepted := hcall
  rw [meta_add_accepted sha hsent (hw.up o ho) (by simp) (by simp)
    (fun existing hmem => by rw [hclear] at hmem; cases hmem) (show _ = entry_of uri [m.sent] from rfl),
      hentry,
    MetaSet.no_next_copy hnone'] at haccepted
  obtain ⟨v, hv, hrest⟩ := Option.bind_eq_some_iff.mp haccepted
  rw [if_neg (by simp)] at hrest
  cases hrest
  refine ⟨w', hcall, ?_⟩
  split at hv
  · obtain ⟨node, hnode, hv⟩ := Option.bind_eq_some_iff.mp hv
    refine ⟨meta_add_only_above hv, hadded.meta_add huri.above (fun x hx => ?_) hnode hv⟩
    obtain rfl := List.mem_singleton.mp hx
    exact MetaSet.create_directory_none hnone' _
  · cases hv
    exact ⟨.refl _ _, hadded⟩

theorem FileIn.not_below_parent (h : FileIn paths made uri) : ¬ uri <+: parent_path uri :=
  parent_path_not_below h.file.1

/-- The record is the entry. -/
theorem lookup_add_record {store : Store} (huri : FilePath uri) (hname : m.name = filename uri)
    (hold : store.metadata.lookup uri = none ∨ ∃ old, store.metadata.lookup uri = some [old] ∧
      old.name = filename uri) : (store.metadata.add uri [m]).1.lookup uri = some [m] := by
  rw [MetaStore.lookup_add]
  congr 1
  refine merged_file (hname ▸ huri.named.1) ?_
  rcases hold with hnone | ⟨old, hold, holdname⟩
  · exact Or.inl (by rw [hnone]; rfl)
  · exact Or.inr ⟨old, by rw [hold]; rfl, holdname.trans hname.symm⟩

/-- The owner does not have the file, if it is not the node that has the record. -/
def Inherits (w : World) (uri : Path) (x o : Node) : Prop :=
  o ≠ x → (w.stores o.uuid).files.lookup uri = none ∧ w.successor o.uuid = some x

/-- A reference to where the file is, at its owner. -/
theorem KeptBy.referenced (h : KeptBy w uri bytes x m) (hx : x ∈ w.ring) (hinherits : Inherits w uri x o)
    {r : Metadata} (href : r.node_ref = some (m.node_ref.getD x)) : KeptBy w uri bytes o r := by
  have hkeeper : ∀ k ∈ m.node_ref, m.node_ref.getD x = k := by
    intro k hk
    rw [Option.mem_def.mp hk]
    rfl
  by_cases hox : o = x
  · subst hox
    cases h with
    | here hnode hfile =>
      refine .here (fun k hk => ?_) hfile
      rw [href, Option.mem_some_iff] at hk
      subst hk
      cases hmref : m.node_ref with
      | none => rfl
      | some k => exact hnode k hmref
    | there k hk hne hnode hfile hnone => exact .there k hk hne (by rw [href, hkeeper k hnode]) hfile hnone
  · have hnone := (hinherits hox).1
    have hne : ∀ {k : Node}, (w.stores k.uuid).files.lookup uri = some (.regular bytes) →
        k.uuid ≠ o.uuid := by
      intro k hfile heq
      rw [heq, hnone] at hfile
      cases hfile
    cases h with
    | here hnode hfile =>
      refine .there x hx (hne hfile) ?_ hfile hnone
      rw [href]
      cases hmref : m.node_ref with
      | none => rfl
      | some k => rw [hnode k hmref, Option.getD_some]
    | there k hk _ hnode hfile _ => exact .there k hk (hne hfile) (by rw [href, hkeeper k hnode]) hfile hnone

/-- Once its holder gives up the record, nobody has one. -/
theorem Placed.unrecorded (h : Placed sha w uri bytes x) {n : Node} (hn : n ∈ w.ring) :
    ((w.set x.uuid { w.stores x.uuid with metadata := (w.stores x.uuid).metadata.erase uri }).stores
      n.uuid).metadata.lookup uri = none := by
  rcases eq_or_ne n.uuid x.uuid with heq | hne
  · rw [heq, set_stores_self]
    exact AList.lookup_erase _ _
  · rw [set_stores_of_ne hne]
    exact h.others n hn hne

/-- The owner gets the record, with a reference to the node that keeps the file. -/
theorem rebalance_reference (hlap : Lap lap) (hw : w.Exact) (huri : FileIn paths made uri)
    (hplaced : Placed sha w uri bytes x) (howner : w.successor (sha.uri uri) = some o)
    (hinherits : Inherits w uri x o) (hm : (w.stores x.uuid).metadata.lookup uri = some [m])
    (h : w.Orderly sha paths made s todo) (hfuel : uri.length * (lap + 1) + lap < fuel) :
    ∃ w', rebalance_metadata sha fuel (Peer.of x) w uri true = some w' ∧ w.Above uri w' ∧
      Placed sha w' uri bytes o ∧ w'.Orderly sha paths made s todo := by
  have ho : o ∈ w.ring := successor_mem howner
  obtain ⟨m', hm', hrecord, hkept⟩ := hplaced.entry
  obtain rfl : m' = m := by simpa using hm'.symm.trans hm
  generalize hreferenced : ({ m' with node_ref := some (m'.node_ref.getD x) } : Metadata) = r
  generalize herased : w.set x.uuid
    { w.stores x.uuid with metadata := (w.stores x.uuid).metadata.erase uri } = w₀
  have habove : w.Above uri w₀ := herased ▸ erase_above w x.uuid uri
  have hclear : ∀ n ∈ w.ring, (w₀.stores n.uuid).metadata.lookup uri = none :=
    fun n hn => herased ▸ hplaced.unrecorded hn
  have horderly : w₀.Orderly sha paths made s todo := herased ▸ h.erase huri.apart x.uuid
  have hr : r.name = filename uri ∧ r.file_type = .regular ∧ r.replication = .NONE ∧
      r.file_hash = some (sha.content bytes) := by
    rw [← hreferenced]
    exact ⟨hrecord.name, hrecord.file_type, hrecord.replication, hrecord.hash⟩
  obtain ⟨w', hcall, hup, horderly'⟩ :=
    meta_add_record hlap (habove.exact hw) (habove.ring ▸ ho) huri hr.2.1 hr.2.2.1
    (hclear o ho) horderly hfuel
  have hall : w.Above uri w' :=
    habove.trans ((w₀.add_entry_above o uri [r.sent]).trans (hup.mono (parent_path_le uri)))
  have hfiles : ∀ u, (w'.stores u).files = (w.stores u).files := fun u => (hall.stores u).files
  have hlookup : ∀ u, (w'.stores u).metadata.lookup uri =
      ((w₀.add_entry o uri [r.sent]).stores u).metadata.lookup uri :=
    fun u => (hup.stores u).metadata uri huri.not_below_parent
  refine ⟨w', ?_, hall, ⟨hall.ring ▸ ho, ⟨r.sent, ?_, ⟨hr.1, hr.2.1, hr.2.2.1, hr.2.2.2⟩, ?_⟩, ?_⟩, horderly'⟩
  · have hsucc : w₀.successor (sha.uri uri) = some o := by rw [successor_congr habove.ring, howner]
    unfold rebalance_metadata
    simp only [Peer.of, referenced, if_true, hm, List.map_cons, List.map_nil, hreferenced, herased,
      hsucc, hcall,
      Option.bind_eq_bind, Option.bind_some]
    rfl
  · rw [hlookup, add_entry, set_stores_self]
    exact lookup_add_record huri.file hr.1 (Or.inl (hclear o ho))
  · have href : r.sent.node_ref = some (m'.node_ref.getD x) := by
      rw [← hreferenced]
      rfl
    exact (hkept.referenced hplaced.holder hinherits href).congr hall.ring fun u => by rw [hfiles]
  · intro n hn hno
    rw [hlookup, add_entry, set_stores_of_ne hno]
    exact hclear n (hall.ring ▸ hn)

end

end Fs

end Chord
