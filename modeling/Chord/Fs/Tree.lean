import Chord.Fs.Deletion
import Chord.Fs.Remove

/-!
# A directory with everything in it

Its listing is at the owner and on nodes after it, its files and directories are on any nodes.
-/

namespace Chord

namespace Fs

open World

/-! ## One path -/

/-- Neither a record nor a file. -/
def Bare (store : Store) (q : Path) : Prop :=
  store.metadata.lookup q = none ∧ ∀ bytes, store.files.lookup q ≠ some (.regular bytes)

theorem Clear.bare {store : Store} {q : Path} (h : Clear store q) : Bare store q :=
  ⟨h.2, fun bytes hfile => by rw [h.1] at hfile; cases hfile⟩

/-- A path below `q` is `q`, or below a child. -/
theorem prefix_child {q r : Path} (h : q <+: r) : r = q ∨ ∃ a, q ++ [a] <+: r := by
  obtain ⟨t, rfl⟩ := h
  cases t with
  | nil => exact Or.inl (List.append_nil q)
  | cons a t => exact Or.inr ⟨a, t, by simp⟩

theorem prefix_of_child {q r : Path} {a : Name} (h : q ++ [a] <+: r) : q <+: r :=
  (List.prefix_append q [a]).trans h

theorem child_not_above (q : Path) (a : Name) : ¬ q ++ [a] <+: q := by
  intro h
  have hlength := h.length_le
  rw [List.length_append, List.length_singleton] at hlength
  omega

/-- Children with other names have nothing in common. -/
theorem child_disjoint {q r : Path} {a b : Name} (ha : q ++ [a] <+: r) (hb : q ++ [b] <+: r) : a = b := by
  obtain ⟨s, rfl⟩ := ha
  obtain ⟨t, ht⟩ := hb
  simp only [List.append_assoc, List.append_cancel_left_eq, List.cons_append, List.nil_append,
    List.cons.injEq] at ht
  exact ht.1.symm

theorem Files.is_empty_iff {files : Files} {q : Path} (hq : ∀ bytes, files.lookup q ≠ some (.regular bytes)) :
    files.is_empty q = true ↔ files.lookup q = some .directory ∧ ∀ a, files.lookup (q ++ [a]) = none := by
  unfold is_empty
  cases hlookup : files.lookup q with
  | none => simp
  | some entry =>
    cases entry with
    | regular bytes => exact absurd hlookup (hq bytes)
    | directory =>
      simp only [List.all_eq_true, decide_eq_true_eq, true_and]
      constructor
      · intro h a
        by_contra hsome
        have hmem : q ++ [a] ∈ files.keys :=
          AList.mem_keys.mp (AList.lookup_isSome.mp (Option.isSome_iff_ne_none.mpr hsome))
        rcases h _ hmem with heq | hne
        · exact absurd heq (by simp)
        · exact hne (by simp [parent_path])
      · intro h r hr
        by_contra hnot
        obtain ⟨hne, hparent⟩ := not_or.mp hnot
        have hr' : r ≠ [] := by
          rintro rfl
          exact hne (by simpa [parent_path] using not_not.mp hparent)
        have hchild : q ++ [r.getLast hr'] = r := by
          rw [← not_not.mp hparent, parent_path, List.dropLast_append_getLast hr']
        have hnone := h (r.getLast hr')
        rw [hchild, AList.lookup_eq_none] at hnone
        exact hnone (AList.mem_keys.mpr hr)

/-! ## A tree -/

section

variable (sha : Sha256)

/-- The record of a child is on the first nodes after the owner of the listing. -/
def Recorded (w : World) (q : Path) (a : Name) : Prop :=
  ∃ (r : Metadata) (k : UInt32), r.name = a ∧ ∀ j n, (w.clockwise (sha.uri q))[j]? = some n →
    (w.stores n.uuid).record q a = if j < max 1 k.toNat then some { r with replication := .copy k j }
      else none

/-- The records of `.` and `..`. -/
def dots (s : MetaSet) : MetaSet := s.filter fun m => m.is_directory

/-- A listing of the children `names`, on the owner and on nodes after it. -/
structure Listed (w : World) (q : Path) (names : List Name) : Prop where
  owner : ∀ x, w.successor (sha.uri q) = some x → ∃ s, (w.stores x.uuid).metadata.lookup q = some s ∧
    (s.filter fun m => ¬ m.is_directory).map Metadata.name = names ∧
    ∃ element, s.find? (fun m => m.name = filename q ∨ m.is_directory) = some element ∧
      element.file_type = .directory
  named : ∀ a ∈ names, Named a
  nodup : names.Nodup
  recorded : ∀ a ∈ names, Recorded sha w q a
  entry : ∀ n ∈ w.ring, ∀ s, (w.stores n.uuid).metadata.lookup q = some s → MetaSet.is_directory s ∧
    ∀ m ∈ s, ¬ m.is_directory → m.name ∈ names
  /-- A node after the owner is reached from the one before it. -/
  chain : (w.clockwise (sha.uri q)).Pairwise fun x y => (w.stores y.uuid).metadata.lookup q ≠ none →
    ∃ s, (w.stores x.uuid).metadata.lookup q = some s ∧ (MetaSet.max_replication (dots s)).next.active
  disk : ∀ n ∈ w.ring, ∀ bytes, (w.stores n.uuid).files.lookup q ≠ some (.regular bytes)
  others : ∀ n ∈ w.ring, ∀ a, a ∉ names → ∀ r, q ++ [a] <+: r → Bare (w.stores n.uuid) r

/-- A file with its copies, and nothing below it. -/
structure Copied (w : World) (q : Path) (bytes : Bytes) (k : UInt32) : Prop where
  stored : ∀ j n, (w.clockwise (sha.uri q))[j]? = some n → if j < max 1 k.toNat then
    Stored sha (w.stores n.uuid) q bytes (.copy k j) else Clear (w.stores n.uuid) q
  below : ∀ n ∈ w.ring, ∀ a r, q ++ [a] <+: r → Bare (w.stores n.uuid) r

/-- A file on the node of a reference, which has no record of it. -/
structure Referenced (w : World) (q : Path) (x node : Node) (m : Metadata) : Prop where
  owner : w.successor (sha.uri q) = some x
  node_mem : node ∈ w.ring
  node_ne : node.uuid ≠ x.uuid
  record : (w.stores x.uuid).metadata.lookup q = some [m]
  name : m.name = filename q
  file_type : m.file_type = .regular
  node_ref : m.node_ref = some node
  replication : m.replication = .NONE
  disk : (w.stores x.uuid).files.lookup q ≠ some .directory
  others : ∀ n ∈ w.ring, n.uuid ≠ x.uuid → (w.stores n.uuid).metadata.lookup q = none
  file : ∃ bytes, (w.stores node.uuid).files.lookup q = some (.regular bytes)
  files : ∀ n ∈ w.ring, n.uuid ≠ x.uuid → n.uuid ≠ node.uuid → ∀ bytes,
    (w.stores n.uuid).files.lookup q ≠ some (.regular bytes)
  below : ∀ n ∈ w.ring, ∀ a r, q ++ [a] <+: r → Bare (w.stores n.uuid) r

/-- A directory with its files and directories. Where it has children, the disk of its owner does not
have it as an empty directory. -/
inductive Tree (w : World) : Path → Prop
  | file {q : Path} {bytes : Bytes} {k : UInt32} (hq : FilePath q) (h : Copied sha w q bytes k) : Tree w q
  | reference {q : Path} {x node : Node} {m : Metadata} (hq : FilePath q)
    (h : Referenced sha w q x node m) : Tree w q
  | dir {q : Path} {names : List Name} (hq : q ≠ [] → FilePath q) (h : Listed sha w q names)
      (hdisk : names ≠ [] → ∀ x, w.successor (sha.uri q) = some x → ¬ (w.stores x.uuid).files.is_empty q)
      (hchildren : ∀ a ∈ names, Tree w (q ++ [a])) : Tree w q

/-! ## What fails on the way -/

/-- The call goes to the directory `uri` with these records. -/
def DirCall (w : World) (self : Node) (uri : Path) (o : Options) (metadata : MetaSet) : Prop :=
  self ∈ w.up ∧ o.source ≠ some self.uuid ∧ (w.stores self.uuid).metadata.lookup uri = some metadata ∧
    ∃ element, metadata.find? (fun m => m.name = filename uri ∨ m.is_directory) = some element ∧
      element.file_type = .directory

/-- In a recursive `del` of `uri` at `self` the deletion of `d` fails: that of a child, one in the
deletion of a child, or one at the next node with the listing. -/
inductive Fails : Nat → World → Node → Path → Options → Path → Prop
  | child {fuel : Nat} {w v v' : World} {self node : Node} {uri : Path} {o : Options} {m : Metadata}
      {before after : MetaSet} {status : StatusCode} (hcall : DirCall w self uri o (before ++ m :: after))
      (hdisk : ¬ (w.stores self.uuid).files.is_empty uri)
      (hbefore : handle_del_recursive sha (del sha fuel) uri true o before w = some (v, .OK))
        (hm : ¬ m.is_directory)
      (hnode : v.successor (sha.uri (uri ++ [m.name])) = some node)
      (hdel : del sha fuel v node (uri ++ [m.name]) true (clear_source o) = some (v', status))
      (hfail : ¬ is_successful status) : Fails (fuel + 1) w self uri o (uri ++ [m.name])
  | deeper {fuel : Nat} {w v : World} {self node : Node} {uri d : Path} {o : Options} {m : Metadata}
      {before after : MetaSet} (hcall : DirCall w self uri o (before ++ m :: after))
      (hdisk : ¬ (w.stores self.uuid).files.is_empty uri)
      (hbefore : handle_del_recursive sha (del sha fuel) uri true o before w = some (v, .OK))
        (hm : ¬ m.is_directory)
      (hnode : v.successor (sha.uri (uri ++ [m.name])) = some node)
      (hdel : Fails fuel v node (uri ++ [m.name]) (clear_source o) d) : Fails (fuel + 1) w self uri o d
  | copy {fuel : Nat} {w v : World} {self node : Node} {uri d : Path} {o : Options}
    {metadata deleted : MetaSet}
      (hcall : DirCall w self uri o metadata)
      (hbefore : (if ¬ (w.stores self.uuid).files.is_empty uri then
        ignored (handle_del_recursive sha (del sha fuel) uri true o metadata w) else some w) = some v)
      (hdeleted : (v.stores self.uuid).metadata.lookup uri = some deleted)
      (hnext : (MetaSet.max_replication deleted).next.active) (hnode : v.successor self.uuid = some node)
      (hne : node ≠ self) (hdel : Fails fuel (v.set self.uuid { v.stores self.uuid with
        metadata := (v.stores self.uuid).metadata.erase uri }) node uri (init_source self o) d) :
      Fails (fuel + 1) w self uri o d

/-- A recursive deletion that answers OK leaves nothing, and one in which the deletion of a
descendant fails does not answer OK and leaves its name in the listing. -/
def Honest (fuel : Nat) (w : World) (uri : Path) : Prop :=
  ∀ w' status, facade_del sha fuel w uri true = some (w', status) →
    (status = .OK → ∀ n ∈ w.ring, ∀ q, uri <+: q → Bare (w'.stores n.uuid) q) ∧
    ∀ x d, w.successor (sha.uri uri) = some x → Fails sha fuel w x uri {} d → status ≠ .OK ∧
      ∀ y, w.successor (sha.uri (parent_path d)) = some y →
        Lists (w'.stores y.uuid) (parent_path d) (filename d)

end

/-! ## What goes with a path -/

/-- Nothing is left of `q`, and all other paths are as they were. -/
structure Swept (q : Path) (w w' : World) : Prop where
  ring : w'.ring = w.ring
  up : w'.up = w.up
  gone : ∀ n ∈ w.ring, ∀ r, q <+: r → Bare (w'.stores n.uuid) r
  metadata : ∀ u r, ¬ q <+: r → (w'.stores u).metadata.lookup r = (w.stores u).metadata.lookup r
  files : ∀ u r, ¬ q <+: r → (w'.stores u).files.lookup r = (w.stores u).files.lookup r

/-- The same records and files from `q` on. -/
structure Agrees (q : Path) (w w' : World) : Prop where
  ring : w'.ring = w.ring
  up : w'.up = w.up
  metadata : ∀ u r, q <+: r → (w'.stores u).metadata.lookup r = (w.stores u).metadata.lookup r
  files : ∀ u r, q <+: r → (w'.stores u).files.lookup r = (w.stores u).files.lookup r

namespace Agrees

variable {sha : Sha256} {q : Path} {names : List Name} {w w' : World}

theorem bare (h : Agrees q w w') {u : Uuid} {r : Path} (hr : q <+: r) (hbare : Bare (w.stores u) r) :
    Bare (w'.stores u) r := by
  rwa [Bare, h.metadata u r hr, h.files u r hr]

theorem child (h : Agrees q w w') (a : Name) : Agrees (q ++ [a]) w w' :=
  ⟨h.ring, h.up, fun u r hr => h.metadata u r (prefix_of_child hr),
    fun u r hr => h.files u r (prefix_of_child hr)⟩

theorem record (h : Agrees q w w') (u : Uuid) (a : Name) :
    (w'.stores u).record q a = (w.stores u).record q a := by
  rw [Store.record, Store.record, h.metadata u q (List.prefix_refl q)]

theorem copied {bytes : Bytes} {k : UInt32} (h : Agrees q w w') (hc : Copied sha w q bytes k) :
    Copied sha w' q bytes k := by
  refine ⟨fun j n hn => ?_, fun n hn a r hr => h.bare (prefix_of_child hr) (hc.below n (h.ring ▸ hn) a r hr)⟩
  rw [clockwise_congr h.ring] at hn
  have hstored := hc.stored j n hn
  simp only [Stored, Clear] at hstored ⊢
  rwa [h.metadata n.uuid q (List.prefix_refl q), h.files n.uuid q (List.prefix_refl q)]

theorem referenced {x node : Node} {m : Metadata} (h : Agrees q w w') (hr : Referenced sha w q x node m) :
    Referenced sha w' q x node m := by
  have hq := List.prefix_refl q
  constructor
  · rw [successor_congr h.ring, hr.owner]
  · rw [h.ring]
    exact hr.node_mem
  · exact hr.node_ne
  · rw [h.metadata _ q hq, hr.record]
  · exact hr.name
  · exact hr.file_type
  · exact hr.node_ref
  · exact hr.replication
  · rw [h.files _ q hq]
    exact hr.disk
  · intro n hn hne
    rw [h.metadata _ q hq, hr.others n (h.ring ▸ hn) hne]
  · rw [h.files _ q hq]
    exact hr.file
  · intro n hn hne hnode
    rw [h.files _ q hq]
    exact hr.files n (h.ring ▸ hn) hne hnode
  · intro n hn a r hbelow
    exact h.bare (prefix_of_child hbelow) (hr.below n (h.ring ▸ hn) a r hbelow)

theorem recorded {a : Name} (h : Agrees q w w') (hr : Recorded sha w q a) : Recorded sha w' q a := by
  obtain ⟨r, k, hname, hrecord⟩ := hr
  refine ⟨r, k, hname, fun j n hn => ?_⟩
  rw [clockwise_congr h.ring] at hn
  rw [h.record, hrecord j n hn]

theorem listed (h : Agrees q w w') (hl : Listed sha w q names) : Listed sha w' q names := by
  have hq := List.prefix_refl q
  constructor
  · intro x hx
    rw [successor_congr h.ring] at hx
    rw [h.metadata _ q hq]
    exact hl.owner x hx
  · exact hl.named
  · exact hl.nodup
  · exact fun a ha => h.recorded (hl.recorded a ha)
  · intro n hn s hs
    rw [h.metadata _ q hq] at hs
    exact hl.entry n (h.ring ▸ hn) s hs
  · rw [clockwise_congr h.ring]
    refine hl.chain.imp fun hxy => ?_
    rwa [h.metadata _ q hq, h.metadata _ q hq]
  · intro n hn bytes
    rw [h.files _ q hq]
    exact hl.disk n (h.ring ▸ hn) bytes
  · exact fun n hn a ha r hr => h.bare (prefix_of_child hr) (hl.others n (h.ring ▸ hn) a ha r hr)

/-- A directory is empty where it was. -/
theorem is_empty (h : Agrees q w w') {u : Uuid}
    (hdisk : ∀ bytes, (w.stores u).files.lookup q ≠ some (.regular bytes)) :
    (w'.stores u).files.is_empty q = (w.stores u).files.is_empty q := by
  have hdisk' : ∀ bytes, (w'.stores u).files.lookup q ≠ some (.regular bytes) := by
    intro bytes
    rw [h.files u q (List.prefix_refl q)]
    exact hdisk bytes
  rw [Bool.eq_iff_iff, Files.is_empty_iff hdisk, Files.is_empty_iff hdisk', h.files u q (List.prefix_refl q)]
  simp only [fun a => h.files u (q ++ [a]) (List.prefix_append q [a])]

end Agrees

/-- What is swept leaves everything beside it. -/
theorem Swept.agrees {q p : Path} {w₀ w w' : World} (h : Swept q w w') (ha : Agrees p w₀ w)
    (hp : ∀ r, p <+: r → ¬ q <+: r) : Agrees p w₀ w' :=
  ⟨h.ring.trans ha.ring, h.up.trans ha.up, fun u r hr => (h.metadata u r (hp r hr)).trans
    (ha.metadata u r hr),
    fun u r hr => (h.files u r (hp r hr)).trans (ha.files u r hr)⟩

end Fs

end Chord
