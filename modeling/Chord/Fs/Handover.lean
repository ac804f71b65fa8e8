import Chord.Fs.FirstJoin
import Chord.Fs.Single

/-!
# A node hands its entries over

The loop of `rebalance` over the entries of a node that has records, files and listings of other
owners. The turn of a path changes nothing about the files of other paths.
-/

open Circle

namespace Chord

namespace Fs

open World

/-! ## What the ring is for -/

/-- The files and the directories, and who the members are. -/
structure Volume where
  files : Path → Option Bytes
  directories : Path → Prop
  members : List Node

/-- A file, or a directory that has a name. -/
def Volume.There (v : Volume) (p : Path) : Prop := (v.files p).isSome ∨ v.directories p ∧ p ≠ []

/-- What is above a file or a directory is a directory, and none is a file. No directory has the name of
its parent. -/
structure Volume.Closed (paths : Path → Prop) (v : Volume) : Prop where
  root : v.directories []
  above : ∀ d, v.directories d → v.directories (parent_path d)
  apart : ∀ d, v.directories d → ¬ paths d
  parent : ∀ f, (v.files f).isSome → paths f ∧ v.directories (parent_path f)
  plain : ∀ d, v.directories d → d ≠ [] → FilePath d
  steep : ∀ d, v.directories d → d.IsChain (· ≠ ·)

section

variable {paths : Path → Prop} {v : Volume} {p q d f : Path}

/-- Everything above a directory is one. -/
theorem directories_above {made : Path → Prop} (h : ∀ d, made d → made (parent_path d)) (hd : made d)
    (hq : q <+: d) : made q := by
  induction d using List.reverseRecOn with
  | nil => rwa [List.prefix_nil.mp hq]
  | append_singleton c a ih =>
    rcases List.prefix_concat_iff.mp hq with rfl | hq
    · exact hd
    · refine ih ?_ hq
      have hparent := h _ hd
      rwa [parent_path, List.dropLast_concat] at hparent

theorem Volume.Closed.parent_there (h : v.Closed paths) (hp : v.There p) : v.directories (parent_path p) := by
  rcases hp with hp | ⟨hp, -⟩
  · exact (h.parent p hp).2
  · exact h.above p hp

theorem Volume.Closed.file_path (h : v.Closed paths) (hpaths : Names paths) (hp : v.There p) :
    FilePath p := by
  rcases hp with hp | ⟨hp, hne⟩
  · exact hpaths.file p (h.parent p hp).1
  · exact h.plain p hp hne

theorem Volume.Closed.file_in (h : v.Closed paths) (hpaths : Names paths) (hf : paths f)
    (hparent : v.directories (parent_path f)) : FileIn paths v.directories f :=
  ⟨hf, hpaths.file f hf, fun hd => h.apart f hd hf, fun _ hc => directories_above h.above hparent hc⟩

/-- A file is not above another path of an entry. -/
theorem Volume.Closed.not_above (h : v.Closed paths) (hpaths : Names paths) (hf : paths f)
    (hp : paths p ∨ v.directories p) (hne : f ≠ p) : ¬ f <+: p := by
  intro hbelow
  rcases hp with hp | hp
  · exact hne (hpaths.apart f p hf hp hbelow)
  · exact h.apart f (directories_above h.above hp hbelow) hf

end

/-! ## One turn -/

section

variable {sha : Sha256} {paths made : Path → Prop} {v : Volume} {w w' : World} {x o : Node} {todo : List Path}
    {d f p q uri : Path} {r : MetaSet} {m : Metadata} {bytes : Bytes} {lap fuel : Nat}
    {event : RebalanceEvent} {s : Uuid}

theorem rebalance_uri_listing (hdot : MetaSet.HasDot r) :
    rebalance_uri sha fuel event (Peer.of x) w (d, r) =
      rebalance_metadata sha fuel (Peer.of x) w d false := by
  have hcopyable : ¬ (event ≠ .LEAVE ∧ MetaSet.is_shallow_copyable (Peer.of x).context r) :=
    fun h => hdot.is_directory.not_is_regular_file h.2.1
  unfold rebalance_uri
  dsimp only
  rw [decide_eq_false hcopyable, if_pos (Or.inl hdot.is_directory)]

theorem SoleRecord.is_regular_file (h : SoleRecord sha uri bytes m) : MetaSet.is_regular_file [m] := by
  simp [MetaSet.is_regular_file, h.file_type]

/-- A record without a reference to the node itself is sent as a shallow copy. -/
theorem rebalance_uri_reference (hevent : event ≠ .LEAVE) (hrecord : SoleRecord sha uri bytes m)
    (hnode : m.node_ref ≠ some x) : rebalance_uri sha fuel event (Peer.of x) w (uri, [m]) =
      rebalance_metadata sha fuel (Peer.of x) w uri true := by
  have hcopyable : event ≠ .LEAVE ∧ MetaSet.is_shallow_copyable (Peer.of x).context [m] := by
    refine ⟨hevent, hrecord.is_regular_file, hrecord.replication, ?_⟩
    intro y hy
    obtain rfl : m = y := by simpa using hy
    exact hnode
  unfold rebalance_uri
  dsimp only
  rw [decide_eq_true hcopyable, if_pos (Or.inr (Or.inr rfl))]

/-- A file whose record refers to the node itself is put. -/
theorem rebalance_uri_put (hrecord : SoleRecord sha uri bytes m) (hnode : m.node_ref = some x)
    (hfile : (w.stores x.uuid).files.lookup uri = some (.regular bytes))
    (howner : w.successor (sha.uri uri) = some o) :
    rebalance_uri sha fuel event (Peer.of x) w (uri, [m]) =
      ignored (put sha fuel w o uri bytes { replication := .NONE, rebalance := true }) := by
  have hcopyable : ¬ (event ≠ .LEAVE ∧ MetaSet.is_shallow_copyable (Peer.of x).context [m]) :=
    fun h => h.2.2.2 m rfl hnode
  have hregular : (w.stores (Peer.of x).disk).files.is_regular_file uri := by
    rw [Peer.of, Files.is_regular_file, hfile]
  have hdirectory : ¬ MetaSet.is_directory [m] := fun h => h.not_is_regular_file hrecord.is_regular_file
  have hcond : ¬ (MetaSet.is_directory [m] ∨ (¬ (w.stores (Peer.of x).disk).files.is_regular_file uri ∧
      MetaSet.is_shallow_copy (Peer.of x).context [m]) ∨ (false = true)) := by
    simp [hdirectory, hregular]
  have hreplication : ({ (Replication.NONE) with index := 0 } : Replication) = .NONE := rfl
  unfold rebalance_uri
  dsimp only
  rw [decide_eq_false hcopyable, if_neg hcond, show (w.stores (Peer.of x).disk).files.lookup uri =
    _ from hfile]
  simp only [howner, Option.bind_eq_bind, Option.bind_some, Entry.bytes, List.head?_cons, Option.elim_some,
    hrecord.replication, hreplication, client_put]
  rw [if_neg (by simp)]

/-- The owner of the file has the record afterwards. -/
theorem rebalance_file (hlap : Lap lap) (hevent : event ≠ .LEAVE) (hw : w.Exact)
    (huri : FileIn paths made uri) (hdisk : ∀ n ∈ w.ring, Writable (w.stores n.uuid) uri)
    (hplaced : Placed sha w uri bytes x) (howner : w.successor (sha.uri uri) = some o)
    (hinherits : Inherits w uri x o) (hm : (w.stores x.uuid).metadata.lookup uri = some [m])
    (h : w.Orderly sha paths made s todo) (hfuel : uri.length * (lap + 1) + lap + 1 < fuel) :
    ∃ w', rebalance_uri sha fuel event (Peer.of x) w (uri, [m]) = some w' ∧ w.Along uri w' ∧
      Placed sha w' uri bytes o ∧ w'.Orderly sha paths made s todo := by
  obtain ⟨m', hm', hrecord, hkept⟩ := hplaced.entry
  obtain rfl : m' = m := by simpa using hm'.symm.trans hm
  by_cases hnode : m'.node_ref = some x
  · have hfile : (w.stores x.uuid).files.lookup uri = some (.regular bytes) := by
      cases hkept with
      | here _ hfile => exact hfile
      | there k _ hne hk _ _ => exact absurd (congrArg Node.uuid (Option.some.inj (hk.symm.trans hnode))) hne
    rw [rebalance_uri_put hrecord hnode hfile howner]
    exact rebalance_put hlap hw huri hdisk hplaced howner hinherits hm hnode h hfuel
  · rw [rebalance_uri_reference hevent hrecord hnode]
    obtain ⟨w', hcall, habove, hplaced', h'⟩ := rebalance_reference hlap hw huri hplaced howner hinherits hm h
      (by omega : _ < fuel)
    exact ⟨w', hcall, .of_above habove (List.prefix_refl _), hplaced', h'⟩

/-! ## The loop -/

theorem World.Tidy.writable (h : w.Tidy sha paths made s todo) (hpaths : Names paths) (huri : paths uri) :
    ∀ n ∈ w.ring, Writable (w.stores n.uuid) uri := fun n hn => hpaths.writable huri (h n hn).regular

/-- The turn of a file is not the turn of a listing. -/
theorem World.Orderly.skip (h : w.Orderly sha paths made s (f :: todo)) (hf : ¬ made f) :
    w.Orderly sha paths made s todo where
  tidy n hn := (h.tidy n hn).mono fun d r hd _ hwaits => by
    obtain ⟨hmem, hrest⟩ := hwaits
    exact Or.inl ⟨(List.mem_cons.mp hmem).resolve_left fun heq => hf (heq ▸ hd), hrest⟩
  listed d hd := by
    obtain ⟨n, hn, hat, hdot⟩ := h.listed d hd
    refine ⟨n, hn, hat.imp_right fun hs => ⟨hs.1, ?_⟩, hdot⟩
    exact (List.mem_cons.mp hs.2).resolve_left fun heq => hf (heq ▸ hd)

/-- An entry whose turn comes: a file as it was, or a listing that may have grown. -/
structure Pending (v : Volume) (store : Store) (e : Path × MetaSet) : Prop where
  entry : e.1 ∈ store.metadata
  kind : (v.files e.1).isSome ∧ store.metadata.lookup e.1 = some e.2 ∨ v.directories e.1 ∧ MetaSet.HasDot e.2

variable (sha paths v x) in
/-- The node `x` goes through its entries. Files whose turn has come are at their owners, the others are
still at `x`. -/
structure Migrating (todo : List (Path × MetaSet)) (w : World) : Prop where
  exact : w.Exact
  member : x ∈ w.ring
  orderly : w.Orderly sha paths v.directories x.uuid (todo.map Prod.fst)
  turns : ∀ e ∈ todo, Pending v (w.stores x.uuid) e
  once : (todo.map Prod.fst).Nodup
  moved : ∀ f bytes, v.files f = some bytes → f ∉ todo.map Prod.fst → ∀ o, w.successor (sha.uri f) = some o →
    Placed sha w f bytes o
  waiting : ∀ f bytes, v.files f = some bytes → f ∈ todo.map Prod.fst → Placed sha w f bytes x ∧
    ∀ o, w.successor (sha.uri f) = some o → Inherits w f x o
  nowhere : ∀ f, paths f → v.files f = none → Nowhere sha w f
  named : ∀ p, v.There p → OwnerLists sha w (parent_path p) (filename p) ∨
    parent_path p ∈ todo.map Prod.fst ∧ Lists (w.stores x.uuid) (parent_path p) (filename p)

/-- What happens to one path takes no name from other listings. -/
theorem lists_steps (hp : p ≠ d) (u : Uuid) (n : Name) : Steps sha p fun w => Lists (w.stores u) d n := by
  have hset : ∀ (w : World) (z : Uuid) (store : Store), Lists (w.stores u) d n →
      (u = z → store.metadata.lookup d = (w.stores z).metadata.lookup d) →
        Lists ((w.set z store).stores u) d n := by
    intro w z store hl hsame
    rcases eq_or_ne u z with rfl | hne
    · obtain ⟨r, hr, hmem⟩ := hl
      exact ⟨r, by rw [set_stores_self, hsame rfl]; exact hr, hmem⟩
    · rwa [set_stores_of_ne hne]
  exact ⟨⟨fun w z hl => hset w z _ hl fun _ => AList.lookup_erase_ne hp.symm,
    fun w z _ hl _ => hset w z _ hl fun _ => rfl, lists_adds u d n⟩, fun w z _ hl _ =>
      hset w z _ hl fun _ => rfl⟩

theorem Inherits.congr (h : Inherits w f x o) (hsame : w.SameAt f w') : Inherits w' f x o := by
  intro hne
  rw [hsame.files, successor_congr hsame.ring]
  exact h hne

variable {e : Path × MetaSet} {entries : List (Path × MetaSet)}

/-- What the turn of an entry leaves behind. -/
theorem Migrating.next (hpaths : Names paths) (hclosed : v.Closed paths)
    (h : Migrating sha paths v x (e :: entries) w)
    (hcall : rebalance_uri sha fuel event (Peer.of x) w e = some w') (halong : w.Along e.1 w')
    (horderly : w'.Orderly sha paths v.directories x.uuid (entries.map Prod.fst))
    (hplaced : ∀ bytes, v.files e.1 = some bytes → ∀ o, w.successor (sha.uri e.1) = some o →
      Placed sha w' e.1 bytes o)
    (hnamed : ∀ p, v.There p → parent_path p = e.1 → OwnerLists sha w' e.1 (filename p)) :
    Migrating sha paths v x entries w' := by
  obtain ⟨hnotin, honce⟩ := List.nodup_cons.mp h.once
  have hkind : paths e.1 ∨ v.directories e.1 :=
    (h.turns e List.mem_cons_self).kind.imp (fun hfile => (hclosed.parent e.1 hfile.1).1) And.left
  have hsame : ∀ f, paths f → f ≠ e.1 → w.SameAt f w' :=
    fun f hf hne => halong.same_at (hclosed.not_above hpaths hf hkind hne)
  have hpath : ∀ {f bytes}, v.files f = some bytes → paths f :=
    fun hf => (hclosed.parent _ (by rw [hf]; rfl)).1
  refine ⟨h.exact.of_ring halong.ring halong.up, halong.ring ▸ h.member, horderly, fun e' he' => ?_, honce,
    fun f bytes hf hmem o ho => ?_, fun f bytes hf hmem => ?_, fun f hf hnone => ?_, fun f hf => ?_⟩
  · have hne : e'.1 ≠ e.1 := fun heq => hnotin (heq ▸ List.mem_map_of_mem he')
    obtain ⟨hentry, hturn⟩ := h.turns e' (List.mem_cons_of_mem _ he')
    have hat : EntryAt w.ring x.uuid e'.1 w := ⟨rfl, hentry⟩
    refine ⟨((EntryAt.steps hne.symm).rebalance_uri hat hcall).entry,
      hturn.imp_left fun hfile => ⟨hfile.1, ?_⟩⟩
    rw [(hsame e'.1 (hclosed.parent _ hfile.1).1 hne).metadata, hfile.2]
  · rw [successor_congr halong.ring] at ho
    rcases eq_or_ne f e.1 with rfl | hne
    · exact hplaced bytes hf o ho
    · refine (h.moved f bytes hf ?_ o ho).congr (hsame f (hpath hf) hne)
      exact fun hmem' => (List.mem_cons.mp hmem').elim hne hmem
  · have hne : f ≠ e.1 := fun heq => hnotin (heq ▸ hmem)
    have hsame := hsame f (hpath hf) hne
    obtain ⟨hplaced, hinherits⟩ := h.waiting f bytes hf (List.mem_cons_of_mem _ hmem)
    refine ⟨hplaced.congr hsame, fun o ho => (hinherits o ?_).congr hsame⟩
    rwa [successor_congr halong.ring] at ho
  · refine (h.nowhere f hf hnone).congr (hsame f hf ?_)
    rintro rfl
    rcases (h.turns e List.mem_cons_self).kind with hfile | hdirectory
    · rw [hnone] at hfile
      cases hfile.1
    · exact hclosed.apart _ hdirectory.1 hf
  · rcases eq_or_ne (parent_path f) e.1 with heq | hne
    · exact Or.inl (heq ▸ hnamed f hf heq)
    · have hkeeps : ∀ u, Lists (w.stores u) (parent_path f) (filename f) →
          Lists (w'.stores u) (parent_path f) (filename f) :=
        fun u hl => (lists_steps hne.symm u (filename f)).rebalance_uri hl hcall
      refine (h.named f hf).imp ?_ ?_
      · rintro ⟨y, hy, hl⟩
        exact ⟨y, by rw [successor_congr halong.ring, hy], hkeeps y.uuid hl⟩
      · rintro ⟨hmem, hl⟩
        exact ⟨(List.mem_cons.mp hmem).resolve_left hne, hkeeps x.uuid hl⟩

/-- The turn of a listing or of a file. -/
theorem Migrating.turn (hpaths : Names paths) (hclosed : v.Closed paths) (hlap : Lap lap)
    (hevent : event ≠ .LEAVE) (h : Migrating sha paths v x (e :: entries) w)
    (hfuel : e.1.length * (lap + 1) + lap + 1 < fuel) :
    ∃ w', rebalance_uri sha fuel event (Peer.of x) w e = some w' ∧ w'.ring = w.ring ∧
      Migrating sha paths v x entries w' := by
  obtain ⟨p, records⟩ := e
  obtain ⟨hentry, ⟨hfile, hlookup⟩ | ⟨hdirectory, hdot⟩⟩ := h.turns (p, records) List.mem_cons_self
  · obtain ⟨bytes, hbytes⟩ := Option.isSome_iff_exists.mp hfile
    obtain ⟨hp, hparent⟩ := hclosed.parent p hfile
    obtain ⟨o, -, ho⟩ := h.exact.exists_successor (sha.uri p)
    obtain ⟨hplaced, hinherits⟩ := h.waiting p bytes hbytes List.mem_cons_self
    obtain ⟨m, hm, -⟩ := hplaced.entry
    obtain rfl : records = [m] := Option.some.inj (hlookup.symm.trans hm)
    have hnot : ¬ v.directories p := fun hd => hclosed.apart p hd hp
    obtain ⟨w', hcall, halong, hplaced', horderly⟩ := rebalance_file hlap hevent h.exact
      (hclosed.file_in hpaths hp hparent) (h.orderly.tidy.writable hpaths hp) hplaced ho (hinherits o ho) hm
      h.orderly hfuel
    refine ⟨w', hcall, halong.ring,
      h.next hpaths hclosed hcall halong (horderly.skip hnot) (fun b hb y hy => ?_) fun f hf hd => ?_⟩
    · obtain rfl := Option.some.inj (hbytes.symm.trans hb)
      obtain rfl := Option.some.inj (ho.symm.trans hy)
      exact hplaced'
    · have hdirectory := hclosed.parent_there hf
      rw [hd] at hdirectory
      exact absurd hdirectory hnot
  · obtain ⟨r, hr⟩ := Option.isSome_iff_exists.mp (AList.lookup_isSome.mpr hentry)
    have htidy := h.orderly.tidy x h.member
    have hdotted : MetaSet.HasDot r :=
      (htidy.dotted p r hdirectory hr).resolve_right fun hwaits => hwaits.2.1 rfl
    obtain ⟨hordered, hnone⟩ := htidy.records p r hr
    obtain ⟨w', hcall, habove, horderly, hnames⟩ := rebalance_listing hlap h.exact h.orderly
      (fun c hc => directories_above hclosed.above hdirectory hc) ⟨r, hr, hdotted, hordered, hnone⟩
      (by omega : _ < fuel)
    have hturn : rebalance_uri sha fuel event (Peer.of x) w (p, records) = some w' :=
      (rebalance_uri_listing hdot).trans hcall
    refine ⟨w', hturn, habove.ring,
      h.next hpaths hclosed hturn (.of_above habove (List.prefix_refl _)) horderly (fun b hb => ?_)
        fun f hf hd => ?_⟩
    · exact absurd (hclosed.parent p (by rw [hb]; rfl)).1 (hclosed.apart p hdirectory)
    · refine hnames (filename f) (hclosed.file_path hpaths hf).named ?_
      exact hd ▸ (h.named f hf).imp_right And.right

/-- All turns. -/
theorem Migrating.rebalance (hpaths : Names paths) (hclosed : v.Closed paths) (hlap : Lap lap)
    (hevent : event ≠ .LEAVE) (h : Migrating sha paths v x entries w)
    (hfuel : ∀ e ∈ entries, e.1.length * (lap + 1) + lap + 1 < fuel) :
    ∃ w', rebalance sha fuel event (Peer.of x) w entries = some w' ∧ w'.ring = w.ring ∧
      Migrating sha paths v x [] w' := by
  induction entries generalizing w with
  | nil => exact ⟨w, rfl, rfl, h⟩
  | cons e entries ih =>
    obtain ⟨he, hrest⟩ := List.forall_mem_cons.mp hfuel
    obtain ⟨w₁, hfirst, hring, h₁⟩ := h.turn hpaths hclosed hlap hevent he
    obtain ⟨w₂, hcall, hring', h₂⟩ := ih h₁ hrest
    refine ⟨w₂, ?_, hring'.trans hring, h₂⟩
    rw [Fs.rebalance, List.foldlM_cons, hfirst, Option.bind_eq_bind, Option.bind_some]
    exact hcall

end

end Fs

end Chord
