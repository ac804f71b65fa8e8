import Chord.Fs.Handover

/-!
# Nodes that join

A node that joins gets its entries from the node after it, and asks for its files when they are
read. Between the joins clients put, read and delete files with one copy and make directories.
-/

open Circle

namespace Chord

namespace Fs

open World

/-! ## A ring with one more member -/

namespace World

/-- The node is a member, with a disk of its own. -/
def enter (w : World) (n : Node) (store : Store) : World where
  ring := n :: w.ring
  up := n :: w.up
  stores := Function.update w.stores n.uuid store

/-- The member before `x`. -/
def predecessor (w : World) (x : Node) : Option Node := w.ring.argmin fun m => steps m.uuid (x.uuid - 1)

section

variable {w : World} {n x o : Node} {store : Store} {id : Uuid}

@[simp]
theorem enter_ring (w : World) (n : Node) (store : Store) : (w.enter n store).ring = n :: w.ring := rfl

@[simp]
theorem enter_stores_self (w : World) (n : Node) (store : Store) : (w.enter n store).stores n.uuid = store :=
  Function.update_self _ _ _

theorem enter_stores_of_ne {u : Uuid} (h : u ≠ n.uuid) : (w.enter n store).stores u = w.stores u :=
  Function.update_of_ne h _ _

theorem Exact.enter (h : w.Exact) (hnew : ∀ m ∈ w.ring, m.uuid ≠ n.uuid) : (w.enter n store).Exact where
  apart := List.pairwise_cons.mpr ⟨fun m hm => (hnew m hm).symm, h.apart⟩
  up m hm := by
    rcases List.mem_cons.mp hm with rfl | hm
    · exact List.mem_cons_self
    · exact List.mem_cons_of_mem _ (h.up m hm)
  nonempty := List.cons_ne_nil _ _

/-- What comes before `o` and before all others is before `o` when they are counted from it. -/
theorem first_of_between {l : List Node} (hnew : ∀ m ∈ l, m.uuid ≠ n.uuid) (ho : FirstAfter Node.uuid l id o)
    (hn : ∀ y ∈ l, steps (id + 1) n.uuid ≤ steps (id + 1) y.uuid) : FirstAfter Node.uuid l n.uuid o := by
  have hfrom : ∀ y ∈ l, steps (n.uuid + 1) y.uuid = steps (id + 1) y.uuid - steps (id + 1) n.uuid - 1 := by
    intro y hy
    rw [steps_succ, if_neg (hnew y hy).symm, steps_shift (id + 1), if_pos (hn y hy)]
  refine ⟨ho.1, fun y hy => ?_⟩
  have hle := ho.2 y hy
  rw [hfrom o ho.1, hfrom y hy]
  omega

/-- An owner is as before, or the new member takes its place. -/
theorem successor_enter (h : w.Exact) (hnew : ∀ m ∈ w.ring, m.uuid ≠ n.uuid)
    (hx : w.successor n.uuid = some x) (ho : w.successor id = some o) :
    (w.enter n store).successor id = some o ∨
      (w.enter n store).successor id = some n ∧ o = x := by
  have hexact : (w.enter n store).Exact := h.enter hnew
  obtain ⟨y, hy, hsucc⟩ := hexact.exists_successor id
  have hfirst := firstAfter_argmin hsucc
  have hbefore : ∀ m ∈ w.ring, steps (id + 1) y.uuid ≤ steps (id + 1) m.uuid :=
    fun m hm => hfirst.2 m (List.mem_cons_of_mem _ hm)
  rcases List.mem_cons.mp hy with rfl | hy
  · have hafter := first_of_between hnew (firstAfter_argmin ho) hbefore
    exact Or.inr ⟨hsucc, hafter.unique h.members (firstAfter_argmin hx)⟩
  · have hold : FirstAfter Node.uuid w.ring id y := ⟨hy, hbefore⟩
    rw [hold.unique h.members (firstAfter_argmin ho)] at hsucc
    exact Or.inl hsucc

theorem successor_enter_self (h : w.Exact) (hnew : ∀ m ∈ w.ring, m.uuid ≠ n.uuid)
    (hx : w.successor n.uuid = some x) : (w.enter n store).successor n.uuid = some x := by
  rcases @successor_enter w n x x store n.uuid h hnew hx hx with hsucc | ⟨hsucc, -⟩
  · exact hsucc
  · have hfirst := (firstAfter_argmin hsucc).2 x (List.mem_cons_of_mem _ (successor_mem hx))
    have hx' := hnew x (successor_mem hx)
    have hlt := steps_lt n.uuid x.uuid
    have hpos : steps n.uuid x.uuid ≠ 0 := fun hzero => hx' (steps_eq_zero.mp hzero).symm
    rw [steps_succ, if_pos rfl, steps_succ, if_neg hx'.symm] at hfirst
    omega

/-- In a ring of two or more a member is not before itself. -/
theorem Exact.exists_predecessor (h : w.Exact) (htwo : 2 ≤ w.ring.length) (x : Node) :
    ∃ p, w.predecessor x = some p ∧ p ≠ x := by
  obtain ⟨p, hp⟩ : ∃ p, w.predecessor x = some p := by
    refine Option.ne_none_iff_exists'.mp fun hnone => ?_
    exact h.nonempty (List.argmin_eq_none.mp hnone)
  refine ⟨p, hp, ?_⟩
  rintro rfl
  obtain ⟨y, hy, hne⟩ : ∃ y ∈ w.ring, y.uuid ≠ p.uuid := by
    by_contra hnone
    have hall : ∀ y ∈ w.ring, y.uuid = p.uuid := fun y hy => by_contra fun hne => hnone ⟨y, hy, hne⟩
    match hring : w.ring, htwo with
    | a :: b :: rest, _ =>
      have hab := (List.pairwise_cons.mp (hring ▸ h.apart)).1 b List.mem_cons_self
      exact hab ((hall a (by simp [hring])).trans (hall b (by simp [hring])).symm)
  have hle : steps p.uuid (p.uuid - 1) ≤ steps y.uuid (p.uuid - 1) :=
    @List.le_of_mem_argmin _ _ _ (fun m : Node => steps m.uuid (p.uuid - 1)) _ _ _ hy hp
  have hlast : steps p.uuid (p.uuid - 1) = 2 ^ 256 - 1 := by
    rw [steps]
    bv_omega
  have hlt : steps y.uuid (p.uuid - 1) ≠ 2 ^ 256 - 1 := by
    rw [steps]
    bv_omega
  have := steps_lt y.uuid (p.uuid - 1)
  omega

end

end World

/-! ## Between the joins -/

section

variable (sha : Sha256) (paths : Path → Prop)

/-- Each file is at the owner of its path, or the owner knows where, and each directory has its listing
at its owner, with the names of its children. -/
structure Volume.Held (v : Volume) (w : World) : Prop where
  ring : w.ring = v.members
  closed : v.Closed paths
  exact : w.Exact
  orderly : ∀ s, w.Orderly sha paths v.directories s []
  placed : ∀ f bytes, v.files f = some bytes → ∀ o, w.successor (sha.uri f) = some o → Placed sha w f bytes o
  nowhere : ∀ f, paths f → v.files f = none → Nowhere sha w f
  named : ∀ p, v.There p → OwnerLists sha w (parent_path p) (filename p)

variable {sha} {paths} {v : Volume} {w w' : World} {n x : Node} {c : UInt32} {lap fuel longest : Nat}
    {f : Path} {bytes : Bytes}

theorem mem_map_get_all {store : MetaStore} {p : Path} : p ∈ store.get_all.map Prod.fst ↔ p ∈ store := by
  constructor
  · intro hp
    obtain ⟨e, he, rfl⟩ := List.mem_map.mp hp
    exact AList.lookup_isSome.mp (by rw [lookup_of_get_all he]; rfl)
  · intro hp
    obtain ⟨r, hr⟩ := Option.isSome_iff_exists.mp (AList.lookup_isSome.mpr hp)
    refine List.mem_map.mpr ⟨(p, r), List.mem_filterMap.mpr ⟨p, ?_, by rw [hr]; rfl⟩, rfl⟩
    exact (List.perm_insertionSort _ _).mem_iff.mpr hp

theorem Migrating.held (h : Migrating sha paths v x [] w) (hclosed : v.Closed paths)
    (hring : w.ring = v.members) :
    v.Held sha paths w where
  ring := hring
  closed := hclosed
  exact := h.exact
  orderly s := h.orderly.settled s []
  placed f bytes hf := h.moved f bytes hf (by simp)
  nowhere := h.nowhere
  named f hf := (h.named f hf).resolve_right fun hpending => by cases hpending.1

/-- The entries of a member. -/
theorem Volume.Held.turns (h : v.Held sha paths w) (hx : x ∈ w.ring) :
    ∀ e ∈ (w.stores x.uuid).metadata.get_all, Pending v (w.stores x.uuid) e := by
  intro e he
  have hlookup := lookup_of_get_all he
  have hmem := AList.lookup_isSome.mp (by rw [hlookup]; rfl : ((w.stores x.uuid).metadata.lookup e.1).isSome)
  have htidy := (h.orderly x.uuid).tidy x hx
  refine ⟨hmem, ?_⟩
  rcases htidy.keys e.1 hmem with hpath | hdirectory
  · refine Or.inl ⟨?_, hlookup⟩
    cases hf : v.files e.1 with
    | some bytes => rfl
    | none =>
      rw [(h.nowhere e.1 hpath hf).entries x hx] at hlookup
      cases hlookup
  · exact Or.inr ⟨hdirectory,
      (htidy.dotted e.1 e.2 hdirectory hlookup).resolve_right fun hwaits => by cases hwaits.1⟩

/-- Who has the record of a file is its owner. -/
theorem Volume.Held.owner_of_mem (h : v.Held sha paths w) (hx : x ∈ w.ring) (hf : v.files f = some bytes)
    (hmem : f ∈ (w.stores x.uuid).metadata) : w.successor (sha.uri f) = some x := by
  obtain ⟨o, ho, hsucc⟩ := h.exact.exists_successor (sha.uri f)
  have hplaced := h.placed f bytes hf o hsucc
  by_cases hxo : x.uuid = o.uuid
  · rwa [h.exact.members x hx o ho hxo]
  · rw [← AList.lookup_isSome, hplaced.others x hx hxo] at hmem
    cases hmem

/-- A member can go through its entries at any time. -/
theorem Volume.Held.migrating (h : v.Held sha paths w) (hx : x ∈ w.ring) :
    Migrating sha paths v x (w.stores x.uuid).metadata.get_all w where
  exact := h.exact
  member := hx
  orderly := (h.orderly x.uuid).settled x.uuid _
  turns := h.turns hx
  once := get_all_nodup _
  moved f bytes hf _ := h.placed f bytes hf
  waiting f bytes hf hmem := by
    have howner := h.owner_of_mem hx hf (mem_map_get_all.mp hmem)
    refine ⟨h.placed f bytes hf x howner, fun o ho hne => absurd (Option.some.inj (ho.symm.trans howner)) hne⟩
  nowhere := h.nowhere
  named f hf := Or.inl (h.named f hf)

/-! ## A join -/

theorem Store.Tidy.fresh {made waiting : Path → Prop} (hroot : made []) (c : UInt32) :
    (Store.fresh c).Tidy paths made waiting := by
  have hlookup : (Store.fresh c).metadata.lookup [] = some (MetaSet.merged []
      [{ MetaSet.directory_record ['.'] with permissions := 0o777 }]) := MetaStore.lookup_add _ _ _
  have hroots : ∀ {p r}, (Store.fresh c).metadata.lookup p = some r → p = [] := by
    intro p r hr
    by_contra hp
    rw [(fresh_lookup c hp).2] at hr
    cases hr
  refine ⟨fun q hq => ?_, fun q r hr => ?_, fun d r _ hr => ?_, fun p bytes hp => ?_⟩
  · obtain ⟨r, hr⟩ := Option.isSome_iff_exists.mp (AList.lookup_isSome.mpr hq)
    rw [hroots hr]
    exact Or.inr hroot
  · obtain rfl := hroots hr
    obtain rfl := Option.some.inj (hlookup.symm.trans hr)
    exact ⟨MetaSet.Ordered.merged List.Pairwise.nil _,
      merged_none (by simp) (by simp [MetaSet.directory_record])⟩
  · obtain rfl := hroots hr
    obtain rfl := Option.some.inj (hlookup.symm.trans hr)
    exact Or.inl ⟨_, (MetaSet.dots_mem_merged (Or.inr (by simp [MetaSet.directory_record]))).1, rfl, rfl⟩
  · rcases eq_or_ne p [] with rfl | hne
    · rw [Store.fresh, AList.lookup_insert] at hp
      cases hp
    · rw [(fresh_lookup c hne).1] at hp
      cases hp

/-- The new member has no record. -/
theorem Placed.enter (h : Placed sha w f bytes x) (hnew : ∀ m ∈ w.ring, m.uuid ≠ n.uuid) (hf : f ≠ []) :
    Placed sha (w.enter n (.fresh c)) f bytes x := by
  have hold : ∀ m ∈ w.ring, (w.enter n (.fresh c)).stores m.uuid = w.stores m.uuid :=
    fun m hm => enter_stores_of_ne (hnew m hm)
  obtain ⟨m, hm, hrecord, hkept⟩ := h.entry
  refine ⟨List.mem_cons_of_mem _ h.holder, ⟨m, by rw [hold x h.holder, hm], hrecord, ?_⟩, fun y hy hne => ?_⟩
  · cases hkept with
    | here hnode hfile => exact .here hnode (by rw [hold x h.holder, hfile])
    | there k hk hne hnode hfile hnone =>
      exact .there k (List.mem_cons_of_mem _ hk) hne hnode (by rw [hold k hk, hfile])
        (by rw [hold x h.holder, hnone])
  · rcases List.mem_cons.mp hy with rfl | hy
    · rw [enter_stores_self]
      exact (fresh_lookup c hf).2
    · rw [hold y hy]
      exact h.others y hy hne

theorem Nowhere.enter (h : Nowhere sha w f) (hw : w.Exact) (hnew : ∀ m ∈ w.ring, m.uuid ≠ n.uuid)
    (hf : f ≠ []) :
    Nowhere sha (w.enter n (.fresh c)) f := by
  obtain ⟨o, ho, hsucc⟩ := hw.exists_successor (sha.uri f)
  obtain ⟨x, -, hx⟩ := hw.exists_successor n.uuid
  refine ⟨fun y hy => ?_, fun y hy => ?_⟩
  · rcases List.mem_cons.mp hy with rfl | hy
    · rw [enter_stores_self]
      exact (fresh_lookup c hf).2
    · rw [enter_stores_of_ne (hnew y hy)]
      exact h.entries y hy
  · rcases successor_enter hw hnew hx hsucc with hsame | ⟨hn, -⟩
    · obtain rfl := Option.some.inj (hsame.symm.trans hy)
      rw [enter_stores_of_ne (hnew o ho)]
      exact h.file o hsucc
    · obtain rfl := Option.some.inj (hn.symm.trans hy)
      rw [enter_stores_self]
      exact (fresh_lookup c hf).1

/-- The listings are where they were, and the new member waits for its own. -/
theorem World.Orderly.enter {made : Path → Prop} (h : w.Orderly sha paths made x.uuid []) (hw : w.Exact)
    (hnew : ∀ m ∈ w.ring, m.uuid ≠ n.uuid) (hx : w.successor n.uuid = some x) (hroot : made []) :
    (w.enter n (.fresh c)).Orderly sha paths made x.uuid
      ((w.stores x.uuid).metadata.get_all.map Prod.fst) where
  tidy y hy := by
    rcases List.mem_cons.mp hy with rfl | hy
    · rw [enter_stores_self]
      exact .fresh hroot c
    · rw [enter_stores_of_ne (hnew y hy)]
      exact (h.tidy y hy).mono fun _ _ _ _ hwaits => by cases hwaits.1
  listed d hd := by
    obtain ⟨o, ho, hat | ⟨-, hmem⟩, hdot⟩ := h.listed d hd
    · have hdot' : ((w.enter n (.fresh c)).stores o.uuid).Dotted d := by
        rwa [enter_stores_of_ne (hnew o ho)]
      refine ⟨o, List.mem_cons_of_mem _ ho, ?_, hdot'⟩
      refine (successor_enter hw hnew hx hat).imp id ?_
      rintro ⟨-, rfl⟩
      obtain ⟨r, hr, -⟩ := hdot
      exact ⟨rfl, mem_map_get_all.mpr (AList.lookup_isSome.mp (by rw [hr]; rfl))⟩
    · cases hmem

/-- The member after the new one has entries that are not its own. -/
theorem Volume.Held.enter (h : v.Held sha paths w) (hpaths : Names paths)
    (hnew : ∀ m ∈ w.ring, m.uuid ≠ n.uuid) (hx : w.successor n.uuid = some x) :
    Migrating sha paths v x (w.stores x.uuid).metadata.get_all (w.enter n (.fresh c)) := by
  have hmem := successor_mem hx
  have hstore : (w.enter n (.fresh c)).stores x.uuid = w.stores x.uuid := enter_stores_of_ne (hnew x hmem)
  have hne : ∀ {f}, paths f → f ≠ [] := fun hf => (hpaths.file _ hf).1
  have hpath : ∀ {f bytes}, v.files f = some bytes → paths f :=
    fun hf => (h.closed.parent _ (by rw [hf]; rfl)).1
  refine ⟨h.exact.enter hnew, List.mem_cons_of_mem _ hmem,
    (h.orderly x.uuid).enter h.exact hnew hx h.closed.root,
    fun e he => hstore ▸ h.turns hmem e he, get_all_nodup _, fun f bytes hf hnot o ho => ?_,
    fun f bytes hf hin => ?_, fun f hf hnone => (h.nowhere f hf hnone).enter h.exact hnew (hne hf),
    fun f hf => ?_⟩
  · obtain ⟨y, hy, hsucc⟩ := h.exact.exists_successor (sha.uri f)
    have hplaced := h.placed f bytes hf y hsucc
    rcases @successor_enter w n x y (.fresh c) _ h.exact hnew hx hsucc with hsame | ⟨-, rfl⟩
    · obtain rfl := Option.some.inj (hsame.symm.trans ho)
      exact hplaced.enter hnew (hne (hpath hf))
    · obtain ⟨m, hm, -⟩ := hplaced.entry
      exact absurd (mem_map_get_all.mpr (AList.lookup_isSome.mp (by rw [hm]; rfl))) hnot
  · have howner := h.owner_of_mem hmem hf (mem_map_get_all.mp hin)
    refine ⟨(h.placed f bytes hf x howner).enter hnew (hne (hpath hf)), fun o ho hox => ?_⟩
    rcases successor_enter h.exact hnew hx howner with hsame | ⟨hn, -⟩
    · exact absurd (Option.some.inj (ho.symm.trans hsame)) hox
    · obtain rfl := Option.some.inj (hn.symm.trans ho)
      rw [enter_stores_self]
      exact ⟨(fresh_lookup c (hne (hpath hf))).1, successor_enter_self h.exact hnew hx⟩
  · obtain ⟨y, hy, hl⟩ := h.named f hf
    rcases @successor_enter w n x y (.fresh c) _ h.exact hnew hx hy with hsame | ⟨-, rfl⟩
    · refine Or.inl ⟨y, hsame, ?_⟩
      rwa [enter_stores_of_ne (hnew y (successor_mem hy))]
    · obtain ⟨r, hr, hname⟩ := hl
      have hin : parent_path f ∈ (w.stores y.uuid).metadata :=
        AList.lookup_isSome.mp (by rw [Option.mem_def.mp hr]; rfl)
      exact Or.inr ⟨mem_map_get_all.mpr hin, r, hstore ▸ hr, hname⟩

end

/-! ## What clients and new members do -/

namespace Volume

inductive Action where
  | put (self : Peer) (uri : Path) (bytes : Bytes)
  | del (uri : Path) (recursive : Bool)
  | get (uri : Path)
  | mkdir (uri : Path)
  | join (n : Node) (count : UInt32)

def Action.uri : Action → Path
  | put _ uri _ => uri
  | del uri _ => uri
  | get uri => uri
  | mkdir uri => uri
  | join _ _ => []

def perform (v : Volume) : Action → Volume × Outcome
  | .put _ uri bytes => ({ v with files := Function.update v.files uri (some bytes) }, .status .OK)
  | .del uri _ =>
    match v.files uri with
    | none => (v, .status .UNKNOWN)
    | some _ => ({ v with files := Function.update v.files uri none }, .status .OK)
  | .get uri => (v, .content ((v.files uri).elim .failed .streamed))
  | .mkdir uri => ({ v with directories := fun d => d = uri ∨ v.directories d }, .status .OK)
  | .join n _ => ({ v with members := n :: v.members }, .status .OK)

/-- A file is put in a directory, and not over one with the same hash. A node joins a ring of two or more. -/
def Action.Fits (sha : Sha256) (paths : Path → Prop) (v : Volume) : Action → Prop
  | put _ uri bytes => paths uri ∧ v.directories (parent_path uri) ∧
    ∀ old ∈ v.files uri, sha.content old ≠ sha.content bytes
  | del uri _ => paths uri
  | get uri => paths uri
  | mkdir uri => FilePath uri ∧ uri.IsChain (· ≠ ·) ∧ ¬ paths uri ∧ ¬ v.directories uri ∧
    v.directories (parent_path uri)
  | join n _ => 2 ≤ v.members.length ∧ ∀ m ∈ v.members, m.uuid ≠ n.uuid

/-- The members with no files, and the root. -/
def empty (members : List Node) : Volume where
  files _ := none
  directories d := d = []
  members := members

end Volume

section

variable (sha : Sha256)

/-- The callbacks of a join: the node after the new one learns of its predecessor, then the new one has
joined. -/
def World.join (fuel : Nat) (w : World) (n : Node) (count : UInt32) : Option World := do
  let successor ← w.successor n.uuid
  let predecessor ← w.predecessor successor
  let w ← on_predecessor_update sha fuel (Peer.of successor) predecessor n (w.enter n (.fresh count))
  on_join sha fuel (Peer.of n) w

/-- The same on the disks of the members. -/
def World.serve (fuel : Nat) (w : World) : Volume.Action → Option (World × Outcome)
  | .put self uri bytes => do
    let (w, status) ← put_file sha fuel self w uri bytes .NONE
    some (w, .status status)
  | .del uri recursive => do
    let (w, status) ← facade_del sha fuel w uri recursive
    some (w, .status status)
  | .get uri => do
    let (w, answer) ← Get.get_file sha uri fuel w
    some (w, .content answer)
  | .mkdir uri => do
    let (w, status) ← mkdir sha fuel w uri .NONE
    some (w, .status status)
  | .join n count => do
    let w ← w.join sha fuel n count
    some (w, .status .OK)

end

section

variable {sha : Sha256} {paths : Path → Prop} {v : Volume} {w w' : World} {n x : Node} {c : UInt32}
    {lap fuel longest : Nat} {f d : Path} {bytes : Bytes} {s : Uuid} {file : Option Bytes}

/-- The bound of all paths. -/
def Volume.Short (v : Volume) (longest : Nat) : Prop :=
  ∀ p, (v.files p).isSome ∨ v.directories p → p.length ≤ longest

theorem Volume.Held.short (h : v.Held sha paths w) (hshort : v.Short longest)
    (hfuel : longest * (lap + 1) + lap + 1 < fuel) (hx : x ∈ w.ring) :
    ∀ e ∈ (w.stores x.uuid).metadata.get_all, e.1.length * (lap + 1) + lap + 1 < fuel := by
  intro e he
  have hlength := hshort e.1 ((h.turns hx e he).kind.imp And.left And.left)
  have hlong := Nat.mul_le_mul_right (lap + 1) hlength
  omega

/-- The node after the new one hands its entries over, and the new one looks through what it got. -/
theorem Volume.Held.join (h : v.Held sha paths w) (hpaths : Names paths) (hlap : Lap lap)
    (hshort : v.Short longest) (htwo : 2 ≤ v.members.length) (hnew : ∀ m ∈ v.members, m.uuid ≠ n.uuid)
    (hfuel : longest * (lap + 1) + lap + 1 < fuel) :
    ∃ w', w.join sha fuel n c = some w' ∧ Volume.Held sha paths { v with members := n :: v.members } w' := by
  rw [← h.ring] at htwo hnew
  obtain ⟨x, hmem, hx⟩ := h.exact.exists_successor n.uuid
  obtain ⟨p, hp, hne⟩ := h.exact.exists_predecessor htwo x
  obtain ⟨w₁, hfirst, hring, h₁⟩ := (h.enter (c := c) hpaths hnew hx).rebalance hpaths h.closed hlap
    (show RebalanceEvent.PREDECESSOR_UPDATE ≠ .LEAVE by decide) (h.short hshort hfuel hmem)
  have hclosed : Volume.Closed paths { v with members := n :: v.members } :=
    ⟨h.closed.root, h.closed.above, h.closed.apart, h.closed.parent, h.closed.plain, h.closed.steep⟩
  have hmigrated : Migrating sha paths { v with members := n :: v.members } x [] w₁ :=
    ⟨h₁.exact, h₁.member, h₁.orderly, by simp, h₁.once, h₁.moved, h₁.waiting, h₁.nowhere, h₁.named⟩
  have hheld := hmigrated.held hclosed (hring.trans (by rw [enter_ring, h.ring]))
  have hn : n ∈ w₁.ring := by
    rw [hring]
    exact List.mem_cons_self
  obtain ⟨w₂, hsecond, hring', h₂⟩ := (hheld.migrating hn).rebalance hpaths hclosed hlap
    (show RebalanceEvent.JOIN ≠ .LEAVE by decide) (hheld.short hshort hfuel hn)
  refine ⟨w₂, ?_, h₂.held hclosed (hring'.trans hheld.ring)⟩
  have hstore : (w.enter n (.fresh c)).stores x.uuid = w.stores x.uuid := enter_stores_of_ne (hnew x hmem)
  rw [World.join, hx, Option.bind_eq_bind, Option.bind_some, hp, Option.bind_some, on_predecessor_update]
  simp only [Peer.of, hstore, Option.bind_eq_bind]
  rw [show (⟨x, x.uuid⟩ : Peer) = Peer.of x from rfl, hfirst, Option.bind_some,
    if_neg fun hcond => hne hcond.1,
    Option.bind_some, on_join]
  exact hsecond

/-- What happens along the path of one file. -/
theorem Volume.Held.update (h : v.Held sha paths w) (hpaths : Names paths) (hf : paths f)
    (hclosed : Volume.Closed paths { v with files := Function.update v.files f file }) (halong : w.Along f w')
    (horderly : w'.Orderly sha paths v.directories s [])
    (hplaced : ∀ bytes, file = some bytes → ∀ o, w.successor (sha.uri f) = some o → Placed sha w' f bytes o)
    (hnowhere : file = none → Nowhere sha w' f)
    (hnamed : ∀ p, Volume.There { v with files := Function.update v.files f file } p →
      OwnerLists sha w' (parent_path p) (filename p)) :
    Volume.Held sha paths { v with files := Function.update v.files f file } w' := by
  have hsame : ∀ p, paths p → p ≠ f → w.SameAt p w' :=
    fun p hp hne => halong.same_at fun hbelow => hne (hpaths.apart p f hp hf hbelow)
  refine ⟨halong.ring.trans h.ring, hclosed, h.exact.of_ring halong.ring halong.up,
    fun u => horderly.settled u [],
    fun p bytes hp o ho => ?_, fun p hp hnone => ?_, hnamed⟩
  · rw [successor_congr halong.ring] at ho
    have hpath := (hclosed.parent p (by rw [hp]; rfl)).1
    dsimp only at hp
    rcases eq_or_ne p f with rfl | hne
    · rw [Function.update_self] at hp
      exact hplaced bytes hp o ho
    · rw [Function.update_of_ne hne] at hp
      exact (h.placed p bytes hp o ho).congr (hsame p hpath hne)
  · dsimp only at hnone
    rcases eq_or_ne p f with rfl | hne
    · rw [Function.update_self] at hnone
      exact hnowhere hnone
    · rw [Function.update_of_ne hne] at hnone
      exact (h.nowhere p hp hnone).congr (hsame p hp hne)

theorem Volume.Closed.update (h : v.Closed paths)
    (hfile : file.isSome → paths f ∧ v.directories (parent_path f)) :
    Volume.Closed paths { v with files := Function.update v.files f file } where
  root := h.root
  above := h.above
  apart := h.apart
  parent p hp := by
    dsimp only at hp
    rcases eq_or_ne p f with rfl | hne
    · rw [Function.update_self] at hp
      exact hfile hp
    · rw [Function.update_of_ne hne] at hp
      exact h.parent p hp
  plain := h.plain
  steep := h.steep

/-- A directory is no file. -/
theorem Volume.Closed.parent_ne (h : v.Closed paths) (hf : paths f) {p : Path} (hp : v.There p) :
    parent_path p ≠ f := fun heq => h.apart _ (h.parent_there hp) (heq ▸ hf)

theorem Volume.There.of_update {p : Path} (hne : p ≠ f)
    (hp : Volume.There { v with files := Function.update v.files f file } p) : v.There p := by
  refine hp.imp_left fun hp => ?_
  dsimp only at hp
  rwa [Function.update_of_ne hne] at hp

/-- The owner of the directory lists the file, and no name goes from another listing. -/
theorem put_file_names {self : Peer} (hw : w.Exact) (hf : FilePath f)
    (hcall : put_file sha fuel self w f bytes .NONE = some (w', .OK)) :
    OwnerLists sha w' (parent_path f) (filename f) ∧
      ∀ d n, d ≠ f → OwnerLists sha w d n → OwnerLists sha w' d n := by
  obtain ⟨fuel, stored, w₁, node, v, hbefore, hexact, hnode, hv, hafter⟩ :=
    put_file_asks_parent (k := 1) hw hcall
  have hring : v.ring = w₁.ring := (meta_add_only_above hv).ring
  have hparent : parent_path f ≠ f := fun heq => parent_path_not_below hf.1 ⟨[], by rw [List.append_nil, heq]⟩
  have hlater : ∀ d n, d ≠ f → (OwnerLists sha w' d n ↔ OwnerLists sha v d n) := fun d n hd =>
    OwnerLists.congr hafter.ring fun x _ => hafter.entries x.uuid d hd
  refine ⟨?_, fun d n hd hl => ?_⟩
  · rw [hlater _ _ hparent]
    refine meta_add_listed (k := 1) hexact (parent_listing_ne_nil _)
      ((mem_parent_listing_names _ _).mpr (by simp [file_record])) ?_
      (copied_zero (parent_listing_ordered _) (parent_listing_replication (k := 1) rfl)) hnode rfl hv
    rw [entry_of_parent_listing (by rw [file_record]; exact hf.named)]
    simp [file_record]
  · rw [hlater d n hd]
    refine OwnerLists.meta_add ?_ hv
    exact (OwnerLists.congr hbefore.ring fun x _ => hbefore.entries x.uuid d hd).mpr hl

theorem Volume.Held.put (h : v.Held sha paths w) (self : Peer) (hpaths : Names paths) (hlap : Lap lap)
    (hf : paths f) (hparent : v.directories (parent_path f))
    (hnew : ∀ old ∈ v.files f, sha.content old ≠ sha.content bytes)
    (hfuel : f.length * (lap + 1) + lap + 1 < fuel) :
    ∃ w', put_file sha fuel self w f bytes .NONE = some (w', .OK) ∧
      Volume.Held sha paths { v with files := Function.update v.files f (some bytes) } w' := by
  obtain ⟨o, -, ho⟩ := h.exact.exists_successor (sha.uri f)
  have hstate : Nowhere sha w f ∨ ∃ old, Placed sha w f old o ∧ sha.content old ≠ sha.content bytes := by
    cases hfile : v.files f with
    | none => exact Or.inl (h.nowhere f hf hfile)
    | some old => exact Or.inr ⟨old, h.placed f old hfile o ho, hnew old hfile⟩
  have horderly := h.orderly 0
  obtain ⟨w', hcall, halong, hplaced, horderly'⟩ :=
    put_placed self hlap h.exact (h.closed.file_in hpaths hf hparent)
    (horderly.tidy.writable hpaths hf) ho hstate horderly hfuel
  obtain ⟨hlisted, hkept⟩ := put_file_names h.exact (hpaths.file f hf) hcall
  refine ⟨w', hcall, h.update hpaths hf (h.closed.update fun _ => ⟨hf, hparent⟩) halong horderly'
    (fun b hb y hy => ?_) (by simp) fun p hp => ?_⟩
  · obtain rfl := Option.some.inj hb
    obtain rfl := Option.some.inj (ho.symm.trans hy)
    exact hplaced
  · rcases eq_or_ne p f with rfl | hne
    · exact hlisted
    · exact hkept _ _ (h.closed.parent_ne hf (hp.of_update hne)) (h.named p (hp.of_update hne))

theorem Volume.Held.del (h : v.Held sha paths w) (recursive : Bool) (hpaths : Names paths) (hlap : Lap lap)
    (hf : paths f) (hfile : v.files f = some bytes) (hfuel : lap + 1 < fuel) :
    ∃ w', facade_del sha fuel w f recursive = some (w', .OK) ∧
      Volume.Held sha paths { v with files := Function.update v.files f none } w' := by
  obtain ⟨o, -, ho⟩ := h.exact.exists_successor (sha.uri f)
  have hparent := (h.closed.parent f (by rw [hfile]; rfl)).2
  obtain ⟨w', hcall, halong, hnowhere, horderly, hkept⟩ := del_placed recursive hlap h.exact
    (h.closed.file_in hpaths hf hparent) ho (h.placed f bytes hfile o ho) (h.orderly 0) hfuel
  refine ⟨w', hcall, h.update hpaths hf (h.closed.update (by simp)) halong horderly (by simp)
    (fun _ => hnowhere) fun p hp => ?_⟩
  have hne : p ≠ f := by
    rintro rfl
    rcases hp with hp | ⟨hp, -⟩
    · dsimp only at hp
      rw [Function.update_self] at hp
      cases hp
    · exact h.closed.apart p hp hf
  have hthere := hp.of_update hne
  refine hkept _ _ (h.closed.parent_ne hf hthere) (fun hsame hname => hne ?_) (h.named p hthere)
  have hnil : p ≠ [] := (h.closed.file_path hpaths hthere).1
  rw [← (child_eq_iff hnil).mpr ⟨rfl, rfl⟩, hsame, hname]
  exact (child_eq_iff (hpaths.file f hf).1).mpr ⟨rfl, rfl⟩

/-- A `get` may move the file to its owner. -/
theorem Volume.Held.get (h : v.Held sha paths w) (fuel : Nat) (hpaths : Names paths) (hf : paths f) :
    ∃ w', Get.get_file sha f (fuel + 4) w = some (w', (v.files f).elim .failed .streamed) ∧
      v.Held sha paths w' := by
  obtain ⟨o, -, ho⟩ := h.exact.exists_successor (sha.uri f)
  cases hfile : v.files f with
  | none => exact ⟨w, get_nowhere h.exact ho (h.nowhere f hf hfile), h⟩
  | some bytes =>
    have hparent := (h.closed.parent f (by rw [hfile]; rfl)).2
    have horderly := h.orderly 0
    obtain ⟨w', hcall, halong, hplaced, horderly', hsame⟩ := get_placed fuel h.exact
      (h.closed.file_in hpaths hf hparent) (horderly.tidy.writable hpaths hf) ho
        (h.placed f bytes hfile o ho) horderly
    have hheld : Volume.Held sha paths { v with files := Function.update v.files f (v.files f) } w' := by
      refine h.update hpaths hf (h.closed.update fun _ => ⟨hf, hparent⟩) halong horderly'
        (fun b hb y hy => ?_)
        (fun hnone => ?_) fun p hp => ?_
      · obtain rfl := Option.some.inj (hfile.symm.trans hb)
        obtain rfl := Option.some.inj (ho.symm.trans hy)
        exact hplaced
      · rw [hfile] at hnone
        cases hnone
      · rw [Function.update_eq_self] at hp
        have hp : v.There p := hp
        refine (OwnerLists.congr halong.ring fun y _ => ?_).mpr (h.named p hp)
        exact hsame y.uuid _ (h.closed.parent_ne hf hp)
    rw [Function.update_eq_self] at hheld
    exact ⟨w', hcall, hheld⟩

/-- A directory is made below one that is there. -/
theorem Volume.Closed.mkdir (h : v.Closed paths) (hd : FilePath d) (hsteep : d.IsChain (· ≠ ·))
    (hnot : ¬ paths d) (hparent : v.directories (parent_path d)) :
    Volume.Closed paths { v with directories := fun c => c = d ∨ v.directories c } := by
  refine ⟨Or.inr h.root, fun c hc => ?_, fun c hc => ?_, fun f hf => ?_, fun c hc hne => ?_,
    fun c hc => ?_⟩
  · rcases hc with rfl | hc
    · exact Or.inr hparent
    · exact Or.inr (h.above c hc)
  · rcases hc with rfl | hc
    · exact hnot
    · exact h.apart c hc
  · exact (h.parent f hf).imp_right Or.inr
  · exact hc.elim (fun heq => heq ▸ hd) fun hc => h.plain c hc hne
  · exact hc.elim (fun heq => heq ▸ hsteep) (h.steep c)

/-- Nothing is at a path yet. -/
theorem Store.Tidy.more {made waiting : Path → Prop} {store : Store} (h : store.Tidy paths made waiting)
    (hd : d ∉ store.metadata) : store.Tidy paths (fun c => c = d ∨ made c) waiting where
  keys q hq := (h.keys q hq).imp_right Or.inr
  records := h.records
  dotted c r hc hr := by
    rcases hc with rfl | hc
    · exact absurd (AList.lookup_isSome.mp (by rw [hr]; rfl)) hd
    · exact h.dotted c r hc hr
  regular := h.regular

/-- All directories on the way are listed. -/
theorem Volume.Held.upward (h : v.Held sha paths w) (hd : v.directories d) : Upward sha w d := by
  intro e he n _ _ q m hq
  have hmade : v.directories (q ++ [m]) := directories_above h.closed.above hd (hq.trans he)
  have hl := h.named (q ++ [m]) (Or.inr ⟨hmade, by simp⟩)
  have hlast : filename (q ++ [m]) = m := by simp [filename]
  rwa [parent_path, List.dropLast_concat, hlast] at hl

/-- Nobody has a listing for a directory that is not there. -/
theorem Volume.Held.unmade (h : v.Held sha paths w) (hnot : ¬ paths d) (hnew : ¬ v.directories d) :
    ∀ n ∈ w.ring, d ∉ (w.stores n.uuid).metadata :=
  fun n hn hmem => (((h.orderly 0).tidy n hn).keys d hmem).elim hnot hnew

/-- The owner of a new directory gets its listing, and the listings above it hear of it. -/
theorem Volume.Held.make_listing (h : v.Held sha paths w) (hlap : Lap lap)
    (hclosed : Volume.Closed paths { v with directories := fun c => c = d ∨ v.directories c })
    (hnot : ¬ paths d) (hnew : ¬ v.directories d) (hparent : v.directories (parent_path d))
    (ho : w.successor (sha.uri d) = some o) (hfuel : d.length * (lap + 1) + lap < fuel) :
    ∃ w', meta_add sha fuel w o d [directory d .NONE] {} = some (w', .OK) ∧ w.Above d w' ∧
      ∀ u, w'.Orderly sha paths (fun c => c = d ∨ v.directories c) u [] := by
  obtain ⟨fuel, rfl⟩ : ∃ n, fuel = n + 1 := ⟨fuel - 1, by omega⟩
  have homem : o ∈ w.ring := successor_mem ho
  have hfresh := h.unmade hnot hnew
  have hentry : entry_of d [(directory d .NONE).sent] =
      [MetaSet.create_directory [(directory d .NONE).sent] ['.']] := if_pos ⟨rfl, rfl⟩
  have hsent : MetaSet.of_list ([directory d .NONE].map Metadata.sent) = [(directory d .NONE).sent] :=
    MetaSet.of_list_ordered (List.pairwise_singleton _ _)
  obtain ⟨w', status, hcall, habove⟩ :=
    @meta_add_above sha lap hlap (fuel + 1) w o d [directory d .NONE] {} h.exact
    homem (by simp) (by rw [left]; omega)
  obtain ⟨rfl, hdotted⟩ := meta_add_new (h.exact.up o homem) (by simp) hsent (by simp)
    (fun existing hmem => absurd (AList.lookup_isSome.mp (by rw [hmem]; rfl)) (hfresh o homem))
    (by rw [hentry]; exact List.mem_singleton.mpr rfl) hcall
  have hignored : ignored (meta_add sha (fuel + 1) w o d [directory d .NONE] {}) = some w' := by
    rw [hcall]
    rfl
  have hlisted := (h.orderly 0).listed
  have htidy : w'.Tidy sha paths (fun c => c = d ∨ v.directories c) 0 [] := by
    refine World.Tidy.meta_add (fun n hn => ((h.orderly 0).tidy n hn).more (hfresh n hn)) hlisted
      (fun c hc => ?_)
      (fun c hc _ => directories_above h.closed.above hparent hc) (by simp [directory])
      (Or.inr (by rw [hsent, hentry]; exact List.mem_singleton.mpr rfl)) ho hignored
    exact directories_above hclosed.above (Or.inl rfl) hc
  have hafter : AllListed sha v.directories 0 [] w' :=
    after_ignored (AllListed.adds.meta_add (fuel + 1) hlisted _ _ _ _) hignored
  have hall : AllListed sha (fun c => c = d ∨ v.directories c) 0 [] w' := by
    rintro c (rfl | hc)
    · exact ⟨o, habove.ring ▸ homem, Or.inl (by rw [successor_congr habove.ring, ho]), hdotted⟩
    · exact hafter c hc
  exact ⟨w', hcall, habove, fun u => World.Orderly.settled ⟨htidy, hall⟩ u []⟩

theorem Volume.Held.mkdir (h : v.Held sha paths w) (hpaths : Names paths) (hlap : Lap lap) (hd : FilePath d)
    (hsteep : d.IsChain (· ≠ ·)) (hnot : ¬ paths d) (hnew : ¬ v.directories d)
    (hparent : v.directories (parent_path d))
    (hfuel : d.length * (lap + 1) + lap < fuel) :
    ∃ w', mkdir sha fuel w d .NONE = some (w', .OK) ∧
      Volume.Held sha paths { v with directories := fun c => c = d ∨ v.directories c } w' := by
  obtain ⟨fuel, rfl⟩ : ∃ n, fuel = n + 1 := ⟨fuel - 1, by omega⟩
  obtain ⟨o, homem, ho⟩ := h.exact.exists_successor (sha.uri d)
  have hclosed := h.closed.mkdir hd hsteep hnot hparent
  have hfresh := h.unmade hnot hnew
  obtain ⟨w', hcall, habove, horderly⟩ := h.make_listing hlap hclosed hnot hnew hparent ho
    (by omega : _ < fuel + 1)
  have hignored : ignored (meta_add sha (fuel + 1) w o d [directory d .NONE] {}) = some w' := by
    rw [hcall]
    rfl
  have hsame : ∀ f, paths f → w.SameAt f w' := by
    intro f hf
    have hne : f ≠ d := fun heq => hnot (heq ▸ hf)
    exact (Along.of_above habove (List.prefix_refl _)).same_at
      (hclosed.not_above hpaths hf (Or.inr (Or.inl rfl)) hne)
  have hunknown : ¬ OwnerHas sha w d := by
    rintro ⟨y, hy, hsome⟩
    exact hfresh y (successor_mem hy) (AList.lookup_isSome.mp (Option.isSome_iff_ne_none.mpr hsome))
  have hmkdir : mkdir sha (fuel + 1) w d .NONE = some (w', .OK) := by
    rw [Fs.mkdir, ho, Option.bind_eq_bind, Option.bind_some]
    exact hcall
  obtain ⟨-, hnamed⟩ := mkdir_listings (k := 1) paths h.exact hd hsteep (h.upward hparent)
    (fun hhas => absurd hhas hunknown) (fun hl => absurd hl.has hunknown) hmkdir
  refine ⟨w', hmkdir, habove.ring.trans h.ring, hclosed, habove.exact h.exact,
    horderly, fun f bytes hf y hy => ?_,
    fun f hf hnone => (h.nowhere f hf hnone).congr (hsame f hf), fun p hp => ?_⟩
  · rw [successor_congr habove.ring] at hy
    exact (h.placed f bytes hf y hy).congr (hsame f (h.closed.parent f (by rw [hf]; rfl)).1)
  · rcases hp with hp | ⟨rfl | hp, hne⟩
    · exact (h.named p (Or.inl hp)).meta_add hignored
    · have hchild : parent_path p ++ [filename p] = p := (child_eq_iff hne).mpr ⟨rfl, rfl⟩
      exact hnamed.children _ _ (by rw [hchild])
    · exact (h.named p (Or.inr ⟨hp, hne⟩)).meta_add hignored

/-- What a client hears about a directory `d`. -/
def Volume.Finds (v : Volume) (d : Path) : Option (StatusCode × MetaSet) → Prop
  | some (.OK, records) => v.directories d ∧ ∀ n, v.There (d ++ [n]) → n ∈ records.map Metadata.name
  | some (.NOT_FOUND, records) => ¬ v.directories d ∧ records = []
  | _ => False

/-- A directory is found wherever its listing is, and has the names of its children. -/
theorem Volume.Held.finds (h : v.Held sha paths w) (hd : ¬ paths d) : v.Finds d (dir sha w d) := by
  obtain ⟨o, homem, ho⟩ := h.exact.exists_successor (sha.uri d)
  have horderly := h.orderly 0
  rw [dir, ho, Option.map_some, meta_dir, if_neg (not_not_intro (h.exact.up o homem))]
  cases hlookup : (w.stores o.uuid).metadata.lookup d with
  | none =>
    refine ⟨fun hdirectory => ?_, rfl⟩
    obtain ⟨r, hr, -⟩ := (horderly.listed.owner hdirectory ho).resolve_right fun hwaits => by cases hwaits.1
    rw [hlookup] at hr
    cases hr
  | some r =>
    refine ⟨((horderly.tidy o homem).keys d (AList.lookup_isSome.mp (by rw [hlookup]; rfl))).resolve_left hd,
      fun n hn => ?_⟩
    have hl := h.named (d ++ [n]) hn
    have hlast : filename (d ++ [n]) = n := by simp [filename]
    rw [parent_path, List.dropLast_concat, hlast, owner_lists_at ho] at hl
    obtain ⟨old, hold, hname⟩ := hl
    obtain rfl := Option.some.inj (hlookup.symm.trans hold)
    rwa [answered_names]

/-! ## All runs -/

theorem Volume.Short.perform {a : Volume.Action} (h : v.Short longest) (ha : a.uri.length ≤ longest) :
    (v.perform a).1.Short longest := by
  have hupdate : ∀ {file : Option Bytes} {uri : Path}, uri.length ≤ longest →
      Volume.Short { v with files := Function.update v.files uri file } longest := by
    intro file uri huri p hp
    rcases eq_or_ne p uri with rfl | hne
    · exact huri
    · dsimp only at hp
      rw [Function.update_of_ne hne] at hp
      exact h p hp
  cases a with
  | put self uri bytes => exact hupdate ha
  | del uri recursive =>
    rw [Volume.perform]
    split
    · exact h
    · exact hupdate ha
  | get uri => exact h
  | mkdir uri =>
    rintro p (hp | rfl | hp)
    · exact h p (Or.inl hp)
    · exact ha
    · exact h p (Or.inr hp)
  | join n count => exact h

/-- One action, on the disks and on the volume. -/
theorem Volume.Held.perform (h : v.Held sha paths w) (hpaths : Names paths) (hlap : Lap lap)
    {a : Volume.Action} (hfits : a.Fits sha paths v) (hshort : v.Short longest) (ha : a.uri.length ≤ longest)
    (hfuel : longest * (lap + 1) + lap + 4 < fuel) :
    ∃ w', w.serve sha fuel a = some (w', (v.perform a).2) ∧ (v.perform a).1.Held sha paths w' := by
  have hlong := Nat.mul_le_mul_right (lap + 1) ha
  cases a with
  | put self uri bytes =>
    obtain ⟨huri, hparent, hnew⟩ := hfits
    simp only [Volume.Action.uri] at hlong
    obtain ⟨w', hcall, hheld⟩ := h.put self hpaths hlap huri hparent hnew
      (by omega : uri.length * (lap + 1) + lap + 1 < fuel)
    refine ⟨w', ?_, hheld⟩
    rw [World.serve, hcall]
    rfl
  | del uri recursive =>
    cases hfile : v.files uri with
    | none =>
      obtain ⟨o, -, ho⟩ := h.exact.exists_successor (sha.uri uri)
      obtain ⟨fuel, rfl⟩ : ∃ n, fuel = n + 1 := ⟨fuel - 1, by omega⟩
      simp only [Volume.perform, hfile]
      refine ⟨w, ?_, h⟩
      rw [World.serve, del_nowhere recursive h.exact ho (h.nowhere uri hfits hfile)]
      rfl
    | some bytes =>
      obtain ⟨w', hcall, hheld⟩ := h.del recursive hpaths hlap hfits hfile (by omega : lap + 1 < fuel)
      simp only [Volume.perform, hfile]
      refine ⟨w', ?_, hheld⟩
      rw [World.serve, hcall]
      rfl
  | get uri =>
    obtain ⟨fuel, rfl⟩ : ∃ n, fuel = n + 4 := ⟨fuel - 4, by omega⟩
    obtain ⟨w', hcall, hheld⟩ := h.get fuel hpaths hfits
    refine ⟨w', ?_, hheld⟩
    rw [World.serve, hcall]
    rfl
  | mkdir uri =>
    obtain ⟨huri, hsteep, hnot, hnew, hparent⟩ := hfits
    simp only [Volume.Action.uri] at hlong
    obtain ⟨w', hcall, hheld⟩ := h.mkdir hpaths hlap huri hsteep hnot hnew hparent
      (by omega : uri.length * (lap + 1) + lap < fuel)
    refine ⟨w', ?_, hheld⟩
    rw [World.serve, hcall]
    rfl
  | join n count =>
    obtain ⟨htwo, hnew⟩ := hfits
    obtain ⟨w', hcall, hheld⟩ := h.join (c := count) hpaths hlap hshort htwo hnew (by omega : _ < fuel)
    refine ⟨w', ?_, hheld⟩
    rw [World.serve, hcall]
    rfl

/-- Fresh disks hold no files. -/
theorem fresh_volume (sha : Sha256) (hpaths : Names paths) (hw : w.Exact)
    (hstores : ∀ n ∈ w.ring, ∃ c, w.stores n.uuid = .fresh c) : (Volume.empty w.ring).Held sha paths w where
  ring := rfl
  closed := by
    refine ⟨rfl, fun d hd => ?_, fun d hd hpath => (hpaths.file d hpath).1 hd, fun f hf => (by cases hf),
      fun d hd hne => absurd hd hne, fun d hd => ?_⟩
    · rw [show d = [] from hd]
      rfl
    · rw [show d = [] from hd]
      exact List.isChain_nil
  exact := hw
  orderly s := by
    refine ⟨fun n hn => ?_, fun d hd => ?_⟩
    · obtain ⟨c, hc⟩ := hstores n hn
      rw [hc]
      exact .fresh (show (Volume.empty w.ring).directories [] from rfl) c
    · obtain ⟨o, ho, hsucc⟩ := hw.exists_successor (sha.uri d)
      obtain ⟨c, hc⟩ := hstores o ho
      obtain rfl : d = [] := hd
      refine ⟨o, ho, Or.inl hsucc, _, by rw [hc]; exact MetaStore.lookup_add _ _ _, _,
        (MetaSet.dots_mem_merged (Or.inr (by simp [MetaSet.directory_record]))).1, rfl, rfl⟩
  placed f bytes hf := by cases hf
  nowhere f hf _ := by
    have hne := (hpaths.file f hf).1
    refine ⟨fun n hn => ?_, fun n hn => ?_⟩
    · obtain ⟨c, hc⟩ := hstores n hn
      rw [hc]
      exact (fresh_lookup c hne).2
    · obtain ⟨c, hc⟩ := hstores n (successor_mem hn)
      rw [hc]
      exact (fresh_lookup c hne).1
  named p hp := by
    rcases hp with hp | ⟨hp, hne⟩
    · cases hp
    · exact absurd hp hne

/-- A file is put in a new directory. A node that joins becomes its owner, and the file is read, put again
and deleted. -/
def Volume.three_actions : List Volume.Action :=
  [.mkdir [['d']], .put (Peer.of ⟨10, ['a']⟩) [['d'], ['f']] [1], .join ⟨17, ['j']⟩ 1, .get [['d'], ['f']],
    .put (Peer.of ⟨17, ['j']⟩) [['d'], ['f']] [1, 2], .join ⟨16, ['k']⟩ 1, .get [['d'], ['f']],
    .del [['d'], ['f']] false, .get [['d'], ['f']]]

end

end Fs

end Chord
