import Chord.Fs.Contents
import Mathlib.Data.List.Chain
import Mathlib.Data.List.TakeWhile

/-!
# Reading while files are lost

A node loses the file of a copy, and a `get` that comes by brings it back. As long as one copy is
left every `get` answers with the file.
-/

open Circle

namespace Chord

namespace Fs

open World

/-! ## Losses -/

/-- The nodes that have lost the file of a path. -/
abbrev Losses := Path → List Uuid

inductive Incident where
  | loss (uri : Path) (u : Uuid)
  | get (uri : Path)

/-- The file is gone from the data directory of one node. -/
def World.lose (w : World) (uri : Path) (u : Uuid) : World :=
  w.set u { w.stores u with files := (w.stores u).files.erase uri }

def World.incident (sha : Sha256) (fuel : Nat) (w : World) : Incident → Option (World × Option Get.Answer)
  | .loss uri u => some (w.lose uri u, none)
  | .get uri => (Get.get_file sha uri fuel w).map fun (w, answer) => (w, some answer)

/-- The nodes that a `get` comes by before it finds the file. -/
def Losses.passed (lost : Losses) (order : Path → List Uuid) (uri : Path) : List Uuid :=
  (order uri).takeWhile (lost uri).contains

/-- The losses after an incident, where `order` has the owner of each path and the nodes after it. -/
def Losses.incident (m : Contents) (order : Path → List Uuid) (lost : Losses) :
    Incident → Losses × Option Get.Answer
  | .loss uri u => (Function.update lost uri (u :: lost uri), none)
  | .get uri =>
    (Function.update lost uri ((lost uri).filter fun u => !(lost.passed order uri).contains u),
      some (read (m uri)))

/-- Only a node with a copy loses one, and one copy is left for a `get`. -/
def Incident.Fits (paths : Path → Prop) (m : Contents) (order : Path → List Uuid) (lost : Losses) :
    Incident → Prop
  | .loss uri u => paths uri ∧ ∃ f ∈ m uri, u ∈ (order uri).take (max 1 f.count.toNat)
  | .get uri => paths uri ∧ ∀ f ∈ m uri, ∃ u ∈ (order uri).take (max 1 f.count.toNat), u ∉ lost uri

section

variable (sha : Sha256)

/-- What is left of copy number `j` on a disk. -/
def Remains (store : Store) (uri : Path) (j : Nat) (gone : Bool) : Option File → Prop
  | none => Clear store uri
  | some file =>
    if j < max 1 file.count.toNat then
      store.files.lookup uri = (if gone then none else some (.regular file.bytes)) ∧
        store.metadata.lookup uri = some [file_record sha uri file.bytes (.copy file.count j)]
    else Clear store uri

/-- The disks hold the map, but for the files that were lost. -/
structure Worn (paths : Path → Prop) (m : Contents) (w : World) (lost : Losses) : Prop where
  exact : w.Exact
  remains : ∀ p, paths p → ∀ j n, (w.clockwise (sha.uri p))[j]? = some n →
    Remains sha (w.stores n.uuid) p j (n.uuid ∈ lost p) (m p)
  regular : ∀ n ∈ w.ring, ∀ p bytes, (w.stores n.uuid).files.lookup p = some (.regular bytes) → paths p

variable {sha} {paths : Path → Prop} {m : Contents} {w w' : World} {lost lost' : Losses} {uri : Path}
  {file : Option File} {store store' : Store} {j : Nat}

theorem remains_iff_copyAt : Remains sha store uri j false file ↔ CopyAt sha store uri j file := by
  cases file with
  | none => rfl
  | some f => rfl

theorem Reflects.worn (h : Reflects sha paths w m) : Worn sha paths m w fun _ => [] where
  exact := h.exact
  remains p hp j n hn := by
    have hgone : decide (n.uuid ∈ ([] : List Uuid)) = false := rfl
    rw [hgone, remains_iff_copyAt]
    exact h.spread p hp j n hn
  regular := h.regular

theorem Remains.congr {gone : Bool} (h : Remains sha store uri j gone file)
    (hfiles : store'.files.lookup uri = store.files.lookup uri)
    (hmetadata : store'.metadata.lookup uri = store.metadata.lookup uri) :
    Remains sha store' uri j gone file := by
  cases file with
  | none => exact Clear.congr h hfiles hmetadata
  | some f =>
    rw [Remains] at h ⊢
    rw [hfiles, hmetadata]
    split
    · rename_i hj
      rwa [if_pos hj] at h
    · rename_i hj
      rw [if_neg hj] at h
      exact Clear.congr h hfiles hmetadata

/-- A change along one path. What is left of its copies then is to be shown. -/
theorem Worn.update (h : Worn sha paths m w lost) (hpaths : Names paths) (huri : paths uri)
    (halong : w.Along uri w') (hlost : ∀ p ≠ uri, lost' p = lost p)
    (hremains : ∀ j n, (w.clockwise (sha.uri uri))[j]? = some n →
      Remains sha (w'.stores n.uuid) uri j (n.uuid ∈ lost' uri) (m uri)) : Worn sha paths m w' lost' where
  exact := h.exact.of_ring halong.ring halong.up
  remains p hp j n hn := by
    rw [clockwise_congr halong.ring] at hn
    rcases eq_or_ne p uri with rfl | hne
    · exact hremains j n hn
    · have hapart : ¬ p <+: uri := fun hbelow => hne (hpaths.apart p uri hp huri hbelow)
      rw [hlost p hne]
      exact (h.remains p hp j n hn).congr ((halong.stores n.uuid).files p hapart)
        ((halong.stores n.uuid).metadata p hapart)
  regular n hn p bytes hlookup := by
    rw [halong.ring] at hn
    rcases (halong.stores n.uuid).regular p bytes hlookup with rfl | hold
    · exact huri
    · exact h.regular n hn p bytes hold

/-- A directory on the way to a file is none of the files. -/
theorem Worn.writable (h : Worn sha paths m w lost) (hpaths : Names paths) (huri : paths uri) :
    ∀ n ∈ w.ring, Writable (w.stores n.uuid) uri := by
  intro n hn p hp bytes hlookup
  obtain rfl := hpaths.apart p uri (h.regular n hn p bytes hlookup) huri (hp.trans (parent_path_le uri))
  exact parent_path_not_below (hpaths.file p huri).1 hp

/-! ## One incident -/

theorem erase_along (uri : Path) (store : Store) :
    store.Along uri { store with files := store.files.erase uri } := by
  refine ⟨fun q hq => ?_, fun _ _ => rfl, fun q bytes hlookup => ?_⟩
  · exact AList.lookup_erase_ne fun heq => hq (heq ▸ List.prefix_refl _)
  · rcases eq_or_ne q uri with heq | hq
    · exact Or.inl heq
    · exact Or.inr ((AList.lookup_erase_ne hq).symm.trans hlookup)

theorem Remains.lose {gone : Bool} (h : Remains sha store uri j gone file) {f : File} (hfile : file = some f)
    (hj : j < max 1 f.count.toNat) :
    Remains sha { store with files := store.files.erase uri } uri j true file := by
  subst hfile
  rw [Remains, if_pos hj] at h ⊢
  exact ⟨AList.lookup_erase _ _, h.2⟩

theorem mem_order {id : Uuid} {n : Node} {c : Nat} (hw : w.Exact) (hn : (w.clockwise id)[j]? = some n)
    (h : n.uuid ∈ ((w.clockwise id).map Node.uuid).take c) : j < c := by
  obtain ⟨i, hi, heq⟩ := List.getElem_of_mem h
  rw [List.length_take, List.length_map] at hi
  rw [List.getElem_take, List.getElem_map] at heq
  obtain ⟨hj, rfl⟩ := List.getElem?_eq_some_iff.mp hn
  have hpair : (w.clockwise id).Pairwise fun x y => x.uuid ≠ y.uuid :=
    ((w.clockwise_perm id).pairwise_iff fun h => Ne.symm h).mpr hw.apart
  have hij : i = j := by
    rcases Nat.lt_trichotomy i j with hlt | heq | hlt
    · exact absurd heq (List.pairwise_iff_getElem.mp hpair i j (by omega) hj hlt)
    · exact heq
    · exact absurd heq.symm (List.pairwise_iff_getElem.mp hpair j i hj (by omega) hlt)
  omega

/-- The owners in clockwise order, for the whole run. -/
def order (sha : Sha256) (w : World) (p : Path) : List Uuid := (w.clockwise (sha.uri p)).map Node.uuid

theorem Worn.loss (h : Worn sha paths m w lost) (hpaths : Names paths) {u : Uuid}
    (hfits : Incident.Fits paths m (order sha w) lost (.loss uri u)) :
    Worn sha paths m (w.lose uri u) (lost.incident m (order sha w) (.loss uri u)).1 := by
  obtain ⟨huri, f, hf, hu⟩ := hfits
  have halong : w.Along uri (w.lose uri u) := Along.set (erase_along uri _)
  refine h.update hpaths huri halong (fun p hp => Function.update_of_ne hp _ _) fun j n hn => ?_
  have hold := h.remains uri huri j n hn
  simp only [Losses.incident, Function.update_self]
  rcases eq_or_ne n.uuid u with rfl | hne
  · have hgone : decide (n.uuid ∈ n.uuid :: lost uri) = true := by simp
    rw [hgone, World.lose, set_stores_self]
    exact hold.lose hf (mem_order h.exact hn hu)
  · have hsame : decide (n.uuid ∈ u :: lost uri) = decide (n.uuid ∈ lost uri) := by simp [hne]
    rw [hsame, World.lose, set_stores_of_ne hne]
    exact hold

theorem create_parent_along {files made : Files} (h : files.create_parent uri = some made) :
    (∀ q, ¬ q <+: parent_path uri → made.lookup q = files.lookup q) ∧
      ∀ q b, made.lookup q = some (.regular b) → files.lookup q = some (.regular b) := by
  unfold Files.create_parent at h
  split at h
  · cases h
    exact ⟨fun _ _ => rfl, fun _ _ => id⟩
  · exact create_directories_along h

theorem recover_along {bytes : Bytes} (h : Lost store uri) (huri : uri ≠ []) :
    store.Along uri (recover uri bytes store) := by
  obtain ⟨made, hmade, -, -⟩ := Get.create_parent_missing h.file h.writable huri
  obtain ⟨hsame, hregular⟩ := create_parent_along hmade
  have hlookup : ∀ q ≠ uri, (recover uri bytes store).files.lookup q = made.lookup q := by
    intro q hq
    rw [recover, hmade, Option.getD_some, AList.lookup_insert_ne hq, AList.lookup_insert_ne hq]
  refine ⟨fun q hq => ?_, fun _ _ => rfl, fun q b hq => ?_⟩
  · have hne : q ≠ uri := fun heq => hq (heq ▸ List.prefix_refl _)
    rw [hlookup q hne, hsame q fun hp => hq (hp.trans (parent_path_le uri))]
  · rcases eq_or_ne q uri with heq | hne
    · exact Or.inl heq
    · exact Or.inr (hregular q b ((hlookup q hne).symm.trans hq))

/-- A list up to the first element without a property. -/
theorem exists_first {α : Type} (p : α → Prop) [DecidablePred p] {l : List α} (h : ∃ a ∈ l, ¬ p a) :
    ∃ y rest, l = l.takeWhile p ++ y :: rest ∧ ¬ p y := by
  cases hdrop : l.dropWhile p with
  | nil =>
    obtain ⟨a, ha, hp⟩ := h
    exact absurd (of_decide_eq_true (List.dropWhile_eq_nil_iff.mp hdrop a ha)) hp
  | cons y rest =>
    refine ⟨y, rest, by rw [← hdrop, List.takeWhile_append_dropWhile], ?_⟩
    have hhead := List.head?_dropWhile_not (fun a => decide (p a)) l
    rw [hdrop] at hhead
    simpa using hhead

/-- What a node that lost a copy needs for a `get`. -/
theorem Remains.missing {f : File} (h : Remains sha store uri j true (some f)) (hj : j < max 1 f.count.toNat)
    (hmore : 1 < f.count.toNat) (hdisk : Writable store uri) : Lost store uri := by
  rw [Remains, if_pos hj] at h
  have hactive := (Replication.active_copy (k := f.count) (by have := f.count.toNat_lt; omega)).mpr
    ⟨(by omega : j < f.count.toNat), hmore⟩
  exact ⟨h.1, ⟨_, h.2, rfl, hactive⟩, hdisk⟩

theorem Remains.present {f : File} (h : Remains sha store uri j false (some f))
    (hj : j < max 1 f.count.toNat) : store.files.lookup uri = some (.regular f.bytes) := by
  rw [Remains, if_pos hj] at h
  exact h.1

theorem Remains.recover {f : File} (h : Remains sha store uri j true (some f))
    (hj : j < max 1 f.count.toNat) :
    Remains sha (recover uri f.bytes store) uri j false (some f) := by
  rw [Remains, if_pos hj] at h ⊢
  exact ⟨AList.lookup_insert _, h.2⟩

/-- A path that was never put. -/
theorem Worn.get_absent (h : Worn sha paths m w lost) (huri : paths uri) (hm : m uri = none) {fuel : Nat} :
    Get.get_file sha uri (fuel + 2) w = some (w, .failed) := by
  have hspread : Spread sha w uri none := by
    intro j n hn
    have hremains := h.remains uri huri j n hn
    rwa [hm] at hremains
  exact get_spread h.exact hspread

/-- The request goes to the first node with the file, and the ones before it get it back. -/
theorem Worn.get_found (h : Worn sha paths m w lost) (hpaths : Names paths) (huri : paths uri) {f : File}
    (hm : m uri = some f) {l : List Node} {y : Node} {rest : List Node}
    (hsplit : w.clockwise (sha.uri uri) = l ++ y :: rest) (hl : ∀ z ∈ l, z.uuid ∈ lost uri)
    (hy : y.uuid ∉ lost uri) (hlength : l.length < max 1 f.count.toNat) {fuel : Nat}
    (hfuel : 2 * w.ring.length + 1 < fuel) :
    ∃ w', Get.get_file sha uri fuel w = some (w', .streamed f.bytes) ∧ w.Along uri w' ∧
      (∀ z ∈ l, w'.stores z.uuid = recover uri f.bytes (w.stores z.uuid)) ∧
      ∀ u, (∀ z ∈ l, z.uuid ≠ u) → w'.stores u = w.stores u := by
  have hne := (hpaths.file uri huri).1
  have hmem : ∀ z ∈ l ++ y :: rest, z ∈ w.ring := fun z hz => mem_clockwise.mp (hsplit ▸ hz)
  have hremains : ∀ (i : Nat) z, (l ++ y :: rest)[i]? = some z →
      Remains sha (w.stores z.uuid) uri i (z.uuid ∈ lost uri) (some f) := by
    intro i z hz
    rw [← hm]
    exact h.remains uri huri i z (by rw [hsplit]; exact hz)
  have hlost : ∀ z ∈ l, Lost (w.stores z.uuid) uri := by
    intro z hzl
    obtain ⟨i, hi, rfl⟩ := List.getElem_of_mem hzl
    have hz := hremains i l[i] (by rw [List.getElem?_append_left hi, List.getElem?_eq_getElem hi])
    rw [decide_eq_true (hl _ (List.getElem_mem hi))] at hz
    exact hz.missing (by omega) (by omega) (h.writable hpaths huri _ (hmem _ (List.mem_append_left _ hzl)))
  have hpresent : (w.stores y.uuid).files.lookup uri = some (.regular f.bytes) := by
    have hz := hremains l.length y (by simp)
    rw [decide_eq_false hy] at hz
    exact hz.present hlength
  obtain ⟨x, others, hcons⟩ := h.exact.exists_owner (sha.uri uri)
  have hx : (l ++ [y]).head? = some x := by
    have hhead : (l ++ y :: rest).head? = some x := by
      rw [← hsplit, hcons]
      rfl
    cases l <;> exact hhead
  have hbelow : l ++ [y] <+: x :: others ++ [x] := by
    rw [← hcons, hsplit, List.append_assoc]
    exact ⟨rest ++ [x], by simp⟩
  have hpair : (l ++ [y]).Pairwise fun a b => a.uuid ≠ b.uuid := by
    have hall : (w.clockwise (sha.uri uri)).Pairwise fun a b => a.uuid ≠ b.uuid :=
      ((w.clockwise_perm _).pairwise_iff fun h => Ne.symm h).mpr h.exact.apart
    rw [hsplit] at hall
    exact hall.sublist (List.Sublist.append_left (List.singleton_sublist.mpr List.mem_cons_self) l)
  have hsub : ∀ z ∈ l ++ [y], z ∈ l ++ y :: rest := by
    intro z hz
    rcases List.mem_append.mp hz with hz | hz
    · exact List.mem_append_left _ hz
    · exact List.mem_append_right _ (List.mem_singleton.mp hz ▸ List.mem_cons_self)
  have hchain := List.IsChain.prefix (h.exact.isChain hcons) hbelow
  obtain ⟨w', hdrive, hring, hup, hrecovered, hothers⟩ := Get.drive_fetch sha fuel [] hne hx hchain hpair
    (fun z hz => h.exact.up z (hmem z (hsub z hz))) hlost hpresent
  have hlen : l.length < w.ring.length := by
    rw [← w.length_clockwise (sha.uri uri), hsplit]
    simp
  obtain ⟨n, rfl⟩ : ∃ n, fuel = 2 * l.length + 1 + (n + 1) := ⟨fuel - 2 * l.length - 2, by omega⟩
  refine ⟨w', ?_, ⟨hring, hup, fun u => ?_⟩, hrecovered, hothers⟩
  · rw [Get.get_file, h.exact.successor_owner hcons, Option.bind_eq_bind, Option.bind_some, hdrive, Get.drive]
  · by_cases hu : ∃ z ∈ l, z.uuid = u
    · obtain ⟨z, hz, rfl⟩ := hu
      rw [hrecovered z hz]
      exact recover_along (hlost z hz) hne
    · rw [hothers u fun z hz heq => hu ⟨z, hz, heq⟩]
      exact .refl _ _

theorem mem_filter_not {u : Uuid} {lost passed : List Uuid} :
    u ∈ lost.filter (fun u => !passed.contains u) ↔ u ∈ lost ∧ u ∉ passed := by
  simp

theorem passed_eq (lost : Losses) (w : World) (uri : Path) : lost.passed (order sha w) uri =
    ((w.clockwise (sha.uri uri)).takeWhile fun n => n.uuid ∈ lost uri).map Node.uuid := by
  rw [Losses.passed, order, List.takeWhile_map]
  simp only [Function.comp_def, List.contains_eq_mem]

/-- The copies before the first one that is left are there again. -/
theorem Worn.get (h : Worn sha paths m w lost) (hpaths : Names paths)
    (hfits : Incident.Fits paths m (order sha w) lost (.get uri)) {fuel : Nat}
    (hfuel : 2 * w.ring.length + 1 < fuel) :
    ∃ w', Get.get_file sha uri fuel w = some (w', read (m uri)) ∧ w'.ring = w.ring ∧
      Worn sha paths m w' (lost.incident m (order sha w) (.get uri)).1 := by
  obtain ⟨huri, hleft⟩ := hfits
  have hothers : ∀ p ≠ uri, (lost.incident m (order sha w) (.get uri)).1 p = lost p :=
    fun p hp => Function.update_of_ne hp _ _
  cases hm : m uri with
  | none =>
    obtain ⟨fuel, rfl⟩ : ∃ n, fuel = n + 2 := ⟨fuel - 2, by omega⟩
    refine ⟨w, h.get_absent huri hm, rfl, h.update hpaths huri (.refl _ _) hothers fun j n hn => ?_⟩
    have hremains := h.remains uri huri j n hn
    rw [hm] at hremains ⊢
    exact hremains
  | some f =>
    obtain ⟨u, hu, hkept⟩ := hleft f hm
    have hexists : ∃ z ∈ w.clockwise (sha.uri uri), ¬ z.uuid ∈ lost uri := by
      obtain ⟨z, hz, rfl⟩ := List.mem_map.mp (List.mem_of_mem_take hu)
      exact ⟨z, hz, hkept⟩
    obtain ⟨y, rest, hsplit, hy⟩ := exists_first (fun z : Node => z.uuid ∈ lost uri) hexists
    have hpassed := @passed_eq sha lost w uri
    have hl : ∀ z ∈ (w.clockwise (sha.uri uri)).takeWhile fun n => n.uuid ∈ lost uri, z.uuid ∈ lost uri := by
      intro z hz
      have htrue := List.mem_takeWhile_imp hz
      exact of_decide_eq_true htrue
    generalize (w.clockwise (sha.uri uri)).takeWhile (fun n => n.uuid ∈ lost uri) = l at hsplit hl hpassed
    have hlength : l.length < max 1 f.count.toNat := by
      by_contra hge
      rw [order, hsplit, List.map_append,
        List.take_append_of_le_length (by simpa using Nat.not_lt.mp hge)] at hu
      obtain ⟨z, hz, rfl⟩ := List.mem_map.mp (List.mem_of_mem_take hu)
      exact hkept (hl z hz)
    obtain ⟨w', hget, halong, hrecovered, hsame⟩ :=
      h.get_found hpaths huri hm hsplit hl hy hlength hfuel
    refine ⟨w', hget, halong.ring, h.update hpaths huri halong hothers fun j n hn => ?_⟩
    have hremains := h.remains uri huri j n hn
    simp only [Losses.incident, Function.update_self, hpassed]
    by_cases hn' : n.uuid ∈ l.map Node.uuid
    · obtain ⟨z, hz, heq⟩ := List.mem_map.mp hn'
      have hj : j < max 1 f.count.toNat := by
        have hbelow : n.uuid ∈ ((w.clockwise (sha.uri uri)).map Node.uuid).take l.length := by
          rw [hsplit, List.map_append, List.take_left' (List.length_map _)]
          exact hn'
        have := mem_order h.exact hn hbelow
        omega
      have hgone : decide (n.uuid ∈ (lost uri).filter fun u => !(l.map Node.uuid).contains u) = false :=
        decide_eq_false fun h => (mem_filter_not.mp h).2 hn'
      rw [decide_eq_true (heq ▸ hl z hz), hm] at hremains
      rw [hgone, hm, ← heq, hrecovered z hz, heq]
      exact hremains.recover hj
    · have hgone : decide (n.uuid ∈ (lost uri).filter fun u => !(l.map Node.uuid).contains u) =
          decide (n.uuid ∈ lost uri) :=
        decide_eq_decide.mpr ⟨fun h => (mem_filter_not.mp h).1, fun h => mem_filter_not.mpr ⟨h, hn'⟩⟩
      rw [hgone, hsame n.uuid fun z hz heq => hn' (List.mem_map.mpr ⟨z, hz, heq⟩)]
      exact hremains

/-! ## Runs -/

/-- Incidents one after the other, with the answers. -/
abbrev incidents (sha : Sha256) (fuel : Nat) (w : World) (events : List Incident) :
    Option (World × List (Option Get.Answer)) :=
  Simulation.run (World.incident sha fuel) w events

abbrev Losses.incidents (m : Contents) (order : Path → List Uuid) (events : List Incident) :
    Losses × List (Option Get.Answer) :=
  Simulation.abstract_run (Losses.incident m order) (fun _ => []) events

def Contents.two_copies : Contents := Function.update (fun _ => none) [['g']] (some ⟨[7], 2⟩)

theorem two_copies_holds : ∃ w, w.ring = World.three.ring ∧
    Reflects ⟨fun _ => 15, fun _ => 0⟩ Contents.three_paths w Contents.two_copies := by
  obtain ⟨lap, hlap⟩ := exists_lap
  obtain ⟨w, -, hholds, hring⟩ :=
    (Contents.three_holds ⟨fun _ => 15, fun _ => 0⟩).perform Contents.three_names
    hlap (c := .put (Peer.of ⟨10, ['a']⟩) [['g']] [7] 2) ⟨Or.inr rfl, by simp⟩ (Nat.le_refl _)
    (Nat.lt_succ_self _)
  exact ⟨w, hring, hholds⟩

theorem three_order : (World.three.clockwise 15).map Node.uuid = [20, 30, 10] := by decide +kernel

/-- One node after the other loses its copy, with a `get` in between. -/
def two_losses : List Incident := [.loss [['g']] 20, .get [['g']], .loss [['g']] 30, .get [['g']]]

end

end Fs

end Chord
