import Chord.Fs.Manager
import Chord.Lib.OrderedMap
import Chord.Subtract
import Mathlib.Data.Char
import Mathlib.Data.List.Lex
import Mathlib.Data.List.Sort

/-!
# The order of `get_all` (`chord.i.fs.metadata.manager.h`)

A rebalance deletes the files before their directories. It follows the order of the map, which
counts separators first.
-/

namespace Chord

namespace Fs

open OrderedMap PathString Uri

/-! ## The map -/

/-- `uri_descending`. -/
def uri_descending (lhs rhs : Uri) : Prop :=
  let lhs_cnt := lhs.path.canonical.count '/'
  let rhs_cnt := rhs.path.canonical.count '/'
  if lhs_cnt ≠ rhs_cnt then rhs_cnt < lhs_cnt else rhs.to_string < lhs.to_string

instance : DecidableRel uri_descending := fun lhs rhs =>
  inferInstanceAs (Decidable (if lhs.path.canonical.count '/' ≠ rhs.path.canonical.count '/' then _ else _))

/-- `as_uri(const std::string&)` goes over `c_str()`, which ends at a NUL. -/
def as_uri_string (p : List Char) : Uri := as_uri (p.takeWhile (· ≠ Char.ofNat 0))

namespace Database

/-- The iterator of the database goes through the keys in their order. -/
def entries_in_order (db : Database) : List (PathString × MetaSet) :=
  (db.entries.map fun e => (e.1, e.2)).insertionSort fun a b => a.1 ≤ b.1

def get_all (db : Database) : List (Uri × MetaSet) :=
  assign_all uri_descending (db.entries_in_order.map fun e => (as_uri_string e.1, e.2))

/-- The paths that an iteration over the map visits. -/
def visited (db : Database) : List PathString := db.get_all.map fun e => e.1.path

end Database

/-! ## The comparison -/

instance : IsTrans Uri uri_descending where
  trans a b c hab hbc := by
    unfold uri_descending at hab hbc ⊢
    dsimp only at hab hbc ⊢
    split at hab <;> split at hbc
    · rw [if_pos (by omega)]
      omega
    · rw [if_pos (by omega)]
      omega
    · rw [if_pos (by omega)]
      omega
    · rw [if_neg (by omega)]
      exact lt_trans hbc hab

instance : Std.Irrefl uri_descending where
  irrefl a h := by
    rw [uri_descending, if_neg (by simp)] at h
    exact lt_irrefl _ h

theorem to_string_as_uri_path (p : PathString) :
    to_string (as_uri p) = ['c', 'h', 'o', 'r', 'd', ':', '/', '/'] ++ p.canonical := by
  simp [to_string, as_uri]

/-- Two uris of paths are the same or can be told apart. -/
theorem uri_descending_total (p q : PathString) :
    uri_descending (as_uri p) (as_uri q) ∨ uri_descending (as_uri q) (as_uri p) ∨ as_uri q = as_uri p := by
  unfold uri_descending
  dsimp only
  by_cases hcount : (as_uri p).path.canonical.count '/' = (as_uri q).path.canonical.count '/'
  · rw [if_neg (not_not_intro hcount), if_neg (not_not_intro hcount.symm)]
    rcases lt_trichotomy (to_string (as_uri q)) (to_string (as_uri p)) with h | h | h
    · left; exact h
    · right; right
      rw [to_string_as_uri_path, to_string_as_uri_path, List.append_cancel_left_eq] at h
      rw [as_uri, h, as_uri]
    · right; left; exact h
  · rw [if_pos hcount, if_pos (Ne.symm hcount)]
    omega

/-! ## Ancestors -/

/-- `q` has the first names of `p` and not all of them, whatever separators end the paths. -/
def ProperAncestor (q p : PathString) : Prop :=
  (q.is_absolute ↔ p.is_absolute) ∧ q.components <+: p.components ∧ q.components ≠ p.components

instance (q p : PathString) : Decidable (ProperAncestor q p) := inferInstanceAs (Decidable (_ ∧ _))

/-- A canonical path is its names, with or without a separator after them. -/
theorem canonical_form {p : PathString} (hp : p.canonical = p) : (∀ n ∈ p.components, Plain n) ∧
    (p = text p.is_absolute p.components ∨
      p.components ≠ [] ∧ p = text p.is_absolute p.components ++ ['/']) := by
  have hnames : p.components = p.names := by
    rw [← p.canonical_parts.1, hp]
  have hform := p.canonical_eq
  rw [hp] at hform
  rw [hnames]
  refine ⟨p.names_plain, ?_⟩
  split at hform
  · rename_i htrailing
    right; exact ⟨htrailing.1, hform⟩
  · left; rwa [List.append_nil] at hform

/-- The text of an ancestor begins the text of the path. -/
theorem ancestor_prefix {p q : PathString} (hp : p.canonical = p) (hq : q.canonical = q)
    (h : ProperAncestor q p) : ∃ s, s ≠ [] ∧ p = q ++ s := by
  obtain ⟨habs, ⟨m, hm⟩, hne⟩ := h
  obtain ⟨hplain, hform⟩ := canonical_form hp
  obtain ⟨-, hqform⟩ := canonical_form hq
  have hm_ne : m ≠ [] := by
    rintro rfl
    exact hne (by rw [← hm, List.append_nil])
  have hm_plain : ∀ n ∈ m, Plain n := fun n hn => hplain n (by rw [← hm]; exact List.mem_append_right _ hn)
  have hm_text : text false m ≠ [] := ((has_filename_text hm_plain).mpr hm_ne).1
  -- the path is the names, and perhaps a separator
  obtain ⟨e, he⟩ : ∃ e, p = text p.is_absolute p.components ++ e := by
    rcases hform with h | ⟨-, h⟩
    · exact ⟨[], by rw [List.append_nil]; exact h⟩
    · exact ⟨['/'], h⟩
  rw [← hm, ← decide_eq_decide.mpr habs] at he
  by_cases hl : q.components = []
  · have hqtext := hqform.resolve_right fun h => h.1 hl
    rw [hl, text_nil] at hqtext
    rw [hl, List.nil_append] at he
    by_cases ha : q.is_absolute
    · rw [decide_eq_true ha] at hqtext he
      rw [text_true_eq hm_ne] at he
      exact ⟨text false m ++ e, by simp [hm_text], by rw [hqtext]; exact he⟩
    · rw [decide_eq_false ha] at hqtext he
      exact ⟨text false m ++ e, by simp [hm_text], by rw [hqtext]; exact he⟩
  · rw [text_append hl hm_ne, text_true_eq hm_ne] at he
    rcases hqform with hqtext | ⟨-, hqtext⟩
    · refine ⟨'/' :: text false m ++ e, by simp, ?_⟩
      rw [hqtext, ← List.append_assoc]
      exact he
    · refine ⟨text false m ++ e, by simp [hm_text], ?_⟩
      rw [hqtext, he]
      simp

theorem lt_append {s t : List Char} (ht : t ≠ []) : s < s ++ t := by
  obtain ⟨c, t, rfl⟩ := List.exists_cons_of_ne_nil ht
  have h : s ++ [] < s ++ c :: t := List.append_left_lt (List.nil_lt_cons c t)
  rwa [List.append_nil] at h

theorem descending_of_ancestor {p q : PathString} (hp : p.canonical = p) (hq : q.canonical = q)
    (h : ProperAncestor q p) : uri_descending (as_uri p) (as_uri q) := by
  obtain ⟨s, hs, heq⟩ := ancestor_prefix hp hq h
  have hcount : q.count '/' ≤ p.count '/' := by rw [heq, List.count_append]; omega
  unfold uri_descending
  dsimp only
  rw [to_string_as_uri_path, to_string_as_uri_path]
  simp only [as_uri, hp, hq]
  split
  · omega
  · rw [heq, ← List.append_assoc]
    exact lt_append hs

/-! ## What is stored -/

/-- The keys of the database are canonical, for `__add` writes under no other. -/
def Canonical (db : Database) : Prop := ∀ p ∈ db, p.canonical = p

namespace Database

theorem canonical_insert {db : Database} (h : Canonical db) (p : PathString) (s : MetaSet) :
    Canonical (db.insert p.canonical s) := by
  intro q hq
  rcases (AList.mem_insert db).mp hq with rfl | hq
  · exact canonical_canonical p
  · exact h q hq

theorem canonical_erase {db : Database} (h : Canonical db) (p : PathString) : Canonical (db.erase p) :=
  fun q hq => h q (AList.mem_erase.mp hq).2

theorem canonical_of_step {db : Database} (h : Canonical db) (call : Call) : Canonical (step db call) := by
  cases call with
  | add directory metadata => exact canonical_insert h _ _
  | del directory =>
    rw [step, del]
    split
    · exact h
    · cases db.lookup directory.path with
      | none => exact h
      | some s => exact canonical_erase h _
  | del_names directory metadata removeIfEmpty =>
    rw [step, del_names]
    cases db.lookup directory.path.canonical with
    | none => exact h
    | some s =>
      dsimp only [Option.map_some, Option.getD_some]
      split
      · exact canonical_erase h _
      · exact canonical_insert h _ _

theorem canonical_run {db : Database} (h : Canonical db) (calls : List Call) : Canonical (run db calls) := by
  induction calls generalizing db with
  | nil => exact h
  | cons call calls ih => exact ih (canonical_of_step h call)

theorem canonical_opened {db : Database} (h : Canonical db) : Canonical (opened db) :=
  canonical_insert h _ _

/-! ## What an iteration visits -/

/-- The keys of the map before they are sorted. -/
theorem mem_assigned {db : Database} {u : Uri} :
    u ∈ keys (db.entries_in_order.map fun e => (as_uri_string e.1, e.2)) ↔ ∃ p ∈ db, as_uri_string p = u := by
  have hmem : ∀ e, e ∈ db.entries_in_order ↔ ∃ x ∈ db.entries, (x.1, x.2) = e := by
    intro e
    rw [entries_in_order, List.mem_insertionSort, List.mem_map]
  simp only [keys, List.map_map, List.mem_map, Function.comp, AList.mem_keys, AList.keys, List.keys, hmem]
  constructor
  · rintro ⟨_, ⟨x, hx, rfl⟩, hu⟩
    exact ⟨x.1, ⟨x, hx, rfl⟩, hu⟩
  · rintro ⟨_, ⟨x, hx, rfl⟩, hu⟩
    exact ⟨_, ⟨x, hx, rfl⟩, hu⟩

theorem visited_eq (db : Database) : db.visited = (keys db.get_all).map Uri.path := by
  rw [visited, keys, List.map_map]
  rfl

theorem mem_get_all {db : Database} {u : Uri} : u ∈ keys db.get_all ↔ ∃ p ∈ db, as_uri_string p = u := by
  rw [← mem_assigned]
  constructor
  · exact mem_keys_of_assign_all
  · apply mem_keys_assign_all
    intro x hx y hy
    obtain ⟨p, -, rfl⟩ := mem_assigned.mp hx
    obtain ⟨q, -, rfl⟩ := mem_assigned.mp hy
    exact uri_descending_total _ _

theorem get_all_sorted (db : Database) : (keys db.get_all).Pairwise uri_descending := assign_all_sorted _

/-- What is visited comes from a text that ends at a NUL. -/
theorem visited_free {db : Database} {p : PathString} (h : p ∈ db.visited) : Char.ofNat 0 ∉ p := by
  rw [visited_eq] at h
  obtain ⟨u, hu, rfl⟩ := List.mem_map.mp h
  obtain ⟨q, -, rfl⟩ := mem_get_all.mp hu
  intro hnul
  rcases mem_canonical hnul with hq | hslash
  · simpa using List.mem_takeWhile_imp hq
  · exact absurd hslash (by decide)

theorem as_uri_string_free {p : PathString} (h : Char.ofNat 0 ∉ p) : as_uri_string p = as_uri p := by
  have hall : ∀ c ∈ p, decide (c ≠ Char.ofNat 0) = true := by
    intro c hc
    rw [decide_eq_true_iff]
    rintro rfl
    exact h hc
  rw [as_uri_string, List.takeWhile_eq_self_iff.mpr hall]

theorem visited_nodup (db : Database) : db.visited.Nodup := by
  rw [visited_eq, List.Nodup, List.pairwise_map]
  apply (get_all_sorted db).imp_of_mem
  intro u v hu hv hlt heq
  obtain ⟨p, -, rfl⟩ := mem_get_all.mp hu
  obtain ⟨q, -, rfl⟩ := mem_get_all.mp hv
  have hsame : as_uri_string p = as_uri_string q := by
    rw [as_uri_string, as_uri_string, as_uri, as_uri]
    congr 1
  rw [hsame] at hlt
  exact irrefl_of uri_descending _ hlt

/-! ## Children first -/

/-- The comparison orders the uris that `get_all` builds. -/
structure StrictTotalOrder (db : Database) : Prop where
  irrefl : ∀ u ∈ db.keys.map as_uri_string, ¬ uri_descending u u
  trans : ∀ u ∈ db.keys.map as_uri_string, ∀ v ∈ db.keys.map as_uri_string,
    ∀ w ∈ db.keys.map as_uri_string, uri_descending u v → uri_descending v w → uri_descending u w
  total : ∀ u ∈ db.keys.map as_uri_string, ∀ v ∈ db.keys.map as_uri_string,
    u ≠ v → uri_descending u v ∨ uri_descending v u

/-- Every stored path is visited once, and before all of its ancestors. -/
structure ChildrenFirst (db : Database) : Prop where
  once : db.visited.Nodup
  all : ∀ p ∈ db, p ∈ db.visited
  first : ∀ p ∈ db, ∀ q ∈ db, ProperAncestor q p → [p, q].Sublist db.visited

theorem strict_total_order (db : Database) : StrictTotalOrder db where
  irrefl := fun u _ => irrefl_of uri_descending u
  trans := fun _ _ _ _ _ _ => trans_of uri_descending
  total := by
    intro u hu v hv hne
    obtain ⟨p, -, rfl⟩ := List.mem_map.mp hu
    obtain ⟨q, -, rfl⟩ := List.mem_map.mp hv
    have htotal := uri_descending_total (p.takeWhile (· ≠ Char.ofNat 0)) (q.takeWhile (· ≠ Char.ofNat 0))
    rcases htotal with h | h | h
    · left; exact h
    · right; exact h
    · exact absurd h.symm hne

theorem children_first_of_free {db : Database} (hcanonical : Canonical db)
    (hfree : ∀ p ∈ db, Char.ofNat 0 ∉ p) : ChildrenFirst db where
  once := visited_nodup db
  all := by
    intro p hp
    rw [visited_eq, List.mem_map]
    refine ⟨as_uri p, mem_get_all.mpr ⟨p, hp, as_uri_string_free (hfree p hp)⟩, hcanonical p hp⟩
  first := by
    intro p hp q hq hancestor
    have hkey : ∀ x ∈ db, as_uri x ∈ keys db.get_all :=
      fun x hx => mem_get_all.mpr ⟨x, hx, as_uri_string_free (hfree x hx)⟩
    have hlt := descending_of_ancestor (hcanonical p hp) (hcanonical q hq) hancestor
    have hpair := (pair_sublist (get_all_sorted db) (hkey p hp) (hkey q hq) hlt).map Uri.path
    have hpath : ∀ x ∈ db, (as_uri x).path = x := hcanonical
    rw [visited_eq]
    rwa [List.map_cons, List.map_cons, List.map_nil, hpath p hp, hpath q hq] at hpair

end Database

end Fs

end Chord
