import Chord.Fs.Metadata
import Mathlib.Data.List.Forall2
import Mathlib.Data.List.Induction

/-!
# Records on the wire (`chord_fs.proto`, `chord.fs.metadata.builder.h`)

A field that nobody sets has its default value. A uuid goes as its decimal text.
-/

namespace Chord

/-- `uuid::string`. -/
def Uuid.string (u : Uuid) : List Char := Nat.toDigits 10 u.toNat

/-- `uuid(const std::string&)`, for a decimal text. -/
def Uuid.of_string (s : List Char) : Uuid := BitVec.ofNat 256 (Nat.ofDigitChars 10 s 0)

@[simp]
theorem Uuid.of_string_string (u : Uuid) : Uuid.of_string u.string = u := by
  rw [of_string, string, Nat.ofDigitChars_toDigits (by omega) (by omega), BitVec.ofNat_toNat,
    BitVec.setWidth_eq]

@[simp]
theorem Uuid.string_ne_nil (u : Uuid) : u.string ≠ [] := Nat.toDigits_ne_nil

namespace Fs

/-! ## Messages -/

structure RouterEntry where
  uuid : List Char := []
  endpoint : List Char := []
  deriving DecidableEq

structure Data where
  type : UInt32 := 0
  size : Nat := 0
  permissions : UInt32 := 0
  filename : Name := []
  owner : Name := []
  group : Name := []
  replication_idx : UInt32 := 0
  replication_cnt : UInt32 := 0
  file_hash : List Char := []
  node_ref : Option RouterEntry := none
  deriving DecidableEq

structure MetaRequest where
  metadata : List Data
  deriving DecidableEq

structure MetaResponse where
  metadata : List Data
  deriving DecidableEq

namespace FileType

def value_of : FileType → UInt32
  | .none => 0
  | .not_found => 0xFFFFFFFF
  | .regular => 1
  | .directory => 2
  | .unknown => 0xFFFF

/-- `static_cast<type>`, for the values of `value_of`. -/
def of_value (v : UInt32) : FileType :=
  if v = 0 then .none
  else if v = 0xFFFFFFFF then .not_found
  else if v = 1 then .regular
  else if v = 2 then .directory
  else .unknown

@[simp]
theorem of_value_value_of (t : FileType) : of_value t.value_of = t := by cases t <;> decide

end FileType

/-! ## Encoding and decoding -/

/-- The `Data` that `Client::meta` adds for a record. -/
def Client.meta_data (m : Metadata) : Data where
  filename := m.name
  type := m.file_type.value_of
  permissions := m.permissions
  owner := m.owner
  group := m.group
  node_ref := m.node_ref.map fun n => { uuid := n.uuid.string, endpoint := n.endpoint }
  file_hash := m.file_hash.elim [] Uuid.string
  replication_idx := m.replication.index
  replication_cnt := m.replication.count

/-- The request of `Client::meta` for an `ADD` or `DEL`. -/
def Client.meta_request (metadata : MetaSet) : MetaRequest := ⟨metadata.map Client.meta_data⟩

namespace MetadataBuilder

/-- `from(const Data&)`. Owner and group are not implemented. -/
def from_data (item : Data) : Metadata where
  name := item.filename
  owner := []
  group := []
  permissions := item.permissions
  file_type := FileType.of_value item.type
  file_size := item.size
  file_hash := if item.file_hash ≠ [] then some (Uuid.of_string item.file_hash) else none
  node_ref := item.node_ref.map fun n => ⟨Uuid.of_string n.uuid, n.endpoint⟩
  replication := ⟨item.replication_idx, item.replication_cnt⟩

/-- `from(const MetaRequest*)`: `none` for the exception. -/
def from_request (req : MetaRequest) : Option MetaSet :=
  if req.metadata.length ≤ 0 then none else some (MetaSet.of_list (req.metadata.map from_data))

/-- `from(const MetaResponse&)`. -/
def from_response (res : MetaResponse) : MetaSet := MetaSet.of_list (res.metadata.map from_data)

/-- The `Data` that `addMetadata` adds for a record. -/
def add_data (m : Metadata) : Data where
  filename := m.name
  type := m.file_type.value_of
  size := m.file_size
  permissions := m.permissions
  file_hash := m.file_hash.elim [] Uuid.string
  replication_idx := if m.replication.active then m.replication.index else 0
  replication_cnt := if m.replication.active then m.replication.count else 0

def addMetadata (metadata : MetaSet) : MetaResponse := ⟨metadata.map add_data⟩

theorem from_data_meta_data (m : Metadata) : from_data (Client.meta_data m) = m.sent := by
  cases m with
  | mk name owner group permissions file_type file_size file_hash node_ref replication =>
    cases file_hash <;> cases node_ref <;> simp [from_data, Client.meta_data, Metadata.sent]

theorem from_data_add_data (m : Metadata) : from_data (add_data m) = m.answered := by
  cases m with
  | mk name owner group permissions file_type file_size file_hash node_ref replication =>
    cases file_hash <;> by_cases h : replication.active <;> simp [from_data, add_data, Metadata.answered, h]

/-- What the handlers of `Service.lean` see of a request. -/
theorem from_request_meta_request (s : MetaSet) :
    from_request (Client.meta_request s) = if s = [] then none
      else some (MetaSet.of_list (s.map Metadata.sent)) := by
  have hdata : (Client.meta_request s).metadata.map from_data = s.map Metadata.sent := by
    rw [Client.meta_request, List.map_map]
    exact List.map_congr_left fun m _ => from_data_meta_data m
  rw [from_request, hdata]
  simp [Client.meta_request]

/-- What a client sees of a response. -/
theorem from_response_addMetadata (s : MetaSet) :
    from_response (addMetadata s) = MetaSet.of_list (s.map Metadata.answered) := by
  rw [from_response, addMetadata, List.map_map]
  congr 1
  exact List.map_congr_left fun m _ => from_data_add_data m

end MetadataBuilder

/-! ## Sets in the order of their names -/

namespace MetaSet

/-- The records of a `std::set<Metadata>`. -/
def Ordered (s : MetaSet) : Prop := s.Pairwise fun a b => a.name < b.name

theorem Ordered.distinct {s : MetaSet} (h : s.Ordered) : s.Pairwise fun a b => a.name ≠ b.name :=
  h.imp fun hlt heq => by
    rw [heq] at hlt
    exact List.lt_irrefl _ hlt

theorem insert_last {s : MetaSet} {m : Metadata} (h : ∀ x ∈ s, x.name < m.name) : insert m s = s ++ [m] := by
  have hnone : ¬ ∃ x ∈ s, x.name = m.name := by
    rintro ⟨x, hx, heq⟩
    have hlt := h x hx
    rw [heq] at hlt
    exact List.lt_irrefl _ hlt
  rw [insert, if_neg hnone]
  clear hnone
  induction s with
  | nil => rfl
  | cons x s ih =>
    have hlt := h x List.mem_cons_self
    have hne : m.name ≠ x.name := by
      intro heq
      rw [heq] at hlt
      exact List.lt_irrefl _ hlt
    rw [insert_or_assign, if_neg hne, if_neg (List.lt_asymm hlt), List.cons_append,
      ih fun y hy => h y (List.mem_cons_of_mem x hy)]

/-- Decoding the records of a set in their order gives the set back. -/
theorem of_list_ordered {s : MetaSet} (h : s.Ordered) : of_list s = s := by
  induction s using List.reverseRecOn with
  | nil => rfl
  | append_singleton s m ih =>
    obtain ⟨hs, -, hm⟩ := List.pairwise_append.mp h
    have hfold : of_list (s ++ [m]) = insert m (of_list s) := by
      rw [of_list, List.foldl_append]; rfl
    rw [hfold, ih hs]
    exact insert_last fun x hx => hm x hx m List.mem_cons_self

theorem ordered_map {s : MetaSet} {f : Metadata → Metadata} (hf : ∀ m, (f m).name = m.name) :
    Ordered (s.map f) ↔ s.Ordered := by
  simp only [Ordered, List.pairwise_map, hf]

/-- `operator==` of the records, one by one. -/
def equal : MetaSet → MetaSet → Prop := List.Forall₂ Metadata.equal

end MetaSet

/-! ## Round trips -/

@[simp]
theorem Metadata.sent_name (m : Metadata) : m.sent.name = m.name := rfl

@[simp]
theorem Metadata.answered_name (m : Metadata) : m.answered.name = m.name := rfl

theorem Metadata.sent_eq_iff (m : Metadata) : m.sent = m ↔ m.owner = [] ∧ m.group = [] ∧ m.file_size = 0 := by
  cases m
  simp only [sent, mk.injEq, true_and, and_true]
  simp only [eq_comm]

open MetadataBuilder

/-- A request comes back as it was sent where no record has an owner, a group or a size, and
there is a record at all. -/
theorem meta_request_round_trip (s : MetaSet) (hs : s.Ordered) :
    from_request (Client.meta_request s) = some s ↔
      s ≠ [] ∧ ∀ m ∈ s, m.owner = [] ∧ m.group = [] ∧ m.file_size = 0 := by
  have hsent : MetaSet.of_list (s.map Metadata.sent) = s.map Metadata.sent :=
    MetaSet.of_list_ordered ((MetaSet.ordered_map Metadata.sent_name).mpr hs)
  have hmap : s.map Metadata.sent = s ↔ ∀ m ∈ s, m.sent = m := by
    conv_lhs => rhs; rw [← List.map_id s]
    rw [List.map_inj_left]
    rfl
  rw [from_request_meta_request, hsent]
  by_cases hnil : s = []
  · simp [hnil]
  · rw [if_neg hnil, Option.some.injEq, hmap]
    simp only [Metadata.sent_eq_iff, ne_eq, hnil, not_false_eq_true, true_and]

/-- A record as the tests of metadata requests write it. -/
theorem file_record_round_trip :
    from_request (Client.meta_request [⟨['f'], [], [], 0o777, .regular, 0, some 7, none, ⟨0, 3⟩⟩]) =
      some [⟨['f'], [], [], 0o777, .regular, 0, some 7, none, ⟨0, 3⟩⟩] :=
  (meta_request_round_trip _ (List.pairwise_singleton _ _)).mpr (by simp)

/-- The size of a file is lost. -/
theorem file_size_lost : ¬ ∀ s : MetaSet, s.Ordered → from_request (Client.meta_request s) = some s := by
  intro h
  have hlost := h [⟨['f'], [], [], 0o777, .regular, 3, none, none, .NONE⟩] (List.pairwise_singleton _ _)
  revert hlost
  decide

theorem Metadata.answered_equal_iff (m : Metadata) :
    m.answered.equal m ↔ m.node_ref = none ∧ (m.replication.active ∨ m.replication = ⟨0, 0⟩) := by
  have hbasic : m.answered.compare_basic m := ⟨rfl, rfl, rfl⟩
  simp only [equal, hbasic, true_and]
  have href : m.answered.node_ref = m.node_ref ↔ m.node_ref = none := eq_comm
  have hrepl : m.answered.replication = m.replication ↔
      m.replication.active ∨ m.replication = ⟨0, 0⟩ := by
    rw [answered]
    by_cases h : m.replication.active
    · simp [h]
    · simp only [h, if_false, false_or]
      exact eq_comm
  rw [href, hrepl]

theorem MetaSet.answered_equal_iff (s : MetaSet) : equal (s.map Metadata.answered) s ↔
    ∀ m ∈ s, m.node_ref = none ∧ (m.replication.active ∨ m.replication = ⟨0, 0⟩) := by
  induction s with
  | nil => simp [equal]
  | cons m s ih =>
    rw [equal, List.map_cons, List.forall₂_cons, Metadata.answered_equal_iff, List.forall_mem_cons]
    exact and_congr_right fun _ => ih

/-! ## Sets that are equal in the sense of `operator==` -/

namespace MetaSet

theorem equal_is_regular_file {s t : MetaSet} (h : equal s t) : is_regular_file s ↔ is_regular_file t := by
  cases h with
  | nil => rfl
  | cons hm hrest =>
    obtain ⟨⟨-, htype, -⟩, -⟩ := hm
    simp [is_regular_file, List.Forall₂.length_eq hrest, htype]

theorem equal_is_shallow_copy {s t : MetaSet} (h : equal s t) (self : Node) :
    is_shallow_copy self s ↔ is_shallow_copy self t := by
  cases h with
  | nil => rfl
  | cons hm hrest =>
    have hfile := equal_is_regular_file (.cons hm hrest)
    simp [is_shallow_copy, hfile, hm.2.1]

theorem equal_max_replication {s t : MetaSet} (h : equal s t) : max_replication s = max_replication t := by
  cases h with
  | nil => rfl
  | cons hm hrest =>
    rename_i m n s t
    have hfold : ∀ (best best' : Metadata), best.replication = best'.replication →
        (s.foldl (fun best x => if best.replication.count < x.replication.count then x
          else best) best).replication =
        (t.foldl (fun best x => if best.replication.count < x.replication.count then x
          else best) best').replication := by
      clear hm
      induction hrest with
      | nil => exact fun _ _ h => h
      | cons hm' _ ih =>
        intro best best' hbest
        rw [List.foldl_cons, List.foldl_cons]
        apply ih
        rw [hbest, hm'.2.2]
        split
        · exact hm'.2.2
        · exact hbest
    exact hfold _ _ hm.2.2

theorem equal_is_shallow_copyable {s t : MetaSet} (h : equal s t) (self : Node) :
    is_shallow_copyable self s ↔ is_shallow_copyable self t := by
  have hmax := equal_max_replication h
  cases h with
  | nil => rfl
  | cons hm hrest =>
    have hfile := equal_is_regular_file (.cons hm hrest)
    simp [is_shallow_copyable, hfile, hmax, hm.2.1]

end MetaSet

/-- The fetched set and the owner's own agree, and so do the tests of `rebalance` on both. -/
def SameAnswers (s t : MetaSet) : Prop :=
  MetaSet.equal s t ∧ MetaSet.max_replication s = MetaSet.max_replication t ∧
    ∀ self, (MetaSet.is_shallow_copy self s ↔ MetaSet.is_shallow_copy self t) ∧
      (MetaSet.is_shallow_copyable self s ↔ MetaSet.is_shallow_copyable self t)

theorem sameAnswers_iff (s t : MetaSet) : SameAnswers s t ↔ MetaSet.equal s t :=
  ⟨fun h => h.1, fun h => ⟨h, MetaSet.equal_max_replication h, fun self =>
    ⟨MetaSet.equal_is_shallow_copy h self, MetaSet.equal_is_shallow_copyable h self⟩⟩⟩

/-- A response keeps no reference, and no replication but an active one. -/
theorem meta_response_round_trip (s : MetaSet) (hs : s.Ordered) :
    SameAnswers (from_response (addMetadata s)) s ↔
      ∀ m ∈ s, m.node_ref = none ∧ (m.replication.active ∨ m.replication = ⟨0, 0⟩) := by
  have hanswered : MetaSet.of_list (s.map Metadata.answered) = s.map Metadata.answered :=
    MetaSet.of_list_ordered ((MetaSet.ordered_map Metadata.answered_name).mpr hs)
  rw [from_response_addMetadata, hanswered, sameAnswers_iff, MetaSet.answered_equal_iff]

/-- The listing of a replicated file. -/
theorem replicated_record_answered : SameAnswers
    (from_response (addMetadata [⟨['f'], [], [], 0o777, .regular, 3, some 7, none, ⟨0, 2⟩⟩]))
    [⟨['f'], [], [], 0o777, .regular, 3, some 7, none, ⟨0, 2⟩⟩] :=
  (meta_response_round_trip _ (List.pairwise_singleton _ _)).mpr (by decide)

/-- A file on another node is no shallow copy any more for the node that asks. -/
theorem shallow_copy_lost : ¬ ∀ s : MetaSet, s.Ordered → SameAnswers (from_response (addMetadata s)) s := by
  intro h
  let s : MetaSet := [⟨['f'], [], [], 0o777, .regular, 3, some 7, some ⟨5, ['b', ':', '2']⟩, .NONE⟩]
  have hlost := ((h s (List.pairwise_singleton _ _)).2.2 ⟨1, ['a', ':', '1']⟩).1
  revert hlost
  decide

end Fs

end Chord
