import Chord.Fs.Get
import Chord.Lib.Pipe

/-!
# Files in pieces

`Client::put` and `Service::get` read a file piece by piece and write each one to a stream, and the
other side puts the pieces together.
-/

namespace Chord

namespace Fs

/-! ## Pieces -/

structure PutRequest where
  data : Bytes
  offset : Nat
  size : Nat
  deriving DecidableEq

structure GetResponse where
  id : Uuid
  data : Bytes
  offset : Nat
  size : Nat
  deriving DecidableEq

/-- How many characters a file stream has at hand at each place. -/
abbrev Avail := Nat → Nat

/-- `readsome(buffer, n)` with `rest` still to read: it does not wait for more than there is at hand. -/
def readsome (avail : Avail) (n offset : Nat) (rest : Bytes) : Bytes := rest.take (min (avail offset) n)

theorem readsome_length_le (avail : Avail) (n offset : Nat) (rest : Bytes) :
    (readsome avail n offset rest).length ≤ rest.length := by
  rw [readsome, List.length_take]
  omega

/-- The loop of `Client::put`. It ends where `readsome` reads nothing. -/
def pieces (avail : Avail) (n offset : Nat) (rest : Bytes) : List PutRequest :=
  if _h : readsome avail n offset rest = [] then []
  else
    let data := readsome avail n offset rest
    ⟨data, offset, data.length⟩ :: pieces avail n (offset + data.length) (rest.drop data.length)
termination_by rest.length
decreasing_by
  have hpos := List.length_pos_iff.mpr _h
  have hle := readsome_length_le avail n offset rest
  rw [List.length_drop]
  omega

/-- The bytes of the buffers: 512k. -/
def buffer_size : Nat := 512 * 1024

/-- What the client writes. `file_hash_equal` is what the node says in its initial metadata. -/
def put_requests (avail : Avail) (file_hash_equal : Bool) (bytes : Bytes) : List PutRequest :=
  if file_hash_equal then [] else pieces avail buffer_size 0 bytes

/-- What the node writes. -/
def get_responses (avail : Avail) (id : Uuid) (bytes : Bytes) : List GetResponse :=
  (pieces avail buffer_size 0 bytes).map fun p => ⟨id, p.data, p.offset, p.size⟩

/-- `file.write(data, len)` for each request. -/
def put_content (requests : List PutRequest) : Bytes :=
  requests.foldl (fun content req => content ++ req.data.take req.size) []

/-- `ostream.write(data, size)` for each response. -/
def get_content (responses : List GetResponse) : Bytes :=
  responses.foldl (fun content res => content ++ res.data.take res.size) []

/-- There is something at hand before the end. -/
def Ready (avail : Avail) (bytes : Bytes) : Prop := ∀ offset < bytes.length, 0 < avail offset

section

variable {avail : Avail} {n offset : Nat} {bytes rest : Bytes}

/-- One part of the file, with its place. -/
structure PartOf (bytes : Bytes) (n : Nat) (p : PutRequest) : Prop where
  size : p.size = p.data.length
  nonempty : 0 < p.size
  size_le : p.size ≤ n
  data : (bytes.drop p.offset).take p.size = p.data

theorem readsome_part (hrest : bytes.drop offset = rest) (h : readsome avail n offset rest ≠ []) :
    PartOf bytes n ⟨readsome avail n offset rest, offset, (readsome avail n offset rest).length⟩ := by
  refine ⟨rfl, List.length_pos_iff.mpr h, ?_, ?_⟩
  · simp only [readsome, List.length_take]
    omega
  · rw [hrest]
    simp only [readsome, List.length_take]
    rw [List.take_eq_take_iff]
    omega

theorem readsome_append (avail : Avail) (n offset : Nat) (rest : Bytes) :
    readsome avail n offset rest ++ rest.drop (readsome avail n offset rest).length = rest := by
  have htake : readsome avail n offset rest = rest.take (readsome avail n offset rest).length := by
    rw [readsome, List.length_take, List.take_eq_take_iff]
    omega
  conv_lhs => rw [htake, List.length_take_of_le (readsome_length_le avail n offset rest)]
  exact List.take_append_drop _ _

/-- The pieces are parts of the file. -/
theorem pieces_part (hrest : bytes.drop offset = rest) :
    ∀ p ∈ pieces avail n offset rest, PartOf bytes n p := by
  fun_induction pieces avail n offset rest with
  | case1 offset rest hread => simp
  | case2 offset rest hread data ih =>
    intro p hp
    rcases List.mem_cons.mp hp with rfl | hp
    · exact readsome_part hrest hread
    · exact ih (by rw [← List.drop_drop, hrest]) p hp

theorem pieces_length_le : (pieces avail n offset rest).length ≤ rest.length := by
  fun_induction pieces avail n offset rest with
  | case1 offset rest hread => exact Nat.zero_le _
  | case2 offset rest hread data ih =>
    have hpos : 0 < data.length := List.length_pos_iff.mpr hread
    have hle : data.length ≤ rest.length := readsome_length_le avail n offset rest
    rw [List.length_drop] at ih
    rw [List.length_cons]
    omega

theorem put_content_eq (requests : List PutRequest) :
    put_content requests = requests.flatMap fun req => req.data.take req.size := by
  have hfold : ∀ (l : List PutRequest) (content : Bytes),
      l.foldl (fun content req => content ++ req.data.take req.size) content =
        content ++ l.flatMap fun req => req.data.take req.size := by
    intro l
    induction l with
    | nil => simp
    | cons req l ih => simp [ih]
  exact hfold requests []

theorem put_content_cons (req : PutRequest) (requests : List PutRequest) :
    put_content (req :: requests) = req.data.take req.size ++ put_content requests := by
  rw [put_content_eq, put_content_eq, List.flatMap_cons]

theorem put_content_mono {l l' : List PutRequest} (h : l <+: l') : put_content l <+: put_content l' := by
  obtain ⟨t, rfl⟩ := h
  rw [put_content_eq, put_content_eq, List.flatMap_append]
  exact List.prefix_append _ _

/-- What the loop reads comes from the front of the file. -/
theorem put_content_prefix : put_content (pieces avail n offset rest) <+: rest := by
  fun_induction pieces avail n offset rest with
  | case1 offset rest hread => exact List.nil_prefix
  | case2 offset rest hread data ih =>
    rw [put_content_cons]
    dsimp only
    rw [List.take_length]
    conv_rhs => rw [← readsome_append avail n offset rest]
    exact (List.prefix_append_right_inj _).mpr ih

/-- Where something is at hand at all places, the loop reads the whole file. -/
theorem put_content_pieces (hn : 0 < n)
    (hready : ∀ o, offset ≤ o → o < offset + rest.length → 0 < avail o) :
    put_content (pieces avail n offset rest) = rest := by
  fun_induction pieces avail n offset rest with
  | case1 offset rest hread =>
    rcases List.eq_nil_or_concat' rest with rfl | ⟨l, b, rfl⟩
    · rfl
    · have hpos := hready offset (Nat.le_refl _) (by simp)
      rw [readsome, List.take_eq_nil_iff] at hread
      simp at hread
      omega
  | case2 offset rest hread data ih =>
    rw [put_content_cons]
    dsimp only
    rw [List.take_length, ih]
    · exact readsome_append avail n offset rest
    · intro o hle hlt
      rw [List.length_drop] at hlt
      have hlength : data.length ≤ rest.length := readsome_length_le avail n offset rest
      exact hready o (by omega) (by omega)

end

/-! ## `put` -/

/-- `EVP_DigestInit_ex`, `EVP_DigestUpdate` and `EVP_DigestFinal_ex`. -/
structure Digest where
  Context : Type
  init : Context
  update : Context → Bytes → Context
  final : Context → Uuid

/-- The digest of some pieces is that of all their bytes. -/
def Digest.Computes (digest : Digest) (sha : Sha256) : Prop :=
  ∀ l : List Bytes, digest.final (l.foldl digest.update digest.init) = sha.content l.flatten

/-- `crypto::sha256(istream)` with its buffer of 4096 bytes. -/
def sha256 (digest : Digest) (avail : Avail) (bytes : Bytes) : Uuid :=
  digest.final (((pieces avail (1 <<< 12) 0 bytes).map PutRequest.data).foldl digest.update digest.init)

theorem sha256_eq {sha : Sha256} {digest : Digest} (h : digest.Computes sha) {avail : Avail} {bytes : Bytes}
    (hready : Ready avail bytes) : sha256 digest avail bytes = sha.content bytes := by
  have hparts : ∀ p ∈ pieces avail (1 <<< 12) 0 bytes, PartOf bytes (1 <<< 12) p := pieces_part rfl
  have hall : put_content (pieces avail (1 <<< 12) 0 bytes) = bytes :=
    put_content_pieces (by decide) fun o _ ho => hready o (by omega)
  rw [put_content_eq, List.flatMap_congr fun p hp => by rw [(hparts p hp).size, List.take_length]] at hall
  rw [sha256, h, ← List.flatMap_def, hall]

section

variable (store : Store) (uri : Path) (hash : Uuid)

/-- The stream of a put, where the client computed `hash`. -/
def put_stream (avail : Avail) (bytes : Bytes) : Pipe.State PutRequest :=
  Pipe.start (put_requests avail (decide (file_hashes_equal store uri hash)) bytes)

/-- What `Service::put` has on its disk after some requests: `none` for `ios_base::failure`. -/
def put_files (files : Files) (requests : List PutRequest) : Option Files :=
  let files := if files.exists_at uri then files else files.create_file uri
  if file_hashes_equal store uri hash then some files else files.write uri (put_content requests)

/-- The handler has returned, and its status gets to the client. -/
def Acknowledged (s : Pipe.State PutRequest) : Prop :=
  s.reader ≠ .reading ∧ s.reader ≠ .gave_up ∧ ¬ s.broken

end

section

variable {avail : Avail} {equal : Bool} {bytes : Bytes}

theorem put_requests_part : ∀ req ∈ put_requests avail equal bytes, PartOf bytes buffer_size req := by
  unfold put_requests
  split
  · simp
  · exact pieces_part rfl

theorem put_requests_prefix : put_content (put_requests avail equal bytes) <+: bytes := by
  unfold put_requests
  split
  · exact List.nil_prefix
  · exact put_content_prefix

theorem put_requests_all (hready : Ready avail bytes) :
    put_content (put_requests avail false bytes) = bytes := by
  rw [put_requests, if_neg Bool.false_ne_true]
  exact put_content_pieces (by decide) fun o _ ho => hready o (by omega)

theorem put_requests_length_le : (put_requests avail equal bytes).length ≤ bytes.length := by
  unfold put_requests
  split
  · exact Nat.zero_le _
  · exact pieces_length_le

end

/-- A digest of all bytes at the end. -/
def Digest.plain (sha : Sha256) : Digest := ⟨Bytes, [], fun context bytes => context ++ bytes, sha.content⟩

theorem Digest.plain_computes (sha : Sha256) : (Digest.plain sha).Computes sha := by
  intro l
  have hfold : ∀ (l : List Bytes) (context : Bytes),
      l.foldl (fun context bytes => context ++ bytes) context = context ++ l.flatten := by
    intro l
    induction l with
    | nil => simp
    | cons bytes l ih => simp [ih]
  exact congrArg sha.content (hfold l [])

/-- The stream of three bytes, two at a time. -/
def three_bytes : Pipe.State PutRequest :=
  put_stream (.fresh 1) [['f']]
    (sha256 (.plain ⟨fun _ => 15, fun bytes => bytes.length⟩) (fun _ => 2) [1, 2, 3]) (fun _ => 2) [1, 2, 3]

theorem get_content_map (id : Uuid) (requests : List PutRequest) :
    get_content (requests.map fun p => ⟨id, p.data, p.offset, p.size⟩) = put_content requests := by
  rw [get_content, List.foldl_map]
  rfl

end Fs

end Chord
