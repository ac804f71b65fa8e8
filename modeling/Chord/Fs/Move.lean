import Chord.Fs.InPlace

/-!
# Moving a file (`Facade::move`, `Client::mov`, `Service::mov`)

The owner of the source puts the destination from its own disk, and then deletes the source.
-/

open Circle

namespace Chord

namespace Fs

open World

structure MovRequest where
  src : Path
  dst : Path
  force : Bool

/-- `ContextMetadata::from` where `init_context` sent no replication. -/
def Options.received (o : Options) : Options := { o with replication := .NONE }

section

variable (sha : Sha256)

/-- `Service::mov`. It reads nothing but the two uris of the request. -/
def mov (fuel : Nat) (w : World) (self : Node) (req : MovRequest) (options : Options) : Reply :=
  let store := w.stores self.uuid
  if self ∉ w.up then some (w, .UNAVAILABLE)
  else if options.source = some self.uuid then some (w, .ALREADY_EXISTS)
  else if store.metadata.lookup req.src = none then some (w, .NOT_FOUND)
  else
    match store.files.lookup req.src with
    | none => some (w, .NOT_FOUND)
    | some data => do
      let node ← w.successor (sha.uri req.dst)
      let (w, status) ← client_put (put sha fuel) self w node req.dst data.bytes options
      if status = .OK then do
        let node ← w.successor (sha.uri req.src)
        del sha fuel w node req.src false {}
      else some (w, status)

/-- `Client::mov`. -/
def client_mov (fuel : Nat) (w : World) (src dst : Path) (options : Options) (force : Bool) : Reply :=
  if src = dst then some (w, .OK)
  else do
    let node ← w.successor (sha.uri src)
    mov sha fuel w node ⟨src, dst, force⟩ options.received

/-- `Facade::move`. The record that it renames is not used. -/
def move (fuel : Nat) (w : World) (source target : Path) (force : Bool) : Reply := do
  let (status, _) ← dir sha w source
  if status ≠ .OK then some (w, status) else client_mov sha fuel w source target {} force

/-! ## What a move never answers -/

/-- The reply has another status. -/
def Lacks (status : StatusCode) (reply : Reply) : Prop := ∀ w', reply ≠ some (w', status)

theorem lacks_some {status status' : StatusCode} (w : World) (h : status' ≠ status) :
    Lacks status (some (w, status')) := by
  rintro w' ⟨⟩
  exact h rfl

theorem lacks_bind {status : StatusCode} {α : Type} {x : Option α} {f : α → Reply}
    (h : ∀ a, Lacks status (f a)) : Lacks status (x >>= f) := by
  intro w' hcall
  obtain ⟨a, -, hcall⟩ := Option.bind_eq_some_iff.mp hcall
  exact h a w' hcall

variable {sha} {fuel : Nat} {w : World} {self : Node} {uri : Path} {o : Options}

theorem handle_del_file_lacks (del : DelCall) (metadata : MetaSet) (recursive : Bool) :
    Lacks .ALREADY_EXISTS (handle_del_file sha fuel del w self uri metadata recursive o) := by
  unfold handle_del_file
  extract_lets store w₁ max_repl done parent file
  have hparent : ∀ v, Lacks .ALREADY_EXISTS (parent v) := by
    intro v
    unfold parent
    split
    · exact lacks_bind fun node => lacks_bind fun z => lacks_some _ (by decide)
    · exact lacks_some _ (by decide)
  have hfile : ∀ v, Lacks .ALREADY_EXISTS (file v) := by
    intro v
    unfold file
    dsimp only
    split
    · exact lacks_some _ (by decide)
    split
    · refine lacks_bind fun node => ?_
      split
      · exact lacks_bind fun z => hparent z
      · exact hparent _
    · exact hparent _
  split
  · split
    · exact lacks_bind fun z => hfile z
    · exact hfile _
  · exact hfile _

theorem handle_del_dir_lacks (del : DelCall) (metadata : MetaSet) (recursive : Bool) :
    Lacks .ALREADY_EXISTS (handle_del_dir sha fuel del w self uri metadata recursive o) := by
  unfold handle_del_dir
  extract_lets files done parent entry
  have hparent : ∀ v, Lacks .ALREADY_EXISTS (parent v) := by
    intro v
    unfold parent
    extract_lets store left
    split
    · exact lacks_bind fun node => lacks_bind fun z => lacks_some _ (by decide)
    · exact lacks_some _ (by decide)
  have hentry : ∀ v, Lacks .ALREADY_EXISTS (entry v) := by
    intro v
    unfold entry
    extract_lets store
    split
    · exact lacks_some _ (by decide)
    split
    · refine lacks_bind fun node => ?_
      split
      · exact lacks_bind fun z => hparent z
      · exact hparent _
    · exact hparent _
  split
  · exact lacks_some _ (by decide)
  split
  · exact lacks_bind fun z => hentry z
  · exact hentry w

/-- A deletion is only refused by the node where it started. -/
theorem del_lacks (hsource : o.source ≠ some self.uuid) (recursive : Bool) :
    Lacks .ALREADY_EXISTS (del sha fuel w self uri recursive o) := by
  cases fuel with
  | zero => rintro _ ⟨⟩
  | succ fuel =>
    unfold del
    dsimp only
    rw [if_neg hsource]
    split
    · exact lacks_some _ (by decide)
    split
    · split <;> exact lacks_some _ (by decide)
    split
    · exact lacks_some _ (by decide)
    split
    · exact handle_del_dir_lacks _ _ _
    · exact handle_del_file_lacks _ _ _

theorem put_rest_lacks (stored : Bytes) : Lacks .ALREADY_EXISTS (put_rest sha fuel self uri stored o w) := by
  unfold put_rest
  extract_lets done last copy
  have hlast : ∀ v, Lacks .ALREADY_EXISTS (last v) := by
    intro v
    unfold last
    split
    · refine lacks_bind fun node => lacks_bind fun owner => ?_
      split
      · exact lacks_bind fun z => lacks_some _ (by decide)
      · exact lacks_some _ (by decide)
    · exact lacks_some _ (by decide)
  have hcopy : ∀ v, Lacks .ALREADY_EXISTS (copy v) := by
    intro v
    unfold copy
    split
    · exact lacks_bind fun node => lacks_bind fun z => hlast z
    · exact hlast v
  split
  · exact lacks_bind fun node => lacks_bind fun z => hcopy z
  · exact hcopy w

theorem put_lacks (hsource : o.source ≠ some self.uuid) (bytes : Bytes) :
    Lacks .ALREADY_EXISTS (put sha fuel w self uri bytes o) := by
  cases fuel with
  | zero => rintro _ ⟨⟩
  | succ fuel =>
    unfold put
    dsimp only
    rw [if_neg hsource]
    split
    · exact lacks_some _ (by decide)
    split
    · exact lacks_some _ (by decide)
    split
    · exact lacks_some _ (by decide)
    split
    · exact put_rest_lacks _
    · exact lacks_some _ (by decide)

/-- The put and the deletion of a move have no source. -/
theorem mov_lacks {req : MovRequest} (hsource : o.source = none) :
    Lacks .ALREADY_EXISTS (mov sha fuel w self req o) := by
  have hne : o.source ≠ some self.uuid := by simp [hsource]
  unfold mov
  dsimp only
  rw [if_neg hne]
  split
  · exact lacks_some _ (by decide)
  split
  · exact lacks_some _ (by decide)
  split
  · exact lacks_some _ (by decide)
  · refine lacks_bind fun node w' hcall => ?_
    obtain ⟨⟨v, status⟩, hput, hcall⟩ := Option.bind_eq_some_iff.mp hcall
    dsimp only at hcall
    split at hcall
    · exact lacks_bind (fun node => del_lacks (by simp) false) w' hcall
    · cases hcall
      rw [client_put, if_neg (by simp [hsource])] at hput
      exact put_lacks (by simp [hsource]) _ w' hput

/-- The answer that a move without force owes to a destination that is there, and what it must not
change. -/
def MoveRefused (sha : Sha256) (fuel : Nat) (w : World) (src dst : Path) : Prop :=
  ∃ w', move sha fuel w src dst false = some (w', .ALREADY_EXISTS) ∧ ∀ u, ∀ p ∈ [src, dst],
    (w'.stores u).files.lookup p = (w.stores u).files.lookup p ∧
      (w'.stores u).metadata.lookup p = (w.stores u).metadata.lookup p

theorem move_lacks (src dst : Path) (force : Bool) :
    Lacks .ALREADY_EXISTS (move sha fuel w src dst force) := by
  unfold move
  intro w' hcall
  obtain ⟨⟨status, records⟩, hdir, hcall⟩ := Option.bind_eq_some_iff.mp hcall
  dsimp only at hcall
  split at hcall
  · cases hcall
    obtain ⟨node, -, hmeta⟩ := Option.map_eq_some_iff.mp hdir
    unfold meta_dir at hmeta
    split at hmeta
    · cases hmeta
    · split at hmeta <;> cases hmeta
  · unfold client_mov at hcall
    split at hcall
    · cases hcall
    · exact lacks_bind (fun node => mov_lacks rfl) w' hcall

/-- A move is never refused, whatever is at its destination. -/
theorem move_never_refused (sha : Sha256) (fuel : Nat) (w : World) (src dst : Path) :
    ¬ MoveRefused sha fuel w src dst :=
  fun ⟨w', hcall, _⟩ => move_lacks src dst false w' hcall

end

/-- One member that stores the files `/f` and `/g`. -/
def World.two_files : World where
  ring := [⟨10, ['a']⟩]
  up := [⟨10, ['a']⟩]
  stores _ := place ⟨fun _ => 0, fun _ => 0⟩ [['g']] [2] .NONE
    (place ⟨fun _ => 0, fun _ => 0⟩ [['f']] [1] .NONE (.fresh 1))

/-- The flag stays in the request: `/g` is there, and `/f` takes its place. -/
theorem move_without_force : ¬ ∀ (sha : Sha256) (w : World) (src dst : Path), w.Exact → FilePath src →
    FilePath dst → src ≠ dst →
    (∀ p ∈ [src, dst], ∃ n ∈ w.successor (sha.uri p), ∃ bytes r, Stored sha (w.stores n.uuid) p bytes r) →
    ∃ fuel, MoveRefused sha fuel w src dst := by
  intro h
  obtain ⟨fuel, w', hcall, -⟩ := h ⟨fun _ => 0, fun _ => 0⟩ World.two_files [['f']] [['g']]
    ⟨by decide, by decide, by decide⟩ (by unfold FilePath; decide) (by unfold FilePath; decide)
      (by decide) (by
      intro p hp
      have hcases : p = [['f']] ∨ p = [['g']] := by simpa using hp
      rcases hcases with rfl | rfl
      · exact ⟨⟨10, ['a']⟩, rfl, [1], .NONE, rfl, rfl⟩
      · exact ⟨⟨10, ['a']⟩, rfl, [2], .NONE, rfl, rfl⟩)
  exact move_lacks _ _ _ w' hcall

end Fs

end Chord
