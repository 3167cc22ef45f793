import SemanticCore.Proofs.Context.Alike

/-!
# Sessions with a context

Whoever works with a context also has bytes of its arena, pools of objects and sinks of its log. A
session is a context with all of these, each kind numbered in the order in which they came. A script
is a run of operations that uses only values from the answers that it got.

The bytes of the arena are not always determined by what is done in a session. Those of a piece that
was handed out are what was there before until something is written to them, and what was handed out
before a reset of the arena may be handed out again, so that a byte that is written there may lie in
any other piece or name. Such bytes are left out of what is told.

* `SessionOp.answer`, `SessionOp.after`: the answer to an operation and the session after it.
* `SessionOp.told`: the answer without the bytes that are not determined.
* `Script.run`: the answers to a script; `Script.run_alike`: in two sessions that are alike.
-/

namespace SemanticCore

/-! ## Sessions -/

/-- A context, the pieces of its arena that were handed out, the names whose bytes are known, and
the pools. The sinks of the session come after those that were attached before it. -/
structure Session where
  context : Context
  held : List Holding := []
  sure : List Name
  pools : List (Pool Metadata) := []
  attached : Nat

/-- The session that begins with a context. -/
def Context.session (c : Context) : Session where
  context := c
  sure := c.strings.names
  attached := c.logger.sinks.length

/-- The names and the bytes of a session. -/
def Session.storage (s : Session) : Storage where
  strings := s.context.strings
  arena := s.context.arena
  held := s.held
  sure := s.sure

/-! ## Operations -/

/-- What is asked of a pool. -/
inductive PoolOp where
  | construct (value : Metadata)
  | get (handle : Handle)
  | has (handle : Handle)
  | nextHandle
  | size
  | values

namespace PoolOp

/-- The answer of a pool, and the pool after it. -/
def apply (p : Pool Metadata) : PoolOp → Answer × Pool Metadata
  | construct value =>
    match p.construct? value with
    | some (handle, p) => (.handle handle, p)
    | none => (.refused .poolExhausted, p)
  | get handle => (.note (p.get? handle), p)
  | has handle => (.truth (p.get? handle).isSome, p)
  | nextHandle => (.handle p.nextHandle, p)
  | size => (.count p.size, p)
  | values => (.objects p.values, p)

def rename (ρ : Renaming) : PoolOp → PoolOp
  | construct value => construct (value.rename ρ)
  | get handle => get (ρ.node handle)
  | has handle => has (ρ.node handle)
  | op => op

end PoolOp

/-- An operation in a session. Pieces, pools and sinks go by their numbers. -/
inductive SessionOp where
  | context (op : ContextOp)
  | allocate (size alignment : Number)
  | write (piece start : Nat) (data : List UInt8)
  | read (piece : Nat)
  | readName (name : Name)
  | resetArena
  | clearArena
  | addPool
  | pool (i : Nat) (op : PoolOp)
  | addSink
  | sink (i : Nat)
  | clearSink (i : Nat)

/-- The answer to a request of bytes: the number of the piece that is handed out and its size. -/
def Answer.ofRequest (piece : Nat) : Except ArenaError (Option Nat) → Answer
  | .ok size => .piece (size.map fun n => (piece, n))
  | .error e => .denied e

def Answer.ofWrite : Except ArenaError Arena → Answer
  | .ok _ => .done
  | .error e => .denied e

namespace SessionOp

/-- What an operation does to the names and the arena. -/
def events : SessionOp → List StorageEvent
  | context op => op.events
  | allocate size alignment => [.allocate size alignment]
  | write piece start data => [.write piece start data]
  | resetArena => [.resetArena]
  | clearArena => [.clearArena]
  | _ => []

/-- The answer to an operation. What has a number that was not given yet is answered by nothing. -/
def answer (s : Session) : SessionOp → Answer
  | context op => (op.apply s.context).1
  | allocate size alignment =>
    .ofRequest s.held.length ((s.storage.serve size alignment).1.map
      (Option.map fun served => served.view.size))
  | write piece start data =>
    match s.held[piece]? with
    | none => .done
    | some h => .ofWrite (s.context.arena.write h.view start data)
  | read piece =>
    match s.held[piece]? with
    | none => .done
    | some h => .bytes ((s.context.arena.read h.view).map some)
  | readName name => .bytes ((s.context.arena.read name.view).map some)
  | addPool => .pool s.pools.length
  | pool i op =>
    match s.pools[i]? with
    | none => .done
    | some p => (op.apply p).1
  | sink i => .diagnostics (s.context.logger.sink (s.attached + i))
  | _ => .done

/-- The context after an operation. -/
def contextAfter (s : Session) : SessionOp → Context
  | context op => (op.apply s.context).2
  | allocate size alignment =>
    { s.context with arena := (s.storage.allocate size alignment).arena }
  | write piece start data =>
    { s.context with arena := (s.storage.write piece start data).arena }
  | resetArena => s.context.resetArena
  | clearArena => s.context.clearArena
  | addSink => { s.context with logger := s.context.logger.addSink }
  | clearSink i => { s.context with logger := s.context.logger.clearSink (s.attached + i) }
  | _ => s.context

/-- The pools after an operation. They are emptied with the arena. -/
def poolsAfter (s : Session) : SessionOp → List (Pool Metadata)
  | addPool => s.pools ++ [{ generation := s.context.arena.generation }]
  | pool i op => s.pools.modify i fun p => (op.apply p).2
  | op => if op.events.any StorageEvent.empties then s.pools.map Pool.release else s.pools

/-- The session after an operation. -/
def after (s : Session) (op : SessionOp) : Session where
  context := op.contextAfter s
  held := (Storage.run op.events s.storage).held
  sure := (Storage.run op.events s.storage).sure
  pools := op.poolsAfter s
  attached := s.attached

/-- The bytes that an operation reads and that are determined by what was done in the session: what
was written to a piece since it was handed out, and the bytes of a name, if the arena was not reset
since and nothing was written to a piece from before a reset since. -/
def knows (s : Session) : SessionOp → Nat → Bool
  | read piece, i => s.held[piece]?.any fun h => h.knows i
  | readName name, _ => name ∈ s.sure
  | _, _ => true

end SessionOp

/-- An answer with the bytes at some places alone. -/
def Answer.veil (known : Nat → Bool) : Answer → Answer
  | .bytes bs => .bytes (bs.mapIdx fun i b => if known i then b else none)
  | a => a

/-- What is told of the answer to an operation: all but the bytes that are not determined. -/
def SessionOp.told (s : Session) (op : SessionOp) : Answer := (op.answer s).veil (op.knows s)

def SessionOp.rename (ρ : Renaming) : SessionOp → SessionOp
  | context op => context (op.rename ρ)
  | readName name => readName (ρ.name name)
  | pool i op => pool i (op.rename ρ)
  | op => op

/-! ## Scripts -/

/-- A step of a script: the operation that comes after some answers. Its values are all from these
answers, so when they are renamed the operation is renamed. -/
structure ScriptStep where
  next : List Answer → SessionOp
  next_rename : ∀ (ρ : Renaming) (answers : List Answer),
    next (answers.map (Answer.rename ρ)) = (next answers).rename ρ

namespace ScriptStep

/-- An operation that uses no values. -/
def fixed (op : SessionOp) (h : ∀ ρ, op.rename ρ = op) : ScriptStep where
  next _ := op
  next_rename ρ _ := (h ρ).symm

/-- An operation that uses an answer. -/
def ofAnswer (i : Nat) (op : Answer → SessionOp) (h : ∀ ρ a, op (a.rename ρ) = (op a).rename ρ) :
    ScriptStep where
  next answers := op (answers.getD i .done)
  next_rename ρ answers := by
    rw [← h, List.getD_eq_getElem?_getD, List.getElem?_map, List.getD_eq_getElem?_getD]
    cases answers[i]? <;> rfl

/-- An operation that uses the name in an answer. -/
def ofName (i : Nat) (op : Name → SessionOp) (h : ∀ ρ n, op (ρ.name n) = (op n).rename ρ) :
    ScriptStep :=
  .ofAnswer i (fun | .name (some n) => op n | _ => .context .info) fun ρ a => by
    cases a with
    | name found => cases found with
      | none => rfl
      | some n => exact h ρ n
    | _ => rfl

/-- An operation that uses the handle in an answer. -/
def ofHandle (i : Nat) (op : NodeId → SessionOp) (h : ∀ ρ k, op (ρ.node k) = (op k).rename ρ) :
    ScriptStep :=
  .ofAnswer i (fun | .handle k => op k | _ => .context .info) fun ρ a => by
    cases a with
    | handle k => exact h ρ k
    | _ => rfl

end ScriptStep

/-- A sequence of operations that uses only values that it obtained. -/
abbrev Script := List ScriptStep

namespace Script

/-- The answers to a script that has some answers already, and the session after it. What is
answered in a session is given. -/
def run (tell : Session → SessionOp → Answer) :
    Script → List Answer → Session → List Answer × Session
  | [], answers, s => (answers, s)
  | step :: rest, answers, s =>
    run tell rest (answers ++ [tell s (step.next answers)]) ((step.next answers).after s)

/-- What a script does to the names and the arena. -/
def events : Script → List Answer → Session → List StorageEvent
  | [], _, _ => []
  | step :: rest, answers, s =>
    (step.next answers).events ++
      events rest (answers ++ [(step.next answers).told s]) ((step.next answers).after s)

end Script

/-! ## What happens to names and bytes -/

namespace SessionOp

theorem events_rename (ρ : Renaming) (op : SessionOp) : (op.rename ρ).events = op.events := by
  cases op with
  | context op => exact op.events_rename ρ
  | _ => rfl

theorem stored_contextAfter (s : Session) (op : SessionOp) :
    (op.contextAfter s).stored =
      ((Storage.run op.events s.storage).strings, (Storage.run op.events s.storage).arena) := by
  cases op with
  | context op => exact op.stored_apply rfl
  | allocate size alignment =>
    exact Prod.ext (s.storage.strings_allocate size alignment).symm rfl
  | write piece start data =>
    exact Prod.ext (s.storage.stored_write piece start data).1.symm rfl
  | _ => rfl

/-- Operations change the names and the bytes by their events alone. -/
theorem storage_after (s : Session) (op : SessionOp) :
    (op.after s).storage = Storage.run op.events s.storage := by
  obtain ⟨hStrings, hArena⟩ := Prod.mk.inj (stored_contextAfter s op)
  unfold Session.storage
  rw [show (op.after s).context.strings = _ from hStrings,
    show (op.after s).context.arena = _ from hArena]
  rfl

end SessionOp

/-! ## Sessions that are alike -/

/-- Two sessions whose contexts, pieces and pools are alike. -/
structure Session.Alike (ρ : Renaming) (sinks sinks' : List (List Diagnostic)) (s s' : Session) :
    Prop where
  context : s.context.Alike ρ sinks sinks' s'.context
  storage : s.storage.Alike ρ s'.storage
  generation_eq : s'.context.arena.generation = s.context.arena.generation + ρ.generations
  pools_eq : s'.pools = s.pools.map (Pool.rename ρ (Metadata.rename ρ))
  attached_eq : s.attached = sinks.length
  attached_eq' : s'.attached = sinks'.length

variable {ρ : Renaming} {sinks sinks' : List (List Diagnostic)} {s s' : Session}

theorem Session.Alike.held_cases (h : s.Alike ρ sinks sinks' s') (piece : Nat) :
    (s.held[piece]? = none ∧ s'.held[piece]? = none) ∨
      ∃ g g', s.held[piece]? = some g ∧ s'.held[piece]? = some g' ∧
        Holding.Same s.context.arena s'.context.arena g g' :=
  (h.storage.held_cases piece).imp_right fun ⟨g, g', hHeld, hHeld'⟩ =>
    ⟨g, g', hHeld, hHeld', h.storage.same piece g g' hHeld hHeld'⟩

theorem PoolOp.apply_rename (op : PoolOp) (p : Pool Metadata) :
    (op.rename ρ).apply (p.rename ρ (Metadata.rename ρ)) =
      ((op.apply p).1.rename ρ, (op.apply p).2.rename ρ (Metadata.rename ρ)) := by
  cases op with
  | construct value =>
    simp only [rename, apply, Pool.construct?_rename]
    cases p.construct? value <;> rfl
  | get handle => simp only [rename, apply, Pool.get?_rename, Answer.rename]
  | has handle => simp only [rename, apply, Pool.get?_rename, Option.isSome_map, Answer.rename]
  | nextHandle => simp only [rename, apply, Pool.nextHandle_rename, Answer.rename]
  | size => simp only [rename, apply, Pool.size_rename, Answer.rename]
  | values => simp only [rename, apply, Pool.values_rename, Answer.rename]

namespace SessionOp

/-! ### What is told -/

theorem rename_veil (a : Answer) (known : Nat → Bool) :
    (a.veil known).rename ρ = (a.rename ρ).veil known := by
  cases a <;> rfl

theorem rename_ofRequest (piece : Nat) (x : Except ArenaError (Option Nat)) :
    (Answer.ofRequest piece x).rename ρ = Answer.ofRequest piece x := by
  cases x <;> rfl

theorem rename_ofWrite (x : Except ArenaError Arena) :
    (Answer.ofWrite x).rename ρ = Answer.ofWrite x := by
  cases x <;> rfl

/-- Bytes that agree where they are known are told alike. -/
theorem veil_bytes_eq {a a' : Arena} {v v' : View} {known : Nat → Bool}
    (hSize : v'.size = v.size) (hByte : ∀ i < v.size, known i = true → a'.byte v' i = a.byte v i) :
    (Answer.bytes ((a'.read v').map some)).veil known =
      (Answer.bytes ((a.read v).map some)).veil known := by
  refine congrArg Answer.bytes (List.ext_getElem (by simp [Arena.read, hSize]) fun i hi hi' => ?_)
  simp only [List.getElem_mapIdx, List.getElem_map]
  split
  · rename_i hKnown
    have hLt : i < v.size := by simpa [Arena.read] using hi'
    simpa [Arena.read, Arena.byte] using hByte i hLt hKnown
  · rfl

/-- Whether bytes can be written depends on the size of the piece alone. -/
theorem ofWrite_eq {a a' : Arena} {v v' : View} (hSize : v'.size = v.size) (start : Nat)
    (data : List UInt8) :
    Answer.ofWrite (a'.write v' start data) = Answer.ofWrite (a.write v start data) := by
  unfold Arena.write
  rw [hSize]
  by_cases hFits : start + data.length ≤ v.size
  · rw [if_pos hFits, if_pos hFits]
    rfl
  · rw [if_neg hFits, if_neg hFits]

theorem answer_write (h : s.Alike ρ sinks sinks' s') (piece start : Nat) (data : List UInt8) :
    (write piece start data).answer s' = (write piece start data).answer s := by
  rw [answer, answer]
  rcases h.held_cases piece with ⟨hNone, hNone'⟩ | ⟨g, g', hHeld, hHeld', hSame⟩
  · rw [hNone, hNone']
  · rw [hHeld, hHeld']
    exact ofWrite_eq hSame.size_eq start data

theorem told_read (h : s.Alike ρ sinks sinks' s') (piece : Nat) :
    (read piece).told s' = (read piece).told s := by
  rw [told, told, answer, answer]
  rcases h.held_cases piece with ⟨hNone, hNone'⟩ | ⟨g, g', hHeld, hHeld', hSame⟩
  · rw [hNone, hNone']
    rfl
  · have hKnows : (read piece).knows s = g.knows := funext fun i => by
      rw [knows, hHeld, Option.any_some]
    have hKnows' : (read piece).knows s' = g.knows := funext fun i => by
      rw [knows, hHeld', Option.any_some, hSame.knows_eq]
    rw [hHeld, hHeld', hKnows, hKnows']
    exact veil_bytes_eq hSame.size_eq hSame.byte_eq

/-- The bytes of a name that is sure are those of its text, wherever they lie. -/
theorem told_readName (h : s.Alike ρ sinks sinks' s') (n : Name) :
    (readName (ρ.name n)).told s' = (readName n).told s := by
  have hMem : ρ.name n ∈ s'.sure ↔ n ∈ s.sure := by
    rw [show s'.sure = s.sure.map ρ.name from h.storage.sure_eq,
      List.mem_map_of_injective ρ.name_injective]
  have hKnows : (readName (ρ.name n)).knows s' = (readName n).knows s := funext fun _ => by
    rw [knows, knows, decide_eq_decide, hMem]
  rw [told, told, answer, answer, hKnows]
  refine veil_bytes_eq (ρ.size_place n.era n.id n.view) fun i hi hSure => ?_
  have hn : n ∈ s.sure := of_decide_eq_true hSure
  have hRead : s.context.arena.read n.view = Text.bytes n.text :=
    (h.storage.safe.housed.names n hn).read_eq
  have hRead' : s'.context.arena.read (ρ.name n).view = Text.bytes n.text :=
    (h.storage.safe'.housed.names (ρ.name n) (hMem.mpr hn)).read_eq
  exact Arena.byte_eq_of_read_eq (hRead'.trans hRead.symm) i hi

/-- What is told in sessions that are alike, given that the names are alike after the operation,
too. -/
theorem told_eq (h : s.Alike ρ sinks sinks' s') (op : SessionOp)
    (hNext : (op.contextAfter s).strings.Alike ρ ((op.rename ρ).contextAfter s').strings) :
    (op.rename ρ).told s' = (op.told s).rename ρ := by
  -- most operations read no bytes
  have hPlain : ∀ op : SessionOp, op.knows s = (fun _ => true) →
      (op.rename ρ).knows s' = (fun _ => true) →
      (op.rename ρ).answer s' = (op.answer s).rename ρ →
        (op.rename ρ).told s' = (op.told s).rename ρ := by
    intro op hKnows hKnows' hAnswer
    rw [told, told, rename_veil, hKnows, hKnows', hAnswer]
  cases op with
  | context op => exact hPlain _ rfl rfl (op.apply_alike h.context hNext).1
  | allocate size alignment =>
    refine hPlain _ rfl rfl ?_
    have hLength : s'.held.length = s.held.length := h.storage.length_eq
    rw [answer, rename_ofRequest, ← Storage.Alike.serve_eq s.storage s'.storage, ← hLength]
    rfl
  | write piece start data =>
    refine hPlain _ rfl rfl ((answer_write h piece start data).trans ?_)
    rw [answer]
    cases s.held[piece]? with
    | none => rfl
    | some g => exact (rename_ofWrite _).symm
  | read piece =>
    refine (told_read h piece).trans ?_
    rw [told, answer]
    split <;> rfl
  | readName n => exact told_readName h n
  | addPool =>
    refine hPlain _ rfl rfl (congrArg Answer.pool ?_)
    rw [h.pools_eq, List.length_map]
  | pool i op =>
    refine hPlain _ rfl rfl ?_
    simp only [rename, answer, h.pools_eq, List.getElem?_map]
    cases s.pools[i]? with
    | none => rfl
    | some p => exact congrArg Prod.fst (op.apply_rename p)
  | sink i =>
    refine hPlain _ rfl rfl (congrArg Answer.diagnostics ?_)
    rw [h.attached_eq, h.attached_eq', h.context.logger.sink_eq]
  | _ => exact hPlain _ rfl rfl rfl

/-! ### What is left -/

theorem contextAfter_alike (h : s.Alike ρ sinks sinks' s') (op : SessionOp)
    (hNext : (op.contextAfter s).strings.Alike ρ ((op.rename ρ).contextAfter s').strings) :
    (op.contextAfter s).Alike ρ sinks sinks' ((op.rename ρ).contextAfter s') := by
  have hContext := h.context
  have hRelease : s'.context.tree.release = s.context.tree.release.rename ρ :=
    (congrArg Tree.release hContext.tree_eq).trans Tree.release_rename
  have hBlockSize : ∀ {a a' : Arena}, s.context.arena.Kept a → s'.context.arena.Kept a' →
      a'.blockSize = a.blockSize := fun hKept hKept' => by
    rw [hKept.blockSize_eq, hKept'.blockSize_eq, hContext.blockSize_eq]
  cases op with
  | context op => exact (op.apply_alike hContext hNext).2
  | allocate size alignment =>
    exact { hContext with
      blockSize_eq := hBlockSize (s.storage.kept_allocate _ _) (s'.storage.kept_allocate _ _) }
  | write piece start data =>
    exact { hContext with
      blockSize_eq := hBlockSize (s.storage.kept_write _ _ _) (s'.storage.kept_write _ _ _) }
  | resetArena =>
    exact { hContext with blockSize_eq := hContext.blockSize_eq, tree_eq := hRelease }
  | clearArena =>
    exact { hContext with blockSize_eq := hContext.blockSize_eq, tree_eq := hRelease }
  | addSink => exact { hContext with logger := hContext.logger.addSink }
  | clearSink i =>
    have hLogger := hContext.logger.clearSink i
    rw [← h.attached_eq, ← h.attached_eq'] at hLogger
    exact { hContext with logger := hLogger }
  | _ => exact hContext

theorem poolsAfter_eq (h : s.Alike ρ sinks sinks' s') (op : SessionOp) :
    (op.rename ρ).poolsAfter s' = (op.poolsAfter s).map (Pool.rename ρ (Metadata.rename ρ)) := by
  have hReleased : ∀ es : List StorageEvent,
      (if es.any StorageEvent.empties then s'.pools.map Pool.release else s'.pools) =
        (if es.any StorageEvent.empties then s.pools.map Pool.release else s.pools).map
          (Pool.rename ρ (Metadata.rename ρ)) := by
    intro es
    rw [h.pools_eq]
    split
    · rw [List.map_map, List.map_map]
      exact List.map_congr_left fun p _ => Pool.release_rename
    · rfl
  cases op with
  | addPool =>
    simp [rename, poolsAfter, h.pools_eq, h.generation_eq, Pool.rename]
  | pool i op =>
    simp only [rename, poolsAfter, h.pools_eq]
    refine List.ext_getElem? fun j => ?_
    rw [List.getElem?_modify, List.getElem?_map, List.getElem?_map, List.getElem?_modify]
    cases s.pools[j]? with
    | none => rfl
    | some p =>
      simp only [Option.map_some]
      split
      · exact congrArg some (congrArg Prod.snd (op.apply_rename p))
      · rfl
  | context op =>
    show (if (op.rename ρ).events.any StorageEvent.empties then _ else _) = _
    rw [op.events_rename]
    exact hReleased _
  | allocate size alignment => exact hReleased [.allocate size alignment]
  | write piece start data => exact hReleased [.write piece start data]
  | resetArena => exact hReleased [.resetArena]
  | clearArena => exact hReleased [.clearArena]
  | _ => exact hReleased []

/-- An operation does at most one thing to the names and the arena, but for a reset of the
context. -/
theorem events_cases (op : SessionOp) :
    op.events = [] ∨ (∃ e, op.events = [e]) ∨ op.events = [.resetArena, .forget] := by
  cases op with
  | context op =>
    cases op with
    | strings op => cases op <;> first | exact .inl rfl | exact .inr (.inl ⟨_, rfl⟩)
    | reset => exact .inr (.inr rfl)
    | _ => exact .inl rfl
  | allocate => exact .inr (.inl ⟨_, rfl⟩)
  | write => exact .inr (.inl ⟨_, rfl⟩)
  | resetArena => exact .inr (.inl ⟨_, rfl⟩)
  | clearArena => exact .inr (.inl ⟨_, rfl⟩)
  | _ => exact .inl rfl

/-- What an operation does to the names and the bytes of sessions that are alike. -/
theorem storage_alike (h : s.Alike ρ sinks sinks' s') (op : SessionOp)
    (hNext : (Storage.run op.events s.storage).strings.Alike ρ
      (Storage.run op.events s'.storage).strings) :
    (Storage.run op.events s.storage).Alike ρ (Storage.run op.events s'.storage) := by
  rcases op.events_cases with hNone | ⟨e, hOne⟩ | hReset
  · rw [hNone]
    exact h.storage
  · rw [hOne] at hNext ⊢
    exact h.storage.apply h.context.names hNext
  · simp only [hReset, Storage.run, List.foldl_cons, List.foldl_nil] at hNext ⊢
    have hEmptied : (StorageEvent.resetArena.apply s.storage).Alike ρ
        (StorageEvent.resetArena.apply s'.storage) :=
      h.storage.apply h.context.names h.context.names
    exact hEmptied.apply h.context.names hNext

/-- One operation in sessions that are alike, if what is new among the names is alike. -/
theorem after_alike (h : s.Alike ρ sinks sinks' s') (op : SessionOp)
    (hNext : (Storage.run op.events s.storage).strings.Alike ρ
      (Storage.run op.events s'.storage).strings) :
    (op.rename ρ).told s' = (op.told s).rename ρ ∧
      (op.after s).Alike ρ sinks sinks' ((op.rename ρ).after s') := by
  have hStored := stored_contextAfter s op
  have hStored' := stored_contextAfter s' (op.rename ρ)
  have hStorage := storage_after s op
  have hStorage' := storage_after s' (op.rename ρ)
  rw [op.events_rename] at hStored' hStorage'
  obtain ⟨hStrings, hArena⟩ := Prod.mk.inj hStored
  obtain ⟨hStrings', hArena'⟩ := Prod.mk.inj hStored'
  have hNames : (op.contextAfter s).strings.Alike ρ ((op.rename ρ).contextAfter s').strings := by
    rw [hStrings, hStrings']
    exact hNext
  refine ⟨told_eq h op hNames, contextAfter_alike h op hNames, ?_, ?_, poolsAfter_eq h op,
    h.attached_eq, h.attached_eq'⟩
  · rw [hStorage, hStorage']
    exact storage_alike h op hNext
  · show ((op.rename ρ).contextAfter s').arena.generation = (op.contextAfter s).arena.generation + _
    rw [hArena, hArena', Storage.generation_run, Storage.generation_run, Nat.add_right_comm]
    exact congrArg (· + _) h.generation_eq

end SessionOp

/-! ## Runs -/

namespace Script

/-- A script is told the same in sessions that are alike, and leaves sessions that are alike, if the
names are alike after each of its steps. -/
theorem run_alike (script : Script) {answers : List Answer} (h : s.Alike ρ sinks sinks' s')
    (hNames : ∀ past, past <+: script.events answers s →
      (Storage.run past s.storage).strings.Alike ρ (Storage.run past s'.storage).strings) :
    (script.run SessionOp.told (answers.map (Answer.rename ρ)) s').1 =
        (script.run SessionOp.told answers s).1.map (Answer.rename ρ) ∧
      (script.run SessionOp.told answers s).2.Alike ρ sinks sinks'
        (script.run SessionOp.told (answers.map (Answer.rename ρ)) s').2 := by
  induction script generalizing answers s s' with
  | nil => exact ⟨rfl, h⟩
  | cons step rest ih =>
    -- the answers so far are renamed ones, so the step takes the renamed operation
    rw [run, run, step.next_rename]
    rw [events] at hNames
    generalize step.next answers = op at hNames ⊢
    obtain ⟨hTold, hAfter⟩ := op.after_alike h (hNames op.events (List.prefix_append _ _))
    have hAnswers : answers.map (Answer.rename ρ) ++ [(op.rename ρ).told s'] =
        (answers ++ [op.told s]).map (Answer.rename ρ) := by
      rw [hTold, List.map_append, List.map_singleton]
    rw [hAnswers]
    refine ih hAfter fun past hPast => ?_
    rw [SessionOp.storage_after, SessionOp.storage_after, op.events_rename, ← Storage.run_append,
      ← Storage.run_append]
    exact hNames _ ((List.prefix_append_right_inj op.events).mpr hPast)

end Script

end SemanticCore
