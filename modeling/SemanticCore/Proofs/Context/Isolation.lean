import SemanticCore.Proofs.Context.Session
import SemanticCore.Proofs.Syntax.Generation

/-!
# What comes after a reset

A reset keeps the blocks of the arena as they are. So the bytes of a piece that is handed out after
it are those that someone wrote there before, where a new context has zeros, and a script can tell
the two contexts apart by reading what it did not write (`Context.reset_not_isolated`).

In all else a context that was used and then reset answers every script as a new one does, but for
the numbers of nodes, types and scopes, which are shifted, and for the places of bytes. So nothing
of what was done before the reset can be told from what is answered and reported after it.

* `Context.Leads`: what can have been done with a context.
* `Context.Continues`: what is left of a new context, whatever was done.
* `Context.reset_isolated`: scripts on a context that was reset and on a new one.
-/

namespace SemanticCore

/-! ## Histories -/

namespace Context

/-- The contexts to which operations on a context, on the bytes of its arena and on the sinks of its
log can lead. The values that the operations are given may come from anywhere. Nodes go with the
bytes. -/
inductive Leads (first : Context) : Context → Prop
  | refl : Leads first first
  | apply {c : Context} (h : Leads first c) (op : ContextOp) : Leads first (op.apply c).2
  | allocate {c : Context} (h : Leads first c) (limit : Nat) (size alignment : Number) :
    Leads first { c with arena := (c.arena.allocateWithin limit size alignment).2 }
  | write {c : Context} {v : View} {start : Nat} {data : List UInt8} {arena : Arena}
    (h : Leads first c) (hWrite : c.arena.write v start data = .ok arena) :
    Leads first { c with arena }
  | resetArena {c : Context} (h : Leads first c) : Leads first c.resetArena
  | clearArena {c : Context} (h : Leads first c) : Leads first c.clearArena
  | addSink {c : Context} (h : Leads first c) : Leads first { c with logger := c.logger.addSink }
  | clearSink {c : Context} (h : Leads first c) (i : Nat) :
    Leads first { c with logger := c.logger.clearSink i }

/-- What is done in a session is done with its context. -/
theorem Leads.contextAfter {first : Context} {s : Session} (h : first.Leads s.context)
    (op : SessionOp) : first.Leads (op.contextAfter s) := by
  cases op with
  | context op => exact h.apply op
  | allocate size alignment =>
    have hLeads := h.allocate (s.context.arena.enough size alignment) size alignment
    rcases s.storage.serve_cases size alignment with
        ⟨_, _, _, hServe, -, hNext⟩ | ⟨_, _, hServe, -, hNext⟩ <;>
      (rw [Storage.serve, Session.storage] at hServe
       rw [hServe] at hLeads
       rw [SessionOp.contextAfter, hNext]
       exact hLeads)
  | write piece start data =>
    rw [SessionOp.contextAfter]
    rcases (s.storage.stored_write piece start data).2 with hNext | ⟨_, -, hWrite⟩
    · rw [hNext]
      exact h
    · exact h.write hWrite
  | resetArena => exact h.resetArena
  | clearArena => exact h.clearArena
  | addSink => exact h.addSink
  | clearSink i => exact h.clearSink _
  | _ => exact h

theorem Leads.run {first : Context} {s : Session} (h : first.Leads s.context)
    (tell : Session → SessionOp → Answer) (script : Script) (answers : List Answer) :
    first.Leads (script.run tell answers s).2.context := by
  induction script generalizing s answers with
  | nil => exact h
  | cons step rest ih => exact ih (h.contextAfter (step.next answers)) _

/-- What is left of a context, whatever was done. The nodes are of the generation of the arena. -/
structure Continues (first c : Context) : Prop where
  file_eq : c.file = first.file
  blockSize_eq : c.arena.blockSize = first.arena.blockSize
  dated : c.tree.Dated c.arena.generation
  serial_eq : c.types.serial = first.types.serial
  pointerSize_eq : c.types.pointerSize = first.types.pointerSize
  nextId_le : first.types.nextId ≤ c.types.nextId

end Context

/-! ## What operations leave -/

theorem NodeEdit.keeps_apply {I : Tree → Prop} (hI : EditInvariant I) {t : Tree} (h : I t)
    (e : NodeEdit) : Yields (fun x => I x.2) (e.apply t) := by
  have hDone : ∀ {x : Except SyntaxError Tree}, Yields I x →
      Yields (fun x : Bool × Tree => I x.2) (do return (true, ← x)) :=
    fun hx => hx.bind fun _ ht => yields_pure ht
  cases e with
  | addChild parent child => exact hDone (hI.addChild h parent child)
  | insertChild parent index child => exact hDone (hI.insertChild h parent index child)
  | removeChild parent child => exact hI.removeChild h parent child
  | replaceChild parent old next => exact hI.replaceChild h parent old next
  | addAttribute owner added => exact hDone (hI.addAttribute h owner added)
  | removeAttribute owner removed => exact hI.removeAttribute h owner removed
  | removeMetadata id key => exact .skip fun _ => yields_pure (hI.modify (fun _ => rfl) h)
  | _ => exact hDone (hI.update h fun _ => rfl)

theorem Registry.call_kept (r : Registry) (c : TypeCall) :
    (r.call c).2.serial = r.serial ∧ (r.call c).2.pointerSize = r.pointerSize ∧
      r.nextId ≤ (r.call c).2.nextId := by
  have hCalled := r.called c
  generalize r.call c = after at hCalled ⊢
  cases hCalled with
  | made => exact ⟨rfl, rfl, Nat.le_succ _⟩
  | _ => exact ⟨rfl, rfl, Nat.le_refl _⟩

namespace Context.Continues

variable {first c : Context}

theorem kept (h : first.Continues c) {arena : Arena} (hKept : c.arena.Kept arena) :
    first.Continues { c with arena } :=
  { h with
    blockSize_eq := hKept.blockSize_eq.trans h.blockSize_eq
    dated := h.dated.trans hKept.generation_eq.symm }

theorem strings (h : first.Continues c) (op : StringOp) : first.Continues (op.apply c).2 := by
  have hKept := op.kept_apply c
  have hRest := op.apply_rest c
  generalize (op.apply c).2 = d at hKept hRest ⊢
  rw [hRest]
  exact { h.kept hKept with }

theorem edit (h : first.Continues c) (e : NodeEdit) : first.Continues (c.edit e).2 := by
  have hDated := e.keeps_apply (Tree.dated_edit _) h.dated
  unfold Context.edit
  split
  · rename_i hOk
    exact { h with dated := hDated _ hOk }
  · exact h

theorem reset (h : first.Continues c) : first.Continues c.reset := by
  have hKept := c.kept_reset
  obtain ⟨x, -, hReset⟩ := c.exists_reset
  rw [hReset] at hKept ⊢
  exact { h with
    blockSize_eq := hKept.blockSize_eq.trans h.blockSize_eq
    dated := (congrArg (· + 1) h.dated).trans hKept.generation_eq.symm }

/-- Every operation leaves a context of which the same is left. -/
theorem apply (h : first.Continues c) (op : ContextOp) : first.Continues (op.apply c).2 := by
  cases op with
  | strings op => exact h.strings op
  | build form location =>
    exact { h with dated := (Tree.dated_form _).keeps_build form _ c.tree h.dated }
  | edit e => exact h.edit e
  | types call =>
    obtain ⟨hSerial, hPointerSize, hNextId⟩ := c.types.call_kept call
    exact { h with
      serial_eq := hSerial.trans h.serial_eq
      pointerSize_eq := hPointerSize.trans h.pointerSize_eq
      nextId_le := Nat.le_trans h.nextId_le hNextId }
  | symbols op => cases op <;> exact { h with }
  | scopes op =>
    cases op with
    | within i action =>
      show first.Continues (if i < c.symbols.scopes.items.size then _ else _ : Answer × Context).2
      split
      · exact { h with }
      · exact h
    | _ => exact { h with }
  | log op => cases op <;> exact { h with }
  | reset =>
    simp only [ContextOp.apply]
    exact h.reset
  | _ => exact h

theorem of_leads (hFirst : first.Continues first) (h : first.Leads c) : first.Continues c := by
  induction h with
  | refl => exact hFirst
  | apply _ op ih => exact ih.apply op
  | allocate _ limit size alignment ih =>
    exact ih.kept (Arena.kept_allocateWithin _ limit size alignment)
  | write _ hWrite ih => exact ih.kept (Arena.kept_write hWrite)
  | resetArena _ ih => exact { ih with dated := congrArg (· + 1) ih.dated }
  | clearArena _ ih => exact { ih with dated := congrArg (· + 1) ih.dated }
  | addSink _ ih => exact { ih with }
  | clearSink _ i ih => exact { ih with }

end Context.Continues

/-! ## New contexts -/

namespace Context

variable {o : ContextOptions} {fresh used : Context}

theorem mapError_eq_ok {ε ε' α : Type} {f : ε → ε'} {x : Except ε α} {a : α} :
    x.mapError f = .ok a ↔ x = .ok a := by
  cases x <;> simp [Except.mapError]

/-- What a new context is. -/
theorem create_cases (h : create o = .ok fresh) :
    ∃ a x types, Arena.create o.blockSize = .ok a ∧ Interner.start 0 a = x ∧
      Registry.create 0 o.pointerSize = .ok types ∧
      fresh = {
        file := o.file
        arena := x.2
        strings := x.1
        tree := {}
        logger := { sinks := List.replicate o.sinks [] }
        types
        symbols := SymbolTable.start {} } := by
  obtain ⟨a, hArena, h⟩ := bind_eq_ok.mp h
  generalize hStart : Interner.start 0 a = x at h
  by_cases hSize : Arena.largestBlock < a.blockSize
  · simp only [if_pos hSize] at h
    cases h
  · simp only [if_neg hSize] at h
    obtain ⟨types, hTypes, h⟩ := bind_eq_ok.mp h
    cases h
    exact ⟨a, x, types, mapError_eq_ok.mp hArena, hStart, mapError_eq_ok.mp hTypes, rfl⟩

theorem generation_create (h : create o = .ok fresh) : fresh.arena.generation = 0 := by
  obtain ⟨a, x, types, hArena, hStart, -, rfl⟩ := create_cases h
  have hKept := Interner.kept_start 0 a
  rw [hStart] at hKept
  exact hKept.generation_eq.trans (Arena.generation_create hArena)

/-- A context can be had with a block size and a pointer size that each of its parts takes. -/
theorem exists_create {a : Arena} {types : Registry} (hArena : Arena.create o.blockSize = .ok a)
    (hSize : a.blockSize ≤ Arena.largestBlock)
    (hTypes : Registry.create 0 o.pointerSize = .ok types) : ∃ fresh, create o = .ok fresh := by
  unfold create
  rw [hArena, hTypes]
  generalize Interner.start 0 = start
  simp only [Except.mapError, bind, Except.bind, if_neg (Nat.not_lt.mpr hSize)]
  exact ⟨_, rfl⟩

theorem continues_create (h : create o = .ok fresh) : fresh.Continues fresh := by
  have hFirst := generation_create h
  obtain ⟨a, x, types, -, -, -, rfl⟩ := create_cases h
  exact ⟨rfl, rfl, hFirst.symm, rfl, rfl, Nat.le_refl _⟩

/-! ## Contexts that were reset -/

/-- The texts of a context that was reset are those of a new one, and the bytes of its names are in
its arena. -/
theorem parallel_reset (hFresh : create o = .ok fresh) (hUsed : fresh.Continues used) :
    Interner.Parallel (used.strings.era + 1) fresh.strings used.reset.strings ∧
      fresh.strings.Settled ∧ used.reset.strings.Settled ∧
      fresh.arena.Houses fresh.strings.names [] ∧
      used.reset.arena.Houses used.reset.strings.names [] := by
  obtain ⟨a, x, types, -, hStart, -, rfl⟩ := create_cases hFresh
  obtain ⟨y, hStart', hReset⟩ := used.exists_reset
  rw [Interner.reset] at hStart'
  have hParallel : (Interner.start 0 a).1.Parallel _ (Interner.start _ used.arena.reset).1 :=
    .start (Nat.zero_add (used.strings.era + 1)).symm a used.arena.reset
  have hSettled := Interner.settled_start 0 a
  have hSettled' := Interner.settled_start (used.strings.era + 1) used.arena.reset
  have hHouses := a.houses_nil.start 0
  have hHouses' := used.arena.reset.houses_nil.start (used.strings.era + 1)
  rw [hStart] at hParallel hSettled hHouses
  rw [hStart'] at hParallel hSettled' hHouses'
  rw [hReset]
  exact ⟨hParallel, hSettled, hSettled', hHouses, hHouses'⟩

/-- A context that was reset and a new one are alike. -/
theorem alike_reset {ρ : Renaming} (hFresh : create o = .ok fresh) (hUsed : fresh.Continues used)
    (hGenerations : ρ.generations = used.reset.arena.generation)
    (hTypes : used.types.nextId = fresh.types.nextId + ρ.types)
    (hScopes : ρ.scopes = used.symbols.scopes.items.size)
    (hNames : fresh.strings.Alike ρ used.reset.strings) :
    fresh.Alike ρ fresh.logger.sinks used.reset.logger.sinks used.reset := by
  obtain ⟨a, x, types, -, -, hRegistry, rfl⟩ := create_cases hFresh
  have hDated := hUsed.reset.dated
  have hBlockSize := hUsed.reset.blockSize_eq
  obtain ⟨y, -, hReset⟩ := used.exists_reset
  rw [hReset] at hGenerations hNames hDated hBlockSize ⊢
  have hTree : used.tree.release = Tree.rename ρ {} := by
    have hGeneration : used.tree.pool.generation + 1 = ρ.generations :=
      hDated.trans hGenerations.symm
    simp [Tree.release, Pool.release, Tree.rename, Pool.rename, hGeneration]
  exact
    { file_eq := hUsed.file_eq
      names := hNames
      blockSize_eq := hBlockSize
      tree_eq := hTree
      logger := ⟨rfl, [], [], by simp, by simp⟩
      types := .new hRegistry hUsed.serial_eq hUsed.pointerSize_eq hTypes
      symbols := .start (.new hScopes) }

/-- Nothing is handed out when a session begins. -/
theorem safe_session {c : Context} (h : c.arena.Houses c.strings.names []) :
    c.session.storage.Safe :=
  ⟨h, fun _ _ _ _ hNone => by cases hNone⟩

/-- Two contexts with the same texts, which are alike up to every renaming that fits their names,
begin sessions that are alike up to a renaming that fits all names a script ever makes. -/
theorem exists_session_alike {c c' : Context} {eras types scopes : Nat}
    (hParallel : c.strings.Parallel eras c'.strings) (hSettled : c.strings.Settled)
    (hSettled' : c'.strings.Settled) (hHouses : c.arena.Houses c.strings.names [])
    (hHouses' : c'.arena.Houses c'.strings.names []) (hFirst : c.arena.generation = 0)
    (hAlike : ∀ ρ : Renaming, ρ.generations = c'.arena.generation → ρ.types = types →
      ρ.scopes = scopes → c.strings.Alike ρ c'.strings →
        c.Alike ρ c.logger.sinks c'.logger.sinks c')
    (es : List StorageEvent) :
    ∃ ρ : Renaming, ρ.generations = c'.arena.generation ∧ ρ.types = types ∧
      c.session.Alike ρ c.logger.sinks c'.logger.sinks c'.session ∧
      ∀ past, past <+: es → (Storage.run past c.session.storage).strings.Alike ρ
        (Storage.run past c'.session.storage).strings := by
  have hHistory : Interner.History eras fun s s' => ∃ past, past <+: es ∧
      s = (Storage.run past c.session.storage).strings ∧
      s' = (Storage.run past c'.session.storage).strings :=
    Storage.history hParallel hSettled hSettled' es
  obtain ⟨place, hSize, hPlace⟩ := hHistory.exists_place
  let ρ : Renaming := ⟨c'.arena.generation, eras, types, scopes, place, hSize⟩
  have hNames : ∀ past, past <+: es → (Storage.run past c.session.storage).strings.Alike ρ
      (Storage.run past c'.session.storage).strings :=
    fun past hPast => hPlace ρ rfl rfl _ _ ⟨past, hPast, rfl, rfl⟩
  have hContexts := hAlike ρ rfl rfl rfl (hNames [] List.nil_prefix)
  refine ⟨ρ, rfl, rfl, ?_, hNames⟩
  exact
    { context := hContexts
      storage :=
        { sure_eq := hContexts.names.names_eq
          length_eq := rfl
          same := fun _ _ _ hNone => by cases hNone
          safe := safe_session hHouses
          safe' := safe_session hHouses' }
      generation_eq := by
        show c'.arena.generation = c.arena.generation + c'.arena.generation
        rw [hFirst, Nat.zero_add]
      pools_eq := rfl
      attached_eq := rfl
      attached_eq' := rfl }

/-- What a script gets from a context that was used and reset is what it gets from a new one, but
for the renaming of what is given out. The bytes that are not determined are not told. The handles
of nodes and of objects in pools are shifted by the generation of the arena, the numbers of
composite types by those that were given before. What is kept of the reports is the same, every sink
gets the same, and the sinks that are attached later hold the same. -/
theorem reset_isolated (hFresh : create o = .ok fresh) (hUsed : fresh.Leads used)
    (script : Script) :
    ∃ ρ : Renaming, ρ.generations = used.reset.arena.generation ∧
      used.types.nextId = fresh.types.nextId + ρ.types ∧
      (script.run SessionOp.told [] used.reset.session).1 =
        (script.run SessionOp.told [] fresh.session).1.map (Answer.rename ρ) ∧
      (script.run SessionOp.told [] used.reset.session).2.context.logger.kept =
        (script.run SessionOp.told [] fresh.session).2.context.logger.kept ∧
      ∃ news added,
        (script.run SessionOp.told [] fresh.session).2.context.logger.sinks =
          fresh.logger.sinks.map (· ++ news) ++ added ∧
        (script.run SessionOp.told [] used.reset.session).2.context.logger.sinks =
          used.reset.logger.sinks.map (· ++ news) ++ added := by
  have hContinues := Continues.of_leads (continues_create hFresh) hUsed
  obtain ⟨hParallel, hSettled, hSettled', hHouses, hHouses'⟩ := parallel_reset hFresh hContinues
  have hShift : used.types.nextId =
      fresh.types.nextId + (used.types.nextId - fresh.types.nextId) :=
    (Nat.add_sub_of_le hContinues.nextId_le).symm
  obtain ⟨ρ, hGenerations, hTypes, hAlike, hNames⟩ := exists_session_alike hParallel hSettled
    hSettled' hHouses hHouses' (generation_create hFresh)
    (fun ρ hGenerations hTypes hScopes hNames =>
      alike_reset hFresh hContinues hGenerations (hTypes ▸ hShift) hScopes hNames)
    (script.events [] fresh.session)
  obtain ⟨hAnswers, hAfter⟩ := script.run_alike hAlike hNames
  rw [List.map_nil] at hAnswers hAfter
  exact ⟨ρ, hGenerations, hTypes.symm ▸ hShift, hAnswers, hAfter.context.logger.kept_eq,
    hAfter.context.logger.news⟩

/-- Uses bytes, a name, a node, a symbol, a type, a pool and a sink, resets the context and reads
bytes again. The symbol is refused the second time, and of the bytes two are told at first and none
after the reset. -/
def declareTwice : Script :=
  [.fixed (.allocate 4 8) fun _ => rfl,
    .fixed (.write 0 0 [1, 2]) fun _ => rfl,
    .fixed (.read 0) fun _ => rfl,
    .fixed (.addSink) fun _ => rfl,
    .fixed (.context (.strings (.intern "x"))) fun _ => rfl,
    .ofName 4 .readName fun _ _ => rfl,
    .ofName 4 (fun n => .context (.build (.variableDecl n none none Flags.none) none))
      fun _ _ => rfl,
    .ofHandle 6 (fun k => .context (.ask (.node k))) fun _ _ => rfl,
    .ofName 4 (fun n => .context (.symbols (.define n none Location.unknown))) fun _ _ => rfl,
    .ofName 4 (fun n => .context (.symbols (.define n none Location.unknown))) fun _ _ => rfl,
    .fixed (.sink 0) fun _ => rfl,
    .fixed (.context (.types (.tuple [.primitive .bool]))) fun _ => rfl,
    .fixed .addPool fun _ => rfl,
    .fixed (.pool 0 (.construct (.bool true))) fun _ => rfl,
    .fixed (.context .reset) fun _ => rfl,
    .fixed (.read 0) fun _ => rfl]

/-- The same script before and after a reset. -/
theorem reset_isolated_declareTwice :
    ∃ fresh, create { sinks := 1 } = .ok fresh ∧ ∃ used, fresh.Leads used ∧
      used = (declareTwice.run SessionOp.told [] fresh.session).2.context ∧
      ∃ ρ : Renaming,
        ρ.generations = used.reset.arena.generation ∧
        used.types.nextId = fresh.types.nextId + ρ.types ∧
        (declareTwice.run SessionOp.told [] used.reset.session).1 =
          (declareTwice.run SessionOp.told [] fresh.session).1.map (Answer.rename ρ) ∧
        (declareTwice.run SessionOp.told [] used.reset.session).2.context.logger.kept =
          (declareTwice.run SessionOp.told [] fresh.session).2.context.logger.kept ∧
        ∃ news added,
          (declareTwice.run SessionOp.told [] fresh.session).2.context.logger.sinks =
            fresh.logger.sinks.map (· ++ news) ++ added ∧
          (declareTwice.run SessionOp.told [] used.reset.session).2.context.logger.sinks =
            used.reset.logger.sinks.map (· ++ news) ++ added := by
  obtain ⟨fresh, hFresh⟩ : ∃ fresh, create { sinks := 1 } = .ok fresh :=
    exists_create (a := { blockSize := Arena.defaultBlockSize }) rfl (by decide) rfl
  have hUsed : fresh.Leads (declareTwice.run SessionOp.told [] fresh.session).2.context :=
    Leads.run (s := fresh.session) .refl SessionOp.told declareTwice []
  exact ⟨fresh, hFresh, _, hUsed, rfl, reset_isolated hFresh hUsed declareTwice⟩

/-! ## What is not written after a reset -/

/-- Four bytes as they are when they are handed out. -/
def found (a : Arena) : List UInt8 := (a.place 4 8).2.read (a.place 4 8).1.view

/-- The arena after four bytes are handed out and written over. -/
def scribbled (a : Arena) : Arena :=
  (a.place 4 8).2.modifyPage (a.place 4 8).1.view.page fun b =>
    b.write ((a.place 4 8).1.view.offset + 0) [255, 255, 255, 255]

/-- Asks for four bytes and reads them. -/
def readUnwritten : Script :=
  [.fixed (.allocate 4 8) fun _ => rfl, .fixed (.read 0) fun _ => rfl]

theorem allocateWithin_four (a : Arena) :
    a.allocateWithin (a.enough 4 8) 4 8 = (.ok (some (a.place 4 8).1), (a.place 4 8).2) := by
  have hPower : (Number.ofNat 8).isPowerOfTwo = true := Number.isPowerOfTwo_two_pow 3
  have hLimit : a.newBlockSize 4 8 ≤ a.enough 4 8 := by
    rw [Arena.enough]
    exact Nat.le_refl _
  exact Arena.allocateWithin_eq_place (by decide) hPower hLimit

theorem leads_scribbled (h : fresh.Leads used) :
    fresh.Leads { used with arena := scribbled used.arena } := by
  have hServed := h.allocate (used.arena.enough 4 8) 4 8
  rw [allocateWithin_four] at hServed
  refine hServed.write (Arena.write_eq_ok.mpr ⟨?_, rfl⟩)
  rw [Arena.size_place]
  decide

theorem answer_readUnwritten (c : Context) :
    (readUnwritten.run SessionOp.answer [] c.session).1[1]? =
      some (.bytes ((found c.arena).map some)) := by
  have hServe : c.session.storage.serve 4 8 =
      (.ok (some (c.arena.place 4 8).1), (c.arena.place 4 8).2) := allocateWithin_four c.arena
  have hAfter : c.session.storage.allocate 4 8 =
      { c.session.storage with
        arena := (c.arena.place 4 8).2, held := [{ view := (c.arena.place 4 8).1.view }] } := by
    rw [Storage.allocate, hServe]
    rfl
  have hHeld : ((SessionOp.allocate 4 8).after c.session).held =
      [{ view := (c.arena.place 4 8).1.view }] := congrArg Storage.held hAfter
  have hArena : ((SessionOp.allocate 4 8).after c.session).context.arena =
      (c.arena.place 4 8).2 := congrArg Storage.arena hAfter
  show some ((SessionOp.read 0).answer ((SessionOp.allocate 4 8).after c.session)) = _
  rw [SessionOp.answer, hHeld, hArena]
  rfl

/-- The names that a context starts with have their own bytes, so those of the next piece are zeros
at first, and what was written there after the names are stored again. -/
theorem found_start :
    found (Interner.start 0 { blockSize := 1 }).2 = [0, 0, 0, 0] ∧
      found (Interner.start 1 (scribbled (Interner.start 0 { blockSize := 1 }).2).reset).2 =
        [255, 255, 255, 255] := by
  -- over lists a reset can be computed
  have hReset : ∀ a : Arena, a.reset =
      { a with
        blocks := (a.blocks.toList.map fun b => { b with used := 0 }).toArray
        cursor := 0
        generation := a.generation + 1 } := by
    intro a
    rw [Arena.reset, ← Array.toList_map]
  rw [hReset]
  decide +kernel

/-- A reset keeps the blocks as they are: where a new context finds zeros, a context that was used
before the reset finds what was written there. -/
theorem reset_not_isolated :
    ∃ fresh used, create { blockSize := 1 } = .ok fresh ∧ fresh.Leads used ∧ ∀ ρ : Renaming,
      (readUnwritten.run SessionOp.answer [] used.reset.session).1 ≠
        (readUnwritten.run SessionOp.answer [] fresh.session).1.map (Answer.rename ρ) := by
  obtain ⟨fresh, hFresh⟩ : ∃ fresh, create { blockSize := 1 } = .ok fresh :=
    exists_create (a := { blockSize := 1 }) rfl (by decide) rfl
  have hBytes : found fresh.arena = [0, 0, 0, 0] ∧
      found (Context.reset { fresh with arena := scribbled fresh.arena }).arena =
        [255, 255, 255, 255] := by
    have hFirst : fresh.arena = (Interner.start 0 { blockSize := 1 }).2 ∧
        fresh.strings.era = 0 := by
      obtain ⟨a, x, types, hArena, hStart, -, rfl⟩ := create_cases hFresh
      have hSize : a = { blockSize := 1 } := (Except.ok.inj hArena).symm
      have hEra := Interner.era_start 0 a
      rw [← hSize, hStart]
      rw [hStart] at hEra
      exact ⟨rfl, hEra⟩
    have hReset : (Context.reset { fresh with arena := scribbled fresh.arena }).arena =
        (Interner.start (fresh.strings.era + 1) (scribbled fresh.arena).reset).2 := by
      rw [arena_reset, Interner.reset]
    rw [hReset, hFirst.1, hFirst.2, Nat.zero_add]
    exact found_start
  refine ⟨fresh, _, hFresh, leads_scribbled .refl, fun ρ hSame => ?_⟩
  have hAt := congrArg (·[1]?) hSame
  simp only [List.getElem?_map, answer_readUnwritten, hBytes.1, hBytes.2, Option.map_some] at hAt
  cases hAt

end Context

end SemanticCore
