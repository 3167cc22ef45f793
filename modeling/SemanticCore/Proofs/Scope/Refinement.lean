import SemanticCore.Context
import SemanticCore.Proofs.Scope.Nesting

/-!
# The symbol table refines a lexical environment

A table stands for the environment of its current scope. Every operation answers what the
environment says, leaves a table that stands for the environment after it, and reports the same.

* `SymbolTable.Represents`: a table and the environment it stands for.
* `SymbolOp.apply`, `SymbolOp.run`: operations on the context that has the table.
* `SymbolOp.apply_refines`: one operation.
* `SymbolOp.run_refines`: every run from a new table.
-/

namespace SemanticCore

namespace SymbolTable

def environment (t : SymbolTable) : Environment := t.scopes.environment t.current

/-- The scopes from a place on are nested, the current one is among them, and an environment is
that of the table. -/
structure Represents (first : Nat) (t : SymbolTable) (env : Environment) : Prop where
  nested : t.scopes.Nested first
  first_le : first ≤ t.current
  current_lt : t.current < t.scopes.items.size
  environment_eq : t.environment = env

theorem represents_start (scopes : Scopes) :
    (SymbolTable.start scopes).Represents scopes.items.size [[]] := by
  refine ⟨scopes.nested_create none, Nat.le_refl _, ?_, scopes.environment_create none⟩
  simp [SymbolTable.start, Scopes.create]

namespace Represents

variable {first : Nat} {t : SymbolTable} {env : Environment}

theorem level_eq (hTable : t.Represents first env) : t.level + 1 = env.length := by
  rw [← hTable.environment_eq]
  exact hTable.nested.level_eq hTable.first_le hTable.current_lt

theorem exists_cons (hTable : t.Represents first env) :
    ∃ fs, env = (t.scopes.get t.current).frame :: fs := by
  rw [← hTable.environment_eq]
  exact hTable.nested.exists_environment hTable.first_le hTable.current_lt

theorem find?_eq (hTable : t.Represents first env) (name : Name) :
    t.find? name = env.find? name := by
  rw [← hTable.environment_eq]
  exact (hTable.nested.find?_environment hTable.first_le hTable.current_lt name).symm

theorem symbols_eq (hTable : t.Represents first env) (currentOnly : Bool) :
    t.symbols currentOnly = env.symbols currentOnly := by
  cases currentOnly with
  | false =>
    rw [← hTable.environment_eq]
    exact hTable.nested.flatMap_chain hTable.first_le hTable.current_lt
  | true =>
    obtain ⟨fs, rfl⟩ := hTable.exists_cons
    have hNumbered := hTable.nested.numbered t.current hTable.first_le
    simpa [SymbolTable.symbols, Environment.symbols] using hNumbered.symbols_eq

/-! ## Operations -/

theorem define (hTable : t.Represents first env) (tree : Tree) (name : Name)
    (declaration : Option NodeId) (location : Location) :
    ∃ t', t.define tree name declaration location =
        ((env.define tree name declaration location).1, t',
          (env.define tree name declaration location).2.2) ∧
      t'.Represents first (env.define tree name declaration location).2.1 := by
  obtain ⟨hNested, hFirst, hSize, hEnvironment⟩ := hTable
  have hNumbered := hNested.numbered t.current hFirst
  obtain ⟨fs, hCons⟩ := hNested.exists_environment hFirst hSize
  rw [← hEnvironment, SymbolTable.environment, hCons]
  cases hFind : (t.scopes.get t.current).frame.find? name with
  | none =>
    obtain ⟨x, scope, hDefine, hNumbered', hFrame, hParent, hLevel⟩ :=
      hNumbered.define?_of_none declaration hFind
    have hNested' : (t.scopes.modify t.current fun _ => scope).Nested first :=
      hNested.modify hSize hParent hLevel hNumbered'
    refine ⟨{ t with scopes := t.scopes.modify t.current fun _ => scope }, ?_, hNested', hFirst,
      ?_, ?_⟩
    · simp [SymbolTable.define, Scopes.define, hDefine, Environment.define, hFind]
    · simpa [Scopes.modify] using hSize
    · rw [SymbolTable.environment,
        hNested.environment_modify hFirst hSize hNested' hParent, hFrame, hCons]
      simp [Environment.define, hFind]
  | some previous =>
    have hDefine := hNumbered.define?_of_some declaration hFind
    refine ⟨t, ?_, hNested, hFirst, hSize, ?_⟩
    · simp [SymbolTable.define, Scopes.define, hDefine, Environment.define, hFind,
        hNumbered.find?_eq, Tree.locationOf_eq]
    · simp [SymbolTable.environment, hCons, Environment.define, hFind]

theorem resolve?_of_none (hTable : t.Represents first env) {name : Name}
    (hFind : env.find? name = none) : t.scopes.resolve? t.current name = none := by
  rw [← hTable.find?_eq, SymbolTable.find?, Option.map_eq_none_iff] at hFind
  exact hFind

/-- A bound name has its symbol in one scope, where a reference is noted. -/
theorem resolve?_of_some (hTable : t.Represents first env) {name : Name} {x : Symbol}
    (hFind : env.find? name = some x) :
    ∃ i, t.scopes.resolve? t.current name = some (i, x) ∧ ∀ reference,
      { t with scopes := t.scopes.refer i name reference }.Represents first
        (env.refer name reference) := by
  rw [← hTable.find?_eq, SymbolTable.find?, Option.map_eq_some_iff] at hFind
  obtain ⟨⟨i, y⟩, hResolve, rfl⟩ := hFind
  obtain ⟨hNested, hFirst, hSize, rfl⟩ := hTable
  obtain ⟨hLow, hHigh⟩ := hNested.resolve?_le hFirst hSize hResolve
  refine ⟨i, hResolve, fun reference =>
    ⟨hNested.refer hLow (Nat.lt_of_le_of_lt hHigh hSize) name reference, hFirst, ?_,
      hNested.environment_refer hFirst hSize hResolve reference⟩⟩
  simpa [Scopes.refer, Scopes.modify] using hSize

theorem lookup (hTable : t.Represents first env) (name : Name) (location : Location)
    (reference : Option NodeId) :
    ∃ t', t.lookup name location reference =
        ((env.lookup name location reference).1, t', (env.lookup name location reference).2.2) ∧
      t'.Represents first (env.lookup name location reference).2.1 := by
  cases hFind : env.find? name with
  | none =>
    refine ⟨t, ?_, ?_⟩
    · simp [SymbolTable.lookup, Environment.lookup, hTable.resolve?_of_none hFind, hFind]
    · simpa [Environment.lookup, hFind] using hTable
  | some x =>
    obtain ⟨i, hResolve, hRefer⟩ := hTable.resolve?_of_some hFind
    cases reference with
    | none =>
      refine ⟨t, ?_, ?_⟩
      · simp [SymbolTable.lookup, Environment.lookup, hResolve, hFind]
      · simpa [Environment.lookup, hFind] using hTable
    | some node =>
      refine ⟨{ t with scopes := t.scopes.refer i name (some node) }, ?_, ?_⟩
      · simp [SymbolTable.lookup, Environment.lookup, hResolve, hFind]
      · simpa [Environment.lookup, hFind] using hRefer (some node)

theorem update (hTable : t.Represents first env) (name : Name) (reference : NodeId) :
    ∃ t', t.updateReference name (some reference) = ((env.update name reference).1, t') ∧
      t'.Represents first (env.update name reference).2 := by
  cases hFind : env.find? name with
  | none =>
    refine ⟨t, ?_, ?_⟩
    · simp [SymbolTable.updateReference, Environment.update, hTable.resolve?_of_none hFind, hFind]
    · simpa [Environment.update, hFind] using hTable
  | some x =>
    obtain ⟨i, hResolve, hRefer⟩ := hTable.resolve?_of_some hFind
    refine ⟨{ t with scopes := t.scopes.refer i name (some reference) }, ?_, ?_⟩
    · simp [SymbolTable.updateReference, Environment.update, hResolve, hFind]
    · simpa [Environment.update, hFind] using hRefer (some reference)

theorem push (hTable : t.Represents first env) (node : Option NodeId) :
    (t.push node).2.Represents first ([] :: env) := by
  obtain ⟨hNested, hFirst, hSize, rfl⟩ := hTable
  refine ⟨hNested.createChild hFirst hSize node, ?_, ?_,
    hNested.environment_createChild hFirst hSize node⟩
  · exact Nat.le_trans hFirst (Nat.le_of_lt hSize)
  · have hCount := t.scopes.size_createChild t.current node
    have hLt : t.scopes.items.size < (t.scopes.createChild t.current node).2.items.size := by
      omega
    exact hLt

theorem pop (hTable : t.Represents first env) (tree : Tree) (location : Location) :
    ∃ t', t.pop tree location = (t', (env.pop tree location).2) ∧
      t'.Represents first (env.pop tree location).1 := by
  obtain ⟨hNested, hFirst, hSize, rfl⟩ := hTable
  cases hParent : (t.scopes.get t.current).parent with
  | none =>
    have hEnvironment : t.environment = [(t.scopes.get t.current).frame] :=
      Scopes.environment_of_none hParent
    refine ⟨t, ?_, hNested, hFirst, hSize, ?_⟩
    · simp [SymbolTable.pop, hParent, hEnvironment, Environment.pop]
    · simp [hEnvironment, Environment.pop]
  | some p =>
    obtain ⟨hFirst', hLt⟩ := hNested.parent_lt t.current p hFirst hParent
    obtain ⟨fs, hOuter⟩ := hNested.exists_environment hFirst' (Nat.lt_trans hLt hSize)
    have hEnvironment : t.environment =
        (t.scopes.get t.current).frame :: (t.scopes.get p).frame :: fs := by
      rw [SymbolTable.environment, hNested.environment_of_some hFirst hSize hParent, hOuter]
    refine ⟨{ t with current := p }, ?_, hNested, hFirst',
      Nat.lt_trans hLt hSize, ?_⟩
    · rw [hEnvironment]
      simp [SymbolTable.pop, hParent, Environment.pop, Frame.unused, Scope.unused, Scope.frame,
        Tree.locationOf_eq, List.filter_map, Symbol.binding, Symbol.isReferenced, Function.comp_def]
    · rw [SymbolTable.environment, hEnvironment, hOuter, Environment.pop]

end Represents

end SymbolTable

/-! ## Runs -/

namespace SymbolOp

/-- What an operation answers on the table of a context, and the context after it. -/
def apply (c : Context) : SymbolOp → SymbolAnswer × Context
  | .define name declaration location =>
    let (defined, c) := c.define name declaration location
    (.success defined, c)
  | .lookup name location reference =>
    let (declaration, c) := c.lookup name location reference
    (.declaration declaration, c)
  | .find name => (.symbol (c.symbols.find? name), c)
  | .update name reference =>
    let (found, c) := c.updateReference name (some reference)
    (.success found, c)
  | .push node => (.none, (c.pushScope node).2)
  | .pop location => (.none, c.popScope location)
  | .symbols currentOnly => (.symbols (c.symbols.symbols currentOnly), c)

/-- Operations in order. The tree is edited between them, so each comes with the tree of its
time. -/
def run (c : Context) : List (Tree × SymbolOp) → List SymbolAnswer × Context
  | [] => ([], c)
  | (tree, op) :: ops =>
    let (answer, c) := op.apply { c with tree }
    let (answers, c) := run c ops
    (answer :: answers, c)

theorem apply_refines {first : Nat} {c : Context} {env : Environment}
    (hTable : c.symbols.Represents first env) (op : SymbolOp) :
    (op.apply c).1 = (env.step c.tree op).1 ∧
      (op.apply c).2.symbols.Represents first (env.step c.tree op).2.1 ∧
      (op.apply c).2.logger = c.logger.reportAll (env.step c.tree op).2.2 := by
  cases op with
  | define name declaration location =>
    obtain ⟨t, hDefine, hAfter⟩ := hTable.define c.tree name declaration location
    have hApply : (SymbolOp.define name declaration location).apply c =
        (.success (env.define c.tree name declaration location).1,
          ({ c with symbols := t } : Context).reportAll
            (env.define c.tree name declaration location).2.2) := by
      simp only [apply, Context.define, hDefine]
    rw [hApply]
    exact ⟨rfl, hAfter, rfl⟩
  | lookup name location reference =>
    obtain ⟨t, hLookup, hAfter⟩ := hTable.lookup name location reference
    have hApply : (SymbolOp.lookup name location reference).apply c =
        (.declaration (env.lookup name location reference).1,
          ({ c with symbols := t } : Context).reportAll
            (env.lookup name location reference).2.2) := by
      simp only [apply, Context.lookup, hLookup]
    rw [hApply]
    exact ⟨rfl, hAfter, rfl⟩
  | find name =>
    have hApply : (SymbolOp.find name).apply c = (.symbol (env.find? name), c) := by
      rw [apply, hTable.find?_eq]
    rw [hApply]
    exact ⟨rfl, hTable, rfl⟩
  | update name reference =>
    obtain ⟨t, hUpdate, hAfter⟩ := hTable.update name reference
    have hApply : (SymbolOp.update name reference).apply c =
        (.success (env.update name reference).1, { c with symbols := t }) := by
      simp only [apply, Context.updateReference, hUpdate]
    rw [hApply]
    exact ⟨rfl, hAfter, rfl⟩
  | push node => exact ⟨rfl, hTable.push node, rfl⟩
  | pop location =>
    obtain ⟨t, hPop, hAfter⟩ := hTable.pop c.tree location
    have hApply : (SymbolOp.pop location).apply c =
        (.none, ({ c with symbols := t } : Context).reportAll
          (env.pop c.tree location).2) := by
      simp only [apply, Context.popScope, hPop]
    rw [hApply]
    exact ⟨rfl, hAfter, rfl⟩
  | symbols currentOnly =>
    have hApply : (SymbolOp.symbols currentOnly).apply c =
        (.symbols (env.symbols currentOnly), c) := by
      rw [apply, hTable.symbols_eq]
    rw [hApply]
    exact ⟨rfl, hTable, rfl⟩

theorem run_represents {first : Nat} {c : Context} {env : Environment}
    (hTable : c.symbols.Represents first env) (ops : List (Tree × SymbolOp)) :
    (run c ops).1 = (env.run ops).1 ∧
      (run c ops).2.symbols.Represents first (env.run ops).2.1 ∧
      (run c ops).2.logger = c.logger.reportAll (env.run ops).2.2 := by
  induction ops generalizing c env with
  | nil => exact ⟨rfl, hTable, rfl⟩
  | cons first ops ih =>
    obtain ⟨tree, op⟩ := first
    have hBefore : ({ c with tree } : Context).symbols.Represents _ env := hTable
    obtain ⟨hAnswer, hAfter, hLogger⟩ := apply_refines hBefore op
    obtain ⟨hAnswers, hEnd, hLogger'⟩ := ih hAfter
    refine ⟨?_, hEnd, ?_⟩
    · exact congrArg₂ List.cons hAnswer hAnswers
    · refine hLogger'.trans ?_
      rw [hLogger, Environment.run, Logger.reportAll, Logger.reportAll, Logger.reportAll,
        List.foldl_append]

/-- A run on a new table, over any store of scopes, answers and reports what the environment says,
and the current scope stands for the environment at the end. -/
theorem run_refines (c : Context) (scopes : Scopes) (ops : List (Tree × SymbolOp)) :
    let real := run { c with symbols := SymbolTable.start scopes } ops
    let ideal := Environment.run [[]] ops
    real.1 = ideal.1 ∧
      real.2.symbols.environment = ideal.2.1 ∧
      real.2.logger =
        { kept := c.logger.kept ++ ideal.2.2, sinks := c.logger.sinks.map (· ++ ideal.2.2) } ∧
      real.2.symbols.level + 1 = ideal.2.1.length ∧
      ∀ id : ScopeId, scopes.items.size ≤ id →
        (real.2.symbols.scopes.get id).symbols.map (·.index) =
          List.range (real.2.symbols.scopes.get id).symbols.length := by
  intro real ideal
  have hStart : ({ c with symbols := SymbolTable.start scopes } : Context).symbols.Represents
      scopes.items.size [[]] := SymbolTable.represents_start scopes
  obtain ⟨hAnswers, hEnd, hLogger⟩ := run_represents hStart ops
  exact ⟨hAnswers, hEnd.environment_eq, hLogger.trans (c.logger.reportAll_eq _), hEnd.level_eq,
    fun id hFirst => (hEnd.nested.numbered id hFirst).indices⟩

end SymbolOp

end SemanticCore
