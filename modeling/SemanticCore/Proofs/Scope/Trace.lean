import SemanticCore.Proofs.Scope.Refinement

/-!
# What happens to symbols

The operations of a run define symbols, refer to symbols and leave scopes. These events, in their
order, account for what the scopes hold: the symbols of a scope are those that were defined in it,
and they are referred to as the events say. A scope that was left is not around the current one any
more and will not be.

* `SymbolEvent`, `SymbolOp.events`: what happens in a run.
* `SymbolTable.Changes`: all that an operation can do to a table, with its event.
* `Scopes.Recorded`, `SymbolTable.Rooted`: events that account for the symbols of the scopes and for
  the way of the current scope.
* `SymbolOp.traced_run`: those of a run account for the table at its end.
-/

namespace SemanticCore

/-- What an operation does to symbols, which are known by their scope and their name: it defines
one, it refers to one, or it leaves a scope. -/
inductive SymbolEvent where
  | defined (scope : ScopeId) (name : Name) (declaration : Option NodeId)
  | referred (scope : ScopeId) (name : Name)
  | left (scope : ScopeId)
  deriving DecidableEq

namespace SymbolEvent

def definition? (scope : ScopeId) : SymbolEvent → Option (Name × Option NodeId)
  | .defined i name declaration => if i = scope then some (name, declaration) else none
  | _ => none

def left? : SymbolEvent → Option ScopeId
  | .left scope => some scope
  | _ => none

/-- The symbols that are defined in a scope, in the order of definition. -/
def definitions (es : List SymbolEvent) (scope : ScopeId) : List (Name × Option NodeId) :=
  es.filterMap (definition? scope)

/-- The symbols that are defined in a scope and not referred to. -/
def unused (es : List SymbolEvent) (scope : ScopeId) : List (Name × Option NodeId) :=
  (definitions es scope).filter fun x => .referred scope x.1 ∉ es

theorem definitions_append (es es' : List SymbolEvent) (scope : ScopeId) :
    definitions (es ++ es') scope = definitions es scope ++ definitions es' scope :=
  List.filterMap_append

end SymbolEvent

namespace SymbolOp

/-- What an operation does to the symbols of a table. A lookup without a reference does nothing to
them, and neither does a definition that is refused. -/
def event? (t : SymbolTable) : SymbolOp → Option SymbolEvent
  | .define name declaration _ =>
    (t.scopes.define t.current name declaration).1.map fun _ => .defined t.current name declaration
  | .lookup name _ (some _) | .update name _ =>
    (t.scopes.resolve? t.current name).map fun found => .referred found.1 name
  | .pop _ => (t.scopes.get t.current).parent.map fun _ => .left t.current
  | _ => none

/-- What happens in a run. -/
def events (c : Context) : List (Tree × SymbolOp) → List SymbolEvent
  | [] => []
  | (tree, op) :: ops => (op.event? c.symbols).toList ++ events (op.apply { c with tree }).2 ops

end SymbolOp

/-! ## Steps -/

/-- What can happen to a table: nothing, a new symbol, a reference to one, a new scope, and leaving
a scope. -/
inductive SymbolTable.Changes (t : SymbolTable) : Option SymbolEvent → SymbolTable → Prop
  | nothing : Changes t none t
  | binds {name : Name} {declaration : Option NodeId} {x : Symbol} {scope : Scope}
      (hDefine : (t.scopes.get t.current).define? name declaration = some (x, scope)) :
      Changes t (some (.defined t.current name declaration))
        { t with scopes := t.scopes.modify t.current fun _ => scope }
  | notes {name : Name} {i : ScopeId} {x : Symbol}
      (hResolve : t.scopes.resolve? t.current name = some (i, x)) (reference : NodeId) :
      Changes t (some (.referred i name))
        { t with scopes := t.scopes.refer i name (some reference) }
  | enters (node : Option NodeId) : Changes t none (t.push node).2
  | leaves {parent : ScopeId} (hParent : (t.scopes.get t.current).parent = some parent) :
      Changes t (some (.left t.current)) { t with current := parent }

theorem SymbolOp.changes (op : SymbolOp) (c : Context) :
    c.symbols.Changes (op.event? c.symbols) (op.apply c).2.symbols := by
  cases op with
  | define name declaration location =>
    cases hDefine : (c.symbols.scopes.get c.symbols.current).define? name declaration with
    | none =>
      simp only [event?, apply, Context.define, SymbolTable.define, Scopes.define, hDefine]
      exact .nothing
    | some found =>
      simp only [event?, apply, Context.define, SymbolTable.define, Scopes.define, hDefine]
      exact .binds hDefine
  | lookup name location reference =>
    cases hResolve : c.symbols.scopes.resolve? c.symbols.current name with
    | none =>
      simp only [apply, Context.lookup, SymbolTable.lookup, hResolve]
      cases reference <;> simp only [event?, hResolve] <;> exact .nothing
    | some found =>
      simp only [apply, Context.lookup, SymbolTable.lookup, hResolve]
      cases reference with
      | none => exact .nothing
      | some node =>
        simp only [event?, hResolve]
        exact .notes hResolve node
  | find name => exact .nothing
  | update name reference =>
    cases hResolve : c.symbols.scopes.resolve? c.symbols.current name with
    | none =>
      simp only [event?, apply, Context.updateReference, SymbolTable.updateReference, hResolve]
      exact .nothing
    | some found =>
      simp only [event?, apply, Context.updateReference, SymbolTable.updateReference, hResolve]
      exact .notes hResolve reference
  | push node => exact .enters node
  | pop location =>
    cases hParent : (c.symbols.scopes.get c.symbols.current).parent with
    | none =>
      simp only [event?, apply, Context.popScope, SymbolTable.pop, hParent]
      exact .nothing
    | some parent =>
      simp only [event?, apply, Context.popScope, SymbolTable.pop, hParent]
      exact .leaves hParent
  | symbols currentOnly => exact .nothing

/-! ## Scopes that are changed -/

theorem Scope.symbols_of_define? {s s' : Scope} {name : Name} {declaration : Option NodeId}
    {x : Symbol} (h : s.define? name declaration = some (x, s')) :
    s.find? name = none ∧ s'.parent = s.parent ∧ s'.level = s.level ∧
      s'.symbols = s.symbols ++ [{ index := s.symbols.length, name, declaration }] := by
  unfold Scope.define? at h
  split at h
  · cases h
  · cases h
    exact ⟨‹_›, rfl, rfl, rfl⟩

/-- What is resolved is bound in its scope. -/
theorem Scopes.find?_of_resolve? {s : Scopes} {id i : ScopeId} {name : Name} {x : Symbol}
    (h : s.resolve? id name = some (i, x)) : (s.get i).find? name = some x := by
  obtain ⟨j, -, hj⟩ := List.exists_of_findSome?_eq_some h
  obtain ⟨y, hFind, hEq⟩ := Option.map_eq_some_iff.mp hj
  cases hEq
  exact hFind

/-! ## What scopes hold -/

/-- Events that account for the symbols of the scopes from a place on. -/
structure Scopes.Recorded (first : Nat) (s : Scopes) (es : List SymbolEvent) : Prop where
  definitions : ∀ id : ScopeId, first ≤ id →
    (s.get id).symbols.map (fun x => (x.name, x.declaration)) = SymbolEvent.definitions es id
  isReferenced : ∀ id : ScopeId, first ≤ id → ∀ x ∈ (s.get id).symbols,
    (x.isReferenced = true ↔ .referred id x.name ∈ es)
  bound : ∀ id name, .referred id name ∈ es → name ∈ (s.get id).symbols.map (·.name)

namespace Scopes.Recorded

variable {first id : Nat} {s s' : Scopes} {es : List SymbolEvent} {name : Name}

/-- Nothing has happened to scopes that hold nothing. -/
theorem nil (h : ∀ i : ScopeId, first ≤ i → (s.get i).symbols = []) : s.Recorded first [] := by
  refine ⟨?_, ?_, ?_⟩
  · intro i hFirst
    rw [h i hFirst]
    rfl
  · intro i hFirst x hMem
    rw [h i hFirst] at hMem
    cases hMem
  · intro i n hMem
    cases hMem

theorem of_symbols_eq (h : s.Recorded first es)
    (hSymbols : ∀ i : ScopeId, (s'.get i).symbols = (s.get i).symbols) : s'.Recorded first es := by
  refine ⟨?_, ?_, ?_⟩
  · intro i hFirst
    rw [hSymbols]
    exact h.definitions i hFirst
  · intro i hFirst x hMem
    rw [hSymbols] at hMem
    exact h.isReferenced i hFirst x hMem
  · intro i n hMem
    rw [hSymbols]
    exact h.bound i n hMem

/-- Leaving a scope says nothing about symbols. -/
theorem leave (h : s.Recorded first es) (id : ScopeId) : s.Recorded first (es ++ [.left id]) := by
  refine ⟨?_, ?_, ?_⟩
  · intro i hFirst
    rw [h.definitions i hFirst, SymbolEvent.definitions_append]
    simp [SymbolEvent.definitions, SymbolEvent.definition?]
  · intro i hFirst x hMem
    simpa using h.isReferenced i hFirst x hMem
  · intro i n hMem
    exact h.bound i n (by simpa using hMem)

theorem define (h : s.Recorded first es) (hFirst : first ≤ id) (hSize : id < s.items.size)
    {declaration : Option NodeId} {x : Symbol} {scope : Scope}
    (hDefine : (s.get id).define? name declaration = some (x, scope)) :
    (s.modify id fun _ => scope).Recorded first (es ++ [.defined id name declaration]) := by
  obtain ⟨hFree, -, -, hNew⟩ := Scope.symbols_of_define? hDefine
  have hSymbols : ∀ i : ScopeId, ((s.modify id fun _ => scope).get i).symbols =
      if i = id then (s.get id).symbols ++
        [{ index := (s.get id).symbols.length, name, declaration }] else (s.get i).symbols := by
    intro i
    rw [get_modify hSize, apply_ite Scope.symbols, hNew]
  refine ⟨?_, ?_, ?_⟩
  · intro i hLow
    rw [hSymbols, SymbolEvent.definitions_append, ← h.definitions i hLow]
    split
    · next hEq =>
      subst hEq
      simp [SymbolEvent.definitions, SymbolEvent.definition?]
    · next hNe =>
      simp [SymbolEvent.definitions, SymbolEvent.definition?, Ne.symm hNe]
  · intro i hLow y hMem
    rw [hSymbols] at hMem
    have hOld : ∀ y ∈ (s.get i).symbols,
        (y.isReferenced = true ↔ .referred i y.name ∈ es ++ [.defined id name declaration]) := by
      intro y hy
      simpa using h.isReferenced i hLow y hy
    split at hMem
    · next hEq =>
      subst hEq
      rcases List.mem_append.mp hMem with hy | hy
      · exact hOld y hy
      · -- a name that was referred to here before would be bound here
        rw [List.mem_singleton.mp hy]
        have hNone : .referred i name ∉ es := by
          intro hReferred
          obtain ⟨z, hz, hName⟩ := List.mem_map.mp (h.bound i name hReferred)
          rw [Scope.find?, List.find?_eq_none] at hFree
          exact hFree z hz (by simpa using hName)
        simp [Symbol.isReferenced, hNone]
    · exact hOld y hMem
  · intro i n hMem
    have hOld := h.bound i n (by simpa using hMem)
    rw [hSymbols]
    split
    · next hEq =>
      subst hEq
      rw [List.map_append]
      exact List.mem_append_left _ hOld
    · exact hOld

theorem refer (h : s.Recorded first es) (hSize : id < s.items.size) {x : Symbol}
    (hFind : (s.get id).find? name = some x) (reference : NodeId) :
    (s.refer id name (some reference)).Recorded first (es ++ [.referred id name]) := by
  let note : Symbol → Symbol := fun y =>
    if y.name = name then { y with lastReference := some reference } else y
  have hSymbols : ∀ i : ScopeId, ((s.refer id name (some reference)).get i).symbols =
      if i = id then (s.get id).symbols.map note else (s.get i).symbols := by
    intro i
    rw [Scopes.refer, get_modify hSize, apply_ite Scope.symbols]
    rfl
  have hKeep : ∀ {α : Type} (part : Symbol → α), (∀ y, part (note y) = part y) →
      ∀ i : ScopeId, ((s.refer id name (some reference)).get i).symbols.map part =
        (s.get i).symbols.map part := by
    intro α part hPart i
    rw [hSymbols]
    split
    · next hEq =>
      subst hEq
      rw [List.map_map]
      exact List.map_congr_left fun y _ => hPart y
    · rfl
  refine ⟨?_, ?_, ?_⟩
  · intro i hLow
    have hPart : ∀ y : Symbol, ((note y).name, (note y).declaration) = (y.name, y.declaration) := by
      intro y
      simp only [note]
      split <;> rfl
    rw [hKeep _ hPart, h.definitions i hLow, SymbolEvent.definitions_append]
    simp [SymbolEvent.definitions, SymbolEvent.definition?]
  · intro i hLow y hMem
    rw [hSymbols] at hMem
    split at hMem
    · next hEq =>
      subst hEq
      obtain ⟨z, hz, rfl⟩ := List.mem_map.mp hMem
      have hOld := h.isReferenced i hLow z hz
      by_cases hName : z.name = name
      · simp [note, hName, Symbol.isReferenced]
      · simpa [note, hName] using hOld
    · next hNe =>
      have hOld := h.isReferenced i hLow y hMem
      simpa [hNe] using hOld
  · intro i n hMem
    have hPart : ∀ y : Symbol, (note y).name = y.name := by
      intro y
      simp only [note]
      split <;> rfl
    rw [hKeep _ hPart]
    rcases List.mem_append.mp hMem with hOld | hNew
    · exact h.bound i n hOld
    · cases List.mem_singleton.mp hNew
      have hx := List.mem_of_find?_eq_some hFind
      have hName := List.find?_some hFind
      exact List.mem_map.mpr ⟨x, hx, by simpa using hName⟩

/-- The symbols of a scope that were not referred to are those of which the events do not say it. -/
theorem unused_eq (h : s.Recorded first es) (hFirst : first ≤ id) :
    (s.get id).unused.map (fun x => (x.name, x.declaration)) = SymbolEvent.unused es id := by
  rw [SymbolEvent.unused, ← h.definitions id hFirst, List.filter_map, Scope.unused]
  congr 1
  apply List.filter_congr
  intro x hMem
  rw [Bool.eq_iff_iff]
  simpa using not_congr (h.isReferenced id hFirst x hMem)

end Scopes.Recorded

/-! ## Where the current scope is -/

namespace SymbolTable

/-- The scopes from a place on, where the global one is, with the current scope among them and the
scopes that were left not around it. -/
structure Rooted (first : Nat) (t : SymbolTable) (es : List SymbolEvent) : Prop where
  nested : t.scopes.Nested first
  first_le : first ≤ t.current
  current_lt : t.current < t.scopes.items.size
  globalScope_eq : t.globalScope = first
  parent_eq_none : ∀ id : Nat, first ≤ id → id < t.scopes.items.size →
    ((t.scopes.get id).parent = none ↔ id = first)
  left : ∀ id : Nat, .left id ∈ es →
    first < id ∧ id < t.scopes.items.size ∧ id ∉ t.scopes.chain t.current
  left_nodup : (es.filterMap SymbolEvent.left?).Nodup

namespace Rooted

variable {first id : Nat} {t : SymbolTable} {es : List SymbolEvent}

/-- A change of what one scope holds, by an operation that does not leave a scope. -/
theorem modify (h : t.Rooted first es) (hSize : id < t.scopes.items.size)
    {change : Scope → Scope} (hNested : (t.scopes.modify id change).Nested first)
    (hParent : (change (t.scopes.get id)).parent = (t.scopes.get id).parent) {e : SymbolEvent}
    (hEvent : e.left? = none) :
    { t with scopes := t.scopes.modify id change }.Rooted first (es ++ [e]) := by
  have hCount : (t.scopes.modify id change).items.size = t.scopes.items.size := by
    simp [Scopes.modify]
  have hParents := Scopes.apply_get_modify Scope.parent hSize hParent
  have hChain : (t.scopes.modify id change).chain t.current = t.scopes.chain t.current :=
    h.nested.chain_congr hNested h.first_le h.current_lt (by rw [hCount]; exact h.current_lt)
      fun i _ => hParents i
  have hLeft : ∀ i, .left i ∈ es ++ [e] → .left i ∈ es := by
    intro i hMem
    rcases List.mem_append.mp hMem with hOld | hNew
    · exact hOld
    · rw [← List.mem_singleton.mp hNew] at hEvent
      cases hEvent
  refine ⟨hNested, h.first_le, ?_, h.globalScope_eq, ?_, ?_, ?_⟩
  · rw [hCount]
    exact h.current_lt
  · intro i hLow hHigh
    rw [hParents]
    exact h.parent_eq_none i hLow (hCount ▸ hHigh)
  · intro i hMem
    rw [hChain, hCount]
    exact h.left i (hLeft i hMem)
  · simpa [hEvent] using h.left_nodup

theorem push (h : t.Rooted first es) (node : Option NodeId) :
    (t.push node).2.Rooted first es := by
  have hNested := h.nested.createChild h.first_le h.current_lt node
  have hGet := Scopes.get_createChild h.current_lt node
  have hCount := t.scopes.size_createChild t.current node
  have hParent : ((t.scopes.createChild t.current node).2.get t.scopes.items.size).parent =
      some t.current := by
    rw [(hGet t.scopes.items.size).1, if_pos rfl]
  have hFirst := h.first_le
  have hCurrent : t.scopes.items.size > t.current := h.current_lt
  -- the new scope is innermost, and around it is what was around the current one
  have hChain : (t.scopes.createChild t.current node).2.chain t.scopes.items.size =
      t.scopes.items.size :: t.scopes.chain t.current := by
    rw [hNested.chain_of_some (by omega) (by omega) hParent,
      h.nested.chain_congr hNested hFirst hCurrent (by omega) fun i hLe => ?_]
    rw [(hGet i).1, if_neg (by omega)]
  refine ⟨hNested, Nat.le_trans hFirst (Nat.le_of_lt hCurrent), ?_, h.globalScope_eq, ?_, ?_,
    h.left_nodup⟩
  · show t.scopes.items.size < (t.scopes.createChild t.current node).2.items.size
    omega
  · intro i hLow hHigh
    have hHigh' : i < (t.scopes.createChild t.current node).2.items.size := hHigh
    show ((t.scopes.createChild t.current node).2.get i).parent = none ↔ _
    rw [(hGet i).1]
    split
    · constructor
      · intro hNone
        cases hNone
      · omega
    · exact h.parent_eq_none i hLow (by omega)
  · intro i hMem
    obtain ⟨hLow, hHigh, hOff⟩ := h.left i hMem
    refine ⟨hLow, ?_, ?_⟩
    · show i < (t.scopes.createChild t.current node).2.items.size
      omega
    · show i ∉ (t.scopes.createChild t.current node).2.chain t.scopes.items.size
      rw [hChain, List.mem_cons, not_or]
      exact ⟨by omega, hOff⟩

theorem pop (h : t.Rooted first es) {parent : ScopeId}
    (hParent : (t.scopes.get t.current).parent = some parent) :
    { t with current := parent }.Rooted first (es ++ [SymbolEvent.left t.current]) := by
  have hFirst := h.first_le
  have hCurrent : t.scopes.items.size > t.current := h.current_lt
  obtain ⟨hLow, hLt⟩ := h.nested.parent_lt t.current parent hFirst hParent
  have hChain := h.nested.chain_of_some hFirst hCurrent hParent
  refine ⟨h.nested, hLow, Nat.lt_trans hLt hCurrent, h.globalScope_eq, h.parent_eq_none, ?_, ?_⟩
  · intro i hMem
    rcases List.mem_append.mp hMem with hOld | hNew
    · obtain ⟨hInner, hHigh, hOff⟩ := h.left i hOld
      rw [hChain, List.mem_cons, not_or] at hOff
      exact ⟨hInner, hHigh, hOff.2⟩
    · cases List.mem_singleton.mp hNew
      refine ⟨by omega, hCurrent, ?_⟩
      intro hOuter
      have := h.nested.le_of_mem_chain hLow (Nat.lt_trans hLt hCurrent) hOuter
      omega
  · -- the current scope is around itself, so it was not left before
    have hNew : t.current ∉ es.filterMap SymbolEvent.left? := by
      intro hMem
      obtain ⟨e, he, hLeft⟩ := List.mem_filterMap.mp hMem
      cases e with
      | left i =>
        cases hLeft
        have hOff := (h.left t.current he).2.2
        rw [hChain] at hOff
        exact hOff List.mem_cons_self
      | _ => cases hLeft
    rw [List.filterMap_append]
    show (es.filterMap SymbolEvent.left? ++ [t.current]).Nodup
    rw [← List.concat_eq_append]
    exact h.left_nodup.concat hNew

end Rooted

/-- The global scope is the only one without a scope around it. -/
theorem Rooted.exists_parent {first : Nat} {t : SymbolTable} {es : List SymbolEvent}
    (h : t.Rooted first es) (hInner : t.current ≠ t.globalScope) :
    ∃ parent, (t.scopes.get t.current).parent = some parent := by
  rw [h.globalScope_eq] at hInner
  exact Option.ne_none_iff_exists'.mp
    (mt (h.parent_eq_none _ h.first_le h.current_lt).mp hInner)

/-- Events that account for a table. -/
structure Traced (first : Nat) (t : SymbolTable) (es : List SymbolEvent) : Prop where
  rooted : t.Rooted first es
  recorded : t.scopes.Recorded first es

theorem traced_start (scopes : Scopes) :
    (SymbolTable.start scopes).Traced scopes.items.size [] := by
  have hNew : (scopes.create none).2.get scopes.items.size =
      { node := none, parent := none, level := 0 } := by
    rw [Scopes.create, Scopes.get_push, if_pos rfl]
  have hCount : (scopes.create none).2.items.size = scopes.items.size + 1 := by
    simp [Scopes.create]
  have hSymbols : ∀ id : Nat, scopes.items.size ≤ id →
      ((SymbolTable.start scopes).scopes.get id).symbols = [] := by
    intro id hFirst
    show ((scopes.create none).2.get id).symbols = []
    by_cases hId : id = scopes.items.size
    · rw [hId, hNew]
    · rw [Scopes.get_of_size_le (by omega)]
      rfl
  refine ⟨⟨scopes.nested_create none, Nat.le_refl _, ?_, rfl, ?_, ?_, .nil⟩, .nil hSymbols⟩
  · show scopes.items.size < (scopes.create none).2.items.size
    omega
  · intro id hFirst hSize
    have hId : id = scopes.items.size := by
      have hSize' : id < (scopes.create none).2.items.size := hSize
      omega
    subst hId
    exact ⟨fun _ => rfl, fun _ => congrArg Scope.parent hNew⟩
  · intro id hMem
    cases hMem

namespace Traced

variable {first : Nat} {t t' : SymbolTable} {es : List SymbolEvent} {e : Option SymbolEvent}

/-- Whatever an operation does, its event accounts for it. -/
theorem step (h : t.Traced first es) (hStep : t.Changes e t') :
    t'.Traced first (es ++ e.toList) := by
  have hFirst := h.rooted.first_le
  have hCurrent := h.rooted.current_lt
  have hNumbered := h.rooted.nested.numbered t.current hFirst
  cases hStep with
  | nothing => simpa using h
  | @binds name declaration x scope hDefine =>
    obtain ⟨hFree, hParent, hLevel, -⟩ := Scope.symbols_of_define? hDefine
    have hScope : scope.Numbered := by
      rw [hNumbered.find?_eq] at hFree
      obtain ⟨_, _, hDefine', hScope, -⟩ := hNumbered.define?_of_none declaration hFree
      cases hDefine.symm.trans hDefine'
      exact hScope
    have hNested : (t.scopes.modify t.current fun _ => scope).Nested first :=
      h.rooted.nested.modify hCurrent hParent hLevel hScope
    exact ⟨h.rooted.modify hCurrent hNested hParent rfl,
      h.recorded.define hFirst hCurrent hDefine⟩
  | @notes name i x hResolve reference =>
    obtain ⟨hLow, hHigh⟩ := h.rooted.nested.resolve?_le hFirst hCurrent hResolve
    have hSize : i < t.scopes.items.size := Nat.lt_of_le_of_lt hHigh hCurrent
    have hNested := h.rooted.nested.refer hLow hSize name (some reference)
    exact ⟨h.rooted.modify hSize hNested rfl rfl,
      h.recorded.refer hSize (Scopes.find?_of_resolve? hResolve) reference⟩
  | enters node =>
    rw [Option.toList_none, List.append_nil]
    refine ⟨h.rooted.push node, h.recorded.of_symbols_eq fun i => ?_⟩
    show ((t.scopes.createChild t.current node).2.get i).symbols = _
    rw [(Scopes.get_createChild hCurrent node i).2.2]
    split
    · next hNew =>
      rw [hNew, Scopes.get_of_size_le (Nat.le_refl _)]
      rfl
    · rfl
  | leaves hParent => exact ⟨h.rooted.pop hParent, h.recorded.leave t.current⟩

end Traced

end SymbolTable

/-! ## Runs -/

namespace SymbolOp

/-- What happens in a run accounts for the table at its end. -/
theorem traced_run {first : Nat} {c : Context} {es : List SymbolEvent}
    (h : c.symbols.Traced first es) (ops : List (Tree × SymbolOp)) :
    (run c ops).2.symbols.Traced first (es ++ events c ops) := by
  induction ops generalizing c es with
  | nil => simpa [run, events] using h
  | cons head ops ih =>
    obtain ⟨tree, op⟩ := head
    have hStep := h.step (op.changes { c with tree })
    rw [events, ← List.append_assoc]
    exact ih hStep

theorem events_append (c : Context) (ops ops' : List (Tree × SymbolOp)) :
    events c (ops ++ ops') = events c ops ++ events (run c ops).2 ops' := by
  induction ops generalizing c with
  | nil => rfl
  | cons head ops ih =>
    obtain ⟨tree, op⟩ := head
    rw [List.cons_append, events, events, ih, List.append_assoc]
    rfl

end SymbolOp

end SemanticCore
