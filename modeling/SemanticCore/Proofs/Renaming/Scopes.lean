import SemanticCore.Proofs.Renaming.Trees
import SemanticCore.Proofs.Scope.Nesting
import SemanticCore.Scope.SymbolTable

/-!
# Renaming of scopes

A store of scopes that has others before those of another store is like the other one if its last
scopes are the renamed ones of the other. Every operation on such stores finds the same symbols and
leaves stores that are alike again: scopes are found by their distance from the first of these, and
what is around a scope comes before it, so the chain of scopes ends in both.

* `Scopes.Alike`, `SymbolTable.Alike`: stores and tables that are alike.
* `Scopes.Alike.modify`, `Scopes.Alike.push`, `Scopes.Alike.chain_eq`: what stores keep.
* `SymbolTable.Alike.define`, `SymbolTable.Alike.lookup`, …: the operations.
-/

namespace SemanticCore

def Symbol.rename (ρ : Renaming) (s : Symbol) : Symbol :=
  { s with
    name := ρ.name s.name
    declaration := s.declaration.map ρ.node
    lastReference := s.lastReference.map ρ.node }

def Scope.rename (ρ : Renaming) (s : Scope) : Scope :=
  { s with
    node := s.node.map ρ.node
    parent := s.parent.map ρ.scope
    symbols := s.symbols.map (Symbol.rename ρ)
    nested := s.nested.map ρ.scope }

variable {ρ : Renaming}

theorem isReferenced_rename (s : Symbol) : (s.rename ρ).isReferenced = s.isReferenced :=
  Option.isSome_map

namespace Scope

theorem find?_rename (s : Scope) (name : Name) :
    (s.rename ρ).find? (ρ.name name) = (s.find? name).map (Symbol.rename ρ) := by
  rw [find?, find?]
  show (s.symbols.map (Symbol.rename ρ)).find? _ = _
  rw [List.find?_map]
  congr 2
  exact funext fun symbol => ρ.name_beq symbol.name name

theorem define?_rename (s : Scope) (name : Name) (declaration : Option NodeId) :
    (s.rename ρ).define? (ρ.name name) (declaration.map ρ.node) =
      (s.define? name declaration).map (Prod.map (Symbol.rename ρ) (rename ρ)) := by
  rw [define?, define?, find?_rename]
  cases s.find? name with
  | some _ => rfl
  | none =>
    simp only [Option.map_none, Option.map_some, Prod.map_apply, rename, List.map_append,
      List.length_map, List.map_cons, List.map_nil]
    rfl

theorem refer_rename (s : Scope) (name : Name) (reference : Option NodeId) :
    (s.rename ρ).refer (ρ.name name) (reference.map ρ.node) =
      (s.refer name reference).rename ρ := by
  simp only [refer, rename, List.map_map, Scope.mk.injEq, true_and, and_true]
  refine List.map_congr_left fun symbol _ => ?_
  simp only [Function.comp_apply, Symbol.rename, Renaming.name_inj]
  split <;> rfl

theorem unused_rename (s : Scope) :
    (s.rename ρ).unused = s.unused.map (Symbol.rename ρ) := by
  simp only [unused, rename, List.filter_map, Function.comp_def, isReferenced_rename]

end Scope

/-! ## Stores -/

namespace Scopes

theorem size_define (s : Scopes) (i : ScopeId) (name : Name) (declaration : Option NodeId) :
    (s.define i name declaration).2.items.size = s.items.size := by
  unfold define
  split
  · exact Array.size_modify
  · rfl

/-- The scopes of `s'` from a place on are the renamed ones of `s`, in which what is around a scope
comes before it. -/
structure Alike (ρ : Renaming) (s s' : Scopes) : Prop where
  size_eq : s'.items.size = ρ.scope s.items.size
  get_eq : ∀ i, s'.get (ρ.scope i) = (s.get i).rename ρ
  parent_lt : ∀ i p : Nat, (s.get i).parent = some p → p < i

namespace Alike

variable {s s' : Scopes} {i : Nat}

/-- Behind the scopes of a store there are as few as in a new one. -/
theorem new (h : ρ.scopes = s'.items.size) : Alike ρ {} s' where
  size_eq := h.symm
  get_eq i := by
    rw [get_of_size_le (by rw [Renaming.scope, h]; exact Nat.le_add_right _ _)]
    rfl
  parent_lt i p hp := by cases hp

theorem lt_iff (h : Alike ρ s s') : ρ.scope i < s'.items.size ↔ i < s.items.size := by
  rw [h.size_eq]
  exact Nat.add_lt_add_iff_left

theorem push (h : Alike ρ s s') {scope : Scope}
    (hParent : ∀ p : Nat, scope.parent = some p → p < s.items.size) :
    Alike ρ { s with items := s.items.push scope }
      { s' with items := s'.items.push (scope.rename ρ) } where
  size_eq := by
    rw [Array.size_push, Array.size_push, h.size_eq]
    rfl
  get_eq j := by
    rw [get_push, get_push, h.size_eq, h.get_eq]
    by_cases hj : j = s.items.size
    · rw [if_pos hj, if_pos (congrArg ρ.scope hj)]
    · rw [if_neg hj, if_neg fun hEq => hj (ρ.scope_inj.mp hEq)]
  parent_lt j p hp := by
    rw [get_push] at hp
    split at hp
    · rename_i hj
      exact hj ▸ hParent p hp
    · exact h.parent_lt j p hp

theorem modify (h : Alike ρ s s') (hi : i < s.items.size) {change change' : Scope → Scope}
    (hChange : change' ((s.get i).rename ρ) = (change (s.get i)).rename ρ)
    (hParent : (change (s.get i)).parent = (s.get i).parent) :
    Alike ρ (s.modify i change) (s'.modify (ρ.scope i) change') where
  size_eq := by
    simpa only [Scopes.modify, Array.size_modify] using h.size_eq
  get_eq j := by
    rw [get_modify hi, get_modify (h.lt_iff.mpr hi), h.get_eq, h.get_eq, hChange]
    by_cases hj : j = i
    · rw [if_pos hj, if_pos (congrArg ρ.scope hj)]
    · rw [if_neg hj, if_neg fun hEq => hj (ρ.scope_inj.mp hEq)]
  parent_lt j p hp := by
    rw [apply_get_modify Scope.parent hi hParent] at hp
    exact h.parent_lt j p hp

/-- What is around a scope comes before it, so each limit is high enough. -/
theorem chainWithin_eq (h : Alike ρ s s') {n n' : Nat} (hn : i ≤ n) (hn' : i ≤ n') :
    s'.chainWithin n' (ρ.scope i) = (s.chainWithin n i).map ρ.scope := by
  induction i using Nat.strongRecOn generalizing n n' with
  | ind i ih =>
    have hUp : (s'.get (ρ.scope i)).parent = (s.get i).parent.map ρ.scope := by
      rw [h.get_eq]
      rfl
    -- parents come before their scopes, so both limits are large enough for all of the chain
    cases hParent : (s.get i).parent with
    | none =>
      rw [hParent, Option.map_none] at hUp
      cases n <;> cases n' <;> simp [chainWithin, hParent, hUp]
    | some p =>
      have hLt := h.parent_lt i p hParent
      obtain ⟨n, rfl⟩ : ∃ k, n = k + 1 := ⟨n - 1, by omega⟩
      obtain ⟨n', rfl⟩ : ∃ k, n' = k + 1 := ⟨n' - 1, by omega⟩
      rw [hParent, Option.map_some] at hUp
      simp only [chainWithin, hParent, hUp, List.map_cons]
      have hOuter : s'.chainWithin n' (ρ.scope p) = (s.chainWithin n p).map ρ.scope :=
        ih p hLt (by omega) (by omega)
      rw [hOuter]

theorem chain_eq (h : Alike ρ s s') (hi : i < s.items.size) :
    s'.chain (ρ.scope i) = (s.chain i).map ρ.scope := by
  have hi' := h.lt_iff.mpr hi
  rw [Renaming.scope] at hi'
  exact h.chainWithin_eq (by omega) (by omega)

theorem mem_chain_lt (h : Alike ρ s s') (hi : i < s.items.size) {j : Nat}
    (hj : j ∈ s.chain i) : j < s.items.size := by
  have hBelow : ∀ (n i : Nat), ∀ j ∈ s.chainWithin n i, j ≤ i := by
    intro n
    induction n with
    | zero => simp [chainWithin]
    | succ n ih =>
      intro i j hj
      rw [chainWithin] at hj
      split at hj
      · rename_i p hp
        rcases List.mem_cons.mp hj with rfl | hj
        · exact Nat.le_refl _
        · exact Nat.le_trans (ih p j hj) (Nat.le_of_lt (h.parent_lt i p hp))
      · exact (List.mem_singleton.mp hj).le
  exact Nat.lt_of_le_of_lt (hBelow _ i j hj) hi

theorem find?_eq (h : Alike ρ s s') (name : Name) :
    (s'.get (ρ.scope i)).find? (ρ.name name) = ((s.get i).find? name).map (Symbol.rename ρ) := by
  rw [h.get_eq, Scope.find?_rename]

theorem resolve?_eq (h : Alike ρ s s') (hi : i < s.items.size) (name : Name) :
    s'.resolve? (ρ.scope i) (ρ.name name) =
      (s.resolve? i name).map (Prod.map ρ.scope (Symbol.rename ρ)) := by
  rw [resolve?, resolve?, h.chain_eq hi, List.findSome?_map, List.map_findSome?]
  congr 1
  funext j
  simp only [Function.comp_apply, h.find?_eq]
  cases (s.get j).find? name <;> rfl

theorem create (h : Alike ρ s s') (node : Option NodeId) :
    (s'.create (node.map ρ.node)).1 = ρ.scope (s.create node).1 ∧
      Alike ρ (s.create node).2 (s'.create (node.map ρ.node)).2 :=
  ⟨h.size_eq, @push _ _ _ h { node, parent := none, level := 0 } (by simp)⟩

theorem createChild (h : Alike ρ s s') (hi : i < s.items.size) (node : Option NodeId) :
    (s'.createChild (ρ.scope i) (node.map ρ.node)).1 = ρ.scope (s.createChild i node).1 ∧
      Alike ρ (s.createChild i node).2 (s'.createChild (ρ.scope i) (node.map ρ.node)).2 := by
  refine ⟨h.size_eq, ?_⟩
  let t := s.modify i fun p => { p with nested := p.nested ++ [s.items.size] }
  let t' := s'.modify (ρ.scope i) fun p => { p with nested := p.nested ++ [s'.items.size] }
  have hNested : Alike ρ t t' := by
    refine h.modify hi ?_ rfl
    simp only [Scope.rename, List.map_append, List.map_cons, List.map_nil, h.size_eq]
  have hLevel : (t'.get (ρ.scope i)).level = (t.get i).level := by
    rw [hNested.get_eq]
    rfl
  let inner : Scope := { node, parent := some i, level := (t.get i).level + 1 }
  let inner' : Scope :=
    { node := node.map ρ.node, parent := some (ρ.scope i), level := (t'.get (ρ.scope i)).level + 1 }
  have hInner : inner' = inner.rename ρ := by
    simp only [inner, inner', hLevel, Scope.rename, Option.map_some, List.map_nil]
  show Alike ρ { t with items := t.items.push inner } { t' with items := t'.items.push inner' }
  rw [hInner]
  refine hNested.push fun p hp => ?_
  cases hp
  simpa only [t, Scopes.modify, Array.size_modify] using hi

theorem define (h : Alike ρ s s') (hi : i < s.items.size) (name : Name)
    (declaration : Option NodeId) :
    (s'.define (ρ.scope i) (ρ.name name) (declaration.map ρ.node)).1 =
        (s.define i name declaration).1.map (Symbol.rename ρ) ∧
      Alike ρ (s.define i name declaration).2
        (s'.define (ρ.scope i) (ρ.name name) (declaration.map ρ.node)).2 := by
  simp only [Scopes.define, h.get_eq, Scope.define?_rename]
  cases hDefine : (s.get i).define? name declaration with
  | none => exact ⟨rfl, h⟩
  | some result =>
    refine ⟨rfl, h.modify hi rfl ?_⟩
    unfold Scope.define? at hDefine
    split at hDefine
    · cases hDefine
    · cases hDefine
      rfl

theorem refer (h : Alike ρ s s') (hi : i < s.items.size) (name : Name)
    (reference : Option NodeId) :
    Alike ρ (s.refer i name reference)
      (s'.refer (ρ.scope i) (ρ.name name) (reference.map ρ.node)) :=
  h.modify hi (Scope.refer_rename _ name reference) rfl

theorem resolve?_lt (h : Alike ρ s s') (hi : i < s.items.size) {name : Name} {j : Nat}
    {symbol : Symbol} (hResolve : s.resolve? i name = some (j, symbol)) : j < s.items.size := by
  obtain ⟨k, hMem, hFound⟩ := List.exists_of_findSome?_eq_some hResolve
  obtain ⟨found, -, hPair⟩ := Option.map_eq_some_iff.mp hFound
  cases hPair
  exact h.mem_chain_lt hi hMem

end Alike

end Scopes

/-! ## Tables -/

theorem Tree.locationOf_rename (t : Tree) (declaration : Option NodeId) :
    (t.rename ρ).locationOf (declaration.map ρ.node) = t.locationOf declaration := by
  cases declaration with
  | none => rfl
  | some h =>
    simp only [Tree.locationOf, Option.map_some, Option.bind_some, Tree.get?_rename]
    cases t.get? h <;> rfl

namespace SymbolTable

structure Alike (ρ : Renaming) (s s' : SymbolTable) : Prop where
  scopes : s.scopes.Alike ρ s'.scopes
  globalScope_eq : s'.globalScope = ρ.scope s.globalScope
  current_eq : s'.current = ρ.scope s.current
  current_lt : s.current < s.scopes.items.size

namespace Alike

variable {s s' : SymbolTable} {t : Tree}

theorem start {scopes scopes' : Scopes} (h : scopes.Alike ρ scopes') :
    Alike ρ (.start scopes) (.start scopes') where
  scopes := (h.create none).2
  globalScope_eq := (h.create none).1
  current_eq := (h.create none).1
  current_lt := by simp [SymbolTable.start, Scopes.create]

theorem get_current (h : Alike ρ s s') :
    s'.scopes.get s'.current = (s.scopes.get s.current).rename ρ := by
  rw [h.current_eq, h.scopes.get_eq]

theorem level_eq (h : Alike ρ s s') : s'.level = s.level := by
  rw [level, h.get_current]
  rfl

/-- With a name, a declaration and a location come the same answer and the same reports. -/
theorem define (h : Alike ρ s s') (name : Name) (declaration : Option NodeId)
    (location : Location) :
    ∃ table, s'.define (t.rename ρ) (ρ.name name) (declaration.map ρ.node) location =
        ((s.define t name declaration location).1, table,
          (s.define t name declaration location).2.2) ∧
      Alike ρ (s.define t name declaration location).2.1 table := by
  have hDefine := h.scopes.define h.current_lt name declaration
  have hSize := s.scopes.size_define s.current name declaration
  rw [← h.current_eq] at hDefine
  unfold SymbolTable.define
  rw [h.get_current, Scope.find?_rename]
  cases hNew : s.scopes.define s.current name declaration with
  | mk x scopes =>
    cases hNew' : s'.scopes.define s'.current (ρ.name name) (declaration.map ρ.node) with
    | mk x' scopes' =>
      rw [hNew] at hSize
      rw [hNew, hNew'] at hDefine
      obtain ⟨hSymbol, hScopes⟩ := hDefine
      cases x with
      | some symbol =>
        simp only at hSymbol
        subst hSymbol
        exact ⟨_, rfl, hScopes, h.globalScope_eq, h.current_eq, hSize.symm ▸ h.current_lt⟩
      | none =>
        simp only at hSymbol
        subst hSymbol
        refine ⟨s', ?_, h⟩
        have hPrevious : (((s.scopes.get s.current).find? name).map (Symbol.rename ρ)).bind
            (·.declaration) =
              (((s.scopes.get s.current).find? name).bind (·.declaration)).map ρ.node := by
          cases (s.scopes.get s.current).find? name <;> rfl
        simp only [Option.map_none, hPrevious, Tree.locationOf_rename]
        rfl

theorem resolve?_eq (h : Alike ρ s s') (name : Name) :
    s'.scopes.resolve? s'.current (ρ.name name) =
      (s.scopes.resolve? s.current name).map (Prod.map ρ.scope (Symbol.rename ρ)) := by
  rw [h.current_eq, h.scopes.resolve?_eq h.current_lt]

theorem find?_eq (h : Alike ρ s s') (name : Name) :
    s'.find? (ρ.name name) = (s.find? name).map (Symbol.rename ρ) := by
  rw [find?, find?, h.resolve?_eq]
  cases s.scopes.resolve? s.current name <;> rfl

/-- A new last reference to a symbol that a name resolves to. -/
theorem refer (h : Alike ρ s s') {name : Name} {i : Nat} {symbol : Symbol}
    (hResolve : s.scopes.resolve? s.current name = some (i, symbol)) (reference : Option NodeId) :
    Alike ρ { s with scopes := s.scopes.refer i name reference }
      { s' with
        scopes := s'.scopes.refer (ρ.scope i) (ρ.name name) (reference.map ρ.node) } where
  scopes := h.scopes.refer (h.scopes.resolve?_lt h.current_lt hResolve) name reference
  globalScope_eq := h.globalScope_eq
  current_eq := h.current_eq
  current_lt := by
    simpa only [Scopes.refer, Scopes.modify, Array.size_modify] using h.current_lt

theorem lookup (h : Alike ρ s s') (name : Name) (location : Location)
    (reference : Option NodeId) :
    ∃ table, s'.lookup (ρ.name name) location (reference.map ρ.node) =
        ((s.lookup name location reference).1.map ρ.node, table,
          (s.lookup name location reference).2.2) ∧
      Alike ρ (s.lookup name location reference).2.1 table := by
  unfold SymbolTable.lookup
  rw [h.resolve?_eq]
  cases hResolve : s.scopes.resolve? s.current name with
  | none => exact ⟨s', rfl, h⟩
  | some found =>
    obtain ⟨i, symbol⟩ := found
    cases reference with
    | none => exact ⟨s', rfl, h⟩
    | some node => exact ⟨_, rfl, h.refer hResolve (some node)⟩

theorem updateReference (h : Alike ρ s s') (name : Name) (reference : Option NodeId) :
    ∃ table, s'.updateReference (ρ.name name) (reference.map ρ.node) =
        ((s.updateReference name reference).1, table) ∧
      Alike ρ (s.updateReference name reference).2 table := by
  unfold SymbolTable.updateReference
  rw [h.resolve?_eq]
  cases hResolve : s.scopes.resolve? s.current name with
  | none => exact ⟨s', rfl, h⟩
  | some found => exact ⟨_, rfl, h.refer hResolve reference⟩

theorem push (h : Alike ρ s s') (node : Option NodeId) :
    ∃ table, s'.push (node.map ρ.node) = (ρ.scope (s.push node).1, table) ∧
      Alike ρ (s.push node).2 table := by
  obtain ⟨hId, hScopes⟩ := h.scopes.createChild h.current_lt node
  rw [← h.current_eq] at hId hScopes
  refine ⟨_, Prod.ext hId rfl, hScopes, h.globalScope_eq, hId, ?_⟩
  simp [SymbolTable.push, Scopes.createChild, Scopes.modify]

theorem pop (h : Alike ρ s s') (location : Location) :
    ∃ table, s'.pop (t.rename ρ) location = (table, (s.pop t location).2) ∧
      Alike ρ (s.pop t location).1 table := by
  unfold SymbolTable.pop
  simp only [h.get_current]
  cases hParent : (s.scopes.get s.current).parent with
  | none =>
    simp only [Scope.rename, hParent, Option.map_none]
    exact ⟨s', rfl, h⟩
  | some p =>
    have hLt := h.scopes.parent_lt s.current p hParent
    have hReports : ((s.scopes.get s.current).rename ρ).unused.map (fun symbol =>
        (SymbolIssue.unused symbol.name).diagnostic
          ((t.rename ρ).locationOf symbol.declaration)) =
        (s.scopes.get s.current).unused.map fun symbol =>
          (SymbolIssue.unused symbol.name).diagnostic (t.locationOf symbol.declaration) := by
      rw [Scope.unused_rename, List.map_map]
      refine List.map_congr_left fun symbol _ => ?_
      simp only [Function.comp_apply, Symbol.rename, Tree.locationOf_rename]
      rfl
    rw [hReports]
    have hUp : ((s.scopes.get s.current).rename ρ).parent = some (ρ.scope p) := by
      rw [Scope.rename, hParent, Option.map_some]
    simp only [hUp]
    exact ⟨_, rfl, h.scopes, h.globalScope_eq, rfl, Nat.lt_trans hLt h.current_lt⟩

theorem symbols_eq (h : Alike ρ s s') (currentOnly : Bool) :
    s'.symbols currentOnly = (s.symbols currentOnly).map (Symbol.rename ρ) := by
  have hAll : ∀ ids : List Nat, (ids.map ρ.scope).flatMap (fun i => (s'.scopes.get i).symbols) =
      (ids.flatMap fun i => (s.scopes.get i).symbols).map (Symbol.rename ρ) := by
    intro ids
    rw [List.flatMap_map, List.map_flatMap]
    refine List.flatMap_congr fun i _ => ?_
    rw [h.scopes.get_eq]
    rfl
  unfold SymbolTable.symbols
  rw [h.current_eq, h.scopes.chain_eq h.current_lt]
  cases currentOnly with
  | true => exact hAll [s.current]
  | false => exact hAll (s.scopes.chain s.current)

end Alike

end SymbolTable

end SemanticCore
