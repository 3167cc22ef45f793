import SemanticCore.Proofs.Scope.Trace

/-!
# Unused symbols

Whenever a scope inside the global one is left, the symbols that were defined in it and not referred
to are reported, each of them once and in the order of definition, and nothing else is. No scope is
left twice, so no symbol is reported twice.

* `SymbolEvent.reports`: the symbols that are reported in a run.
* `SymbolOp.UnusedReported`: what it means that unused symbols are reported exactly.
* `SymbolOp.unusedReported`: they are, in every run on a new table.
-/

namespace SemanticCore

namespace SymbolEvent

/-- The symbols that are reported in the course of some events, each with its scope: whenever a
scope is left, those that were defined in it and not referred to before. -/
def reports (before : List SymbolEvent) : List SymbolEvent → List (ScopeId × Name)
  | [] => []
  | e :: es =>
    (e.left?.toList.flatMap fun scope => (unused before scope).map fun x => (scope, x.1)) ++
      reports (before ++ [e]) es

variable {before es : List SymbolEvent}

theorem left_of_mem_reports {r : ScopeId × Name} (h : r ∈ reports before es) : .left r.1 ∈ es := by
  induction es generalizing before with
  | nil => cases h
  | cons e es ih =>
    rcases List.mem_append.mp h with hHere | hLater
    · cases e with
      | left scope =>
        rw [left?, Option.toList_some, List.flatMap_singleton] at hHere
        obtain ⟨x, -, rfl⟩ := List.mem_map.mp hHere
        exact List.mem_cons_self
      | _ => cases hHere
    · exact List.mem_cons_of_mem e (ih hLater)

theorem unused_names_sublist (before es : List SymbolEvent) (scope : ScopeId) :
    ((unused before scope).map Prod.fst).Sublist
      ((definitions (before ++ es) scope).map Prod.fst) := by
  rw [definitions_append]
  exact (List.filter_sublist.trans (List.sublist_append_left _ _)).map Prod.fst

/-- If names are not defined twice in a scope and scopes not left twice, no symbol is reported
twice. -/
theorem nodup_reports
    (hNames : ∀ scope, .left scope ∈ es → ((definitions (before ++ es) scope).map Prod.fst).Nodup)
    (hLeft : (es.filterMap left?).Nodup) : (reports before es).Nodup := by
  induction es generalizing before with
  | nil => exact .nil
  | cons e es ih =>
    have hSplit : before ++ e :: es = before ++ [e] ++ es := by simp
    have hLater : (reports (before ++ [e]) es).Nodup := by
      apply ih
      · intro scope hMem
        rw [← hSplit]
        exact hNames scope (List.mem_cons_of_mem e hMem)
      · exact hLeft.sublist ((List.sublist_cons_self e es).filterMap left?)
    cases e with
    | left scope =>
      have hHere : ((unused before scope).map fun x => (scope, x.1)).Nodup := by
        have hFst := (hNames scope List.mem_cons_self).sublist
          (unused_names_sublist before (.left scope :: es) scope)
        have hMap : ((unused before scope).map fun x => (scope, x.1)) =
            ((unused before scope).map Prod.fst).map (scope, ·) := by
          rw [List.map_map]
          rfl
        rw [hMap]
        exact hFst.map fun a b h => (Prod.mk.inj h).2
      have hApart : ∀ r ∈ (unused before scope).map fun x => (scope, x.1),
          r ∉ reports (before ++ [.left scope]) es := by
        intro r hr hAgain
        obtain ⟨x, -, rfl⟩ := List.mem_map.mp hr
        have hOther : scope ∈ es.filterMap left? :=
          List.mem_filterMap.mpr ⟨_, left_of_mem_reports hAgain, rfl⟩
        exact (List.nodup_cons.mp hLeft).1 hOther
      simp only [reports, left?, Option.toList_some, List.flatMap_singleton]
      exact List.nodup_append.mpr ⟨hHere, hLater, fun r hr r' hr' hEq =>
        hApart r hr (hEq ▸ hr')⟩
    | _ => exact hLater

end SymbolEvent

/-! ## What operations report -/

namespace SymbolIssue

theorem head_message_unused (name : Name) :
    (SymbolIssue.unused name).message.toList.head? = some 'U' := by
  have hHead : "Unused symbol '".toList.head? = some 'U' := by decide
  show ("Unused symbol '" ++ name.text ++ "'").toList.head? = some 'U'
  rw [String.toList_append, String.toList_append, List.append_assoc, List.head?_append, hHead,
    Option.some_or]

/-- No other issue reads like an unused symbol. -/
theorem diagnostic_ne_unused {i : SymbolIssue} (hIssue : ∀ name, i ≠ .unused name)
    (location location' : Location) (notes notes' : List Note) (name : Name) :
    i.diagnostic location notes ≠ (SymbolIssue.unused name).diagnostic location' notes' := by
  intro hEq
  have hSeverity : i.severity = .warning := congrArg Diagnostic.severity hEq
  have hMessage : i.message = (SymbolIssue.unused name).message := congrArg Diagnostic.message hEq
  cases i with
  | unused other => exact hIssue other rfl
  | popGlobal =>
    have hHead := head_message_unused name
    rw [← hMessage] at hHead
    exact absurd hHead (by decide)
  | _ => cases hSeverity

end SymbolIssue

/-- A logger after reports none of which is an unused symbol. It keeps them, and so does each of its
sinks. -/
def Logger.Quietly (l l' : Logger) : Prop :=
  ∃ ds, l' = { kept := l.kept ++ ds, sinks := l.sinks.map (· ++ ds) } ∧
    ∀ d ∈ ds, ∀ name location, d ≠ (SymbolIssue.unused name).diagnostic location

namespace Logger.Quietly

theorem refl (l : Logger) : l.Quietly l := ⟨[], by simp, List.forall_mem_nil _⟩

theorem of_issue (l : Logger) {i : SymbolIssue} (hIssue : ∀ name, i ≠ .unused name)
    (place : Location) (notes : List Note) :
    l.Quietly (l.reportAll [i.diagnostic place notes]) := by
  refine ⟨_, l.reportAll_eq _, ?_⟩
  intro d hd name location
  rw [List.mem_singleton.mp hd]
  exact SymbolIssue.diagnostic_ne_unused hIssue place location notes [] name

end Logger.Quietly

namespace SymbolOp

variable {first : Nat} {c : Context} {es : List SymbolEvent}

/-- Leaving a scope reports the symbols that were defined in it and not referred to. -/
theorem logger_pop (h : c.symbols.Traced first es)
    (hInner : c.symbols.current ≠ c.symbols.globalScope) (location : Location) :
    ((SymbolOp.pop location).apply c).2.logger =
      let ds := (SymbolEvent.unused es c.symbols.current).map fun x =>
        (SymbolIssue.unused x.1).diagnostic
          ((x.2.bind c.tree.get?).elim Location.unknown Node.location)
      { kept := c.logger.kept ++ ds, sinks := c.logger.sinks.map (· ++ ds) } := by
  obtain ⟨parent, hParent⟩ := h.rooted.exists_parent hInner
  simp only [← Tree.locationOf_eq, ← Logger.reportAll_eq]
  rw [← h.recorded.unused_eq h.rooted.first_le, List.map_map]
  simp only [apply, Context.popScope, SymbolTable.pop, hParent]
  rfl

theorem event?_pop (h : c.symbols.Traced first es)
    (hInner : c.symbols.current ≠ c.symbols.globalScope) (location : Location) :
    (SymbolOp.pop location).event? c.symbols = some (.left c.symbols.current) := by
  obtain ⟨parent, hParent⟩ := h.rooted.exists_parent hInner
  rw [event?, hParent]
  rfl

theorem parent_of_event?_left {op : SymbolOp} {t : SymbolTable} {scope : ScopeId}
    (h : op.event? t = some (.left scope)) :
    (∃ location, op = .pop location) ∧ (t.scopes.get t.current).parent ≠ none := by
  cases op with
  | pop location =>
    obtain ⟨parent, hParent, -⟩ := Option.map_eq_some_iff.mp h
    exact ⟨⟨location, rfl⟩, by simp [hParent]⟩
  | define name declaration location =>
    obtain ⟨x, -, hEq⟩ := Option.map_eq_some_iff.mp h
    cases hEq
  | lookup name location reference =>
    cases reference with
    | none => cases h
    | some node =>
      obtain ⟨found, -, hEq⟩ := Option.map_eq_some_iff.mp h
      cases hEq
  | update name reference =>
    obtain ⟨found, -, hEq⟩ := Option.map_eq_some_iff.mp h
    cases hEq
  | _ => cases h

/-- No other operation reports an unused symbol. -/
theorem quietly_of_not_left (op : SymbolOp) (c : Context)
    (hStay : ∀ scope, op.event? c.symbols ≠ some (.left scope)) :
    c.logger.Quietly (op.apply c).2.logger := by
  have hIssue : ∀ (i : SymbolIssue) (place : Location) (notes : List Note),
      (∀ name, i ≠ .unused name) →
      c.logger.Quietly (c.logger.reportAll [i.diagnostic place notes]) :=
    fun i place notes h => .of_issue c.logger h place notes
  cases op with
  | define name declaration location =>
    cases hDefine : (c.symbols.scopes.get c.symbols.current).define? name declaration <;>
      simp only [apply, Context.define, SymbolTable.define, Scopes.define, hDefine]
    · exact hIssue (.redefinition name) location _ fun _ => SymbolIssue.noConfusion
    · exact .refl c.logger
  | lookup name location reference =>
    cases hResolve : c.symbols.scopes.resolve? c.symbols.current name <;>
      simp only [apply, Context.lookup, SymbolTable.lookup, hResolve]
    · exact hIssue (.undeclared name) location [] fun _ => SymbolIssue.noConfusion
    · exact .refl c.logger
  | pop location =>
    cases hParent : (c.symbols.scopes.get c.symbols.current).parent with
    | some parent => exact absurd (by rw [event?, hParent]; rfl) (hStay c.symbols.current)
    | none =>
      simp only [apply, Context.popScope, SymbolTable.pop, hParent]
      exact hIssue .popGlobal location [] fun _ => SymbolIssue.noConfusion
  | _ => exact .refl c.logger

/-! ## Runs -/

/-- In a run, unused symbols are reported exactly: when a scope inside the global one is left, those
that were defined in it and not referred to, each where the node of its declaration is, and by no
other operation. Such a scope is not the current one again, no symbol is reported twice, and none of
the global scope is. -/
structure UnusedReported (start : Context) (ops : List (Tree × SymbolOp)) : Prop where
  popped : ∀ before tree location after c, ops = before ++ (tree, .pop location) :: after →
    (run start before).2 = c → c.symbols.current ≠ c.symbols.globalScope →
    ((SymbolOp.pop location).apply { c with tree }).2.logger =
      let ds := (SymbolEvent.unused (events start before) c.symbols.current).map fun x =>
        (SymbolIssue.unused x.1).diagnostic
          ((x.2.bind tree.get?).elim Location.unknown Node.location)
      { kept := c.logger.kept ++ ds, sinks := c.logger.sinks.map (· ++ ds) }
  quiet : ∀ before tree op after c, ops = before ++ (tree, op) :: after →
    (run start before).2 = c →
    ((∃ location, op = .pop location) → c.symbols.current = c.symbols.globalScope) →
    c.logger.Quietly (op.apply { c with tree }).2.logger
  left_for_good : ∀ before tree location after c, ops = before ++ (tree, .pop location) :: after →
    (run start before).2 = c → c.symbols.current ≠ c.symbols.globalScope →
    (run start ops).2.symbols.current ≠ c.symbols.current
  nodup : (SymbolEvent.reports [] (events start ops)).Nodup
  not_global : ∀ r ∈ SymbolEvent.reports [] (events start ops), r.1 ≠ start.symbols.globalScope

theorem nodup_reports_of_traced {t : SymbolTable} (h : t.Traced first es) :
    (SymbolEvent.reports [] es).Nodup := by
  refine SymbolEvent.nodup_reports ?_ h.rooted.left_nodup
  intro scope hMem
  have hFirst := Nat.le_of_lt (h.rooted.left scope hMem).1
  rw [List.nil_append, ← h.recorded.definitions scope hFirst, List.map_map]
  exact (h.rooted.nested.numbered scope hFirst).nodup

/-- What is said of a new table holds of every table with nothing behind it. -/
theorem unusedReported_of_traced (h : c.symbols.Traced first [])
    (ops : List (Tree × SymbolOp)) : UnusedReported c ops := by
  have hTraced : ∀ before, (run c before).2.symbols.Traced first (events c before) := by
    intro before
    simpa using traced_run h before
  refine ⟨?_, ?_, ?_, nodup_reports_of_traced (hTraced ops), ?_⟩
  · rintro before tree location after _ - rfl hInner
    exact logger_pop (c := { (run c before).2 with tree }) (hTraced before) hInner location
  · rintro before tree op after _ - rfl hOuter
    refine quietly_of_not_left op { (run c before).2 with tree } fun scope hEvent => ?_
    obtain ⟨hPop, hParent⟩ := parent_of_event?_left hEvent
    have hRooted := (hTraced before).rooted
    apply hParent
    rw [hRooted.parent_eq_none _ hRooted.first_le hRooted.current_lt, ← hRooted.globalScope_eq]
    exact hOuter hPop
  · rintro before tree location after _ hOps rfl hInner hAgain
    have hLeft : .left (run c before).2.symbols.current ∈ events c ops := by
      rw [hOps, events_append, events, event?_pop (hTraced before) hInner]
      simp
    -- the current scope is around itself, and the scope that was left is around it no more
    have hOff := ((hTraced ops).rooted.left _ hLeft).2.2
    rw [← hAgain] at hOff
    exact hOff (Scopes.mem_chain_self _ _)
  · intro r hMem hGlobal
    have hInner := ((hTraced ops).rooted.left r.1 (SymbolEvent.left_of_mem_reports hMem)).1
    exact Nat.ne_of_gt hInner (hGlobal.trans h.rooted.globalScope_eq)

/-- Every run on a new table, over any store of scopes, reports unused symbols exactly. -/
theorem unusedReported (c : Context) (scopes : Scopes) (ops : List (Tree × SymbolOp)) :
    UnusedReported { c with symbols := SymbolTable.start scopes } ops :=
  unusedReported_of_traced (SymbolTable.traced_start scopes) ops

end SymbolOp

end SemanticCore
