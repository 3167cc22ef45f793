import SemanticCore.Proofs.Context.Operation
import SemanticCore.Proofs.Context.Storage
import SemanticCore.Proofs.Renaming.Walks

/-!
# Contexts that are alike

Two contexts are alike up to a renaming if each of their services is. An operation on the one and
the renamed operation on the other have the same answer, up to the renaming, report the same, and
leave contexts that are alike again. Only what a new name gets cannot be told from the operation:
the names of the two interners have to go on to be alike.

* `ContextOp.events`: what an operation does to the names and the arena.
* `Context.Alike`: contexts that are alike.
* `ContextOp.apply_alike`: one operation.
-/

namespace SemanticCore

/-! ## What happens to names -/

namespace ContextOp

/-- What an operation does to the names and the arena. -/
def events : ContextOp → List StorageEvent
  | strings (.intern text) => [.intern text]
  | strings .forget => [.forget]
  | reset => [.resetArena, .forget]
  | _ => []

theorem events_rename (ρ : Renaming) (op : ContextOp) : (op.rename ρ).events = op.events := by
  cases op with
  | strings op => cases op <;> rfl
  | _ => rfl

end ContextOp

namespace Context

/-- The names and the arena. -/
def stored (c : Context) : Interner × Arena := (c.strings, c.arena)

/-- The names and the arena after a reset of the names are a pair `x`; proofs go on with `x`, as
comparing it by computation would intern the built-in names. -/
theorem exists_resetStrings (c : Context) :
    ∃ x, c.strings.reset c.arena = x ∧
      c.resetStrings = { c with strings := x.1, arena := x.2 } := by
  refine ⟨_, rfl, ?_⟩
  unfold resetStrings
  generalize c.strings.reset c.arena = x
  rfl

theorem exists_reset (c : Context) :
    ∃ x, c.strings.reset c.arena.reset = x ∧
      c.reset = { c with
        arena := x.2
        strings := x.1
        tree := c.tree.release
        types := c.types.clear
        logger := c.logger.clear
        symbols := SymbolTable.start c.symbols.scopes } := by
  refine ⟨_, rfl, ?_⟩
  unfold reset
  generalize c.strings.reset c.arena.reset = x
  rfl

theorem arena_reset (c : Context) : c.reset.arena = (c.strings.reset c.arena.reset).2 := by
  obtain ⟨x, hx, hReset⟩ := c.exists_reset
  rw [hReset, hx]

end Context

theorem StringOp.apply_rest (op : StringOp) (c : Context) :
    (op.apply c).2 =
      { c with strings := (op.apply c).2.strings, arena := (op.apply c).2.arena } := by
  cases op with
  | forget =>
    obtain ⟨x, -, hReset⟩ := c.exists_resetStrings
    have hApply : (StringOp.forget.apply c).2 = c.resetStrings := by rw [StringOp.apply]
    rw [hApply, hReset]
  | _ => rfl

theorem StringOp.kept_apply (op : StringOp) (c : Context) : c.arena.Kept (op.apply c).2.arena := by
  cases op with
  | intern text => exact c.strings.kept_intern c.arena text
  | forget =>
    obtain ⟨x, hx, hReset⟩ := c.exists_resetStrings
    have hKept := c.strings.kept_reset c.arena
    rw [hx] at hKept
    rw [apply, hReset]
    exact hKept
  | _ => exact .refl _

theorem Context.kept_reset (c : Context) : c.arena.reset.Kept c.reset.arena := by
  rw [arena_reset]
  exact c.strings.kept_reset c.arena.reset

theorem SymbolOp.stored_apply (op : SymbolOp) (c : Context) : (op.apply c).2.stored = c.stored := by
  cases op <;> rfl

/-- Operations change the names and the arena by their events alone. -/
theorem ContextOp.stored_apply (op : ContextOp) {c : Context} {x : Storage}
    (h : c.stored = (x.strings, x.arena)) :
    (op.apply c).2.stored =
      ((Storage.run op.events x).strings, (Storage.run op.events x).arena) := by
  obtain ⟨hStrings, hArena⟩ := Prod.mk.inj h
  cases op with
  | strings op =>
    cases op with
    | intern text =>
      show ((c.strings.intern c.arena text).2.1, (c.strings.intern c.arena text).2.2) = _
      rw [hStrings, hArena]
      rfl
    | forget =>
      obtain ⟨r, hr, hReset⟩ := c.exists_resetStrings
      have hApply : ((strings .forget).apply c).2 = c.resetStrings := by
        simp only [apply, StringOp.apply]
      rw [hStrings, hArena] at hr
      rw [hApply, hReset, events, Storage.run, List.foldl_cons, List.foldl_nil,
        Storage.apply_forget, hr]
      rfl
    | _ => exact h
  | edit e =>
    show (c.edit e).2.stored = _
    unfold Context.edit
    cases e.apply c.tree <;> exact h
  | symbols op => exact (op.stored_apply c).trans h
  | scopes op =>
    cases op with
    | within i action =>
      show (if i < c.symbols.scopes.items.size then _ else _ : Answer × Context).2.stored = _
      split <;> exact h
    | _ => exact h
  | log op => cases op <;> exact h
  | reset =>
    obtain ⟨r, hr, hReset⟩ := c.exists_reset
    have hApply : (ContextOp.reset.apply c).2 = c.reset := by simp only [apply]
    rw [hStrings, hArena] at hr
    have hr' : Interner.reset (StorageEvent.resetArena.apply x).strings
        (StorageEvent.resetArena.apply x).arena = r := hr
    rw [hApply, hReset, events, Storage.run, List.foldl_cons, List.foldl_cons, List.foldl_nil,
      Storage.apply_forget, hr']
    rfl
  | _ => exact h

/-! ## Logs -/

/-- Two logs that keep the same, and whose sinks got the same since they held what is given. The
sinks that were added since hold the same. -/
structure Logger.Alike (sinks sinks' : List (List Diagnostic)) (l l' : Logger) : Prop where
  kept_eq : l'.kept = l.kept
  news : ∃ (news : List Diagnostic) (added : List (List Diagnostic)),
    l.sinks = sinks.map (· ++ news) ++ added ∧ l'.sinks = sinks'.map (· ++ news) ++ added

namespace Logger.Alike

variable {sinks sinks' : List (List Diagnostic)} {l l' : Logger}

theorem report (h : Alike sinks sinks' l l') (d : Diagnostic) :
    Alike sinks sinks' (l.report d) (l'.report d) := by
  obtain ⟨news, added, hSinks, hSinks'⟩ := h.news
  have hMore : ∀ ss : List (List Diagnostic), (ss.map (· ++ news) ++ added).map (· ++ [d]) =
      ss.map (· ++ (news ++ [d])) ++ added.map (· ++ [d]) := by
    intro ss
    simp only [List.map_append, List.map_map, Function.comp_def, List.append_assoc]
  refine ⟨congrArg (· ++ [d]) h.kept_eq, news ++ [d], added.map (· ++ [d]), ?_, ?_⟩
  · rw [Logger.report, hSinks, hMore]
  · rw [Logger.report, hSinks', hMore]

theorem reportAll (h : Alike sinks sinks' l l') (ds : List Diagnostic) :
    Alike sinks sinks' (l.reportAll ds) (l'.reportAll ds) := by
  induction ds generalizing l l' with
  | nil => exact h
  | cons d ds ih => exact ih (h.report d)

theorem clear (h : Alike sinks sinks' l l') : Alike sinks sinks' l.clear l'.clear := ⟨rfl, h.news⟩

theorem addSink (h : Alike sinks sinks' l l') : Alike sinks sinks' l.addSink l'.addSink := by
  obtain ⟨news, added, hSinks, hSinks'⟩ := h.news
  refine ⟨h.kept_eq, news, added ++ [[]], ?_, ?_⟩
  · rw [Logger.addSink, hSinks, List.append_assoc]
  · rw [Logger.addSink, hSinks', List.append_assoc]

/-- The sinks that were added hold the same. -/
theorem sink_eq (h : Alike sinks sinks' l l') (i : Nat) :
    l'.sink (sinks'.length + i) = l.sink (sinks.length + i) := by
  obtain ⟨news, added, hSinks, hSinks'⟩ := h.news
  simp [Logger.sink, hSinks, hSinks', List.getElem?_append_right]

theorem clearSink (h : Alike sinks sinks' l l') (i : Nat) :
    Alike sinks sinks' (l.clearSink (sinks.length + i)) (l'.clearSink (sinks'.length + i)) := by
  obtain ⟨news, added, hSinks, hSinks'⟩ := h.news
  have hSet : ∀ ss : List (List Diagnostic), (ss.map (· ++ news) ++ added).set (ss.length + i) [] =
      ss.map (· ++ news) ++ added.set i [] := by
    intro ss
    rw [List.set_append_right _ _ (by simp), List.length_map, Nat.add_sub_cancel_left]
  refine ⟨h.kept_eq, news, added.set i [], ?_, ?_⟩
  · rw [Logger.clearSink, hSinks, hSet]
  · rw [Logger.clearSink, hSinks', hSet]

end Logger.Alike

/-! ## Contexts -/

/-- Two contexts whose services are alike. -/
structure Context.Alike (ρ : Renaming) (sinks sinks' : List (List Diagnostic)) (c c' : Context) :
    Prop where
  file_eq : c'.file = c.file
  names : c.strings.Alike ρ c'.strings
  blockSize_eq : c'.arena.blockSize = c.arena.blockSize
  tree_eq : c'.tree = c.tree.rename ρ
  logger : Logger.Alike sinks sinks' c.logger c'.logger
  types : c.types.Alike ρ c'.types
  symbols : c.symbols.Alike ρ c'.symbols

variable {ρ : Renaming} {sinks sinks' : List (List Diagnostic)} {c c' : Context}

/-! ## Names -/

/-- The answers about names, given that the names are alike after the operation, too. -/
theorem StringOp.answer_eq (h : c.strings.Alike ρ c'.strings) (op : StringOp)
    (hNext : (op.apply c).2.strings.Alike ρ ((op.rename ρ).apply c').2.strings) :
    ((op.rename ρ).apply c').1 = (op.apply c).1.rename ρ := by
  cases op with
  | intern text =>
    have hAfter : (c.intern text).2.strings.Alike ρ (c'.intern text).2.strings := hNext
    have hName : (c.intern text).2.strings.lookup? text = some (c.intern text).1 :=
      c.strings.lookup?_intern c.arena text
    have hName' : (c'.intern text).2.strings.lookup? text = some (c'.intern text).1 :=
      c'.strings.lookup?_intern c'.arena text
    exact congrArg Answer.name (by rw [← hName, ← hName', hAfter.lookup?_eq])
  | lookup text => exact congrArg Answer.name (h.lookup?_eq text)
  | builtin text =>
    refine congrArg Answer.name ?_
    rw [Interner.builtin?, Interner.builtin?, h.lookup?_eq, Option.filter_map]
    congr 2
    exact funext fun n => h.isBuiltin_eq n
  | empty => exact congrArg (fun n => Answer.name (some n)) h.empty_eq
  | builtins => exact congrArg Answer.names h.builtins_eq
  | isBuiltin n => exact congrArg Answer.truth (h.isBuiltin_eq n)
  | isKeyword n => exact congrArg Answer.truth (h.isKeyword_eq n)
  | compare m n => exact congrArg Answer.order (ρ.order_name m n)
  | count =>
    refine congrArg Answer.count ?_
    rw [Interner.count, h.names_eq, List.length_map, Interner.count]
  | memoryUsed => exact congrArg Answer.count h.memoryUsed_eq
  | forget => rfl

/-! ## Nodes -/

/-- An edit of a renamed tree. -/
theorem NodeEdit.apply_rename (e : NodeEdit) (t : Tree) :
    (e.rename ρ).apply (t.rename ρ) = outcome ρ (ρ.edited id) (e.apply t) := by
  have hDone : ∀ {x y : Except SyntaxError Tree}, y = outcome ρ (Tree.rename ρ) x →
      (do return (true, ← y)) = outcome ρ (ρ.edited id) (do return (true, ← x)) :=
    fun hxy => outcome_bind hxy fun _ => rfl
  cases e with
  | addChild parent child => exact hDone (t.addChild_rename parent child)
  | insertChild parent index child => exact hDone (t.insertChild_rename parent index child)
  | removeChild parent child => exact t.removeChild_rename parent child
  | replaceChild parent old next => exact t.replaceChild_rename parent old next
  | addAttribute owner added => exact hDone (t.addAttribute_rename owner added)
  | removeAttribute owner removed => exact t.removeAttribute_rename owner removed
  | setFlag h flag => exact hDone (t.updateFlags_rename h _)
  | clearFlag h flag => exact hDone (t.updateFlags_rename h _)
  | toggleFlag h flag => exact hDone (t.updateFlags_rename h _)
  | clearAllFlags h => exact hDone (t.updateFlags_rename h _)
  | setType h type => exact hDone (t.setType_rename h type)
  | setMetadata h key value => exact hDone (t.setMetadata_rename h key value)
  | removeMetadata h key => exact t.removeMetadata_rename h key

theorem NodeQuery.answer_rename (q : NodeQuery) (t : Tree) :
    (q.rename ρ).answer (t.rename ρ) = (q.answer t).rename ρ := by
  cases q with
  | size => exact congrArg Answer.count Tree.size_rename
  | all => exact congrArg Answer.nodes Tree.nodes_rename
  | node h => exact Answer.of_outcome (t.node_rename h) fun _ => rfl
  | child parent index => exact Answer.of_outcome (t.child_rename parent index) fun _ => rfl
  | firstChild parent => exact Answer.of_outcome (t.firstChild_rename parent) fun _ => rfl
  | lastChild parent => exact Answer.of_outcome (t.lastChild_rename parent) fun _ => rfl
  | childCount parent =>
    exact Answer.of_outcome (f := id) (Tree.read_rename fun n => List.length_map _) fun _ => rfl
  | childNodes parent => exact Answer.of_outcome (t.childNodes_rename parent) fun _ => rfl
  | attributeAt owner index =>
    exact Answer.of_outcome (t.attributeAt_rename owner index) fun _ => rfl
  | attributeCount owner =>
    exact Answer.of_outcome (f := id) (Tree.read_rename fun n => List.length_map _) fun _ => rfl
  | findAttribute owner name =>
    exact Answer.of_outcome (t.findAttribute_rename owner name) fun _ => rfl
  | ancestors h => exact Answer.of_outcome (t.ancestors_rename h) fun _ => rfl
  | depth h => exact Answer.of_outcome (t.depth_rename h) fun _ => rfl
  | root h => exact Answer.of_outcome (t.root_rename h) fun _ => rfl
  | hasFlag h flag =>
    exact Answer.of_outcome (f := id) (Tree.read_rename fun _ => rfl) fun _ => rfl
  | hasAnyFlag h mask =>
    exact Answer.of_outcome (f := id) (Tree.read_rename fun _ => rfl) fun _ => rfl
  | hasAllFlags h mask =>
    exact Answer.of_outcome (f := id) (Tree.read_rename fun _ => rfl) fun _ => rfl
  | typeOf h =>
    exact Answer.of_outcome (f := Option.map (Ty.rename ρ)) (Tree.read_rename fun _ => rfl)
      fun _ => rfl
  | metadata h key => exact Answer.of_outcome (t.getMetadata_rename h key) fun _ => rfl
  | metadataAs h key kind =>
    exact Answer.of_outcome (t.getMetadataAs_rename h key kind) fun _ => rfl
  | hasMetadata h key => exact Answer.of_outcome (t.hasMetadata_rename h key) fun _ => rfl
  | walk h pruned => exact Answer.of_outcome (Tree.walk_rename (fun _ => rfl) h) fun _ => rfl
  | collect h kind => exact Answer.of_outcome (t.collect_rename h kind) fun _ => rfl
  | count h => exact Answer.of_outcome (t.count_rename h) fun _ => rfl
  | find h kind => exact Answer.of_outcome (t.find?_rename h kind) fun _ => rfl
  | print h => exact Answer.of_outcome (t.print_rename h) fun _ => rfl

/-! ## Types -/

theorem Registry.Alike.answer_eq {r r' : Registry} (h : r.Alike ρ r') (call : TypeCall) :
    r'.answer (call.rename ρ) = (r.answer call).rename ρ := by
  obtain ⟨after, hCall, -⟩ := h.call call
  cases call with
  | array element length =>
    have hType : (r'.array (element.rename ρ) length).1.toOption =
        (r.array element length).1.toOption.map (Ty.rename ρ) := congrArg Prod.fst hCall
    simp only [TypeCall.rename, answer, array] at hType ⊢
    revert hType
    cases length.toNat? with
    | none => exact fun _ => rfl
    | some n => exact congrArg Answer.type
  | _ => exact congrArg Answer.type (congrArg Prod.fst hCall)

/-! ## Operations -/

theorem StringOp.apply_alike (h : c.Alike ρ sinks sinks' c') (op : StringOp)
    (hNext : (op.apply c).2.strings.Alike ρ ((op.rename ρ).apply c').2.strings) :
    (op.apply c).2.Alike ρ sinks sinks' ((op.rename ρ).apply c').2 := by
  have hKept := op.kept_apply c
  have hKept' := (op.rename ρ).kept_apply c'
  have hRest := op.apply_rest c
  have hRest' := (op.rename ρ).apply_rest c'
  generalize (op.apply c).2 = d at hNext hKept hRest ⊢
  generalize ((op.rename ρ).apply c').2 = d' at hNext hKept' hRest' ⊢
  have hBlockSize : d'.arena.blockSize = d.arena.blockSize := by
    rw [hKept'.blockSize_eq, h.blockSize_eq, hKept.blockSize_eq]
  rw [hRest, hRest']
  exact { h with names := hNext, blockSize_eq := hBlockSize }

theorem Context.build_alike (h : c.Alike ρ sinks sinks' c') (form : Form)
    (location : Option Location) :
    (c'.build (form.rename ρ) location).1 = outcome ρ ρ.node (c.build form location).1 ∧
      (c.build form location).2.Alike ρ sinks sinks' (c'.build (form.rename ρ) location).2 := by
  have hDefault : c'.defaultLocation = c.defaultLocation := by
    rw [defaultLocation, place, h.file_eq, defaultLocation, place]
  have hRenamed : Build.Renamed ρ ρ.node _ _ :=
    form.build_rename (location.getD c.defaultLocation)
  have hBuild := hRenamed c.tree
  rw [← h.tree_eq] at hBuild
  unfold Context.build
  rw [hDefault]
  exact ⟨congrArg Prod.fst hBuild, { h with tree_eq := congrArg Prod.snd hBuild }⟩

theorem Context.edit_alike (h : c.Alike ρ sinks sinks' c') (e : NodeEdit) :
    (c'.edit (e.rename ρ)).1 = (c.edit e).1.rename ρ ∧
      (c.edit e).2.Alike ρ sinks sinks' (c'.edit (e.rename ρ)).2 := by
  have hApply : (e.rename ρ).apply (c.tree.rename ρ) = _ := e.apply_rename c.tree
  rw [← h.tree_eq] at hApply
  unfold Context.edit
  rw [hApply]
  cases e.apply c.tree with
  | error e => exact ⟨rfl, h⟩
  | ok x => exact ⟨rfl, { h with tree_eq := rfl }⟩

theorem SymbolOp.apply_alike (h : c.Alike ρ sinks sinks' c') (op : SymbolOp) :
    ((op.rename ρ).apply c').1 = (op.apply c).1.rename ρ ∧
      (op.apply c).2.Alike ρ sinks sinks' ((op.rename ρ).apply c').2 := by
  cases op with
  | define name declaration location =>
    obtain ⟨table, hDefine, hTable⟩ := h.symbols.define (t := c.tree) name declaration location
    simp only [rename, apply, Context.define, h.tree_eq, hDefine]
    exact ⟨rfl, { h with tree_eq := rfl, symbols := hTable, logger := h.logger.reportAll _ }⟩
  | lookup name location reference =>
    obtain ⟨table, hLookup, hTable⟩ := h.symbols.lookup name location reference
    simp only [rename, apply, Context.lookup, hLookup]
    exact ⟨rfl, { h with symbols := hTable, logger := h.logger.reportAll _ }⟩
  | find name => exact ⟨congrArg SymbolAnswer.symbol (h.symbols.find?_eq name), h⟩
  | update name reference =>
    obtain ⟨table, hUpdate, hTable⟩ := h.symbols.updateReference name (some reference)
    rw [Option.map_some] at hUpdate
    simp only [rename, apply, Context.updateReference, hUpdate]
    exact ⟨rfl, { h with symbols := hTable }⟩
  | push node =>
    obtain ⟨table, hPush, hTable⟩ := h.symbols.push node
    simp only [rename, apply, Context.pushScope, hPush]
    exact ⟨rfl, { h with symbols := hTable }⟩
  | pop location =>
    obtain ⟨table, hPop, hTable⟩ := h.symbols.pop (t := c.tree) location
    simp only [rename, apply, Context.popScope, h.tree_eq, hPop]
    exact ⟨rfl, { h with tree_eq := rfl, symbols := hTable, logger := h.logger.reportAll _ }⟩
  | symbols currentOnly =>
    exact ⟨congrArg SymbolAnswer.symbols (h.symbols.symbols_eq currentOnly), h⟩

theorem Context.Alike.withScopes (h : c.Alike ρ sinks sinks' c') {scopes scopes' : Scopes}
    (hScopes : scopes.Alike ρ scopes') (hSize : c.symbols.scopes.items.size ≤ scopes.items.size) :
    (c.withScopes scopes).Alike ρ sinks sinks' (c'.withScopes scopes') :=
  { h with
    symbols :=
      { h.symbols with
        scopes := hScopes
        current_lt := Nat.lt_of_lt_of_le h.symbols.current_lt hSize } }

theorem ScopeAction.apply_alike {s s' : Scopes} (h : s.Alike ρ s') {i : Nat}
    (hi : i < s.items.size) (action : ScopeAction) :
    ((action.rename ρ).apply s' (ρ.scope i)).1 = (action.apply s i).1.rename ρ ∧
      (action.apply s i).2.Alike ρ ((action.rename ρ).apply s' (ρ.scope i)).2 ∧
      s.items.size ≤ (action.apply s i).2.items.size := by
  cases action with
  | createChild node =>
    obtain ⟨hId, hScopes⟩ := h.createChild hi node
    exact ⟨congrArg Answer.scope hId, hScopes, (s.size_createChild i node).symm ▸ Nat.le_succ _⟩
  | define name declaration =>
    obtain ⟨hSymbol, hScopes⟩ := h.define hi name declaration
    exact ⟨congrArg Answer.symbol hSymbol, hScopes, (s.size_define i name declaration).ge⟩
  | contents => exact ⟨congrArg Answer.contents (h.get_eq i), h, Nat.le_refl _⟩
  | find name => exact ⟨congrArg Answer.symbol (h.find?_eq name), h, Nat.le_refl _⟩
  | resolve name => exact ⟨congrArg Answer.binding (h.resolve?_eq hi name), h, Nat.le_refl _⟩

theorem ScopeOp.apply_alike (h : c.Alike ρ sinks sinks' c') (op : ScopeOp) :
    ((op.rename ρ).apply c').1 = (op.apply c).1.rename ρ ∧
      (op.apply c).2.Alike ρ sinks sinks' ((op.rename ρ).apply c').2 := by
  cases op with
  | global => exact ⟨congrArg Answer.scope h.symbols.globalScope_eq, h⟩
  | current => exact ⟨congrArg Answer.scope h.symbols.current_eq, h⟩
  | level => exact ⟨congrArg Answer.count h.symbols.level_eq, h⟩
  | create node =>
    obtain ⟨hId, hScopes⟩ := h.symbols.scopes.create node
    refine ⟨congrArg Answer.scope hId, h.withScopes hScopes ?_⟩
    rw [Scopes.create, Array.size_push]
    exact Nat.le_succ _
  | within i action =>
    simp only [rename, apply, h.symbols.scopes.lt_iff]
    split
    · rename_i hi
      obtain ⟨hAnswer, hScopes, hSize⟩ := action.apply_alike h.symbols.scopes hi
      exact ⟨hAnswer, h.withScopes hScopes hSize⟩
    · exact ⟨rfl, h⟩

theorem LogOp.apply_alike (h : c.Alike ρ sinks sinks' c') (op : LogOp) :
    (op.apply c').1 = (op.apply c).1.rename ρ ∧
      (op.apply c).2.Alike ρ sinks sinks' (op.apply c').2 := by
  have hKept := h.logger.kept_eq
  have hCount : ∀ s, c'.logger.count s = c.logger.count s := fun s => by
    rw [Logger.count, hKept, Logger.count]
  cases op with
  | report d => exact ⟨rfl, { h with logger := h.logger.report d }⟩
  | count s => exact ⟨congrArg Answer.count (hCount s), h⟩
  | hasErrors =>
    refine ⟨congrArg Answer.truth ?_, h⟩
    rw [Logger.hasErrors, hCount, hCount, Logger.hasErrors]
  | kept => exact ⟨congrArg Answer.diagnostics hKept, h⟩
  | format source =>
    exact ⟨congrArg (fun ds => Answer.formatted (Diagnostic.formatAll ds source)) hKept, h⟩
  | clear => exact ⟨rfl, { h with logger := h.logger.clear }⟩

theorem Context.reset_alike (h : c.Alike ρ sinks sinks' c')
    (hNext : c.reset.strings.Alike ρ c'.reset.strings) :
    c.reset.Alike ρ sinks sinks' c'.reset := by
  have hKept := c.kept_reset
  have hKept' := c'.kept_reset
  obtain ⟨x, -, hReset⟩ := c.exists_reset
  obtain ⟨x', -, hReset'⟩ := c'.exists_reset
  rw [hReset, hReset'] at hNext
  rw [hReset] at hKept ⊢
  rw [hReset'] at hKept' ⊢
  exact
    { file_eq := h.file_eq
      names := hNext
      blockSize_eq := hKept'.blockSize_eq.trans (h.blockSize_eq.trans hKept.blockSize_eq.symm)
      tree_eq := (congrArg Tree.release h.tree_eq).trans Tree.release_rename
      logger := h.logger.clear
      types := h.types.clear
      symbols := SymbolTable.Alike.start h.symbols.scopes }

/-- One operation on contexts that are alike, if what is new among the names is alike. -/
theorem ContextOp.apply_alike (h : c.Alike ρ sinks sinks' c') (op : ContextOp)
    (hNext : (op.apply c).2.strings.Alike ρ ((op.rename ρ).apply c').2.strings) :
    ((op.rename ρ).apply c').1 = (op.apply c).1.rename ρ ∧
      (op.apply c).2.Alike ρ sinks sinks' ((op.rename ρ).apply c').2 := by
  cases op with
  | strings op => exact ⟨op.answer_eq h.names hNext, op.apply_alike h hNext⟩
  | build form location =>
    obtain ⟨hResult, hAfter⟩ := Context.build_alike h form location
    exact ⟨Answer.of_outcome hResult fun _ => rfl, hAfter⟩
  | edit e => exact Context.edit_alike h e
  | ask q =>
    refine ⟨?_, h⟩
    show (q.rename ρ).answer c'.tree = _
    rw [h.tree_eq]
    exact q.answer_rename c.tree
  | types call =>
    refine ⟨h.types.answer_eq call, ?_⟩
    obtain ⟨after, hCall, hAfter⟩ := h.types.call call
    simp only [rename, apply, hCall]
    exact { h with types := hAfter }
  | typeCount => exact ⟨congrArg Answer.count h.types.count_eq, h⟩
  | symbols op =>
    obtain ⟨hAnswer, hAfter⟩ := op.apply_alike h
    exact ⟨congrArg Answer.symbols hAnswer, hAfter⟩
  | scopes op => exact op.apply_alike h
  | log op => exact op.apply_alike h
  | place line column offset =>
    refine ⟨congrArg Answer.location ?_, h⟩
    rw [Context.place, h.file_eq, Context.place]
  | info =>
    simp only [rename, apply, h.file_eq, h.blockSize_eq, h.types.pointerSize_eq]
    exact ⟨rfl, h⟩
  | reset =>
    simp only [rename, apply] at hNext ⊢
    exact ⟨rfl, Context.reset_alike h hNext⟩

end SemanticCore
