import SemanticCore.Proofs.Syntax.Growth

/-!
# Building nodes from children

A construct takes children one by one and in lists. Most of them leave no gap where they are absent;
but what may be left out between others, as the type of a variable before its first value, has a
place of its own, at which a no-op stands then (`Form.Takes`). Whatever the children were before,
also children of one another, they become those of the new node, and nothing else changes
(`Tree.Built`).

* `Form.Takes.exists_form`: every call has a form with the slots for its arguments.
* `ChildEdit.built_run`: what building does, and when it is refused.
-/

namespace SemanticCore

/-! ## Arguments -/

/-- The children that a construct is given, in order. Those of `placed` have places of their own. -/
structure Arguments where
  first : List (Option NodeId) := []
  placed : List (Option NodeId) := []
  last : List (Option NodeId) := []
  deriving DecidableEq, Repr

namespace Arguments

variable {args : Arguments} {new : List NodeId} {k : NodeId}

/-- The children that are not absent. -/
def nodes (args : Arguments) : List NodeId := (args.first ++ args.placed ++ args.last).reduceOption

def absent (args : Arguments) : Nat := args.placed.count none

/-- The children of the new node, where new nodes stand at the places of absent ones. -/
def fill (args : Arguments) (new : List NodeId) : List NodeId :=
  args.first.reduceOption ++ fillPlaces args.placed new ++ args.last.reduceOption

def slots (args : Arguments) : List Slot :=
  args.first.map .given ++ (args.placed.map .filled ++ args.last.map .given)

theorem fill_perm (h : new.length = args.absent) : (args.fill new).Perm (args.nodes ++ new) := by
  rw [fill, nodes, List.reduceOption_append, List.reduceOption_append]
  refine (((fillPlaces_perm h).append_left _).append_right _).trans ?_
  simp only [List.append_assoc]
  exact (List.perm_append_comm.append_left _).append_left _

/-- The new node's children, with the absent ones that leave no gap. -/
def held (args : Arguments) (new : List NodeId) : List (Option NodeId) :=
  args.first ++ ((fillPlaces args.placed new).map some ++ args.last)

theorem reduceOption_held : (args.held new).reduceOption = args.fill new := by
  have hSome : ∀ l : List NodeId, (l.map some).reduceOption = l := by simp [List.reduceOption]
  rw [held, fill, List.reduceOption_append, List.reduceOption_append, hSome, List.append_assoc]

end Arguments

/-! ## What the constructs take -/

/-- What each call of a construct with children makes of its arguments: which of them come in a row
without gaps, and which have places of their own. -/
inductive Form.Takes : Except SyntaxError Form → Arguments → Prop
  | plain (kind : NodeKind) children : Takes (Form.plain kind.name children) { first := children }
  | named (kind : NodeKind) name children :
      Takes (Form.named kind.name name children) { first := children }
  | program items : Takes (.ok (.program items)) { first := items }
  | arrayType element size : Takes (.ok (.arrayType element size)) { first := [element] }
  | tupleType elements : Takes (.ok (.tupleType elements)) { first := elements }
  | unionType variants : Takes (.ok (.unionType variants)) { first := variants }
  | functionType params result :
      Takes (.ok (.functionType params result)) { first := params ++ [result] }
  | pointerType pointee : Takes (.ok (.pointerType pointee)) { first := [pointee] }
  | referenceType referent : Takes (.ok (.referenceType referent)) { first := [referent] }
  | optionalType inner : Takes (.ok (.optionalType inner)) { first := [inner] }
  | unary operator operand before :
      Takes (.ok (.unary operator operand before)) { first := [operand] }
  | binary operator left right :
      Takes (.ok (.binary operator left right)) { first := [left, right] }
  | ternary condition whenTrue whenFalse :
      Takes (.ok (.ternary condition whenTrue whenFalse))
        { first := [condition, whenTrue, whenFalse] }
  | assign operator target value :
      Takes (.ok (.assign operator target value)) { first := [target, value] }
  | group inner : Takes (.ok (.group inner)) { first := [inner] }
  | cast value target : Takes (.ok (.cast value target)) { first := [value, target] }
  | call callee arguments : Takes (.ok (.call callee arguments)) { first := callee :: arguments }
  | index target place : Takes (.ok (.index target place)) { first := [target, place] }
  | arrayExpr elements : Takes (.ok (.arrayExpr elements)) { first := elements }
  | tupleExpr elements : Takes (.ok (.tupleExpr elements)) { first := elements }
  | member target name : Takes (.ok (.member target name)) { first := [target] }
  | fieldExpr name value : Takes (.ok (.fieldExpr name value)) { first := [value] }
  | structExpr type fields :
      Takes (.ok (.structExpr type fields)) { placed := [type], last := fields }
  | range first last inclusive :
      Takes (.ok (.range first last inclusive)) { placed := [first, last] }
  | closure params body : Takes (.ok (.closure params body)) { first := params ++ [body] }
  | spread inner : Takes (.ok (.spread inner)) { first := [inner] }
  | exprStmt inner : Takes (.ok (.exprStmt inner)) { first := [inner] }
  | returnStmt value : Takes (.ok (.returnStmt value)) { first := [value] }
  | deferStmt body : Takes (.ok (.deferStmt body)) { first := [body] }
  | block statements : Takes (.ok (.block statements)) { first := statements }
  | ifStmt condition whenTrue whenFalse :
      Takes (.ok (.ifStmt condition whenTrue whenFalse))
        { first := [condition, whenTrue], placed := [whenFalse] }
  | whileStmt condition body :
      Takes (.ok (.whileStmt condition body)) { first := [condition, body] }
  | forStmt loop iterable body :
      Takes (.ok (.forStmt loop iterable body)) { first := [loop, iterable, body] }
  | variableDecl name type init flags :
      Takes (.ok (.variableDecl name type init flags)) { placed := [type, init] }
  | funcParam name type : Takes (.ok (.funcParam name type)) { first := [type] }
  | funcDecl name params result body :
      Takes (.ok (.funcDecl name params result body)) { first := params, placed := [result, body] }
  | fieldDecl name type init : Takes (.ok (.fieldDecl name type init)) { placed := [type, init] }
  | structDecl name members : Takes (.ok (.structDecl name members)) { first := members }
  | classDecl name base members :
      Takes (.ok (.classDecl name base members)) { placed := [base], last := members }
  | methodDecl name params result body :
      Takes (.ok (.methodDecl name params result body))
        { first := params, placed := [result, body] }
  | enumDecl name options : Takes (.ok (.enumDecl name options)) { first := options }
  | enumOption name value : Takes (.ok (.enumOption name value)) { first := [value] }
  | typeDecl name aliased : Takes (.ok (.typeDecl name aliased)) { first := [aliased] }
  | importDecl path localName items :
      Takes (.ok (.importDecl path localName items)) { first := items }
  | attributeUse name arguments :
      Takes (.ok (.attributeUse name arguments)) { first := arguments }

namespace Form

/-- A kind is found by its name, so a construct with a kind of its own choice has a form. -/
theorem plain_name (kind : NodeKind) (children : List (Option NodeId)) :
    Form.plain kind.name children = .ok { kind, slots := each children } := by
  rw [Form.plain, NodeKind.ofName?_name]

theorem named_name (kind : NodeKind) (name : Name) (children : List (Option NodeId)) :
    Form.named kind.name name children =
      .ok { kind, payload := .name name, slots := each children } := by
  rw [Form.named, NodeKind.ofName?_name]

variable {form : Form} {args : Arguments} {call : Except SyntaxError Form}

/-- What building relies on: the slots are those of the arguments, and only forms for which the node
is made last give it flags. -/
structure Fits (form : Form) (args : Arguments) : Prop where
  slots_eq : form.slots = args.slots
  flags_of_nodeFirst : form.nodeFirst = true → form.flags = Flags.none

/-- No construct is refused, whatever its arguments are. -/
theorem Takes.exists_form (h : Takes call args) : ∃ form, call = .ok form ∧ form.Fits args := by
  have hList : ∀ children, each children = ({ first := children } : Arguments).slots :=
    fun children => (List.append_nil _).symm
  cases h with
  | plain kind children => exact ⟨_, plain_name kind children, hList children, fun _ => rfl⟩
  | named kind name children =>
    exact ⟨_, named_name kind name children, hList children, fun _ => rfl⟩
  | functionType params result =>
    exact ⟨_, rfl, by simp [Form.functionType, each, Arguments.slots], fun _ => rfl⟩
  | closure params body =>
    exact ⟨_, rfl, by simp [Form.closure, each, Arguments.slots], fun _ => rfl⟩
  | call callee arguments => exact ⟨_, rfl, hList (callee :: arguments), fun _ => rfl⟩
  | variableDecl => exact ⟨_, rfl, rfl, nofun⟩
  | program | tupleType | unionType | arrayExpr | tupleExpr | block | structDecl | enumDecl
  | importDecl | attributeUse => exact ⟨_, rfl, hList _, fun _ => rfl⟩
  | _ => exact ⟨_, rfl, rfl, fun _ => rfl⟩

end Form

/-! ## What building does -/

/-- A node was built from its arguments: it has them as children, with new no-ops at the places of
absent ones, and they are in no other place. -/
structure Tree.Built (t : Tree) (form : Form) (args : Arguments) (location : Location) (id : NodeId)
    (new : List NodeId) (t' : Tree) : Prop where
  size_eq : t'.size = t.size + args.absent + 1
  length_new : new.length = args.absent
  nodup : (id :: new).Nodup
  fresh : ∀ k ∈ id :: new, t.get? k = none
  node : t'.get? id = some { id, kind := form.kind, payload := form.payload, location
                             children := args.fill new, flags := form.flags }
  noop : ∀ k ∈ new, t'.get? k = some { id := k, kind := .noop, payload := .plain, location
                                       parent := some id }
  parent : ∀ c ∈ args.fill new, t'.parent? c = some id
  others : ∀ k n, t.get? k = some n → t'.get? k = some { n with
    parent := if k ∈ args.nodes then some id else n.parent
    children := n.children.filter (· ∉ args.nodes) }

namespace Form

variable {t t' t₃ : Tree} {form : Form} {args : Arguments} {location : Location} {id : NodeId}
  {new : List NodeId}

theorem exists_fillSlots (location : Location) (args : Arguments) (h : t.WellLinked)
    (hRoom : t.size + args.absent ≤ Handle.span) :
    ∃ new t', fillSlots location args.slots t = (.ok (args.held new), t') ∧
      new.length = args.absent ∧ t.Grown (new.map (noopAt location)) t' ∧ t'.WellLinked := by
  obtain ⟨new, t', hPlaces, hLength, hGrown⟩ := exists_fillPlaces location _ hRoom
  have hFill : fillSlots location args.slots t = (.ok (args.held new), t') := by
    simp only [Arguments.slots, fillSlots_append, fillSlots_given, pure_bind, bind_assoc]
    exact Build.bind_of_ok hPlaces
  have hKeeps : (fillSlots location args.slots).Keeps Tree.WellLinked :=
    Tree.Linked.invariant.form.keeps_fillSlots location args.slots
  have hAfter : (fillSlots location args.slots).after t = t' := congrArg Prod.snd hFill
  exact ⟨new, t', hFill, hLength, hGrown, hAfter ▸ hKeeps t h⟩

theorem fillSlots_full (location : Location) (args : Arguments) (hSize : t.size ≤ Handle.span)
    (hFull : Handle.span < t.size + args.absent) :
    ∃ t', fillSlots location args.slots t = (.error .poolExhausted, t') := by
  obtain ⟨t', hPlaces⟩ := fillPlaces_full location _ hSize hFull
  refine ⟨t', ?_⟩
  simp only [Arguments.slots, fillSlots_append, fillSlots_given, pure_bind, bind_assoc]
  exact Build.bind_of_error hPlaces

/-- The nodes that are made for a form. -/
def made (form : Form) (location : Location) (id : NodeId) (new : List NodeId) : List Node :=
  { id, kind := form.kind, payload := form.payload, location } :: new.map (noopAt location)

theorem map_id_made : (form.made location id new).map (·.id) = id :: new := by
  simp [made, noopAt, Function.comp_def]

/-- What remains to be done to a node that has its children. -/
def finish (form : Form) (id : NodeId) : Build NodeId :=
  if form.nodeFirst then return id
  else do
    Build.edit fun t => return ((), t.modify id fun n => { n with flags := form.flags })
    return id

/-- The node and the no-ops are made, in the one order or the other, before it gets its children. -/
theorem exists_prepared (location : Location) (h : t.WellLinked) (hSlots : form.slots = args.slots)
    (hRoom : t.size + args.absent < Handle.span) :
    ∃ id new t',
      form.build location t = (attach id (args.held new) >>= fun _ => form.finish id) t' ∧
      t'.WellLinked ∧ new.length = args.absent ∧
      t.Grown (form.made location id new) t' := by
  cases hOrder : form.nodeFirst with
  | true =>
    obtain ⟨t₁, hNew, hMade⟩ :=
      Tree.exists_create (t := t) location form.kind form.payload (by omega)
    have hSize : t₁.size = t.size + 1 := hMade.size_eq
    obtain ⟨new, t₂, hFill, hLength, hMore, hLinked⟩ :=
      exists_fillSlots location args (h.create hNew) (by omega)
    refine ⟨_, new, t₂, ?_, hLinked, hLength, hMade.trans hMore⟩
    simp only [build, finish, hOrder, if_true, hSlots]
    exact (Build.bind_of_ok (Build.edit_of_ok hNew)).trans (Build.bind_of_ok hFill)
  | false =>
    obtain ⟨new, t₁, hFill, hLength, hMore, hLinked⟩ := exists_fillSlots location args h hRoom.le
    have hSize : t₁.size = t.size + args.absent := by
      rw [hMore.size_eq, List.length_map, hLength]
    obtain ⟨t₂, hNew, hMade⟩ :=
      Tree.exists_create (t := t₁) location form.kind form.payload (by omega)
    refine ⟨_, new, t₂, ?_, hLinked.create hNew, hLength,
      (hMore.trans hMade).perm (List.perm_append_singleton _ _)⟩
    simp only [build, finish, hOrder, hSlots]
    exact (Build.bind_of_ok hFill).trans (Build.bind_of_ok (Build.edit_of_ok hNew))

theorem build_full (location : Location) (h : t.WellLinked) (hSlots : form.slots = args.slots)
    (hFull : Handle.span ≤ t.size + args.absent) :
    ∃ t', form.build location t = (.error .poolExhausted, t') := by
  have hSize : t.size ≤ Handle.span := h.numbered.size_le
  cases hOrder : form.nodeFirst with
  | true =>
    simp only [build, hOrder, if_true, hSlots]
    by_cases hRoom : t.size < Handle.span
    · obtain ⟨t₁, hNew, hMade⟩ := Tree.exists_create location form.kind form.payload hRoom
      have hGrown : t₁.size = t.size + 1 := hMade.size_eq
      obtain ⟨t', hFill⟩ := fillSlots_full (t := t₁) location args (by omega) (by omega)
      exact ⟨t', (Build.bind_of_ok (Build.edit_of_ok hNew)).trans (Build.bind_of_error hFill)⟩
    · exact ⟨t, Build.bind_of_error
        (Build.edit_of_error (Tree.create_full _ _ _ (Nat.not_lt.mp hRoom)))⟩
  | false =>
    simp only [build, hOrder, hSlots]
    by_cases hRoom : t.size + args.absent ≤ Handle.span
    · obtain ⟨new, t₁, hFill, hLength, hMore, -⟩ := exists_fillSlots location args h hRoom
      have hGrown : t₁.size = t.size + args.absent := by
        rw [hMore.size_eq, List.length_map, hLength]
      have hNew := Tree.create_full (t := t₁) location form.kind form.payload (by omega)
      exact ⟨t₁, (Build.bind_of_ok hFill).trans (Build.bind_of_error (Build.edit_of_error hNew))⟩
    · obtain ⟨t', hFill⟩ := fillSlots_full location args hSize (Nat.not_le.mp hRoom)
      exact ⟨t', Build.bind_of_error hFill⟩

theorem exists_finish {n : Node} (hGet : t.get? id = some n)
    (hFlags : form.nodeFirst = true → n.flags = form.flags) :
    ∃ t', form.finish id t = (.ok id, t') ∧ t'.size = t.size ∧
      t'.get? id = some { n with flags := form.flags } ∧ ∀ k, k ≠ id → t'.get? k = t.get? k := by
  unfold finish
  split
  · rename_i hFirst
    exact ⟨t, rfl, rfl, by rw [hGet, ← hFlags hFirst], fun _ _ => rfl⟩
  · exact ⟨_, Build.bind_of_ok (Build.edit_of_ok rfl), Tree.size_modify _ _ _,
      Tree.get?_modify_self hGet, fun k hk => Tree.get?_modify_of_ne hk⟩

variable {t₂ t₃ : Tree}

/-- All children can go under the new node, as it has no parent. -/
theorem exists_gathered (h : t₂.WellLinked) (hGrown : t.Grown (form.made location id new) t₂)
    (hLength : new.length = args.absent) (hLive : ∀ c ∈ args.nodes, (t.get? c).isSome)
    (hNodup : args.nodes.Nodup) :
    ∃ t₃, attach id (args.held new) t₂ = (.ok (), t₃) ∧ t₂.Gathered id (args.fill new) t₃ := by
  have hPerm := Arguments.fill_perm hLength
  have hMade := hGrown.nodup
  rw [map_id_made, List.nodup_cons] at hMade
  have hFresh : ∀ k ∈ id :: new, k ∉ args.nodes := by
    intro k hk hArg
    have hSome := hLive k hArg
    rw [hGrown.get?_eq_none (map_id_made ▸ hk)] at hSome
    cases hSome
  have hFound := hGrown.found _ List.mem_cons_self
  rw [← Arguments.reduceOption_held]
  apply exists_attach
  · exact h
  · exact Option.isSome_of_eq_some hFound
  · exact Tree.parent?_of_get? hFound
  all_goals rw [Arguments.reduceOption_held]
  · intro c hc
    rcases List.mem_append.mp (hPerm.mem_iff.mp hc) with hArg | hNew
    · obtain ⟨n, hGet⟩ := Option.isSome_iff_exists.mp (hLive c hArg)
      exact Option.isSome_of_eq_some (hGrown.kept c n hGet)
    · exact Option.isSome_of_eq_some (hGrown.found (noopAt location c)
        (List.mem_cons_of_mem _ (List.mem_map_of_mem hNew)))
  · rw [hPerm.mem_iff, List.mem_append, not_or]
    exact ⟨hFresh id List.mem_cons_self, hMade.1⟩
  · rw [hPerm.nodup_iff, List.nodup_append]
    refine ⟨hNodup, hMade.2, ?_⟩
    rintro a hArg b hNew rfl
    exact hFresh a (List.mem_cons_of_mem _ hNew) hArg

theorem built_of_gathered (h : t.WellLinked) (hGrown : t.Grown (form.made location id new) t₂)
    (hLength : new.length = args.absent) (hLive : ∀ c ∈ args.nodes, (t.get? c).isSome)
    (hGathered : t₂.Gathered id (args.fill new) t₃) (hSize : t'.size = t₃.size)
    (hNode : ∀ n, t₃.get? id = some n → t'.get? id = some { n with flags := form.flags })
    (hOther : ∀ k, k ≠ id → t'.get? k = t₃.get? k) :
    t.Built form args location id new t' := by
  have hMem : ∀ k, k ∈ args.fill new ↔ k ∈ args.nodes ∨ k ∈ new := by
    intro k
    rw [(Arguments.fill_perm hLength).mem_iff, List.mem_append]
  have hNodup : (id :: new).Nodup := map_id_made ▸ hGrown.nodup
  have hFresh : ∀ k ∈ id :: new, t.get? k = none := fun k hk =>
    hGrown.get?_eq_none (map_id_made ▸ hk)
  -- a node that was there is none of the new ones, so it is a child only as an argument
  have hOld : ∀ k n, t.get? k = some n → k ∉ id :: new := by
    intro k n hGet hk
    rw [hFresh k hk] at hGet
    cases hGet
  have hOldMem : ∀ k n, t.get? k = some n → (k ∈ args.fill new ↔ k ∈ args.nodes) := by
    intro k n hGet
    rw [hMem, or_iff_left fun hk => hOld k n hGet (List.mem_cons_of_mem _ hk)]
  have hSelf : id ∉ args.fill new := by
    rw [hMem, not_or]
    refine ⟨fun hArg => ?_, (List.nodup_cons.mp hNodup).1⟩
    obtain ⟨n, hGet⟩ := Option.isSome_iff_exists.mp (hLive id hArg)
    exact hOld id n hGet List.mem_cons_self
  have hNe : ∀ k, k ∈ args.fill new → k ≠ id := fun k hk hEq => hSelf (hEq ▸ hk)
  refine ⟨?_, hLength, hNodup, hFresh, ?_, fun k hk => ?_, fun c hc => ?_, fun k n hGet => ?_⟩
  · rw [hSize, hGathered.rest.size_eq, hGrown.size_eq, made, List.length_cons, List.length_map,
      hLength, Nat.add_assoc]
  · rw [hNode _ (hGathered.get?_eq (hGrown.found _ List.mem_cons_self))]
    simp [hSelf]
  · have hFill : k ∈ args.fill new := (hMem k).mpr (.inr hk)
    have hFound : t₂.get? k = some (noopAt location k) :=
      hGrown.found _ (List.mem_cons_of_mem _ (List.mem_map_of_mem hk))
    rw [hOther k (hNe k hFill), hGathered.get?_eq hFound]
    simp [noopAt, hFill, hNe k hFill]
  · have hParent := hGathered.parent?_eq c
    rw [if_pos hc] at hParent
    rwa [Tree.parent?, hOther c (hNe c hc)]
  · have hApart : k ≠ id := fun hEq => hOld k n hGet (hEq ▸ List.mem_cons_self)
    have hChildren : n.children.filter (· ∉ args.fill new) =
        n.children.filter (· ∉ args.nodes) := by
      refine List.filter_congr fun c hc => ?_
      obtain ⟨m, hChild⟩ := Option.isSome_iff_exists.mp (h.resolve hGet c (.inr hc))
      exact decide_eq_decide.mpr (not_congr (hOldMem c m hChild))
    rw [hOther k hApart, hGathered.get?_eq (hGrown.kept k n hGet), hChildren, if_neg hApart,
      List.append_nil]
    simp only [hOldMem k n hGet]

theorem exists_build (location : Location) (h : t.WellLinked) (hFits : form.Fits args)
    (hLive : ∀ c ∈ args.nodes, (t.get? c).isSome) (hNodup : args.nodes.Nodup)
    (hRoom : t.size + args.absent < Handle.span) :
    ∃ id new t', form.build location t = (.ok id, t') ∧ t.Built form args location id new t' := by
  obtain ⟨id, new, t₂, hBuild, hLinked, hLength, hGrown⟩ :=
    exists_prepared location h hFits.slots_eq hRoom
  obtain ⟨t₃, hAttach, hGathered⟩ := exists_gathered hLinked hGrown hLength hLive hNodup
  have hFound := hGathered.get?_eq (hGrown.found _ List.mem_cons_self)
  obtain ⟨t', hFinish, hSize, hNode, hOther⟩ :=
    exists_finish hFound fun hFirst => (hFits.flags_of_nodeFirst hFirst).symm
  refine ⟨id, new, t', hBuild.trans ((Build.bind_of_ok hAttach).trans hFinish),
    built_of_gathered h hGrown hLength hLive hGathered hSize (fun n hn => ?_) hOther⟩
  obtain rfl := Option.some.inj (hn.symm.trans hFound)
  exact hNode

end Form

namespace ChildEdit

variable {t : Tree} {call : Except SyntaxError Form} {args : Arguments}

/-- Any construct can be built from any nodes, wherever they are, as long as no two of its arguments
are the same node. No call is refused, only handles can run out. -/
theorem built_run (generation : Nat) (edits : List ChildEdit) (location : Location)
    (hRun : run edits (Tree.empty generation) = t) (hTakes : Form.Takes call args)
    (hLive : ∀ c ∈ args.nodes, (t.get? c).isSome) (hNodup : args.nodes.Nodup) :
    ∃ form, call = .ok form ∧
      (t.size + args.absent < Handle.span → ∃ id new t', form.build location t = (.ok id, t') ∧
        t.Built form args location id new t') ∧
      (Handle.span ≤ t.size + args.absent →
        ∃ t', form.build location t = (.error .poolExhausted, t')) := by
  have h : t.WellLinked := hRun ▸ wellLinked_run (Tree.wellLinked_empty generation) edits
  obtain ⟨form, hForm, hFits⟩ := hTakes.exists_form
  exact ⟨form, hForm, Form.exists_build location h hFits hLive hNodup,
    Form.build_full location h hFits.slots_eq⟩

/-- Two arguments are children of the block that holds them all, the third is a child of the
first. -/
theorem built_run_nested :
    (∀ c ∈ [(1 : NodeId), 0, 2], ((run nestedBlocks (Tree.empty 0)).get? c).isSome) ∧
    ∃ id k t', (Form.funcDecl default [some 1, none, some 0] none (some 2)).build default
        (run nestedBlocks (Tree.empty 0)) = (.ok id, t') ∧
      t'.childrenOf id = [1, 0, k, 2] ∧ t'.childrenOf 1 = [] ∧ t'.childrenOf 3 = [] := by
  have hTakes := Form.Takes.funcDecl default [some 1, none, some 0] none (some 2)
  have hLive : ∀ c ∈ [(1 : NodeId), 0, 2], ((run nestedBlocks (Tree.empty 0)).get? c).isSome := by
    decide +kernel
  obtain ⟨form, hForm, hRoom, -⟩ := built_run 0 nestedBlocks default rfl hTakes hLive (by decide)
  cases hForm
  obtain ⟨id, new, t', hBuild, hBuilt⟩ := hRoom (by decide +kernel)
  obtain ⟨k, rfl⟩ := List.length_eq_one_iff.mp hBuilt.length_new
  have hLeft : ∀ q, ((run nestedBlocks (Tree.empty 0)).get? q).isSome →
      t'.childrenOf q =
        ((run nestedBlocks (Tree.empty 0)).childrenOf q).filter (· ∉ [(1 : NodeId), 0, 2]) := by
    intro q hq
    obtain ⟨n, hGet⟩ := Option.isSome_iff_exists.mp hq
    rw [Tree.childrenOf_of_get? (hBuilt.others q n hGet), Tree.childrenOf_of_get? hGet]
    rfl
  refine ⟨hLive, id, k, t', hBuild, Tree.childrenOf_of_get? hBuilt.node, ?_, ?_⟩
  · rw [hLeft 1 (by decide +kernel)]
    decide +kernel
  · rw [hLeft 3 (by decide +kernel)]
    decide +kernel

end ChildEdit

end SemanticCore
