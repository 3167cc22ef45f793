import SemanticCore.Proofs.Renaming.Trees
import SemanticCore.Syntax.Printer

/-!
# Walks through renamed trees

A traversal of a renamed tree enters and leaves the same nodes in the same order. A visitor that
looks at no more than what renaming leaves, or that renames what it records, ends in the same state,
up to the names. So subtrees hold the same nodes, and a tree is printed as the same text.

* `traverse_rename`: the traversals.
* `Tree.walk_rename`, `Tree.find?_rename`: what subtrees hold.
* `Tree.print_rename`: the text of a renamed tree.
-/

namespace SemanticCore

variable {ρ : Renaming}

/-! ## Visits -/

namespace Visit

variable {σ τ α β γ δ : Type}

/-- Two visits that come to the same, up to names: from a state renamed by `f` to one renamed by
it, with an answer renamed by `g`. -/
def Renamed (ρ : Renaming) (f : σ → τ) (g : α → β) (x : Visit σ α) (y : Visit τ β) : Prop :=
  ∀ s, y.run (f s) = outcome ρ (Prod.map g f) (x.run s)

variable {f : σ → τ} {g : α → β} {h : γ → δ}

theorem renamed_pure {a : α} {b : β} (hEq : b = g a) :
    Renamed ρ f g (pure a : Visit σ α) (pure b) := fun _ => hEq ▸ rfl

theorem Renamed.bind {x : Visit σ α} {y : Visit τ β} {k : α → Visit σ γ} {k' : β → Visit τ δ}
    (hx : Renamed ρ f g x y) (hk : ∀ a, Renamed ρ f h (k a) (k' (g a))) :
    Renamed ρ f h (x >>= k) (y >>= k') := by
  intro s
  rw [StateT.run_bind, StateT.run_bind]
  exact outcome_bind (hx s) fun r => hk r.1 r.2

theorem renamed_lift {x : Except SyntaxError α} {y : Except SyntaxError β}
    (hxy : y = outcome ρ g x) : Renamed ρ f g (liftM x : Visit σ α) (liftM y) := by
  intro s
  subst hxy
  cases x <;> rfl

theorem renamed_throw {e e' : SyntaxError} (he : e' = e.rename ρ) :
    Renamed ρ f g (throw e : Visit σ α) (throw e') := fun _ => he ▸ rfl

theorem renamed_modify {u : σ → σ} {u' : τ → τ} (hu : ∀ s, u' (f s) = f (u s)) :
    Renamed ρ f id (modifyThe σ u : Visit σ Unit) (modifyThe τ u') :=
  fun s => congrArg (fun s => Except.ok ((), s)) (hu s)

theorem renamed_forEach {k : NodeId → Visit σ Unit} {k' : NodeId → Visit τ Unit}
    (hk : ∀ h, Renamed ρ f id (k h) (k' (ρ.node h))) (ids : List NodeId) :
    Renamed ρ f id (forEach k ids) (forEach k' (ids.map ρ.node)) := by
  induction ids with
  | nil => exact renamed_pure rfl
  | cons h ids ih => exact (hk h).bind fun _ => ih

end Visit

open Visit

variable {σ τ : Type} {f : σ → τ} {t : Tree}

/-- Two visitors whose hooks come to the same, up to names. -/
structure Visitor.Renamed (ρ : Renaming) (f : σ → τ) (v : Visitor (Visit σ))
    (v' : Visitor (Visit τ)) : Prop where
  enter : ∀ n, Visit.Renamed ρ f id (v.enter n) (v'.enter (n.rename ρ))
  leave : ∀ n, Visit.Renamed ρ f id (v.leave n) (v'.leave (n.rename ρ))

/-- A traversal of a renamed tree does what that of the tree does. -/
theorem traverse_rename {v : Visitor (Visit σ)} {v' : Visitor (Visit τ)} (hv : v.Renamed ρ f v')
    (limit : Nat) (h : NodeId) :
    Visit.Renamed ρ f id (traverse (t.source σ) v limit h)
      (traverse ((t.rename ρ).source τ) v' limit (ρ.node h)) := by
  induction limit generalizing h with
  | zero => exact renamed_throw rfl
  | succ limit ih =>
    refine (renamed_lift (Tree.node_rename h)).bind fun n => (hv.enter n).bind fun descend => ?_
    have hCurrent : Visit.Renamed ρ f (Node.rename ρ) ((t.source σ).current n)
        (((t.rename ρ).source τ).current (n.rename ρ)) := renamed_pure rfl
    have hLeave := hCurrent.bind hv.leave
    cases descend with
    | false => exact hLeave
    | true =>
      refine hCurrent.bind fun m => ?_
      exact (renamed_forEach ih m.children).bind fun _ => hLeave

namespace Tree

theorem visit_rename {v : Visitor (Visit σ)} {v' : Visitor (Visit τ)} (hv : v.Renamed ρ f v')
    (root : NodeId) (s : σ) :
    (t.rename ρ).visit (ρ.node root) v' (f s) = outcome ρ f (t.visit root v s) := by
  have hLevels : (t.rename ρ).levels = t.levels := congrArg (· + 1) size_rename
  unfold visit
  rw [hLevels]
  exact outcome_bind (traverse_rename hv t.levels root s) fun _ => rfl

/-! ## What subtrees hold -/

theorem recorder_renamed {descend : Node → Bool}
    (hDescend : ∀ n : Node, descend (n.rename ρ) = descend n) :
    (recorder descend).Renamed ρ (List.map (Node.rename ρ)) (recorder descend) where
  enter n := (renamed_modify fun ns => by simp).bind fun _ => renamed_pure (hDescend n)
  leave _ := renamed_pure rfl

theorem walk_rename {descend : Node → Bool}
    (hDescend : ∀ n : Node, descend (n.rename ρ) = descend n) (root : NodeId) :
    (t.rename ρ).walk (ρ.node root) descend =
      outcome ρ (List.map (Node.rename ρ)) (t.walk root descend) :=
  visit_rename (recorder_renamed hDescend) root []

theorem collector_renamed (kind : NodeKind) :
    (collector kind).Renamed ρ (List.map (Node.rename ρ)) (collector kind) where
  enter n := by
    refine Visit.Renamed.bind (renamed_modify fun found => ?_) fun _ => renamed_pure rfl
    show (if n.kind = kind then _ else _) = _
    split <;> simp
  leave _ := renamed_pure rfl

theorem collect_rename (root : NodeId) (kind : NodeKind) :
    (t.rename ρ).collect (ρ.node root) kind =
      outcome ρ (List.map (Node.rename ρ)) (t.collect root kind) :=
  visit_rename (collector_renamed kind) root []

theorem counter_renamed : counter.Renamed ρ id counter where
  enter _ := by
    refine Visit.Renamed.bind (renamed_modify fun _ => rfl) fun _ => ?_
    exact renamed_pure rfl
  leave _ := renamed_pure rfl

theorem count_rename (root : NodeId) :
    (t.rename ρ).count (ρ.node root) = outcome ρ id (t.count root) :=
  visit_rename counter_renamed root 0

theorem firstOf_rename {search search' : NodeId → Except SyntaxError (Option Node)}
    (hSearch : ∀ h, search' (ρ.node h) = outcome ρ (Option.map (Node.rename ρ)) (search h))
    (ids : List NodeId) :
    firstOf search' (ids.map ρ.node) =
      outcome ρ (Option.map (Node.rename ρ)) (firstOf search ids) := by
  induction ids with
  | nil => rfl
  | cons h ids ih =>
    refine outcome_bind (hSearch h) fun found => ?_
    cases found with
    | none => exact ih
    | some n => rfl

theorem findWithin_rename (kind : NodeKind) (limit : Nat) (h : NodeId) :
    (t.rename ρ).findWithin kind limit (ρ.node h) =
      outcome ρ (Option.map (Node.rename ρ)) (t.findWithin kind limit h) := by
  induction limit generalizing h with
  | zero => rfl
  | succ limit ih =>
    refine outcome_bind (node_rename h) fun n => ?_
    show (if n.kind = kind then _ else _) = _
    split
    · rfl
    · exact firstOf_rename ih n.children

theorem find?_rename (root : NodeId) (kind : NodeKind) :
    (t.rename ρ).find? (ρ.node root) kind =
      outcome ρ (Option.map (Node.rename ρ)) (t.find? root kind) := by
  have hLevels : (t.rename ρ).levels = t.levels := congrArg (· + 1) size_rename
  rw [find?, hLevels]
  exact findWithin_rename kind t.levels root

end Tree

/-! ## Printing -/

theorem otherName_rename (n : Option Name) : otherName (n.map ρ.name) = otherName n := by
  cases n <;> rfl

theorem Payload.show_rename (p : Payload) : (p.rename ρ).show = outcome ρ id p.show := by
  cases p with
  | char code =>
    simp only [Payload.rename, Payload.show]
    split <;> rfl
  | importPath path localName =>
    exact congrArg (fun s => Except.ok (Text.quoted path.text ++ s)) (otherName_rename localName)
  | importItem item localName =>
    exact congrArg (fun s => Except.ok (item.text ++ s)) (otherName_rename localName)
  | _ => rfl

theorem NodeKind.showWithout_rename (kind : NodeKind) :
    kind.showWithout = outcome ρ id kind.showWithout := by
  cases kind <;> rfl

theorem showPayload_rename (n : Node) :
    (n.rename ρ).showPayload = outcome ρ id n.showPayload := by
  have hShow : (n.payload.rename ρ).show = outcome ρ id n.payload.show := n.payload.show_rename
  have hPayload : (n.rename ρ).payload = n.payload.rename ρ := rfl
  have hKind : (n.rename ρ).kind = n.kind := rfl
  unfold Node.showPayload
  rw [hPayload, hKind]
  cases hCase : n.payload with
  | plain => exact n.kind.showWithout_rename
  | name name =>
    show (if n.kind.hidesName then n.kind.showWithout else _) = _
    split
    · exact n.kind.showWithout_rename
    · rfl
  | _ =>
    rw [hCase] at hShow
    exact hShow

namespace Tree

theorem attributeNames_rename (n : Node) :
    (t.rename ρ).attributeNames (n.rename ρ) = t.attributeNames n := by
  unfold attributeNames
  show String.join ((n.attributes.map ρ.node).map _) = _
  rw [List.map_map]
  refine congrArg String.join (List.map_congr_left fun h _ => ?_)
  simp only [Function.comp_apply, get?_rename]
  cases t.get? h with
  | none => rfl
  | some m =>
    simp only [Option.map_some, Option.bind_some, Node.name?_rename]
    cases m.name? <;> rfl

theorem header_rename (n : Node) :
    (t.rename ρ).header (n.rename ρ) = outcome ρ id (t.header n) := by
  refine outcome_bind (f := id) (showPayload_rename n) fun payload => ?_
  refine congrArg Except.ok ?_
  rw [attributeNames_rename]
  cases hType : n.type with
  | none => simp only [Node.rename, hType]; rfl
  | some type =>
    simp only [Node.rename, hType, Option.map_some, Ty.spell_rename]
    rfl

theorem printer_renamed : t.printer.Renamed ρ id (t.rename ρ).printer where
  enter n := by
    refine (renamed_lift (header_rename n)).bind fun header => ?_
    refine Visit.Renamed.bind (renamed_modify fun _ => rfl) fun _ => ?_
    exact renamed_pure rfl
  leave _ := renamed_modify fun _ => rfl

theorem print_rename (root : NodeId) :
    (t.rename ρ).print (ρ.node root) = outcome ρ id (t.print root) :=
  outcome_bind (visit_rename printer_renamed root {}) fun _ => rfl

end Tree

end SemanticCore
