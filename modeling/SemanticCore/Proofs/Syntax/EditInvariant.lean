import SemanticCore.Proofs.Syntax.ChildEdit

/-!
# What all edits of nodes keep

Every edit of a tree is composed of changes of single nodes, and none of these changes the handle
that a node has. So a property of trees that such a change keeps is kept by every edit, and by
building nodes if a new node keeps it as well.

* `Yields`: what all results of a computation that may be refused have.
* `EditInvariant`: the properties that changes of single nodes keep.
* `EditInvariant.form`: building nodes keeps them, too.
-/

namespace SemanticCore

section Yields

variable {α β : Type} {P : α → Prop} {Q : β → Prop} {x : Except SyntaxError α}
  {f : α → Except SyntaxError β}

/-- The result, if there is one, has a property. -/
def Yields (P : α → Prop) (x : Except SyntaxError α) : Prop := ∀ a, x = .ok a → P a

theorem yields_pure {a : α} (h : P a) : Yields P (pure a : Except SyntaxError α) := by
  intro b hb
  cases hb
  exact h

theorem yields_throw (e : SyntaxError) : Yields P (throw e : Except SyntaxError α) := nofun

theorem Yields.bind (hx : Yields P x) (hf : ∀ a, P a → Yields Q (f a)) : Yields Q (x >>= f) := by
  intro b hb
  obtain ⟨a, ha, hfa⟩ := bind_eq_ok.mp hb
  exact hf a (hx a ha) b hfa

/-- The result of the first step does not matter. -/
theorem Yields.skip (hf : ∀ a, Yields Q (f a)) : Yields Q (x >>= f) := by
  intro b hb
  obtain ⟨a, -, hfa⟩ := bind_eq_ok.mp hb
  exact hf a b hfa

end Yields

/-- What makes a property of trees an invariant of all edits. -/
structure EditInvariant (I : Tree → Prop) : Prop where
  modify : ∀ {t id} {f : Node → Node}, (∀ n, (f n).id = n.id) → I t → I (t.modify id f)

namespace EditInvariant

variable {I : Tree → Prop} (hI : EditInvariant I) {t : Tree} (h : I t)

include hI h

theorem update {id : NodeId} {f : Node → Node} (hId : ∀ n, (f n).id = n.id) :
    Yields I (t.update id f) :=
  .skip fun _ => yields_pure (hI.modify hId h)

theorem adopt (parent child : NodeId) : Yields I (t.adopt parent child) := by
  refine .skip fun above => ?_
  split
  · exact yields_throw _
  · refine .skip fun n => ?_
    cases n.parent with
    | none => exact yields_pure (hI.modify (fun _ => rfl) h)
    | some previous =>
      exact .bind (hI.update h fun _ => rfl) fun t' ht' =>
        yields_pure (hI.modify (fun _ => rfl) ht')

theorem addChild (parent : NodeId) (child : Option NodeId) :
    Yields I (t.addChild parent child) := by
  cases child with
  | none => exact yields_pure h
  | some child =>
    exact .skip fun _ => .bind (hI.adopt h parent child) fun t' ht' =>
      yields_pure (hI.modify (fun _ => rfl) ht')

theorem insertChild (parent : NodeId) (index : Number) (child : NodeId) :
    Yields I (t.insertChild parent index child) :=
  .skip fun _ => .bind (hI.adopt h parent child) fun _ ht' =>
    yields_pure (hI.modify (fun _ => rfl) ht')

theorem removeChild (parent child : NodeId) :
    Yields (fun x => I x.2) (t.removeChild parent child) := by
  refine .skip fun n => ?_
  split
  · refine .bind (hI.update (hI.modify ?_ h) ?_) fun _ ht' => yields_pure ht'
    · exact fun _ => rfl
    · exact fun _ => rfl
  · exact yields_pure h

theorem replaceChild (parent old next : NodeId) :
    Yields (fun x => I x.2) (t.replaceChild parent old next) := by
  refine .skip fun n => ?_
  split
  · exact yields_pure h
  · split
    · exact yields_pure h
    · refine .bind (hI.adopt h parent next) fun t' ht' => ?_
      refine .bind (hI.update (hI.modify ?_ ht') ?_) fun _ ht'' => yields_pure ht''
      · exact fun _ => rfl
      · exact fun _ => rfl

theorem addAttribute (owner : NodeId) (added : Option NodeId) :
    Yields I (t.addAttribute owner added) := by
  cases added with
  | none => exact yields_pure h
  | some added =>
    exact .skip fun _ => .bind (hI.update h fun _ => rfl) fun _ ht' =>
      yields_pure (hI.modify (fun _ => rfl) ht')

theorem removeAttribute (owner removed : NodeId) :
    Yields (fun x => I x.2) (t.removeAttribute owner removed) := by
  refine .skip fun n => ?_
  split
  · refine .bind (hI.update (hI.modify ?_ h) ?_) fun _ ht' => yields_pure ht'
    · exact fun _ => rfl
    · exact fun _ => rfl
  · exact yields_pure h

omit h in
/-- Building nodes keeps what new nodes and all edits keep. -/
theorem form (hCreate : ∀ {t t' location kind payload id},
    t.create location kind payload = .ok (id, t') → I t → I t') : FormInvariant I where
  create := hCreate
  addChild hAdd ht := hI.addChild ht _ _ _ hAdd
  setFlags ht := hI.modify (fun _ => rfl) ht

end EditInvariant

end SemanticCore
