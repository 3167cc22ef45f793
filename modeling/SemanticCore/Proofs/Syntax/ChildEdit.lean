import SemanticCore.Proofs.Syntax.Relink
import SemanticCore.Syntax.Form

/-!
# Runs of edits of children

Building a node makes several changes, and those made before one is refused stay. So what building
keeps is said of the tree that it leaves in either case (`Build.Keeps`). A `ChildEdit` is anything
that can be done to the links of a tree without attributes; whatever is done, and whether it is
refused or not, an invariant of the changes is kept (`ChildEdit.keeps_run`).
-/

namespace SemanticCore

/-! ## Building -/

namespace Build

variable {α β : Type} {I : Tree → Prop}

/-- The tree that building leaves, whether it succeeds or is refused. -/
def after (x : Build α) (t : Tree) : Tree := (x.run.run t).2

/-- Building keeps a property of trees. -/
def Keeps (I : Tree → Prop) (x : Build α) : Prop := ∀ t, I t → I (x.after t)

theorem keeps_pure (a : α) : Keeps I (pure a) := fun _ ht => ht

theorem bind_of_ok {x : Build α} {f : α → Build β} {t t' : Tree} {a : α} (h : x t = (.ok a, t')) :
    (x >>= f) t = f a t' := by
  have hRun : x.run.run t = (.ok a, t') := h
  change (x >>= f).run.run t = _
  rw [ExceptT.run_bind, StateT.run_bind, hRun]
  rfl

theorem bind_of_error {x : Build α} {f : α → Build β} {t t' : Tree} {e : SyntaxError}
    (h : x t = (.error e, t')) : (x >>= f) t = (.error e, t') := by
  have hRun : x.run.run t = (.error e, t') := h
  change (x >>= f).run.run t = _
  rw [ExceptT.run_bind, StateT.run_bind, hRun]
  rfl

theorem keeps_bind {x : Build α} {f : α → Build β} (hx : x.Keeps I) (hf : ∀ a, (f a).Keeps I) :
    (x >>= f).Keeps I := by
  intro t ht
  have hMiddle := hx t ht
  change I (x t).2 at hMiddle
  change I ((x >>= f) t).2
  cases hRun : x t with
  | mk result t₁ =>
    rw [hRun] at hMiddle
    cases result with
    | error e => rwa [bind_of_error hRun]
    | ok a =>
      rw [bind_of_ok hRun]
      exact hf a t₁ hMiddle

theorem edit_of_ok {f : Tree → Except SyntaxError (α × Tree)} {t t' : Tree} {a : α}
    (h : f t = .ok (a, t')) : edit f t = (.ok a, t') := by
  simp only [edit, h]

theorem edit_of_error {f : Tree → Except SyntaxError (α × Tree)} {t : Tree} {e : SyntaxError}
    (h : f t = .error e) : edit f t = (.error e, t) := by
  simp only [edit, h]

theorem after_edit_ok {f : Tree → Except SyntaxError (α × Tree)} {t t' : Tree} {a : α}
    (h : f t = .ok (a, t')) : (edit f).after t = t' :=
  congrArg Prod.snd (edit_of_ok h)

theorem after_edit_error {f : Tree → Except SyntaxError (α × Tree)} {t : Tree} {e : SyntaxError}
    (h : f t = .error e) : (edit f).after t = t :=
  congrArg Prod.snd (edit_of_error h)

theorem after_discard (x : Build α) (t : Tree) : (discard x).after t = x.after t := by
  have hBind : (discard x : Build Unit) = x >>= fun _ => pure () := rfl
  rw [hBind, after, ExceptT.run_bind, StateT.run_bind, after]
  cases x.run.run t with
  | mk result t' => cases result <;> rfl

theorem keeps_edit {f : Tree → Except SyntaxError (α × Tree)}
    (hf : ∀ t a t', I t → f t = .ok (a, t') → I t') : (edit f).Keeps I := by
  intro t ht
  cases hRun : f t with
  | error e =>
    rw [after_edit_error hRun]
    exact ht
  | ok result =>
    rw [after_edit_ok hRun]
    exact hf t result.1 result.2 ht hRun

theorem keeps_discard {x : Build α} (hx : x.Keeps I) : (discard x).Keeps I := by
  intro t ht
  rw [after_discard]
  exact hx t ht

end Build

/-- What makes a property of trees an invariant of building nodes, if these get none but the allowed
payloads for their kinds. -/
structure PayloadInvariant (allowed : NodeKind → Payload → Prop) (I : Tree → Prop) : Prop where
  noop : allowed .noop .plain
  segment : ∀ name, allowed .pathSegment (.name name)
  create : ∀ {t t' location kind payload id}, allowed kind payload →
    t.create location kind payload = .ok (id, t') → I t → I t'
  addChild : ∀ {t t' parent child}, t.addChild parent child = .ok t' → I t → I t'
  setFlags : ∀ {t id flags}, I t → I (t.modify id fun n => { n with flags })

namespace PayloadInvariant

variable {allowed : NodeKind → Payload → Prop} {I : Tree → Prop}
  (hI : PayloadInvariant allowed I)

include hI

theorem keeps_create (location : Location) {kind : NodeKind} {payload : Payload}
    (hAllowed : allowed kind payload) : (Build.create location kind payload).Keeps I :=
  Build.keeps_edit fun _ _ _ h hNew => hI.create hAllowed hNew h

theorem keeps_addChild (parent : NodeId) (child : Option NodeId) :
    (Build.addChild parent child).Keeps I := by
  refine Build.keeps_edit fun t _ t' h hAdd => ?_
  obtain ⟨t₁, hOk, hPure⟩ := bind_eq_ok.mp hAdd
  cases hPure
  exact hI.addChild hOk h

theorem keeps_fill (location : Location) (s : Slot) :
    (s.fill location).Keeps I := by
  cases s with
  | given child => exact Build.keeps_pure child
  | filled child =>
    cases child with
    | none =>
      exact Build.keeps_bind (hI.keeps_create _ hI.noop) fun _ => Build.keeps_pure _
    | some child => exact Build.keeps_pure (some child)
  | segment name =>
    exact Build.keeps_bind (hI.keeps_create _ (hI.segment name)) fun _ => Build.keeps_pure _

theorem keeps_fillSlots (location : Location) (slots : List Slot) :
    (Form.fillSlots location slots).Keeps I := by
  induction slots with
  | nil => exact Build.keeps_pure []
  | cons s rest ih =>
    exact Build.keeps_bind (hI.keeps_fill location s) fun _ =>
      Build.keeps_bind ih fun _ => Build.keeps_pure _

theorem keeps_attach (parent : NodeId) (children : List (Option NodeId)) :
    (Form.attach parent children).Keeps I := by
  induction children with
  | nil => exact Build.keeps_pure ()
  | cons child rest ih => exact Build.keeps_bind (hI.keeps_addChild parent child) fun _ => ih

/-- Building a node of any form that is allowed keeps an invariant, also when a child cannot be
attached. -/
theorem keeps_build {form : Form} (hAllowed : allowed form.kind form.payload)
    (location : Location) : (form.build location).Keeps I := by
  unfold Form.build
  split
  · exact Build.keeps_bind (hI.keeps_create _ hAllowed) fun id =>
      Build.keeps_bind (hI.keeps_fillSlots location form.slots) fun children =>
        Build.keeps_bind (hI.keeps_attach id children) fun _ => Build.keeps_pure id
  · refine Build.keeps_bind (hI.keeps_fillSlots location form.slots) fun children =>
      Build.keeps_bind (hI.keeps_create _ hAllowed) fun id =>
        Build.keeps_bind (hI.keeps_attach id children) fun _ =>
          Build.keeps_bind (Build.keeps_edit fun t _ t' h hFlags => ?_) fun _ => Build.keeps_pure id
    cases hFlags
    exact hI.setFlags h

end PayloadInvariant

/-- What makes a property of trees an invariant of building nodes. -/
structure FormInvariant (I : Tree → Prop) : Prop where
  create : ∀ {t t' location kind payload id}, t.create location kind payload = .ok (id, t') →
    I t → I t'
  addChild : ∀ {t t' parent child}, t.addChild parent child = .ok t' → I t → I t'
  setFlags : ∀ {t id flags}, I t → I (t.modify id fun n => { n with flags })

namespace FormInvariant

variable {I : Tree → Prop} (hI : FormInvariant I)

include hI

theorem payload : PayloadInvariant (fun _ _ => True) I where
  noop := trivial
  segment _ := trivial
  create _ hNew h := hI.create hNew h
  addChild := hI.addChild
  setFlags := hI.setFlags

theorem keeps_fillSlots (location : Location) (slots : List Slot) :
    (Form.fillSlots location slots).Keeps I :=
  hI.payload.keeps_fillSlots location slots

theorem keeps_build (form : Form) (location : Location) : (form.build location).Keeps I :=
  hI.payload.keeps_build trivial location

end FormInvariant

/-! ## Runs of edits -/

/-- What makes a property of trees an invariant of building nodes and editing children. -/
structure BuildInvariant (I : Tree → Prop) : Prop where
  rooted : ∀ {t}, I t → t.Rooted
  create : ∀ {t t' location kind payload id}, t.create location kind payload = .ok (id, t') →
    I t → I t'
  setFlags : ∀ {t id flags}, I t → I (t.modify id fun n => { n with flags })
  edited : ∀ {t t'}, I t → t.Edited t' → I t'

theorem BuildInvariant.form {I : Tree → Prop} (hI : BuildInvariant I) : FormInvariant I where
  create := hI.create
  addChild hAdd h := hI.edited h (Tree.addChild_edited (hI.rooted h) hAdd)
  setFlags := hI.setFlags

theorem Tree.Rooted.invariant : BuildInvariant Tree.Rooted where
  rooted h := h
  create hNew h := h.create hNew
  setFlags h := h.modify (fun _ => rfl) (fun _ => rfl) fun _ => rfl
  edited h hEdit := h.edited hEdit

theorem Tree.Linked.invariant {strict : Prop} : BuildInvariant (Tree.Linked strict) where
  rooted h := h.rooted
  create hNew h := h.create hNew
  setFlags h := h.modify (fun _ => rfl) (fun _ => rfl) fun _ => rfl
  edited h hEdit := h.edited hEdit

/-- What can be done to the nodes of a tree without attributes: building a node of any form, if the
form can be had, and the edits of children. Every handle may be given, also one that does not
resolve. -/
inductive ChildEdit where
  | build (form : Except SyntaxError Form) (location : Location)
  | addChild (parent : NodeId) (child : Option NodeId)
  | insertChild (parent : NodeId) (index : Number) (child : NodeId)
  | removeChild (parent child : NodeId)
  | replaceChild (parent old next : NodeId)

namespace ChildEdit

def step : ChildEdit → Build Unit
  | .build (.ok form) location => discard (form.build location)
  | .build (.error e) _ => throw e
  | .addChild parent child => Build.addChild parent child
  | .insertChild parent index child =>
    Build.edit fun t => return ((), ← t.insertChild parent index child)
  | .removeChild parent child => discard (Build.edit fun t => t.removeChild parent child)
  | .replaceChild parent old next =>
    discard (Build.edit fun t => t.replaceChild parent old next)

/-- The tree after some edits, each of which may have been refused. -/
def run (edits : List ChildEdit) (t : Tree) : Tree := edits.foldl (fun t e => e.step.after t) t

variable {I : Tree → Prop} {t : Tree}

theorem edited_edit {α : Type} {f : Tree → Except SyntaxError (α × Tree)}
    (hf : ∀ a t', f t = .ok (a, t') → t.Edited t') : t.Edited ((Build.edit f).after t) := by
  cases hRun : f t with
  | error e =>
    rw [Build.after_edit_error hRun]
    exact .same
  | ok result =>
    rw [Build.after_edit_ok hRun]
    exact hf result.1 result.2 hRun

/-- Except for building, which may be several edits in one, an edit of children is a single one. -/
theorem edited_step (h : t.Rooted) (e : ChildEdit) :
    (∃ form location, e = .build (.ok form) location) ∨ t.Edited (e.step.after t) := by
  cases e with
  | build form location =>
    cases form with
    | error e => exact .inr .same
    | ok form => exact .inl ⟨form, location, rfl⟩
  | addChild parent child =>
    refine .inr (edited_edit fun _ t' hAdd => ?_)
    obtain ⟨t₁, hOk, hPure⟩ := bind_eq_ok.mp hAdd
    cases hPure
    exact Tree.addChild_edited h hOk
  | insertChild parent index child =>
    refine .inr (edited_edit fun _ t' hInsert => ?_)
    obtain ⟨t₁, hOk, hPure⟩ := bind_eq_ok.mp hInsert
    cases hPure
    exact Tree.insertChild_edited h hOk
  | removeChild parent child =>
    refine .inr ?_
    rw [step, Build.after_discard]
    exact edited_edit fun _ _ hOk => Tree.removeChild_edited hOk
  | replaceChild parent old next =>
    refine .inr ?_
    rw [step, Build.after_discard]
    exact edited_edit fun _ _ hOk => Tree.replaceChild_edited h hOk

theorem keeps_step (hI : BuildInvariant I) (e : ChildEdit) : e.step.Keeps I := by
  intro t h
  rcases edited_step (hI.rooted h) e with ⟨form, location, rfl⟩ | hEdit
  · exact Build.keeps_discard (hI.form.keeps_build form location) t h
  · exact hI.edited h hEdit

theorem keeps_run (hI : BuildInvariant I) (edits : List ChildEdit) (h : I t) :
    I (run edits t) := by
  induction edits generalizing t with
  | nil => exact h
  | cons e rest ih => exact ih (keeps_step hI e t h)

theorem wellLinked_run (h : t.WellLinked) (edits : List ChildEdit) : (run edits t).WellLinked :=
  keeps_run Tree.Linked.invariant edits h

end ChildEdit

end SemanticCore
