import SemanticCore.Proofs.Types.Key

/-!
# Histories of a registry

A history is what one registry was asked and what it answered. The types that it is asked about are
primitives or answers from before, and its names are those of one interner.

* `TypeCall`: the calls of a registry.
* `TypeCall.shape?`: the shape that a call asks for, unless it is refused.
* `Shape.Regular`: the shapes that registries make; `TypeCall.regular_of_shape?`.
* `Registry.call_of_shape`: what a call does that is not refused; `Registry.called`: what any does.
* `History`: the histories.
-/

namespace SemanticCore

def Ty.shape? : Ty → Option Shape
  | .primitive _ => none
  | .array _ e n => some (.array e n)
  | .tuple _ es => some (.tuple es)
  | .union _ vs => some (.union vs)
  | .function _ ps r f => some (.function ps r f)
  | .pointer _ t => some (.pointer t)
  | .reference _ t => some (.reference t)
  | .structType _ h fs => some (.structType h.name h.flags fs)
  | .classType _ h fs b => some (.classType h.name h.flags b fs)

/-! ## Calls -/

/-- A call of a registry. -/
inductive TypeCall where
  | array (element : Ty) (length : Number)
  | tuple (elements : List Ty)
  | union (variants : List Ty)
  | function (params : List Ty) (result : Ty) (flags : Flags)
  | pointer (pointee : Option Ty)
  | reference (referent : Option Ty)
  | structType (head : RecordHead) (fields : List Field)
  | classType (head : RecordHead) (fields : List Field) (base : Option Ty)
  | clear

/-- The answer to a call and the registry after it. -/
def Registry.call (r : Registry) : TypeCall → Option Ty × Registry
  | .array e n => ((r.array e n).1.toOption, (r.array e n).2)
  | .tuple es => r.tuple es
  | .union vs => r.union vs
  | .function ps t f => (some (r.function ps t f).1, (r.function ps t f).2)
  | .pointer t => r.pointer t
  | .reference t => r.reference t
  | .structType h fs => (some (r.structType h fs).1, (r.structType h fs).2)
  | .classType h fs b => (some (r.classType h fs b).1, (r.classType h fs b).2)
  | .clear => (none, r.clear)

namespace TypeCall

/-- The shape that a call asks for. Refused are lengths that are no natural numbers, tuples and
unions of nothing, pointers and references to nothing, and references to pointers. -/
def shape? : TypeCall → Option Shape
  | array e n => n.toNat?.map (.array e)
  | tuple es => if es = [] then none else some (.tuple es)
  | union vs => if vs = [] then none else some (.union vs)
  | function ps r f => some (.function ps r f)
  | pointer t => t.map fun t => .pointer t.stripReferences
  | reference (some (.pointer ..)) => none
  | reference t => t.map .reference
  | structType h fs => some (.structType h.name h.flags fs)
  | classType h fs b => some (.classType h.name h.flags b fs)
  | clear => none

def types : TypeCall → List Ty
  | array e _ => [e]
  | tuple ts | union ts => ts
  | function ps r _ => r :: ps
  | pointer t | reference t => t.toList
  | structType _ fs => fs.map Prod.snd
  | classType _ fs b => b.toList ++ fs.map Prod.snd
  | clear => []

def names : TypeCall → List Name
  | structType h fs | classType h fs _ => h.name :: fs.map Prod.fst
  | _ => []

def numbers : TypeCall → List Number
  | array _ n => [n]
  | function _ _ f => [f]
  | structType h _ | classType h _ _ => [h.flags]
  | _ => []

end TypeCall

theorem Ty.kind_stripReferences (t : Ty) : t.stripReferences.kind ≠ .reference := by
  fun_induction Ty.stripReferences t with
  | case1 o t ih => exact ih
  | case2 t hOther =>
    cases t with
    | reference o t => exact absurd rfl (hOther o t)
    | primitive p => rcases p with ⟨⟩ | ⟨⟩ | _ | _ | _ | _ <;> exact nofun
    | _ => exact nofun

/-- A shape of which registries make types: a tuple or a union of something, no pointer to a
reference and no reference to a pointer. -/
def Shape.Regular : Shape → Prop
  | tuple ts | union ts => ts ≠ []
  | pointer t => t.kind ≠ .reference
  | reference t => t.kind ≠ .pointer
  | _ => True

theorem TypeCall.regular_of_shape? {c : TypeCall} {s : Shape} (h : c.shape? = some s) :
    s.Regular := by
  cases c with
  | array e n =>
    obtain ⟨m, -, rfl⟩ := Option.map_eq_some_iff.mp h
    trivial
  | tuple es =>
    simp only [TypeCall.shape?] at h
    split at h
    · cases h
    · cases h
      assumption
  | union vs =>
    simp only [TypeCall.shape?] at h
    split at h
    · cases h
    · cases h
      assumption
  | pointer t =>
    obtain ⟨t, -, rfl⟩ := Option.map_eq_some_iff.mp h
    exact t.kind_stripReferences
  | reference t =>
    cases t with
    | none => cases h
    | some t =>
      cases t with
      | pointer o t => cases h
      | primitive p =>
        cases h
        rcases p with ⟨⟩ | ⟨⟩ | _ | _ | _ | _ <;> exact nofun
      | _ =>
        cases h
        exact nofun
  | clear => cases h
  | _ =>
    cases h
    trivial

namespace Registry

variable {r : Registry} {c : TypeCall} {s : Shape}

/-- A call that is not refused gets the type of its shape. -/
theorem call_of_shape (h : c.shape? = some s) :
    ∃ make : Origin → Ty, (∀ o, (make o).shape? = some s ∧ (make o).key = .composite o) ∧
      r.call c = (some (r.obtain s.request make).1, (r.obtain s.request make).2) := by
  cases c with
  | array e n =>
    obtain ⟨m, hm, rfl⟩ := Option.map_eq_some_iff.mp h
    refine ⟨fun o => .array o e m, fun o => ⟨rfl, rfl⟩, ?_⟩
    simp only [call, Registry.array, hm]
    rfl
  | tuple es =>
    cases es with
    | nil => cases h
    | cons t ts =>
      cases h
      exact ⟨fun o => .tuple o (t :: ts), fun o => ⟨rfl, rfl⟩, rfl⟩
  | union vs =>
    cases vs with
    | nil => cases h
    | cons t ts =>
      cases h
      exact ⟨fun o => .union o (t :: ts), fun o => ⟨rfl, rfl⟩, rfl⟩
  | function ps t f =>
    cases h
    exact ⟨fun o => .function o ps t f, fun o => ⟨rfl, rfl⟩, rfl⟩
  | pointer t =>
    cases t with
    | none => cases h
    | some t =>
      cases h
      exact ⟨fun o => .pointer o t.stripReferences, fun o => ⟨rfl, rfl⟩, rfl⟩
  | reference t =>
    cases t with
    | none => cases h
    | some t =>
      cases t with
      | pointer o t => cases h
      | _ =>
        cases h
        exact ⟨fun o => .reference o _, fun o => ⟨rfl, rfl⟩, rfl⟩
  | structType hd fs =>
    cases h
    exact ⟨fun o => .structType o hd fs, fun o => ⟨rfl, rfl⟩, rfl⟩
  | classType hd fs b =>
    cases h
    exact ⟨fun o => .classType o hd fs b, fun o => ⟨rfl, rfl⟩, rfl⟩
  | clear => cases h

/-- A call that is refused changes nothing. -/
theorem call_of_no_shape (h : c.shape? = none) (hc : c ≠ .clear) : r.call c = (none, r) := by
  cases c with
  | array e n =>
    have hn : n.toNat? = none := by simpa [TypeCall.shape?] using h
    simp only [call, Registry.array, hn]
    rfl
  | tuple es =>
    cases es with
    | nil => rfl
    | cons t ts => cases h
  | union vs =>
    cases vs with
    | nil => rfl
    | cons t ts => cases h
  | function ps t f => cases h
  | pointer t =>
    cases t with
    | none => rfl
    | some t => cases h
  | reference t =>
    cases t with
    | none => rfl
    | some t =>
      cases t with
      | pointer o t => rfl
      | _ => cases h
  | structType hd fs => cases h
  | classType hd fs b => cases h
  | clear => exact absurd rfl hc

/-- All that a call can do: it is refused, it clears the registry, or it gets a type, which it finds
or makes with the next number. -/
inductive Called (r : Registry) (c : TypeCall) : Option Ty × Registry → Prop
  | refused (noShape : c.shape? = none) : Called r c (none, r)
  | cleared (clear : c = .clear) : Called r c (none, r.clear)
  | found {s : Shape} {t : Ty} (asked : c.shape? = some s) (found : r.find? s.request = some t) :
      Called r c (some t, r)
  | made {s : Shape} {t : Ty} (asked : c.shape? = some s) (shape : t.shape? = some s)
      (id : t.id = r.nextId) : Called r c
        (some t, { r with nextId := r.nextId + 1, table := r.table ++ [(s.request, t)] })

theorem called (r : Registry) (c : TypeCall) : r.Called c (r.call c) := by
  cases hs : c.shape? with
  | none =>
    by_cases hClear : c = .clear
    · subst hClear
      exact .cleared rfl
    · rw [call_of_no_shape hs hClear]
      exact .refused hs
  | some s =>
    obtain ⟨make, hMake, hCall⟩ := r.call_of_shape hs
    rw [hCall]
    cases hFound : r.find? s.request with
    | some t =>
      simp only [obtain, hFound]
      exact .found hs hFound
    | none =>
      obtain ⟨hShape, hKey⟩ := hMake ⟨r.serial, r.pointerSize, r.nextId⟩
      simp only [obtain, hFound]
      exact .made hs hShape (by rw [Ty.id, hKey]; rfl)

/-- What gets a type was asked for in a shape. -/
theorem exists_shape {t : Ty} (h : (r.call c).1 = some t) : ∃ s, c.shape? = some s := by
  have hCalled := r.called c
  generalize r.call c = after at h hCalled
  cases hCalled with
  | refused => cases h
  | cleared => cases h
  | found asked => exact ⟨_, asked⟩
  | made asked => exact ⟨_, asked⟩

end Registry

/-! ## Histories -/

/-- A primitive, or one of the types that were made. -/
def Known (made : List Ty) (t : Ty) : Prop := (∃ p, t = .primitive p) ∨ t ∈ made

/-- A call about known types, with names from `names`, whose numbers are doubles. -/
structure TypeCall.Lawful (names : List Name) (made : List Ty) (c : TypeCall) : Prop where
  types : ∀ t ∈ c.types, Known made t
  names : ∀ n ∈ c.names, n ∈ names
  numbers : ∀ x ∈ c.numbers, x.IsDouble

/-- The types among the answers. -/
def answers (es : List (TypeCall × Option Ty)) : List Ty := es.filterMap Prod.snd

/-- Calls of one registry and their answers, from a first state of it to a last. -/
inductive History (names : List Name) (first : Registry) :
    List (TypeCall × Option Ty) → Registry → Prop
  | start : History names first [] first
  | call {es : List (TypeCall × Option Ty)} {r : Registry} (h : History names first es r)
      (c : TypeCall) (hLawful : c.Lawful names (answers es)) :
      History names first (es ++ [(c, (r.call c).1)]) (r.call c).2

namespace History

variable {names : List Name} {first r : Registry} {es es' : List (TypeCall × Option Ty)}

theorem call_eq {c : TypeCall} {a : Option Ty} {r' : Registry} (h : History names first es r)
    (hLawful : c.Lawful names (answers es)) (hCall : r.call c = (a, r')) :
    History names first (es ++ [(c, a)]) r' := by
  have hNext := h.call c hLawful
  rwa [hCall] at hNext

/-- A history that does not end yet is one already. -/
theorem exists_prefix (h : History names first (es ++ es') r) : ∃ r, History names first es r := by
  generalize hAll : es ++ es' = all at h
  induction h generalizing es' with
  | start =>
    rw [(List.append_eq_nil_iff.mp hAll).1]
    exact ⟨first, History.start⟩
  | call h c hLawful ih =>
    rcases List.eq_nil_or_concat' es' with rfl | ⟨init, e, rfl⟩
    · rw [List.append_nil] at hAll
      subst hAll
      exact ⟨_, History.call h c hLawful⟩
    · rw [← List.append_assoc] at hAll
      exact ih (List.append_inj_left' hAll rfl)

/-- The last call of a history. -/
theorem exists_last {c : TypeCall} {a : Option Ty} (h : History names first (es ++ [(c, a)]) r) :
    ∃ r₁, History names first es r₁ ∧ c.Lawful names (answers es) ∧
      a = (r₁.call c).1 ∧ r = (r₁.call c).2 := by
  generalize hAll : es ++ [(c, a)] = all at h
  cases h with
  | start => exact absurd hAll (by simp)
  | @call all r₁ h d hLawful =>
    have hEs := List.append_inj_left' hAll rfl
    have hLast := List.append_inj_right' hAll rfl
    cases hLast
    subst hEs
    exact ⟨r₁, h, hLawful, rfl, rfl⟩

end History

end SemanticCore
