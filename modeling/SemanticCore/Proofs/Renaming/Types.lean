import SemanticCore.Proofs.Renaming.Values

/-!
# Renaming of the types that a registry makes

A registry whose numbers are further on than those of another, and which has the renamed types under
the renamed keys, answers every renamed call with the renamed type. A key is made of the numbers of
the parts, and renaming moves all numbers of composites by the same amount and those of primitives
not at all, so renamed keys are equal exactly when the keys are.

* `Shape.request_rename_inj`: keys before and after renaming.
* `Registry.Alike`: registries that are alike.
* `Registry.Alike.call`: every call keeps them alike and gets like answers.
-/

namespace SemanticCore

variable {ρ : Renaming}

/-! ## Keys -/

/-- An outline with other numbers of types. -/
def Outline.map (f : Nat → Nat) : Outline → Outline
  | .array e n => .array (f e) n
  | .tuple es => .tuple (es.map f)
  | .union vs => .union (vs.map f)
  | .function ps r flags => .function (ps.map f) (f r) flags
  | .pointer t => .pointer (f t)
  | .reference t => .reference (f t)
  | .structType n flags fs => .structType n flags (fs.map (Prod.map id f))
  | .classType n flags b fs => .classType n flags (b.map f) (fs.map (Prod.map id f))

theorem Outline.map_injective {f : Nat → Nat} (hf : Function.Injective f) :
    Function.Injective (Outline.map f) := by
  have hFields : Function.Injective (List.map (Prod.map (id : Nat → Nat) f)) :=
    List.map_injective_iff.mpr (Function.injective_id.prodMap hf)
  intro a b h
  cases a <;> cases b <;>
    simp only [Outline.map, Outline.array.injEq, Outline.tuple.injEq, Outline.union.injEq,
      Outline.function.injEq, Outline.pointer.injEq, Outline.reference.injEq,
      Outline.structType.injEq, Outline.classType.injEq, hf.eq_iff, hFields.eq_iff,
      (List.map_injective_iff.mpr hf).eq_iff, (Option.map_injective hf).eq_iff,
      reduceCtorEq] at h ⊢ <;>
    exact h

namespace Shape

def rename (ρ : Renaming) : Shape → Shape
  | .array e n => .array (e.rename ρ) n
  | .tuple es => .tuple (es.map (Ty.rename ρ))
  | .union vs => .union (vs.map (Ty.rename ρ))
  | .function ps r f => .function (ps.map (Ty.rename ρ)) (r.rename ρ) f
  | .pointer t => .pointer (t.rename ρ)
  | .reference t => .reference (t.rename ρ)
  | .structType n f fs => .structType (ρ.name n) f (fs.map ρ.field)
  | .classType n f b fs => .classType (ρ.name n) f (b.map (Ty.rename ρ)) (fs.map ρ.field)

theorem outline_rename (s : Shape) : (s.rename ρ).outline = s.outline.map ρ.typeId := by
  have hId : Ty.id ∘ Ty.rename ρ = ρ.typeId ∘ Ty.id := funext fun t => t.id_rename ρ
  have hIds : Field.ids ∘ ρ.field = Prod.map id ρ.typeId ∘ Field.ids :=
    funext fun f => congrArg (Prod.mk f.1.id) (f.2.id_rename ρ)
  cases s <;>
    simp only [rename, outline, Outline.map, Ty.id_rename, List.map_map, Option.map_map, hId, hIds,
      Renaming.id_name]

theorem request_rename_inj {s s' : Shape} :
    (s.rename ρ).request = (s'.rename ρ).request ↔ s.request = s'.request := by
  rw [request_eq_iff, request_eq_iff, outline_rename, outline_rename,
    (Outline.map_injective ρ.typeId_injective).eq_iff]

end Shape

def TypeCall.rename (ρ : Renaming) : TypeCall → TypeCall
  | .array e n => .array (e.rename ρ) n
  | .tuple es => .tuple (es.map (Ty.rename ρ))
  | .union vs => .union (vs.map (Ty.rename ρ))
  | .function ps r f => .function (ps.map (Ty.rename ρ)) (r.rename ρ) f
  | .pointer t => .pointer (t.map (Ty.rename ρ))
  | .reference t => .reference (t.map (Ty.rename ρ))
  | .structType h fs => .structType (h.rename ρ) (fs.map ρ.field)
  | .classType h fs b => .classType (h.rename ρ) (fs.map ρ.field) (b.map (Ty.rename ρ))
  | .clear => .clear

/-! ## Registries -/

namespace Registry

/-- The entries of two tables for one shape and for the renamed one. -/
def SameEntry (ρ : Renaming) (e e' : Request × Ty) : Prop :=
  ∃ s : Shape, e.1 = s.request ∧ e'.1 = (s.rename ρ).request ∧ e'.2 = e.2.rename ρ

/-- The numbers of `r'` are further on than those of `r`, and what is in its table is renamed. -/
structure Alike (ρ : Renaming) (r r' : Registry) : Prop where
  serial_eq : r'.serial = r.serial
  pointerSize_eq : r'.pointerSize = r.pointerSize
  nextId_eq : r'.nextId = r.nextId + ρ.types
  reserved_le : Primitive.reserved ≤ r.nextId
  table : List.Forall₂ (SameEntry ρ) r.table r'.table

namespace Alike

variable {r r' : Registry}

theorem find?_eq (h : Alike ρ r r') (s : Shape) :
    r'.find? (s.rename ρ).request = (r.find? s.request).map (Ty.rename ρ) := by
  have hTable := h.table
  rw [find?, find?]
  generalize r.table = entries, r'.table = entries' at hTable
  induction hTable with
  | nil => rfl
  | cons hEntry _ ih =>
    obtain ⟨s', hKey, hKey', hType⟩ := hEntry
    have hSame : ((s.rename ρ).request == (s'.rename ρ).request) = (s.request == s'.request) := by
      rw [Bool.eq_iff_iff, beq_iff_eq, beq_iff_eq, Shape.request_rename_inj]
    rw [List.lookup_cons, List.lookup_cons, hKey, hKey', hSame, ih, hType]
    cases s.request == s'.request <;> rfl

theorem count_eq (h : Alike ρ r r') : r'.count = r.count := h.table.length_eq.symm

theorem origin_eq (h : Alike ρ r r') :
    (⟨r'.serial, r'.pointerSize, r'.nextId⟩ : Origin) =
      ρ.origin ⟨r.serial, r.pointerSize, r.nextId⟩ := by
  rw [Renaming.origin, ρ.typeId_of_le h.reserved_le, h.serial_eq, h.pointerSize_eq, h.nextId_eq]

/-- A request for a shape, made of like registries. -/
theorem obtain_shape (h : Alike ρ r r') (s : Shape) {make make' : Origin → Ty}
    (hMake : ∀ o, make' (ρ.origin o) = (make o).rename ρ) :
    ∃ after, r'.obtain (s.rename ρ).request make' = ((r.obtain s.request make).1.rename ρ, after) ∧
      Alike ρ (r.obtain s.request make).2 after := by
  have hFind := h.find?_eq s
  unfold Registry.obtain
  cases hFound : r.find? s.request with
  | some t =>
    rw [hFound, Option.map_some] at hFind
    rw [hFind]
    exact ⟨r', rfl, h⟩
  | none =>
    rw [hFound, Option.map_none] at hFind
    rw [hFind, h.origin_eq, hMake]
    refine ⟨_, rfl, h.serial_eq, h.pointerSize_eq, ?_, ?_, ?_⟩
    · show r'.nextId + 1 = r.nextId + 1 + ρ.types
      rw [h.nextId_eq, Nat.add_right_comm]
    · exact Nat.le_succ_of_le h.reserved_le
    · exact List.rel_append h.table (.cons ⟨s, rfl, rfl, rfl⟩ .nil)

theorem clear (h : Alike ρ r r') : Alike ρ r.clear r'.clear :=
  ⟨h.serial_eq, h.pointerSize_eq, h.nextId_eq, h.reserved_le, .nil⟩

/-- A registry that was cleared and a new one, for a shift by the numbers given before. -/
theorem new {pointerSize : Number} (h : Registry.create 0 pointerSize = .ok r)
    (hSerial : r'.serial = r.serial) (hPointerSize : r'.pointerSize = r.pointerSize)
    (hNextId : r'.nextId = r.nextId + ρ.types) : Alike ρ r r'.clear := by
  have hNew : Primitive.reserved ≤ r.nextId ∧ r.table = [] := by
    unfold Registry.create at h
    split at h
    · cases h
      exact ⟨Nat.le_refl _, rfl⟩
    · split at h <;> cases h
      exact ⟨Nat.le_refl _, rfl⟩
  exact ⟨hSerial, hPointerSize, hNextId, hNew.1, hNew.2 ▸ .nil⟩

/-- A renamed call gets the renamed answer. -/
theorem call (h : Alike ρ r r') (c : TypeCall) :
    ∃ after, r'.call (c.rename ρ) = ((r.call c).1.map (Ty.rename ρ), after) ∧
      Alike ρ (r.call c).2 after := by
  have hShape : ∀ (s : Shape) (make make' : Origin → Ty),
      (∀ o, make' (ρ.origin o) = (make o).rename ρ) →
        ∃ after, ((some (r'.obtain (s.rename ρ).request make').1,
            (r'.obtain (s.rename ρ).request make').2) : Option Ty × Registry) =
          ((some (r.obtain s.request make).1).map (Ty.rename ρ), after) ∧
          Alike ρ (r.obtain s.request make).2 after := by
    intro s make make' hMake
    obtain ⟨after, hEq, hAfter⟩ := h.obtain_shape s hMake
    exact ⟨after, by rw [hEq, Option.map_some], hAfter⟩
  cases c with
  | array e n =>
    cases hn : n.toNat? with
    | none =>
      simp only [Registry.call, TypeCall.rename, Registry.array, hn]
      exact ⟨r', rfl, h⟩
    | some m =>
      simp only [Registry.call, TypeCall.rename, Registry.array, hn]
      exact hShape (.array e m) (.array · e m) (.array · (e.rename ρ) m) fun _ => rfl
  | tuple es =>
    cases es with
    | nil => exact ⟨r', rfl, h⟩
    | cons t ts =>
      refine hShape (.tuple (t :: ts)) (.tuple · (t :: ts))
        (.tuple · ((t :: ts).map (Ty.rename ρ))) fun o => ?_
      rw [Ty.rename, Ty.renameAll_eq]
  | union vs =>
    cases vs with
    | nil => exact ⟨r', rfl, h⟩
    | cons t ts =>
      refine hShape (.union (t :: ts)) (.union · (t :: ts))
        (.union · ((t :: ts).map (Ty.rename ρ))) fun o => ?_
      rw [Ty.rename, Ty.renameAll_eq]
  | function ps t f =>
    refine hShape (.function ps t f) (.function · ps t f)
      (.function · (ps.map (Ty.rename ρ)) (t.rename ρ) f) fun o => ?_
    rw [Ty.rename, Ty.renameAll_eq]
  | pointer t =>
    cases t with
    | none => exact ⟨r', rfl, h⟩
    | some t =>
      simp only [Registry.call, TypeCall.rename, Registry.pointer, Option.map_some,
        Ty.stripReferences_rename]
      exact hShape (.pointer t.stripReferences) (.pointer · t.stripReferences)
        (.pointer · (t.stripReferences.rename ρ)) fun _ => rfl
  | reference t =>
    cases t with
    | none => exact ⟨r', rfl, h⟩
    | some t =>
      have hRefer := hShape (.reference t) (.reference · t) (.reference · (t.rename ρ)) fun _ => rfl
      cases t with
      | pointer o u => exact ⟨r', rfl, h⟩
      | _ => exact hRefer
  | structType hd fs =>
    refine hShape (.structType hd.name hd.flags fs) (.structType · hd fs)
      (.structType · (hd.rename ρ) (fs.map ρ.field)) fun o => ?_
    rw [Ty.rename, Ty.renameFields_eq]
  | classType hd fs b =>
    refine hShape (.classType hd.name hd.flags b fs) (.classType · hd fs b)
      (.classType · (hd.rename ρ) (fs.map ρ.field) (b.map (Ty.rename ρ))) fun o => ?_
    rw [Ty.rename, Ty.renameFields_eq, Ty.renameBase_eq]
  | clear => exact ⟨_, rfl, h.clear⟩

end Alike

end Registry

end SemanticCore
