import Mathlib.Logic.Equiv.Basic
import SemanticCore.Proofs.Arena.Handle
import SemanticCore.Proofs.Number.Natural
import SemanticCore.Proofs.Types.Canonicity
import SemanticCore.Proofs.Types.Structure
import SemanticCore.Scope.Basic
import SemanticCore.Types.Hash
import SemanticCore.Types.Measure
import SemanticCore.Types.Spelling

/-!
# Renaming of values

Two contexts that do the same give the values that they make different names: a handle counts the
generations before it, a name the eras, a composite type goes by the next number of its registry, a
scope by its place among all scopes, and the bytes of a name lie where there was room. A renaming
says by how much each of these is shifted and where the bytes of each name lie instead.

* `Renaming.node`, `Renaming.name`, `Renaming.origin`: the values renamed; no two become the same.
* `Ty.rename`: a type with all its parts renamed.
* `Ty.hash_rename`, `Ty.layout_rename`, `Ty.spell_rename`: what does not change in a type.
-/

namespace SemanticCore

/-- By how much the values of one context are shifted against those of another, and where the bytes
of the name with a number in an era lie instead of somewhere. -/
structure Renaming where
  generations : Nat
  eras : Nat
  types : Nat
  scopes : Nat
  place : Nat → Nat → Equiv.Perm View
  size_place : ∀ era id v, (place era id v).size = v.size

namespace Renaming

variable (ρ : Renaming)

/-! ## Handles -/

/-- A handle some generations later. What is no handle at all stays as it is. -/
def node (h : NodeId) : NodeId :=
  match h.toNat? with
  | some n => .ofNat (ρ.generations * Handle.span + n)
  | none => h

@[simp]
theorem node_ofNat (n : Nat) : ρ.node (.ofNat n) = .ofNat (ρ.generations * Handle.span + n) := by
  simp [node]

theorem node_of_toNat?_none {h : NodeId} (hNone : h.toNat? = none) : ρ.node h = h := by
  rw [node, hNone]

theorem toNat?_node (h : NodeId) :
    (ρ.node h).toNat? = h.toNat?.map (ρ.generations * Handle.span + ·) := by
  cases hNat : h.toNat? with
  | none => rw [ρ.node_of_toNat?_none hNat, hNat, Option.map_none]
  | some n => rw [Number.eq_ofNat_of_toNat? hNat, node_ofNat, Number.toNat?_ofNat, Option.map_some]

theorem node_injective : Function.Injective ρ.node := by
  intro h k hEq
  have hNat := congrArg Number.toNat? hEq
  rw [toNat?_node, toNat?_node] at hNat
  have hSame : h.toNat? = k.toNat? :=
    Option.map_injective (fun _ _ hAdd => Nat.add_left_cancel hAdd) hNat
  cases hh : h.toNat? with
  | none => rwa [ρ.node_of_toNat?_none hh, ρ.node_of_toNat?_none (hSame ▸ hh)] at hEq
  | some n =>
    exact (Number.eq_ofNat_of_toNat? hh).trans (Number.eq_ofNat_of_toNat? (hSame ▸ hh)).symm

@[simp]
theorem node_inj {h k : NodeId} : ρ.node h = ρ.node k ↔ h = k := ρ.node_injective.eq_iff

@[simp]
theorem node_beq (h k : NodeId) : (ρ.node h == ρ.node k) = (h == k) := by
  rw [Bool.eq_iff_iff, beq_iff_eq, beq_iff_eq, node_inj]

/-! ## Names -/

def name (n : Name) : Name :=
  { n with era := n.era + ρ.eras, view := ρ.place n.era n.id n.view }

theorem name_injective : Function.Injective ρ.name := by
  rintro ⟨era, id, text, hash, view⟩ ⟨era', id', text', hash', view'⟩ hEq
  simp only [name, Name.mk.injEq, Nat.add_right_cancel_iff] at hEq
  obtain ⟨rfl, rfl, rfl, rfl, hView⟩ := hEq
  rw [(ρ.place era id).injective hView]

@[simp]
theorem text_name (n : Name) : (ρ.name n).text = n.text := rfl

@[simp]
theorem id_name (n : Name) : (ρ.name n).id = n.id := rfl

@[simp]
theorem hash_name (n : Name) : (ρ.name n).hash = n.hash := rfl

@[simp]
theorem length_name (n : Name) : (ρ.name n).length = n.length := ρ.size_place n.era n.id n.view

@[simp]
theorem isEmpty_name (n : Name) : (ρ.name n).isEmpty = n.isEmpty := by
  rw [Name.isEmpty, length_name, Name.isEmpty]

@[simp]
theorem name_inj {m n : Name} : ρ.name m = ρ.name n ↔ m = n := ρ.name_injective.eq_iff

@[simp]
theorem name_beq (m n : Name) : (ρ.name m == ρ.name n) = (m == n) := by
  rw [Bool.eq_iff_iff, beq_iff_eq, beq_iff_eq, name_inj]

theorem contains_name (l : List Name) (n : Name) :
    (l.map ρ.name).contains (ρ.name n) = l.contains n := by
  rw [List.contains_eq_any_beq, List.contains_eq_any_beq, List.any_map]
  exact congrArg l.any (funext fun m => ρ.name_beq n m)

theorem order_name (m n : Name) : (ρ.name m).order (ρ.name n) = m.order n := by
  simp only [Name.order, name_inj, text_name]

/-! ## Numbers of types and scopes -/

/-- The number of a type; those of primitives are the same everywhere. -/
def typeId (i : Nat) : Nat := if i < Primitive.reserved then i else i + ρ.types

theorem typeId_injective : Function.Injective ρ.typeId := by
  intro i j hEq
  unfold typeId at hEq
  split at hEq <;> split at hEq <;> omega

theorem typeId_of_le {i : Nat} (h : Primitive.reserved ≤ i) : ρ.typeId i = i + ρ.types :=
  if_neg (Nat.not_lt.mpr h)

def origin (o : Origin) : Origin := { o with id := ρ.typeId o.id }

def key : TypeKey → TypeKey
  | .primitive p => .primitive p
  | .composite o => .composite (ρ.origin o)

def scope (i : Nat) : Nat := ρ.scopes + i

theorem scope_inj {i j : Nat} : ρ.scope i = ρ.scope j ↔ i = j := Nat.add_left_cancel_iff

end Renaming

/-! ## Types -/

def Method.rename (ρ : Renaming) (m : Method) : Method :=
  { name := ρ.name m.name, signature := ρ.key m.signature, declaration := m.declaration.map ρ.node }

def RecordHead.rename (ρ : Renaming) (h : RecordHead) : RecordHead :=
  { h with
    name := ρ.name h.name
    methods := h.methods.map (Method.rename ρ)
    declaration := h.declaration.map ρ.node }

@[simp]
theorem RecordHead.name_rename (ρ : Renaming) (h : RecordHead) :
    (h.rename ρ).name = ρ.name h.name := rfl

@[simp]
theorem RecordHead.flags_rename (ρ : Renaming) (h : RecordHead) : (h.rename ρ).flags = h.flags :=
  rfl

namespace Ty

mutual

/-- A type with its origin, its names and all its parts renamed. -/
def rename (ρ : Renaming) : Ty → Ty
  | .primitive p => .primitive p
  | .array o e n => .array (ρ.origin o) (rename ρ e) n
  | .tuple o es => .tuple (ρ.origin o) (renameAll ρ es)
  | .union o vs => .union (ρ.origin o) (renameAll ρ vs)
  | .function o ps r f => .function (ρ.origin o) (renameAll ρ ps) (rename ρ r) f
  | .pointer o t => .pointer (ρ.origin o) (rename ρ t)
  | .reference o t => .reference (ρ.origin o) (rename ρ t)
  | .structType o h fs => .structType (ρ.origin o) (h.rename ρ) (renameFields ρ fs)
  | .classType o h fs b =>
    .classType (ρ.origin o) (h.rename ρ) (renameFields ρ fs) (renameBase ρ b)
termination_by structural t => t

def renameAll (ρ : Renaming) : List Ty → List Ty
  | [] => []
  | t :: ts => rename ρ t :: renameAll ρ ts
termination_by structural ts => ts

def renameFields (ρ : Renaming) : List (Name × Ty) → List (Name × Ty)
  | [] => []
  | ⟨n, t⟩ :: fs => ⟨ρ.name n, rename ρ t⟩ :: renameFields ρ fs
termination_by structural fs => fs

def renameBase (ρ : Renaming) : Option Ty → Option Ty
  | none => none
  | some t => some (rename ρ t)
termination_by structural b => b

end

end Ty

def Renaming.field (ρ : Renaming) (f : Field) : Field := (ρ.name f.1, f.2.rename ρ)

namespace Ty

variable (ρ : Renaming)

@[simp]
theorem renameAll_eq (ts : List Ty) : renameAll ρ ts = ts.map (rename ρ) := by
  induction ts with
  | nil => rfl
  | cons t ts ih => rw [renameAll, ih, List.map_cons]

@[simp]
theorem renameFields_eq (fs : List Field) : renameFields ρ fs = fs.map ρ.field := by
  induction fs with
  | nil => rfl
  | cons f fs ih => rw [renameFields, ih, List.map_cons, Renaming.field]

@[simp]
theorem renameBase_eq (b : Option Ty) : renameBase ρ b = b.map (rename ρ) := by
  cases b <;> rfl

@[simp]
theorem key_rename (t : Ty) : (t.rename ρ).key = ρ.key t.key := by
  cases t <;> rfl

@[simp]
theorem id_rename (t : Ty) : (t.rename ρ).id = ρ.typeId t.id := by
  rw [id, key_rename, id]
  cases t.key with
  | primitive p => exact (if_pos p.id_lt).symm
  | composite o => rfl

theorem stripReferences_rename (t : Ty) :
    (t.rename ρ).stripReferences = t.stripReferences.rename ρ := by
  induction t using Ty.induction with
  | reference o t ih => exact ih
  | _ => rfl

/-! ## What does not change -/

theorem fieldHashes_rename {fs : List Field}
    (h : ∀ t ∈ fs.map Prod.snd, (t.rename ρ).hash = t.hash) :
    fieldHashes (fs.map ρ.field) = fieldHashes fs := by
  rw [fieldHashes, fieldHashes, List.flatMap_map]
  refine List.flatMap_congr fun f hf => ?_
  rw [← h f.2 (List.mem_map_of_mem hf)]
  rfl

theorem hash_rename (t : Ty) : (t.rename ρ).hash = t.hash := by
  have hAll : ∀ ts : List Ty, (∀ t ∈ ts, (t.rename ρ).hash = t.hash) →
      (ts.map (rename ρ)).map hash = ts.map hash := by
    intro ts h
    rw [List.map_map]
    exact List.map_congr_left h
  induction t using Ty.induction with
  | primitive p => rfl
  | array o e n ih => simp only [rename, hash_array, ih]
  | tuple o es ih => simp only [rename, hash_tuple, renameAll_eq, hAll es ih]
  | union o vs ih => simp only [rename, hash_union, renameAll_eq, hAll vs ih]
  | function o ps r f ihs ih => simp only [rename, hash_function, renameAll_eq, hAll ps ihs, ih]
  | pointer o t ih => simp only [rename, hash_pointer, ih]
  | reference o t ih => simp only [rename, hash_reference, ih]
  | structType o h fs ih =>
    simp only [rename, hash_structType, renameFields_eq, fieldHashes_rename ρ ih,
      RecordHead.name_rename, RecordHead.flags_rename, Renaming.hash_name]
  | classType o h fs b ih ihBase =>
    have hBase : baseHash (b.map (rename ρ)) = baseHash b := by
      cases b with
      | none => rfl
      | some t => exact ihBase t rfl
    simp only [rename, hash_classType, renameFields_eq, renameBase_eq, fieldHashes_rename ρ ih,
      RecordHead.name_rename, RecordHead.flags_rename, Renaming.hash_name, hBase]

theorem layout_rename (t : Ty) : (t.rename ρ).layout = t.layout := by
  have hAll : ∀ ts : List Ty, (∀ t ∈ ts, (t.rename ρ).layout = t.layout) →
      layouts (ts.map (rename ρ)) = layouts ts := by
    intro ts h
    rw [layouts, layouts, List.map_map]
    exact List.map_congr_left h
  induction t using Ty.induction with
  | primitive p => rfl
  | array o e n ih => simp only [rename, layout_array, ih, Renaming.origin]
  | tuple o es ih => simp only [rename, layout_tuple, renameAll_eq, hAll es ih]
  | union o vs ih => simp only [rename, layout_union, renameAll_eq, hAll vs ih]
  | function o ps r f ihs ih => simp only [rename, layout_function, Renaming.origin]
  | pointer o t ih => simp only [rename, layout_pointer, Renaming.origin]
  | reference o t ih => simp only [rename, layout_reference, Renaming.origin]
  | structType o h fs ih =>
    have hFields : fieldLayouts (fs.map ρ.field) = fieldLayouts fs := by
      have hTypes := hAll (fs.map Prod.snd) ih
      simpa [fieldLayouts, layouts, Renaming.field, Function.comp_def] using hTypes
    simp only [rename, layout_structType, renameFields_eq, hFields, RecordHead.flags_rename]
  | classType o h fs b => simp only [rename, layout_classType, Renaming.origin]

@[simp]
theorem recordName?_rename (t : Ty) : (t.rename ρ).recordName? = t.recordName? := by
  cases t <;> simp [rename, recordName?]

@[simp]
theorem isFunction_rename (t : Ty) : (t.rename ρ).isFunction = t.isFunction := by
  cases t <;> rfl

theorem spellAll_rename {ts : List Ty} (h : ∀ t ∈ ts, (t.rename ρ).spell = t.spell) :
    spellAll (ts.map (rename ρ)) = spellAll ts := by
  induction ts with
  | nil => rfl
  | cons t ts ih =>
    rw [List.forall_mem_cons] at h
    rw [List.map_cons, spellAll, spellAll, h.1, ih h.2]

theorem spellFields_rename {fs : List Field}
    (h : ∀ t ∈ fs.map Prod.snd, (t.rename ρ).spell = t.spell) :
    spellFields (fs.map ρ.field) = spellFields fs := by
  induction fs with
  | nil => rfl
  | cons f fs ih =>
    rw [List.map_cons, List.forall_mem_cons] at h
    rw [List.map_cons, Renaming.field, spellFields, spellFields, h.1, ih h.2, recordName?_rename,
      Renaming.text_name]

theorem spell_rename (t : Ty) : (t.rename ρ).spell = t.spell := by
  induction t using Ty.induction with
  | primitive p => rfl
  | array o e n ih => simp only [rename, spell, ih]
  | tuple o es ih => simp only [rename, spell, renameAll_eq, spellAll_rename ρ ih]
  | union o vs ih => simp only [rename, spell, renameAll_eq, spellAll_rename ρ ih]
  | function o ps r f ihs ih =>
    simp only [rename, spell, renameAll_eq, spellAll_rename ρ ihs, ih, isFunction_rename]
  | pointer o t ih => simp only [rename, spell, ih]
  | reference o t ih => simp only [rename, spell, ih]
  | structType o h fs ih =>
    simp only [rename, spell, renameFields_eq, spellFields_rename ρ ih, RecordHead.name_rename,
      RecordHead.flags_rename, Renaming.isEmpty_name, Renaming.text_name]
    rfl
  | classType o h fs b ih ihBase =>
    have hBase : spellBase (b.map (rename ρ)) = spellBase b := by
      cases b with
      | none => rfl
      | some t =>
        have hText := ihBase t rfl
        simp only [Option.map_some, spellBase, hText, recordName?_rename]
    simp only [rename, spell, renameFields_eq, renameBase_eq, spellFields_rename ρ ih, hBase,
      RecordHead.name_rename, Renaming.isEmpty_name, Renaming.text_name]

end Ty

end SemanticCore
