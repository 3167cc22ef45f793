import SemanticCore.Proofs.Types.Structure
import SemanticCore.Types.Relation

/-!
# Equality of types across registries

`Ty.equal` looks for one object first and for different hashes next; only then does it compare part
by part. Neither shortcut changes what it answers: it decides structural equality
(`Ty.equal_iff_alike`). The hash may be looked at first because all of it is made of what the
comparison compares, for types nested to any depth.
-/

namespace SemanticCore.Ty

/-! ## Lists of types, fields and base classes -/

theorem equalList_iff {ts us : List Ty} :
    equalList ts us = true ↔ List.Forall₂ (fun t u => t.equal u = true) ts us := by
  induction ts generalizing us with
  | nil => cases us <;> simp [equalList]
  | cons t ts ih => cases us <;> simp [equalList, ih]

theorem equalFields_iff {fs gs : List Field} :
    equalFields fs gs = true ↔ fs.map Prod.fst = gs.map Prod.fst ∧
      List.Forall₂ (fun t u => t.equal u = true) (fs.map Prod.snd) (gs.map Prod.snd) := by
  induction fs generalizing gs with
  | nil => cases gs <;> simp [equalFields]
  | cons f fs ih => cases gs <;> simp [equalFields, ih, and_assoc, and_left_comm]

theorem equalBase_iff {b c : Option Ty} :
    equalBase b c = true ↔ Option.Rel (fun t u => t.equal u = true) b c := by
  cases b <;> cases c <;> simp [equalBase]

/-! ## Structural equality -/

/-- The two shortcuts do not change what comparing the parts comes to. -/
theorem shortcuts_iff {a b : Ty} {parts : Bool} (hParts : parts = true ↔ Alike a b) :
    (a.isSame b || (a.hash == b.hash && parts)) = true ↔ Alike a b := by
  rw [Bool.or_eq_true, isSame_iff, Bool.and_eq_true, beq_iff_eq, hParts]
  constructor
  · rintro (rfl | ⟨-, hAlike⟩)
    · exact .refl a
    · exact hAlike
  · intro hAlike
    exact Or.inr ⟨hAlike.hash_eq, hAlike⟩

theorem equal_iff (a b : Ty) : a.equal b = true ↔ Alike a b := by
  have hList : ∀ {ts us : List Ty}, (∀ t ∈ ts, ∀ u, t.equal u = true ↔ Alike t u) →
      (List.Forall₂ (fun t u => t.equal u = true) ts us ↔ List.Forall₂ Alike ts us) :=
    fun ih => forall₂_iff_of_mem ih
  induction a using Ty.induction generalizing b with
  | primitive p =>
    unfold equal
    refine shortcuts_iff ?_
    cases b with
    | primitive q =>
      dsimp only
      rw [beq_iff_eq]
      exact ⟨fun h => h ▸ .primitive p, fun (.primitive _) => rfl⟩
    | _ => exact ⟨nofun, nofun⟩
  | array o e n ih =>
    unfold equal
    refine shortcuts_iff ?_
    cases b with
    | array o' e' n' =>
      dsimp only
      rw [Bool.and_eq_true, beq_iff_eq]
      exact ⟨fun ⟨hLength, hElement⟩ => hLength ▸ .array ((ih e').mp hElement),
        fun (.array h) => ⟨rfl, (ih e').mpr h⟩⟩
    | _ => exact ⟨nofun, nofun⟩
  | tuple o es ih =>
    unfold equal
    refine shortcuts_iff ?_
    cases b with
    | tuple o' es' =>
      dsimp only
      rw [equalList_iff, hList ih]
      exact ⟨.tuple, fun (.tuple h) => h⟩
    | _ => exact ⟨nofun, nofun⟩
  | union o vs ih =>
    unfold equal
    refine shortcuts_iff ?_
    cases b with
    | union o' vs' =>
      dsimp only
      rw [equalList_iff, hList ih]
      exact ⟨.union, fun (.union h) => h⟩
    | _ => exact ⟨nofun, nofun⟩
  | function o ps r f ihParams ihResult =>
    unfold equal
    refine shortcuts_iff ?_
    cases b with
    | function o' ps' r' f' =>
      dsimp only
      rw [Bool.and_eq_true, Bool.and_eq_true, beq_iff_eq, equalList_iff, hList ihParams]
      exact ⟨fun ⟨⟨hFlags, hParams⟩, hResult⟩ =>
          hFlags ▸ .function hParams ((ihResult r').mp hResult),
        fun (.function hParams hResult) => ⟨⟨rfl, hParams⟩, (ihResult r').mpr hResult⟩⟩
    | _ => exact ⟨nofun, nofun⟩
  | pointer o t ih =>
    unfold equal
    refine shortcuts_iff ?_
    cases b with
    | pointer o' t' =>
      exact ⟨fun h => .pointer ((ih t').mp h), fun (.pointer h) => (ih t').mpr h⟩
    | _ => exact ⟨nofun, nofun⟩
  | reference o t ih =>
    unfold equal
    refine shortcuts_iff ?_
    cases b with
    | reference o' t' =>
      exact ⟨fun h => .reference ((ih t').mp h), fun (.reference h) => (ih t').mpr h⟩
    | _ => exact ⟨nofun, nofun⟩
  | structType o hd fs ih =>
    unfold equal
    refine shortcuts_iff ?_
    cases b with
    | structType o' hd' fs' =>
      dsimp only
      rw [Bool.and_eq_true, Bool.and_eq_true, beq_iff_eq, beq_iff_eq, equalFields_iff, hList ih]
      exact ⟨fun ⟨⟨hName, hFlags⟩, hNames, hTypes⟩ => .structType hName hFlags hNames hTypes,
        fun (.structType hName hFlags hNames hTypes) => ⟨⟨hName, hFlags⟩, hNames, hTypes⟩⟩
    | _ => exact ⟨nofun, nofun⟩
  | classType o hd fs base ihFields ihBase =>
    unfold equal
    refine shortcuts_iff ?_
    cases b with
    | classType o' hd' fs' base' =>
      have hBase : equalBase base base' = true ↔ Option.Rel Alike base base' := by
        rw [equalBase_iff]
        constructor
        · rintro (h | _)
          · exact .some ((ihBase _ rfl _).mp h)
          · exact .none
        · rintro (h | _)
          · exact .some ((ihBase _ rfl _).mpr h)
          · exact .none
      dsimp only
      rw [Bool.and_eq_true, Bool.and_eq_true, Bool.and_eq_true, beq_iff_eq, beq_iff_eq,
        equalFields_iff, hList ihFields, hBase]
      exact ⟨fun ⟨⟨⟨hName, hFlags⟩, hNames, hTypes⟩, hRel⟩ =>
          .classType hName hFlags hNames hTypes hRel,
        fun (.classType hName hFlags hNames hTypes hRel) =>
          ⟨⟨⟨hName, hFlags⟩, hNames, hTypes⟩, hRel⟩⟩
    | _ => exact ⟨nofun, nofun⟩

/-- Equality of types is structural equality, whichever registries they come from. So it is an
equivalence, and types that are equal have the same hash. -/
theorem equal_iff_alike :
    (∀ a b : Ty, (a.equal b = true ↔ Alike a b) ∧ (a.equal b = true → a.hash = b.hash)) ∧
      Equivalence fun a b : Ty => a.equal b = true := by
  refine ⟨fun a b => ⟨equal_iff a b, fun h => ((equal_iff a b).mp h).hash_eq⟩, ?_⟩
  simp only [equal_iff]
  exact alike_equivalence

end SemanticCore.Ty
