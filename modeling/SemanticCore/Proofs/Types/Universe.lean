import Mathlib.Logic.Relation
import SemanticCore.Proofs.Types.OneRegistry
import SemanticCore.Proofs.Types.Relations
import SemanticCore.Proofs.Types.WellFormed

/-!
# Universes of types

Some laws of the relations between types hold only where equal types are one object, as those are
that one registry made since it was last cleared. Others are about types in which some kind of type
is not met on certain ways down.

* `Ty.Universe`: types that are well-formed, come with their parts, and are one if they are alike.
* `History.universe_composed`: the types of one registry are a universe.
* `Ty.Reaches`: the ways down through types of some kinds.
* `History.heirs`: one registry can make chains of derived classes of any length.
-/

namespace SemanticCore

namespace Ty

variable {a b t u : Ty} {T : Ty → Prop}

/-! ## Universes -/

/-- A universe has well-formed types with all their parts, and no two of them are alike. -/
structure Universe (T : Ty → Prop) : Prop where
  wellFormed : ∀ t, T t → t.WellFormed
  part : ∀ t, T t → ∀ u ∈ t.parts, T u
  eq_of_alike : ∀ t u, T t → T u → Alike t u → t = u

theorem Universe.eq_of_equal (hT : Universe T) (ha : T a) (hb : T b) (h : a.equal b = true) :
    a = b :=
  hT.eq_of_alike a b ha hb ((equal_iff a b).mp h)

/-! ## Ways down -/

/-- What is reached from a type by going, any number of times, from a type of one of some kinds to
one of its parts. -/
def Reaches (kinds : List TypeKind) : Ty → Ty → Prop :=
  Relation.ReflTransGen fun t u => t.kind ∈ kinds ∧ u ∈ t.parts

variable {kinds : List TypeKind} {P : Ty → Prop}

theorem Reaches.self (t : Ty) : Reaches kinds t t := .refl

/-- What holds of all that is reached from a type holds of all that is reached from its parts. -/
theorem forall_reaches_part (h : ∀ v, Reaches kinds t v → P v) (hKind : t.kind ∈ kinds)
    (hu : u ∈ t.parts) : ∀ v, Reaches kinds u v → P v :=
  fun v hv => h v (.head ⟨hKind, hu⟩ hv)

theorem forall_reaches_iff : (∀ v, Reaches kinds t v → P v) ↔
    P t ∧ (t.kind ∈ kinds → ∀ u ∈ t.parts, ∀ v, Reaches kinds u v → P v) := by
  constructor
  · exact fun h => ⟨h t (.self t), fun hKind u hu => forall_reaches_part h hKind hu⟩
  · rintro ⟨hSelf, hParts⟩ v hv
    rcases Relation.ReflTransGen.cases_head hv with rfl | ⟨u, ⟨hKind, hu⟩, hRest⟩
    · exact hSelf
    · exact hParts hKind u hu v hRest

end Ty

/-! ## Types of one registry -/

namespace Composed

variable {made : List Ty} {t u : Ty}

theorem known (h : Composed made t) : Known made t := by
  cases h with
  | primitive p => exact .inl ⟨p, rfl⟩
  | composite hMade => exact .inr hMade

theorem part (h : Composed made t) (hu : u ∈ t.parts) : Composed made u := by
  cases h with
  | primitive p => cases hu
  | composite _ hShape hParts =>
    rw [Ty.parts_of_shape hShape] at hu
    exact hParts u hu

end Composed

namespace History

variable {names : List Name} {first r : Registry} {es es' : List (TypeCall × Option Ty)} {t : Ty}

/-- What a registry made since it was last cleared, with all its parts, is a universe. -/
theorem universe_composed {interner : Interner} {serial : Nat} {pointerSize : Number}
    (hNames : interner.Reached) (hCreate : Registry.create serial pointerSize = .ok first)
    (h : History interner.names first (es ++ es') r) (hClear : ∀ e ∈ es', e.1 ≠ .clear) :
    Ty.Universe (Composed (answers es')) := by
  have hFirst := Registry.sound_create (N := (· ∈ interner.names)) hCreate
  have hN : NamesApart (· ∈ interner.names) := fun _ _ hm hn hId => hNames.eq_of_id hm hn hId
  have hAnswers : answers es' ⊆ answers (es ++ es') := by
    rw [answers, answers, List.filterMap_append]
    exact List.subset_append_right _ _
  exact {
    wellFormed := fun t ht => h.wellFormed_of_known hFirst (ht.known.mono hAnswers)
    part := fun t ht u hu => ht.part hu
    eq_of_alike := fun t u ht hu hAlike => ht.eq_of_alike hu
      (fun v hv w hw s => h.eq_of_shape_eq hFirst hN hClear hv hw) hAlike }

/-- All that a registry made is composed of what it made. -/
theorem composed_of_known (hFirst : first.Sound (· ∈ names) []) (h : History names first es r)
    (ht : Known (answers es) t) : Composed (answers es) t := by
  induction t using Ty.partsInduction with
  | step t ih =>
    rcases ht with ⟨p, rfl⟩ | hMade
    · exact .primitive p
    · obtain ⟨s, hs, hOver⟩ := (h.sound hFirst).shaped t hMade
      rw [Ty.parts_of_shape hs] at ih
      exact .composite hMade hs fun u hu => ih u hu (hOver.types u hu)

end History

/-! ## Chains of classes -/

namespace Ty

variable (name : Name)

/-- The classes of a chain in which each derives from the one before. -/
def heir : Nat → Ty
  | 0 => .classType ⟨0, .eight, 64⟩ ⟨name, Flags.none, [], none⟩ [] none
  | n + 1 => .classType ⟨0, .eight, 65 + n⟩ ⟨name, Flags.none, [], none⟩ [] (some (heir n))

theorem id_heir (n : Nat) : (heir name n).id = 64 + n := by
  cases n with
  | zero => rfl
  | succ n => exact Nat.add_right_comm 64 1 n

theorem heir_eq (n : Nat) : heir name n =
    .classType ⟨0, .eight, 64 + n⟩ ⟨name, Flags.none, [], none⟩ [] (heir name n).base? := by
  cases n with
  | zero => rfl
  | succ n =>
    rw [← Nat.add_assoc, Nat.add_right_comm]
    rfl

theorem base?_heir_ne {k n : Nat} (h : k < n) :
    (heir name n).base?.map id ≠ (heir name k).base?.map id := by
  obtain ⟨n, rfl⟩ := Nat.exists_eq_add_of_lt h
  intro hEq
  cases k with
  | zero => cases hEq
  | succ k =>
    have hId := Option.some.inj hEq
    rw [id_heir, id_heir] at hId
    omega

theorem heir_isSubclassOf {m n : Nat} (h : m < n) :
    (heir name n).isSubclassOf (heir name m) = true := by
  have hNext : ∀ k, (heir name (k + 1)).isSubclassOf (heir name k) = true := by
    intro k
    refine isSubclassOf_iff.mpr ⟨⟨rfl, ?_⟩, List.mem_cons_self⟩
    cases k <;> rfl
  induction n, h using Nat.le_induction with
  | base => exact hNext m
  | succ n _ ih => exact isSubclassOf_trans (hNext n) ih

end Ty

namespace History

variable (name : Name)

/-- The call for a class of a chain, and its answer. -/
def heirCall (n : Nat) : TypeCall × Option Ty :=
  (.classType ⟨name, Flags.none, [], none⟩ [] (Ty.heir name n).base?, some (Ty.heir name n))

/-- The registry after the calls for a chain of classes. -/
def heirRegistry (n : Nat) : Registry where
  serial := 0
  pointerSize := .eight
  nextId := 64 + n
  table := (List.range n).map fun k =>
    (.ofClass name Flags.none (Ty.heir name k).base? [], Ty.heir name k)

theorem heirCall_ne_clear (n : Nat) :
    ∀ e ∈ (List.range n).map (heirCall name), e.1 ≠ .clear := by
  intro e he
  obtain ⟨k, -, rfl⟩ := List.mem_map.mp he
  exact nofun

theorem answers_heirs (n : Nat) :
    answers ((List.range n).map (heirCall name)) = (List.range n).map (Ty.heir name) := by
  rw [answers, List.filterMap_map, ← List.filterMap_eq_map]
  rfl

theorem call_heirRegistry (n : Nat) :
    (heirRegistry name n).call (heirCall name n).1 =
      ((heirCall name n).2, heirRegistry name (n + 1)) := by
  have hNone : (heirRegistry name n).find?
      (.ofClass name Flags.none (Ty.heir name n).base? []) = none := by
    simp only [heirRegistry, Registry.find?, List.lookup_eq_none_iff, List.mem_map]
    rintro _ ⟨k, hk, rfl⟩
    exact bne_iff_ne.mpr (Request.ofClass_ne (Ty.base?_heir_ne name (List.mem_range.mp hk)))
  have hHeir := (Ty.heir_eq name n).symm
  simp only [heirCall, Registry.call, Registry.classType, Registry.obtain, hNone]
  simp only [heirRegistry, List.range_succ, List.map_append, List.map_singleton]
  rw [hHeir]
  rfl

/-- A registry can make chains of classes of any length. -/
theorem heirs {names : List Name} {name : Name} (hName : name ∈ names) (n : Nat) :
    History names (heirRegistry name 0) ((List.range n).map (heirCall name))
      (heirRegistry name n) := by
  induction n with
  | zero => exact .start
  | succ n ih =>
    rw [List.range_succ, List.map_append]
    refine ih.call_eq ⟨fun t ht => .inr ?_, List.forall_mem_singleton.mpr hName,
      List.forall_mem_singleton.mpr rfl⟩ (call_heirRegistry name n)
    rw [answers_heirs]
    cases n with
    | zero => cases ht
    | succ n =>
      obtain rfl : t = Ty.heir name n := by
        simpa [heirCall, TypeCall.types, Ty.heir, Ty.base?] using ht
      exact List.mem_map_of_mem (List.mem_range.mpr n.lt_succ_self)

theorem composed_heir {names : List Name} {name : Name} (hName : name ∈ names) {k n : Nat}
    (hk : k < n) : Composed (answers ((List.range n).map (heirCall name))) (Ty.heir name k) := by
  have hCreate : Registry.create 0 8 = .ok (heirRegistry name 0) := rfl
  refine (heirs hName n).composed_of_known (Registry.sound_create hCreate) (.inr ?_)
  rw [answers_heirs]
  exact List.mem_map_of_mem (List.mem_range.mpr hk)

end History

end SemanticCore
