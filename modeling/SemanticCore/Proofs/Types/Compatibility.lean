import Mathlib.Data.List.Zip
import SemanticCore.Proofs.Types.Built
import SemanticCore.Proofs.Types.Relations

/-!
# Symmetry of compatibility

Compatibility goes by the kind of the first type. So a character is compatible with an integer, and
a union with what one of its variants is compatible with, but not the other way around. All other
pairs are compatible in both orders or in none, unless one of these two faces another within them.

* `Ty.OneWay`: the pairs that are compatible in one order only.
* `Ty.Faces`: the pairs within a pair that compatibility goes by.
* `Ty.compatible_comm`: compatibility is symmetric where no pair is one-way, and fails to be for
  one-way pairs.
* `Ty.union_float_oneWay`: a union and a float type are one.
-/

namespace SemanticCore.Ty

variable {a b x y : Ty}

/-- A pair of types of which the former is compatible with the latter only. -/
inductive OneWay : Ty → Ty → Prop
  | char (k : IntegerKind) : OneWay (.primitive .char) (.primitive (.integer k))
  | union {o : Origin} {vs : List Ty} {b : Ty} (other : b.kind ≠ .union)
      (variants : ∃ v ∈ vs, v.compatible b = true) : OneWay (.union o vs) b

/-- Two types face each other when others are compared: as themselves, as elements at the same
place, or as any two variants. -/
inductive Faces : Ty → Ty → Ty → Ty → Prop
  | self (a b : Ty) : Faces a b a b
  | array {o o' : Origin} {e e' x y : Ty} {n n' : Nat} (element : Faces e e' x y) :
      Faces (.array o e n) (.array o' e' n') x y
  | tuple {o o' : Origin} {es es' : List Ty} {t u x y : Ty} (place : (t, u) ∈ es.zip es')
      (element : Faces t u x y) : Faces (.tuple o es) (.tuple o' es') x y
  | union {o o' : Origin} {vs vs' : List Ty} {t u x y : Ty} (former : t ∈ vs) (latter : u ∈ vs')
      (variant : Faces t u x y) : Faces (.union o vs) (.union o' vs') x y

theorem mem_zip_swap {α β : Type} {l : List α} {l' : List β} {p : α × β} (h : p ∈ l.zip l') :
    p.swap ∈ l'.zip l := by
  rw [← List.zip_swap]
  exact List.mem_map_of_mem h

theorem Faces.swap (h : Faces a b x y) : Faces b a y x := by
  induction h with
  | self a b => exact .self b a
  | array _ ih => exact .array ih
  | tuple place _ ih => exact .tuple (mem_zip_swap place) ih
  | union former latter _ ih => exact .union latter former ih

/-- Only primitives convert to a type of another kind. -/
theorem kind_of_convertsImplicitly (h : a.convertsImplicitly b = true) :
    a.kind = b.kind ∨ a.isPrimitive = true ∧ b.isPrimitive = true := by
  rcases (convertsImplicitly_iff.mp h).2 with hEqual | hWidens
  · left
    cases (equal_iff a b).mp hEqual <;> rfl
  · cases hWidens with
    | integer | integerFloat | float | char => exact .inr ⟨rfl, rfl⟩
    | array | tuple | union | pointer | reference => exact .inl rfl
    | classType subclass =>
      cases b with
      | classType => exact .inl rfl
      | _ => cases subclass

/-- A type that is no primitive meets only types of its own kind by conversion. -/
theorem kind_of_converts (ha : a.isPrimitive = false)
    (h : a.convertsImplicitly b = true ∨ b.convertsImplicitly a = true) : b.kind = a.kind := by
  rcases h with h | h
  · rcases kind_of_convertsImplicitly h with hKind | ⟨hPrimitive, -⟩
    · exact hKind.symm
    · rw [ha] at hPrimitive
      cases hPrimitive
  · rcases kind_of_convertsImplicitly h with hKind | ⟨-, hPrimitive⟩
    · exact hKind
    · rw [ha] at hPrimitive
      cases hPrimitive

theorem meets_of_converts (hKind : a.kind = .pointer ∨ a.kind = .reference)
    (h : a.convertsImplicitly b = true ∨ b.convertsImplicitly a = true) : Meets a b := by
  cases a with
  | pointer => exact .pointer h
  | reference => exact .reference h
  | primitive p => cases p <;> rcases hKind with hKind | hKind <;> cases hKind
  | _ => rcases hKind with hKind | hKind <;> cases hKind

/-- Compatibility is turned around where no pair is one-way. -/
theorem compatible_swap (h : a.compatible b = true) (hNone : ∀ x y, Faces a b x y → ¬ OneWay x y) :
    b.compatible a = true := by
  induction a using Ty.partsInduction generalizing b with
  | step a ih =>
    refine compatible_iff.mpr ?_
    have hSelf := hNone a b (.self a b)
    cases compatible_iff.mp h with
    | primitive p => exact .primitive p
    | numeric source target => exact .numeric target source
    | char k => exact absurd (.char k) hSelf
    | array element =>
      exact .array (ih _ List.mem_cons_self element fun x y hFaces => hNone x y (.array hFaces))
    | tuple elements =>
      obtain ⟨hLength, hElements⟩ := List.forall₂_iff_zip.mp elements
      refine .tuple (List.forall₂_iff_zip.mpr ⟨hLength.symm, fun hMem => ?_⟩)
      have hPlace := mem_zip_swap hMem
      exact ih _ (List.of_mem_zip hPlace).1 (hElements hPlace)
        fun x y hFaces => hNone x y (.tuple hPlace hFaces)
    | unions variants =>
      obtain ⟨v, hv, w, hw, hCompatible⟩ := variants
      exact .unions ⟨w, hw, v, hv,
        ih v hv hCompatible fun x y hFaces => hNone x y (.union hv hw hFaces)⟩
    | union other variants => exact absurd (.union other variants) hSelf
    | function equal =>
      rw [equal_comm] at equal
      cases (equal_iff _ _).mp equal with
      | function => exact .function equal
    | structType equal =>
      rw [equal_comm] at equal
      cases (equal_iff _ _).mp equal with
      | structType => exact .structType equal
    | pointer converts =>
      exact meets_of_converts (.inl (kind_of_converts rfl converts)) converts.symm
    | reference converts =>
      exact meets_of_converts (.inr (kind_of_converts rfl converts)) converts.symm
    | classes source target related => exact .classes target source (related_comm _ _ ▸ related)

/-- Other types than unions are compatible with no union. -/
theorem not_meets_union {o : Origin} {vs : List Ty} (ha : a.kind ≠ .union) :
    ¬ Meets a (.union o vs) := by
  intro hMeets
  cases hMeets with
  | numeric _ target => cases target
  | unions => exact ha rfl
  | union other => exact other rfl
  | function equal => cases (equal_iff _ _).mp equal
  | structType equal => cases (equal_iff _ _).mp equal
  | pointer converts => cases kind_of_converts rfl converts
  | reference converts => cases kind_of_converts rfl converts
  | classes _ target => cases target

theorem OneWay.compatible (h : OneWay a b) : a.compatible b = true ∧ b.compatible a = false := by
  rw [← Bool.not_eq_true, compatible_iff, compatible_iff]
  cases h with
  | char k =>
    refine ⟨.char k, fun hMeets => ?_⟩
    cases hMeets with
    | numeric _ target => cases target
    | classes source => cases source
  | union other variants => exact ⟨.union other variants, not_meets_union other⟩

/-- Compatibility is symmetric for all types within which no pair is one-way, and for one-way pairs
it is not. -/
theorem compatible_comm (a b : Ty) :
    ((∀ x y, Faces a b x y → ¬ OneWay x y ∧ ¬ OneWay y x) → a.compatible b = b.compatible a) ∧
      (OneWay a b → a.compatible b = true ∧ b.compatible a = false) := by
  refine ⟨fun hNone => ?_, OneWay.compatible⟩
  refine Bool.eq_iff_iff.mpr ⟨fun h => ?_, fun h => ?_⟩
  · exact compatible_swap h fun x y hFaces => (hNone x y hFaces).1
  · exact compatible_swap h fun x y hFaces => (hNone y x hFaces.swap).2

theorem compatible_comm_unions :
    (union ⟨0, .eight, 64⟩ [.primitive .bool, .primitive (.integer ⟨true, .w32⟩)]).compatible
        (union ⟨0, .eight, 65⟩ [.primitive (.float .f64)]) =
      (union ⟨0, .eight, 65⟩ [.primitive (.float .f64)]).compatible
        (union ⟨0, .eight, 64⟩ [.primitive .bool, .primitive (.integer ⟨true, .w32⟩)]) := by
  have hSelf : ∀ {o o' vs vs'}, ¬ OneWay (.union o vs) (.union o' vs') := by
    rintro o o' vs vs' (- | ⟨other, -⟩)
    exact other rfl
  refine (compatible_comm _ _).1 fun x y hFaces => ?_
  cases hFaces with
  | self => exact ⟨hSelf, hSelf⟩
  | union hFormer hLatter hVariant =>
    simp only [List.mem_cons, List.not_mem_nil, or_false] at hFormer hLatter
    obtain rfl := hLatter
    rcases hFormer with rfl | rfl
    · cases hVariant
      exact ⟨nofun, nofun⟩
    · cases hVariant
      exact ⟨nofun, nofun⟩

/-- A union with an integer among its variants is compatible with a float type. -/
theorem union_float_oneWay :
    let former := union ⟨0, .eight, 64⟩ [.primitive .bool, .primitive (.integer ⟨true, .w32⟩)]
    let latter := primitive (.float .f64)
    former.Built ∧ former.compatible latter = true ∧ latter.compatible former = false := by
  intro former latter
  have hOneWay : OneWay former latter := by
    refine .union (fun hKind => by cases hKind) ⟨_, List.mem_cons_of_mem _ List.mem_cons_self, ?_⟩
    exact compatible_iff.mpr (.numeric rfl rfl)
  exact ⟨⟨0, 8, _, [], .union [.primitive .bool, .primitive (.integer ⟨true, .w32⟩)], rfl, rfl⟩,
    hOneWay.compatible⟩

end SemanticCore.Ty
