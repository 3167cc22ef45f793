import SemanticCore.Proofs.Interner.Placement
import SemanticCore.Proofs.Types.Universe

/-!
# The order of assignment

A place takes values of the same type, of subclasses, and, if its type is a union, of the variants.
So the types are ordered by what may be assigned to what, but for two things: nothing is assigned to
`void` and `auto`, and a union does not take the variants of its variants.

* `Ty.alike_of_assignableFrom`: types that may be assigned to each other are alike.
* `Ty.Universe.assignableFrom_trans`: assignment is transitive for targets without unions.
* `Ty.assignableFrom_self_iff`: which types may be assigned to themselves.
* `History.assignment_order`: the three laws for the types of one registry.
* `Ty.castable_of_assignable`: what may be assigned to a type without unions may be cast to it.
-/

namespace SemanticCore

namespace Ty

variable {a b c : Ty} {T : Ty → Prop}

/-! ## The same class or a subclass -/

theorem alike_of_equal_or_subclass (h : a.equal b = true ∨ b.isSubclassOf a = true)
    (h' : b.equal a = true ∨ a.isSubclassOf b = true) : Alike a b := by
  rcases h with hEqual | hSub
  · exact (equal_iff a b).mp hEqual
  · rcases h' with hEqual | hSub'
    · exact ((equal_iff b a).mp hEqual).symm
    · exact absurd hSub' (isSubclassOf_asymm hSub)

theorem Universe.equal_or_subclass_trans (hT : Universe T) (ha : T a) (hb : T b) (hc : T c)
    (h : a.equal b = true ∨ b.isSubclassOf a = true)
    (h' : b.equal c = true ∨ c.isSubclassOf b = true) :
    a.equal c = true ∨ c.isSubclassOf a = true := by
  rcases h with hEqual | hSub
  · rwa [hT.eq_of_equal ha hb hEqual]
  · rcases h' with hEqual | hSub'
    · rw [← hT.eq_of_equal hb hc hEqual]
      exact .inr hSub
    · exact .inr (isSubclassOf_trans hSub' hSub)

/-- A class takes its own values and those of its subclasses. -/
theorem assigns_class_iff (ha : a.isClass = true) :
    Assigns a b ↔ a.equal b = true ∨ b.isSubclassOf a = true := by
  cases a with
  | classType o hd fs base =>
    constructor
    · intro h
      cases h with
      | classes source => exact source
    · exact .classes
  | _ => cases ha

/-! ## Antisymmetry -/

/-- A union is assigned only to what is alike to it, or to a type of which a part is. -/
theorem alike_or_part_of_assigns_union {o : Origin} {vs : List Ty}
    (h : Assigns a (.union o vs)) :
    Alike a (.union o vs) ∨ ∃ w ∈ a.parts, Alike w (.union o vs) := by
  cases h with
  | union variant =>
    refine variant.imp (equal_iff _ _).mp fun ⟨w, hw, hEqual⟩ => ⟨w, hw, ?_⟩
    exact (equal_iff _ _).mp hEqual
  | function equal => exact .inl ((equal_iff _ _).mp equal)
  | structType equal => exact .inl ((equal_iff _ _).mp equal)
  | classes source =>
    rcases source with equal | subclass
    · exact .inl ((equal_iff _ _).mp equal)
    · cases subclass

theorem alike_of_assignableFrom (h : a.assignableFrom b = true)
    (h' : b.assignableFrom a = true) : Alike a b := by
  induction a using Ty.partsInduction generalizing b with
  | step a ih =>
    have hBack := assignableFrom_iff.mp h'
    cases assignableFrom_iff.mp h with
    | @primitive p => exact .primitive p
    | array element =>
      cases hBack with
      | array element' => exact .array (ih _ List.mem_cons_self element element')
    | tuple elements =>
      cases hBack with
      | tuple elements' =>
        exact .tuple (forall₂_of_both elements elements' fun t ht u => ih t ht)
    | union variant =>
      rcases variant with hEqual | ⟨v, hv, hEqual⟩
      · exact (equal_iff _ _).mp hEqual
      · rcases alike_or_part_of_assigns_union hBack with hAlike | ⟨w, hw, hAlike⟩
        · exact hAlike.symm
        · -- each would have the other within it
          exact absurd hAlike (not_alike_part hv ((equal_iff v b).mp hEqual) hw)
    | function equal => exact (equal_iff _ _).mp equal
    | structType equal => exact (equal_iff _ _).mp equal
    | pointer pointee =>
      cases hBack with
      | pointer pointee' => exact .pointer (alike_of_equal_or_subclass pointee pointee')
    | reference referent =>
      cases hBack with
      | reference referent' => exact .reference (alike_of_equal_or_subclass referent referent')
    | classes source =>
      rcases source with hEqual | hSub
      · exact (equal_iff _ _).mp hEqual
      · have hb := (isSubclassOf_iff.mp hSub).1.1
        exact alike_of_equal_or_subclass (.inr hSub) ((assigns_class_iff hb).mp hBack)

/-! ## Transitivity -/

theorem Universe.assignableFrom_trans (hT : Universe T) (ha : T a) (hb : T b) (hc : T c)
    (hUnion : ∀ v, Reaches [.array, .tuple] a v → v.kind ≠ .union)
    (h : a.assignableFrom b = true) (h' : b.assignableFrom c = true) :
    a.assignableFrom c = true := by
  induction a using Ty.partsInduction generalizing b c with
  | step a ih =>
    have hNext := assignableFrom_iff.mp h'
    have ha' := hT.part a ha
    have hb' := hT.part b hb
    have hc' := hT.part c hc
    have hEqual : a.equal b = true → a.assignableFrom c = true := by
      intro hEqual
      rwa [hT.eq_of_equal ha hb hEqual]
    cases assignableFrom_iff.mp h with
    | primitive => exact h'
    | array element =>
      cases hNext with
      | array element' =>
        refine assignableFrom_iff.mpr (.array ?_)
        exact ih _ List.mem_cons_self (ha' _ List.mem_cons_self) (hb' _ List.mem_cons_self)
          (hc' _ List.mem_cons_self)
          (forall_reaches_part hUnion (by simp [kind]) List.mem_cons_self) element element'
    | tuple elements =>
      cases hNext with
      | tuple elements' =>
        refine assignableFrom_iff.mpr (.tuple ?_)
        refine forall₂_trans_of_mem_all elements elements' fun t ht u hu v hv => ?_
        exact ih t ht (ha' t ht) (hb' u hu) (hc' v hv)
          (forall_reaches_part hUnion (by simp [kind]) ht)
    | union => exact absurd rfl (hUnion _ (.self _))
    | function equal => exact hEqual equal
    | structType equal => exact hEqual equal
    | pointer pointee =>
      cases hNext with
      | pointer pointee' =>
        refine assignableFrom_iff.mpr (.pointer ?_)
        exact hT.equal_or_subclass_trans (ha' _ List.mem_cons_self) (hb' _ List.mem_cons_self)
          (hc' _ List.mem_cons_self) pointee pointee'
    | reference referent =>
      cases hNext with
      | reference referent' =>
        refine assignableFrom_iff.mpr (.reference ?_)
        exact hT.equal_or_subclass_trans (ha' _ List.mem_cons_self) (hb' _ List.mem_cons_self)
          (hc' _ List.mem_cons_self) referent referent'
    | classes source =>
      rcases source with equal | hSub
      · exact hEqual equal
      · have hNext' := (assigns_class_iff (isSubclassOf_iff.mp hSub).1.1).mp hNext
        refine assignableFrom_iff.mpr (.classes ?_)
        exact hT.equal_or_subclass_trans ha hb hc (.inr hSub) hNext'

/-- A union within a union. -/
example :
    let inner := union ⟨0, .eight, 64⟩ [.primitive .bool, .primitive .char]
    let outer := union ⟨0, .eight, 65⟩ [inner, .primitive (.float .f64)]
    outer.assignableFrom inner = true ∧ inner.assignableFrom (.primitive .bool) = true ∧
      outer.assignableFrom (.primitive .bool) = false := by
  cbv

/-! ## Reflexivity -/

theorem assigns_self_iff : Assigns a a ↔ (a ≠ .primitive .void ∧ a ≠ .primitive .auto) ∧
    (a.kind ∈ [.array, .tuple] → ∀ u ∈ a.parts, u.assignableFrom u = true) := by
  constructor
  · intro h
    cases h with
    | primitive void auto =>
      exact ⟨⟨by simpa using void, by simpa using auto⟩, fun _ => List.forall_mem_nil _⟩
    | array element => exact ⟨⟨nofun, nofun⟩, fun _ => List.forall_mem_singleton.mpr element⟩
    | tuple elements => exact ⟨⟨nofun, nofun⟩, fun _ => List.forall₂_same.mp elements⟩
    | _ => exact ⟨⟨nofun, nofun⟩, nofun⟩
  · rintro ⟨⟨hVoid, hAuto⟩, hElements⟩
    cases a with
    | primitive p => exact .primitive (by simpa using hVoid) (by simpa using hAuto)
    | array o e n => exact .array (hElements (by simp [kind]) e List.mem_cons_self)
    | tuple o es => exact .tuple (List.forall₂_same.mpr (hElements (by simp [kind])))
    | union => exact .union (.inl (equal_refl _))
    | function => exact .function (equal_refl _)
    | pointer => exact .pointer (.inl (equal_refl _))
    | reference => exact .reference (.inl (equal_refl _))
    | structType => exact .structType (equal_refl _)
    | classType => exact .classes (.inl (equal_refl _))

/-- Whether a type may be assigned to itself is up to the elements in its arrays and tuples. -/
theorem assignableFrom_self_iff : a.assignableFrom a = true ↔
    ∀ v, Reaches [.array, .tuple] a v → v ≠ .primitive .void ∧ v ≠ .primitive .auto := by
  induction a using Ty.partsInduction with
  | step a ih =>
    rw [assignableFrom_iff, assigns_self_iff, forall_reaches_iff]
    exact and_congr_right fun _ => forall_congr' fun _ => forall₂_congr ih

end Ty

/-! ## The order on the types of one registry -/

namespace History

variable {interner : Interner} {first r : Registry} {es es' : List (TypeCall × Option Ty)}

/-- Among the types that one registry made since it was last cleared assignment is antisymmetric,
transitive for targets whose elements are no unions, and reflexive but for `void` and `auto`, alone
or as an element. -/
theorem assignment_order {serial : Nat} {pointerSize : Number} (hNames : interner.Reached)
    (hCreate : Registry.create serial pointerSize = .ok first)
    (h : History interner.names first (es ++ es') r) (hClear : ∀ e ∈ es', e.1 ≠ .clear) :
    (∀ t s, Composed (answers es') t → Composed (answers es') s →
        t.assignableFrom s = true → s.assignableFrom t = true → t = s) ∧
      (∀ t s u, Composed (answers es') t → Composed (answers es') s → Composed (answers es') u →
        (∀ v, Ty.Reaches [.array, .tuple] t v → v.kind ≠ .union) →
        t.assignableFrom s = true → s.assignableFrom u = true → t.assignableFrom u = true) ∧
      ∀ t, Composed (answers es') t → (t.assignableFrom t = true ↔
        ∀ v, Ty.Reaches [.array, .tuple] t v → v ≠ .primitive .void ∧ v ≠ .primitive .auto) := by
  have hT := h.universe_composed hNames hCreate hClear
  refine ⟨fun t s ht hs hTo hFrom => ?_, fun t s u ht hs hu hUnion => ?_, fun t _ => ?_⟩
  · exact hT.eq_of_alike t s ht hs (Ty.alike_of_assignableFrom hTo hFrom)
  · exact hT.assignableFrom_trans ht hs hu hUnion
  · exact Ty.assignableFrom_self_iff

/-- Three classes, each derived from the one before. -/
theorem assignment_order_heirs :
    let name := (Interner.start 0 default).1.empty
    (Ty.heir name 0).assignableFrom (Ty.heir name 2) = true ∧
      ¬ (Ty.heir name 1).assignableFrom (Ty.heir name 0) = true ∧
      (Ty.heir name 0).assignableFrom (Ty.heir name 0) = true := by
  intro name
  have hReached := Interner.Reached.start 0 default
  have hName := Interner.empty_mem_start 0 default
  obtain ⟨hAntisymm, hTrans, hSelf⟩ :=
    @assignment_order _ _ _ [] _ 0 8 hReached rfl (heirs hName 3) (heirCall_ne_clear name 3)
  have hComposed : ∀ k < 3, Composed (answers ((List.range 3).map (heirCall name)))
      (Ty.heir name k) := fun k hk => composed_heir hName hk
  have hNext : ∀ k, (Ty.heir name k).assignableFrom (Ty.heir name (k + 1)) = true := by
    intro k
    rw [Ty.assignableFrom_iff, Ty.assigns_class_iff (by cases k <;> rfl)]
    exact .inr (Ty.heir_isSubclassOf name k.lt_succ_self)
  have hNoElements : ∀ v, Ty.Reaches [.array, .tuple] (Ty.heir name 0) v → v = .heir name 0 :=
    Ty.forall_reaches_iff.mpr ⟨rfl, nofun⟩
  refine ⟨?_, fun hBack => ?_, ?_⟩
  · refine hTrans _ _ _ (hComposed 0 (by decide)) (hComposed 1 (by decide))
      (hComposed 2 (by decide)) (fun v hv => ?_) (hNext 0) (hNext 1)
    rw [hNoElements v hv]
    exact nofun
  · have hEq := hAntisymm _ _ (hComposed 1 (by decide)) (hComposed 0 (by decide)) hBack (hNext 0)
    exact absurd (congrArg Ty.id hEq) (by decide)
  · refine (hSelf _ (hComposed 0 (by decide))).mpr fun v hv => ?_
    rw [hNoElements v hv]
    exact ⟨nofun, nofun⟩

end History

/-! ## Assignment and casts -/

namespace Ty

variable {a b : Ty}

theorem ne_void_and_ne_auto (ha : a.isPrimitive = false) :
    a ≠ .primitive .void ∧ a ≠ .primitive .auto := by
  constructor <;>
  · rintro rfl
    cases ha

theorem convertsImplicitly_of_widens (ha : a.isPrimitive = false) (h : Widens a b) :
    a.convertsImplicitly b = true :=
  convertsImplicitly_iff.mpr ⟨ne_void_and_ne_auto ha, .inr h⟩

theorem convertsImplicitly_of_isSubclassOf (h : a.isSubclassOf b = true) :
    a.convertsImplicitly b = true := by
  cases a with
  | classType => exact convertsImplicitly_of_widens rfl (.classType h)
  | _ => cases h

theorem convertsImplicitly_of_equal (ha : a.isPrimitive = false) (h : a.equal b = true) :
    b.convertsImplicitly a = true := by
  have hb : b.isPrimitive = false := by
    cases b with
    | primitive p =>
      rw [equal_comm, primitive_equal_iff] at h
      rwa [h] at ha
    | _ => rfl
  exact convertsImplicitly_iff.mpr ⟨ne_void_and_ne_auto hb, .inl (equal_comm a b ▸ h)⟩

/-- Where no elements are compared one by one, and no variants are looked for, what may be assigned
is converted without a cast. -/
theorem Assigns.convertsImplicitly (h : Assigns a b) (hArray : ∀ o e n, a ≠ .array o e n)
    (hTuple : ∀ o es, a ≠ .tuple o es) (hUnion : ∀ o vs, a ≠ .union o vs) :
    b.convertsImplicitly a = true := by
  cases h with
  | primitive void auto =>
    exact convertsImplicitly_refl (by simpa using void) (by simpa using auto)
  | array => exact absurd rfl (hArray _ _ _)
  | tuple => exact absurd rfl (hTuple _ _)
  | union => exact absurd rfl (hUnion _ _)
  | function equal => exact convertsImplicitly_of_equal rfl equal
  | structType equal => exact convertsImplicitly_of_equal rfl equal
  | pointer pointee =>
    rcases pointee with hEqual | hSub
    · have hAlike := (equal_iff _ _).mp hEqual
      exact convertsImplicitly_of_equal rfl ((equal_iff _ _).mpr (.pointer hAlike))
    · exact convertsImplicitly_of_widens rfl (.pointer hSub)
  | reference referent =>
    rcases referent with hEqual | hSub
    · have hAlike := (equal_iff _ _).mp hEqual
      exact convertsImplicitly_of_equal rfl ((equal_iff _ _).mpr (.reference hAlike))
    · exact convertsImplicitly_of_widens rfl (.reference hSub)
  | classes source =>
    rcases source with hEqual | hSub
    · exact convertsImplicitly_of_equal rfl hEqual
    · exact convertsImplicitly_of_isSubclassOf hSub

/-- What may be assigned to a type in whose arrays and tuples there is no union may be cast to it,
whichever registries the two types come from. -/
theorem castable_of_assignable (hUnion : ∀ v, Reaches [.array, .tuple] a v → v.kind ≠ .union)
    (h : a.assignableFrom b = true) : b.convertsExplicitly a = true := by
  induction a using Ty.partsInduction generalizing b with
  | step a ih =>
    refine convertsExplicitly_iff.mpr ?_
    cases assignableFrom_iff.mp h with
    | array element =>
      refine .inr (.array (ih _ List.mem_cons_self ?_ element))
      exact forall_reaches_part hUnion (by simp [kind]) List.mem_cons_self
    | tuple elements =>
      refine .inr (.tuple (forall₂_of_mem elements fun t ht u => ih t ht ?_).flip)
      exact forall_reaches_part hUnion (by simp [kind]) ht
    | union => exact absurd rfl (hUnion _ (.self _))
    | _ => exact .inl ((assignableFrom_iff.mp h).convertsImplicitly (by simp) (by simp) (by simp))

/-- Tuples of two registries with arrays of pointers to a class and to one derived from it. -/
theorem castable_of_assignable_tuples :
    let place := tuple ⟨0, .eight, 72⟩ [.array ⟨0, .eight, 71⟩
      (.pointer ⟨0, .eight, 70⟩ (heir default 0)) 2, .primitive (.integer ⟨true, .w32⟩)]
    let value := tuple ⟨1, .eight, 72⟩ [.array ⟨1, .eight, 71⟩
      (.pointer ⟨1, .eight, 70⟩ (heir default 1)) 2, .primitive (.integer ⟨true, .w32⟩)]
    place.assignableFrom value = true ∧ value.convertsExplicitly place = true := by
  intro place value
  have hAssigns : Assigns place value := by
    refine .tuple (.cons (assignableFrom_iff.mpr (.array ?_))
      (.cons (assignableFrom_iff.mpr (.primitive nofun nofun)) .nil))
    exact assignableFrom_iff.mpr (.pointer (.inr (heir_isSubclassOf _ Nat.zero_lt_one)))
  have hAssignable := assignableFrom_iff.mpr hAssigns
  have hUnion : ∀ v, Reaches [.array, .tuple] place v → v.kind ≠ .union := by
    refine forall_reaches_iff.mpr ⟨nofun, fun _ => List.forall_mem_cons.mpr ⟨?_, ?_⟩⟩
    · refine forall_reaches_iff.mpr ⟨nofun, fun _ => List.forall_mem_singleton.mpr ?_⟩
      exact forall_reaches_iff.mpr ⟨nofun, nofun⟩
    · exact List.forall_mem_singleton.mpr (forall_reaches_iff.mpr ⟨nofun, nofun⟩)
  exact ⟨hAssignable, castable_of_assignable hUnion hAssignable⟩

end Ty

end SemanticCore
