import SemanticCore.Proofs.Types.Assignment

/-!
# The order of implicit conversion

Conversions without a cast go upwards only: to more bits, to a base class, from a length to none. So
they order the types, but for two things: a character becomes any integer and an integer any float
type, though a character becomes no float; and unions that have variants of one another become each
other. What is converted is compatible.

* `Ty.Universe.convertsImplicitly_trans`: conversions compose where no character is converted.
* `Ty.alike_of_convertsImplicitly`: without unions, no two types become each other.
* `History.conversion_order`: the laws of implicit conversion for the types of one registry.
* `Ty.Universe.compatible_refl`: every type is compatible with itself.
* `History.converted_compatible`: a type is compatible with what it becomes.
-/

namespace SemanticCore

namespace Ty

variable {a b c : Ty} {T : Ty → Prop}

/-! ## Transitivity -/

theorem Universe.convertsImplicitly_trans (hT : Universe T) (ha : T a) (hb : T b) (hc : T c)
    (hChar : ∀ v, Reaches [.tuple, .union] a v → v ≠ .primitive .char)
    (h : a.convertsImplicitly b = true) (h' : b.convertsImplicitly c = true) :
    a.convertsImplicitly c = true := by
  induction a using Ty.partsInduction generalizing b c with
  | step a ih =>
    obtain ⟨hGuard, hFormer⟩ := convertsImplicitly_iff.mp h
    rcases hFormer with hEqual | hWidens
    · rwa [hT.eq_of_equal ha hb hEqual]
    rcases (convertsImplicitly_iff.mp h').2 with hEqual | hWidens'
    · rwa [← hT.eq_of_equal hb hc hEqual]
    have ha' := hT.part a ha
    have hb' := hT.part b hb
    have hc' := hT.part c hc
    refine convertsImplicitly_iff.mpr ⟨hGuard, .inr ?_⟩
    cases hWidens with
    | integer bits =>
      cases hWidens' with
      | integer bits' => exact .integer (bits.trans bits')
      | integerFloat => exact .integerFloat _ _
    | integerFloat =>
      cases hWidens' with
      | float => exact .integerFloat _ _
    | float bits =>
      cases hWidens' with
      | float bits' => exact .float (bits.trans bits')
    | char => exact absurd rfl (hChar _ (.self _))
    | array =>
      -- the length is gone, and there is nothing further to become
      cases hWidens' with
      | array fixed' => exact absurd rfl fixed'
    | tuple elements =>
      cases hWidens' with
      | tuple elements' =>
        refine .tuple (forall₂_trans_of_mem_all elements elements' fun t ht u hu v hv => ?_)
        exact ih t ht (ha' t ht) (hb' u hu) (hc' v hv)
          (forall_reaches_part hChar (by simp [kind]) ht)
    | union variants =>
      cases hWidens' with
      | union variants' =>
        refine .union fun t ht => ?_
        obtain ⟨u, hu, hFormer⟩ := variants t ht
        obtain ⟨v, hv, hLatter⟩ := variants' u hu
        exact ⟨v, hv, ih t ht (ha' t ht) (hb' u hu) (hc' v hv)
          (forall_reaches_part hChar (by simp [kind]) ht) hFormer hLatter⟩
    | pointer pointee =>
      cases hWidens' with
      | pointer pointee' => exact .pointer (isSubclassOf_trans pointee pointee')
    | reference referent =>
      cases hWidens' with
      | reference referent' => exact .reference (isSubclassOf_trans referent referent')
    | classType subclass =>
      cases hWidens' with
      | classType subclass' => exact .classType (isSubclassOf_trans subclass subclass')
      | _ => cases subclass

/-- A character becomes an integer, and that a float. -/
example : (primitive .char).convertsImplicitly (.primitive (.integer ⟨true, .w32⟩)) = true ∧
    (primitive (.integer ⟨true, .w32⟩)).convertsImplicitly (.primitive (.float .f64)) = true ∧
      (primitive .char).convertsImplicitly (.primitive (.float .f64)) = false := by
  cbv

/-! ## Antisymmetry -/

theorem alike_of_convertsImplicitly (hUnion : ∀ v, Reaches [.tuple] a v → v.kind ≠ .union)
    (h : a.convertsImplicitly b = true) (h' : b.convertsImplicitly a = true) : Alike a b := by
  induction a using Ty.partsInduction generalizing b with
  | step a ih =>
    rcases (convertsImplicitly_iff.mp h).2 with hEqual | hWidens
    · exact (equal_iff a b).mp hEqual
    rcases (convertsImplicitly_iff.mp h').2 with hEqual | hWidens'
    · exact ((equal_iff b a).mp hEqual).symm
    cases hWidens with
    | integer bits =>
      cases hWidens' with
      | integer bits' => exact absurd bits' bits.asymm
    | integerFloat => cases hWidens'
    | float bits =>
      cases hWidens' with
      | float bits' => exact absurd bits' bits.asymm
    | char => cases hWidens'
    | array =>
      cases hWidens' with
      | array fixed' => exact absurd rfl fixed'
    | tuple elements =>
      cases hWidens' with
      | tuple elements' =>
        refine .tuple (forall₂_of_both elements elements' fun t ht u => ih t ht ?_)
        exact forall_reaches_part hUnion (by simp [kind]) ht
    | union => exact absurd rfl (hUnion _ (.self _))
    | pointer pointee =>
      cases hWidens' with
      | pointer pointee' => exact absurd pointee' (isSubclassOf_asymm pointee)
    | reference referent =>
      cases hWidens' with
      | reference referent' => exact absurd referent' (isSubclassOf_asymm referent)
    | classType subclass =>
      cases hWidens' with
      | classType subclass' => exact absurd subclass' (isSubclassOf_asymm subclass)

/-- The order of the variants does not matter. -/
example :
    let former := union ⟨0, .eight, 64⟩ [.primitive .bool, .primitive .char]
    let latter := union ⟨0, .eight, 65⟩ [.primitive .char, .primitive .bool]
    former.convertsImplicitly latter = true ∧ latter.convertsImplicitly former = true := by
  cbv

end Ty

/-! ## The order on the types of one registry -/

namespace History

variable {interner : Interner} {first r : Registry} {es es' : List (TypeCall × Option Ty)}

/-- Among the types that one registry made since it was last cleared implicit conversion is
reflexive but for `void` and `auto`, transitive where it does not start from a character, alone or
within a tuple or a union, and antisymmetric where it does not start from a union, alone or within a
tuple. -/
theorem conversion_order {serial : Nat} {pointerSize : Number} (hNames : interner.Reached)
    (hCreate : Registry.create serial pointerSize = .ok first)
    (h : History interner.names first (es ++ es') r) (hClear : ∀ e ∈ es', e.1 ≠ .clear) :
    (∀ t, Composed (answers es') t → t ≠ .primitive .void → t ≠ .primitive .auto →
        t.convertsImplicitly t = true) ∧
      (∀ a b c, Composed (answers es') a → Composed (answers es') b → Composed (answers es') c →
        (∀ v, Ty.Reaches [.tuple, .union] a v → v ≠ .primitive .char) →
        a.convertsImplicitly b = true → b.convertsImplicitly c = true →
        a.convertsImplicitly c = true) ∧
      ∀ a b, Composed (answers es') a → Composed (answers es') b →
        (∀ v, Ty.Reaches [.tuple] a v → v.kind ≠ .union) →
        a.convertsImplicitly b = true → b.convertsImplicitly a = true → a = b := by
  have hT := h.universe_composed hNames hCreate hClear
  refine ⟨fun t _ => Ty.convertsImplicitly_refl, fun a b c ha hb hc hChar => ?_,
    fun a b ha hb hUnion hTo hFrom => ?_⟩
  · exact hT.convertsImplicitly_trans ha hb hc hChar
  · exact hT.eq_of_alike a b ha hb (Ty.alike_of_convertsImplicitly hUnion hTo hFrom)

/-- Three classes, each derived from the one before. -/
theorem conversion_order_heirs :
    let name := (Interner.start 0 default).1.empty
    (Ty.heir name 0).convertsImplicitly (Ty.heir name 0) = true ∧
      (Ty.heir name 2).convertsImplicitly (Ty.heir name 0) = true ∧
      ¬ (Ty.heir name 0).convertsImplicitly (Ty.heir name 1) = true := by
  intro name
  have hReached := Interner.Reached.start 0 default
  have hName := Interner.empty_mem_start 0 default
  obtain ⟨hSelf, hTrans, hAntisymm⟩ :=
    @conversion_order _ _ _ [] _ 0 8 hReached rfl (heirs hName 3) (heirCall_ne_clear name 3)
  have hComposed : ∀ k < 3, Composed (answers ((List.range 3).map (heirCall name)))
      (Ty.heir name k) := fun k hk => composed_heir hName hk
  have hNext : ∀ k, (Ty.heir name (k + 1)).convertsImplicitly (Ty.heir name k) = true :=
    fun k => Ty.convertsImplicitly_of_isSubclassOf (Ty.heir_isSubclassOf name k.lt_succ_self)
  refine ⟨?_, ?_, fun hBack => ?_⟩
  · exact hSelf _ (hComposed 0 (by decide)) nofun nofun
  · refine hTrans _ _ _ (hComposed 2 (by decide)) (hComposed 1 (by decide))
      (hComposed 0 (by decide)) ?_ (hNext 1) (hNext 0)
    exact Ty.forall_reaches_iff.mpr ⟨nofun, nofun⟩
  · have hEq := hAntisymm _ _ (hComposed 0 (by decide)) (hComposed 1 (by decide))
      (Ty.forall_reaches_iff.mpr ⟨nofun, nofun⟩) hBack (hNext 0)
    exact absurd (congrArg Ty.id hEq) (by decide)

end History

/-! ## Conversion and compatibility -/

namespace Ty

variable {a b : Ty} {T : Ty → Prop}

theorem Universe.compatible_refl (hT : Universe T) (ha : T a) : a.compatible a = true := by
  induction a using Ty.partsInduction with
  | step a ih =>
    have hParts : ∀ u ∈ a.parts, u.compatible u = true := fun u hu => ih u hu (hT.part a ha u hu)
    refine compatible_iff.mpr ?_
    cases a with
    | primitive p => exact .primitive p
    | array o e n => exact .array (hParts e List.mem_cons_self)
    | tuple o es => exact .tuple (List.forall₂_same.mpr hParts)
    | union o vs =>
      obtain ⟨v, hv⟩ := List.exists_mem_of_ne_nil vs ((hT.wellFormed _ ha).variants o vs rfl)
      exact .unions ⟨v, hv, v, hv, hParts v hv⟩
    | function => exact .function (equal_refl _)
    | structType => exact .structType (equal_refl _)
    | pointer => exact .pointer (.inl (convertsImplicitly_refl nofun nofun))
    | reference => exact .reference (.inl (convertsImplicitly_refl nofun nofun))
    | classType => exact .classes rfl rfl ((Alike.refl _).related_iff.mpr rfl)

theorem related_of_isSubclassOf (h : a.isSubclassOf b = true) : a.related b = true := by
  rw [related, derivesFrom_iff.mpr (isSubclassOf_iff.mp h).2, Bool.or_true, Bool.true_or]

theorem Universe.compatible_of_convertsImplicitly (hT : Universe T) (ha : T a) (hb : T b)
    (h : a.convertsImplicitly b = true) : a.compatible b = true := by
  induction a using Ty.partsInduction generalizing b with
  | step a ih =>
    have hEqualTypes : ∀ {t u}, T t → T u → t.equal u = true → t.compatible u = true := by
      intro t u ht hu hEqual
      rw [← hT.eq_of_equal ht hu hEqual]
      exact hT.compatible_refl ht
    rcases (convertsImplicitly_iff.mp h).2 with hEqual | hWidens
    · exact hEqualTypes ha hb hEqual
    have ha' := hT.part a ha
    have hb' := hT.part b hb
    refine compatible_iff.mpr ?_
    cases hWidens with
    | integer | integerFloat | float => exact .numeric rfl rfl
    | char k => exact .char k
    | array _ element =>
      exact .array (hEqualTypes (ha' _ List.mem_cons_self) (hb' _ List.mem_cons_self) element)
    | tuple elements =>
      refine .tuple (forall₂_of_mem (forall₂_and_mem elements) ?_)
      rintro t ht u ⟨hu, hConverts⟩
      exact ih t ht (ha' t ht) (hb' u hu) hConverts
    | @union o o' vs vs' variants =>
      -- some variant is compatible with another because there is one to be converted
      obtain ⟨v, hv⟩ := List.exists_mem_of_ne_nil vs ((hT.wellFormed _ ha).variants o vs rfl)
      obtain ⟨w, hw, hConverts⟩ := variants v hv
      exact .unions ⟨v, hv, w, hw, ih v hv (ha' v hv) (hb' w hw) hConverts⟩
    | pointer => exact .pointer (.inl h)
    | reference => exact .reference (.inl h)
    | classType subclass =>
      obtain ⟨⟨hFrom, hTo⟩, -⟩ := isSubclassOf_iff.mp subclass
      exact .classes hFrom hTo (related_of_isSubclassOf subclass)

end Ty

namespace History

variable {interner : Interner} {first r : Registry} {es es' : List (TypeCall × Option Ty)}

/-- Among the types that one registry made since it was last cleared a type is compatible with
whatever it is converted to without a cast, and all types are compatible with themselves. -/
theorem converted_compatible {serial : Nat} {pointerSize : Number} (hNames : interner.Reached)
    (hCreate : Registry.create serial pointerSize = .ok first)
    (h : History interner.names first (es ++ es') r) (hClear : ∀ e ∈ es', e.1 ≠ .clear) :
    (∀ a b, Composed (answers es') a → Composed (answers es') b →
        a.convertsImplicitly b = true → a.compatible b = true) ∧
      ∀ a, Composed (answers es') a → a.compatible a = true := by
  have hT := h.universe_composed hNames hCreate hClear
  refine ⟨fun a b ha hb => ?_, fun a ha => ?_⟩
  · exact hT.compatible_of_convertsImplicitly ha hb
  · exact hT.compatible_refl ha

/-- A class, and one that derives from it by way of a third. -/
theorem converted_compatible_heirs :
    let name := (Interner.start 0 default).1.empty
    (Ty.heir name 2).compatible (Ty.heir name 0) = true ∧
      (Ty.heir name 0).compatible (Ty.heir name 0) = true ∧
      (Ty.primitive .void).compatible (.primitive .void) = true := by
  intro name
  have hReached := Interner.Reached.start 0 default
  have hName := Interner.empty_mem_start 0 default
  obtain ⟨hConverted, hSelf⟩ :=
    @converted_compatible _ _ _ [] _ 0 8 hReached rfl (heirs hName 3) (heirCall_ne_clear name 3)
  have hFirst := composed_heir hName (show 0 < 3 by decide)
  have hLast := composed_heir hName (show 2 < 3 by decide)
  refine ⟨hConverted _ _ hLast hFirst ?_, hSelf _ hFirst, hSelf _ (.primitive .void)⟩
  exact Ty.convertsImplicitly_of_isSubclassOf (Ty.heir_isSubclassOf name Nat.zero_lt_two)

end History

end SemanticCore
