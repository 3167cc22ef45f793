import SemanticCore.Proofs.Types.Built
import SemanticCore.Proofs.Types.Inheritance

/-!
# Lookups of fields by name

A record knows its own fields by their number. For a class, the other lookups by name go through the
flattened fields, where those that it inherits come first. So of several fields with one name they
find that of the class farthest along the chain, which is the own field only if no class that is
derived from declares the name.

* `Ty.inheritedFields`: what comes before the own fields of a class.
* `Ty.flattenedIndex?_eq_some_iff`: when the own field is found among the flattened ones.
* `Ty.Introduces`: the class of a chain whose field is found.
* `Ty.fieldLookups_agree_iff`: when the lookups of a field agree.
* `Ty.redeclared_field_hidden`: a field whose name is declared by the base class, too.
-/

namespace SemanticCore.Ty

variable {c t : Ty} {name : Name} {i j : Nat}

/-! ## Inherited fields -/

/-- The fields that a class has from its base class. -/
def inheritedFields (t : Ty) : List Field := (t.base?.map flattenedFields).getD []

theorem flattenedFields_eq (h : t.isClass = true) :
    t.flattenedFields = t.inheritedFields ++ t.fields := by
  cases t with
  | classType o hd fs base => cases base <;> rfl
  | _ => cases h

theorem getElem?_flattenedFields (h : t.isClass = true) (i : Nat) :
    t.flattenedFields[t.inheritedFields.length + i]? = t.fields[i]? := by
  rw [flattenedFields_eq h, List.getElem?_append_right (Nat.le_add_right _ _),
    Nat.add_sub_cancel_left]

/-- The flattened fields are those of the classes along the chain. -/
theorem mem_flattenedFields_iff {f : Field} :
    f ∈ t.flattenedFields ↔ ∃ c ∈ t.chain, c.isClass = true ∧ f ∈ c.fields := by
  induction t using Ty.induction with
  | classType o h fs base _ ih =>
    cases base with
    | none => simp [flattenedFields, chain, ancestors, isClass, fields]
    | some b =>
      have hBase := ih b rfl
      rw [chain] at hBase
      simp [flattenedFields, chain, ancestors, isClass, fields, or_comm, hBase]
  | _ => simp [flattenedFields, chain, ancestors, isClass]

theorem mem_inheritedFields_iff {f : Field} :
    f ∈ t.inheritedFields ↔ ∃ c, t.isSubclassOf c = true ∧ f ∈ c.fields := by
  simp only [isSubclassOf_iff]
  cases t with
  | classType o h fs base =>
    cases base with
    | none => simp [inheritedFields, base?, ancestors]
    | some b =>
      rw [inheritedFields, base?, Option.map_some, Option.getD_some, mem_flattenedFields_iff,
        ancestors]
      constructor
      · rintro ⟨c, hc, hClass, hf⟩
        exact ⟨c, ⟨⟨rfl, hClass⟩, hc⟩, hf⟩
      · rintro ⟨c, ⟨⟨-, hClass⟩, hc⟩, hf⟩
        exact ⟨c, hc, hClass, hf⟩
  | _ => simp [inheritedFields, base?, ancestors]

theorem findIdx?_inheritedFields_iff :
    t.inheritedFields.findIdx? (·.1 == name) = none ↔
      ∀ c, t.isSubclassOf c = true → c.fieldIndex? name = none := by
  simp only [fieldIndex?, List.findIdx?_eq_none_iff, mem_inheritedFields_iff]
  constructor
  · exact fun h c hc f hf => h f ⟨c, hc, hf⟩
  · rintro h f ⟨c, hc, hf⟩
    exact h c hc f hf

/-- A class finds its own field among the flattened ones only if it inherits none of that name. -/
theorem flattenedIndex?_eq_some_iff (hClass : t.isClass = true)
    (hIndex : t.fieldIndex? name = some i) :
    t.flattenedIndex? name = some (t.inheritedFields.length + i) ↔
      ∀ c, t.isSubclassOf c = true → c.fieldIndex? name = none := by
  rw [fieldIndex?] at hIndex
  rw [flattenedIndex?, flattenedFields_eq hClass, List.findIdx?_append, hIndex,
    ← findIdx?_inheritedFields_iff]
  cases hInherited : t.inheritedFields.findIdx? (·.1 == name) with
  | none => simp [Nat.add_comm]
  | some k =>
    obtain ⟨hLt, -⟩ := List.findIdx?_eq_some_iff_getElem.mp hInherited
    simp only [Option.some_or, Option.some.injEq, reduceCtorEq, iff_false]
    omega

/-! ## Where a name comes from -/

/-- A class on the chain of `t` introduces a name with one of its fields: none of the classes that
it derives from declares the name. -/
structure Introduces (t c : Ty) (name : Name) (j : Nat) : Prop where
  onChain : c = t ∨ t.isSubclassOf c = true
  index : c.fieldIndex? name = some j
  above : ∀ d, c.isSubclassOf d = true → d.fieldIndex? name = none

/-- Every name of a flattened field is introduced. -/
theorem exists_introduces (hClass : t.isClass = true)
    (h : (t.flattenedIndex? name).isSome = true) : ∃ c j, Introduces t c name j := by
  induction t using Ty.induction with
  | classType o hd fs base _ ih =>
    cases hInherited : (classType o hd fs base).inheritedFields.findIdx? (·.1 == name) with
    | none =>
      rw [flattenedIndex?, flattenedFields_eq hClass, List.findIdx?_append, hInherited,
        Option.none_or, Option.isSome_map] at h
      obtain ⟨j, hj⟩ := Option.isSome_iff_exists.mp h
      exact ⟨_, j, .inl rfl, hj, findIdx?_inheritedFields_iff.mp hInherited⟩
    | some k =>
      cases base with
      | none => cases hInherited
      | some b =>
        -- what is inherited is among the flattened fields of the base class
        have hBase : (b.flattenedIndex? name).isSome = true :=
          Option.isSome_iff_exists.mpr ⟨k, hInherited⟩
        have hb : b.isClass = true := by
          cases b with
          | classType => rfl
          | _ => cases hBase
        have hSub : (classType o hd fs (some b)).isSubclassOf b = true :=
          isSubclassOf_iff.mpr ⟨⟨hClass, hb⟩, List.mem_cons_self⟩
        obtain ⟨c, j, hChain, hIndex, hAbove⟩ := ih b rfl hb hBase
        refine ⟨c, j, .inr ?_, hIndex, hAbove⟩
        rcases hChain with rfl | hChain
        · exact hSub
        · exact isSubclassOf_trans hSub hChain
  | _ => cases hClass

namespace Introduces

theorem isClass (h : Introduces t c name j) (hClass : t.isClass = true) : c.isClass = true := by
  rcases h.onChain with rfl | hSub
  · exact hClass
  · exact (isSubclassOf_iff.mp hSub).1.2

theorem prefix_flattenedFields (h : Introduces t c name j) :
    c.flattenedFields <+: t.flattenedFields := by
  rcases h.onChain with rfl | hSub
  · exact List.prefix_rfl
  · exact flattenedFields_prefix_of_mem (isSubclassOf_iff.mp hSub).2

/-- The field that introduces a name is the one that is found. -/
theorem lookups (h : Introduces t c name j) (hClass : t.isClass = true) :
    t.flattenedIndex? name = some (c.inheritedFields.length + j) ∧
      t.fieldType? name = c.fields[j]?.map Prod.snd := by
  have hc := h.isClass hClass
  have hOwn := (flattenedIndex?_eq_some_iff hc h.index).mpr h.above
  obtain ⟨hLt, -⟩ := List.findIdx?_eq_some_iff_getElem.mp hOwn
  have hFound := h.prefix_flattenedFields.findIdx?_eq_some hOwn
  refine ⟨hFound, ?_⟩
  -- what a derived class adds comes later
  obtain ⟨later, hLater⟩ := h.prefix_flattenedFields
  rw [fieldType?, visibleFields, if_pos hClass, List.find?_eq_bind_findIdx?_getElem?, hFound,
    Option.bind_some, ← hLater, List.getElem?_append_left hLt, getElem?_flattenedFields hc]

end Introduces

/-! ## Agreement -/

/-- What the lookups find for the name of a field that a record declares. In a struct it is this
field. A class has it among the flattened fields, after the inherited ones, but the lookups find it
there exactly if no class that is derived from declares the name; they find the field that
introduces the name. -/
theorem fieldLookups_agree_iff (h : t.fieldIndex? name = some i) :
    ∃ own, t.fields[i]? = some own ∧ own.1 = name ∧
      (t.isClass = false → t.fieldType? name = some own.2) ∧
      (t.isClass = true →
        t.flattenedFields[t.inheritedFields.length + i]? = some own ∧
        (t.flattenedIndex? name = some (t.inheritedFields.length + i) ↔
          ∀ c, t.isSubclassOf c = true → c.fieldIndex? name = none) ∧
        ((∀ c, t.isSubclassOf c = true → c.fieldIndex? name = none) →
          t.fieldType? name = some own.2) ∧
        ∃ c j, Introduces t c name j ∧
          t.flattenedIndex? name = some (c.inheritedFields.length + j) ∧
          t.fieldType? name = c.fields[j]?.map Prod.snd) := by
  obtain ⟨hi, hName, -⟩ := List.findIdx?_eq_some_iff_getElem.mp h
  have hOwn := List.getElem?_eq_getElem hi
  refine ⟨t.fields[i], hOwn, beq_iff_eq.mp hName, fun hStruct => ?_,
    fun hClass => ⟨?_, flattenedIndex?_eq_some_iff hClass h, fun hNone => ?_, ?_⟩⟩
  · rw [fieldIndex?] at h
    rw [fieldType?, visibleFields, hStruct, if_neg Bool.false_ne_true,
      List.find?_eq_bind_findIdx?_getElem?, h, Option.bind_some, hOwn]
    rfl
  · rw [getElem?_flattenedFields hClass, hOwn]
  · have hIntroduces : Introduces t t name i := ⟨.inl rfl, h, hNone⟩
    rw [(hIntroduces.lookups hClass).2, hOwn]
    rfl
  · have hSome : (t.flattenedIndex? name).isSome = true := by
      rw [flattenedIndex?, flattenedFields_eq hClass, List.findIdx?_append, Option.isSome_or,
        Option.isSome_map, Bool.or_eq_true]
      exact .inr (Option.isSome_iff_exists.mpr ⟨i, h⟩)
    obtain ⟨c, j, hIntroduces⟩ := exists_introduces hClass hSome
    exact ⟨c, j, hIntroduces, hIntroduces.lookups hClass⟩

/-- A class with a field of its own beside one whose name its base class declares, too. -/
theorem fieldLookups_agree_iff_derived :
    let x : Name := ⟨0, 1, "x", 0, default⟩
    let y : Name := ⟨0, 2, "y", 0, default⟩
    let base := classType ⟨0, .eight, 64⟩ ⟨⟨0, 3, "B", 0, default⟩, Flags.none, [], none⟩
      [(x, .primitive (.integer ⟨true, .w32⟩))] none
    let derived := classType ⟨0, .eight, 65⟩ ⟨⟨0, 4, "D", 0, default⟩, Flags.none, [], none⟩
      [(x, .primitive .bool), (y, .primitive .char)] (some base)
    derived.fieldIndex? x = some 0 ∧ derived.flattenedIndex? x ≠ some 1 ∧
      derived.fieldIndex? y = some 1 ∧ derived.flattenedIndex? y = some 2 ∧
      derived.fieldType? y = some (.primitive .char) := by
  intro x y base derived
  have hx : derived.fieldIndex? x = some 0 := by decide
  have hy : derived.fieldIndex? y = some 1 := by decide
  obtain ⟨_, -, -, -, hInX⟩ := fieldLookups_agree_iff hx
  obtain ⟨own, hOwn, -, -, hInY⟩ := fieldLookups_agree_iff hy
  obtain ⟨-, hHidden, -⟩ := hInX rfl
  obtain ⟨-, hFound, hType, -⟩ := hInY rfl
  have hBase : ∀ c, derived.isSubclassOf c = true → c.fieldIndex? y = none := by
    intro c hSub
    rw [List.mem_singleton.mp (isSubclassOf_iff.mp hSub).2]
    decide
  refine ⟨hx, fun hOne => ?_, hy, hFound.mpr hBase, ?_⟩
  · have hDeclared : base.fieldIndex? x = some 0 := by decide
    have hSub : derived.isSubclassOf base = true :=
      isSubclassOf_iff.mpr ⟨⟨rfl, rfl⟩, List.mem_cons_self⟩
    cases hDeclared.symm.trans (hHidden.mp hOne base hSub)
  · rw [hType hBase, ← Option.some.inj hOwn]

/-- A class declares the field of its base class again, with another type. Its own field has the
first number, but the lookups find the inherited one. -/
theorem redeclared_field_hidden :
    let x : Name := ⟨0, 1, "x", 0, default⟩
    let base := classType ⟨0, .eight, 64⟩ ⟨⟨0, 2, "B", 0, default⟩, Flags.none, [], none⟩
      [(x, .primitive (.integer ⟨true, .w32⟩))] none
    let derived := classType ⟨0, .eight, 65⟩ ⟨⟨0, 3, "D", 0, default⟩, Flags.none, [], none⟩
      [(x, .primitive .bool)] (some base)
    derived.Built ∧ derived.fieldIndex? x = some 0 ∧
      derived.fields[0]? = some (x, .primitive .bool) ∧
      derived.fieldType? x = some (.primitive (.integer ⟨true, .w32⟩)) ∧
      derived.flattenedIndex? x = some 0 ∧
      derived.flattenedFields =
        [(x, .primitive (.integer ⟨true, .w32⟩)), (x, .primitive .bool)] := by
  intro x base derived
  exact ⟨.derived _ _ _ _, by decide, rfl, by decide, by decide, rfl⟩

end SemanticCore.Ty
