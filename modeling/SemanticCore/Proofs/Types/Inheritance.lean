import SemanticCore.Proofs.Types.Relations

/-!
# Inheritance

A class derives from the classes along its chain of base classes. Chains end, so that derivation is
a strict order, and along them nothing is lost: the fields of a class come first among those of the
classes that derive from it, and a method that one of these does not have is that of the nearest
class on its chain that has it.

* `Ty.findMethod?_eq`: methods are looked for along the chain.
* `Ty.flattenedFields_prefix_of_mem`: inherited fields come first.
* `Ty.inheritance_order`: derivation is a strict order, and nothing inherited is lost.
-/

namespace SemanticCore.Ty

variable {a b : Ty} {name : Name} {signature : Option Ty}

/-! ## Methods -/

theorem findMethod?_eq (t : Ty) (name : Name) (signature : Option Ty) :
    t.findMethod? name signature =
      t.chain.findSome? fun c => c.methods.find? (methodFits · name signature) := by
  fun_induction findMethod? t name signature with
  | case1 o h fs => simp [chain, ancestors, methods, head?]
  | case2 o h fs => simp [chain, ancestors, methods, head?]
  | case3 o h fs b m hFound => simp [chain, methods, head?, hFound]
  | case4 o h fs b hNone ih => simp [chain, ancestors, methods, head?, hNone, ih]
  | case5 t hStruct hRoot hDerived =>
    cases t with
    | structType o h fs => exact (hStruct o h fs rfl).elim
    | classType o h fs b =>
      cases b with
      | none => exact (hRoot o h fs rfl).elim
      | some b => exact (hDerived o h fs b rfl).elim
    | _ => simp [chain, ancestors, methods, head?]

theorem findMethod?_isSome_of_mem (hMem : b ∈ a.ancestors)
    (h : (b.findMethod? name signature).isSome = true) :
    (a.findMethod? name signature).isSome = true := by
  rw [findMethod?_eq, List.findSome?_isSome_iff] at h ⊢
  obtain ⟨c, hc, hFound⟩ := h
  exact ⟨c, List.mem_cons_of_mem a ((chain_suffix hMem).subset hc), hFound⟩

/-! ## Fields -/

theorem flattenedFields_prefix_of_mem (h : b ∈ a.ancestors) :
    b.flattenedFields <+: a.flattenedFields := by
  fun_induction ancestors a with
  | case1 o hd fs c ih =>
    rcases List.mem_cons.mp h with rfl | h
    · exact List.prefix_append _ fs
    · exact (ih h).trans (List.prefix_append _ fs)
  | case2 => cases h

theorem hasField_of_isSubclassOf (hSub : a.isSubclassOf b = true)
    (h : b.hasField name = true) : a.hasField name = true := by
  obtain ⟨⟨ha, hb⟩, hMem⟩ := isSubclassOf_iff.mp hSub
  simp only [hasField, fieldType?, visibleFields, ha, hb, if_true, Option.isSome_map] at h ⊢
  obtain ⟨f, hFound⟩ := Option.isSome_iff_exists.mp h
  rw [(flattenedFields_prefix_of_mem hMem).find?_eq_some hFound, Option.isSome_some]

/-! ## The order -/

/-- Derivation is a strict order, whichever registries the classes come from. A class has all fields
of the classes that it derives from, in the same places, and what it finds as a method is the first
that fits in the nearest class on its chain with one that fits; so it finds one whenever a class
that it derives from does. -/
theorem inheritance_order :
    (∀ a : Ty, ¬ a.isSubclassOf a = true) ∧
      (∀ a b c : Ty, a.isSubclassOf b = true → b.isSubclassOf c = true →
        a.isSubclassOf c = true) ∧
      (∀ a b : Ty, a.isSubclassOf b = true → ¬ b.isSubclassOf a = true) ∧
      ∀ a b : Ty, a.isSubclassOf b = true →
        b.flattenedFields <+: a.flattenedFields ∧
        (∀ name, b.hasField name = true → a.hasField name = true) ∧
        ∀ name signature,
          (a.findMethod? name signature =
            a.chain.findSome? fun c => c.methods.find? (methodFits · name signature)) ∧
          ((b.findMethod? name signature).isSome = true →
            (a.findMethod? name signature).isSome = true) := by
  refine ⟨fun a h => isSubclassOf_asymm h h, fun a b c => isSubclassOf_trans,
    fun a b => isSubclassOf_asymm, fun a b h => ?_⟩
  have hMem := (isSubclassOf_iff.mp h).2
  exact ⟨flattenedFields_prefix_of_mem hMem, fun _ => hasField_of_isSubclassOf h,
    fun name signature => ⟨a.findMethod?_eq name signature, findMethod?_isSome_of_mem hMem⟩⟩

/-- Three classes: the first has two methods of a name, the second overrides one of them, and the
third, without methods, declares a field of the first again. -/
theorem inheritance_order_overloads :
    let x : Name := ⟨0, 1, "x", 0, default⟩
    let draw : Name := ⟨0, 2, "draw", 0, default⟩
    let plain := function ⟨0, .eight, 64⟩ [] (.primitive .void) Flags.none
    let scaled := function ⟨0, .eight, 65⟩ [.primitive .bool] (.primitive .void) Flags.none
    let first := classType ⟨0, .eight, 66⟩ ⟨⟨0, 3, "A", 0, default⟩, Flags.none,
      [⟨draw, plain.key, none⟩, ⟨draw, scaled.key, none⟩], none⟩ [(x, .primitive .bool)] none
    let second := classType ⟨0, .eight, 67⟩ ⟨⟨0, 4, "B", 0, default⟩, Flags.none,
      [⟨draw, scaled.key, some 7⟩], none⟩ [] (some first)
    let third := classType ⟨0, .eight, 68⟩ ⟨⟨0, 5, "C", 0, default⟩, Flags.none, [], none⟩
      [(x, .primitive .char)] (some second)
    third.isSubclassOf first = true ∧ first.flattenedFields <+: third.flattenedFields ∧
      third.hasField x = true ∧
      third.findMethod? draw none = some ⟨draw, scaled.key, some 7⟩ ∧
      third.findMethod? draw (some plain) = some ⟨draw, plain.key, none⟩ := by
  intro x draw plain scaled first second third
  obtain ⟨-, hTrans, -, hInherits⟩ := inheritance_order
  have hSub : third.isSubclassOf first = true := hTrans third second first (by decide) (by decide)
  obtain ⟨hPrefix, hFields, hMethods⟩ := hInherits third first hSub
  refine ⟨hSub, hPrefix, hFields x (by decide), ?_, ?_⟩
  · exact (hMethods draw none).1.trans (by decide)
  · exact (hMethods draw (some plain)).1.trans (by decide)

end SemanticCore.Ty
