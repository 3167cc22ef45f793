import SemanticCore.Proofs.Types.Canonicity
import SemanticCore.Proofs.Types.Equality

/-!
# Equality within one registry

A registry knows a composite by the numbers of its parts, equality of types goes down to the
primitives. For the types that one registry made since it was last cleared the two come to the same:
types that are equal are one type (`History.equal_iff_eq`).

* `Composed`: the types all of whose parts, at any depth, are among some that were made.
* `Ty.Alike.shape_eq`: alike types with the same parts have the same shape.
* `History.eq_of_shape_eq`: types of the same shape that were made since the last reset are one.
-/

namespace SemanticCore

/-- A primitive, or one of some types, all of whose parts are composed of these types, too. -/
inductive Composed (made : List Ty) : Ty → Prop
  | primitive (p : Primitive) : Composed made (.primitive p)
  | composite {t : Ty} {s : Shape} (hMade : t ∈ made) (hShape : t.shape? = some s)
      (hParts : ∀ u ∈ s.types, Composed made u) : Composed made t

/-! ## Alike types with the same parts -/

theorem eq_of_forall₂ {α : Type} {R : α → α → Prop} {T : α → Prop} {l l' : List α}
    (h : List.Forall₂ R l l') (hT : ∀ b ∈ l', T b)
    (hEq : ∀ a ∈ l, ∀ b, T b → R a b → a = b) : l = l' := by
  induction h with
  | nil => rfl
  | cons hHead _ ih =>
    rw [hEq _ List.mem_cons_self _ (hT _ List.mem_cons_self) hHead,
      ih (fun b hb => hT b (List.mem_cons_of_mem _ hb))
        fun a ha => hEq a (List.mem_cons_of_mem _ ha)]

theorem eq_of_fst_of_snd {α β : Type} {l l' : List (α × β)}
    (hFst : l.map Prod.fst = l'.map Prod.fst) (hSnd : l.map Prod.snd = l'.map Prod.snd) :
    l = l' := by
  rw [← List.zip_unzip l, ← List.zip_unzip l', List.unzip_eq_map, List.unzip_eq_map, hFst, hSnd]

/-- If parts that are alike are the same, the shapes of alike types are the same. -/
theorem Ty.Alike.shape_eq {a b : Ty} {s : Shape} {T : Ty → Prop} (h : Alike a b)
    (ha : a.shape? = some s) (hb : ∀ s', b.shape? = some s' → ∀ u ∈ s'.types, T u)
    (hEq : ∀ t ∈ s.types, ∀ u, T u → Alike t u → t = u) : b.shape? = some s := by
  cases h with
  | primitive p => cases ha
  | array element =>
    cases ha
    have hElement := hEq _ List.mem_cons_self _ (hb _ rfl _ List.mem_cons_self) element
    rw [Ty.shape?, hElement]
  | tuple elements =>
    cases ha
    rw [Ty.shape?, eq_of_forall₂ elements (hb _ rfl) hEq]
  | union variants =>
    cases ha
    rw [Ty.shape?, eq_of_forall₂ variants (hb _ rfl) hEq]
  | function params result =>
    cases ha
    have hResult := hEq _ List.mem_cons_self _ (hb _ rfl _ List.mem_cons_self) result
    have hParams := eq_of_forall₂ params (fun u hu => hb _ rfl u (List.mem_cons_of_mem _ hu))
      fun t ht => hEq t (List.mem_cons_of_mem _ ht)
    rw [Ty.shape?, hResult, hParams]
  | pointer pointee =>
    cases ha
    rw [Ty.shape?, hEq _ List.mem_cons_self _ (hb _ rfl _ List.mem_cons_self) pointee]
  | reference referent =>
    cases ha
    rw [Ty.shape?, hEq _ List.mem_cons_self _ (hb _ rfl _ List.mem_cons_self) referent]
  | structType name flags fieldNames fieldTypes =>
    cases ha
    have hFields := eq_of_fst_of_snd fieldNames (eq_of_forall₂ fieldTypes (hb _ rfl) hEq)
    rw [Ty.shape?, name, flags, hFields]
  | classType name flags fieldNames fieldTypes base =>
    cases ha
    have hTypes := eq_of_forall₂ fieldTypes
      (fun u hu => hb _ rfl u (List.mem_append_right _ hu))
      fun t ht => hEq t (List.mem_append_right _ ht)
    rw [Ty.shape?, name, flags, eq_of_fst_of_snd fieldNames hTypes]
    cases base with
    | none => rfl
    | some hRel => rw [hEq _ (by simp [Shape.types]) _ (hb _ rfl _ (by simp [Shape.types])) hRel]

/-! ## Types of one registry -/

theorem Composed.eq_of_alike {made : List Ty} {a b : Ty} (ha : Composed made a)
    (hb : Composed made b)
    (hShapes : ∀ t ∈ made, ∀ u ∈ made, ∀ s, t.shape? = some s → u.shape? = some s → t = u)
    (h : Ty.Alike a b) : a = b := by
  induction ha generalizing b with
  | primitive p =>
    cases h
    rfl
  | @composite t s hMade hShape _ ih =>
    cases hb with
    | primitive p =>
      cases h
      cases hShape
    | @composite _ s' hMade' hShape' hParts' =>
      refine hShapes t hMade b hMade' s hShape ?_
      refine h.shape_eq hShape (fun s₁ hs₁ => ?_) fun u hu v hv hAlike => ih u hu hv hAlike
      cases hs₁.symm.trans hShape'
      exact hParts'

namespace History

variable {names : List Name} {first r : Registry} {es es' : List (TypeCall × Option Ty)}

/-- What has the same shape and was answered since the last reset is the same: the registry still
has one type for the shape. -/
theorem eq_of_shape_eq (hFirst : first.Sound (· ∈ names) []) (hN : NamesApart (· ∈ names))
    (h : History names first (es ++ es') r) (hClear : ∀ e ∈ es', e.1 ≠ .clear) {t u : Ty}
    {s : Shape} (ht : t ∈ answers es') (hu : u ∈ answers es') (hShape : t.shape? = some s)
    (hShape' : u.shape? = some s) : t = u := by
  have hFound : ∀ v ∈ answers es', v.shape? = some s → r.find? s.request = some v := by
    intro v hv hs
    obtain ⟨⟨c, _⟩, hMem, rfl⟩ := List.mem_filterMap.mp hv
    have hCall := h.shape_eq hFirst hN (c, some v) (List.mem_append_right _ hMem)
    obtain ⟨s', hs', hSame⟩ := Option.map_eq_some_iff.mp hCall.symm
    obtain ⟨before, after, rfl⟩ := List.append_of_mem hMem
    rw [← List.append_assoc] at h
    apply h.find?_request fun e he => hClear e (by simp [he])
    rw [hs', Option.some.inj (hSame.trans hs)]
  exact Option.some.inj ((hFound t ht hShape).symm.trans (hFound u hu hShape'))

/-- Types that a registry made since it was last cleared, with all their parts, are equal only if
they are one. -/
theorem equal_iff_eq {interner : Interner} {serial : Nat} {pointerSize : Number} {a b : Ty}
    (hNames : interner.Reached) (hCreate : Registry.create serial pointerSize = .ok first)
    (h : History interner.names first (es ++ es') r) (hClear : ∀ e ∈ es', e.1 ≠ .clear)
    (ha : Composed (answers es') a) (hb : Composed (answers es') b) :
    a.equal b = true ↔ a = b := by
  have hFirst := Registry.sound_create (N := (· ∈ interner.names)) hCreate
  have hN : NamesApart (· ∈ interner.names) := fun _ _ hm hn hId => hNames.eq_of_id hm hn hId
  rw [Ty.equal_iff]
  constructor
  · exact ha.eq_of_alike hb fun t ht u hu s => h.eq_of_shape_eq hFirst hN hClear ht hu
  · rintro rfl
    exact .refl a

/-- After a reset, a tuple and a pointer to it, beside an older tuple of the same shape. -/
theorem equal_iff_eq_tuple_pointer :
    (Ty.pointer ⟨0, .eight, 66⟩ (.tuple ⟨0, .eight, 65⟩ [.primitive .bool])).equal
        (.tuple ⟨0, .eight, 65⟩ [.primitive .bool]) = true ↔
      Ty.pointer ⟨0, .eight, 66⟩ (.tuple ⟨0, .eight, 65⟩ [.primitive .bool]) =
        .tuple ⟨0, .eight, 65⟩ [.primitive .bool] := by
  have hLawful : ∀ {made : List Ty} {c : TypeCall}, c.names = [] → c.numbers = [] →
      (∀ t ∈ c.types, Known made t) → c.Lawful (Interner.start 0 default).1.names made :=
    fun hNames hNumbers hTypes => ⟨hTypes, by simp [hNames], by simp [hNumbers]⟩
  have hBool : ∀ made, ∀ t ∈ [Ty.primitive .bool], Known made t :=
    fun made t ht => Or.inl ⟨.bool, List.mem_singleton.mp ht⟩
  have hCreate : Registry.create 0 8 = .ok { serial := 0, pointerSize := .eight } := rfl
  have h₁ := (@History.start (Interner.start 0 default).1.names
    { serial := 0, pointerSize := .eight }).call (.tuple [.primitive .bool])
      (hLawful rfl rfl (hBool _))
  have h₂ := h₁.call .clear (hLawful rfl rfl (by simp [TypeCall.types]))
  have h₃ := h₂.call (.tuple [.primitive .bool]) (hLawful rfl rfl (hBool _))
  have h₄ := h₃.call (.pointer (some (.tuple ⟨0, .eight, 65⟩ [.primitive .bool])))
    (hLawful rfl rfl fun t ht => Or.inr (List.mem_singleton.mp ht ▸ by decide))
  let made : List (TypeCall × Option Ty) :=
    [(.tuple [.primitive .bool], some (.tuple ⟨0, .eight, 65⟩ [.primitive .bool])),
      (.pointer (some (.tuple ⟨0, .eight, 65⟩ [.primitive .bool])),
        some (.pointer ⟨0, .eight, 66⟩ (.tuple ⟨0, .eight, 65⟩ [.primitive .bool])))]
  have hTuple : Composed (answers made) (.tuple ⟨0, .eight, 65⟩ [.primitive .bool]) := by
    refine .composite (by simp [made, answers]) rfl fun u hu => ?_
    rw [List.mem_singleton.mp hu]
    exact .primitive .bool
  have hPointer : Composed (answers made)
      (.pointer ⟨0, .eight, 66⟩ (.tuple ⟨0, .eight, 65⟩ [.primitive .bool])) := by
    refine .composite (by simp [made, answers]) rfl fun u hu => ?_
    rw [List.mem_singleton.mp hu]
    exact hTuple
  have h : History _ _ ([(.tuple [.primitive .bool],
      some (.tuple ⟨0, .eight, 64⟩ [.primitive .bool])), (.clear, none)] ++ made) _ := h₄
  exact equal_iff_eq (Interner.Reached.start 0 default) hCreate h (by simp [made]) hPointer hTuple

end History

end SemanticCore
