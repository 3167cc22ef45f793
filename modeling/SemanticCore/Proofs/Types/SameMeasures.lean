import SemanticCore.Proofs.Types.Built
import SemanticCore.Proofs.Types.Extent
import SemanticCore.Proofs.Types.OneRegistry
import SemanticCore.Types.Spelling

/-!
# Measures of equal types

Two registries with pointers of one size make types that are equal or not, but no registry looks at
the measures of the types of another. Equal types have the same measures all the same: what is
worked out for a type comes from its parts, which are equal one by one, and from the size of
pointers. The names of records are compared by equality, so the types are spelled in the same way,
too.

* `Ty.BuiltAt`: the types that registries with one size of pointers build, with all their parts.
* `Ty.Alike.layout_eq`, `Ty.Alike.instanceLayout_eq`, `Ty.Alike.spell_eq`: what alike types share.
* `Ty.sameMeasures_of_equal`: equal types have the same measures.
-/

namespace SemanticCore

/-- A primitive, or what some registry with pointers of a size answers, all of whose parts are built
by registries with pointers of this size, too. -/
inductive Ty.BuiltAt (p : PointerSize) : Ty → Prop
  | primitive (q : Primitive) : BuiltAt p (.primitive q)
  | composite {serial : Nat} {given : Number} {first : Registry} {cs : List TypeCall}
      {c : TypeCall} {t : Ty} (hCreate : Registry.create serial given = .ok first)
      (hPointer : first.pointerSize = p) (hAnswer : ((first.run cs).call c).1 = some t)
      (hParts : ∀ u ∈ t.parts, BuiltAt p u) : BuiltAt p t

/-! ## Pointers of one size -/

namespace Registry

variable {r : Registry} {p : PointerSize}

/-- A type that was made with pointers of a size. -/
def MadeAt (p : PointerSize) (t : Ty) : Prop := ∃ o, t.key = .composite o ∧ o.pointerSize = p

/-- A registry with pointers of a size, all of whose types were made so. -/
structure MakesAt (r : Registry) (p : PointerSize) : Prop where
  pointerSize : r.pointerSize = p
  table : ∀ e ∈ r.table, MadeAt p e.2

theorem makesAt_create {serial : Nat} {given : Number} (h : create serial given = .ok r) :
    r.MakesAt r.pointerSize := by
  unfold create at h
  split at h
  · cases h
    exact ⟨rfl, List.forall_mem_nil _⟩
  · split at h
    · cases h
      exact ⟨rfl, List.forall_mem_nil _⟩
    · cases h

theorem pointerSize_call (r : Registry) (c : TypeCall) :
    (r.call c).2.pointerSize = r.pointerSize := by
  have hCalled := r.called c
  generalize r.call c = after at hCalled ⊢
  cases hCalled <;> rfl

theorem MakesAt.call (h : r.MakesAt p) (c : TypeCall) :
    (∀ t, (r.call c).1 = some t → MadeAt p t) ∧ (r.call c).2.MakesAt p := by
  obtain ⟨hAnswer, hTable⟩ := forall_call (c := c) h.table
    fun _ _ _ _ hKey => ⟨_, hKey, h.pointerSize⟩
  exact ⟨hAnswer, (r.pointerSize_call c).trans h.pointerSize, hTable⟩

theorem MakesAt.run (h : r.MakesAt p) (cs : List TypeCall) : (r.run cs).MakesAt p := by
  induction cs generalizing r with
  | nil => exact h
  | cons c cs ih => exact ih (h.call c).2

end Registry

namespace Ty

variable {a b t : Ty} {p : PointerSize} {o : Origin}

namespace BuiltAt

theorem parts (h : t.BuiltAt p) : ∀ u ∈ t.parts, u.BuiltAt p := by
  cases h with
  | primitive q => exact List.forall_mem_nil _
  | composite _ _ _ hParts => exact hParts

theorem pointerSize_eq (h : t.BuiltAt p) (hKey : t.key = .composite o) : o.pointerSize = p := by
  cases h with
  | primitive q => cases hKey
  | composite hCreate hPointer hAnswer =>
    have hFirst := hPointer ▸ Registry.makesAt_create hCreate
    obtain ⟨o', hKey', hSize⟩ := ((hFirst.run _).call _).1 _ hAnswer
    cases hKey.symm.trans hKey'
    exact hSize

end BuiltAt

/-! ## Layouts -/

namespace Alike

theorem layouts_eq {ts us : List Ty} (h : List.Forall₂ Alike ts us)
    (hts : ∀ t ∈ ts, t.BuiltAt p) (hus : ∀ u ∈ us, u.BuiltAt p)
    (hEq : ∀ t ∈ ts, ∀ {u}, Alike t u → t.BuiltAt p → u.BuiltAt p → t.layout = u.layout) :
    layouts ts = layouts us :=
  map_eq_of_forall₂ (forall₂_and_mem h) fun t ht u hu => hEq t ht hu.2 (hts t ht) (hus u hu.1)

/-- Alike types take up as many bytes, aligned in the same way. -/
theorem layout_eq (h : Alike a b) (ha : a.BuiltAt p) (hb : b.BuiltAt p) : a.layout = b.layout := by
  induction a using Ty.induction generalizing b with
  | primitive q =>
    cases h
    rfl
  | array o e n ih =>
    cases h with
    | array element =>
      have hElement := ih element (ha.parts _ List.mem_cons_self) (hb.parts _ List.mem_cons_self)
      rw [layout_array, layout_array, hElement, ha.pointerSize_eq rfl, hb.pointerSize_eq rfl]
  | tuple o es ih =>
    cases h with
    | tuple elements =>
      rw [layout_tuple, layout_tuple, layouts_eq elements ha.parts hb.parts fun t ht => ih t ht]
  | union o vs ih =>
    cases h with
    | union variants =>
      rw [layout_union, layout_union, layouts_eq variants ha.parts hb.parts fun t ht => ih t ht]
  | function o ps r f =>
    cases h with
    | function =>
      rw [layout_function, layout_function, ha.pointerSize_eq rfl, hb.pointerSize_eq rfl]
  | pointer o t =>
    cases h with
    | pointer => rw [layout_pointer, layout_pointer, ha.pointerSize_eq rfl, hb.pointerSize_eq rfl]
  | reference o t =>
    cases h with
    | reference =>
      rw [layout_reference, layout_reference, ha.pointerSize_eq rfl, hb.pointerSize_eq rfl]
  | structType o hd fs ih =>
    cases h with
    | structType name flags fieldNames fieldTypes =>
      rw [layout_structType, layout_structType, fieldLayouts_eq, fieldLayouts_eq, flags,
        layouts_eq fieldTypes ha.parts hb.parts fun t ht => ih t ht]
  | classType o hd fs base =>
    cases h with
    | classType =>
      rw [layout_classType, layout_classType, ha.pointerSize_eq rfl, hb.pointerSize_eq rfl]

/-- Alike types have as many fields, inherited ones first, with the same names and layouts. -/
theorem flattenedFields_eq (h : Alike a b) (ha : a.BuiltAt p) (hb : b.BuiltAt p) :
    a.flattenedFields.map Prod.fst = b.flattenedFields.map Prod.fst ∧
      fieldLayouts a.flattenedFields = fieldLayouts b.flattenedFields := by
  induction a using Ty.induction generalizing b with
  | classType o hd fs base _ ihBase =>
    cases h with
    | @classType _ o' _ hd' _ fs' _ base' name flags fieldNames fieldTypes hBase =>
      have hOwn : fieldLayouts fs = fieldLayouts fs' := by
        rw [fieldLayouts_eq, fieldLayouts_eq]
        refine layouts_eq fieldTypes
          (fun t ht => ha.parts t (List.mem_append_right _ ht))
          (fun u hu => hb.parts u (List.mem_append_right _ hu)) fun t _ u hAlike => hAlike.layout_eq
      cases hBase with
      | none => exact ⟨fieldNames, hOwn⟩
      | @some t u hRel =>
        obtain ⟨hNames, hLayouts⟩ := ihBase t rfl hRel
          (ha.parts t (by simp [Ty.parts])) (hb.parts u (by simp [Ty.parts]))
        simp only [flattenedFields, fieldLayouts, List.map_append] at hNames hLayouts hOwn ⊢
        exact ⟨by rw [hNames, fieldNames], by rw [hLayouts, hOwn]⟩
  | _ =>
    cases h
    exact ⟨rfl, rfl⟩

theorem flags_eq (h : Alike a b) : a.flags = b.flags := by
  cases h with
  | structType name flags => exact flags
  | classType name flags => exact flags
  | _ => rfl

/-- The objects of alike classes have their fields in the same places. -/
theorem instanceLayout_eq (h : Alike a b) (ha : a.BuiltAt p) (hb : b.BuiltAt p) :
    a.instanceLayout = b.instanceLayout := by
  rw [instanceLayout, instanceLayout, (h.flattenedFields_eq ha hb).2, h.flags_eq]

/-- So have alike tuples and structs their members. -/
theorem offsets_eq (h : Alike a b) (ha : a.BuiltAt p) (hb : b.BuiltAt p) :
    a.offsets = b.offsets := by
  cases h with
  | tuple elements =>
    rw [offsets, offsets,
      layouts_eq elements ha.parts hb.parts fun t _ u hAlike => hAlike.layout_eq]
  | structType name flags fieldNames fieldTypes =>
    rw [offsets, offsets, fieldLayouts_eq, fieldLayouts_eq, flags,
      layouts_eq fieldTypes ha.parts hb.parts fun t _ u hAlike => hAlike.layout_eq]
  | _ => rfl

/-! ## Spelling -/

theorem recordName?_eq (h : Alike a b) : a.recordName? = b.recordName? := by
  cases h with
  | structType name => rw [recordName?, recordName?, name]
  | classType name => rw [recordName?, recordName?, name]
  | _ => rfl

theorem isFunction_eq (h : Alike a b) : a.isFunction = b.isFunction := by
  cases h <;> rfl

end Alike

/-- How a type is spelled as a field or a base class. -/
def spellInside (t : Ty) : String := t.recordName?.getD t.spell

theorem spellFields_eq_map (fs : List Field) :
    spellFields fs =
      (fs.map fun f => (f.1, f.2.spellInside)).map fun f => f.1.text ++ ": " ++ f.2 := by
  induction fs with
  | nil => rfl
  | cons f fs ih =>
    rw [spellFields, ih]
    rfl

theorem spellBase_eq (b : Option Ty) :
    spellBase b = (b.map fun t => " : " ++ t.spellInside).getD "" := by
  cases b <;> rfl

namespace Alike

theorem spellInside_eq (h : Alike a b) (hSpell : a.spell = b.spell) :
    a.spellInside = b.spellInside := by
  rw [spellInside, spellInside, h.recordName?_eq, hSpell]

theorem spellAll_eq {ts us : List Ty} (h : List.Forall₂ Alike ts us)
    (hEq : ∀ t ∈ ts, ∀ {u}, Alike t u → t.spell = u.spell) : spellAll ts = spellAll us := by
  rw [spellAll_eq_map, spellAll_eq_map, map_eq_of_forall₂ h fun t ht _ => hEq t ht]

theorem spellFields_eq {fs gs : List Field} (hNames : fs.map Prod.fst = gs.map Prod.fst)
    (hTypes : List.Forall₂ Alike (fs.map Prod.snd) (gs.map Prod.snd))
    (hEq : ∀ t ∈ fs.map Prod.snd, ∀ {u}, Alike t u → t.spell = u.spell) :
    spellFields fs = spellFields gs := by
  have hInside := map_eq_of_forall₂ (f := spellInside) (g := spellInside) hTypes
    fun t ht u hAlike => hAlike.spellInside_eq (hEq t ht hAlike)
  rw [spellFields_eq_map, spellFields_eq_map]
  congr 1
  refine eq_of_fst_of_snd ?_ ?_
  · simpa [Function.comp_def] using hNames
  · simpa [Function.comp_def] using hInside

/-- Alike types are spelled in the same way. -/
theorem spell_eq (h : Alike a b) : a.spell = b.spell := by
  induction a using Ty.induction generalizing b with
  | primitive q =>
    cases h
    rfl
  | array o e n ih =>
    cases h with
    | array element => rw [spell, spell, ih element]
  | tuple o es ih =>
    cases h with
    | tuple elements => rw [spell, spell, spellAll_eq elements fun t ht => ih t ht]
  | union o vs ih =>
    cases h with
    | union variants => rw [spell, spell, spellAll_eq variants fun t ht => ih t ht]
  | function o ps r f ihParams ihResult =>
    cases h with
    | function params result =>
      rw [spell, spell, spellAll_eq params fun t ht => ihParams t ht, result.isFunction_eq,
        ihResult result]
  | pointer o t ih =>
    cases h with
    | pointer pointee => rw [spell, spell, ih pointee]
  | reference o t ih =>
    cases h with
    | reference referent => rw [spell, spell, ih referent]
  | structType o hd fs ih =>
    cases h with
    | structType name flags fieldNames fieldTypes =>
      rw [spell, spell, name, flags, spellFields_eq fieldNames fieldTypes fun t ht => ih t ht]
  | classType o hd fs base ihFields ihBase =>
    cases h with
    | classType name flags fieldNames fieldTypes hBase =>
      rw [spell, spell, name, spellFields_eq fieldNames fieldTypes fun t ht => ihFields t ht]
      cases hBase with
      | none => rfl
      | some hRel =>
        rw [spellBase_eq, spellBase_eq, Option.map_some, Option.map_some,
          hRel.spellInside_eq (ihBase _ rfl hRel)]

end Alike

/-! ## Equal types -/

/-- Two types that have the same measures and are spelled in the same way. -/
structure SameMeasures (a b : Ty) : Prop where
  size : a.size = b.size
  alignment : a.alignment = b.alignment
  /-- The offsets of the members of a tuple or a struct. -/
  offsets : a.offsets = b.offsets
  /-- The names of the fields of a class, inherited ones first. -/
  flattenedNames : a.flattenedFields.map Prod.fst = b.flattenedFields.map Prod.fst
  /-- The offsets of these fields in an object, its size and its alignment. -/
  instanceLayout : a.instanceLayout = b.instanceLayout
  spell : a.spell = b.spell

/-- Equal types that registries with one size of pointers build have the same measures. -/
theorem sameMeasures_of_equal (ha : a.BuiltAt p) (hb : b.BuiltAt p) (h : a.equal b = true) :
    SameMeasures a b :=
  have hAlike := (equal_iff a b).mp h
  have hLayout := hAlike.layout_eq ha hb
  { size := congrArg Layout.size hLayout
    alignment := congrArg Layout.alignment hLayout
    offsets := hAlike.offsets_eq ha hb
    flattenedNames := (hAlike.flattenedFields_eq ha hb).1
    instanceLayout := hAlike.instanceLayout_eq ha hb
    spell := hAlike.spell_eq }

/-- A class with fields of primitive types, and one that derives from it. -/
theorem BuiltAt.derived (serial : Nat) (h h' : RecordHead) {fs fs' : List Field}
    (hFields : ∀ t ∈ (fs ++ fs').map Prod.snd, t.BuiltAt .eight) :
    (classType ⟨serial, .eight, 65⟩ h' fs'
      (some (classType ⟨serial, .eight, 64⟩ h fs none))).BuiltAt .eight := by
  rw [List.map_append, List.forall_mem_append] at hFields
  have hCreate : Registry.create serial 8 = .ok { serial, pointerSize := .eight } := rfl
  have hAnswer : ((Registry.run { serial, pointerSize := .eight } []).call
      (.classType h fs none)).1 = some (classType ⟨serial, .eight, 64⟩ h fs none) := rfl
  have hBase := BuiltAt.composite hCreate rfl hAnswer hFields.1
  refine .composite hCreate rfl (Registry.call_derived serial h h' fs fs') ?_
  exact List.forall_mem_cons.mpr ⟨hBase, hFields.2⟩

/-- Packed classes of two registries, each of which inherits a byte before its own number. -/
theorem sameMeasures_of_equal_derived :
    let derived (serial : Nat) := classType ⟨serial, .eight, 65⟩
      ⟨⟨0, 1, "D", 0, ⟨0, 0, 1⟩⟩, Flags.packed, [], none⟩ [(default, .primitive (.float .f64))]
      (some (classType ⟨serial, .eight, 64⟩ ⟨⟨0, 0, "B", 0, ⟨0, 0, 1⟩⟩, Flags.none, [], none⟩
        [(default, .primitive (.integer ⟨false, .w8⟩))] none))
    derived 0 ≠ derived 1 ∧ (derived 0).equal (derived 1) = true ∧
      SameMeasures (derived 0) (derived 1) := by
  intro derived
  have hBuilt : ∀ serial, (derived serial).BuiltAt .eight := fun serial =>
    .derived serial _ _ (by simp [BuiltAt.primitive])
  have hEqual : (derived 0).equal (derived 1) = true := by
    refine (equal_iff _ _).mpr (.classType rfl rfl rfl (.cons (.primitive _) .nil) (.some ?_))
    exact .classType rfl rfl rfl (.cons (.primitive _) .nil) .none
  exact ⟨by decide +kernel, hEqual, sameMeasures_of_equal (hBuilt 0) (hBuilt 1) hEqual⟩

end Ty

end SemanticCore
