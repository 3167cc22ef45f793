import SemanticCore.Proofs.Types.Built
import SemanticCore.Proofs.Types.Extent

/-!
# The layout of records

Tuples, structs and the instances of classes are records. The members of a record lie one after
another in their order; between them is the least padding that aligns them, and in a packed record
there is none.

* `Padded`, `Compact`: what it means that members lie in a record without and with packing.
* `Extent.padded_place`, `Extent.compact_place`: members are placed so.
* `Ty.record?`: the records.
* `Ty.Built.laidOut`: the layout of a record that a registry builds.
-/

namespace SemanticCore

theorem alignNat_one (n : Nat) : alignNat n 1 = n := by simp [alignNat]

/-! ## Members in their places -/

/-- Members of a record that lie in it with the least padding that aligns them. -/
structure Padded (ps : List Placed) (size alignment : Nat) : Prop where
  alignment_two_pow : ∃ k, alignment = 2 ^ k
  member_two_pow : ∀ p ∈ ps, ∃ k, p.alignment = 2 ^ k
  member_dvd : ∀ p ∈ ps, p.alignment ∣ alignment
  strictest : alignment = 1 ∨ ∃ p ∈ ps, p.alignment = alignment
  first : ∀ p ∈ ps.head?, p.offset = 0
  next : ps.IsChain fun p q => IsLeast {k | q.alignment ∣ k ∧ p.stop ≤ k} q.offset
  apart : ps.Pairwise fun p q => p.stop ≤ q.offset
  last : ∀ p ∈ ps.getLast?, IsLeast {k | alignment ∣ k ∧ p.stop ≤ k} size

/-- Members of a record that lie in it without padding. -/
structure Compact (ps : List Placed) (size alignment : Nat) : Prop where
  offset : ∀ before p after, ps = before ++ p :: after → p.offset = (before.map (·.size)).sum
  size : size = (ps.map (·.size)).sum
  alignment : alignment = 1

namespace Extent

variable {packed : Bool} {n g : Nat} {es : List Extent}

theorem map_place (packed : Bool) (n : Nat) (es : List Extent) :
    (place packed n es).map Placed.toExtent = es := by
  induction es generalizing n with
  | nil => rfl
  | cons e es ih => rw [place, List.map_cons, ih]

theorem le_stopAfter (packed : Bool) (n : Nat) (es : List Extent) : n ≤ stopAfter packed n es := by
  induction es generalizing n with
  | nil => exact Nat.le_refl n
  | cons e es ih =>
    have hStart := le_alignNat n (Nat.two_pow_pos (e.step packed))
    have hRest := ih (alignNat n (2 ^ e.step packed) + e.size)
    rw [stopAfter]
    omega

/-- Members lie behind where they begin and in front of where the last of them ends. -/
theorem bounds_of_mem_place {p : Placed} (h : p ∈ place packed n es) :
    n ≤ p.offset ∧ p.stop ≤ stopAfter packed n es := by
  induction es generalizing n with
  | nil => cases h
  | cons e es ih =>
    have hStart := le_alignNat n (Nat.two_pow_pos (e.step packed))
    rcases List.mem_cons.mp h with rfl | hRest
    · exact ⟨hStart, le_stopAfter packed _ es⟩
    · obtain ⟨hLow, hHigh⟩ := ih hRest
      exact ⟨by omega, hHigh⟩

theorem pairwise_place (packed : Bool) (n : Nat) (es : List Extent) :
    (place packed n es).Pairwise fun p q => p.stop ≤ q.offset := by
  induction es generalizing n with
  | nil => exact .nil
  | cons e es ih => exact .cons (fun q hq => (bounds_of_mem_place hq).1) (ih _)

theorem stopAfter_of_getLast? {p : Placed} (h : (place packed n es).getLast? = some p) :
    stopAfter packed n es = p.stop := by
  induction es generalizing n with
  | nil => cases h
  | cons e es ih =>
    cases es with
    | nil =>
      cases h
      rfl
    | cons e' es =>
      rw [place, place, List.getLast?_cons_cons] at h
      exact ih h

theorem stop_le_ofFields {p : Placed} (h : p ∈ place packed 0 es) :
    p.stop ≤ (ofFields packed es).size := by
  have hNe : es ≠ [] := by
    rintro rfl
    cases h
  rw [ofFields_of_ne_nil packed hNe]
  exact (bounds_of_mem_place h).2.trans (le_alignNat _ (Nat.two_pow_pos _))

/-! ## Padding -/

theorem isChain_place (n : Nat) (es : List Extent) :
    (place false n es).IsChain
      fun p q => IsLeast {k | q.alignment ∣ k ∧ p.stop ≤ k} q.offset := by
  induction es generalizing n with
  | nil => exact .nil
  | cons e es ih =>
    cases es with
    | nil => exact .singleton _
    | cons e' es => exact .cons_cons (isLeast_alignNat _ (Nat.two_pow_pos e'.grain)) (ih _)

theorem grain_le_strictest (packed : Bool) (g : Nat) (es : List Extent) :
    g ≤ strictest packed g es := by
  induction es generalizing g with
  | nil => exact Nat.le_refl g
  | cons e es ih => exact (le_max_left g _).trans (ih _)

theorem dvd_strictest {e : Extent} (h : e ∈ es) : e.alignment ∣ 2 ^ strictest false g es := by
  induction es generalizing g with
  | nil => cases h
  | cons e' es ih =>
    rcases List.mem_cons.mp h with rfl | hRest
    · exact Nat.pow_dvd_pow 2 ((le_max_right g _).trans (grain_le_strictest false _ es))
    · exact ih hRest

theorem strictest_attained (g : Nat) (es : List Extent) :
    strictest false g es = g ∨ ∃ e ∈ es, e.grain = strictest false g es := by
  induction es generalizing g with
  | nil => exact Or.inl rfl
  | cons e es ih =>
    rcases ih (g ⊔ e.grain) with hSame | ⟨e', hMem, hEq⟩
    · rcases max_choice g e.grain with hLeft | hRight
      · exact Or.inl (hSame.trans hLeft)
      · exact Or.inr ⟨e, List.mem_cons_self, (hSame.trans hRight).symm⟩
    · exact Or.inr ⟨e', List.mem_cons_of_mem e hMem, hEq⟩

theorem padded_place (es : List Extent) :
    Padded (place false 0 es) (ofRecord false es).size (ofRecord false es).alignment := by
  have hMem : ∀ p ∈ place false 0 es, p.toExtent ∈ es := by
    intro p hp
    rw [← map_place false 0 es]
    exact List.mem_map_of_mem hp
  refine ⟨⟨_, rfl⟩, fun p _ => ⟨p.grain, rfl⟩, fun p hp => dvd_strictest (hMem p hp), ?_, ?_,
    isChain_place 0 es, pairwise_place false 0 es, ?_⟩
  · rcases strictest_attained 0 es with hZero | ⟨e, he, hEq⟩
    · exact Or.inl (congrArg (2 ^ ·) hZero)
    · rw [← map_place false 0 es] at he
      obtain ⟨p, hp, rfl⟩ := List.mem_map.mp he
      exact Or.inr ⟨p, hp, congrArg (2 ^ ·) hEq⟩
  · intro p hp
    cases es with
    | nil => cases hp
    | cons e es =>
      cases hp
      exact alignNat_zero (Nat.two_pow_pos _)
  · intro p hp
    rw [← stopAfter_of_getLast? hp]
    exact isLeast_alignNat _ (Nat.two_pow_pos _)

/-! ## Packing -/

@[simp]
theorem two_pow_step_packed (e : Extent) : 2 ^ e.step true = 1 := rfl

theorem stopAfter_packed (n : Nat) (es : List Extent) :
    stopAfter true n es = n + (es.map (·.size)).sum := by
  induction es generalizing n with
  | nil => rfl
  | cons e es ih =>
    rw [stopAfter, ih, two_pow_step_packed, alignNat_one, List.map_cons, List.sum_cons,
      Nat.add_assoc]

theorem strictest_packed (g : Nat) (es : List Extent) : strictest true g es = g := by
  induction es with
  | nil => rfl
  | cons e es ih => rw [strictest, show e.step true = 0 from rfl, Nat.max_zero, ih]

theorem offset_place_packed {before after : List Placed} {p : Placed}
    (h : place true n es = before ++ p :: after) :
    p.offset = n + (before.map (·.size)).sum := by
  induction es generalizing n before with
  | nil => simp [place] at h
  | cons e es ih =>
    rw [place, two_pow_step_packed, alignNat_one] at h
    cases before with
    | nil =>
      cases h
      rfl
    | cons q before =>
      obtain ⟨rfl, hRest⟩ := List.cons.inj h
      rw [ih hRest, List.map_cons, List.sum_cons, Nat.add_assoc]

theorem size_ofRecord_packed (es : List Extent) :
    (ofRecord true es).size = (es.map (·.size)).sum := by
  have hGrain := strictest_packed 0 es
  show alignNat (stopAfter true 0 es) (2 ^ strictest true 0 es) = _
  rw [hGrain, pow_zero, alignNat_one, stopAfter_packed, Nat.zero_add]

theorem compact_place (es : List Extent) :
    Compact (place true 0 es) (ofRecord true es).size (ofRecord true es).alignment := by
  refine ⟨fun before p after h => ?_, ?_, ?_⟩
  · rw [offset_place_packed h, Nat.zero_add]
  · rw [size_ofRecord_packed]
    conv_lhs => rw [← map_place true 0 es, List.map_map]
    rfl
  · exact congrArg (2 ^ ·) (strictest_packed 0 es)

end Extent

/-! ## Records -/

/-- A record: the types of its members in their order, whether it is packed, and its layout. -/
structure Record where
  members : List Ty
  packed : Bool
  layout : RecordLayout

namespace Ty

/-- The record that a tuple or a struct is, and that the instances of a class are. -/
def record? (t : Ty) : Option Record :=
  match t with
  | .tuple _ es => some ⟨es, false, ⟨t.offsets, t.size, t.alignment⟩⟩
  | .structType _ h fs =>
    some ⟨fs.map Prod.snd, h.flags.isPacked, ⟨t.offsets, t.size, t.alignment⟩⟩
  | .classType _ h _ _ =>
    some ⟨t.flattenedFields.map Prod.snd, h.flags.isPacked, t.instanceLayout⟩
  | _ => none

/-- What a registry builds is laid out from the layouts of its members. -/
theorem Built.layout_eq {t : Ty} {r : Record} (hBuilt : t.Built) (hRecord : t.record? = some r) :
    r.layout = .ofFields (layouts r.members) r.packed := by
  cases t with
  | tuple o es =>
    cases hRecord
    cases es with
    | nil => exact absurd rfl hBuilt.tuple_ne_nil
    | cons e es => simp only [size, alignment, layout_tuple]; rfl
  | structType o h fs =>
    cases hRecord
    simp only [size, alignment, layout_structType, offsets, fieldLayouts_eq]
    rfl
  | classType o h fs b =>
    cases hRecord
    simp only [instanceLayout, fieldLayouts_eq]
    rfl
  | _ => cases hRecord

end Ty

/-- A record whose members lie in places, with a size and an alignment. -/
structure Record.LaidOut (r : Record) (ps : List Placed) (size alignment : Nat) : Prop where
  members : r.members.map Ty.layout = ps.map fun p => ⟨.ofNat p.size, .ofNat p.alignment⟩
  layout : r.layout = ⟨ps.map fun p => .ofNat p.offset, .ofNat size, .ofNat alignment⟩
  empty : r.members = [] → size = 1 ∧ alignment = 1
  padded : r.members ≠ [] → r.packed = false → Padded ps size alignment
  compact : r.members ≠ [] → r.packed = true → Compact ps size alignment

theorem eq_map_of_forall₂ {α β : Type} {R : α → β → Prop} {f : β → α} {l : List α} {l' : List β}
    (h : List.Forall₂ R l l') (hEq : ∀ b ∈ l', ∀ a, R a b → a = f b) : l = l'.map f := by
  have hMap := map_eq_of_forall₂ (f := f) (g := id) h.flip fun b hb a hab => (hEq b hb a hab).symm
  rw [hMap, List.map_id]

section Exact

variable {packed : Bool} {es : List Extent} (hSize : (Extent.ofFields packed es).size < 2 ^ 53)

include hSize

/-- The places of members are computed exactly if the size of the record is. -/
theorem RecordLayout.Exact.eq {l : RecordLayout}
    (h : l.Exact (Extent.place packed 0 es) (Extent.ofFields packed es).size
      (Extent.ofFields packed es).grain) :
    l = ⟨(Extent.place packed 0 es).map fun p => .ofNat p.offset,
      .ofNat (Extent.ofFields packed es).size, .ofNat (Extent.ofFields packed es).alignment⟩ := by
  have hOffsets := eq_map_of_forall₂ (f := fun p => Number.ofNat p.offset) h.offsets
    fun p hp x hCounts => by
      have hStop := Extent.stop_le_ofFields hp
      rw [Placed.stop] at hStop
      exact hCounts.eq_ofNat (by omega)
  rw [← hOffsets, ← h.size.eq_ofNat hSize, Extent.alignment, ← h.alignment]

/-- So are the sizes of the members themselves. -/
theorem Extent.layouts_eq {ms : List Layout} (h : List.Forall₂ Layout.Measures ms es) :
    ms = (place packed 0 es).map fun p => ⟨.ofNat p.size, .ofNat p.alignment⟩ := by
  rw [← map_place packed 0 es, List.forall₂_map_right_iff] at h
  refine eq_map_of_forall₂ h fun p hp l hMeasures => hMeasures.eq ?_
  have hStop := stop_le_ofFields hp
  rw [Placed.stop] at hStop
  omega

end Exact

/-- Every record that a registry builds, as long as its size is below `2 ^ 53`. -/
theorem Ty.Built.laidOut {t : Ty} {r : Record} (hBuilt : t.Built) (hRecord : t.record? = some r)
    (hSize : r.layout.size.lt (.ofNat (2 ^ 53)) = true) :
    ∃ ps size alignment, r.LaidOut ps size alignment := by
  obtain ⟨es, hes⟩ := exists_extents fun t (_ : t ∈ r.members) => t.exists_extent
  have hLayout := hBuilt.layout_eq hRecord
  have hExact := RecordLayout.exact_ofFields r.packed hes
  rw [← hLayout] at hExact
  have hLt := hExact.size.lt_iff.mp hSize
  have hNil : r.members = [] ↔ es = [] := by
    rw [← List.length_eq_zero_iff, ← List.length_eq_zero_iff, ← hes.length_eq, layouts,
      List.length_map]
  refine ⟨Extent.place r.packed 0 es, (Extent.ofFields r.packed es).size,
    (Extent.ofFields r.packed es).alignment, Extent.layouts_eq hLt hes, hExact.eq hLt, ?_, ?_, ?_⟩
  · intro hEmpty
    rw [hNil.mp hEmpty]
    exact ⟨rfl, rfl⟩
  · intro hNe hPacked
    rw [Extent.ofFields_of_ne_nil _ (mt hNil.mpr hNe), hPacked]
    exact Extent.padded_place es
  · intro hNe hPacked
    rw [Extent.ofFields_of_ne_nil _ (mt hNil.mpr hNe), hPacked]
    exact Extent.compact_place es

/-- A byte in front of a tuple, in a struct. -/
theorem Ty.Built.laidOut_byte_tuple :
    ∃ ps size alignment,
      (Record.mk [.primitive (.integer ⟨false, .w8⟩), .tuple ⟨0, .eight, 64⟩
        [.primitive .char, .primitive (.float .f64)]] false ⟨[0, 8], 24, 8⟩).LaidOut
        ps size alignment := by
  let pair := Ty.tuple ⟨0, .eight, 64⟩ [.primitive .char, .primitive (.float .f64)]
  let fields : List Field := [(default, .primitive (.integer ⟨false, .w8⟩)), (default, pair)]
  have hBuilt : (Ty.structType ⟨0, .eight, 65⟩ ⟨default, Flags.none, [], none⟩ fields).Built :=
    ⟨0, 8, _, [.tuple [.primitive .char, .primitive (.float .f64)]],
      .structType ⟨default, Flags.none, [], none⟩ fields, rfl, rfl⟩
  have hPacked : Flags.none.isPacked = false := by decide +kernel
  have hLayout : RecordLayout.ofFields (fieldLayouts fields) Flags.none.isPacked =
      ⟨[0, 8], 24, 8⟩ := by
    simp only [fields, pair, fieldLayouts, layouts, layout_tuple, layout_primitive, List.map_cons,
      List.map_nil]
    decide +kernel
  refine laidOut hBuilt ?_ ?_
  · simp only [record?, offsets, size, alignment, layout_structType, hLayout]
    rw [hPacked]
    rfl
  · decide +kernel

end SemanticCore
