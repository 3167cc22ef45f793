import Mathlib.Data.List.Forall2
import SemanticCore.Proofs.Number.Counting
import SemanticCore.Proofs.Types.Structure
import SemanticCore.Types.Measure

/-!
# Exact extents

Every type has an exact size, a natural number, and an alignment that is a power of two. The layout
that is computed for it is the exact one wherever that is below `2 ^ 53`, and not below `2 ^ 53`
elsewhere. The exact size is a multiple of the alignment, unless the type is a union or an array, of
any number of dimensions, whose elements are unions.

* `Extent`: a size with an alignment.
* `Extent.place`: the members of a record in their places.
* `RecordLayout.exact_layOut`: a record is laid out as its members are placed.
* `Ty.exists_extent`: the extent of a type.
-/

namespace SemanticCore

open Number (Counts)

/-- How much room a value takes up: its size in bytes and the exponent of its alignment. -/
structure Extent where
  size : Nat
  grain : Nat
  grain_le : grain ≤ 4

def Extent.alignment (e : Extent) : Nat := 2 ^ e.grain

/-- A layout as it is computed for an extent. -/
structure Layout.Measures (l : Layout) (e : Extent) : Prop where
  size : Counts l.size e.size
  alignment : l.alignment = .ofNat e.alignment

theorem Layout.Measures.eq {l : Layout} {e : Extent} (h : l.Measures e) (hSize : e.size < 2 ^ 53) :
    l = ⟨.ofNat e.size, .ofNat e.alignment⟩ := by
  rw [← h.size.eq_ofNat hSize, ← h.alignment]

/-- A member of a record in its place. -/
structure Placed extends Extent where
  offset : Nat

/-- Where a member ends. -/
def Placed.stop (p : Placed) : Nat := p.offset + p.size

namespace Extent

variable {packed : Bool} {offset grain : Nat} {e : Extent} {es : List Extent}

/-- The exponent of what a member of a record is aligned to. -/
def step (packed : Bool) (e : Extent) : Nat := if packed then 0 else e.grain

/-- Members one after another from an offset on, each at the next multiple of its alignment or, in
a packed record, right after the one before. -/
def place (packed : Bool) (offset : Nat) : List Extent → List Placed
  | [] => []
  | e :: es =>
    let start := alignNat offset (2 ^ e.step packed)
    { e with offset := start } :: place packed (start + e.size) es

/-- Where the last of some members ends; without any, where they begin. -/
def stopAfter (packed : Bool) (offset : Nat) : List Extent → Nat
  | [] => offset
  | e :: es => stopAfter packed (alignNat offset (2 ^ e.step packed) + e.size) es

/-- The strictest alignment of a record and some members, as an exponent. -/
def strictest (packed : Bool) (grain : Nat) : List Extent → Nat
  | [] => grain
  | e :: es => strictest packed (grain ⊔ e.step packed) es

theorem step_le (packed : Bool) (e : Extent) : e.step packed ≤ 4 := by
  have := e.grain_le
  unfold step
  split <;> omega

theorem strictest_le (h : grain ≤ 4) : strictest packed grain es ≤ 4 := by
  induction es generalizing grain with
  | nil => exact h
  | cons e es ih => exact ih (max_le h (step_le packed e))

end Extent

/-! ## Records -/

/-- A layout of a record as it is computed for members in their places, an exact size and an
alignment. -/
structure RecordLayout.Exact (l : RecordLayout) (ps : List Placed) (size grain : Nat) : Prop where
  offsets : List.Forall₂ (fun x p => Counts x p.offset) l.offsets ps
  size : Counts l.size size
  alignment : l.alignment = .ofNat (2 ^ grain)

namespace Number

theorem max_two_pow {g k : Nat} (hg : g ≤ 4) (hk : k ≤ 4) :
    (ofNat (2 ^ g)).max (.ofNat (2 ^ k)) = .ofNat (2 ^ (g ⊔ k)) := by
  have hPow : 2 ^ g ⊔ 2 ^ k = 2 ^ (g ⊔ k) :=
    ((pow_right_mono₀ one_le_two).map_max).symm
  have hLt : 2 ^ (g ⊔ k) < 2 ^ 53 := Nat.pow_lt_pow_right (by decide) (by omega)
  have hCounts := (Counts.ofNat (2 ^ g)).max (Counts.ofNat (2 ^ k))
  rw [hPow] at hCounts
  exact hCounts.eq_ofNat hLt

end Number

theorem RecordLayout.exact_layOut {packed : Bool} {ms : List Layout} {es : List Extent}
    (h : List.Forall₂ Layout.Measures ms es) {x : Number} {n g : Nat} (hx : Counts x n)
    (hg : g ≤ 4) :
    (layOut packed x (.ofNat (2 ^ g)) ms).Exact (Extent.place packed n es)
      (alignNat (Extent.stopAfter packed n es) (2 ^ Extent.strictest packed g es))
      (Extent.strictest packed g es) := by
  induction h generalizing x n g with
  | nil => exact ⟨.nil, hx.alignUp (by omega), rfl⟩
  | @cons m e ms es hMember _ ih =>
    have hStep : (if packed then 1 else m.alignment) = .ofNat (2 ^ e.step packed) := by
      cases packed with
      | false => exact hMember.alignment
      | true => rfl
    have hStepLe := Extent.step_le packed e
    have hStart := hx.alignUp (k := e.step packed) (by omega)
    have hRest := ih (hStart.add hMember.size) (max_le hg hStepLe)
    rw [← Number.max_two_pow hg hStepLe] at hRest
    rw [layOut, hStep]
    exact ⟨.cons hStart hRest.offsets, hRest.size, hRest.alignment⟩

/-- The extent of a record with its members in their places. -/
def Extent.ofRecord (packed : Bool) (es : List Extent) : Extent where
  size := alignNat (stopAfter packed 0 es) (2 ^ strictest packed 0 es)
  grain := strictest packed 0 es
  grain_le := strictest_le (by decide)

theorem Extent.dvd_ofRecord (packed : Bool) (es : List Extent) :
    (ofRecord packed es).alignment ∣ (ofRecord packed es).size := dvd_alignNat _ _

theorem RecordLayout.exact_of {packed : Bool} {ms : List Layout} {es : List Extent}
    (h : List.Forall₂ Layout.Measures ms es) :
    (RecordLayout.of ms packed).Exact (Extent.place packed 0 es) (Extent.ofRecord packed es).size
      (Extent.ofRecord packed es).grain :=
  exact_layOut (g := 0) h (Counts.ofNat 0) (by omega)

theorem RecordLayout.Exact.measures {l : RecordLayout} {ps : List Placed} {e : Extent}
    (h : l.Exact ps e.size e.grain) : l.toLayout.Measures e := ⟨h.size, h.alignment⟩

/-- The extent of a struct or an object: without members it still takes up one byte. -/
def Extent.ofFields (packed : Bool) (es : List Extent) : Extent :=
  if es.isEmpty then ⟨1, 0, by decide⟩ else ofRecord packed es

theorem Extent.ofFields_of_ne_nil {es : List Extent} (packed : Bool) (h : es ≠ []) :
    ofFields packed es = ofRecord packed es := by
  rw [ofFields, List.isEmpty_eq_false_iff.mpr h]
  rfl

theorem Extent.dvd_ofFields (packed : Bool) (es : List Extent) :
    (ofFields packed es).alignment ∣ (ofFields packed es).size := by
  unfold ofFields
  split
  · exact Nat.dvd_refl 1
  · exact dvd_ofRecord packed es

theorem RecordLayout.exact_ofFields (packed : Bool) {ms : List Layout} {es : List Extent}
    (h : List.Forall₂ Layout.Measures ms es) :
    (RecordLayout.ofFields ms packed).Exact (Extent.place packed 0 es)
      (Extent.ofFields packed es).size (Extent.ofFields packed es).grain := by
  cases h with
  | nil => exact ⟨.nil, Counts.ofNat 1, rfl⟩
  | cons hMember hRest => exact exact_of (.cons hMember hRest)

/-! ## Unions, arrays and pointers -/

/-- The extent that has room for both of two. -/
def Extent.join (e e' : Extent) : Extent where
  size := e.size ⊔ e'.size
  grain := e.grain ⊔ e'.grain
  grain_le := max_le e.grain_le e'.grain_le

/-- The extent of a union: room for any of its variants. -/
def Extent.ofUnion (es : List Extent) : Extent := es.foldl join ⟨0, 0, by decide⟩

namespace Layout

theorem Measures.join {l l' : Layout} {e e' : Extent} (h : l.Measures e) (h' : l'.Measures e') :
    (Layout.mk (l.size.max l'.size) (l.alignment.max l'.alignment)).Measures (e.join e') := by
  refine ⟨h.size.max h'.size, ?_⟩
  show l.alignment.max l'.alignment = _
  rw [h.alignment, h'.alignment]
  exact Number.max_two_pow e.grain_le e'.grain_le

theorem measures_union {ms : List Layout} {es : List Extent} (h : List.Forall₂ Measures ms es) :
    (union ms).Measures (.ofUnion es) := by
  have hFold : ∀ (l : Layout) (e : Extent), l.Measures e →
      (ms.foldl (fun l v => ⟨l.size.max v.size, l.alignment.max v.alignment⟩) l).Measures
        (es.foldl Extent.join e) := by
    induction h with
    | nil => exact fun l e he => he
    | cons hHead _ ih => exact fun l e he => ih _ _ (he.join hHead)
  exact hFold ⟨0, 1⟩ _ ⟨Counts.ofNat 0, rfl⟩

/-- The elements of an array lie one after another. -/
theorem measures_array {l : Layout} {e : Extent} {n : Nat} (h : l.Measures e) (hn : n ≠ 0)
    (pointerSize : Number) :
    (array l (.ofNat n) pointerSize).Measures ⟨e.size * n, e.grain, e.grain_le⟩ := by
  have hLength : Number.ofNat n ≠ 0 := fun hZero => hn (Number.ofNat_injective hZero)
  rw [array, if_neg hLength]
  exact ⟨h.size.mul_ofNat (Nat.pos_of_ne_zero hn), h.alignment⟩

end Layout

/-- The extent of a pointer. -/
def PointerSize.extent : PointerSize → Extent
  | .four => ⟨4, 2, by decide⟩
  | .eight => ⟨8, 3, by decide⟩

theorem PointerSize.measures (p : PointerSize) : (Layout.ofPointer p).Measures p.extent := by
  cases p <;> exact ⟨Counts.ofNat _, rfl⟩

theorem PointerSize.dvd_extent (p : PointerSize) : p.extent.alignment ∣ p.extent.size := by
  cases p <;> decide

/-! ## Types -/

/-- The exponent of the alignment of a primitive type. -/
def Primitive.grain : Primitive → Nat
  | .integer k => k.width.rank
  | .float .f32 => 2
  | .float .f64 => 3
  | .char => 2
  | .bool | .void | .auto => 0

theorem Primitive.exists_extent (p : Primitive) :
    ∃ e : Extent, e.size = p.size ∧ e.alignment = p.alignment ∧ e.alignment ∣ e.size := by
  have hGrain : p.grain ≤ 4 ∧ 2 ^ p.grain = p.alignment ∧ 2 ^ p.grain ∣ p.size := by
    rcases p with ⟨signed, width⟩ | kind | _ | _ | _ | _
    · cases width <;> decide +revert
    · cases kind <;> decide
    all_goals decide
  exact ⟨⟨p.size, p.grain, hGrain.1⟩, rfl, hGrain.2.1, hGrain.2.2⟩

namespace Ty

/-- The type of the elements of an array and, if these are arrays, of their elements. An array of
any length has no elements in place. -/
def cell : Ty → Ty
  | .array o e n => if n = 0 then .array o e n else cell e
  | t => t
termination_by structural t => t

/-- The extent of a type. Only the size of a union need not be a multiple of the alignment, and that
of an array of unions. -/
structure Occupies (t : Ty) (e : Extent) : Prop where
  measures : t.layout.Measures e
  dvd : t.cell.kind ≠ .union → e.alignment ∣ e.size

theorem exists_extents {ts : List Ty} (h : ∀ t ∈ ts, ∃ e, t.Occupies e) :
    ∃ es, List.Forall₂ Layout.Measures (layouts ts) es := by
  induction ts with
  | nil => exact ⟨[], .nil⟩
  | cons t ts ih =>
    obtain ⟨e, he⟩ := h t List.mem_cons_self
    obtain ⟨es, hes⟩ := ih fun u hu => h u (List.mem_cons_of_mem _ hu)
    exact ⟨e :: es, .cons he.measures hes⟩

theorem fieldLayouts_eq (fs : List Field) : fieldLayouts fs = layouts (fs.map Prod.snd) := by
  rw [layouts, List.map_map]
  rfl

theorem exists_extent (t : Ty) : ∃ e, t.Occupies e := by
  have hPointer : ∀ {t : Ty} {p : PointerSize}, t.layout = .ofPointer p → ∃ e, t.Occupies e := by
    intro t p h
    refine ⟨p.extent, ?_, fun _ => p.dvd_extent⟩
    rw [h]
    exact p.measures
  induction t using Ty.induction with
  | primitive p =>
    obtain ⟨e, hSize, hAlignment, hDvd⟩ := p.exists_extent
    refine ⟨e, ?_, fun _ => hDvd⟩
    rw [layout_primitive, ← hSize, ← hAlignment]
    exact ⟨Counts.ofNat _, rfl⟩
  | array o e n ih =>
    by_cases hn : n = 0
    · subst hn
      exact hPointer (layout_array o e 0)
    · obtain ⟨extent, hExtent⟩ := ih
      refine ⟨⟨extent.size * n, extent.grain, extent.grain_le⟩, ?_, fun hCell => ?_⟩
      · rw [layout_array]
        exact Layout.measures_array hExtent.measures hn _
      · rw [cell, if_neg hn] at hCell
        exact Nat.dvd_mul_right_of_dvd (hExtent.dvd hCell) n
  | tuple o es ih =>
    obtain ⟨extents, hExtents⟩ := exists_extents ih
    refine ⟨.ofRecord false extents, ?_, fun _ => Extent.dvd_ofRecord false extents⟩
    rw [layout_tuple]
    exact (RecordLayout.exact_of hExtents).measures
  | union o vs ih =>
    obtain ⟨extents, hExtents⟩ := exists_extents ih
    refine ⟨.ofUnion extents, ?_, fun hCell => absurd rfl hCell⟩
    rw [layout_union]
    exact Layout.measures_union hExtents
  | function o ps r f _ _ => exact hPointer (layout_function o ps r f)
  | pointer o t _ => exact hPointer (layout_pointer o t)
  | reference o t _ => exact hPointer (layout_reference o t)
  | structType o h fs ih =>
    obtain ⟨extents, hExtents⟩ := exists_extents ih
    refine ⟨.ofFields h.flags.isPacked extents, ?_, fun _ => Extent.dvd_ofFields _ extents⟩
    rw [layout_structType, fieldLayouts_eq]
    exact (RecordLayout.exact_ofFields _ hExtents).measures
  | classType o h fs b _ _ => exact hPointer (layout_classType o h fs b)

end Ty

end SemanticCore
