import SemanticCore.Proofs.Types.Canonicity
import SemanticCore.Proofs.Types.Structure

/-!
# Well-formed types

What a registry refuses stands nowhere inside of what it answers, and numbers go down from a type to
its parts. So no type is a part of itself, and a way along parts, be it from class to base class or
from reference to referent, has no more steps than the number of the type where it starts.

* `Ty.WellFormed`: what holds of every type that a registry answers.
* `History.exists_maker`: every answer was new once, and then its number was the highest.
* `History.wellFormed`: answers are well-formed, at every depth.
-/

namespace SemanticCore

namespace Ty

structure WellFormed (t : Ty) : Prop where
  pointee : ∀ o u, t = .pointer o u → u.kind ≠ .reference
  referent : ∀ o u, t = .reference o u → u.kind ≠ .pointer
  elements : ∀ o es, t = .tuple o es → es ≠ []
  variants : ∀ o vs, t = .union o vs → vs ≠ []
  /-- Numbers go down from a type to its parts. -/
  id_lt : ∀ u ∈ t.parts, u.id < t.id
  /-- A class has the fields of its base class, then its own. -/
  flattened : ∀ o h fs b, t = .classType o h fs b →
    t.flattenedFields = (b.map flattenedFields).getD [] ++ fs

variable {t u : Ty}

theorem parts_of_shape {s : Shape} (h : t.shape? = some s) : t.parts = s.types := by
  cases t <;> cases h <;> rfl

theorem WellFormed.primitive (p : Primitive) : (Ty.primitive p).WellFormed :=
  ⟨nofun, nofun, nofun, nofun, List.forall_mem_nil _, nofun⟩

theorem WellFormed.of_shape {s : Shape} (hShape : t.shape? = some s) (hRegular : s.Regular)
    (hLt : ∀ u ∈ s.types, u.id < t.id) : t.WellFormed where
  pointee := by
    rintro o u rfl
    cases hShape
    exact hRegular
  referent := by
    rintro o u rfl
    cases hShape
    exact hRegular
  elements := by
    rintro o es rfl
    cases hShape
    exact hRegular
  variants := by
    rintro o vs rfl
    cases hShape
    exact hRegular
  id_lt := by
    rw [parts_of_shape hShape]
    exact hLt
  flattened := by
    rintro o h fs b rfl
    cases b <;> rfl

/-- A way down along parts is no longer than the number where it starts. -/
theorem length_le_of_isChain {us : List Ty} (h : (t :: us).IsChain fun a b => b.id < a.id) :
    us.length ≤ t.id := by
  induction us generalizing t with
  | nil => exact Nat.zero_le _
  | cons u us ih =>
    obtain ⟨hLt, hRest⟩ := List.isChain_cons_cons.mp h
    exact Nat.succ_le_of_lt ((ih hRest).trans_lt hLt)

end Ty

theorem Registry.Sound.id_lt {N : Name → Prop} {made : List Ty} {r : Registry} {t : Ty}
    (h : r.Sound N made) (ht : Known made t) : t.id < r.nextId := by
  rcases ht with ⟨p, rfl⟩ | ht
  · exact p.id_lt.trans_le h.reserved_le
  · exact (h.numbered t ht).2

namespace History

variable {names : List Name} {first r : Registry} {es : List (TypeCall × Option Ty)} {t u : Ty}

/-- A call has an answer just if it asks for a shape. -/
theorem isSome_iff (h : History names first es r) :
    ∀ e ∈ es, (e.2.isSome ↔ e.1.shape?.isSome) := by
  induction h with
  | start => exact List.forall_mem_nil _
  | @call es r h c hLawful ih =>
    refine List.forall_mem_append.mpr ⟨ih, List.forall_mem_singleton.mpr ?_⟩
    have hCalled := r.called c
    generalize r.call c = after at hCalled ⊢
    cases hCalled with
    | refused noShape => simp [noShape]
    | cleared clear => simp [clear, TypeCall.shape?]
    | found asked => simp [asked]
    | made asked => simp [asked]

/-- Every answer was new once: a call asked for its shape about types known by then, and it got the
next number. -/
theorem exists_maker (hFirst : first.Sound (· ∈ names) []) (h : History names first es r)
    (ht : t ∈ answers es) :
    ∃ (made : List Ty) (r₁ : Registry) (c : TypeCall) (s : Shape), r₁.Sound (· ∈ names) made ∧
      c.Lawful names made ∧ c.shape? = some s ∧ t.shape? = some s ∧ t.id = r₁.nextId := by
  induction h with
  | start => cases ht
  | @call es r₁ h c hLawful ih =>
    rw [answers_append] at ht
    rcases List.mem_append.mp ht with ht | ht
    · exact ih ht
    · have hCalled := r₁.called c
      generalize r₁.call c = after at hCalled ht
      cases hCalled with
      | refused | cleared => cases ht
      | found asked found =>
        cases Option.mem_toList.mp ht
        exact ih ((h.sound hFirst).filed _ t found).1
      | made asked shape id =>
        cases Option.mem_toList.mp ht
        exact ⟨_, _, c, _, h.sound hFirst, hLawful, asked, shape, id⟩

theorem wellFormed_of_known (hFirst : first.Sound (· ∈ names) []) (h : History names first es r)
    (ht : Known (answers es) t) : t.WellFormed := by
  rcases ht with ⟨p, rfl⟩ | ht
  · exact .primitive p
  · obtain ⟨made, r₁, c, s, hSound, hLawful, hs, hShape, hId⟩ := h.exists_maker hFirst ht
    refine .of_shape hShape (TypeCall.regular_of_shape? hs) fun u hu => ?_
    rw [hId]
    exact hSound.id_lt ((hSound.over_of_lawful hLawful hs).types u hu)

theorem known_part (hFirst : first.Sound (· ∈ names) []) (h : History names first es r)
    (ht : Known (answers es) t) (hu : u ∈ t.parts) : Known (answers es) u := by
  rcases ht with ⟨p, rfl⟩ | ht
  · cases hu
  · obtain ⟨s, hs, hOver⟩ := (h.sound hFirst).shaped t ht
    rw [Ty.parts_of_shape hs] at hu
    exact hOver.types u hu

/-- What is met on the way down from a known type is known, and has lower and lower numbers. -/
theorem descend (hFirst : first.Sound (· ∈ names) []) (h : History names first es r)
    (ht : Known (answers es) t) {us : List Ty}
    (hPath : (t :: us).IsChain fun t u => u ∈ t.parts) :
    (∀ u ∈ t :: us, Known (answers es) u) ∧ (t :: us).IsChain fun a b => b.id < a.id := by
  induction us generalizing t with
  | nil => exact ⟨List.forall_mem_singleton.mpr ht, .singleton t⟩
  | cons u us ih =>
    obtain ⟨hPart, hRest⟩ := List.isChain_cons_cons.mp hPath
    obtain ⟨hKnown, hChain⟩ := ih (h.known_part hFirst ht hPart) hRest
    exact ⟨List.forall_mem_cons.mpr ⟨ht, hKnown⟩,
      hChain.cons_cons ((h.wellFormed_of_known hFirst ht).id_lt u hPart)⟩

/-- Whatever a registry answered, before or after a reset: all that is met on a way down from it to
its parts and theirs is well-formed, has lower and lower numbers, and comes to an end. Arrays are
answered just if the length is a natural number. -/
theorem wellFormed {serial : Nat} {pointerSize : Number}
    (hCreate : Registry.create serial pointerSize = .ok first) (h : History names first es r) :
    (∀ t ∈ answers es, ∀ us, (t :: us).IsChain (fun t u => u ∈ t.parts) →
      (∀ u ∈ t :: us, u.WellFormed ∧ Known (answers es) u) ∧
        (t :: us).Pairwise (fun a b => b.id < a.id) ∧ us.length ≤ t.id) ∧
      ∀ e n a, (TypeCall.array e n, a) ∈ es → (a.isSome ↔ ∃ k, n = Number.ofNat k) := by
  have hFirst := Registry.sound_create (N := (· ∈ names)) hCreate
  refine ⟨fun t ht us hPath => ?_, fun e n a hMem => ?_⟩
  · obtain ⟨hKnown, hChain⟩ := h.descend hFirst (.inr ht) hPath
    refine ⟨fun u hu => ⟨h.wellFormed_of_known hFirst (hKnown u hu), hKnown u hu⟩, ?_,
      Ty.length_le_of_isChain hChain⟩
    have hTrans : IsTrans Ty fun a b => b.id < a.id := ⟨fun _ _ _ hab hbc => hbc.trans hab⟩
    exact List.isChain_iff_pairwise.mp hChain
  · rw [h.isSome_iff _ hMem]
    constructor
    · intro hSome
      obtain ⟨s, hs⟩ := Option.isSome_iff_exists.mp hSome
      obtain ⟨k, hk, -⟩ := Option.map_eq_some_iff.mp hs
      exact ⟨k, Number.eq_ofNat_of_toNat? hk⟩
    · rintro ⟨k, rfl⟩
      rw [TypeCall.shape?, Number.toNat?_ofNat]
      rfl

/-- A pointer to an older reference, asked for after a reset, points to the tuple that the reference
refers to. -/
theorem wellFormed_pointer_reference :
    (Ty.pointer ⟨0, .eight, 66⟩ (.tuple ⟨0, .eight, 64⟩ [.primitive .bool])).WellFormed ∧
      (Ty.tuple ⟨0, .eight, 64⟩ [.primitive .bool]).WellFormed := by
  have hLawful : ∀ {made : List Ty} {c : TypeCall}, c.names = [] → c.numbers = [] →
      (∀ t ∈ c.types, Known made t) → c.Lawful [] made :=
    fun hNames hNumbers hTypes => ⟨hTypes, by simp [hNames], by simp [hNumbers]⟩
  have hCreate : Registry.create 0 8 = .ok { serial := 0, pointerSize := .eight } := rfl
  have h₁ := (@History.start [] { serial := 0, pointerSize := .eight }).call
    (.tuple [.primitive .bool])
    (hLawful rfl rfl (List.forall_mem_singleton.mpr (.inl ⟨.bool, rfl⟩)))
  have h₂ := h₁.call (.reference (some (.tuple ⟨0, .eight, 64⟩ [.primitive .bool])))
    (hLawful rfl rfl (List.forall_mem_singleton.mpr (.inr List.mem_cons_self)))
  have h₃ := h₂.call .clear (hLawful rfl rfl (List.forall_mem_nil _))
  have h₄ := h₃.call
    (.pointer (some (.reference ⟨0, .eight, 65⟩ (.tuple ⟨0, .eight, 64⟩ [.primitive .bool]))))
    (hLawful rfl rfl
      (List.forall_mem_singleton.mpr (.inr (List.mem_cons_of_mem _ List.mem_cons_self))))
  have hPath : List.IsChain (fun t u => u ∈ t.parts)
      [Ty.pointer ⟨0, .eight, 66⟩ (.tuple ⟨0, .eight, 64⟩ [.primitive .bool]),
        .tuple ⟨0, .eight, 64⟩ [.primitive .bool]] :=
    .cons_cons (List.mem_singleton_self _) (.singleton _)
  have hAll := ((wellFormed hCreate h₄).1 _
    (List.mem_cons_of_mem _ (List.mem_cons_of_mem _ List.mem_cons_self)) _ hPath).1
  exact ⟨(hAll _ List.mem_cons_self).1, (hAll _ (List.mem_cons_of_mem _ List.mem_cons_self)).1⟩

end History

end SemanticCore
