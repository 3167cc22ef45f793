import SemanticCore.Proofs.Interner.Numbering
import SemanticCore.Proofs.Types.History

/-!
# Canonicity of the registry

Within a registry a composite is known by its shape: a call gets a type with just the parts that it
asks for, and between two resets the same type for the same parts and no others. Numbers are never
used twice, not even after a reset.

* `Registry.Sound`: what holds of a registry and the types that it made.
* `Registry.Sound.call`: every call keeps it; `Registry.Sound.call_shape`.
* `History.canonical`: what follows for the answers of a whole history.
-/

namespace SemanticCore

/-! ## Numbers of primitives -/

namespace Primitive

theorem getElem?_all (p : Primitive) : all[p.id]? = some p := by
  rcases p with ⟨signed, width⟩ | kind | _ | _ | _ | _
  · cases signed <;> cases width <;> rfl
  · cases kind <;> rfl
  all_goals rfl

theorem id_injective {p q : Primitive} (h : p.id = q.id) : p = q := by
  have hp := getElem?_all p
  rw [h, getElem?_all q] at hp
  exact (Option.some.inj hp).symm

theorem id_lt (p : Primitive) : p.id < reserved := by
  obtain ⟨hLt, -⟩ := List.getElem?_eq_some_iff.mp (getElem?_all p)
  exact lt_of_lt_of_le hLt (by decide)

end Primitive

theorem Known.mono {made made' : List Ty} {t : Ty} (h : Known made t) (hSub : made ⊆ made') :
    Known made' t :=
  h.imp_right fun ht => hSub ht

theorem Shape.Over.mono {T T' : Ty → Prop} {N : Name → Prop} {s : Shape} (h : s.Over T N)
    (hLe : ∀ t, T t → T' t) : s.Over T' N :=
  ⟨fun t ht => hLe t (h.types t ht), h.names, h.numbers⟩

namespace Registry

/-! ## What is found -/

section

variable {r : Registry} {q : Request} {make : Origin → Ty} {t : Ty}

theorem find?_obtain_self : (r.obtain q make).2.find? q = some (r.obtain q make).1 := by
  unfold obtain
  split
  · assumption
  · rename_i hNone
    rw [find?, List.lookup_append, ← find?, hNone]
    simp

theorem obtain_of_find? (h : r.find? q = some t) : r.obtain q make = (t, r) := by
  simp only [obtain, h]

theorem find?_call {c : TypeCall} (hc : c ≠ .clear) (h : r.find? q = some t) :
    (r.call c).2.find? q = some t := by
  have hCalled := r.called c
  generalize r.call c = after at hCalled ⊢
  cases hCalled with
  | refused => exact h
  | cleared clear => exact absurd clear hc
  | found => exact h
  | made =>
    rw [find?, List.lookup_append, ← find?, h]
    rfl

end

/-! ## Soundness -/

/-- What holds of a registry that made the types `made` with names that satisfy `N`. -/
structure Sound (N : Name → Prop) (made : List Ty) (r : Registry) : Prop where
  reserved_le : Primitive.reserved ≤ r.nextId
  shaped : ∀ t ∈ made, ∃ s, t.shape? = some s ∧ s.Over (Known made) N
  numbered : ∀ t ∈ made, Primitive.reserved ≤ t.id ∧ t.id < r.nextId
  apart : ∀ t ∈ made, ∀ u ∈ made, t.id = u.id → t = u
  filed : ∀ q t, r.find? q = some t → t ∈ made ∧ ∃ s, t.shape? = some s ∧ s.request = q

namespace Sound

variable {N : Name → Prop} {made : List Ty} {r : Registry} {s : Shape} {t : Ty}

theorem typesApart (h : r.Sound N made) : TypesApart (Known made) := by
  intro t u ht hu hId
  rcases ht with ⟨p, rfl⟩ | ht <;> rcases hu with ⟨q, rfl⟩ | hu
  · rw [Primitive.id_injective hId]
  · have hLow := (h.numbered u hu).1
    rw [← hId] at hLow
    exact absurd p.id_lt (not_lt.mpr hLow)
  · have hLow := (h.numbered t ht).1
    rw [hId] at hLow
    exact absurd q.id_lt (not_lt.mpr hLow)
  · exact h.apart t ht u hu hId

theorem known_stripReferences (h : r.Sound N made) (ht : Known made t) :
    Known made t.stripReferences := by
  fun_induction Ty.stripReferences t with
  | case1 o t ih =>
    apply ih
    rcases ht with ⟨p, hp⟩ | ht
    · cases hp
    · obtain ⟨s, hs, hOver⟩ := h.shaped _ ht
      cases hs
      exact hOver.types t List.mem_cons_self
  | case2 t => exact ht

theorem over_of_lawful {names : List Name} {c : TypeCall} (h : r.Sound N made)
    (hc : c.Lawful names made) (hs : c.shape? = some s) : s.Over (Known made) (· ∈ names) := by
  cases c with
  | array e n =>
    obtain ⟨m, hm, rfl⟩ := Option.map_eq_some_iff.mp hs
    refine ⟨hc.types, hc.names, ?_⟩
    rw [Number.eq_ofNat_of_toNat? hm] at hc
    exact hc.numbers
  | tuple es =>
    cases es with
    | nil => cases hs
    | cons t ts =>
      cases hs
      exact ⟨hc.types, hc.names, hc.numbers⟩
  | union vs =>
    cases vs with
    | nil => cases hs
    | cons t ts =>
      cases hs
      exact ⟨hc.types, hc.names, hc.numbers⟩
  | function ps t f =>
    cases hs
    exact ⟨hc.types, hc.names, hc.numbers⟩
  | pointer t =>
    cases t with
    | none => cases hs
    | some t =>
      cases hs
      -- the shape has what a reference refers to, which no argument of the call need be
      refine ⟨fun u hu => ?_, hc.names, hc.numbers⟩
      rw [List.mem_singleton.mp hu]
      exact h.known_stripReferences (hc.types t List.mem_cons_self)
  | reference t =>
    cases t with
    | none => cases hs
    | some t =>
      cases t with
      | pointer o t => cases hs
      | _ =>
        cases hs
        exact ⟨hc.types, hc.names, hc.numbers⟩
  | structType hd fs =>
    cases hs
    exact ⟨hc.types, hc.names, hc.numbers⟩
  | classType hd fs b =>
    cases hs
    exact ⟨hc.types, hc.names, hc.numbers⟩
  | clear => cases hs

/-- A type that was made before may be counted again. -/
theorem append_of_mem (h : r.Sound N made) (ht : t ∈ made) : r.Sound N (made ++ [t]) := by
  have hMem : ∀ u, u ∈ made ++ [t] ↔ u ∈ made := by
    intro u
    simp only [List.mem_append, List.mem_singleton]
    exact ⟨fun hu => hu.elim id fun hu => hu ▸ ht, Or.inl⟩
  refine ⟨h.reserved_le, fun u hu => ?_, fun u hu => h.numbered u ((hMem u).mp hu),
    fun u hu v hv => h.apart u ((hMem u).mp hu) v ((hMem v).mp hv), fun q u hq => ?_⟩
  · obtain ⟨s, hs, hOver⟩ := h.shaped u ((hMem u).mp hu)
    exact ⟨s, hs, hOver.mono fun _ hv => hv.mono (List.subset_append_left made [t])⟩
  · obtain ⟨hu, hShape⟩ := h.filed q u hq
    exact ⟨(hMem u).mpr hu, hShape⟩

theorem append_new (h : r.Sound N made) (hs : t.shape? = some s)
    (hOver : s.Over (Known made) N) (hId : t.id = r.nextId) :
    Sound N (made ++ [t])
      { r with nextId := r.nextId + 1, table := r.table ++ [(s.request, t)] } := by
  have hKnown : ∀ u, Known made u → Known (made ++ [t]) u :=
    fun _ hu => hu.mono (List.subset_append_left made [t])
  have hCases : ∀ u, u ∈ made ++ [t] → u ∈ made ∨ u = t := by simp
  refine ⟨Nat.le_succ_of_le h.reserved_le, fun u hu => ?_, fun u hu => ?_,
    fun u hu v hv hEq => ?_, fun q u hq => ?_⟩
  · rcases hCases u hu with hu | rfl
    · obtain ⟨s', hs', hOver'⟩ := h.shaped u hu
      exact ⟨s', hs', hOver'.mono hKnown⟩
    · exact ⟨s, hs, hOver.mono hKnown⟩
  · rcases hCases u hu with hu | rfl
    · exact ⟨(h.numbered u hu).1, Nat.lt_succ_of_lt (h.numbered u hu).2⟩
    · rw [hId]
      exact ⟨h.reserved_le, Nat.lt_succ_self _⟩
  · -- the number of the new type is above those of all others
    rcases hCases u hu with hu' | hu' <;> rcases hCases v hv with hv' | hv'
    · exact h.apart u hu' v hv' hEq
    · have := (h.numbered u hu').2
      rw [hv'] at hEq
      omega
    · have := (h.numbered v hv').2
      rw [hu'] at hEq
      omega
    · rw [hu', hv']
  · rw [find?, List.lookup_append, ← find?] at hq
    cases hOld : r.find? q with
    | some u' =>
      rw [hOld, Option.some_or] at hq
      cases hq
      obtain ⟨hu, hShape⟩ := h.filed q u hOld
      exact ⟨List.mem_append_left _ hu, hShape⟩
    | none =>
      rw [hOld, Option.none_or] at hq
      simp only [List.lookup_cons, List.lookup_nil] at hq
      split at hq
      · rename_i hKey
        cases hq
        exact ⟨by simp, s, hs, (beq_iff_eq.mp hKey).symm⟩
      · cases hq

theorem clear (h : r.Sound N made) : r.clear.Sound N made :=
  ⟨h.reserved_le, h.shaped, h.numbered, h.apart, fun _ _ hq => by cases hq⟩

/-- Every call keeps soundness. -/
theorem call {names : List Name} {c : TypeCall} (h : r.Sound (· ∈ names) made)
    (hc : c.Lawful names made) : (r.call c).2.Sound (· ∈ names) (made ++ (r.call c).1.toList) := by
  have hCalled := r.called c
  generalize r.call c = after at hCalled ⊢
  cases hCalled with
  | refused => simpa using h
  | cleared => simpa using h.clear
  | found asked found => exact h.append_of_mem (h.filed _ _ found).1
  | made asked shape id => exact h.append_new shape (h.over_of_lawful hc asked) id

/-- Where names are told apart by their numbers, what is found has the shape that was asked for, as
has what is made. -/
theorem call_shape {names : List Name} {c : TypeCall} (h : r.Sound (· ∈ names) made)
    (hN : NamesApart (· ∈ names)) (hc : c.Lawful names made) :
    (r.call c).1.map Ty.shape? = c.shape?.map some := by
  have hCalled := r.called c
  generalize r.call c = after at hCalled ⊢
  cases hCalled with
  | refused noShape =>
    rw [noShape]
    rfl
  | cleared clear =>
    rw [clear]
    rfl
  | @found s t asked found =>
    obtain ⟨ht, s', hs', hKey⟩ := h.filed _ t found
    obtain ⟨s'', hs'', hOver'⟩ := h.shaped t ht
    cases hs'.symm.trans hs''
    rw [Shape.eq_of_request_eq h.typesApart hN hOver' (h.over_of_lawful hc asked) hKey] at hs'
    rw [asked]
    exact congrArg some hs'
  | made asked shape =>
    rw [asked]
    exact congrArg some shape

end Sound

theorem sound_create {serial : Nat} {pointerSize : Number} {r : Registry} {N : Name → Prop}
    (h : create serial pointerSize = .ok r) : r.Sound N [] := by
  have hNew : r.nextId = Primitive.reserved ∧ r.table = [] := by
    unfold create at h
    split at h
    · cases h
      exact ⟨rfl, rfl⟩
    · split at h
      · cases h
        exact ⟨rfl, rfl⟩
      · cases h
  refine ⟨hNew.1.ge, by simp, by simp, by simp, fun q t hq => ?_⟩
  rw [find?, hNew.2] at hq
  cases hq

end Registry

/-! ## Whole histories -/

theorem answers_append (es : List (TypeCall × Option Ty)) (c : TypeCall) (a : Option Ty) :
    answers (es ++ [(c, a)]) = answers es ++ a.toList := by
  cases a <;> simp [answers]

/-- What the answers of one registry have in common with the calls. -/
structure Canonical (es : List (TypeCall × Option Ty)) : Prop where
  /-- An answer has just the parts that were asked for; only a refused call has none. -/
  shape_eq : ∀ e ∈ es, e.2.map Ty.shape? = e.1.shape?.map some
  /-- Two answers with no reset between them are one type just if the same was asked for. -/
  eq_iff : ∀ es₁ es₂ es₃ c d t u, es = es₁ ++ (c, some t) :: (es₂ ++ (d, some u) :: es₃) →
    (∀ e ∈ es₂, e.1 ≠ .clear) → (t = u ↔ c.shape? = d.shape?)
  /-- No number is used twice. -/
  eq_of_id : ∀ t ∈ answers es, ∀ u ∈ answers es, t.id = u.id → t = u
  /-- The numbers that are kept for primitives are not used. -/
  reserved_le : ∀ t ∈ answers es, 64 ≤ t.id

namespace History

variable {names : List Name} {first r : Registry} {es es' : List (TypeCall × Option Ty)}
  {c : TypeCall} {s : Shape} {t : Ty}

theorem sound (hFirst : first.Sound (· ∈ names) []) (h : History names first es r) :
    r.Sound (· ∈ names) (answers es) := by
  induction h with
  | start => exact hFirst
  | call h c hLawful ih =>
    rw [answers_append]
    exact ih.call hLawful

theorem shape_eq (hFirst : first.Sound (· ∈ names) []) (hN : NamesApart (· ∈ names))
    (h : History names first es r) : ∀ e ∈ es, e.2.map Ty.shape? = e.1.shape?.map some := by
  induction h with
  | start => simp
  | call h c hLawful ih =>
    intro e he
    rcases List.mem_append.mp he with he | he
    · exact ih e he
    · rw [List.mem_singleton.mp he]
      exact (h.sound hFirst).call_shape hN hLawful

/-- A class that is answered, be it new or not, has the fields that its base class has, and then
those that were asked for. -/
theorem flattenedFields_classType {interner : Interner} {serial : Nat} {pointerSize : Number}
    (hNames : interner.Reached) (hCreate : Registry.create serial pointerSize = .ok first)
    (h : History interner.names first es r) {head : RecordHead} {fields : List Field}
    {base : Option Ty}
    (hLawful : (TypeCall.classType head fields base).Lawful interner.names (answers es)) :
    (r.classType head fields base).1.flattenedFields =
      (base.map Ty.flattenedFields).getD [] ++ fields := by
  have hSound := h.sound (Registry.sound_create hCreate)
  have hShape := hSound.call_shape (fun _ _ hm hn hId => hNames.eq_of_id hm hn hId) hLawful
  have hAnswer : (r.classType head fields base).1.shape? =
      some (.classType head.name head.flags base fields) := Option.some.inj hShape
  revert hAnswer
  cases (r.classType head fields base).1 with
  | classType o h fs b =>
    intro hAnswer
    obtain ⟨-, -, rfl, rfl⟩ := Shape.classType.inj (Option.some.inj hAnswer)
    cases b <;> rfl
  | _ => exact nofun

/-- What was answered is found again until the registry is cleared. -/
theorem find?_request (h : History names first (es ++ (c, some t) :: es') r)
    (hClear : ∀ e ∈ es', e.1 ≠ .clear) (hShape : c.shape? = some s) :
    r.find? s.request = some t := by
  induction es' using List.reverseRecOn generalizing r with
  | nil =>
    obtain ⟨r₁, -, -, hAnswer, rfl⟩ := h.exists_last
    obtain ⟨make, -, hCall⟩ := r₁.call_of_shape hShape
    rw [hCall] at hAnswer ⊢
    rw [Option.some.inj hAnswer]
    exact Registry.find?_obtain_self
  | append_singleton es' e ih =>
    rw [← List.cons_append, ← List.append_assoc] at h
    obtain ⟨r₁, h₁, -, -, rfl⟩ := h.exists_last
    apply Registry.find?_call (hClear e (by simp))
    exact ih h₁ fun e' he' => hClear e' (List.mem_append_left _ he')

theorem eq_iff (hFirst : first.Sound (· ∈ names) []) (hN : NamesApart (· ∈ names))
    {es₁ es₂ es₃ : List (TypeCall × Option Ty)} {d : TypeCall} {u : Ty}
    (h : History names first (es₁ ++ (c, some t) :: (es₂ ++ (d, some u) :: es₃)) r)
    (hClear : ∀ e ∈ es₂, e.1 ≠ .clear) : t = u ↔ c.shape? = d.shape? := by
  have hFormer := h.shape_eq hFirst hN (c, some t) (by simp)
  have hLatter := h.shape_eq hFirst hN (d, some u) (by simp)
  obtain ⟨s, hs, hs'⟩ := Option.map_eq_some_iff.mp hFormer.symm
  obtain ⟨s₂, hs₂, hs₂'⟩ := Option.map_eq_some_iff.mp hLatter.symm
  constructor
  · rintro rfl
    rw [hs, hs₂, hs', hs₂']
  · intro hSame
    have hSplit : es₁ ++ (c, some t) :: (es₂ ++ (d, some u) :: es₃)
        = ((es₁ ++ (c, some t) :: es₂) ++ [(d, some u)]) ++ es₃ := by simp
    rw [hSplit] at h
    obtain ⟨r₂, h₂⟩ := h.exists_prefix
    obtain ⟨r₁, h₁, -, hAnswer, -⟩ := h₂.exists_last
    obtain ⟨make, -, hCall⟩ := r₁.call_of_shape (hSame ▸ hs)
    rw [hCall, Registry.obtain_of_find? (h₁.find?_request hClear hs)] at hAnswer
    exact (Option.some.inj hAnswer).symm

/-- Every history of a registry, with names of an interner that is not reset, is canonical. -/
theorem canonical {interner : Interner} {serial : Nat} {pointerSize : Number}
    (hNames : interner.Reached) (hCreate : Registry.create serial pointerSize = .ok first)
    (h : History interner.names first es r) : Canonical es := by
  have hFirst := Registry.sound_create (N := (· ∈ interner.names)) hCreate
  have hN : NamesApart (· ∈ interner.names) := fun _ _ hm hn hId => hNames.eq_of_id hm hn hId
  have hSound := h.sound hFirst
  exact {
    shape_eq := h.shape_eq hFirst hN
    eq_iff := fun _ _ _ _ _ _ _ hEs hClear => (hEs ▸ h).eq_iff hFirst hN hClear
    eq_of_id := hSound.apart
    reserved_le := fun t ht => (hSound.numbered t ht).1 }

/-- A tuple that is asked for before and after a reset, and a pointer to the former tuple. -/
theorem canonical_tuple_clear_tuple :
    Canonical [(.tuple [.primitive .bool], some (.tuple ⟨0, .eight, 64⟩ [.primitive .bool])),
      (.clear, none),
      (.tuple [.primitive .bool], some (.tuple ⟨0, .eight, 65⟩ [.primitive .bool])),
      (.pointer (some (.tuple ⟨0, .eight, 64⟩ [.primitive .bool])),
        some (.pointer ⟨0, .eight, 66⟩ (.tuple ⟨0, .eight, 64⟩ [.primitive .bool])))] := by
  have hLawful : ∀ {made : List Ty} {c : TypeCall}, c.names = [] → c.numbers = [] →
      (∀ t ∈ c.types, Known made t) → c.Lawful (Interner.start 0 default).1.names made :=
    fun hNames hNumbers hTypes => ⟨hTypes, by simp [hNames], by simp [hNumbers]⟩
  have hBool : ∀ made, ∀ t ∈ [Ty.primitive .bool], Known made t :=
    fun made t ht => Or.inl ⟨.bool, List.mem_singleton.mp ht⟩
  have hCreate : Registry.create 0 8 = .ok { serial := 0, pointerSize := .eight } := rfl
  have h₁ := (@History.start (Interner.start 0 default).1.names
    { serial := 0, pointerSize := .eight }).call (.tuple [.primitive .bool])
      (hLawful rfl rfl (hBool _))
  have h₂ := h₁.call .clear (hLawful rfl rfl (by simp [TypeCall.types]))
  have h₃ := h₂.call (.tuple [.primitive .bool]) (hLawful rfl rfl (hBool _))
  have h₄ := h₃.call (.pointer (some (.tuple ⟨0, .eight, 64⟩ [.primitive .bool])))
    (hLawful rfl rfl fun t ht => Or.inr (List.mem_singleton.mp ht ▸ List.mem_cons_self))
  exact canonical (Interner.Reached.start 0 default) hCreate h₄

end History

end SemanticCore
