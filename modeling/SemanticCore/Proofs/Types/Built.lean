import SemanticCore.Proofs.Types.History

/-!
# Types that registries build

A registry is started and called any number of times, about any types. What it answers has the shape
of one of its calls, so it is nothing that a call is refused for: no tuple, for example, is empty.

* `Ty.Built`: the answers of registries.
* `Ty.Built.exists_call`: the shape of an answer was asked for.
-/

namespace SemanticCore

/-- The registry after some calls. -/
def Registry.run (r : Registry) (cs : List TypeCall) : Registry :=
  cs.foldl (fun r c => (r.call c).2) r

/-- What a registry answers to a call, whatever it was asked before. -/
def Ty.Built (t : Ty) : Prop :=
  ∃ serial pointerSize first cs c, Registry.create serial pointerSize = .ok first ∧
    ((first.run cs).call c).1 = some t

/-- A type whose shape can be asked for. -/
def Ty.Requested (t : Ty) : Prop :=
  ∃ (c : TypeCall) (s : Shape), c.shape? = some s ∧ t.shape? = some s

namespace Registry

variable {r : Registry}

/-- What holds of the types in the table of a registry, and of a type that it makes next for a call,
holds of the answer, and of the types in the table then. -/
theorem forall_call {P : Ty → Prop} {c : TypeCall} (h : ∀ e ∈ r.table, P e.2)
    (hMake : ∀ s t, c.shape? = some s → t.shape? = some s →
      t.key = .composite ⟨r.serial, r.pointerSize, r.nextId⟩ → P t) :
    (∀ t, (r.call c).1 = some t → P t) ∧ ∀ e ∈ (r.call c).2.table, P e.2 := by
  cases hAsked : c.shape? with
  | none =>
    by_cases hClear : c = .clear
    · subst hClear
      exact ⟨nofun, List.forall_mem_nil _⟩
    · rw [call_of_no_shape hAsked hClear]
      exact ⟨nofun, h⟩
  | some s =>
    obtain ⟨make, hShape, hCall⟩ := r.call_of_shape hAsked
    rw [hCall, obtain]
    cases hFound : r.find? s.request with
    | some t =>
      obtain ⟨before, after, hTable, -⟩ := List.lookup_eq_some_iff.mp hFound
      refine ⟨?_, h⟩
      rintro _ ⟨⟩
      exact h (s.request, t) (by simp [hTable])
    | none =>
      have hNew := hMake s _ hAsked (hShape _).1 (hShape ⟨r.serial, r.pointerSize, r.nextId⟩).2
      refine ⟨?_, List.forall_mem_append.mpr ⟨h, List.forall_mem_singleton.mpr hNew⟩⟩
      rintro _ ⟨⟩
      exact hNew

/-- A registry all of whose types have shapes that can be asked for. -/
def Requested (r : Registry) : Prop := ∀ e ∈ r.table, e.2.Requested

theorem requested_create {serial : Nat} {pointerSize : Number}
    (h : create serial pointerSize = .ok r) : r.Requested := by
  unfold create at h
  split at h
  · cases h
    exact List.forall_mem_nil _
  · split at h
    · cases h
      exact List.forall_mem_nil _
    · cases h

theorem Requested.call (h : r.Requested) (c : TypeCall) :
    (∀ t, (r.call c).1 = some t → t.Requested) ∧ (r.call c).2.Requested :=
  forall_call h fun s _ hAsked hShape _ => ⟨c, s, hAsked, hShape⟩

theorem Requested.run (h : r.Requested) (cs : List TypeCall) : (r.run cs).Requested := by
  induction cs generalizing r with
  | nil => exact h
  | cons c cs ih => exact ih (h.call c).2

/-- After any class, a new registry makes any class that derives from it. -/
theorem call_derived (serial : Nat) (h h' : RecordHead) (fs fs' : List Field) :
    ((run { serial, pointerSize := .eight } [.classType h fs none]).call
        (.classType h' fs' (some (.classType ⟨serial, .eight, 64⟩ h fs none)))).1 =
      some (.classType ⟨serial, .eight, 65⟩ h' fs'
        (some (.classType ⟨serial, .eight, 64⟩ h fs none))) := by
  -- one request names a base class and the other none
  have hKey : (Request.ofClass h'.name h'.flags
      (some (Ty.classType ⟨serial, .eight, 64⟩ h fs none)) fs' ==
        Request.ofClass h.name h.flags none fs) = false :=
    beq_eq_false_iff_ne.mpr (Request.ofClass_ne nofun)
  simp only [run, List.foldl_cons, List.foldl_nil, Registry.call, Registry.classType,
    Registry.obtain, Registry.find?, List.lookup_nil, List.nil_append, List.lookup_cons, hKey]
  rfl

end Registry

namespace Ty.Built

variable {t : Ty}

theorem requested (h : t.Built) : t.Requested := by
  obtain ⟨serial, pointerSize, first, cs, c, hCreate, hAnswer⟩ := h
  exact ((Registry.requested_create hCreate).run cs |>.call c).1 t hAnswer

theorem tuple_ne_nil {o : Origin} {es : List Ty} (h : (Ty.tuple o es).Built) : es ≠ [] := by
  obtain ⟨c, s, hCall, hShape⟩ := h.requested
  cases hShape
  exact TypeCall.regular_of_shape? hCall

/-- A registry makes any class, and then any class that derives from it. -/
theorem derived (h h' : RecordHead) (fs fs' : List Field) :
    (classType ⟨0, .eight, 65⟩ h' fs' (some (classType ⟨0, .eight, 64⟩ h fs none))).Built :=
  ⟨0, 8, _, _, _, rfl, Registry.call_derived 0 h h' fs fs'⟩

end Ty.Built

end SemanticCore
