import SemanticCore.Arena.Pool
import SemanticCore.Proofs.Number.Natural

/-!
# Objects of a pool by handle

A handle resolves exactly at the place for which it was given (`Pool.get?_eq_some_iff`). So an
object that is added or changed is seen under its own handle and under no other:

* `Pool.get?_modify`: the objects after one was changed.
* `Pool.get?_construct`: the objects after one was added.
-/

namespace SemanticCore.Pool

variable {α : Type} {p q : Pool α} {h k : Handle}

theorem span_pos : 0 < Handle.span := by decide

/-- A handle of a pool's generation names one place, and each place has one handle. -/
theorem index?_eq_some_iff {i : Nat} : p.index? h = some i ↔ i < Handle.span ∧ h = p.handle i := by
  constructor
  · intro hIndex
    unfold index? at hIndex
    split at hIndex
    · rename_i n hNat
      split at hIndex
      · rename_i hGeneration
        cases hIndex
        refine ⟨Nat.mod_lt _ span_pos, ?_⟩
        rw [Number.eq_ofNat_of_toNat? hNat, handle, ← hGeneration, Nat.mul_comm, Nat.div_add_mod]
      · cases hIndex
    · cases hIndex
  · rintro ⟨hLt, rfl⟩
    have hDiv : (p.generation * Handle.span + i) / Handle.span = p.generation := by
      rw [Nat.mul_comm, Nat.mul_add_div span_pos, Nat.div_eq_of_lt hLt, Nat.add_zero]
    have hMod : (p.generation * Handle.span + i) % Handle.span = i := by
      rw [Nat.mul_comm, Nat.mul_add_mod, Nat.mod_eq_of_lt hLt]
    simp only [index?, handle, Number.toNat?_ofNat, hDiv, hMod, if_true]

theorem handle_injective {i j : Nat} (hij : p.handle i = p.handle j) : i = j :=
  Nat.add_left_cancel (Number.ofNat_injective hij)

theorem get?_eq_some_iff {x : α} :
    p.get? h = some x ↔ ∃ i, i < Handle.span ∧ h = p.handle i ∧ p.items[i]? = some x := by
  simp only [get?, Option.bind_eq_some_iff, index?_eq_some_iff, and_assoc]

theorem get?_handle {i : Nat} (hi : i < Handle.span) : p.get? (p.handle i) = p.items[i]? := by
  rw [get?, index?_eq_some_iff.mpr ⟨hi, rfl⟩, Option.bind_some]

theorem index?_congr (hGeneration : q.generation = p.generation) : q.index? h = p.index? h := by
  rw [index?, index?, hGeneration]

theorem generation_modify (f : α → α) : (p.modify h f).generation = p.generation := by
  unfold modify
  split <;> rfl

theorem size_modify (f : α → α) : (p.modify h f).items.size = p.items.size := by
  unfold modify
  split
  · exact Array.size_modify
  · rfl

/-- Changing the object of a handle changes what this handle resolves to, and nothing else. -/
theorem get?_modify (f : α → α) :
    (p.modify h f).get? k = if k = h then (p.get? k).map f else p.get? k := by
  rw [get?, get?, index?_congr (generation_modify f)]
  cases hIndex : p.index? h with
  | none =>
    have hSame : p.modify h f = p := by rw [modify, hIndex]
    rw [hSame]
    split
    · rename_i hEq
      rw [hEq, hIndex]
      rfl
    · rfl
  | some i =>
    have hItems : (p.modify h f).items = p.items.modify i f := by rw [modify, hIndex]
    rw [hItems]
    cases hOther : p.index? k with
    | none => simp
    | some j =>
      have hSame : i = j ↔ k = h := by
        rw [(index?_eq_some_iff.mp hIndex).2, (index?_eq_some_iff.mp hOther).2]
        exact ⟨fun hij => hij ▸ rfl, fun hEq => (handle_injective hEq).symm⟩
      simp only [Option.bind_some, Array.getElem?_modify, hSame]

theorem construct?_eq_some {x : α} (hNew : p.construct? x = some (h, q)) :
    p.items.size < Handle.span ∧ h = p.nextHandle ∧ q = { p with items := p.items.push x } := by
  unfold construct? at hNew
  split at hNew
  · rename_i hRoom
    cases hNew
    exact ⟨hRoom, rfl, rfl⟩
  · cases hNew

/-- A new object is found under its handle; all other handles resolve as before. -/
theorem get?_construct {x : α} (hNew : p.construct? x = some (h, q)) :
    q.get? k = if k = p.nextHandle then some x else p.get? k := by
  obtain ⟨hRoom, -, rfl⟩ := construct?_eq_some hNew
  split
  · rename_i hEq
    subst hEq
    exact get?_eq_some_iff.mpr ⟨_, hRoom, rfl, Array.getElem?_push_size⟩
  · rename_i hNe
    have hSame : index? { p with items := p.items.push x } k = p.index? k := index?_congr rfl
    rw [get?, get?, hSame]
    cases hIndex : p.index? k with
    | none => rfl
    | some i =>
      have hi : i ≠ p.items.size := by
        rintro rfl
        exact hNe (index?_eq_some_iff.mp hIndex).2
      simp only [Option.bind_some, Array.getElem?_push, if_neg hi]

theorem get?_nextHandle : p.get? p.nextHandle = none := by
  cases hGet : p.get? p.nextHandle with
  | none => rfl
  | some x =>
    obtain ⟨i, -, hEq, hItem⟩ := get?_eq_some_iff.mp hGet
    rw [← handle_injective hEq] at hItem
    simp at hItem

end SemanticCore.Pool
