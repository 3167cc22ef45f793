import Mathlib.Algebra.GroupWithZero.Nat
import Mathlib.Data.List.Forall2
import SemanticCore.Proofs.Types.Relations
import SemanticCore.Types.Call

/-!
# The distance of a call

Whether a function can be called, and at what distance the arguments are, is worked out in two ways.
The two agree (`Ty.distance?_exact`): there is a distance exactly if each parameter accepts its
argument, and then it is the sum of what the arguments cost. An argument that is accepted costs at
most three: the one conversion that would cost more, of a float to an integer, is not made in calls.

* `Ty.argumentDistance_eq_zero_iff`, `Ty.argumentDistance_le`: what one argument costs.
* `Ty.distanceTo?_eq_some_iff`: the distance of arguments from parameters.
* `Ty.distance?_exact`: the distance of a call.
-/

namespace SemanticCore.Ty

variable {a p : Ty} {arguments parameters : List Ty} {d : Nat}

/-! ## One argument -/

theorem argumentDistance_eq_zero_iff : a.argumentDistance p = 0 ↔ a.equal p = true := by
  unfold argumentDistance
  split
  · rename_i hEqual
    exact iff_of_true rfl hEqual
  · rename_i hDiffer
    refine iff_of_false (Nat.ne_of_gt ?_) hDiffer
    split
    · split
      · decide
      · split <;> decide
    · split <;> decide
    · decide
    · decide
    · decide

theorem argumentDistance_le (h : a.accepts p = true) : a.argumentDistance p ≤ 3 := by
  unfold argumentDistance
  split
  · exact Nat.zero_le 3
  · rename_i hDiffer
    rw [accepts, Bool.or_eq_true] at h
    have hPassable := h.resolve_left hDiffer
    split
    · split
      · decide
      · split <;> decide
    · split <;> decide
    · decide
    · -- a float is not passed for an integer
      rcases (convertsImplicitly_iff.mp hPassable).2 with hEqual | hWidens
      · exact absurd hEqual hDiffer
      · cases hWidens
    · decide

/-! ## All arguments -/

/-- What each argument costs for the parameter at its place. -/
def costs (arguments parameters : List Ty) : List Nat :=
  (arguments.zip parameters).map fun (a, p) => a.argumentDistance p

theorem sum_costs_cons (a p : Ty) (arguments parameters : List Ty) :
    (costs (a :: arguments) (p :: parameters)).sum =
      a.argumentDistance p + (costs arguments parameters).sum :=
  List.sum_cons

theorem distanceTo?_cons (a p : Ty) (arguments parameters : List Ty) :
    distanceTo? (a :: arguments) (p :: parameters) =
      if a.accepts p then (distanceTo? arguments parameters).map (a.argumentDistance p + ·)
      else none := by
  rw [distanceTo?, accepts]
  by_cases hEqual : a.equal p = true
  · have hFree := argumentDistance_eq_zero_iff.mpr hEqual
    simp [hEqual, hFree]
  · simp [hEqual]

/-- Arguments are at a distance from parameters if each is accepted; the distance is the sum of what
they cost. -/
theorem distanceTo?_eq_some_iff : distanceTo? arguments parameters = some d ↔
    List.Forall₂ (fun a p => a.accepts p = true) arguments parameters ∧
      d = (costs arguments parameters).sum := by
  induction arguments generalizing parameters d with
  | nil =>
    cases parameters with
    | nil => simp [distanceTo?, costs, @eq_comm _ 0 d]
    | cons p parameters => simp [distanceTo?]
  | cons a arguments ih =>
    cases parameters with
    | nil => simp [distanceTo?]
    | cons p parameters =>
      rw [distanceTo?_cons, List.forall₂_cons, sum_costs_cons]
      by_cases hAccepts : a.accepts p = true
      · simp only [hAccepts, if_true, Option.map_eq_some_iff, ih, true_and]
        constructor
        · rintro ⟨_, ⟨hRest, rfl⟩, rfl⟩
          exact ⟨hRest, rfl⟩
        · rintro ⟨hRest, rfl⟩
          exact ⟨_, ⟨hRest, rfl⟩, rfl⟩
      · simp [hAccepts]

theorem callableWith_iff {function : Ty} : function.callableWith arguments = true ↔
    List.Forall₂ (fun a p => a.accepts p = true) arguments function.params := by
  rw [callableWith, Bool.and_eq_true, beq_iff_eq, List.all_eq_true, List.forall₂_iff_zip]
  simp only [Prod.forall]

theorem sum_costs_le (h : List.Forall₂ (fun a p => a.accepts p = true) arguments parameters) :
    (costs arguments parameters).sum ≤ 3 * arguments.length := by
  induction h with
  | nil => exact Nat.zero_le _
  | @cons a p arguments parameters hHead _ ih =>
    have hCost := argumentDistance_le hHead
    rw [sum_costs_cons, List.length_cons]
    omega

theorem sum_costs_eq_zero_iff
    (h : List.Forall₂ (fun a p => a.accepts p = true) arguments parameters) :
    (costs arguments parameters).sum = 0 ↔
      List.Forall₂ (fun a p => a.equal p = true) arguments parameters := by
  induction h with
  | nil => exact iff_of_true rfl .nil
  | cons _ _ ih =>
    rw [sum_costs_cons, Nat.add_eq_zero_iff, argumentDistance_eq_zero_iff, ih, List.forall₂_cons]

/-! ## Calls -/

/-- There is no distance exactly if the function cannot be called with the arguments. Else it is the
sum of what each argument costs, at most three for each, and nothing just if every argument has the
type of its parameter. -/
theorem distance?_exact (function : Ty) (arguments : List Ty) :
    (function.distance? arguments = none ↔ function.callableWith arguments = false) ∧
      ∀ d, function.distance? arguments = some d →
        d = (costs arguments function.params).sum ∧ d ≤ 3 * arguments.length ∧
          (d = 0 ↔ List.Forall₂ (fun a p => a.equal p = true) arguments function.params) := by
  constructor
  · rw [Option.eq_none_iff_forall_ne_some, ← Bool.not_eq_true, callableWith_iff]
    constructor
    · exact fun hNone hCallable => hNone _ (distanceTo?_eq_some_iff.mpr ⟨hCallable, rfl⟩)
    · exact fun hNot d hSome => hNot (distanceTo?_eq_some_iff.mp hSome).1
  · intro d hSome
    obtain ⟨hAccepted, rfl⟩ := distanceTo?_eq_some_iff.mp hSome
    exact ⟨rfl, sum_costs_le hAccepted, sum_costs_eq_zero_iff hAccepted⟩

/-- An integer is widened, one becomes a float, and one is narrowed. -/
theorem distance?_exact_three :
    let int := fun signed width => primitive (.integer ⟨signed, width⟩)
    let callee := function ⟨0, .eight, 64⟩ [int true .w32, .primitive (.float .f64), int true .w32]
      (.primitive .void) Flags.none
    let arguments := [int true .w8, int true .w32, int false .w64]
    callee.distance? arguments = some 6 ∧ 6 = (costs arguments callee.params).sum ∧
      6 ≤ 3 * arguments.length ∧
      (6 = 0 ↔ List.Forall₂ (fun a p => a.equal p = true) arguments callee.params) := by
  intro int callee arguments
  have hDistance : callee.distance? arguments = some 6 := by cbv
  exact ⟨hDistance, (distance?_exact callee arguments).2 6 hDistance⟩

end SemanticCore.Ty
