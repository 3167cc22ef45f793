import Mathlib.Data.List.Induction
import Mathlib.Data.List.Sort
import Mathlib.Logic.Equiv.Basic
import Mathlib.Order.Bounds.Defs
import SemanticCore.Types.Call

/-!
# The ranking of candidates

A call with several candidates is resolved in one pass, which keeps the least distance so far and
the places of the candidates at it. What it holds in the end is the least distance of all and the
places of all candidates at it, in increasing order. That is the only ranking of the candidates, so
their order matters for nothing but the places.

* `Ty.AtDistance`: a place is that of a candidate at a distance.
* `Ty.Ranks`: the ranking of some candidates, of which there is one (`Ty.Ranks.unique`);
  `Ty.Ranks.add` for one candidate more.
* `Ty.ranks_ranking`: the pass ends with it.
* `Ty.Resolves`: what a ranking comes to; `Ty.rankOverloads_eq_iff`.
* `Ty.Ranks.moved`, `Ty.Resolves.moved`: the candidates in another order.
* `Ty.rankOverloads_exact`: which candidates are chosen.
-/

namespace SemanticCore.Ty

variable {candidates others arguments : List Ty} {c : Ty} {d i : Nat}

/-! ## Candidates at a distance -/

/-- The candidate at place `i` can be called at a distance. -/
def AtDistance (candidates arguments : List Ty) (d i : Nat) : Prop :=
  ∃ c, candidates[i]? = some c ∧ c.distance? arguments = some d

theorem AtDistance.lt (h : AtDistance candidates arguments d i) : i < candidates.length := by
  obtain ⟨c, hc, -⟩ := h
  exact (List.getElem?_eq_some_iff.mp hc).1

theorem exists_atDistance_iff : (∃ i, AtDistance candidates arguments d i) ↔
    ∃ c ∈ candidates, c.distance? arguments = some d := by
  constructor
  · rintro ⟨i, c, hc, hd⟩
    exact ⟨c, List.mem_of_getElem? hc, hd⟩
  · rintro ⟨c, hc, hd⟩
    obtain ⟨i, hi⟩ := List.mem_iff_getElem?.mp hc
    exact ⟨i, c, hi, hd⟩

theorem atDistance_append : AtDistance (candidates ++ [c]) arguments d i ↔
    AtDistance candidates arguments d i ∨
      i = candidates.length ∧ c.distance? arguments = some d := by
  rcases Nat.lt_trichotomy i candidates.length with hLt | rfl | hGt
  · simp [AtDistance, List.getElem?_append_left hLt, hLt.ne]
  · simp [AtDistance]
  · have hNone : (candidates ++ [c])[i]? = none := by simp; omega
    simp [AtDistance, hNone, List.getElem?_eq_none hGt.le, hGt.ne']

/-! ## Rankings -/

/-- A ranking of candidates: the least of their distances, and the places of all that are at it. -/
structure Ranking.Ranks (candidates arguments : List Ty) (r : Ranking) : Prop where
  least : ∀ d i, AtDistance candidates arguments d i → r.distance ≤ d
  nonempty : r.indices ≠ []
  increasing : r.indices.Pairwise (· < ·)
  mem_iff : ∀ i, i ∈ r.indices ↔ AtDistance candidates arguments r.distance i

namespace Ranking

variable {r : Ranking}

theorem Ranks.attained (h : r.Ranks candidates arguments) :
    ∃ i, AtDistance candidates arguments r.distance i := by
  obtain ⟨i, hi⟩ := List.exists_mem_of_ne_nil _ h.nonempty
  exact ⟨i, (h.mem_iff i).mp hi⟩

/-- A candidate that is nearer than all before it is ranked alone. -/
theorem ranks_nearer (hc : c.distance? arguments = some d)
    (hNearer : ∀ e i, AtDistance candidates arguments e i → d < e) :
    Ranks (candidates ++ [c]) arguments ⟨d, [candidates.length]⟩ where
  least e i hAt := by
    rcases atDistance_append.mp hAt with hBefore | ⟨-, hNew⟩
    · exact (hNearer e i hBefore).le
    · exact (Option.some.inj (hc.symm.trans hNew)).le
  nonempty := List.cons_ne_nil _ _
  increasing := List.pairwise_singleton _ _
  mem_iff i := by
    rw [atDistance_append, List.mem_singleton]
    constructor
    · exact fun hi => .inr ⟨hi, hc⟩
    · rintro (hBefore | ⟨hi, -⟩)
      · exact absurd (hNearer d i hBefore) (Nat.lt_irrefl d)
      · exact hi

/-- A candidate as near as the nearest before it is ranked with them. -/
theorem Ranks.tied (h : r.Ranks candidates arguments)
    (hc : c.distance? arguments = some r.distance) :
    Ranks (candidates ++ [c]) arguments
      { r with indices := r.indices ++ [candidates.length] } where
  least e i hAt := by
    rcases atDistance_append.mp hAt with hBefore | ⟨-, hNew⟩
    · exact h.least e i hBefore
    · exact (Option.some.inj (hc.symm.trans hNew)).le
  nonempty := List.append_ne_nil_of_right_ne_nil _ (List.cons_ne_nil _ _)
  increasing := by
    refine List.pairwise_append.mpr ⟨h.increasing, List.pairwise_singleton _ _, ?_⟩
    intro i hi j hj
    rw [List.mem_singleton.mp hj]
    exact ((h.mem_iff i).mp hi).lt
  mem_iff i := by
    rw [atDistance_append, List.mem_append, List.mem_singleton, h.mem_iff]
    exact or_congr_right (iff_self_and.mpr fun _ => hc)

/-- A candidate that is farther off, or cannot be called, changes nothing. -/
theorem Ranks.farther (h : r.Ranks candidates arguments)
    (hc : ∀ d, c.distance? arguments = some d → r.distance < d) :
    r.Ranks (candidates ++ [c]) arguments where
  least e i hAt := by
    rcases atDistance_append.mp hAt with hBefore | ⟨-, hNew⟩
    · exact h.least e i hBefore
    · exact (hc e hNew).le
  nonempty := h.nonempty
  increasing := h.increasing
  mem_iff i := by
    rw [atDistance_append, h.mem_iff]
    refine (or_iff_left ?_).symm
    rintro ⟨-, hSame⟩
    exact absurd (hc _ hSame) (Nat.lt_irrefl _)

end Ranking

/-- The ranking of candidates, or none if none of them can be called. -/
def Ranks (candidates arguments : List Ty) : Option Ranking → Prop
  | .none => ∀ d i, ¬ AtDistance candidates arguments d i
  | some r => r.Ranks candidates arguments

theorem ranks_none_iff : Ranks candidates arguments .none ↔
    ∀ c ∈ candidates, c.distance? arguments = none := by
  constructor
  · intro h c hc
    rw [Option.eq_none_iff_forall_ne_some]
    intro d hd
    obtain ⟨i, hi⟩ := exists_atDistance_iff.mpr ⟨c, hc, hd⟩
    exact h d i hi
  · intro h d i hi
    obtain ⟨c, hc, hd⟩ := exists_atDistance_iff.mp ⟨i, hi⟩
    cases (h c hc).symm.trans hd

theorem ranks_some_iff {m : Nat} {is : List Nat}
    (hm : IsLeast { d | ∃ c ∈ candidates, c.distance? arguments = some d } m) :
    Ranks candidates arguments (some ⟨d, is⟩) ↔ d = m ∧ is ≠ [] ∧ is.Pairwise (· < ·) ∧
      ∀ i, i ∈ is ↔ AtDistance candidates arguments m i := by
  constructor
  · intro h
    obtain ⟨i, hi⟩ := exists_atDistance_iff.mpr hm.1
    have hEq : d = m :=
      Nat.le_antisymm (h.least m i hi) (hm.2 (exists_atDistance_iff.mp h.attained))
    exact ⟨hEq, h.nonempty, h.increasing, hEq ▸ h.mem_iff⟩
  · rintro ⟨rfl, hNonempty, hIncreasing, hMem⟩
    exact ⟨fun e i hi => hm.2 (exists_atDistance_iff.mp ⟨i, hi⟩), hNonempty, hIncreasing, hMem⟩

/-- Candidates have one ranking only. -/
theorem Ranks.unique {r r' : Option Ranking} (h : Ranks candidates arguments r)
    (h' : Ranks candidates arguments r') : r = r' := by
  cases r with
  | none =>
    cases r' with
    | none => rfl
    | some r' =>
      obtain ⟨i, hi⟩ := h'.attained
      exact absurd hi (h _ i)
  | some r =>
    obtain ⟨i, hi⟩ := h.attained
    cases r' with
    | none => exact absurd hi (h' _ i)
    | some r' =>
      obtain ⟨i', hi'⟩ := h'.attained
      have hDistance : r.distance = r'.distance :=
        Nat.le_antisymm (h.least _ i' hi') (h'.least _ i hi)
      have hIndices : r.indices = r'.indices := by
        refine h.increasing.eq_of_mem_iff h'.increasing fun j => ?_
        rw [h.mem_iff, h'.mem_iff, hDistance]
      rw [Option.some.injEq, Ranking.mk.injEq]
      exact ⟨hDistance, hIndices⟩

/-! ## The pass -/

/-- One candidate more. -/
theorem Ranks.add {r : Option Ranking} (h : Ranks candidates arguments r) (c : Ty) :
    Ranks (candidates ++ [c]) arguments
      (Ranking.add candidates.length (c.distance? arguments) r) := by
  cases hc : c.distance? arguments with
  | none =>
    cases r with
    | none =>
      intro d i hAt
      rcases atDistance_append.mp hAt with hBefore | ⟨-, hNew⟩
      · exact h d i hBefore
      · cases hc.symm.trans hNew
    | some r => exact h.farther fun d hd => by cases hc.symm.trans hd
  | some d =>
    cases r with
    | none => exact Ranking.ranks_nearer hc fun e i hBefore => absurd hBefore (h e i)
    | some r =>
      rw [Ranking.add]
      split
      · rename_i hLt
        exact Ranking.ranks_nearer hc fun e i hBefore => hLt.trans_le (h.least e i hBefore)
      · split
        · rename_i hEq
          subst hEq
          exact h.tied hc
        · rename_i hNotLt hNe
          refine h.farther fun e he => ?_
          cases hc.symm.trans he
          omega

theorem ranking_append (candidates : List Ty) (c : Ty) (arguments : List Ty) :
    ranking (candidates ++ [c]) arguments =
      Ranking.add candidates.length (c.distance? arguments) (ranking candidates arguments) := by
  simp [ranking, List.zipIdx_append]

/-- The pass ends with the ranking of all candidates. -/
theorem ranks_ranking (candidates arguments : List Ty) :
    Ranks candidates arguments (ranking candidates arguments) := by
  -- the pass goes from the first candidate on, so that its last step is about the last one
  induction candidates using List.reverseRecOn with
  | nil =>
    rintro d i ⟨c, hc, -⟩
    cases hc
  | append_singleton cs c ih =>
    rw [ranking_append]
    exact ih.add c

/-! ## Resolutions -/

/-- What a ranking comes to. -/
inductive Resolves : Option Ranking → Resolution → Prop
  | none : Resolves .none .none
  | resolved (i d : Nat) : Resolves (some ⟨d, [i]⟩) (.resolved i d)
  | ambiguous {is : List Nat} (d : Nat) (several : 1 < is.length) :
      Resolves (some ⟨d, is⟩) (.ambiguous is d)

theorem Resolves.unique {r : Option Ranking} {x y : Resolution} (hx : Resolves r x)
    (hy : Resolves r y) : x = y := by
  cases hx with
  | none =>
    cases hy
    rfl
  | resolved i d =>
    cases hy with
    | resolved => rfl
    | ambiguous _ several => exact absurd several (Nat.lt_irrefl 1)
  | ambiguous d several =>
    cases hy with
    | resolved => exact absurd several (Nat.lt_irrefl 1)
    | ambiguous => rfl

theorem resolves (candidates arguments : List Ty) :
    Resolves (ranking candidates arguments) (rankOverloads candidates arguments) := by
  have hRanks := ranks_ranking candidates arguments
  rw [rankOverloads]
  generalize ranking candidates arguments = r at hRanks ⊢
  rcases r with _ | ⟨d, _ | ⟨i, _ | ⟨j, js⟩⟩⟩
  · exact .none
  · exact absurd rfl hRanks.nonempty
  · exact .resolved i d
  · exact .ambiguous d (Nat.succ_lt_succ (Nat.succ_pos _))

theorem rankOverloads_eq_iff {x : Resolution} : rankOverloads candidates arguments = x ↔
    ∃ r, Ranks candidates arguments r ∧ Resolves r x := by
  have hRanks := ranks_ranking candidates arguments
  have hResolves := resolves candidates arguments
  constructor
  · rintro rfl
    exact ⟨_, hRanks, hResolves⟩
  · rintro ⟨r, hr, hx⟩
    rw [hr.unique hRanks] at hx
    exact hResolves.unique hx

/-! ## Other orders of the candidates -/

/-- A ranking of candidates that have other places now. -/
def Ranking.moved (place : Nat → Nat) (r : Ranking) : Ranking :=
  { r with indices := (r.indices.map place).mergeSort (· ≤ ·) }

/-- A resolution among candidates that have other places now. -/
def Resolution.moved (place : Nat → Nat) : Resolution → Resolution
  | .resolved i d => .resolved (place i) d
  | .ambiguous is d => .ambiguous ((is.map place).mergeSort (· ≤ ·)) d
  | .none => .none

theorem Ranks.moved {σ : Equiv.Perm Nat} {r : Option Ranking} (h : Ranks candidates arguments r)
    (hMoved : ∀ i, others[i]? = candidates[σ i]?) :
    Ranks others arguments (r.map (.moved σ.symm)) := by
  have hAt : ∀ d i, AtDistance others arguments d i ↔ AtDistance candidates arguments d (σ i) :=
    fun d i => by rw [AtDistance, AtDistance, hMoved]
  cases r with
  | none => exact fun d i hi => h d (σ i) ((hAt d i).mp hi)
  | some r =>
    -- no two candidates get one place, so that sorting makes the places increase
    have hNodup : (r.indices.map σ.symm).Nodup :=
      List.Nodup.map σ.symm.injective (h.increasing.imp Nat.ne_of_lt)
    refine ⟨fun d i hi => h.least d (σ i) ((hAt d i).mp hi), ?_, ?_, fun i => ?_⟩
    · simpa [Ranking.moved, ← List.length_eq_zero_iff] using h.nonempty
    · exact (List.sortedLE_mergeSort.sortedLT_of_nodup (List.nodup_mergeSort.mpr hNodup)).pairwise
    · rw [Ranking.moved, List.mem_mergeSort, List.mem_map, hAt, ← h.mem_iff]
      constructor
      · rintro ⟨j, hj, rfl⟩
        rwa [Equiv.apply_symm_apply]
      · exact fun hi => ⟨σ i, hi, σ.symm_apply_apply i⟩

theorem Resolves.moved {r : Option Ranking} {x : Resolution} (h : Resolves r x)
    (place : Nat → Nat) : Resolves (r.map (.moved place)) (x.moved place) := by
  cases h with
  | none => exact .none
  | resolved i d =>
    rw [Option.map_some, Ranking.moved, List.map_singleton, List.mergeSort_singleton]
    exact .resolved (place i) d
  | ambiguous d several => exact .ambiguous d (by rwa [List.length_mergeSort, List.length_map])

/-! ## Exactness -/

/-- No candidate is chosen exactly if none can be called. Else, with `m` the least distance, the
call is resolved exactly if there is one candidate at `m`, and is ambiguous exactly if there are
several, with all of them in increasing order. Candidates in another order, where `σ` tells the
place that each had, have other places, and nothing else changes. -/
theorem rankOverloads_exact (candidates arguments : List Ty) :
    (rankOverloads candidates arguments = .none ↔
        ∀ c ∈ candidates, c.distance? arguments = none) ∧
      (∀ m, IsLeast { d | ∃ c ∈ candidates, c.distance? arguments = some d } m →
        (∀ i d, rankOverloads candidates arguments = .resolved i d ↔
          d = m ∧ ∀ j, AtDistance candidates arguments m j ↔ j = i) ∧
        ∀ is d, rankOverloads candidates arguments = .ambiguous is d ↔
          d = m ∧ 1 < is.length ∧ is.Pairwise (· < ·) ∧
            ∀ j, j ∈ is ↔ AtDistance candidates arguments m j) ∧
      ∀ (σ : Equiv.Perm Nat) (others : List Ty), (∀ i, others[i]? = candidates[σ i]?) →
        rankOverloads others arguments =
          (rankOverloads candidates arguments).moved σ.symm := by
  refine ⟨?_, fun m hm => ⟨fun i d => ?_, fun is d => ?_⟩, fun σ others hMoved => ?_⟩
  · rw [rankOverloads_eq_iff, ← ranks_none_iff]
    constructor
    · rintro ⟨r, hRanks, ⟨⟩⟩
      exact hRanks
    · exact fun hRanks => ⟨_, hRanks, .none⟩
  · rw [rankOverloads_eq_iff]
    constructor
    · rintro ⟨r, hRanks, ⟨⟩⟩
      obtain ⟨hEq, -, -, hMem⟩ := (ranks_some_iff hm).mp hRanks
      exact ⟨hEq, fun j => (hMem j).symm.trans List.mem_singleton⟩
    · rintro ⟨hEq, hMem⟩
      refine ⟨_, (ranks_some_iff hm).mpr ⟨hEq, ?_, ?_, ?_⟩, .resolved i d⟩
      · exact List.cons_ne_nil _ _
      · exact List.pairwise_singleton _ _
      · exact fun j => List.mem_singleton.trans (hMem j).symm
  · rw [rankOverloads_eq_iff]
    constructor
    · rintro ⟨r, hRanks, ⟨⟩⟩
      rename_i hSeveral
      obtain ⟨hEq, -, hIncreasing, hMem⟩ := (ranks_some_iff hm).mp hRanks
      exact ⟨hEq, hSeveral, hIncreasing, hMem⟩
    · rintro ⟨hEq, hSeveral, hIncreasing, hMem⟩
      refine ⟨_, (ranks_some_iff hm).mpr ⟨hEq, ?_, hIncreasing, hMem⟩, .ambiguous d hSeveral⟩
      exact List.ne_nil_of_length_pos (Nat.zero_lt_of_lt hSeveral)
  · exact rankOverloads_eq_iff.mpr ⟨_, (ranks_ranking candidates arguments).moved hMoved,
      (resolves candidates arguments).moved σ.symm⟩

/-- Functions of one parameter, for an integer that is widened for two of them, becomes a float for
another and is not accepted by one. -/
theorem rankOverloads_exact_tied :
    let int := fun width => primitive (.integer ⟨true, width⟩)
    let callee := fun id parameter result =>
      function ⟨0, .eight, id⟩ [parameter] (.primitive result) Flags.none
    let wide := callee 64 (int .w64) .void
    let logic := callee 65 (primitive .bool) .void
    let float := callee 66 (primitive (.float .f64)) .void
    let other := callee 67 (int .w64) .bool
    rankOverloads [wide, logic, float, other] [int .w32] = .ambiguous [0, 3] 1 ∧
      rankOverloads [logic, wide, float, other] [int .w32] = .ambiguous [1, 3] 1 := by
  intro int callee wide logic float other
  obtain ⟨-, hLeast, hMoved⟩ := rankOverloads_exact [wide, logic, float, other] [int .w32]
  have hWide : wide.distance? [int .w32] = some 1 := by cbv
  have hLogic : logic.distance? [int .w32] = none := by cbv
  have hFloat : float.distance? [int .w32] = some 2 := by cbv
  have hOther : other.distance? [int .w32] = some 1 := by cbv
  have hOne : IsLeast
      { d | ∃ c ∈ [wide, logic, float, other], c.distance? [int .w32] = some d } 1 := by
    refine ⟨⟨wide, List.mem_cons_self, hWide⟩, ?_⟩
    rintro d ⟨c, hc, hd⟩
    simp only [List.mem_cons, List.not_mem_nil, or_false] at hc
    rcases hc with rfl | rfl | rfl | rfl
    · cases hWide.symm.trans hd
      exact Nat.le_refl 1
    · cases hLogic.symm.trans hd
    · cases hFloat.symm.trans hd
      exact Nat.le_succ 1
    · cases hOther.symm.trans hd
      exact Nat.le_refl 1
  have hTied : rankOverloads [wide, logic, float, other] [int .w32] = .ambiguous [0, 3] 1 := by
    refine ((hLeast 1 hOne).2 [0, 3] 1).mpr ⟨rfl, by decide, by decide, fun j => ?_⟩
    rcases j with _ | _ | _ | _ | j <;> simp [AtDistance, hWide, hLogic, hFloat, hOther]
  refine ⟨hTied, ?_⟩
  rw [hMoved (Equiv.swap 0 1) [logic, wide, float, other], hTied]
  · have hPlaces : [0, 3].map (Equiv.swap 0 1).symm = [1, 3] := by decide
    rw [Resolution.moved, hPlaces, List.mergeSort_of_pairwise (by decide)]
  · rintro (_ | _ | j)
    · rfl
    · rfl
    · rw [Equiv.swap_apply_of_ne_of_ne (by omega) (by omega)]
      rfl

end SemanticCore.Ty
