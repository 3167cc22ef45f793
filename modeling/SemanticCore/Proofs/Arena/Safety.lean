import SemanticCore.Proofs.Arena.Alignment
import SemanticCore.Proofs.Number.Natural

/-!
# Safety of the arena

What an arena handed out since it was last emptied lies in its blocks, below their cursors, and no
two pieces of it overlap (`Arena.Safe`). Every request, `reset` and `clear` keep this
(`ArenaCall.safe_step`), whichever block a request finds room in and whether it needs a new one.

* `Arena.allocateWithin_eq_place`: what a valid request gets.
* `ArenaCall.safe_run`: every run of an arena is safe.
-/

namespace SemanticCore

namespace Allocation

def stop (x : Allocation) : Nat := x.offset + x.size

/-- Two allocations without a byte in common. -/
def Apart (x y : Allocation) : Prop := x.block ≠ y.block ∨ x.stop ≤ y.offset ∨ y.stop ≤ x.offset

end Allocation

namespace Arena

/-- What holds of an arena of which the allocations `live` were not given back. -/
structure Safe (a : Arena) (live : List Allocation) : Prop where
  /-- The cursor of a block is in it. -/
  used_le : ∀ (i : Nat) (b : Block), a.blocks[i]? = some b → b.used ≤ b.size
  /-- The cursor of a block is behind all that lies in the block. -/
  stop_le : ∀ x ∈ live, ∃ b, a.blocks[x.block]? = some b ∧ x.stop ≤ b.used
  /-- No two allocations overlap. -/
  apart : live.Pairwise Allocation.Apart

variable {a : Arena} {live : List Allocation} {size alignment i offset : Nat} {b : Block}

/-! ## Room for a request -/

theorem fit?_eq_some_iff :
    b.fit? size alignment = some offset ↔
      offset = alignNat b.used alignment ∧ offset + size ≤ b.size := by
  simp only [Block.fit?, Option.ite_none_right_eq_some, Option.some.injEq]
  constructor
  · rintro ⟨hFits, rfl⟩
    exact ⟨rfl, hFits⟩
  · rintro ⟨rfl, hFits⟩
    exact ⟨hFits, rfl⟩

theorem exists_of_room? (h : a.room? size alignment = some (i, offset)) :
    ∃ b, a.blocks[i]? = some b ∧ b.fit? size alignment = some offset := by
  obtain ⟨j, -, hj⟩ := List.exists_of_findSome?_eq_some h
  split at hj
  · rename_i b hBlock
    obtain ⟨offset', hFit, hPair⟩ := Option.map_eq_some_iff.mp hj
    cases hPair
    exact ⟨b, hBlock, hFit⟩
  · cases hj

/-! ## What keeps an arena safe -/

theorem getElem?_take (j : Nat) :
    (a.take i offset size).2.blocks[j]? =
      if i = j then a.blocks[j]?.map fun b => { b with used := offset + size }
      else a.blocks[j]? := by
  simp [take, Array.getElem?_modify]

theorem getElem?_take_self (hBlock : a.blocks[i]? = some b) :
    (a.take i offset size).2.blocks[i]? = some { b with used := offset + size } := by
  rw [getElem?_take, if_pos rfl, hBlock]
  rfl

theorem Safe.take (h : a.Safe live) (hBlock : a.blocks[i]? = some b) (hUsed : b.used ≤ offset)
    (hFits : offset + size ≤ b.size) :
    (a.take i offset size).2.Safe (live ++ [(a.take i offset size).1]) := by
  refine ⟨fun j c hc => ?_, fun x hx => ?_, ?_⟩
  · by_cases hij : i = j
    · rw [← hij, getElem?_take_self hBlock] at hc
      cases hc
      exact hFits
    · rw [getElem?_take, if_neg hij] at hc
      exact h.used_le j c hc
  · rcases List.mem_append.mp hx with hx | hx
    · obtain ⟨c, hc, hStop⟩ := h.stop_le x hx
      by_cases hij : i = x.block
      · rw [← hij] at hc ⊢
        rw [hBlock] at hc
        cases hc
        refine ⟨_, getElem?_take_self hBlock, ?_⟩
        show x.stop ≤ offset + size
        omega
      · exact ⟨c, by rw [getElem?_take, if_neg hij, hc], hStop⟩
    · rw [List.mem_singleton.mp hx]
      exact ⟨_, getElem?_take_self hBlock, le_rfl⟩
  · rw [List.pairwise_append]
    refine ⟨h.apart, List.pairwise_singleton _ _, fun x hx y hy => ?_⟩
    rw [List.mem_singleton.mp hy]
    obtain ⟨c, hc, hStop⟩ := h.stop_le x hx
    by_cases hij : x.block = i
    · rw [hij, hBlock] at hc
      cases hc
      exact Or.inr (Or.inl (hStop.trans hUsed))
    · exact Or.inl hij

theorem Safe.push (h : a.Safe live) (n : Nat) :
    Safe { a with blocks := a.blocks.push { size := n } } live := by
  refine ⟨fun j c hc => ?_, fun x hx => ?_, h.apart⟩
  · rw [Array.getElem?_push] at hc
    split at hc
    · cases hc
      exact Nat.zero_le n
    · exact h.used_le j c hc
  · obtain ⟨c, hc, hStop⟩ := h.stop_le x hx
    obtain ⟨hLt, -⟩ := Array.getElem?_eq_some_iff.mp hc
    refine ⟨c, ?_, hStop⟩
    rw [Array.getElem?_push, if_neg hLt.ne, hc]

/-- What a request is served with is safe, aligned and in its block. -/
theorem Safe.place (h : a.Safe live) (hAlign : 0 < alignment) :
    (a.place size alignment).2.Safe (live ++ [(a.place size alignment).1]) ∧
      (a.place size alignment).1.size = size ∧ alignment ∣ (a.place size alignment).1.offset ∧
      ∃ b, (a.place size alignment).2.blocks[(a.place size alignment).1.block]? = some b ∧
        (a.place size alignment).1.stop ≤ b.size := by
  have hTaken : ∀ {a : Arena} {i offset : Nat} {b : Block}, a.blocks[i]? = some b →
      offset + size ≤ b.size → ∃ c, (a.take i offset size).2.blocks[(a.take i offset size).1.block]?
        = some c ∧ (a.take i offset size).1.stop ≤ c.size := by
    intro a i offset b hBlock hFits
    exact ⟨_, getElem?_take_self hBlock, hFits⟩
  unfold Arena.place
  split
  · rename_i i offset hRoom
    obtain ⟨b, hBlock, hFit⟩ := exists_of_room? hRoom
    obtain ⟨rfl, hFits⟩ := fit?_eq_some_iff.mp hFit
    exact ⟨h.take hBlock (le_alignNat b.used hAlign) hFits, rfl, dvd_alignNat _ _,
      hTaken hBlock hFits⟩
  · have hNew : (a.blocks.push { size := a.newBlockSize size alignment })[a.blocks.size]?
        = some { size := a.newBlockSize size alignment } := Array.getElem?_push_size
    have hFits : 0 + size ≤ a.newBlockSize size alignment := by
      unfold newBlockSize
      omega
    exact ⟨(h.push _).take hNew le_rfl hFits, rfl, Nat.dvd_zero alignment, hTaken hNew hFits⟩

theorem Safe.moveCursor (h : a.Safe live) (n : Nat) : Safe { a with cursor := n } live :=
  ⟨h.used_le, h.stop_le, h.apart⟩

theorem safe_reset (a : Arena) : a.reset.Safe [] := by
  refine ⟨fun i b hb => ?_, by simp, List.Pairwise.nil⟩
  rw [reset, Array.getElem?_map] at hb
  obtain ⟨c, -, rfl⟩ := Option.map_eq_some_iff.mp hb
  exact Nat.zero_le _

theorem safe_clear (a : Arena) : a.clear.Safe [] :=
  ⟨fun i b hb => by simp [clear] at hb, by simp, List.Pairwise.nil⟩

theorem safe_create {blockSize : Number} (h : create blockSize = .ok a) : a.Safe [] := by
  unfold create at h
  split at h
  · cases h
    exact ⟨fun i b hb => by simp at hb, by simp, List.Pairwise.nil⟩
  · cases h

theorem generation_create {blockSize : Number} (h : create blockSize = .ok a) :
    a.generation = 0 := by
  unfold create at h
  split at h <;> cases h
  rfl

/-! ## Requests -/

theorem exists_of_isPowerOfTwo {x : Number} (h : x.isPowerOfTwo = true) :
    ∃ m, 0 < m ∧ x = .ofNat m := by
  simp only [Number.isPowerOfTwo, Bool.and_eq_true, Number.isInteger, Option.isSome_iff_exists] at h
  obtain ⟨⟨⟨i, hi⟩, hPos⟩, -⟩ := h
  have hx := Number.eq_ofInt_of_toInt? hi
  subst hx
  have hSign : 0 < i := by
    simpa [Number.lt, Number.ofInt, OfNat.ofNat, Number.ofNat] using hPos
  obtain ⟨m, rfl⟩ := Int.eq_ofNat_of_zero_le hSign.le
  exact ⟨m, by omega, rfl⟩

/-- A request is placed, or it is refused or for nothing and moves no more than the cursor. -/
theorem allocateWithin_cases (limit : Nat) (a : Arena) (size alignment : Number) :
    (∃ n m, 0 < m ∧ a.allocateWithin limit size alignment =
      (.ok (some (a.place n m).1), (a.place n m).2)) ∨
    ∃ k, (∀ x, (a.allocateWithin limit size alignment).1 ≠ .ok (some x)) ∧
      (a.allocateWithin limit size alignment).2 = { a with cursor := k } := by
  unfold allocateWithin
  split
  · exact Or.inr ⟨a.cursor, fun _ => nofun, rfl⟩
  · rename_i n _
    split
    · exact Or.inr ⟨a.cursor, fun _ => nofun, rfl⟩
    · rename_i hAlign
      split
      · exact Or.inr ⟨a.cursor, fun _ => nofun, rfl⟩
      · obtain ⟨m, hm, rfl⟩ := exists_of_isPowerOfTwo (by simpa using hAlign)
        simp only [Number.toNat?_ofNat, Option.getD_some]
        split
        · exact Or.inl ⟨n, m, hm, rfl⟩
        · exact Or.inr ⟨_, fun _ => nofun, rfl⟩

/-- A valid request is placed if the block that it may need can be had. -/
theorem allocateWithin_eq_place {limit n m : Nat} (hPos : 0 < n)
    (hAlign : (Number.ofNat m).isPowerOfTwo = true) (hLimit : a.newBlockSize n m ≤ limit) :
    a.allocateWithin limit (.ofNat n) (.ofNat m) =
      (.ok (some (a.place n m).1), (a.place n m).2) := by
  have hPlace : a.canPlace limit n m = true := by
    simp [canPlace, hLimit]
  simp [allocateWithin, hAlign, hPos.ne', hPlace]

end Arena

/-! ## Runs -/

inductive ArenaCall where
  | allocate (size alignment : Number)
  | reset
  | clear

namespace ArenaCall

/-- The arena after a call, and the allocations that were not given back. -/
def step (limit : Nat) (s : Arena × List Allocation) : ArenaCall → Arena × List Allocation
  | allocate size alignment =>
    ((s.1.allocateWithin limit size alignment).2,
      s.2 ++ ((s.1.allocateWithin limit size alignment).1.toOption.join).toList)
  | reset => (s.1.reset, [])
  | clear => (s.1.clear, [])

/-- The arena after calls in order, and the allocations since it was last emptied. -/
def run (limit : Nat) (a : Arena) (calls : List ArenaCall) : Arena × List Allocation :=
  calls.foldl (step limit) (a, [])

theorem safe_step (limit : Nat) {s : Arena × List Allocation} (h : s.1.Safe s.2)
    (call : ArenaCall) : (step limit s call).1.Safe (step limit s call).2 := by
  cases call with
  | allocate size alignment =>
    rcases s.1.allocateWithin_cases limit size alignment with ⟨n, m, hm, hOk⟩ | ⟨k, hNone, hCursor⟩
    · simp only [step, hOk]
      exact (h.place hm).1
    · have hNothing : (s.1.allocateWithin limit size alignment).1.toOption.join = none := by
        cases hAnswer : (s.1.allocateWithin limit size alignment).1 with
        | error e => rfl
        | ok x =>
          cases x with
          | none => rfl
          | some x => exact absurd hAnswer (hNone x)
      simp only [step, hCursor, hNothing, Option.toList_none, List.append_nil]
      exact h.moveCursor k
  | reset => exact Arena.safe_reset s.1
  | clear => exact Arena.safe_clear s.1

theorem safe_foldl (limit : Nat) {s : Arena × List Allocation} (h : s.1.Safe s.2)
    (calls : List ArenaCall) :
    (calls.foldl (step limit) s).1.Safe (calls.foldl (step limit) s).2 := by
  induction calls generalizing s with
  | nil => exact h
  | cons call calls ih => exact ih (safe_step limit h call)

/-- An arena is safe after every run, and it serves every valid request with aligned bytes inside a
block, if it can have the block that may be needed. -/
theorem safe_run {blockSize : Number} {a : Arena} (hCreate : Arena.create blockSize = .ok a)
    (limit : Nat) (calls : List ArenaCall) :
    (run limit a calls).1.Safe (run limit a calls).2 ∧
      ∀ n m, 0 < n → (Number.ofNat m).isPowerOfTwo = true →
        (run limit a calls).1.newBlockSize n m ≤ limit →
        ∃ x a', (run limit a calls).1.allocateWithin limit (.ofNat n) (.ofNat m) =
            (.ok (some x), a') ∧
          x.size = n ∧ m ∣ x.offset ∧ ∃ b, a'.blocks[x.block]? = some b ∧ x.stop ≤ b.size := by
  have hSafe := safe_foldl limit (s := (a, [])) (Arena.safe_create hCreate) calls
  refine ⟨hSafe, fun n m hn hm hLimit => ?_⟩
  have hAlign : 0 < m := by
    obtain ⟨k, hk, hEq⟩ := Arena.exists_of_isPowerOfTwo hm
    rw [Number.ofNat_injective hEq]
    exact hk
  obtain ⟨-, hSize, hDvd, hInside⟩ := @Arena.Safe.place _ _ n _ hSafe hAlign
  exact ⟨_, _, Arena.allocateWithin_eq_place hn hm hLimit, hSize, hDvd, hInside⟩

/-- An arena that fills a block, is emptied, and then needs a second one. -/
theorem safe_run_sixteen :
    (run 64 { blockSize := 16 } [.allocate 5 4, .allocate 3 8, .reset, .allocate 40 8]).1.Safe
        (run 64 { blockSize := 16 } [.allocate 5 4, .allocate 3 8, .reset, .allocate 40 8]).2 ∧
      ∃ x a', Arena.allocateWithin 64 { blockSize := 16 } (.ofNat 5) (.ofNat (2 ^ 2)) =
          (.ok (some x), a') ∧
        x.size = 5 ∧ 2 ^ 2 ∣ x.offset ∧ ∃ b, a'.blocks[x.block]? = some b ∧ x.stop ≤ b.size :=
  ⟨(@safe_run (.ofNat 16) _ rfl 64 _).1,
    (@safe_run (.ofNat 16) _ rfl 64 []).2 5 (2 ^ 2) (by decide)
      (Number.isPowerOfTwo_two_pow 2) (by decide)⟩

end ArenaCall

end SemanticCore
