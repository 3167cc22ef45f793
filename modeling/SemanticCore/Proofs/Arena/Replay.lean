import SemanticCore.Proofs.Arena.Safety

/-!
# Requests made again

An arena that is reset keeps its blocks. So when the same requests come once more, every block that
the first run had to append is there already, and empty: a request that found no room then finds it
now in the first of these blocks, with the offset that it had in the new block. The arena of the
second run is that of the first one, step by step, with the blocks that are still to be appended
behind its own (`Arena.extend`).

* `Arena.room?_eq_some_iff`: the search for room finds the first block that fits.
* `Arena.Appends`: the blocks that a run appends, and what it does when they are there before.
* `Arena.exists_appends_allocateWithin`, `Arena.exists_appends_serve`: a request, and the requests
  of a run.
* `Arena.serve_again`: a run of an arena without allocations, made again after a reset.
-/

namespace SemanticCore

/-- A request for bytes. -/
structure ByteRequest where
  size : Number
  alignment : Number

/-- A request that an arena does not refuse for its size or its alignment. -/
def ByteRequest.Valid (r : ByteRequest) : Prop :=
  (∃ n, r.size = .ofNat n) ∧ r.alignment.isPowerOfTwo = true

namespace Arena

/-- The answers to requests that are made in order, and the arena behind them. -/
def serve (limit : Nat) (a : Arena) :
    List ByteRequest → List (Except ArenaError (Option Allocation)) × Arena
  | [] => ([], a)
  | r :: rs =>
    let (answer, b) := a.allocateWithin limit r.size r.alignment
    let (answers, c) := b.serve limit rs
    (answer :: answers, c)

/-- An arena without allocations: a new one, or one that was just emptied. -/
inductive Vacant : Arena → Prop
  | create {blockSize : Number} {a : Arena} (h : create blockSize = .ok a) : Vacant a
  | reset (a : Arena) : Vacant a.reset
  | clear (a : Arena) : Vacant a.clear

/-- An arena with more blocks behind its own, in another generation. -/
def extend (a : Arena) (spare : Array Block) (g : Nat) : Arena :=
  { a with blocks := a.blocks ++ spare, generation := g }

variable {a : Arena} {limit n m i offset : Nat} {fresh more : Array Block}

/-- The block that is appended for a request. -/
def newBlock (a : Arena) (n m : Nat) : Block := { size := a.newBlockSize n m }

/-! ## The search for room -/

/-- Where a request fits into one block of an arena, if it does. -/
def roomIn? (a : Arena) (n m i : Nat) : Option Nat := a.blocks[i]?.bind (·.fit? n m)

theorem room?_eq (a : Arena) (n m : Nat) :
    a.room? n m = (List.range' a.cursor (a.blocks.size - a.cursor)).findSome? fun i =>
      (a.roomIn? n m i).map fun offset => (i, offset) := by
  simp only [room?, roomIn?]
  congr 1
  funext i
  cases a.blocks[i]? <;> rfl

theorem roomIn?_eq_none_of_le (h : a.blocks.size ≤ i) : a.roomIn? n m i = none := by
  simp [roomIn?, Array.getElem?_eq_none h]

theorem room?_eq_none_iff :
    a.room? n m = none ↔ ∀ j, a.cursor ≤ j → a.roomIn? n m j = none := by
  simp only [room?_eq, List.findSome?_eq_none_iff, List.mem_range'_1, Option.map_eq_none_iff]
  constructor
  · intro h j hj
    rcases lt_or_ge j a.blocks.size with hLt | hGe
    · exact h j ⟨hj, by omega⟩
    · exact roomIn?_eq_none_of_le hGe
  · exact fun h j hj => h j hj.1

theorem lt_of_roomIn? (h : a.roomIn? n m i = some offset) : i < a.blocks.size := by
  by_contra hGe
  rw [roomIn?_eq_none_of_le (not_lt.mp hGe)] at h
  cases h

/-- The first block from the cursor on with room is found. -/
theorem room?_eq_some_iff :
    a.room? n m = some (i, offset) ↔
      a.cursor ≤ i ∧ a.roomIn? n m i = some offset ∧
        ∀ j, a.cursor ≤ j → j < i → a.roomIn? n m j = none := by
  rw [room?_eq, List.findSome?_eq_some_iff]
  constructor
  · rintro ⟨before, j, after, hSplit, hFound, hBefore⟩
    obtain ⟨k, hk, rfl, hAfter⟩ := List.range'_eq_append_iff.mp hSplit
    obtain ⟨hHead, hPos, -⟩ := List.range'_eq_cons_iff.mp hAfter.symm
    simp only [Option.map_eq_some_iff, Prod.mk.injEq] at hFound
    obtain ⟨offset', hRoom, rfl, rfl⟩ := hFound
    refine ⟨by omega, hRoom, fun l hl hlj => ?_⟩
    simpa using hBefore l (List.mem_range'_1.mpr ⟨hl, by omega⟩)
  · rintro ⟨hi, hRoom, hBefore⟩
    have hLt := lt_of_roomIn? hRoom
    refine ⟨List.range' a.cursor (i - a.cursor), i,
      List.range' (i + 1) (a.blocks.size - (i + 1)), ?_, by simp [hRoom], fun j hj => ?_⟩
    · refine List.range'_eq_append_iff.mpr ⟨i - a.cursor, by omega, rfl, ?_⟩
      refine (List.range'_eq_cons_iff.mpr ⟨by omega, by omega, ?_⟩).symm
      congr 1
      omega
    · obtain ⟨hj, hji⟩ := List.mem_range'_1.mp hj
      simp [hBefore j hj (by omega)]

/-! ## Blocks behind those of an arena -/

theorem roomIn?_extend (spare : Array Block) (g i : Nat) :
    (a.extend spare g).roomIn? n m i =
      if i < a.blocks.size then a.roomIn? n m i
      else spare[i - a.blocks.size]?.bind (·.fit? n m) := by
  simp only [roomIn?, extend, Array.getElem?_append]
  split <;> rfl

/-- Room in the blocks of an arena is found before room in blocks behind them. -/
theorem room?_extend_of_some (h : a.room? n m = some (i, offset)) (spare : Array Block) (g : Nat) :
    (a.extend spare g).room? n m = some (i, offset) := by
  obtain ⟨hi, hRoom, hBefore⟩ := room?_eq_some_iff.mp h
  have hLt := lt_of_roomIn? hRoom
  refine room?_eq_some_iff.mpr ⟨hi, ?_, fun j hj hji => ?_⟩
  · rw [roomIn?_extend, if_pos hLt, hRoom]
  · rw [roomIn?_extend, if_pos (hji.trans hLt), hBefore j hj hji]

theorem fit?_newBlock (a : Arena) (n : Nat) (hAlign : 0 < m) :
    (a.newBlock n m).fit? n m = some 0 := by
  refine fit?_eq_some_iff.mpr ⟨(alignNat_zero hAlign).symm, ?_⟩
  simp only [newBlock, newBlockSize]
  omega

/-- Where an arena has no room, the block that it would append is found behind its own. -/
theorem room?_extend_newBlock (h : a.room? n m = none) (hCursor : a.cursor ≤ a.blocks.size)
    (hAlign : 0 < m) (g : Nat) :
    (a.extend #[a.newBlock n m] g).room? n m = some (a.blocks.size, 0) := by
  refine room?_eq_some_iff.mpr ⟨hCursor, ?_, fun j hj hLt => ?_⟩
  · rw [roomIn?_extend, if_neg (lt_irrefl _)]
    simpa using fit?_newBlock a n hAlign
  · rw [roomIn?_extend, if_pos hLt, room?_eq_none_iff.mp h j hj]

theorem take_extend (hi : i < a.blocks.size) (offset n : Nat) (spare : Array Block) (g : Nat) :
    (a.extend spare g).take i offset n =
      ((a.take i offset n).1, (a.take i offset n).2.extend spare g) := by
  simp only [take, extend, Prod.mk.injEq, true_and, Arena.mk.injEq]
  refine ⟨?_, trivial⟩
  refine Array.ext_getElem? fun j => ?_
  simp only [Array.getElem?_modify, Array.getElem?_append, Array.size_modify]
  grind

theorem reset_take (i offset n : Nat) : (a.take i offset n).2.reset = a.reset := by
  simp only [take, reset, Arena.mk.injEq, true_and, and_true]
  refine Array.ext_getElem? fun j => ?_
  simp only [Array.getElem?_map, Array.getElem?_modify]
  split
  · cases a.blocks[j]? <;> rfl
  · rfl

/-! ## One request -/

theorem extend_extend (a : Arena) (spare more : Array Block) (g g' : Nat) :
    (a.extend spare g).extend more g' = a.extend (spare ++ more) g' := by
  simp [extend, Array.append_assoc]

theorem extend_empty (a : Arena) : a.extend #[] a.generation = a := by simp [extend]

theorem map_unused (hUnused : ∀ b ∈ fresh, b.used = 0) :
    fresh.map (fun b => { b with used := 0 }) = fresh := by
  refine (Array.map_congr_left fun b hb => ?_).trans fresh.map_id
  rw [← hUnused b hb]
  rfl

theorem reset_extend (hUnused : ∀ b ∈ fresh, b.used = 0) :
    (a.extend fresh a.generation).reset = a.reset.extend fresh (a.generation + 1) := by
  simp [reset, extend, map_unused hUnused]

theorem reset_eq_extend (a : Arena) : a.reset = a.reset.extend #[] (a.generation + 1) := by
  simp [reset, extend]

/-- The blocks `fresh` are those that a run appends to an arena. With them behind its blocks from
the start the arena does the same, whatever memory there is. -/
structure Appends {α : Type} (run : Nat → Arena → α × Arena) (limit : Nat) (a : Arena)
    (fresh : Array Block) : Prop where
  cursor_le : (run limit a).2.cursor ≤ (run limit a).2.blocks.size
  reset_eq : (run limit a).2.reset = a.reset.extend fresh (a.generation + 1)
  replay : ∀ limit' more g, run limit' (a.extend (fresh ++ more) g) =
    ((run limit a).1, (run limit a).2.extend more g)

theorem allocateWithin_valid (limit : Nat) (a : Arena) (n : Nat)
    (hAlign : (Number.ofNat m).isPowerOfTwo = true) :
    a.allocateWithin limit (.ofNat n) (.ofNat m) =
      if n = 0 then (.ok none, a)
      else if a.canPlace limit n m then (.ok (some (a.place n m).1), (a.place n m).2)
      else
        (.error (.outOfMemory (a.newBlockSize n m)), { a with cursor := a.blocks.size - 1 }) := by
  simp [allocateWithin, hAlign]

/-- A request that finds room needs no memory. -/
theorem allocateWithin_of_room? (hPos : 0 < n) (hAlign : (Number.ofNat m).isPowerOfTwo = true)
    (h : a.room? n m = some (i, offset)) (limit : Nat) :
    a.allocateWithin limit (.ofNat n) (.ofNat m) =
      (.ok (some (a.take i offset n).1), (a.take i offset n).2) := by
  have hPlace : a.canPlace limit n m = true := by simp [canPlace, h]
  rw [allocateWithin_valid limit a n hAlign, if_neg hPos.ne', if_pos hPlace, place, h]

/-- A request for which an arena appends the blocks `fresh`, to find room then. -/
theorem appends_of_room? (hPos : 0 < n) (hAlign : (Number.ofNat m).isPowerOfTwo = true)
    (hUnused : ∀ b ∈ fresh, b.used = 0)
    (hRoom : (a.extend fresh a.generation).room? n m = some (i, offset))
    (hServed : a.allocateWithin limit (.ofNat n) (.ofNat m) =
      (a.extend fresh a.generation).allocateWithin limit (.ofNat n) (.ofNat m)) :
    Appends (fun limit a => a.allocateWithin limit (.ofNat n) (.ofNat m)) limit a fresh := by
  have hLt := lt_of_roomIn? (room?_eq_some_iff.mp hRoom).2.1
  rw [allocateWithin_of_room? hPos hAlign hRoom] at hServed
  refine ⟨?_, ?_, fun limit' more g => ?_⟩
  · simpa [hServed, take] using hLt.le
  · simp only [hServed, reset_take]
    exact reset_extend hUnused
  · have hAgain := room?_extend_of_some hRoom more g
    simp only [hServed]
    rw [← extend_extend a fresh more a.generation g, allocateWithin_of_room? hPos hAlign hAgain,
      take_extend hLt]

/-- A request that finds no room is served as if the new block had been there. -/
theorem allocateWithin_eq_grown (hPos : 0 < n) (hAlign : (Number.ofNat m).isPowerOfTwo = true)
    (hNone : a.room? n m = none) (hPlace : a.canPlace limit n m = true)
    (hFound : (a.extend #[a.newBlock n m] a.generation).room? n m = some (a.blocks.size, 0)) :
    a.allocateWithin limit (.ofNat n) (.ofNat m) =
      (a.extend #[a.newBlock n m] a.generation).allocateWithin limit (.ofNat n) (.ofNat m) := by
  rw [allocateWithin_of_room? hPos hAlign hFound, allocateWithin_valid limit a n hAlign,
    if_neg hPos.ne', if_pos hPlace, place, hNone]
  simp [extend, newBlock]

/-- A request is served from the blocks that are there, or from a new one. -/
theorem exists_appends_allocateWithin (hCursor : a.cursor ≤ a.blocks.size) {r : ByteRequest}
    (hValid : r.Valid)
    (hMemory : ∀ k, (a.allocateWithin limit r.size r.alignment).1 ≠ .error (.outOfMemory k)) :
    (∃ x, (a.allocateWithin limit r.size r.alignment).1 = .ok x) ∧
      ∃ fresh,
        Appends (fun limit a => a.allocateWithin limit r.size r.alignment) limit a fresh := by
  obtain ⟨size, alignment⟩ := r
  obtain ⟨⟨n, rfl⟩, hAlign⟩ := hValid
  obtain ⟨m, hm, rfl⟩ := exists_of_isPowerOfTwo hAlign
  dsimp only at hAlign hMemory ⊢
  rcases n.eq_zero_or_pos with rfl | hPos
  · have hNothing : ∀ limit a, allocateWithin limit a (.ofNat 0) (.ofNat m) = (.ok none, a) :=
      fun limit a => allocateWithin_valid limit a 0 hAlign
    refine ⟨⟨none, by rw [hNothing]⟩, #[], ?_, ?_, fun limit' more g => ?_⟩
    · simpa only [hNothing] using hCursor
    · simpa only [hNothing] using reset_eq_extend a
    · simp only [hNothing, Array.empty_append]
  · cases hRoom : a.room? n m with
    | some found =>
      obtain ⟨i, offset⟩ := found
      refine ⟨⟨_, by rw [allocateWithin_of_room? hPos hAlign hRoom]⟩, #[], ?_⟩
      exact appends_of_room? hPos hAlign (by simp) ((extend_empty a).symm ▸ hRoom)
        (by rw [extend_empty])
    | none =>
      have hPlace : a.canPlace limit n m = true := by
        by_contra hNot
        rw [allocateWithin_valid limit a n hAlign, if_neg hPos.ne', if_neg hNot] at hMemory
        exact hMemory _ rfl
      have hFound := room?_extend_newBlock hRoom hCursor hm a.generation
      have hServed := allocateWithin_of_room? hPos hAlign hFound limit
      have hGrown := allocateWithin_eq_grown hPos hAlign hRoom hPlace hFound
      rw [← hGrown] at hServed
      exact ⟨⟨_, by rw [hServed]⟩, _,
        appends_of_room? hPos hAlign (by simp [newBlock]) hFound hGrown⟩

/-! ## The requests of a run -/

theorem serve_cons (limit : Nat) (a : Arena) (r : ByteRequest) (rs : List ByteRequest) :
    a.serve limit (r :: rs) =
      ((a.allocateWithin limit r.size r.alignment).1 ::
          ((a.allocateWithin limit r.size r.alignment).2.serve limit rs).1,
        ((a.allocateWithin limit r.size r.alignment).2.serve limit rs).2) := rfl

theorem exists_appends_serve (hCursor : a.cursor ≤ a.blocks.size) {requests : List ByteRequest}
    (hValid : ∀ r ∈ requests, r.Valid)
    (hMemory : ∀ k, .error (.outOfMemory k) ∉ (a.serve limit requests).1) :
    (∀ y ∈ (a.serve limit requests).1, ∃ x, y = .ok x) ∧
      ∃ fresh, Appends (fun limit a => a.serve limit requests) limit a fresh := by
  induction requests generalizing a with
  | nil =>
    refine ⟨by simp [serve], #[], hCursor, ?_, fun limit' more g => ?_⟩
    · simpa only [serve] using reset_eq_extend a
    · simp only [serve, Array.empty_append]
  | cons r rs ih =>
    rw [List.forall_mem_cons] at hValid
    simp only [serve_cons, List.mem_cons, not_or] at hMemory ⊢
    obtain ⟨hAnswer, fresh, hFirst⟩ :=
      exists_appends_allocateWithin hCursor hValid.1 fun k hEq => (hMemory k).1 hEq.symm
    obtain ⟨hAnswers, later, hRest⟩ := ih hFirst.cursor_le hValid.2 fun k => (hMemory k).2
    refine ⟨?_, fresh ++ later, hRest.cursor_le, ?_, fun limit' more g => ?_⟩
    · rintro y (rfl | hy)
      · exact hAnswer
      · exact hAnswers y hy
    · have hGeneration := congrArg generation hFirst.reset_eq
      simp only [reset, extend] at hGeneration
      rw [hRest.reset_eq, hFirst.reset_eq, extend_extend, Nat.add_right_cancel hGeneration]
    · have hStep := hFirst.replay limit' (later ++ more) g
      have hTail := hRest.replay limit' more g
      simp only [Array.append_assoc, hStep, hTail]

/-! ## The same requests after a reset -/

theorem unused_of_vacant (h : a.Vacant) : a.cursor = 0 ∧ ∀ b ∈ a.blocks, b.used = 0 := by
  cases h with
  | create h =>
    unfold Arena.create at h
    split at h
    · cases h
      exact ⟨rfl, by simp⟩
    · cases h
  | reset a => exact ⟨rfl, by simp [reset]⟩
  | clear a => exact ⟨rfl, by simp [clear]⟩

/-- Nothing is left to be emptied in an arena without allocations. -/
theorem reset_of_vacant (h : a.Vacant) (fresh : Array Block) (g : Nat) :
    a.reset.extend fresh g = a.extend fresh g := by
  obtain ⟨hCursor, hUnused⟩ := unused_of_vacant h
  simp [reset, extend, hCursor, map_unused hUnused]

/-- Where an arena without allocations serves valid requests, it serves them with the same bytes
again after a reset, and needs neither memory nor a further block for it. -/
theorem serve_again (hVacant : a.Vacant) {requests : List ByteRequest}
    {answers : List (Except ArenaError (Option Allocation))} {b : Arena}
    (hValid : ∀ r ∈ requests, r.Valid) (hFirst : a.serve limit requests = (answers, b))
    (hMemory : ∀ k, .error (.outOfMemory k) ∉ answers) (limit' : Nat) :
    (∀ y ∈ answers, ∃ x, y = .ok x) ∧
      ∃ c, b.reset.serve limit' requests = (answers, c) ∧ c.blocks = b.blocks ∧
        c.blockCount = b.blockCount ∧ c.totalAllocated = b.totalAllocated := by
  have hAnswers : (a.serve limit requests).1 = answers := congrArg Prod.fst hFirst
  have hBehind : (a.serve limit requests).2 = b := congrArg Prod.snd hFirst
  have hCursor : a.cursor ≤ a.blocks.size := (unused_of_vacant hVacant).1 ▸ Nat.zero_le _
  obtain ⟨hOk, fresh, hAppends⟩ := exists_appends_serve hCursor hValid (hAnswers ▸ hMemory)
  have hReset : b.reset = a.extend (fresh ++ #[]) (a.generation + 1) := by
    rw [← hBehind, hAppends.reset_eq, reset_of_vacant hVacant, Array.append_empty]
  have hBlocks : (b.extend #[] (a.generation + 1)).blocks = b.blocks := Array.append_empty
  refine ⟨hAnswers ▸ hOk, b.extend #[] (a.generation + 1), ?_, hBlocks, ?_, ?_⟩
  · rw [hReset, ← hAnswers, ← hBehind]
    exact hAppends.replay limit' #[] (a.generation + 1)
  · rw [blockCount, hBlocks, blockCount]
  · rw [totalAllocated, hBlocks, totalAllocated]

/-- An arena whose only block is too small for the first of the requests. -/
theorem serve_again_skipped :
    ∃ b c, serve 64 (reset { blockSize := 16, blocks := #[{ size := 16, used := 5 }] })
        [⟨.ofNat 40, .ofNat (2 ^ 3)⟩, ⟨.ofNat 3, .ofNat (2 ^ 0)⟩, ⟨.ofNat 0, .ofNat (2 ^ 3)⟩] =
          ([.ok (some ⟨1, 0, 40, ⟨1, 0, 40⟩⟩), .ok (some ⟨1, 40, 3, ⟨1, 40, 3⟩⟩), .ok none], b) ∧
      b.reset.serve 0
        [⟨.ofNat 40, .ofNat (2 ^ 3)⟩, ⟨.ofNat 3, .ofNat (2 ^ 0)⟩, ⟨.ofNat 0, .ofNat (2 ^ 3)⟩] =
          ([.ok (some ⟨1, 0, 40, ⟨1, 0, 40⟩⟩), .ok (some ⟨1, 40, 3, ⟨1, 40, 3⟩⟩), .ok none], c) ∧
      c.blocks = b.blocks ∧ c.blockCount = b.blockCount ∧ c.totalAllocated = b.totalAllocated := by
  have hFirst : serve 64 (reset { blockSize := 16, blocks := #[{ size := 16, used := 5 }] })
      [⟨.ofNat 40, .ofNat (2 ^ 3)⟩, ⟨.ofNat 3, .ofNat (2 ^ 0)⟩, ⟨.ofNat 0, .ofNat (2 ^ 3)⟩] =
        ([.ok (some ⟨1, 0, 40, ⟨1, 0, 40⟩⟩), .ok (some ⟨1, 40, 3, ⟨1, 40, 3⟩⟩), .ok none],
          { blockSize := 16, generation := 1, cursor := 1
            blocks := #[{ size := 16 }, { size := 48, used := 43 }] }) := by
    simp only [serve_cons, allocateWithin_valid _ _ _ (Number.isPowerOfTwo_two_pow _), reset,
      List.map_toArray, List.map_cons, List.map_nil]
    rfl
  have hValid : ∀ r ∈ [(⟨.ofNat 40, .ofNat (2 ^ 3)⟩ : ByteRequest), ⟨.ofNat 3, .ofNat (2 ^ 0)⟩,
      ⟨.ofNat 0, .ofNat (2 ^ 3)⟩], r.Valid := by
    simp only [List.forall_mem_cons, List.not_mem_nil, false_implies, implies_true, and_true]
    exact ⟨⟨⟨_, rfl⟩, Number.isPowerOfTwo_two_pow 3⟩, ⟨⟨_, rfl⟩, Number.isPowerOfTwo_two_pow 0⟩,
      ⟨⟨_, rfl⟩, Number.isPowerOfTwo_two_pow 3⟩⟩
  obtain ⟨-, c, hAgain⟩ := serve_again (Vacant.reset _) hValid hFirst (by simp) 0
  exact ⟨_, c, hFirst, hAgain⟩

end Arena

end SemanticCore
