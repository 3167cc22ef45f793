import SemanticCore.Proofs.Arena.Safety

/-!
# Sizes and offsets as doubles

An arena looks for room with natural numbers. The sizes, cursors and offsets that it stands for are
doubles, whose sums are rounded from `2 ^ 53` on. An arena that takes no block above some limit,
however, has no cursor above it either, so as long as the limit leaves room for a request below
`2 ^ 53`, a search with doubles finds the same (`ArenaCall.roomInDoubles?_run`).

* `Block.fitInDoubles?`, `Arena.roomInDoubles?`: the search with doubles.
* `Arena.Bounded`: no block is above a limit; every call keeps this.
-/

namespace SemanticCore

/-! ## Searching with doubles -/

/-- Where a request fits into what is left of a block, if it does. -/
def Block.fitInDoubles? (b : Block) (size alignment : Number) : Option Number :=
  let offset := Number.alignUp (.ofNat b.used) alignment
  if (offset + size).le (.ofNat b.size) then some offset else none

/-- The first block from the cursor on with room for a request, and where in it. -/
def Arena.roomInDoubles? (a : Arena) (size alignment : Number) : Option (Nat × Number) :=
  (List.range' a.cursor (a.blocks.size - a.cursor)).findSome? fun i =>
    match a.blocks[i]? with
    | some b => (b.fitInDoubles? size alignment).map fun offset => (i, offset)
    | none => none

variable {n m limit : Nat} {a : Arena} {b : Block}

theorem Block.fitInDoubles?_ofNat (hm : 0 < m) (h : b.used + m + n ≤ 2 ^ 53) :
    b.fitInDoubles? (.ofNat n) (.ofNat m) = (b.fit? n m).map Number.ofNat := by
  have hLt := alignNat_lt b.used hm
  rw [fitInDoubles?, fit?, Number.alignUp_ofNat hm (by omega), Number.ofNat_add (by omega),
    Number.le_ofNat]
  by_cases hFits : alignNat b.used m + n ≤ b.size
  · simp [hFits]
  · simp [hFits]

theorem Arena.roomInDoubles?_ofNat (hm : 0 < m)
    (h : ∀ (i : Nat) (b : Block), a.blocks[i]? = some b → b.used + m + n ≤ 2 ^ 53) :
    a.roomInDoubles? (.ofNat n) (.ofNat m) = (a.room? n m).map (Prod.map id Number.ofNat) := by
  rw [roomInDoubles?, room?, List.map_findSome?]
  congr 1
  funext i
  rw [Function.comp_apply]
  cases hBlock : a.blocks[i]? with
  | none => rfl
  | some b =>
    simp only [Block.fitInDoubles?_ofNat hm (h i b hBlock), Option.map_map]
    rfl

/-! ## Arenas whose blocks are limited -/

/-- No block is above the limit. -/
def Arena.Bounded (limit : Nat) (a : Arena) : Prop :=
  ∀ (i : Nat) (b : Block), a.blocks[i]? = some b → b.size ≤ limit

namespace Arena.Bounded

variable {size alignment : Number}

theorem take (h : a.Bounded limit) (i offset size : Nat) :
    (a.take i offset size).2.Bounded limit := by
  intro j b hb
  rw [getElem?_take] at hb
  split at hb
  · obtain ⟨c, hc, rfl⟩ := Option.map_eq_some_iff.mp hb
    exact h j c hc
  · exact h j b hb

theorem place (h : a.Bounded limit) (hPlace : a.canPlace limit n m = true) :
    (a.place n m).2.Bounded limit := by
  unfold Arena.place
  split
  · exact h.take _ _ _
  · rename_i hRoom
    have hNew : a.newBlockSize n m ≤ limit := by
      simpa [canPlace, hRoom] using hPlace
    refine take (fun i b hb => ?_) _ _ _
    rw [Array.getElem?_push] at hb
    split at hb
    · cases hb
      exact hNew
    · exact h i b hb

theorem allocateWithin (h : a.Bounded limit) (size alignment : Number) :
    (a.allocateWithin limit size alignment).2.Bounded limit := by
  unfold Arena.allocateWithin
  split
  · exact h
  · split
    · exact h
    · split
      · exact h
      · dsimp only
        split
        · rename_i hPlace
          exact h.place hPlace
        · exact h

theorem reset (h : a.Bounded limit) : a.reset.Bounded limit := by
  intro i b hb
  rw [Arena.reset, Array.getElem?_map] at hb
  obtain ⟨c, hc, rfl⟩ := Option.map_eq_some_iff.mp hb
  exact h i c hc

theorem clear (limit : Nat) (a : Arena) : a.clear.Bounded limit := fun i b hb => by
  simp [Arena.clear] at hb

theorem create {blockSize : Number} (h : Arena.create blockSize = .ok a) (limit : Nat) :
    a.Bounded limit := by
  unfold Arena.create at h
  split at h
  · cases h
    exact fun i b hb => by simp at hb
  · cases h

end Arena.Bounded

/-! ## Runs -/

namespace ArenaCall

theorem bounded_foldl {s : Arena × List Allocation} (h : s.1.Bounded limit)
    (calls : List ArenaCall) : (calls.foldl (step limit) s).1.Bounded limit := by
  induction calls generalizing s with
  | nil => exact h
  | cons call calls ih =>
    refine ih ?_
    cases call with
    | allocate size alignment => exact h.allocateWithin size alignment
    | reset => exact h.reset
    | clear => exact .clear limit s.1

/-- After every run, a search with doubles finds the room that a search with natural numbers finds,
for every request for which the largest block leaves room below `2 ^ 53`. -/
theorem roomInDoubles?_run {blockSize : Number} (hCreate : Arena.create blockSize = .ok a)
    (calls : List ArenaCall) (hm : 0 < m) (hSum : limit + m + n ≤ 2 ^ 53) :
    (run limit a calls).1.roomInDoubles? (.ofNat n) (.ofNat m) =
      ((run limit a calls).1.room? n m).map (Prod.map id Number.ofNat) := by
  have hSafe := safe_foldl limit (s := (a, [])) (Arena.safe_create hCreate) calls
  have hBounded := bounded_foldl (s := (a, [])) (Arena.Bounded.create hCreate limit) calls
  refine Arena.roomInDoubles?_ofNat hm fun i b hBlock => ?_
  have hUsed : b.used ≤ b.size := hSafe.used_le i b hBlock
  have hSize : b.size ≤ limit := hBounded i b hBlock
  omega

end ArenaCall

end SemanticCore
