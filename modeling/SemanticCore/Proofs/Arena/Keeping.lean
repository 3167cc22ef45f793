import SemanticCore.Proofs.Arena.Safety

/-!
# What an arena keeps

Bytes that were handed out lie below the cursor of their block, and the next request is served above
it. So until the arena is reset, what is handed out later has no byte in common with them, and they
change only when someone writes to them. Blocks that were dropped serve no request at all.

* `View.Apart`: views without a byte in common.
* `Arena.Keeps`: a view that later requests leave alone.
* `Arena.Stays`: what is kept stays, with its bytes; `Arena.stays_allocateWithin`,
  `Arena.stays_clear`.
* `Arena.byte_write_of_apart`, `Arena.Keeps.byte_write`: the bytes after some were written.
* `Arena.Kept`: what stays of an arena that is not emptied.
-/

namespace SemanticCore

/-! ## Writing to a block -/

namespace Block

theorem getD_setIfInBounds (bs : Array UInt8) {i j : Nat} {x : UInt8} (hi : i < bs.size) :
    (bs.setIfInBounds i x).getD j 0 = if j = i then x else bs.getD j 0 := by
  rw [Array.getD_eq_getD_getElem?, Array.getElem?_setIfInBounds, Array.getD_eq_getD_getElem?]
  by_cases hij : i = j
  · rw [if_pos hij, if_pos hi, if_pos hij.symm]
    rfl
  · rw [if_neg hij, if_neg (Ne.symm hij)]

/-- Bytes put one after another from a place on. -/
theorem getD_foldl_set (offset : Nat) (data : List UInt8) (k : Nat) (bs : Array UInt8)
    (hFits : offset + k + data.length ≤ bs.size) (j : Nat) :
    ((data.zipIdx k).foldl (fun bs (x, i) => bs.setIfInBounds (offset + i) x) bs).getD j 0 =
      if offset + k ≤ j ∧ j < offset + k + data.length then data.getD (j - (offset + k)) 0
      else bs.getD j 0 := by
  induction data generalizing k bs with
  | nil => rw [if_neg (by simp)]; rfl
  | cons x data ih =>
    rw [List.length_cons] at hFits
    rw [List.zipIdx_cons, List.foldl_cons, ih (k + 1) _ (by rw [Array.size_setIfInBounds]; omega),
      getD_setIfInBounds bs (by omega), List.length_cons]
    rcases Nat.lt_trichotomy j (offset + k) with hLt | rfl | hGt
    · rw [if_neg (by omega), if_neg (by omega), if_neg (by omega)]
    · rw [if_neg (by omega), if_pos rfl, if_pos (by omega), Nat.sub_self, List.getD_cons_zero]
    · obtain ⟨m, rfl⟩ : ∃ m, j = offset + k + (m + 1) := ⟨j - (offset + k) - 1, by omega⟩
      rw [if_neg (show ¬ offset + k + (m + 1) = offset + k by omega), Nat.add_sub_cancel_left,
        List.getD_cons_succ]
      have hRest : offset + k + (m + 1) - (offset + (k + 1)) = m := by omega
      rw [hRest]
      by_cases hm : m < data.length
      · rw [if_pos (by omega), if_pos (by omega)]
      · rw [if_neg (by omega), if_neg (by omega)]

theorem byte_write (b : Block) (offset : Nat) (data : List UInt8) (j : Nat) :
    (b.write offset data).byte j =
      if offset ≤ j ∧ j < offset + data.length then data.getD (j - offset) 0 else b.byte j := by
  have hByte : ∀ n, (b.bytes ++ Array.replicate n (0 : UInt8)).getD j 0 = b.bytes.getD j 0 := by
    intro n
    rw [Array.getD_eq_getD_getElem?, Array.getD_eq_getD_getElem?, Array.getElem?_append]
    split
    · rfl
    · rename_i hj
      rw [Array.getElem?_eq_none (Nat.not_lt.mp hj), Array.getElem?_replicate]
      split <;> rfl
  rw [byte, write, getD_foldl_set offset data 0 _ (by
    simp only [Array.size_append, Array.size_replicate]
    omega), Nat.add_zero, hByte, byte]

@[simp]
theorem used_write (b : Block) (offset : Nat) (data : List UInt8) :
    (b.write offset data).used = b.used := rfl

end Block

/-! ## Views -/

/-- Views without a byte in common. -/
def View.Apart (v w : View) : Prop :=
  v.page ≠ w.page ∨ v.offset + v.size ≤ w.offset ∨ w.offset + w.size ≤ v.offset

theorem View.Apart.symm {v w : View} (h : v.Apart w) : w.Apart v :=
  h.imp Ne.symm Or.symm

namespace Arena

variable {a a' a'' : Arena} {v w : View} {x : Allocation} {i start size alignment offset : Nat}
  {b : Block} {bytes data : List UInt8}

/-- The byte at a place in a view. -/
def byte (a : Arena) (v : View) (i : Nat) : UInt8 := (a.page v.page).byte (v.offset + i)

theorem read_eq_of_byte_eq (h : ∀ i < v.size, a'.byte v i = a.byte v i) : a'.read v = a.read v :=
  List.map_congr_left fun i hi => h i (List.mem_range.mp hi)

theorem byte_eq_of_read_eq (h : a'.read w = a.read v) (i : Nat) (hi : i < v.size) :
    a'.byte w i = a.byte v i := by
  have hAt := congrArg (·[i]?) h
  have hSize : w.size = v.size := by simpa [read] using congrArg List.length h
  simpa [read, byte, List.getElem?_map, List.getElem?_range, hi, hSize] using hAt

/-- The blocks that an arena ever had, in order. -/
def pages (a : Arena) : Array Block := a.dropped ++ a.blocks

theorem page_eq (a : Arena) (i : Nat) : a.page i = (a.pages[i]?).getD default := by
  rw [page, pages, Array.getElem?_append, Array.getD_eq_getD_getElem?, Array.getD_eq_getD_getElem?]
  split <;> rfl

theorem page_of_block (h : a.blocks[i]? = some b) : a.page (a.dropped.size + i) = b := by
  rw [page_eq, pages, Array.getElem?_append, if_neg (by omega), Nat.add_sub_cancel_left, h,
    Option.getD_some]

theorem page_of_lt (h : i < a.dropped.size) : a.page i = a.dropped.getD i default := if_pos h

theorem pages_modifyPage (a : Arena) (p : Nat) (f : Block → Block) :
    (a.modifyPage p f).pages = a.pages.modify p f := by
  refine Array.ext_getElem? fun i => ?_
  rw [modifyPage, Array.getElem?_modify]
  split
  · rename_i hp
    by_cases hi : i < a.dropped.size
    · rw [pages, pages, Array.getElem?_append_left (by simpa using hi), Array.getElem?_modify,
        Array.getElem?_append_left hi]
    · have hNe : p ≠ i := by omega
      simp [pages, Array.getElem?_append, hi, hNe]
  · rename_i hp
    by_cases hi : i < a.dropped.size
    · have hNe : p ≠ i := by omega
      simp [pages, Array.getElem?_append, hi, hNe]
    · have hSame : p - a.dropped.size = i - a.dropped.size ↔ p = i := by omega
      simp [pages, Array.getElem?_append, Array.getElem?_modify, hi, hSame]

theorem page_modifyPage_of_ne {p q : Nat} (h : q ≠ p) (f : Block → Block) :
    (a.modifyPage p f).page q = a.page q := by
  rw [page_eq, pages_modifyPage, Array.getElem?_modify, if_neg h.symm, page_eq]

theorem page_modifyPage_self {p : Nat} (h : p < a.pages.size) (f : Block → Block) :
    (a.modifyPage p f).page p = f (a.page p) := by
  rw [page_eq, pages_modifyPage, Array.getElem?_modify, if_pos rfl, page_eq,
    Array.getElem?_eq_getElem h]
  rfl

/-! ## What is kept -/

/-- What is handed out before the arena is reset lies apart from the view: it is below the cursor of
its block, or its block was dropped. -/
def Keeps (a : Arena) (v : View) : Prop :=
  v.page < a.dropped.size ∨ ∃ (i : Nat) (b : Block),
    v.page = a.dropped.size + i ∧ a.blocks[i]? = some b ∧ v.offset + v.size ≤ b.used

/-- A view is kept, and these are the bytes there. -/
def Holds (a : Arena) (v : View) (bytes : List UInt8) : Prop := a.Keeps v ∧ a.read v = bytes

/-- What is kept stays kept, with its bytes. -/
def Stays (a a' : Arena) : Prop :=
  ∀ v, a.Keeps v → a'.Keeps v ∧ ∀ i < v.size, a'.byte v i = a.byte v i

theorem Stays.refl (a : Arena) : a.Stays a := fun _ h => ⟨h, fun _ _ => rfl⟩

theorem Stays.trans (h : a.Stays a') (h' : a'.Stays a'') : a.Stays a'' := by
  intro v hv
  obtain ⟨hKeeps, hByte⟩ := h v hv
  obtain ⟨hKeeps', hByte'⟩ := h' v hKeeps
  exact ⟨hKeeps', fun i hi => (hByte' i hi).trans (hByte i hi)⟩

theorem Holds.stays (h : a.Holds v bytes) (hStays : a.Stays a') : a'.Holds v bytes := by
  obtain ⟨hKeeps, hByte⟩ := hStays v h.1
  exact ⟨hKeeps, (read_eq_of_byte_eq hByte).trans h.2⟩

theorem Keeps.page_lt (h : a.Keeps v) : v.page < a.pages.size := by
  rw [pages, Array.size_append]
  rcases h with hDropped | ⟨i, b, hPage, hBlock, -⟩
  · exact Nat.lt_add_right _ hDropped
  · obtain ⟨hi, -⟩ := Array.getElem?_eq_some_iff.mp hBlock
    omega

/-- Clearing drops the blocks as they are. -/
theorem stays_clear (a : Arena) : a.Stays a.clear := by
  have hPages : a.clear.pages = a.pages := Array.append_empty
  intro v hv
  refine ⟨.inl hv.page_lt, fun i _ => ?_⟩
  rw [byte, page_eq, hPages, byte, page_eq]

/-! ## Bytes that are handed out -/

/-- What a request leaves of the blocks, and where it is served. -/
structure Served (a : Arena) (x : Allocation) (size : Nat) (a' : Arena) : Prop where
  view_eq : x.view = ⟨a.dropped.size + x.block, x.offset, size⟩
  dropped_eq : a'.dropped = a.dropped
  block : ∃ b, a'.blocks[x.block]? = some b ∧ b.used = x.offset + size
  rest : ∀ (i : Nat) (b : Block), a.blocks[i]? = some b → ∃ b', a'.blocks[i]? = some b' ∧
    b'.bytes = b.bytes ∧ b.used ≤ b'.used ∧ (i = x.block → b.used ≤ x.offset)

namespace Served

variable (h : a.Served x size a')

include h

/-- What is handed out lies apart from what is kept. -/
theorem apart (hv : a.Keeps v) : v.Apart x.view := by
  rw [View.Apart, h.view_eq]
  rcases hv with hDropped | ⟨i, b, hPage, hBlock, hBelow⟩
  · exact .inl (Nat.lt_add_right _ hDropped).ne
  · obtain ⟨-, -, -, -, hFree⟩ := h.rest i b hBlock
    rw [hPage]
    by_cases hi : i = x.block
    · exact .inr (.inl (Nat.le_trans hBelow (hFree hi)))
    · exact .inl fun hEq => hi (Nat.add_left_cancel hEq)

/-- What is handed out is kept. -/
theorem keeps : a'.Keeps x.view := by
  obtain ⟨b, hBlock, hUsed⟩ := h.block
  rw [h.view_eq]
  exact .inr ⟨x.block, b, by rw [h.dropped_eq], hBlock, hUsed.ge⟩

theorem stays : a.Stays a' := by
  intro v hv
  rcases hv with hDropped | ⟨i, b, hPage, hBlock, hBelow⟩
  · have hSame : v.page < a'.dropped.size := h.dropped_eq ▸ hDropped
    refine ⟨.inl hSame, fun i _ => ?_⟩
    rw [byte, page_of_lt hSame, h.dropped_eq, byte, page_of_lt hDropped]
  · obtain ⟨b', hBlock', hBytes, hGrown, -⟩ := h.rest i b hBlock
    have hPage' : v.page = a'.dropped.size + i := h.dropped_eq ▸ hPage
    refine ⟨.inr ⟨i, b', hPage', hBlock', Nat.le_trans hBelow hGrown⟩, fun j _ => ?_⟩
    rw [byte, hPage', page_of_block hBlock', byte, hPage, page_of_block hBlock, Block.byte,
      Block.byte, hBytes]

end Served

theorem served_take (hBlock : a.blocks[i]? = some b) (hUsed : b.used ≤ offset) :
    a.Served (a.take i offset size).1 size (a.take i offset size).2 where
  view_eq := rfl
  dropped_eq := rfl
  block := ⟨_, getElem?_take_self hBlock, rfl⟩
  rest j c hc := by
    rw [getElem?_take]
    split
    · rename_i hij
      subst hij
      rw [hBlock] at hc
      cases hc
      rw [hBlock]
      exact ⟨_, rfl, rfl, Nat.le_trans hUsed (Nat.le_add_right _ _), fun _ => hUsed⟩
    · rename_i hij
      exact ⟨c, hc, rfl, Nat.le_refl _, fun hEq => absurd hEq.symm hij⟩

theorem served_place (a : Arena) (size : Nat) (hAlign : 0 < alignment) :
    a.Served (a.place size alignment).1 size (a.place size alignment).2 := by
  unfold place
  split
  · rename_i i offset hRoom
    obtain ⟨b, hBlock, hFit⟩ := exists_of_room? hRoom
    obtain ⟨rfl, -⟩ := fit?_eq_some_iff.mp hFit
    exact served_take hBlock (le_alignNat b.used hAlign)
  · let fresh : Block := { size := a.newBlockSize size alignment }
    let grown : Arena := { a with blocks := a.blocks.push fresh }
    have hTaken : grown.Served (grown.take a.blocks.size 0 size).1 size _ :=
      served_take Array.getElem?_push_size (Nat.le_refl 0)
    refine ⟨hTaken.view_eq, hTaken.dropped_eq, hTaken.block, fun i b hb => hTaken.rest i b ?_⟩
    obtain ⟨hLt, -⟩ := Array.getElem?_eq_some_iff.mp hb
    rw [Array.getElem?_push, if_neg hLt.ne, hb]

theorem stays_allocateWithin (a : Arena) (limit : Nat) (size alignment : Number) :
    a.Stays (a.allocateWithin limit size alignment).2 := by
  rcases a.allocateWithin_cases limit size alignment with ⟨n, m, hm, hPlace⟩ | ⟨k, -, hCursor⟩
  · rw [hPlace]
    exact (a.served_place n hm).stays
  · rw [hCursor]
    exact .refl a

theorem served_allocateWithin {limit : Nat} {size alignment : Number}
    (h : a.allocateWithin limit size alignment = (.ok (some x), a')) :
    ∃ n, a.Served x n a' := by
  rcases a.allocateWithin_cases limit size alignment with ⟨n, m, hm, hPlace⟩ | ⟨k, hNone, -⟩
  · obtain ⟨hx, ha'⟩ := Prod.mk.inj (h.symm.trans hPlace)
    cases hx
    exact ⟨n, ha' ▸ a.served_place n hm⟩
  · exact absurd (congrArg Prod.fst h) (hNone x)

/-! ## Bytes that are written -/

theorem write_eq_ok : a.write w start data = .ok a' ↔ start + data.length ≤ w.size ∧
    a.modifyPage w.page (fun b => b.write (w.offset + start) data) = a' := by
  unfold write
  split
  · rename_i hFits
    simp [hFits]
  · rename_i hFits
    simp [hFits]

variable (hWrite : a.write w start data = .ok a')

include hWrite

/-- Bytes stay where others are written. -/
theorem byte_write_of_apart (hv : a.Keeps v) (h : v.Apart w) (hi : i < v.size) :
    a'.byte v i = a.byte v i := by
  obtain ⟨hFits, rfl⟩ := write_eq_ok.mp hWrite
  rw [byte, byte]
  by_cases hPage : v.page = w.page
  · have hOut := h.resolve_left fun hNe => hNe hPage
    rw [hPage, page_modifyPage_self (hPage ▸ hv.page_lt), Block.byte_write, if_neg (by omega)]
  · rw [page_modifyPage_of_ne hPage]

/-- Bytes that are written are found where they were put. -/
theorem Keeps.byte_write (h : a.Keeps w) (i : Nat) : a'.byte w i =
    if start ≤ i ∧ i < start + data.length then data.getD (i - start) 0 else a.byte w i := by
  obtain ⟨-, rfl⟩ := write_eq_ok.mp hWrite
  rw [byte, page_modifyPage_self h.page_lt, Block.byte_write, Nat.add_assoc, Nat.add_sub_add_left,
    byte]
  simp only [Nat.add_le_add_iff_left, Nat.add_lt_add_iff_left]

theorem Keeps.write (h : a.Keeps v) : a'.Keeps v := by
  obtain ⟨-, rfl⟩ := write_eq_ok.mp hWrite
  unfold modifyPage
  split
  · exact h.imp (fun hDropped => by simpa using hDropped) fun ⟨i, b, hPage, hBlock, hBelow⟩ =>
      ⟨i, b, by simpa using hPage, hBlock, hBelow⟩
  · refine h.imp id fun ⟨i, b, hPage, hBlock, hBelow⟩ => ?_
    by_cases hi : w.page - a.dropped.size = i
    · exact ⟨i, b.write (w.offset + start) data, hPage, by simp [Array.getElem?_modify, hi, hBlock],
        hBelow⟩
    · exact ⟨i, b, hPage, by simp [Array.getElem?_modify, hi, hBlock], hBelow⟩

theorem Holds.write (h : a.Holds v bytes) (hApart : v.Apart w) : a'.Holds v bytes :=
  ⟨h.1.write hWrite,
    (read_eq_of_byte_eq fun _ hi => byte_write_of_apart hWrite h.1 hApart hi).trans h.2⟩

/-- Bytes that fill a view can be read there. -/
theorem Keeps.read_write (h : a.Keeps w) (hStart : start = 0) (hData : data.length = w.size) :
    a'.read w = data := by
  subst hStart
  apply List.ext_getElem
  · simp [read, hData]
  · intro i hi hi'
    have hByte := h.byte_write hWrite i
    rw [if_pos (by omega), Nat.sub_zero, List.getD_eq_getElem?_getD,
      List.getElem?_eq_getElem hi', Option.getD_some] at hByte
    rw [← hByte]
    simp [read, byte]

omit hWrite

/-! ## Arenas that are not emptied -/

/-- What stays of an arena that is not emptied. -/
structure Kept (a a' : Arena) : Prop where
  blockSize_eq : a'.blockSize = a.blockSize
  generation_eq : a'.generation = a.generation

theorem Kept.refl (a : Arena) : a.Kept a := ⟨rfl, rfl⟩

theorem Kept.trans (h : a.Kept a') (h' : a'.Kept a'') : a.Kept a'' :=
  ⟨h'.blockSize_eq.trans h.blockSize_eq, h'.generation_eq.trans h.generation_eq⟩

theorem kept_place (a : Arena) (size alignment : Nat) : a.Kept (a.place size alignment).2 := by
  unfold place
  split <;> exact ⟨rfl, rfl⟩

theorem kept_modifyPage (a : Arena) (i : Nat) (f : Block → Block) : a.Kept (a.modifyPage i f) := by
  unfold modifyPage
  split <;> exact ⟨rfl, rfl⟩

theorem kept_write (hWrite : a.write w start data = .ok a') : a.Kept a' := by
  obtain ⟨-, rfl⟩ := write_eq_ok.mp hWrite
  exact a.kept_modifyPage w.page _

theorem kept_allocateWithin (a : Arena) (limit : Nat) (size alignment : Number) :
    a.Kept (a.allocateWithin limit size alignment).2 := by
  rcases a.allocateWithin_cases limit size alignment with ⟨n, m, -, hPlace⟩ | ⟨k, -, hCursor⟩
  · rw [hPlace]
    exact a.kept_place n m
  · rw [hCursor]
    exact ⟨rfl, rfl⟩

/-! ## Requests where memory lasts -/

/-- What a request gets if memory lasts: the number of bytes, if there are any to hand out. -/
def request (size alignment : Number) : Except ArenaError (Option Nat) :=
  match size.toNat? with
  | none => .error (.size size)
  | some n =>
    if !alignment.isPowerOfTwo then .error (.alignment alignment)
    else if n = 0 then .ok none
    else .ok (some n)

/-- The size of the block that a request may need. -/
def enough (a : Arena) (size alignment : Number) : Nat :=
  a.newBlockSize (size.toNat?.getD 0) (alignment.toNat?.getD 1)

theorem size_place (a : Arena) (size alignment : Nat) :
    (a.place size alignment).1.view.size = size := by
  unfold place
  split <;> rfl

theorem allocateWithin_eq_request (a : Arena) (size alignment : Number) :
    (a.allocateWithin (a.enough size alignment) size alignment).1.map
      (Option.map fun x => x.view.size) = request size alignment := by
  unfold allocateWithin request
  cases hSize : size.toNat? with
  | none => rfl
  | some n =>
    have hEnough : a.canPlace (a.enough size alignment) n (alignment.toNat?.getD 1) = true := by
      simp [canPlace, enough, hSize]
    simp only [hEnough, if_true]
    split
    · rfl
    · split
      · rfl
      · exact congrArg (fun k => Except.ok (some k)) (a.size_place n _)

end Arena

end SemanticCore
