import SemanticCore.Arena.Alignment
import SemanticCore.Number.Decimal

/-!
# The arena: bytes handed out from blocks

Bytes are handed out in sequence from a chain of blocks. A cursor names the block that is being
filled; a request goes to the first block from the cursor on that has room, else to a new block at
the end of the chain.

* `Arena.place`: serves a request.
* `Arena.allocate`: checks a request and serves it, unless it needs a block that is too large
  (`Arena.allocateWithin` for any limit).
* `Arena.reset`: makes all blocks empty again and keeps them; their bytes stay as they are.
* `Arena.clear`: drops the blocks. What was handed out of them can still be read and written.
-/

namespace SemanticCore

/-- The least multiple of a positive alignment at or above `n`. -/
def alignNat (n alignment : Nat) : Nat := (n + alignment - 1) / alignment * alignment

/-- A block of `size` bytes, of which the first `used` are handed out. Bytes past the end of
`bytes` are zero. -/
structure Block where
  size : Nat
  used : Nat := 0
  bytes : Array UInt8 := #[]
  deriving DecidableEq, Repr, Inhabited

namespace Block

/-- The byte at an offset. -/
def byte (b : Block) (offset : Nat) : UInt8 := b.bytes.getD offset 0

/-- The block with some bytes put at an offset. -/
def write (b : Block) (offset : Nat) (data : List UInt8) : Block :=
  let reach := max b.bytes.size (offset + data.length)
  let filled := b.bytes ++ Array.replicate (reach - b.bytes.size) (0 : UInt8)
  { b with bytes := data.zipIdx.foldl (fun bs (x, i) => bs.setIfInBounds (offset + i) x) filled }

/-- Where a request fits into what is left of a block, if it does. -/
def fit? (b : Block) (size alignment : Nat) : Option Nat :=
  let offset := alignNat b.used alignment
  if offset + size ≤ b.size then some offset else none

end Block

/-- Bytes handed out: their block, by its place among all blocks that the arena ever had, and their
place in it. -/
structure View where
  page : Nat
  offset : Nat
  size : Nat
  deriving DecidableEq, Repr, Inhabited

/-- What a request got: the place of the block in the chain and the place of the bytes in it. -/
structure Allocation where
  block : Nat
  offset : Nat
  size : Nat
  view : View
  deriving DecidableEq, Repr, Inhabited

/-- Why a request or a new arena is refused. -/
inductive ArenaError where
  | blockSize (given : Number)
  | size (given : Number)
  | alignment (given : Number)
  | outOfMemory (size : Nat)
  | outOfBounds
  deriving DecidableEq, Repr

/-- What a refusal says. -/
def ArenaError.message : ArenaError → String
  | .blockSize n => "invalid arena block size: " ++ n.text
  | .size n => "invalid allocation size: " ++ n.text
  | .alignment n => "alignment must be a power of two, got " ++ n.text
  | .outOfMemory n => "no block of " ++ (Number.ofNat n).text ++ " bytes can be had"
  | .outOfBounds => "the bytes do not fit into the allocation"

/-- An arena: the blocks dropped by `clear`, the chain of blocks, and the cursor in the chain. -/
structure Arena where
  blockSize : Nat
  generation : Nat := 0
  dropped : Array Block := #[]
  blocks : Array Block := #[]
  cursor : Nat := 0
  deriving Repr, Inhabited

namespace Arena

/-- The block size of an arena for which none is given: 64 KiB. -/
def defaultBlockSize : Nat := 64 * 1024

/-- The alignment of a request that gives none. -/
def defaultAlignment : Number := 8

/-- The size of the largest block that can be had: 64 GiB. -/
def largestBlock : Nat := 0x1000000000

/-- A new arena. The block size must be a positive integer. -/
def create (blockSize : Number) : Except ArenaError Arena :=
  match blockSize.toNat? with
  | some (n + 1) => .ok { blockSize := n + 1 }
  | _ => .error (.blockSize blockSize)

/-! ## Requests -/

/-- The first block from the cursor on with room for a request, and where in it. -/
def room? (a : Arena) (size alignment : Nat) : Option (Nat × Nat) :=
  (List.range' a.cursor (a.blocks.size - a.cursor)).findSome? fun i =>
    match a.blocks[i]? with
    | some b => (b.fit? size alignment).map fun offset => (i, offset)
    | none => none

/-- The size of the block that is made for a request: there is room for it at any alignment. -/
def newBlockSize (a : Arena) (size alignment : Nat) : Nat := max (size + alignment) a.blockSize

/-- The arena after `size` bytes at `offset` of the `i`-th block were handed out. -/
def take (a : Arena) (i offset size : Nat) : Allocation × Arena :=
  ({ block := i, offset, size, view := ⟨a.dropped.size + i, offset, size⟩ },
    { a with
      blocks := a.blocks.modify i fun b => { b with used := offset + size }
      cursor := i })

/-- Serves a request: in the first block with room, else at the start of a new block. -/
def place (a : Arena) (size alignment : Nat) : Allocation × Arena :=
  match a.room? size alignment with
  | some (i, offset) => a.take i offset size
  | none =>
    let grown := { a with blocks := a.blocks.push { size := a.newBlockSize size alignment } }
    grown.take a.blocks.size 0 size

/-- Whether a request can be served: it finds room, or the block that it needs can be had. -/
def canPlace (limit : Nat) (a : Arena) (size alignment : Nat) : Bool :=
  (a.room? size alignment).isSome || a.newBlockSize size alignment ≤ limit

/-- Hands out bytes if the size is a natural number and the alignment passes for a power of two,
where blocks of up to `limit` bytes can be had. No bytes at all are no allocation. The search for
room leaves the cursor at the last block, also when no other block can be had. -/
def allocateWithin (limit : Nat) (a : Arena) (size : Number) (alignment : Number) :
    Except ArenaError (Option Allocation) × Arena :=
  match size.toNat? with
  | none => (.error (.size size), a)
  | some n =>
    if !alignment.isPowerOfTwo then (.error (.alignment alignment), a)
    else if n = 0 then (.ok none, a)
    else
      let step := alignment.toNat?.getD 1
      if a.canPlace limit n step then
        let (allocation, a) := a.place n step
        (.ok (some allocation), a)
      else (.error (.outOfMemory (a.newBlockSize n step)), { a with cursor := a.blocks.size - 1 })

/-- Hands out bytes where the largest block is `largestBlock`. -/
def allocate (a : Arena) (size : Number) (alignment : Number) :
    Except ArenaError (Option Allocation) × Arena :=
  a.allocateWithin largestBlock size alignment

/-! ## Bytes -/

/-- A block by its place among all blocks that the arena ever had. -/
def page (a : Arena) (i : Nat) : Block :=
  if i < a.dropped.size then a.dropped.getD i default
  else a.blocks.getD (i - a.dropped.size) default

/-- Changes a block, be it dropped or not. -/
def modifyPage (a : Arena) (i : Nat) (f : Block → Block) : Arena :=
  if i < a.dropped.size then { a with dropped := a.dropped.modify i f }
  else { a with blocks := a.blocks.modify (i - a.dropped.size) f }

/-- The bytes of a view as they are now. -/
def read (a : Arena) (v : View) : List UInt8 :=
  (List.range v.size).map fun i => (a.page v.page).byte (v.offset + i)

/-- Puts bytes into a view; they must not reach past its end. -/
def write (a : Arena) (v : View) (start : Nat) (data : List UInt8) : Except ArenaError Arena :=
  if start + data.length ≤ v.size then
    .ok (a.modifyPage v.page fun b => b.write (v.offset + start) data)
  else .error .outOfBounds

/-! ## Starting over -/

/-- Makes all blocks empty and keeps them with their bytes. The next generation begins. -/
def reset (a : Arena) : Arena :=
  { a with
    blocks := a.blocks.map fun b => { b with used := 0 }
    cursor := 0
    generation := a.generation + 1 }

/-- Drops the blocks. The next generation begins. -/
def clear (a : Arena) : Arena :=
  { a with
    dropped := a.dropped ++ a.blocks
    blocks := #[]
    cursor := 0
    generation := a.generation + 1 }

/-! ## Totals -/

/-- How many blocks the arena has. -/
def blockCount (a : Arena) : Nat := a.blocks.size

/-- The sizes of the blocks in sum. -/
def totalAllocated (a : Arena) : Nat := (a.blocks.toList.map Block.size).foldl (· + ·) 0

/-- The bytes handed out since the last reset, padding included. -/
def totalUsed (a : Arena) : Nat := (a.blocks.toList.map Block.used).foldl (· + ·) 0

/-- The part of the bytes not handed out, in percent. -/
def wastePercentage (a : Arena) : Number :=
  let total := a.totalAllocated
  if total = 0 then 0
  else (.ofNat total - .ofNat a.totalUsed) * 100 / .ofNat total

end Arena

end SemanticCore
