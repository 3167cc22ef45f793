import SemanticCore.Arena.Basic

/-!
# Pools of objects with checked handles

A pool keeps objects in the order in which they came and gives each a handle, a number made of the
pool's generation and the place of the object (`Pool.handle`). Releasing a pool drops its objects
and starts the next generation, so that no earlier handle resolves again.

* `Pool.construct?`: keeps an object and gives its handle.
* `Pool.get?`: the object of a handle, if it is one of this generation.
* `PooledArena`: an arena with the pools whose objects live as long as its bytes.
-/

namespace SemanticCore

/-- The number by which an object is known. -/
abbrev Handle := Number

namespace Handle

/-- How many handles a generation has. -/
def span : Nat := 0x1000000

/-- The place of an object in its generation. -/
def index (h : Handle) : Number := Number.rem h (.ofNat span)

/-- The generation in which a handle was given. -/
def generation (h : Handle) : Number := (h / .ofNat span).floor

end Handle

/-- A pool: its generation and its objects. -/
structure Pool (α : Type) where
  generation : Nat := 0
  items : Array α := #[]

namespace Pool

variable {α : Type}

instance : Inhabited (Pool α) := ⟨{}⟩

/-- The handle of an object by its place. -/
def handle (p : Pool α) (index : Nat) : Handle := .ofNat (p.generation * Handle.span + index)

/-- The handle that the next object gets. -/
def nextHandle (p : Pool α) : Handle := p.handle p.items.size

/-- Keeps an object; `none` when the generation has no handle left. -/
def construct? (p : Pool α) (x : α) : Option (Handle × Pool α) :=
  if p.items.size < Handle.span then some (p.nextHandle, { p with items := p.items.push x })
  else none

/-- The place of the object of a handle of this generation. -/
def index? (p : Pool α) (h : Handle) : Option Nat :=
  match h.toNat? with
  | some n => if n / Handle.span = p.generation then some (n % Handle.span) else none
  | none => none

/-- The object of a handle, if it is one of this generation. -/
def get? (p : Pool α) (h : Handle) : Option α := (p.index? h).bind fun i => p.items[i]?

/-- Changes the object of a handle, if there is one. -/
def modify (p : Pool α) (h : Handle) (f : α → α) : Pool α :=
  match p.index? h with
  | some i => { p with items := p.items.modify i f }
  | none => p

/-- How many objects the pool keeps. -/
def size (p : Pool α) : Nat := p.items.size

/-- The objects in the order in which they came. -/
def values (p : Pool α) : List α := p.items.toList

/-- Drops every object and starts the next generation. -/
def release (p : Pool α) : Pool α := { generation := p.generation + 1 }

end Pool

/-- An arena and its pools; a pool has the generation of the arena. -/
structure PooledArena (α : Type) where
  arena : Arena
  pools : Array (Pool α) := #[]

namespace PooledArena

variable {α : Type}

/-- A new pool, which goes by its number among the pools. -/
def addPool (a : PooledArena α) : Nat × PooledArena α :=
  (a.pools.size, { a with pools := a.pools.push { generation := a.arena.generation } })

/-- Resets the arena, and drops the objects of all pools. -/
def reset (a : PooledArena α) : PooledArena α :=
  { arena := a.arena.reset, pools := a.pools.map Pool.release }

/-- Clears the arena, and drops the objects of all pools. -/
def clear (a : PooledArena α) : PooledArena α :=
  { arena := a.arena.clear, pools := a.pools.map Pool.release }

end PooledArena

end SemanticCore
