import SemanticCore.Proofs.Context.Isolation

/-!
# The bytes of the names of a context

The bytes of names lie in the arena of the context, where operations and others are handed bytes as
well. As long as the others write only to what they were handed since the last reset of the context,
every name has the bytes of its text.

* `Context.Lends`: runs of a context that hands out bytes to others.
* `Context.Lends.houses`: every run keeps the bytes of names apart from what is lent.
* `Context.bytes_intact`: what can be read of a name.
-/

namespace SemanticCore

/-- What stays lent when an operation is applied. A reset takes it all back. -/
def ContextOp.lent (lent : List View) : ContextOp → List View
  | .reset => []
  | _ => lent

namespace Context

/-- The contexts to which operations can lead while others are handed bytes of the arena and write
there. With them stand the views to which the others may write. -/
inductive Lends (first : Context) : Context → List View → Prop
  | refl : Lends first first []
  | apply {c : Context} {lent : List View} (h : Lends first c lent) (op : ContextOp) :
    Lends first (op.apply c).2 (op.lent lent)
  | request {c : Context} {lent : List View} (h : Lends first c lent) (limit : Nat)
    (size alignment : Number) :
    Lends first { c with arena := (c.arena.allocateWithin limit size alignment).2 } lent
  | lend {c : Context} {lent : List View} {limit : Nat} {size alignment : Number}
    {x : Allocation} {arena : Arena} (h : Lends first c lent)
    (hNew : c.arena.allocateWithin limit size alignment = (.ok (some x), arena)) :
    Lends first { c with arena } (lent ++ [x.view])
  | write {c : Context} {lent : List View} {v : View} {start : Nat} {data : List UInt8}
    {arena : Arena} (h : Lends first c lent) (hv : v ∈ lent)
    (hWrite : c.arena.write v start data = .ok arena) : Lends first { c with arena } lent

variable {o : ContextOptions} {fresh c : Context} {lent : List View} {text : String} {n : Name}

theorem houses_create (h : create o = .ok fresh) :
    fresh.arena.Houses fresh.strings.names [] := by
  obtain ⟨a, x, types, -, hStart, -, rfl⟩ := create_cases h
  have hHouses := a.houses_nil.start 0
  rw [hStart] at hHouses
  exact hHouses

/-- An operation keeps the names and what stays lent apart. -/
theorem houses_apply (h : c.arena.Houses c.strings.names lent) (op : ContextOp) :
    (op.apply c).2.arena.Houses (op.apply c).2.strings.names (op.lent lent) := by
  cases op with
  | strings op =>
    cases op with
    | intern text =>
      exact h.intern c.strings text fun n hn => or_iff_not_imp_left.mpr fun hOld => ⟨hn, hOld⟩
    | forget =>
      have hHouses := h.reset c.strings
      obtain ⟨x, hx, hReset⟩ := c.exists_resetStrings
      rw [hx] at hHouses
      simp only [ContextOp.apply, StringOp.apply, hReset]
      exact hHouses.subset (fun n hn => List.mem_append_right _ hn) fun _ hv => hv
    | _ => exact h
  | reset =>
    have hHouses := c.arena.reset.houses_nil.reset c.strings
    obtain ⟨x, hx, hReset⟩ := c.exists_reset
    rw [hx] at hHouses
    simp only [ContextOp.apply, hReset]
    exact hHouses
  | edit e =>
    rw [ContextOp.apply, Context.edit]
    split <;> exact h
  | symbols op => cases op <;> exact h
  | scopes op =>
    cases op with
    | within i action =>
      rw [ContextOp.apply, ScopeOp.apply]
      split <;> exact h
    | _ => exact h
  | log op => cases op <;> exact h
  | _ => exact h

theorem Lends.houses (hFirst : fresh.arena.Houses fresh.strings.names []) (h : fresh.Lends c lent) :
    c.arena.Houses c.strings.names lent := by
  induction h with
  | refl => exact hFirst
  | apply _ op ih => exact houses_apply ih op
  | request _ limit size alignment ih => exact ih.stays (Arena.stays_allocateWithin _ _ _ _)
  | lend _ hNew ih =>
    obtain ⟨k, hServed⟩ := Arena.served_allocateWithin hNew
    exact ih.lend hServed
  | write _ hv hWrite ih => exact ih.write hv hWrite

/-- Every text that is interned has a name with its bytes and a zero byte behind them, whatever was
done with the context and with the bytes that were handed out. The hash of the name is the FNV-1a
hash of these bytes in 32 bits: from the offset basis on, each byte is put in by exclusive or and
the result is multiplied by the prime. -/
theorem bytes_intact (hFresh : create o = .ok fresh) (hLends : fresh.Lends c lent)
    (hFound : c.strings.lookup? text = some n) :
    c.arena.read n.view = text.toUTF8.data.toList ∧
      c.arena.read { n.view with offset := n.view.offset + n.view.size, size := 1 } = [0] ∧
      n.hash = (c.arena.read n.view).foldl
        (fun hash byte => (hash ^^^ byte.toUInt32) * 0x01000193) (0x811c9dc5 : UInt32) := by
  have hHoused := (hLends.houses (houses_create hFresh)).names n (Interner.mem_of_lookup? hFound)
  rw [hHoused.read_eq, hHoused.hash_eq, ← Text.bytes_eq_toUTF8, Interner.text_of_lookup? hFound]
  exact ⟨rfl, hHoused.read_next, rfl⟩

/-- A name of a context where others were handed bytes and wrote there. -/
theorem bytes_intact_written :
    ∃ (fresh before c : Context) (v : View) (n : Name), create {} = .ok fresh ∧
      fresh.Lends c [v] ∧ before.arena.write v 0 [1, 2] = .ok c.arena ∧
      c.strings.lookup? "x" = some n ∧ c.arena.read n.view = "x".toUTF8.data.toList ∧
      c.arena.read { n.view with offset := n.view.offset + n.view.size, size := 1 } = [0] ∧
      n.hash = (c.arena.read n.view).foldl
        (fun hash byte => (hash ^^^ byte.toUInt32) * 0x01000193) (0x811c9dc5 : UInt32) := by
  obtain ⟨fresh, hFresh⟩ : ∃ fresh, create {} = .ok fresh :=
    exists_create (a := { blockSize := Arena.defaultBlockSize }) rfl (by decide) rfl
  have hNamed : fresh.Lends (fresh.intern "x").2 [] := Lends.refl.apply (.strings (.intern "x"))
  have hFound : (fresh.intern "x").2.strings.lookup? "x" = some (fresh.intern "x").1 :=
    fresh.strings.lookup?_intern fresh.arena "x"
  generalize fresh.intern "x" = named at hNamed hFound
  obtain ⟨x, arena, hNew, hSize⟩ : ∃ x arena,
      named.2.arena.allocateWithin (named.2.arena.newBlockSize 2 (2 ^ 0)) (.ofNat 2)
        (.ofNat (2 ^ 0)) = (.ok (some x), arena) ∧ x.view.size = 2 :=
    ⟨_, _, Arena.allocateWithin_eq_place (by decide) (Number.isPowerOfTwo_two_pow 0) le_rfl,
      congrArg View.size (named.2.arena.served_place 2 (Nat.two_pow_pos 0)).view_eq⟩
  have hWrite : arena.write x.view 0 [1, 2] = .ok _ := if_pos (hSize ▸ by decide)
  have hLends := (hNamed.lend hNew).write (List.mem_singleton_self _) hWrite
  exact ⟨fresh, { named.2 with arena }, _, x.view, named.1, hFresh, hLends, hWrite, hFound,
    bytes_intact hFresh hLends hFound⟩

end Context

end SemanticCore
