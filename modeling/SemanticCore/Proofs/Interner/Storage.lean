import SemanticCore.Proofs.Arena.Keeping
import SemanticCore.Proofs.Interner.Numbering

/-!
# The bytes of names

The bytes of a text, with a zero byte behind them, are put into a piece of the arena that is handed
out for them. So they can be read until the arena is reset, whatever else is interned, and interning
leaves what the arena keeps.

* `Interner.store_eq`: storing is handing out and writing.
* `Interner.holds_store`: the bytes that were stored.
* `Interner.stays_intern`, `Interner.stays_start`: what interning leaves.
-/

namespace SemanticCore

/-- The bytes of a text are its encoding as it stands in memory. -/
theorem Text.bytes_eq_toUTF8 (text : String) : Text.bytes text = text.toUTF8.data.toList := by
  rw [String.toUTF8, ← String.utf8Encode_toList, List.utf8Encode, List.data_toByteArray,
    List.toList_toArray]
  rfl

/-- The bytes at a view and the one behind them. -/
def View.closed (v : View) : View := { v with size := v.size + 1 }

namespace Arena

variable {a : Arena} {v w : View} {bytes : List UInt8} {x : UInt8}

theorem Keeps.of_closed (h : a.Keeps v.closed) : a.Keeps v :=
  h.imp id fun ⟨i, b, hPage, hBlock, hBelow⟩ => ⟨i, b, hPage, hBlock, Nat.le_of_succ_le hBelow⟩

/-- The byte behind a view is not part of it. -/
theorem read_closed (a : Arena) (v : View) : a.read v.closed = a.read v ++ [a.byte v v.size] := by
  rw [read, View.closed, List.range_succ, List.map_append]
  rfl

theorem Holds.of_closed (h : a.Holds v.closed (bytes ++ [x])) : a.Holds v bytes := by
  refine ⟨h.1.of_closed, ?_⟩
  have hRead := h.2
  rw [read_closed] at hRead
  exact (List.append_inj' hRead rfl).1

end Arena

theorem View.Apart.of_closed {v w : View} (h : v.closed.Apart w) : v.Apart w :=
  h.imp id fun hOut => hOut.imp (Nat.le_trans (Nat.add_le_add_left (Nat.le_succ _) _)) id

namespace Interner

open Arena

variable {a : Arena} {s : Interner} {v : View}

/-- A text is stored by handing out a piece for it and filling that. -/
theorem store_eq (a : Arena) (bytes : List UInt8) :
    ∃ x a', a.Served x (bytes.length + 1) a' ∧ (store a bytes).1.closed = x.view ∧
      a'.write x.view 0 (bytes ++ [0]) = .ok (store a bytes).2 := by
  have hServed := served_place a (bytes.length + 1) Nat.one_pos
  have hSize := congrArg View.size hServed.view_eq
  have hOffset := congrArg View.offset hServed.view_eq
  refine ⟨_, _, hServed, ?_, write_eq_ok.mpr ⟨?_, ?_⟩⟩
  · exact congrArg (fun n => { (a.place (bytes.length + 1) 1).1.view with size := n }) hSize.symm
  · rw [hSize, List.length_append, Nat.zero_add]
    exact Nat.le_refl _
  · rw [Nat.add_zero, hOffset]
    rfl

/-- The bytes of a text and the zero byte behind them can be read once they are stored. -/
theorem holds_store (a : Arena) (bytes : List UInt8) :
    (store a bytes).2.Holds (store a bytes).1.closed (bytes ++ [0]) := by
  obtain ⟨x, a', hServed, hView, hWrite⟩ := store_eq a bytes
  rw [hView]
  refine ⟨hServed.keeps.write hWrite, hServed.keeps.read_write hWrite rfl ?_⟩
  rw [hServed.view_eq, List.length_append]
  rfl

/-- Storing a text leaves what the arena keeps, and is done apart from it. -/
theorem stays_store (a : Arena) (bytes : List UInt8) :
    a.Stays (store a bytes).2 ∧ ∀ v, a.Keeps v → (store a bytes).1.closed.Apart v := by
  obtain ⟨x, a', hServed, hView, hWrite⟩ := store_eq a bytes
  rw [hView]
  refine ⟨fun v hv => ?_, fun v hv => (hServed.apart hv).symm⟩
  obtain ⟨hKeeps, hByte⟩ := hServed.stays v hv
  exact ⟨hKeeps.write hWrite, fun i hi =>
    (byte_write_of_apart hWrite hKeeps (hServed.apart hv) hi).trans (hByte i hi)⟩

theorem stays_intern (s : Interner) (a : Arena) (text : String) :
    a.Stays (s.intern a text).2.2 := by
  unfold Interner.intern
  split
  · exact .refl a
  · exact (stays_store a _).1

theorem stays_start (era : Nat) (a : Arena) : a.Stays (start era a).2 :=
  start_induction (P := fun _ a' => a.Stays a') era a (.refl a)
    (fun s a' text h => h.trans (s.stays_intern a' text)) fun _ _ _ _ _ _ h => h

theorem stays_reset (s : Interner) (a : Arena) : a.Stays (s.reset a).2 := by
  rw [reset]
  exact stays_start _ a

/-! ## What interning leaves of an arena -/

theorem kept_store (a : Arena) (bytes : List UInt8) : a.Kept (store a bytes).2 :=
  (a.kept_place _ _).trans (kept_modifyPage _ _ _)

theorem kept_intern (s : Interner) (a : Arena) (text : String) :
    a.Kept (s.intern a text).2.2 := by
  unfold Interner.intern
  split
  · exact .refl a
  · exact kept_store a _

theorem kept_start (era : Nat) (a : Arena) : a.Kept (start era a).2 :=
  start_induction (P := fun _ a' => a.Kept a') era a (.refl a)
    (fun s a' text h => h.trans (s.kept_intern a' text)) fun _ _ _ _ _ _ h => h

theorem kept_reset (s : Interner) (a : Arena) : a.Kept (s.reset a).2 := by
  rw [reset]
  exact kept_start _ a

end Interner

end SemanticCore
