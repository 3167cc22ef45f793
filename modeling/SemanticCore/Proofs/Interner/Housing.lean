import SemanticCore.Proofs.Interner.Placement

/-!
# Names among other bytes

The bytes of names lie in blocks that others use as well. Whoever is handed bytes may write there at
any time, and nowhere else. No piece that is handed out has a byte in common with an earlier one, so
the bytes of names, and the zero bytes behind them, are out of the reach of the others.

* `Name.Housed`: the bytes of a name are there, apart from what is lent to others.
* `Arena.Houses`: the arena holds some names, apart from the views that are lent; interning, handing
  out bytes and writing to what is lent keep this.
-/

namespace SemanticCore

variable {a a' : Arena} {names more : List Name} {lent : List View} {n : Name} {v : View}
  {x : Allocation} {size offset : Nat} {data : List UInt8}

/-- The arena holds the bytes of a name and a zero byte behind them, apart from the views that are
lent to others. -/
structure Name.Housed (n : Name) (lent : List View) (a : Arena) : Prop where
  holds : a.Holds n.view.closed (Text.bytes n.text ++ [0])
  size_eq : n.view.size = (Text.bytes n.text).length
  hash_eq : n.hash = Hash.fnv1a (Text.bytes n.text)
  apart : ∀ v ∈ lent, n.view.closed.Apart v

namespace Name.Housed

theorem read_eq (h : n.Housed lent a) : a.read n.view = Text.bytes n.text := h.holds.of_closed.2

/-- A zero byte is behind the bytes of a name. -/
theorem read_next (h : n.Housed lent a) :
    a.read { n.view with offset := n.view.offset + n.view.size, size := 1 } = [0] := by
  have hRead := h.holds.2
  rw [Arena.read_closed] at hRead
  exact (List.append_inj' hRead rfl).2

end Name.Housed

namespace Arena

/-- The arena holds some names, and keeps the views that are lent to others. -/
structure Houses (a : Arena) (names : List Name) (lent : List View) : Prop where
  names : ∀ n ∈ names, n.Housed lent a
  lent : ∀ v ∈ lent, a.Keeps v

theorem houses_nil (a : Arena) : a.Houses [] [] := ⟨by simp, by simp⟩

namespace Houses

variable (h : a.Houses names lent)

include h

/-- It holds fewer names apart from fewer views as well. -/
theorem subset {fewer : List View} (hMore : ∀ n ∈ more, n ∈ names)
    (hFewer : ∀ v ∈ fewer, v ∈ lent) : a.Houses more fewer where
  names n hn :=
    { h.names n (hMore n hn) with
      apart := fun v hv => (h.names n (hMore n hn)).apart v (hFewer v hv) }
  lent v hv := h.lent v (hFewer v hv)

theorem stays (hStays : a.Stays a') : a'.Houses names lent where
  names n hn := { h.names n hn with holds := (h.names n hn).holds.stays hStays }
  lent v hv := (hStays v (h.lent v hv)).1

/-- What is handed out can be lent to others. -/
theorem lend (hServed : a.Served x size a') : a'.Houses names (lent ++ [x.view]) := by
  have hKept := h.stays hServed.stays
  refine ⟨fun n hn => { hKept.names n hn with apart := fun v hv => ?_ }, fun v hv => ?_⟩
  · rcases List.mem_append.mp hv with hv | hv
    · exact (h.names n hn).apart v hv
    · rw [List.mem_singleton.mp hv]
      exact hServed.apart (h.names n hn).holds.1
  · rcases List.mem_append.mp hv with hv | hv
    · exact hKept.lent v hv
    · rw [List.mem_singleton.mp hv]
      exact hServed.keeps

/-- Writing to a view that is lent leaves the bytes of names. -/
theorem write (hv : v ∈ lent) (hWrite : a.write v offset data = .ok a') :
    a'.Houses names lent where
  names n hn :=
    { h.names n hn with
      holds := (h.names n hn).holds.write hWrite ((h.names n hn).apart v hv) }
  lent w hw := (h.lent w hw).write hWrite

/-- A name whose bytes are stored is apart from what was lent before. -/
theorem store (era id : Nat) (text : String) :
    (Interner.entry era id text (Interner.store a (Text.bytes text)).1).Housed lent
      (Interner.store a (Text.bytes text)).2 where
  holds := Interner.holds_store a _
  size_eq := rfl
  hash_eq := rfl
  apart v hv := (Interner.stays_store a _).2 v (h.lent v hv)

/-- With the names that the arena holds, it holds those that interning adds. -/
theorem intern (s : Interner) (text : String)
    (hMore : ∀ n ∈ more, n ∈ names ∨ n ∈ (s.intern a text).2.1.names ∧ n ∉ s.names) :
    (s.intern a text).2.2.Houses more lent := by
  have hKept := h.stays (s.stays_intern a text)
  refine ⟨fun n hn => ?_, hKept.lent⟩
  rcases hMore n hn with hOld | ⟨hNew, hOld⟩
  · exact hKept.names n hOld
  · revert hNew
    unfold Interner.intern
    split
    · exact fun hNew => absurd hNew hOld
    · intro hNew
      rcases List.mem_append.mp hNew with hNew | hNew
      · exact absurd hNew hOld
      · rw [List.mem_singleton.mp hNew]
        exact h.store s.era s.names.length text

/-- With the names that the arena holds, it holds those of an interner that starts. -/
theorem start (era : Nat) :
    (Interner.start era a).2.Houses (names ++ (Interner.start era a).1.names) lent := by
  refine Interner.start_induction (P := fun s a => a.Houses (names ++ s.names) lent) era a ?_
    (fun s a text hHouses => hHouses.intern s text fun n hn => ?_) fun _ _ _ _ _ _ hHouses =>
      hHouses
  · exact h.subset (fun n hn => by simpa using hn) fun _ hv => hv
  · by_cases hOld : n ∈ s.names
    · exact .inl (List.mem_append_right _ hOld)
    · exact (List.mem_append.mp hn).imp (List.mem_append_left _) fun hNew => ⟨hNew, hOld⟩

theorem reset (s : Interner) :
    (s.reset a).2.Houses (names ++ (s.reset a).1.names) lent := by
  rw [Interner.reset]
  exact h.start (s.era + 1)

end Houses

end Arena

end SemanticCore
