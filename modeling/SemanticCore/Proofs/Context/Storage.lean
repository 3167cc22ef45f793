import SemanticCore.Proofs.Interner.Housing

/-!
# What is stored in a context

The names of a context and the bytes that it hands out lie in one arena. What can be read of them
depends on where they lie only as far as nobody saw to it: a piece that is handed out has the bytes
that were there before until it is written to, and once the arena is reset, what was handed out
before may be handed out again, so that what is written there may come to lie in other pieces. All
other bytes are the same wherever they lie.

* `Holding`: a piece that was handed out; `Storage`: all of them, with the names and the arena.
* `StorageEvent`: what changes them, and what is known of the bytes.
* `Storage.Safe`: the pieces and the names do not overlap; `Storage.Safe.apply`.
* `Storage.Alike`: two of which the same was asked; `Storage.Alike.apply`.
-/

namespace SemanticCore

/-! ## Pieces -/

/-- Bytes that were handed out: where they are, whether the arena was not reset since, and the
stretches of them that were written since, each with its start and its length. -/
structure Holding where
  view : View
  live : Bool := true
  written : List (Nat × Nat) := []

namespace Holding

/-- The byte at a place was written since it was handed out, and the arena was not reset since. -/
def knows (h : Holding) (i : Nat) : Bool :=
  h.live && h.written.any fun (start, count) => start ≤ i && i < start + count

def expire (h : Holding) : Holding := { h with live := false }

def record (h : Holding) (start count : Nat) : Holding :=
  { h with written := (start, count) :: h.written }

def blank (h : Holding) : Holding := { h with written := [] }

/-- The same piece in two arenas: what is known of its bytes is the same. -/
structure Same (a a' : Arena) (h h' : Holding) : Prop where
  live_eq : h'.live = h.live
  written_eq : h'.written = h.written
  size_eq : h'.view.size = h.view.size
  byte_eq : ∀ i < h.view.size, h.knows i = true → a'.byte h'.view i = a.byte h.view i

variable {a a' b b' : Arena} {h h' : Holding}

theorem knows_record (h : Holding) (start count i : Nat) :
    (h.record start count).knows i = true ↔
      h.live = true ∧ (start ≤ i ∧ i < start + count ∨ h.knows i = true) := by
  simp only [knows, record, List.any_cons, Bool.and_eq_true, Bool.or_eq_true, decide_eq_true_eq]
  tauto

namespace Same

theorem knows_eq (hSame : Same a a' h h') : h'.knows = h.knows :=
  funext fun i => by rw [knows, knows, hSame.live_eq, hSame.written_eq]

theorem expire (hSame : Same a a' h h') : Same b b' h.expire h'.expire where
  live_eq := rfl
  written_eq := hSame.written_eq
  size_eq := hSame.size_eq
  byte_eq _ _ hKnows := by cases hKnows

theorem blank (hSame : Same a a' h h') : Same b b' h.blank h'.blank where
  live_eq := hSame.live_eq
  written_eq := rfl
  size_eq := hSame.size_eq
  byte_eq _ _ hKnows := by simp [knows, Holding.blank] at hKnows

/-- Of a new piece nothing is known. -/
theorem new {v v' : View} (hSize : v'.size = v.size) :
    Same a a' { view := v } { view := v' } where
  live_eq := rfl
  written_eq := rfl
  size_eq := hSize
  byte_eq _ _ hKnows := by simp [knows] at hKnows

/-- What is known stays if no byte of a live piece changes. -/
theorem transfer (hSame : Same a a' h h')
    (hByte : h.live = true → ∀ i < h.view.size, b.byte h.view i = a.byte h.view i)
    (hByte' : h'.live = true → ∀ i < h'.view.size, b'.byte h'.view i = a'.byte h'.view i) :
    Same b b' h h' where
  live_eq := hSame.live_eq
  written_eq := hSame.written_eq
  size_eq := hSame.size_eq
  byte_eq i hi hKnows := by
    have hLive : h.live = true := (Bool.and_eq_true_iff.mp hKnows).1
    rw [hByte hLive i hi, hByte' (hSame.live_eq.trans hLive) i (hSame.size_eq ▸ hi)]
    exact hSame.byte_eq i hi hKnows

/-- Writing the same to both makes the same known. -/
theorem record (hSame : Same a a' h h') {start : Nat} {data : List UInt8}
    (hKeeps : h.live = true → a.Keeps h.view) (hKeeps' : h'.live = true → a'.Keeps h'.view)
    (hWrite : a.write h.view start data = .ok b) (hWrite' : a'.write h'.view start data = .ok b') :
    Same b b' (h.record start data.length) (h'.record start data.length) where
  live_eq := hSame.live_eq
  written_eq := congrArg ((start, data.length) :: ·) hSame.written_eq
  size_eq := hSame.size_eq
  byte_eq i hi hKnows := by
    obtain ⟨hLive, hKnown⟩ := (h.knows_record start data.length i).mp hKnows
    show b'.byte h'.view i = b.byte h.view i
    rw [(hKeeps hLive).byte_write hWrite, (hKeeps' (hSame.live_eq.trans hLive)).byte_write hWrite']
    split
    · rfl
    · rename_i hOut
      exact hSame.byte_eq i hi (hKnown.resolve_left hOut)

end Same

end Holding

/-! ## Storage -/

/-- The names and the arena of a context, the pieces that were handed out, in order, and the names
whose bytes are known. -/
structure Storage where
  strings : Interner
  arena : Arena
  held : List Holding := []
  sure : List Name := []

/-- What is done with the names and the bytes: a text is interned, the names are forgotten, the
arena is reset or cleared, bytes are handed out, and bytes are written to a piece. -/
inductive StorageEvent where
  | intern (text : String)
  | forget
  | resetArena
  | clearArena
  | allocate (size alignment : Number)
  | write (slot start : Nat) (data : List UInt8)

namespace Storage

/-- The names that are new can be read. -/
def gain (x : Storage) (strings : Interner) (arena : Arena) : Storage :=
  { x with
    strings
    arena
    sure := x.sure ++ strings.names.filter (· ∉ x.strings.names) }

/-- All that was handed out before may be handed out again. -/
def lapse (x : Storage) : Storage := { x with held := x.held.map Holding.expire, sure := [] }

/-- Any of the bytes may have been written over. -/
def blur (x : Storage) : Storage := { x with held := x.held.map Holding.blank, sure := [] }

/-- Hands out bytes, as there is memory enough. -/
def serve (x : Storage) (size alignment : Number) : Except ArenaError (Option Allocation) × Arena :=
  x.arena.allocateWithin (x.arena.enough size alignment) size alignment

def allocate (x : Storage) (size alignment : Number) : Storage :=
  match x.serve size alignment with
  | (.ok (some served), arena) => { x with arena, held := x.held ++ [{ view := served.view }] }
  | (_, arena) => { x with arena }

/-- Writes to a piece. What does not fit is not written. Where a piece from before a reset lies, any
other may lie now. -/
def write (x : Storage) (slot start : Nat) (data : List UInt8) : Storage :=
  match x.held[slot]? with
  | none => x
  | some h =>
    match x.arena.write h.view start data with
    | .error _ => x
    | .ok arena =>
      if h.live then { x with arena, held := x.held.set slot (h.record start data.length) }
      else { x.blur with arena }

end Storage

def StorageEvent.apply (x : Storage) : StorageEvent → Storage
  | intern text => x.gain (x.strings.intern x.arena text).2.1 (x.strings.intern x.arena text).2.2
  | forget => x.gain (x.strings.reset x.arena).1 (x.strings.reset x.arena).2
  | resetArena => { x.lapse with arena := x.arena.reset }
  | clearArena => { x with arena := x.arena.clear }
  | allocate size alignment => x.allocate size alignment
  | write slot start data => x.write slot start data

namespace Storage

def run (es : List StorageEvent) (x : Storage) : Storage := es.foldl StorageEvent.apply x

variable {x x' : Storage} {es : List StorageEvent}

theorem run_append (es more : List StorageEvent) (x : Storage) :
    run (es ++ more) x = run more (run es x) := List.foldl_append

theorem strings_gain (x : Storage) (strings : Interner) (arena : Arena) :
    (x.gain strings arena).strings = strings := rfl

theorem arena_gain (x : Storage) (strings : Interner) (arena : Arena) :
    (x.gain strings arena).arena = arena := rfl

-- Proofs rewrite with this: to compare what a reset makes by computation would intern all names.
theorem apply_forget (x : Storage) : StorageEvent.forget.apply x =
    x.gain (x.strings.reset x.arena).1 (x.strings.reset x.arena).2 := by
  rw [StorageEvent.apply]

/-! ## Serving -/

theorem serve_cases (x : Storage) (size alignment : Number) :
    (∃ served arena k, x.serve size alignment = (.ok (some served), arena) ∧
        x.arena.Served served k arena ∧
        x.allocate size alignment =
          { x with arena, held := x.held ++ [{ view := served.view }] }) ∨
      ∃ answer arena, x.serve size alignment = (answer, arena) ∧
        (∀ served, answer ≠ .ok (some served)) ∧
        x.allocate size alignment = { x with arena } := by
  unfold allocate
  generalize hServe : x.serve size alignment = r
  obtain ⟨answer, arena⟩ := r
  cases answer with
  | error e => exact .inr ⟨_, arena, rfl, nofun, rfl⟩
  | ok found =>
    cases found with
    | none => exact .inr ⟨_, arena, rfl, nofun, rfl⟩
    | some served =>
      obtain ⟨k, hServed⟩ := Arena.served_allocateWithin hServe
      exact .inl ⟨served, arena, k, rfl, hServed, rfl⟩

theorem strings_allocate (x : Storage) (size alignment : Number) :
    (x.allocate size alignment).strings = x.strings := by
  rcases x.serve_cases size alignment with ⟨_, _, _, -, -, hNext⟩ | ⟨_, _, -, -, hNext⟩ <;>
    rw [hNext]

theorem stays_serve (x : Storage) (size alignment : Number) :
    x.arena.Stays (x.serve size alignment).2 := x.arena.stays_allocateWithin _ _ _

theorem kept_allocate (x : Storage) (size alignment : Number) :
    x.arena.Kept (x.allocate size alignment).arena := by
  have hKept := x.arena.kept_allocateWithin (x.arena.enough size alignment) size alignment
  rcases x.serve_cases size alignment with
      ⟨_, _, _, hServe, -, hNext⟩ | ⟨_, _, hServe, -, hNext⟩ <;>
    (rw [← serve, hServe] at hKept; rw [hNext]; exact hKept)

theorem write_cases (x : Storage) (slot start : Nat) (data : List UInt8) :
    x.write slot start data = x ∨ ∃ h arena, x.held[slot]? = some h ∧
      x.arena.write h.view start data = .ok arena ∧
      (h.live = true ∧ x.write slot start data =
          { x with arena, held := x.held.set slot (h.record start data.length) } ∨
        h.live = false ∧ x.write slot start data = { x.blur with arena }) := by
  unfold write
  cases x.held[slot]? with
  | none => exact .inl rfl
  | some h =>
    cases hWrite : x.arena.write h.view start data with
    | error e => exact .inl (by simp only [hWrite])
    | ok arena =>
      refine .inr ⟨h, arena, rfl, hWrite, ?_⟩
      simp only [hWrite]
      cases hLive : h.live with
      | true => exact .inl ⟨rfl, by rw [if_pos rfl]⟩
      | false => exact .inr ⟨rfl, by rw [if_neg Bool.false_ne_true]⟩

theorem write_of_lt {slot start : Nat} {data : List UInt8} {h : Holding}
    (hHeld : x.held[slot]? = some h) (hLt : h.view.size < start + data.length) :
    x.write slot start data = x := by
  have hRefused : x.arena.write h.view start data = .error .outOfBounds :=
    if_neg (Nat.not_le.mpr hLt)
  simp only [write, hHeld, hRefused]

/-- Writing changes the arena alone, of what is not about pieces. -/
theorem stored_write (x : Storage) (slot start : Nat) (data : List UInt8) :
    (x.write slot start data).strings = x.strings ∧
      ((x.write slot start data).arena = x.arena ∨ ∃ h, x.held[slot]? = some h ∧
        x.arena.write h.view start data = .ok (x.write slot start data).arena) := by
  rcases x.write_cases slot start data with
    hNext | ⟨h, arena, hHeld, hWrite, ⟨-, hNext⟩ | ⟨-, hNext⟩⟩ <;> rw [hNext]
  · exact ⟨rfl, .inl rfl⟩
  · exact ⟨rfl, .inr ⟨h, hHeld, hWrite⟩⟩
  · exact ⟨rfl, .inr ⟨h, hHeld, hWrite⟩⟩

theorem kept_write (x : Storage) (slot start : Nat) (data : List UInt8) :
    x.arena.Kept (x.write slot start data).arena := by
  rcases (x.stored_write slot start data).2 with hNext | ⟨_, -, hWrite⟩
  · rw [hNext]
    exact .refl _
  · exact Arena.kept_write hWrite

/-! ## Pieces and names that do not overlap -/

/-- The pieces that were handed out since the arena was last reset. -/
def lent (x : Storage) : List View := (x.held.filter (·.live)).map (·.view)

theorem mem_lent {v : View} : v ∈ x.lent ↔ ∃ h ∈ x.held, h.live = true ∧ h.view = v := by
  simp [lent, and_assoc]

theorem mem_sure_gain (x : Storage) (strings : Interner) (arena : Arena) :
    ∀ n ∈ (x.gain strings arena).sure, n ∈ x.sure ++ strings.names :=
  fun _ hn => (List.append_sublist_append_left x.sure).mpr (List.filter_sublist) |>.mem hn

/-- No live piece overlaps another one or a name that is sure, and all of them are kept. -/
structure Safe (x : Storage) : Prop where
  housed : x.arena.Houses x.sure x.lent
  apart : ∀ (j k : Nat) (h h' : Holding), x.held[j]? = some h → x.held[k]? = some h' → j ≠ k →
    h.live = true → h'.live = true → h.view.Apart h'.view

namespace Safe

variable {h : Holding} {k : Nat}

theorem keeps (hSafe : x.Safe) (hHeld : x.held[k]? = some h) (hLive : h.live = true) :
    x.arena.Keeps h.view :=
  hSafe.housed.lent _ (mem_lent.mpr ⟨h, List.mem_of_getElem? hHeld, hLive, rfl⟩)

theorem stays (hSafe : x.Safe) {arena : Arena} (hStays : x.arena.Stays arena) :
    Safe { x with arena } :=
  ⟨hSafe.housed.stays hStays, hSafe.apart⟩

theorem gain (hSafe : x.Safe) {strings : Interner} {arena : Arena} {names : List Name}
    (hHouses : arena.Houses names x.lent)
    (hSure : ∀ n ∈ (x.gain strings arena).sure, n ∈ names) : (x.gain strings arena).Safe :=
  ⟨hHouses.subset hSure fun _ hv => hv, hSafe.apart⟩

theorem lapse (x : Storage) (arena : Arena) : Safe { x.lapse with arena } := by
  have hNone : ∀ (k : Nat) (h : Holding), x.lapse.held[k]? = some h → h.live = false := by
    intro k h hHeld
    rw [Storage.lapse, List.getElem?_map, Option.map_eq_some_iff] at hHeld
    obtain ⟨h, -, rfl⟩ := hHeld
    rfl
  have hLent : Storage.lent { x.lapse with arena } = [] := by
    rw [List.eq_nil_iff_forall_not_mem]
    intro v hv
    obtain ⟨h, hHeld, hLive, -⟩ := mem_lent.mp hv
    obtain ⟨k, hk⟩ := List.mem_iff_getElem?.mp hHeld
    rw [hNone k h hk] at hLive
    cases hLive
  refine ⟨?_, fun j k h h' hj _ _ hLive => ?_⟩
  · rw [hLent]
    exact arena.houses_nil
  · rw [hNone j h hj] at hLive
    cases hLive

theorem allocate (hSafe : x.Safe) (size alignment : Number) : (x.allocate size alignment).Safe := by
  rcases x.serve_cases size alignment with
    ⟨served, arena, count, -, hServed, hNext⟩ | ⟨answer, arena, hServe, -, hNext⟩
  · rw [hNext]
    refine ⟨(hSafe.housed.lend hServed).subset (fun _ hn => hn) fun v hv => ?_, ?_⟩
    · obtain ⟨h, hHeld, hLive, rfl⟩ := mem_lent.mp hv
      rcases List.mem_append.mp hHeld with hHeld | hHeld
      · exact List.mem_append_left _ (mem_lent.mpr ⟨h, hHeld, hLive, rfl⟩)
      · rw [List.mem_singleton.mp hHeld]
        exact List.mem_append_right _ (List.mem_singleton_self _)
    · -- the new piece is the last one
      have hCases : ∀ (k : Nat) (h : Holding), (x.held ++ [{ view := served.view }])[k]? = some h →
          x.held[k]? = some h ∨ k = x.held.length ∧ h.view = served.view := by
        intro k h hHeld
        rw [List.getElem?_append] at hHeld
        split at hHeld
        · exact .inl hHeld
        · obtain ⟨hLt, hLast⟩ := List.getElem?_eq_some_iff.mp hHeld
          rw [List.length_singleton] at hLt
          rw [List.getElem_singleton] at hLast
          exact .inr ⟨by omega, by rw [← hLast]⟩
      intro j k h h' hj hk hNe hLive hLive'
      rcases hCases j h hj with hj | ⟨hLast, hView⟩ <;>
        rcases hCases k h' hk with hk | ⟨hLast', hView'⟩
      · exact hSafe.apart j k h h' hj hk hNe hLive hLive'
      · exact hView' ▸ hServed.apart (hSafe.keeps hj hLive)
      · exact hView ▸ (hServed.apart (hSafe.keeps hk hLive')).symm
      · exact absurd (hLast.trans hLast'.symm) hNe
  · have hStays := x.stays_serve size alignment
    rw [hServe] at hStays
    rw [hNext]
    exact hSafe.stays hStays

/-- Other pieces, and perhaps other names, if each live one was there before with the same view. -/
theorem transfer (hSafe : x.Safe) {held : List Holding} {arena : Arena} {sure : List Name}
    (hHouses : arena.Houses sure x.lent)
    (hOld : ∀ (k : Nat) (g : Holding), held[k]? = some g →
      ∃ f, x.held[k]? = some f ∧ g.view = f.view ∧ g.live = f.live) :
    Safe { x with arena, held, sure } := by
  refine ⟨hHouses.subset (fun _ hn => hn) fun v hv => ?_, fun j k g g' hj hk hNe hLive hLive' => ?_⟩
  · obtain ⟨g, hg, hLive, rfl⟩ := mem_lent.mp hv
    obtain ⟨k, hk⟩ := List.mem_iff_getElem?.mp hg
    obtain ⟨f, hf, hView, hSame⟩ := hOld k g hk
    exact mem_lent.mpr ⟨f, List.mem_of_getElem? hf, hSame ▸ hLive, hView.symm⟩
  · obtain ⟨f, hf, hView, hSame⟩ := hOld j g hj
    obtain ⟨f', hf', hView', hSame'⟩ := hOld k g' hk
    rw [hView, hView']
    exact hSafe.apart j k f f' hf hf' hNe (hSame ▸ hLive) (hSame' ▸ hLive')

theorem write (hSafe : x.Safe) (slot start : Nat) (data : List UInt8) :
    (x.write slot start data).Safe := by
  rcases x.write_cases slot start data with
    hNext | ⟨h, arena, hHeld, hWrite, ⟨hLive, hNext⟩ | ⟨-, hNext⟩⟩ <;> rw [hNext]
  · exact hSafe
  · have hView : h.view ∈ x.lent := mem_lent.mpr ⟨h, List.mem_of_getElem? hHeld, hLive, rfl⟩
    refine hSafe.transfer (hSafe.housed.write hView hWrite) fun k g hg => ?_
    rw [List.getElem?_set] at hg
    split at hg
    · rename_i hEq
      split at hg
      · cases hg
        exact ⟨h, hEq ▸ hHeld, rfl, rfl⟩
      · cases hg
    · exact ⟨g, hg, rfl, rfl⟩
  · have hHouses : arena.Houses [] x.lent :=
      ⟨by simp, fun v hv => (hSafe.housed.lent v hv).write hWrite⟩
    refine hSafe.transfer hHouses fun k g hg => ?_
    rw [blur, List.getElem?_map, Option.map_eq_some_iff] at hg
    obtain ⟨f, hf, rfl⟩ := hg
    exact ⟨f, hf, rfl, rfl⟩

/-- What is done keeps names and pieces from overlapping. -/
theorem apply (hSafe : x.Safe) (e : StorageEvent) : (e.apply x).Safe := by
  cases e with
  | intern text =>
    refine hSafe.gain (hSafe.housed.intern x.strings text fun n hn => ?_) fun _ hn => hn
    refine (List.mem_append.mp hn).imp id fun hn => ?_
    obtain ⟨hMem, hFresh⟩ := List.mem_filter.mp hn
    exact ⟨hMem, by simpa using hFresh⟩
  | forget =>
    rw [apply_forget]
    exact hSafe.gain (hSafe.housed.reset x.strings) (x.mem_sure_gain _ _)
  | resetArena => exact .lapse x _
  | clearArena => exact hSafe.stays x.arena.stays_clear
  | allocate size alignment => exact hSafe.allocate size alignment
  | write slot start data => exact hSafe.write slot start data

end Safe

/-! ## Names -/

/-- The names change when a text is interned and when they start over, and never else. -/
theorem strings_cases (e : StorageEvent) :
    (∃ text, ∀ x : Storage, (e.apply x).strings = (x.strings.intern x.arena text).2.1) ∨
      (∀ x : Storage, (e.apply x).strings = (x.strings.reset x.arena).1) ∨
      ∀ x : Storage, (e.apply x).strings = x.strings := by
  cases e with
  | intern text => exact .inl ⟨text, fun _ => rfl⟩
  | forget => exact .inr (.inl fun x => by rw [apply_forget, strings_gain])
  | allocate size alignment => exact .inr (.inr fun x => x.strings_allocate size alignment)
  | write slot start data => exact .inr (.inr fun x => (x.stored_write slot start data).1)
  | _ => exact .inr (.inr fun _ => rfl)

theorem settled_apply (h : x.strings.Settled) (e : StorageEvent) :
    (e.apply x).strings.Settled := by
  rcases strings_cases e with ⟨text, hNext⟩ | hNext | hNext <;> rw [hNext]
  · exact h.intern x.arena text
  · exact .reset _ _
  · exact h

theorem extends_apply (x : Storage) (e : StorageEvent) : x.strings.Extends (e.apply x).strings := by
  rcases strings_cases e with ⟨text, hNext⟩ | hNext | hNext <;> rw [hNext]
  · exact x.strings.extends_intern x.arena text
  · exact x.strings.extends_reset _
  · exact .refl _

theorem parallel_apply {eras : Nat} (h : x.strings.Parallel eras x'.strings) (e : StorageEvent) :
    (e.apply x).strings.Parallel eras (e.apply x').strings := by
  rcases strings_cases e with ⟨text, hNext⟩ | hNext | hNext <;> rw [hNext, hNext]
  · exact h.intern _ _ text
  · exact h.reset _ _
  · exact h

theorem settled_run (h : x.strings.Settled) (es : List StorageEvent) :
    (run es x).strings.Settled := by
  induction es generalizing x with
  | nil => exact h
  | cons e es ih => exact ih (settled_apply h e)

theorem extends_run (x : Storage) (es : List StorageEvent) :
    x.strings.Extends (run es x).strings := by
  induction es generalizing x with
  | nil => exact .refl _
  | cons e es ih => exact (x.extends_apply e).trans (ih _)

theorem parallel_run {eras : Nat} (h : x.strings.Parallel eras x'.strings)
    (es : List StorageEvent) : (run es x).strings.Parallel eras (run es x').strings := by
  induction es generalizing x x' with
  | nil => exact h
  | cons e es ih => exact ih (parallel_apply h e)

/-- What two interners become while the same is done with both. -/
theorem history {eras : Nat} (h : x.strings.Parallel eras x'.strings) (hs : x.strings.Settled)
    (hs' : x'.strings.Settled) (es : List StorageEvent) :
    Interner.History eras fun s s' =>
      ∃ past, past <+: es ∧ s = (run past x).strings ∧ s' = (run past x').strings where
  parallel := by
    rintro _ _ ⟨past, -, rfl, rfl⟩
    exact parallel_run h past
  settled := by
    rintro _ _ ⟨past, -, rfl, rfl⟩
    exact ⟨settled_run hs past, settled_run hs' past⟩
  total := by
    have hLater : ∀ past later : List StorageEvent, past <+: later → ∀ x : Storage,
        (run past x).strings.Extends (run later x).strings := by
      rintro past _ ⟨more, rfl⟩ x
      rw [run_append]
      exact extends_run _ _
    rintro _ _ _ _ ⟨past, hPast, rfl, rfl⟩ ⟨later, hLater', rfl, rfl⟩
    exact (List.prefix_or_prefix_of_prefix hPast hLater').imp
      (fun hPrefix => ⟨hLater _ _ hPrefix x, hLater _ _ hPrefix x'⟩)
      fun hPrefix => ⟨hLater _ _ hPrefix x, hLater _ _ hPrefix x'⟩

/-! ## Emptying the arena -/

end Storage

/-- An event that empties the arena. -/
def StorageEvent.empties : StorageEvent → Bool
  | resetArena | clearArena => true
  | _ => false

namespace Storage

/-- What is done keeps the size of blocks, and counts how often the arena is emptied. -/
theorem counted_apply (e : StorageEvent) (x : Storage) :
    (e.apply x).arena.blockSize = x.arena.blockSize ∧
      (e.apply x).arena.generation = x.arena.generation + if e.empties then 1 else 0 := by
  have hKept : ∀ {a a' : Arena}, a.Kept a' →
      a'.blockSize = a.blockSize ∧ a'.generation = a.generation :=
    fun h => ⟨h.blockSize_eq, h.generation_eq⟩
  cases e with
  | intern text => exact hKept (x.strings.kept_intern x.arena text)
  | forget =>
    rw [apply_forget, arena_gain]
    exact hKept (x.strings.kept_reset x.arena)
  | resetArena => exact ⟨rfl, rfl⟩
  | clearArena => exact ⟨rfl, rfl⟩
  | allocate size alignment => exact hKept (x.kept_allocate size alignment)
  | write slot start data => exact hKept (x.kept_write slot start data)

theorem generation_run (es : List StorageEvent) (x : Storage) :
    (run es x).arena.generation = x.arena.generation + es.countP StorageEvent.empties := by
  induction es generalizing x with
  | nil => rfl
  | cons e es ih =>
    have hRun := ih (e.apply x)
    rw [(counted_apply e x).2, Nat.add_assoc, Nat.add_comm (ite _ _ _)] at hRun
    rw [List.countP_cons]
    exact hRun

/-! ## Two of which the same was asked -/

/-- The same names are sure, and of each piece the same is known. -/
structure Alike (ρ : Renaming) (x x' : Storage) : Prop where
  sure_eq : x'.sure = x.sure.map ρ.name
  length_eq : x'.held.length = x.held.length
  same : ∀ (k : Nat) (h h' : Holding), x.held[k]? = some h → x'.held[k]? = some h' →
    Holding.Same x.arena x'.arena h h'
  safe : x.Safe
  safe' : x'.Safe

namespace Alike

variable {ρ : Renaming} {arena arena' : Arena} {strings strings' : Interner}

section

variable (h : Alike ρ x x')

include h

/-- There is a piece in a slot of both or of neither. -/
theorem held_cases (slot : Nat) : (x.held[slot]? = none ∧ x'.held[slot]? = none) ∨
    ∃ g g', x.held[slot]? = some g ∧ x'.held[slot]? = some g' := by
  rcases Nat.lt_or_ge slot x.held.length with hLt | hGe
  · exact .inr ⟨_, _, List.getElem?_eq_getElem hLt,
      List.getElem?_eq_getElem (h.length_eq.symm ▸ hLt)⟩
  · exact .inl ⟨List.getElem?_eq_none hGe, List.getElem?_eq_none (h.length_eq.symm ▸ hGe)⟩

theorem same_of_stays (hStays : x.arena.Stays arena) (hStays' : x'.arena.Stays arena') (k : Nat)
    (g g' : Holding) (hHeld : x.held[k]? = some g) (hHeld' : x'.held[k]? = some g') :
    Holding.Same arena arena' g g' :=
  (h.same k g g' hHeld hHeld').transfer
    (fun hLive => (hStays _ (h.safe.keeps hHeld hLive)).2)
    fun hLive => (hStays' _ (h.safe'.keeps hHeld' hLive)).2

/-- No piece is handed out, and none is changed. -/
theorem stays (hStays : x.arena.Stays arena) (hStays' : x'.arena.Stays arena') :
    Alike ρ { x with arena } { x' with arena := arena' } where
  sure_eq := h.sure_eq
  length_eq := h.length_eq
  same := h.same_of_stays hStays hStays'
  safe := h.safe.stays hStays
  safe' := h.safe'.stays hStays'

/-- Nothing is known of names any more, and of pieces no more than what is left of them. -/
theorem map_held {f : Holding → Holding}
    (hSame : ∀ {g g'}, Holding.Same x.arena x'.arena g g' → Holding.Same arena arena' (f g) (f g'))
    (hSafe : Safe { x with arena, held := x.held.map f, sure := [] })
    (hSafe' : Safe { x' with arena := arena', held := x'.held.map f, sure := [] }) :
    Alike ρ { x with arena, held := x.held.map f, sure := [] }
      { x' with arena := arena', held := x'.held.map f, sure := [] } where
  sure_eq := rfl
  length_eq := by simpa using h.length_eq
  same k g g' hHeld hHeld' := by
    rw [List.getElem?_map, Option.map_eq_some_iff] at hHeld hHeld'
    obtain ⟨g, hHeld, rfl⟩ := hHeld
    obtain ⟨g', hHeld', rfl⟩ := hHeld'
    exact hSame (h.same k g g' hHeld hHeld')
  safe := hSafe
  safe' := hSafe'

/-- After a reset of the arena nothing is known of what was handed out before. -/
theorem lapse (arena arena' : Arena) :
    Alike ρ { x.lapse with arena } { x'.lapse with arena := arena' } :=
  h.map_held .expire (.lapse x arena) (.lapse x' arena')

/-- When any of the bytes may have been written over, nothing is known of the pieces. -/
theorem blur (hSafe : Safe { x.blur with arena }) (hSafe' : Safe { x'.blur with arena := arena' }) :
    Alike ρ { x.blur with arena } { x'.blur with arena := arena' } :=
  h.map_held .blank hSafe hSafe'

/-- The same names are new in two interners that were alike and are alike again. -/
theorem gain (hOld : x.strings.Alike ρ x'.strings) (hNew : strings.Alike ρ strings')
    (hStays : x.arena.Stays arena) (hStays' : x'.arena.Stays arena')
    (hSafe : (x.gain strings arena).Safe) (hSafe' : (x'.gain strings' arena').Safe) :
    Alike ρ (x.gain strings arena) (x'.gain strings' arena') where
  sure_eq := by
    have hFresh : (fun n => decide (n ∉ x'.strings.names)) ∘ ρ.name =
        fun n => decide (n ∉ x.strings.names) := by
      funext n
      rw [Function.comp_apply, hOld.names_eq, decide_eq_decide,
        List.mem_map_of_injective ρ.name_injective]
    simp only [Storage.gain, h.sure_eq, hNew.names_eq, List.map_append, List.filter_map, hFresh]
  length_eq := h.length_eq
  same := h.same_of_stays hStays hStays'
  safe := hSafe
  safe' := hSafe'

end

/-- A request is served by both or by neither. -/
theorem serve_eq (x x' : Storage) (size alignment : Number) :
    (x'.serve size alignment).1.map (Option.map fun served => served.view.size) =
      (x.serve size alignment).1.map (Option.map fun served => served.view.size) := by
  rw [serve, serve, Arena.allocateWithin_eq_request, Arena.allocateWithin_eq_request]

theorem allocate (h : Alike ρ x x') (size alignment : Number) :
    Alike ρ (x.allocate size alignment) (x'.allocate size alignment) := by
  have hSafe := h.safe.allocate size alignment
  have hSafe' := h.safe'.allocate size alignment
  have hServe := serve_eq x x' size alignment
  have hStays := x.stays_serve size alignment
  have hStays' := x'.stays_serve size alignment
  rcases x.serve_cases size alignment with
      ⟨served, arena, -, hEq, -, hNext⟩ | ⟨answer, arena, hEq, hNone, hNext⟩ <;>
    rcases x'.serve_cases size alignment with
      ⟨served', arena', -, hEq', -, hNext'⟩ | ⟨answer', arena', hEq', hNone', hNext'⟩ <;>
    rw [hEq] at hServe hStays <;> rw [hEq'] at hServe hStays' <;>
    rw [hNext] at hSafe ⊢ <;> rw [hNext'] at hSafe' ⊢
  · have hSize : served'.view.size = served.view.size := by
      simpa [Except.map] using hServe
    refine ⟨h.sure_eq, by simp [h.length_eq], fun k g g' hHeld hHeld' => ?_, hSafe, hSafe'⟩
    rcases Nat.lt_or_ge k x.held.length with hLt | hGe
    · have hLt' : k < x'.held.length := h.length_eq.symm ▸ hLt
      rw [List.getElem?_append_left hLt] at hHeld
      rw [List.getElem?_append_left hLt'] at hHeld'
      exact h.same_of_stays hStays hStays' k g g' hHeld hHeld'
    · -- the new piece is the last one
      rw [List.getElem?_append_right hGe] at hHeld
      rw [List.getElem?_append_right (h.length_eq.symm ▸ hGe)] at hHeld'
      rw [List.mem_singleton.mp (List.mem_of_getElem? hHeld),
        List.mem_singleton.mp (List.mem_of_getElem? hHeld')]
      exact .new hSize
  · exact absurd hServe (by
      rcases answer' with e | _ | served'
      · simp [Except.map]
      · simp [Except.map]
      · exact absurd rfl (hNone' served'))
  · exact absurd hServe (by
      rcases answer with e | _ | served
      · simp [Except.map]
      · simp [Except.map]
      · exact absurd rfl (hNone served))
  · exact h.stays hStays hStays'

/-- Both write the same to a live piece. Other pieces have no byte in common with it. -/
theorem record (h : Alike ρ x x') {slot start : Nat} {data : List UInt8} {g g' : Holding}
    (hHeld : x.held[slot]? = some g) (hHeld' : x'.held[slot]? = some g') (hLive : g.live = true)
    (hWrite : x.arena.write g.view start data = .ok arena)
    (hWrite' : x'.arena.write g'.view start data = .ok arena')
    (hSafe : Safe { x with arena, held := x.held.set slot (g.record start data.length) })
    (hSafe' :
      Safe { x' with arena := arena', held := x'.held.set slot (g'.record start data.length) }) :
    Alike ρ { x with arena, held := x.held.set slot (g.record start data.length) }
      { x' with arena := arena', held := x'.held.set slot (g'.record start data.length) } := by
  have hSame := h.same slot g g' hHeld hHeld'
  have hLive' : g'.live = true := hSame.live_eq.trans hLive
  refine ⟨h.sure_eq, by simp [h.length_eq], fun k f f' hf hf' => ?_, hSafe, hSafe'⟩
  rw [List.getElem?_set] at hf hf'
  by_cases hk : slot = k
  · rw [if_pos hk] at hf hf'
    split at hf <;> split at hf' <;> cases hf <;> cases hf'
    exact hSame.record (h.safe.keeps hHeld) (h.safe'.keeps hHeld') hWrite hWrite'
  · rw [if_neg hk] at hf hf'
    exact (h.same k f f' hf hf').transfer
      (fun hKept i hi => Arena.byte_write_of_apart hWrite (h.safe.keeps hf hKept)
        (h.safe.apart k slot f g hf hHeld (Ne.symm hk) hKept hLive) hi)
      fun hKept i hi => Arena.byte_write_of_apart hWrite' (h.safe'.keeps hf' hKept)
        (h.safe'.apart k slot f' g' hf' hHeld' (Ne.symm hk) hKept hLive') hi

theorem write (h : Alike ρ x x') (slot start : Nat) (data : List UInt8) :
    Alike ρ (x.write slot start data) (x'.write slot start data) := by
  have hSafe := h.safe.write slot start data
  have hSafe' := h.safe'.write slot start data
  rcases h.held_cases slot with ⟨hNone, hNone'⟩ | ⟨g, g', hHeld, hHeld'⟩
  · simpa only [Storage.write, hNone, hNone'] using h
  · have hSame := h.same slot g g' hHeld hHeld'
    by_cases hFits : start + data.length ≤ g.view.size
    · obtain ⟨arena, hWrite⟩ : ∃ arena, x.arena.write g.view start data = .ok arena :=
        ⟨_, Arena.write_eq_ok.mpr ⟨hFits, rfl⟩⟩
      obtain ⟨arena', hWrite'⟩ : ∃ arena', x'.arena.write g'.view start data = .ok arena' :=
        ⟨_, Arena.write_eq_ok.mpr ⟨hSame.size_eq.symm ▸ hFits, rfl⟩⟩
      simp only [Storage.write, hHeld, hHeld', hWrite, hWrite', hSame.live_eq] at hSafe hSafe' ⊢
      cases hLive : g.live with
      | true =>
        simp only [hLive, if_true] at hSafe hSafe' ⊢
        exact h.record hHeld hHeld' hLive hWrite hWrite' hSafe hSafe'
      | false =>
        simp only [hLive, Bool.false_eq_true, if_false] at hSafe hSafe' ⊢
        exact h.blur hSafe hSafe'
    · rw [write_of_lt hHeld (by omega), write_of_lt hHeld' (by rw [hSame.size_eq]; omega)]
      exact h

/-- What is done with both keeps them alike, if it gives alike names. -/
theorem apply (h : Alike ρ x x') {e : StorageEvent}
    (hOld : x.strings.Alike ρ x'.strings)
    (hNew : (e.apply x).strings.Alike ρ (e.apply x').strings) :
    Alike ρ (e.apply x) (e.apply x') := by
  have hSafe := h.safe.apply e
  have hSafe' := h.safe'.apply e
  cases e with
  | intern text =>
    exact h.gain hOld hNew (x.strings.stays_intern _ text) (x'.strings.stays_intern _ text) hSafe
      hSafe'
  | forget =>
    rw [apply_forget, apply_forget, strings_gain, strings_gain] at hNew
    rw [apply_forget] at hSafe hSafe'
    rw [apply_forget, apply_forget]
    exact h.gain hOld hNew (x.strings.stays_reset _) (x'.strings.stays_reset _) hSafe hSafe'
  | resetArena => exact h.lapse _ _
  | clearArena => exact h.stays x.arena.stays_clear x'.arena.stays_clear
  | allocate size alignment => exact h.allocate size alignment
  | write slot start data => exact h.write slot start data

end Alike

end Storage

end SemanticCore
