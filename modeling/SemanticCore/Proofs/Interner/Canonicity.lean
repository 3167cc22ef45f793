import SemanticCore.Proofs.Interner.Placement

/-!
# Names and texts

Between two resets every text has one name, which it gets when it is asked for first. So the table
of an interner, the numbers of its names, the bytes that it counts and the names that it takes for
built-in ones can all be told from the texts that it was asked for since it was last reset.

* `NameCall`: what is asked of an interner. The arena may be any at each call.
* `NameHistory`: an interner and the texts that it was asked to intern.
* `NameHistory.Canonical`: how the interner agrees with these texts; `NameHistory.canonical_run`:
  it does so after every run.
-/

namespace SemanticCore

/-- What is asked of an interner. What is stored goes to the arena as it is then. -/
inductive NameCall where
  | intern (arena : Arena) (text : String)
  | lookup (text : String)
  | builtin (text : String)
  | reset (arena : Arena)

def NameCall.resets : NameCall → Bool
  | reset _ => true
  | _ => false

/-- An interner, and the texts that it was asked to intern since it was last reset, in order. -/
structure NameHistory where
  strings : Interner
  asked : List String

namespace NameHistory

/-- A new interner asks for the empty text and the built-in names itself. -/
def start (era : Nat) (a : Arena) : NameHistory where
  strings := (Interner.start era a).1
  asked := "" :: Builtin.names

/-- The answer to a call, and what comes after it. -/
def step (h : NameHistory) : NameCall → Option Name × NameHistory
  | .intern a text =>
    (some (h.strings.intern a text).1,
      { strings := (h.strings.intern a text).2.1, asked := h.asked ++ [text] })
  | .lookup text => (h.strings.lookup? text, h)
  | .builtin text => (h.strings.builtin? text, h)
  | .reset a => (none, start (h.strings.era + 1) a)

def run (calls : List NameCall) (h : NameHistory) : NameHistory :=
  calls.foldl (fun h call => (h.step call).2) h

end NameHistory

/-! ## The texts that were asked for -/

namespace Interner

variable {s : Interner} {asked : List String} {text : String} {n : Name}

/-- A text is put at the end unless it was asked for before. -/
theorem texts_intern_asked (h : s.texts = asked.eraseDups) (a : Arena) (text : String) :
    (s.intern a text).2.1.texts = (asked ++ [text]).eraseDups := by
  rw [texts_intern, h, List.eraseDups_append, List.removeAll]
  by_cases hText : text ∈ asked <;> simp [hText, List.eraseDups_cons]

theorem texts_internAll_asked (h : s.texts = asked.eraseDups) (a : Arena) (texts : List String) :
    (s.internAll a texts).2.1.texts = (asked ++ texts).eraseDups := by
  induction texts generalizing s asked a with
  | nil => rw [List.append_nil]; exact h
  | cons text texts ih =>
    have hRest := ih (texts_intern_asked h a text) (s.intern a text).2.2
    rw [List.append_assoc] at hRest
    exact hRest

/-- The keywords are built-in names, so that interning them once more adds none. -/
theorem texts_start_asked (era : Nat) (a : Arena) :
    (start era a).1.texts = ("" :: Builtin.names).eraseDups := by
  obtain ⟨first, all, keywords, hFirst, hBuiltins, hKeywords, hStart⟩ := exists_start era a
  have hNone : texts { era } = List.eraseDups [] := rfl
  have hEmpty := texts_intern_asked hNone a ""
  rw [hFirst] at hEmpty
  have hAll := texts_internAll_asked hEmpty first.2.2 Builtin.names
  rw [hBuiltins] at hAll
  have hMore := texts_internAll_asked hAll all.2.2 Builtin.keywords
  rw [hKeywords] at hMore
  have hOld : Builtin.keywords.removeAll ([] ++ [""] ++ Builtin.names) = [] := by
    rw [List.removeAll, List.filter_eq_nil_iff]
    intro t ht
    simp [Builtin.names, ht]
  rw [List.eraseDups_append, hOld, List.eraseDups_nil, List.append_nil] at hMore
  rw [hStart]
  exact hMore

namespace Settled

variable (h : s.Settled)

include h

theorem numbered : s.names.map Name.id = List.range s.names.length := by
  refine List.ext_getElem (by simp) fun i hi hi' => ?_
  have hLt : i < s.names.length := by simpa using hi
  rw [List.getElem_map, List.getElem_range,
    (h.filed i _ (List.getElem?_eq_getElem hLt)).1, entry]

theorem era_eq (hn : n ∈ s.names) : n.era = s.era := by
  obtain ⟨i, hi⟩ := List.mem_iff_getElem?.mp hn
  rw [(h.filed i n hi).1, entry]

/-- The name of the empty text is the first one. -/
theorem empty_eq (hTexts : s.texts.head? = some "") :
    s.names[0]? = some s.empty ∧ s.empty.id = 0 ∧ s.empty.text = "" := by
  rw [texts, List.head?_map] at hTexts
  obtain ⟨n, hHead, hText⟩ := Option.map_eq_some_iff.mp hTexts
  obtain ⟨ns, hNames⟩ := List.head?_eq_some_iff.mp hHead
  have hFound : s.lookup? "" = some n := by
    rw [lookup?, hNames, List.find?_cons_of_pos (by simp [hText])]
  have hFirst : s.names[0]? = some n := by rw [hNames, List.getElem?_cons_zero]
  obtain rfl : s.empty = n := Option.some.inj (h.seeded.empty.symm.trans hFound)
  refine ⟨hFirst, ?_, hText⟩
  rw [(h.filed 0 _ hFirst).1, entry]

theorem memoryUsed_eq : s.memoryUsed = (s.texts.map fun t => t.toUTF8.size + 1).sum := by
  rw [h.counted, texts, List.map_map]
  refine congrArg List.sum (List.map_congr_left fun n hn => ?_)
  obtain ⟨i, hi⟩ := List.mem_iff_getElem?.mp hn
  rw [Name.length, (h.filed i n hi).2, Text.bytes_eq_toUTF8]
  rfl

omit h in
theorem contains_iff {found : List Name} {texts : List String}
    (hFound : found.map some = texts.map s.lookup?) :
    found.contains n = true ↔ ∃ t ∈ texts, s.lookup? t = some n := by
  rw [List.contains_iff_mem, ← List.mem_map, ← hFound,
    List.mem_map_of_injective (Option.some_injective Name)]

/-- The names that are taken for built-in ones are those that the built-in texts have now. -/
theorem isBuiltin_iff : s.isBuiltin n = true ↔ ∃ t ∈ Builtin.names, s.lookup? t = some n :=
  contains_iff h.seeded.builtinNames

theorem isKeyword_iff : s.isKeyword n = true ↔ ∃ t ∈ Builtin.keywords, s.lookup? t = some n :=
  contains_iff h.seeded.keywordNames

theorem builtin?_eq (text : String) :
    s.builtin? text = if text ∈ Builtin.names then s.lookup? text else none := by
  rw [builtin?]
  cases hFound : s.lookup? text with
  | none => simp
  | some n =>
    have hBuiltin : s.isBuiltin n = true ↔ text ∈ Builtin.names := by
      rw [h.isBuiltin_iff]
      constructor
      · rintro ⟨t, ht, hName⟩
        rw [← text_of_lookup? hFound, text_of_lookup? hName]
        exact ht
      · exact fun ht => ⟨text, ht, hFound⟩
    by_cases hText : text ∈ Builtin.names
    · rw [Option.filter_some, if_pos (hBuiltin.mpr hText), if_pos hText]
    · rw [Option.filter_some, if_neg (mt hBuiltin.mp hText), if_neg hText]

end Settled

end Interner

/-! ## Runs -/

namespace NameHistory

variable {h : NameHistory} {n : Name}

/-- How an interner agrees with the texts that it was asked for. -/
structure Canonical (h : NameHistory) : Prop where
  /-- The table has every text once, in the order in which they were asked for first. -/
  texts_eq : h.strings.names.map Name.text = h.asked.eraseDups
  ids_eq : h.strings.names.map Name.id = List.range h.strings.count
  empty_eq : h.strings.names[0]? = some h.strings.empty ∧ h.strings.empty.id = 0 ∧
    h.strings.empty.text = ""
  lookup?_isSome : ∀ t, (h.strings.lookup? t).isSome = true ↔ t ∈ h.asked
  lookup?_eq : ∀ t n, h.strings.lookup? t = some n → n ∈ h.strings.names ∧ n.text = t
  /-- Looking up changes nothing. -/
  lookup_kept : ∀ t, (h.step (.lookup t)).2 = h ∧ (h.step (.builtin t)).2 = h
  /-- Two requests without a reset in between get the same name exactly for the same text. -/
  intern_eq_iff : ∀ a t calls a' t', calls.all (!·.resets) = true →
    (((run calls (h.step (.intern a t)).2).step (.intern a' t')).1 = (h.step (.intern a t)).1 ↔
      t' = t)
  memoryUsed_eq : h.strings.memoryUsed = (h.asked.eraseDups.map fun t => t.toUTF8.size + 1).sum
  isBuiltin_iff : ∀ n, h.strings.isBuiltin n = true ↔
    ∃ t ∈ Builtin.names, h.strings.lookup? t = some n
  isKeyword_iff : ∀ n, h.strings.isKeyword n = true ↔
    ∃ t ∈ Builtin.keywords, h.strings.lookup? t = some n
  builtin?_eq : ∀ t, h.strings.builtin? t =
    if t ∈ Builtin.names then h.strings.lookup? t else none
  /-- No name from before a reset is taken for a built-in one after it. -/
  stale : ∀ n ∈ h.strings.names, ∀ calls, calls.any NameCall.resets = true →
    (run calls h).strings.isBuiltin n = false ∧ (run calls h).strings.isKeyword n = false

/-- What every call keeps. -/
structure Kept (h : NameHistory) : Prop where
  settled : h.strings.Settled
  texts_eq : h.strings.texts = h.asked.eraseDups
  empty_first : [""] <+: h.asked

theorem kept_start (era : Nat) (a : Arena) : (start era a).Kept := by
  have hSettled := Interner.settled_start era a
  have hTexts := Interner.texts_start_asked era a
  rw [start]
  generalize (Interner.start era a).1 = s at hSettled hTexts
  exact ⟨hSettled, hTexts, List.prefix_append [""] _⟩

theorem Kept.step (hKept : h.Kept) (call : NameCall) : (h.step call).2.Kept := by
  cases call with
  | intern a text =>
    exact ⟨hKept.settled.intern a text, Interner.texts_intern_asked hKept.texts_eq a text,
      hKept.empty_first.trans (List.prefix_append _ _)⟩
  | lookup text => exact hKept
  | builtin text => exact hKept
  | reset a =>
    rw [NameHistory.step]
    exact kept_start _ a

theorem Kept.run (hKept : h.Kept) (calls : List NameCall) : (run calls h).Kept := by
  induction calls generalizing h with
  | nil => exact hKept
  | cons call rest ih => exact ih (hKept.step call)

/-- Names are only added until the next reset, which begins a new era. -/
theorem step_cases (h : NameHistory) (call : NameCall) :
    (call.resets = false ∧ (h.step call).2.strings.era = h.strings.era ∧
      h.strings.names <+: (h.step call).2.strings.names) ∨
    (call.resets = true ∧ (h.step call).2.strings.era = h.strings.era + 1) := by
  cases call with
  | intern a text =>
    exact .inl ⟨rfl, h.strings.era_intern a text, h.strings.names_prefix_intern a text⟩
  | lookup text => exact .inl ⟨rfl, rfl, List.prefix_rfl⟩
  | builtin text => exact .inl ⟨rfl, rfl, List.prefix_rfl⟩
  | reset a =>
    have hEra := Interner.era_start (h.strings.era + 1) a
    rw [step, start]
    generalize (Interner.start (h.strings.era + 1) a).1 = s at hEra
    exact .inr ⟨rfl, hEra⟩

theorem names_prefix_run {calls : List NameCall} (hCalls : calls.all (!·.resets) = true) :
    h.strings.names <+: (run calls h).strings.names := by
  induction calls generalizing h with
  | nil => exact List.prefix_rfl
  | cons call rest ih =>
    obtain ⟨hCall, hRest⟩ := by simpa only [List.all_cons, Bool.and_eq_true] using hCalls
    rcases h.step_cases call with ⟨-, -, hPrefix⟩ | ⟨hResets, -⟩
    · exact hPrefix.trans (ih hRest)
    · rw [hResets] at hCall
      cases hCall

theorem era_run (h : NameHistory) (calls : List NameCall) :
    (run calls h).strings.era = h.strings.era + calls.countP NameCall.resets := by
  induction calls generalizing h with
  | nil => rfl
  | cons call rest ih =>
    rw [run, List.foldl_cons, ← run, ih, List.countP_cons]
    rcases h.step_cases call with ⟨hResets, hEra, -⟩ | ⟨hResets, hEra⟩
    · rw [hEra, hResets, if_neg Bool.false_ne_true, Nat.add_zero]
    · rw [hEra, hResets, if_pos rfl, Nat.add_assoc, Nat.add_comm 1]

theorem intern_eq_iff (h : NameHistory) (a : Arena) (t : String) {calls : List NameCall}
    (hCalls : calls.all (!·.resets) = true) (a' : Arena) (t' : String) :
    ((run calls (h.step (.intern a t)).2).step (.intern a' t')).1 =
      (h.step (.intern a t)).1 ↔ t' = t := by
  have hFirst := Interner.lookup?_mono
    (names_prefix_run (h := (h.step (.intern a t)).2) hCalls) (h.strings.lookup?_intern a t)
  generalize run calls (h.step (.intern a t)).2 = later at hFirst
  show some _ = some _ ↔ t' = t
  rw [Option.some_inj]
  constructor
  · intro hSame
    have hSecond := Interner.text_of_lookup? (later.strings.lookup?_intern a' t')
    rw [← hSecond, hSame, Interner.text_of_lookup? hFirst]
  · rintro rfl
    rw [Interner.intern_of_some hFirst]

theorem Kept.stale (hKept : h.Kept) (hn : n ∈ h.strings.names) {calls : List NameCall}
    (hCalls : calls.any NameCall.resets = true) :
    (NameHistory.run calls h).strings.isBuiltin n = false ∧
      (NameHistory.run calls h).strings.isKeyword n = false := by
  have hLater := (hKept.run calls).settled
  have hNone : ∀ t, (NameHistory.run calls h).strings.lookup? t ≠ some n := by
    intro t hFound
    have hEra := hLater.era_eq (Interner.mem_of_lookup? hFound)
    rw [era_run, hKept.settled.era_eq hn] at hEra
    have hPos : 0 < calls.countP NameCall.resets :=
      List.countP_pos_iff.mpr (by simpa using hCalls)
    omega
  refine ⟨Bool.eq_false_iff.mpr fun hBuiltin => ?_, Bool.eq_false_iff.mpr fun hKeyword => ?_⟩
  · obtain ⟨t, -, hFound⟩ := hLater.isBuiltin_iff.mp hBuiltin
    exact hNone t hFound
  · obtain ⟨t, -, hFound⟩ := hLater.isKeyword_iff.mp hKeyword
    exact hNone t hFound

/-- An interner agrees with the texts that it was asked for after every run. -/
theorem canonical_run (era : Nat) (a : Arena) (calls : List NameCall) :
    (run calls (start era a)).Canonical := by
  have hKept := (kept_start era a).run calls
  generalize run calls (start era a) = h at hKept
  have hSettled := hKept.settled
  obtain ⟨rest, hRest⟩ := hKept.empty_first
  have hTexts : h.strings.texts.head? = some "" := by
    rw [hKept.texts_eq, ← hRest, List.singleton_append, List.eraseDups_cons, List.head?_cons]
  exact
    { texts_eq := hKept.texts_eq
      ids_eq := hSettled.numbered
      empty_eq := hSettled.empty_eq hTexts
      lookup?_isSome := fun t => by
        rw [Interner.lookup?_isSome, hKept.texts_eq, List.contains_iff_mem, List.mem_eraseDups]
      lookup?_eq := fun t n hFound =>
        ⟨Interner.mem_of_lookup? hFound, Interner.text_of_lookup? hFound⟩
      lookup_kept := fun t => ⟨rfl, rfl⟩
      intern_eq_iff := fun a t calls a' t' hCalls => h.intern_eq_iff a t hCalls a' t'
      memoryUsed_eq := hKept.texts_eq ▸ hSettled.memoryUsed_eq
      isBuiltin_iff := fun n => hSettled.isBuiltin_iff
      isKeyword_iff := fun n => hSettled.isKeyword_iff
      builtin?_eq := hSettled.builtin?_eq
      stale := fun n hn calls hCalls => hKept.stale hn hCalls }

end NameHistory

end SemanticCore
