import SemanticCore.Proofs.Interner.Storage
import SemanticCore.Proofs.Renaming.Values

/-!
# Names of two interners

Two interners of which the same is asked have names of the same texts, with the same numbers and
hashes. They differ in the eras, by as many as one was reset more often before, and in where the
bytes lie. Within an era a name keeps its place, so one renaming takes all names that the one ever
has to those of the other (`Interner.History.exists_place`).

* `Interner.Filed`: what the names of an interner are, up to where their bytes lie.
* `Interner.Seeded`: the empty text and the built-in names are interned.
* `Interner.Alike`: interners that are alike up to a renaming.
* `Interner.Extends`: what an interner can become; `Interner.Parallel`: two of the same texts.
-/

namespace SemanticCore

namespace Interner

variable {s s' : Interner} {a : Arena} {text : String} {n : Name}

/-! ## What one request does -/

theorem mem_of_lookup? (h : s.lookup? text = some n) : n ∈ s.names := List.mem_of_find?_eq_some h

theorem text_of_lookup? (h : s.lookup? text = some n) : n.text = text := by
  simpa using List.find?_some h

/-- The name of a text of an era with a number, whose bytes are at a view. -/
def entry (era id : Nat) (text : String) (view : View) : Name :=
  { era, id, text, hash := Hash.fnv1a (Text.bytes text), view }

theorem intern_of_some (h : s.lookup? text = some n) : s.intern a text = (n, s, a) := by
  rw [intern, h]

theorem intern_of_none (h : s.lookup? text = none) :
    ∃ view a', view.size = (Text.bytes text).length ∧
      s.intern a text = (entry s.era s.names.length text view,
        { s with
          names := s.names ++ [entry s.era s.names.length text view]
          memoryUsed := s.memoryUsed + (view.size + 1) }, a') := by
  refine ⟨(store a (Text.bytes text)).1, (store a (Text.bytes text)).2, rfl, ?_⟩
  rw [intern, h]
  rfl

theorem era_intern (s : Interner) (a : Arena) (text : String) :
    (s.intern a text).2.1.era = s.era := by
  unfold intern
  split <;> rfl

theorem names_prefix_intern (s : Interner) (a : Arena) (text : String) :
    s.names <+: (s.intern a text).2.1.names := by
  unfold intern
  split
  · exact List.prefix_rfl
  · exact List.prefix_append _ _

theorem era_start (era : Nat) (a : Arena) : (start era a).1.era = era :=
  start_induction (P := fun s _ => s.era = era) era a rfl
    (fun s a text h => (s.era_intern a text).trans h) fun _ _ _ _ _ _ h => h

/-! ## What names are -/

/-- Names are made of their era, place and text, and have as many bytes as their text. -/
def Filed (s : Interner) : Prop :=
  ∀ (i : Nat) (n : Name), s.names[i]? = some n →
    n = entry s.era i n.text n.view ∧ n.view.size = (Text.bytes n.text).length

theorem Filed.intern (h : s.Filed) (a : Arena) (text : String) : (s.intern a text).2.1.Filed := by
  cases hFound : s.lookup? text with
  | some n =>
    rw [intern_of_some hFound]
    exact h
  | none =>
    obtain ⟨view, a', hView, hIntern⟩ := intern_of_none (a := a) hFound
    rw [hIntern]
    intro i n hn
    rw [List.getElem?_append] at hn
    split at hn
    · exact h i n hn
    · obtain ⟨hLt, hLast⟩ := List.getElem?_eq_some_iff.mp hn
      rw [List.length_singleton] at hLt
      obtain rfl : i = s.names.length := by omega
      rw [List.getElem_singleton] at hLast
      subst hLast
      exact ⟨rfl, hView⟩

theorem filed_start (era : Nat) (a : Arena) : (start era a).1.Filed := by
  have hNew : Filed { era } := by
    intro i n hn
    cases hn
  exact start_induction (P := fun s _ => s.Filed) era a hNew
    (fun _ a text h => h.intern a text) fun _ _ _ _ _ _ h => h

/-- The bytes of all texts are counted, and a zero byte for each. -/
def Counted (s : Interner) : Prop := s.memoryUsed = (s.names.map fun n => n.length + 1).sum

theorem Counted.intern (h : s.Counted) (a : Arena) (text : String) :
    (s.intern a text).2.1.Counted := by
  cases hFound : s.lookup? text with
  | some n =>
    rw [intern_of_some hFound]
    exact h
  | none =>
    obtain ⟨view, a', -, hIntern⟩ := intern_of_none (a := a) hFound
    rw [hIntern, Counted, h, List.map_append, List.sum_append]
    rfl

theorem counted_start (era : Nat) (a : Arena) : (start era a).1.Counted :=
  start_induction (P := fun s _ => s.Counted) era a rfl (fun _ a text h => h.intern a text)
    fun _ _ _ _ _ _ h => h

/-! ## What is found -/

/-- A text that is found stays found. -/
theorem lookup?_mono (h : s.names <+: s'.names) (hn : s.lookup? text = some n) :
    s'.lookup? text = some n := by
  obtain ⟨more, hMore⟩ := h
  rw [lookup?] at hn
  rw [lookup?, ← hMore, List.find?_append, hn, Option.some_or]

theorem lookup?_intern (s : Interner) (a : Arena) (text : String) :
    (s.intern a text).2.1.lookup? text = some (s.intern a text).1 := by
  cases hFound : s.lookup? text with
  | some n =>
    rw [intern_of_some hFound]
    exact hFound
  | none =>
    obtain ⟨view, a', -, hIntern⟩ := intern_of_none (a := a) hFound
    rw [lookup?] at hFound
    rw [hIntern, lookup?, List.find?_append, hFound, Option.none_or, List.find?_singleton]
    exact if_pos (beq_self_eq_true text)

theorem internAll_spec (s : Interner) (a : Arena) (texts : List String) :
    s.names <+: (s.internAll a texts).2.1.names ∧
      (s.internAll a texts).1.map Prod.fst = texts ∧
      ∀ entry ∈ (s.internAll a texts).1,
        (s.internAll a texts).2.1.lookup? entry.1 = some entry.2 := by
  induction texts generalizing s a with
  | nil => exact ⟨List.prefix_rfl, rfl, by simp [internAll]⟩
  | cons text texts ih =>
    obtain ⟨hPrefix, hTexts, hFound⟩ := ih (s.intern a text).2.1 (s.intern a text).2.2
    refine ⟨(s.names_prefix_intern a text).trans hPrefix, congrArg (text :: ·) hTexts, ?_⟩
    intro entry hEntry
    rcases List.mem_cons.mp hEntry with rfl | hEntry
    · exact lookup?_mono hPrefix (s.lookup?_intern a text)
    · exact hFound entry hEntry

/-- Under texts that all are found, the same names are found later. -/
theorem map_lookup?_mono (h : s.names <+: s'.names) {found : List Name} {texts : List String}
    (hFound : found.map some = texts.map s.lookup?) : found.map some = texts.map s'.lookup? := by
  rw [hFound]
  refine List.map_congr_left fun t ht => ?_
  have hMem : s.lookup? t ∈ found.map some := hFound ▸ List.mem_map_of_mem ht
  obtain ⟨n, -, hn⟩ := List.mem_map.mp hMem
  rw [← hn, lookup?_mono h hn.symm]

/-- The empty text and the built-in names are found among the names, and it is noted which names
are those of the built-in texts and of the keywords. -/
structure Seeded (s : Interner) : Prop where
  empty : s.lookup? "" = some s.empty
  builtins : ∀ entry ∈ s.builtins, s.lookup? entry.1 = some entry.2
  texts : s.builtins.map Prod.fst = Builtin.names
  builtinNames : s.builtinNames.map some = Builtin.names.map s.lookup?
  keywordNames : s.keywordNames.map some = Builtin.keywords.map s.lookup?

theorem map_snd_internAll (s : Interner) (a : Arena) (texts : List String) :
    ((s.internAll a texts).1.map Prod.snd).map some =
      texts.map (s.internAll a texts).2.1.lookup? := by
  obtain ⟨-, hTexts, hFound⟩ := internAll_spec s a texts
  have hMap := congrArg (List.map (s.internAll a texts).2.1.lookup?) hTexts
  rw [← hMap, List.map_map, List.map_map]
  exact List.map_congr_left fun entry hEntry => (hFound entry hEntry).symm

theorem seeded_start (era : Nat) (a : Arena) : (start era a).1.Seeded := by
  obtain ⟨first, all, keywords, hFirst, hAll, hKeywords, hStart⟩ := exists_start era a
  obtain ⟨hPrefix, hTexts, hFound⟩ := internAll_spec first.2.1 first.2.2 Builtin.names
  have hNames := map_snd_internAll first.2.1 first.2.2 Builtin.names
  rw [hAll] at hPrefix hTexts hFound hNames
  obtain ⟨hLater, -, -⟩ := internAll_spec all.2.1 all.2.2 Builtin.keywords
  have hWords := map_snd_internAll all.2.1 all.2.2 Builtin.keywords
  rw [hKeywords] at hLater hWords
  have hEmpty := lookup?_intern { era } a ""
  rw [hFirst] at hEmpty
  rw [hStart]
  exact ⟨lookup?_mono (hPrefix.trans hLater) hEmpty,
    fun entry hEntry => lookup?_mono hLater (hFound entry hEntry), hTexts,
    map_lookup?_mono hLater hNames, hWords⟩

theorem empty_mem_start (era : Nat) (a : Arena) : (start era a).1.empty ∈ (start era a).1.names :=
  mem_of_lookup? (seeded_start era a).empty

theorem Seeded.intern (h : s.Seeded) (a : Arena) (text : String) :
    (s.intern a text).2.1.Seeded := by
  have hPrefix := s.names_prefix_intern a text
  have hSame : (s.intern a text).2.1.empty = s.empty ∧
      (s.intern a text).2.1.builtins = s.builtins ∧
      (s.intern a text).2.1.builtinNames = s.builtinNames ∧
      (s.intern a text).2.1.keywordNames = s.keywordNames := by
    unfold Interner.intern
    split <;> exact ⟨rfl, rfl, rfl, rfl⟩
  obtain ⟨hEmpty, hBuiltins, hNames, hKeywords⟩ := hSame
  refine ⟨?_, ?_, hBuiltins ▸ h.texts, ?_, ?_⟩
  · rw [hEmpty]
    exact lookup?_mono hPrefix h.empty
  · rw [hBuiltins]
    exact fun entry hEntry => lookup?_mono hPrefix (h.builtins entry hEntry)
  · rw [hNames]
    exact map_lookup?_mono hPrefix h.builtinNames
  · rw [hKeywords]
    exact map_lookup?_mono hPrefix h.keywordNames

/-! ## Texts -/

def texts (s : Interner) : List String := s.names.map Name.text

theorem lookup?_isSome (s : Interner) (text : String) :
    (s.lookup? text).isSome = s.texts.contains text := by
  rw [lookup?, texts, Bool.eq_iff_iff, List.find?_isSome, List.contains_iff_mem, List.mem_map]
  simp only [beq_iff_eq]

/-- The texts after one was interned depend on the texts before alone. -/
theorem texts_intern (s : Interner) (a : Arena) (text : String) :
    (s.intern a text).2.1.texts =
      if s.texts.contains text then s.texts else s.texts ++ [text] := by
  rw [← lookup?_isSome]
  unfold intern
  cases s.lookup? text with
  | some n => rfl
  | none => simp [texts]

theorem texts_internAll (h : s'.texts = s.texts) (a a' : Arena) (texts : List String) :
    (s'.internAll a' texts).2.1.texts = (s.internAll a texts).2.1.texts := by
  induction texts generalizing s s' a a' with
  | nil => exact h
  | cons text texts ih =>
    have hNext : (s'.intern a' text).2.1.texts = (s.intern a text).2.1.texts := by
      rw [texts_intern, texts_intern, h]
    exact ih hNext _ _

theorem texts_start (era era' : Nat) (a a' : Arena) :
    (start era' a').1.texts = (start era a).1.texts := by
  have hNext : (intern { era := era' } a' "").2.1.texts = (intern { era } a "").2.1.texts := by
    rw [texts_intern, texts_intern]
    rfl
  obtain ⟨first, all, keywords, hFirst, hAll, hKeywords, hStart⟩ := exists_start era a
  obtain ⟨first', all', keywords', hFirst', hAll', hKeywords', hStart'⟩ := exists_start era' a'
  rw [hFirst, hFirst'] at hNext
  have hBuiltins := texts_internAll hNext first.2.2 first'.2.2 Builtin.names
  rw [hAll, hAll'] at hBuiltins
  have hTexts := texts_internAll hBuiltins all.2.2 all'.2.2 Builtin.keywords
  rw [hKeywords, hKeywords'] at hTexts
  rw [hStart, hStart']
  exact hTexts

/-! ## What every interner is -/

/-- What an interner is as long as it is used. -/
structure Settled (s : Interner) : Prop where
  filed : s.Filed
  seeded : s.Seeded
  counted : s.Counted

theorem settled_start (era : Nat) (a : Arena) : (start era a).1.Settled :=
  ⟨filed_start era a, seeded_start era a, counted_start era a⟩

theorem Settled.intern (h : s.Settled) (a : Arena) (text : String) :
    (s.intern a text).2.1.Settled :=
  ⟨h.filed.intern a text, h.seeded.intern a text, h.counted.intern a text⟩

theorem Settled.reset (s : Interner) (a : Arena) : (s.reset a).1.Settled := by
  rw [Interner.reset]
  exact settled_start _ _

/-! ## Interners that are alike -/

/-- The eras of `s'` are further on than those of `s`, and its names are the renamed ones. -/
structure Alike (ρ : Renaming) (s s' : Interner) : Prop where
  era_eq : s'.era = s.era + ρ.eras
  names_eq : s'.names = s.names.map ρ.name
  settled : s.Settled
  settled' : s'.Settled

namespace Alike

variable {ρ : Renaming}

theorem lookup?_eq (h : Alike ρ s s') (text : String) :
    s'.lookup? text = (s.lookup? text).map ρ.name := by
  rw [lookup?, lookup?, h.names_eq, List.find?_map]
  rfl

theorem empty_eq (h : Alike ρ s s') : s'.empty = ρ.name s.empty := by
  have hEmpty := h.lookup?_eq ""
  rw [h.settled.seeded.empty, h.settled'.seeded.empty, Option.map_some] at hEmpty
  exact Option.some.inj hEmpty

theorem builtins_eq (h : Alike ρ s s') :
    s'.builtins = s.builtins.map (Prod.map id ρ.name) := by
  have hs := h.settled.seeded
  have hs' := h.settled'.seeded
  have hFst : s'.builtins.map Prod.fst = s.builtins.map Prod.fst := hs'.texts.trans hs.texts.symm
  have hFound := hs.builtins
  have hFound' := hs'.builtins
  generalize s.builtins = l, s'.builtins = l' at hFst hFound hFound'
  induction l generalizing l' with
  | nil => exact List.map_eq_nil_iff.mp hFst
  | cons e l ih =>
    cases l' with
    | nil => cases hFst
    | cons e' l' =>
      obtain ⟨hText, hRest⟩ := List.cons.inj hFst
      rw [List.forall_mem_cons] at hFound hFound'
      have hName := h.lookup?_eq e.1
      rw [← hText, hFound'.1, hText, hFound.1, Option.map_some] at hName
      rw [List.map_cons, ih l' hRest hFound.2 hFound'.2]
      exact congrArg (· :: l.map (Prod.map id ρ.name)) (Prod.ext hText (Option.some.inj hName))

/-- The names that are found under texts are the renamed ones. -/
theorem found_eq (h : Alike ρ s s') {found found' : List Name} {texts : List String}
    (hFound : found.map some = texts.map s.lookup?)
    (hFound' : found'.map some = texts.map s'.lookup?) : found' = found.map ρ.name := by
  refine (Option.some_injective Name).list_map ?_
  rw [hFound', funext h.lookup?_eq, List.map_map, ← Function.comp_def (Option.map ρ.name),
    ← List.map_map, ← hFound, List.map_map]
  rfl

theorem isBuiltin_eq (h : Alike ρ s s') (n : Name) :
    s'.isBuiltin (ρ.name n) = s.isBuiltin n := by
  rw [isBuiltin, isBuiltin,
    h.found_eq h.settled.seeded.builtinNames h.settled'.seeded.builtinNames, ρ.contains_name]

theorem isKeyword_eq (h : Alike ρ s s') (n : Name) :
    s'.isKeyword (ρ.name n) = s.isKeyword n := by
  rw [isKeyword, isKeyword,
    h.found_eq h.settled.seeded.keywordNames h.settled'.seeded.keywordNames, ρ.contains_name]

theorem memoryUsed_eq (h : Alike ρ s s') : s'.memoryUsed = s.memoryUsed := by
  rw [h.settled.counted, h.settled'.counted, h.names_eq, List.map_map]
  refine congrArg List.sum (List.map_congr_left fun n _ => ?_)
  exact congrArg (· + 1) (ρ.length_name n)

end Alike

/-! ## Later interners -/

/-- What an interner can become: in its era names are only added, and no earlier era comes again. -/
structure Extends (s t : Interner) : Prop where
  era_le : s.era ≤ t.era
  names_prefix : t.era = s.era → s.names <+: t.names

theorem Extends.refl (s : Interner) : s.Extends s := ⟨Nat.le_refl _, fun _ => List.prefix_rfl⟩

theorem Extends.trans {t u : Interner} (h : s.Extends t) (h' : t.Extends u) : s.Extends u := by
  refine ⟨Nat.le_trans h.era_le h'.era_le, fun hSame => ?_⟩
  have hBetween : t.era = s.era := Nat.le_antisymm (hSame ▸ h'.era_le) h.era_le
  exact (h.names_prefix hBetween).trans (h'.names_prefix (hSame.trans hBetween.symm))

theorem extends_intern (s : Interner) (a : Arena) (text : String) :
    s.Extends (s.intern a text).2.1 :=
  ⟨(s.era_intern a text).ge, fun _ => s.names_prefix_intern a text⟩

theorem era_reset (s : Interner) (a : Arena) : (s.reset a).1.era = s.era + 1 := by
  rw [reset, era_start]

theorem extends_reset (s : Interner) (a : Arena) : s.Extends (s.reset a).1 := by
  have hEra := s.era_reset a
  exact ⟨by omega, fun hSame => by omega⟩

/-- A name has its number for the whole era. -/
theorem Extends.getElem?_eq {t : Interner} (h : s.Extends t) (hEra : t.era = s.era) {i : Nat}
    (hn : s.names[i]? = some n) : t.names[i]? = some n := by
  obtain ⟨rest, hRest⟩ := h.names_prefix hEra
  obtain ⟨hLt, -⟩ := List.getElem?_eq_some_iff.mp hn
  rw [← hRest, List.getElem?_append_left hLt, hn]

/-! ## Two interners -/

/-- Two interners with the same texts, of which one was reset more often before. -/
structure Parallel (eras : Nat) (s s' : Interner) : Prop where
  era_eq : s'.era = s.era + eras
  texts_eq : s'.texts = s.texts

namespace Parallel

variable {eras : Nat} (h : s.Parallel eras s')

theorem start {era era' : Nat} (hEra : era' = era + eras) (a a' : Arena) :
    (Interner.start era a).1.Parallel eras (Interner.start era' a').1 :=
  ⟨by rw [era_start, era_start, hEra], texts_start _ _ _ _⟩

include h

theorem intern (a a' : Arena) (text : String) :
    (s.intern a text).2.1.Parallel eras (s'.intern a' text).2.1 := by
  refine ⟨?_, ?_⟩
  · rw [era_intern, era_intern, h.era_eq]
  · rw [texts_intern, texts_intern, h.texts_eq]

theorem reset (a a' : Arena) : (s.reset a).1.Parallel eras (s'.reset a').1 := by
  rw [Interner.reset, Interner.reset]
  exact start (by rw [h.era_eq, Nat.add_right_comm]) a a'

variable (hs : s.Settled) (hs' : s'.Settled)

include hs hs'

/-- The names with one place in parallel interners differ in their era and view alone. -/
theorem entry_eq {i : Nat} {n n' : Name} (hn : s.names[i]? = some n)
    (hn' : s'.names[i]? = some n') :
    n' = { n with era := n.era + eras, view := n'.view } ∧ n.era = s.era ∧ n.id = i ∧
      n'.view.size = n.view.size := by
  have hText : n'.text = n.text := by
    have hAt := congrArg (·[i]?) h.texts_eq
    simp only [texts, List.getElem?_map, hn, hn', Option.map_some] at hAt
    exact Option.some.inj hAt
  obtain ⟨hEntry, hSize⟩ := hs.filed i n hn
  obtain ⟨hEntry', hSize'⟩ := hs'.filed i n' hn'
  have hEra : n.era = s.era := congrArg Name.era hEntry
  have hId : n.id = i := congrArg Name.id hEntry
  refine ⟨?_, hEra, hId, by rw [hSize', hSize, hText]⟩
  rw [hEra]
  conv_lhs => rw [hEntry', h.era_eq, hText]
  conv_rhs => rw [hEntry]
  rfl

/-- Parallel interners are alike up to a renaming that takes the place of each name to that of the
other with its number. -/
theorem alike {ρ : Renaming} (hEras : ρ.eras = eras)
    (hPlace : ∀ (i : Nat) (n n' : Name), s.names[i]? = some n → s'.names[i]? = some n' →
      ρ.place s.era i n.view = n'.view) : s.Alike ρ s' := by
  have hLength : s'.names.length = s.names.length := by
    simpa [texts] using congrArg List.length h.texts_eq
  refine ⟨by rw [h.era_eq, hEras], List.ext_getElem? fun i => ?_, hs, hs'⟩
  rw [List.getElem?_map]
  cases hn : s.names[i]? with
  | none =>
    rw [List.getElem?_eq_none_iff] at hn
    exact List.getElem?_eq_none (by omega)
  | some n =>
    obtain ⟨hLt, -⟩ := List.getElem?_eq_some_iff.mp hn
    have hn' := List.getElem?_eq_getElem (l := s'.names) (i := i) (by omega)
    obtain ⟨hEntry, hEra, hId, -⟩ := h.entry_eq hs hs' hn hn'
    rw [hn', Option.map_some, hEntry, Renaming.name, hEras, hEra, hId, hPlace i n _ hn hn']

end Parallel

/-! ## Two histories of interners -/

/-- What two interners become side by side. -/
structure History (eras : Nat) (pairs : Interner → Interner → Prop) : Prop where
  parallel : ∀ s s', pairs s s' → s.Parallel eras s'
  settled : ∀ s s', pairs s s' → s.Settled ∧ s'.Settled
  total : ∀ s s' t t', pairs s s' → pairs t t' →
    (s.Extends t ∧ s'.Extends t') ∨ (t.Extends s ∧ t'.Extends s')

namespace History

variable {eras : Nat} {pairs : Interner → Interner → Prop} (h : History eras pairs)

include h

/-- The two names with a number in an era are always the same two. -/
theorem eq_of_getElem? {t t' : Interner} (hs : pairs s s') (ht : pairs t t')
    (hEra : t.era = s.era) {i : Nat} {n n' m m' : Name} (hn : s.names[i]? = some n)
    (hn' : s'.names[i]? = some n') (hm : t.names[i]? = some m) (hm' : t'.names[i]? = some m') :
    m = n ∧ m' = n' := by
  have hEra' : t'.era = s'.era := by
    rw [(h.parallel t t' ht).era_eq, (h.parallel s s' hs).era_eq, hEra]
  rcases h.total s s' t t' hs ht with ⟨hExtends, hExtends'⟩ | ⟨hExtends, hExtends'⟩
  · have hSame := hExtends.getElem?_eq hEra hn
    have hSame' := hExtends'.getElem?_eq hEra' hn'
    exact ⟨Option.some.inj (hm.symm.trans hSame), Option.some.inj (hm'.symm.trans hSame')⟩
  · have hSame := hExtends.getElem?_eq hEra.symm hm
    have hSame' := hExtends'.getElem?_eq hEra'.symm hm'
    exact ⟨Option.some.inj (hSame.symm.trans hn), Option.some.inj (hSame'.symm.trans hn')⟩

/-- What takes the bytes of the name with a number in an era to those of the other such name. As
these are always the same two, a swap of the two places will do. -/
theorem exists_swap (era id : Nat) :
    ∃ f : Equiv.Perm View, (∀ v, (f v).size = v.size) ∧ ∀ s s', pairs s s' → s.era = era →
      ∀ n n', s.names[id]? = some n → s'.names[id]? = some n' → f n.view = n'.view := by
  by_cases hSome : ∃ s s' n n', pairs s s' ∧ s.era = era ∧ s.names[id]? = some n ∧
      s'.names[id]? = some n'
  · obtain ⟨s, s', n, n', hs, hEra, hn, hn'⟩ := hSome
    obtain ⟨hSettled, hSettled'⟩ := h.settled s s' hs
    have hSize := ((h.parallel s s' hs).entry_eq hSettled hSettled' hn hn').2.2.2
    refine ⟨Equiv.swap n.view n'.view, fun v => ?_, fun t t' ht hEra' m m' hm hm' => ?_⟩
    · rw [Equiv.swap_apply_def]
      split
      · rename_i hv
        rw [hSize, hv]
      · split
        · rename_i hv
          rw [← hSize, hv]
        · rfl
    · obtain ⟨rfl, rfl⟩ := h.eq_of_getElem? hs ht (hEra'.trans hEra.symm) hn hn' hm hm'
      exact Equiv.swap_apply_left _ _
  · refine ⟨Equiv.refl View, fun _ => rfl, fun s s' hs hEra n n' hn hn' => ?_⟩
    exact absurd ⟨s, s', n, n', hs, hEra, hn, hn'⟩ hSome

/-- There are places for the bytes of names that take all names which one of two interners ever has
to those of the other. -/
theorem exists_place :
    ∃ place : Nat → Nat → Equiv.Perm View, (∀ era id v, (place era id v).size = v.size) ∧
      ∀ ρ : Renaming, ρ.eras = eras → ρ.place = place → ∀ s s', pairs s s' → s.Alike ρ s' := by
  choose place hSize hView using h.exists_swap
  refine ⟨place, hSize, fun ρ hEras hPlace s s' hs => ?_⟩
  obtain ⟨hSettled, hSettled'⟩ := h.settled s s' hs
  refine (h.parallel s s' hs).alike hSettled hSettled' hEras fun i n n' hn hn' => ?_
  rw [hPlace]
  exact hView _ i s s' hs rfl n n' hn hn'

end History

end Interner

end SemanticCore
