import SemanticCore.Proofs.Arena.Alignment
import SemanticCore.Proofs.Types.OneRegistry
import SemanticCore.Types.Spelling

/-!
# Unique spelling

The text of a type that is made of primitives, arrays, tuples, functions, pointers and references
tells the type. Parentheses stand around a tuple, around parameters, and around a function that a
function returns; the last could also be a tuple of one function (`Ty.spell_function_tuple`), so no
function may return a tuple of one element. What stands behind a spelled type begins with a comma or
a closing parenthesis, if there is anything; such a text can be told from that of the type
(`Ty.Reads`).

* `Ty.Legible`: the types.
* `Ty.Legible.reads`: their texts can be told from what stands behind them.
* `History.spell_eq_iff`: types of one registry with the same text are one type.
-/

namespace SemanticCore

/-- What can stand behind a spelled type. -/
def Closes (r : List Char) : Prop := ∀ c ∈ r.head?, c = ',' ∨ c = ')'

theorem closes_nil : Closes [] := nofun

theorem closes_comma (r : List Char) : Closes (',' :: r) := by simp [Closes]

theorem closes_paren (r : List Char) : Closes (')' :: r) := by simp [Closes]

/-- A text without a comma and a parenthesis can be told from what stands behind it. -/
theorem eq_of_append_closes {x y r r' : List Char} (hx : ∀ c ∈ x, c ≠ ',' ∧ c ≠ ')')
    (hy : ∀ c ∈ y, c ≠ ',' ∧ c ≠ ')') (hr : Closes r) (hr' : Closes r')
    (h : x ++ r = y ++ r') : x = y ∧ r = r' := by
  have hNot : ∀ {c : Char} {cs ds : List Char}, Closes ds → c ≠ ',' ∧ c ≠ ')' → ds ≠ c :: cs := by
    rintro c cs ds hds ⟨hComma, hParen⟩ rfl
    exact (hds c rfl).elim hComma hParen
  induction x generalizing y with
  | nil =>
    cases y with
    | nil => exact ⟨rfl, h⟩
    | cons d y => exact absurd h (hNot hr (hy d List.mem_cons_self))
  | cons c x ih =>
    cases y with
    | nil => exact absurd h.symm (hNot hr' (hx c List.mem_cons_self))
    | cons d y =>
      obtain ⟨rfl, hTail⟩ := List.cons.inj h
      obtain ⟨rfl, rfl⟩ := ih (fun c hc => hx c (List.mem_cons_of_mem _ hc))
        (fun c hc => hy c (List.mem_cons_of_mem _ hc)) hTail
      exact ⟨rfl, rfl⟩

namespace Primitive

theorem ofName?_name (p : Primitive) : ofName? p.name = some p := by
  rcases p with ⟨signed, width⟩ | kind | _ | _ | _ | _
  · cases signed <;> cases width <;> decide
  · cases kind <;> decide
  all_goals decide

theorem name_injective {p q : Primitive} (h : p.name = q.name) : p = q :=
  Option.some.inj ((ofName?_name p).symm.trans (h ▸ ofName?_name q))

theorem name_alphanum (p : Primitive) :
    p.name.toList ≠ [] ∧ ∀ c ∈ p.name.toList, c.isAlphanum = true := by
  rw [← List.all_eq_true]
  rcases p with ⟨signed, width⟩ | kind | _ | _ | _ | _
  · cases signed <;> cases width <;> decide
  · cases kind <;> decide
  all_goals decide

/-- The name of a primitive does not begin with any sign. -/
theorem name_append_ne (p : Primitive) {c : Char} (hc : c.isAlphanum = false)
    (r cs : List Char) : p.name.toList ++ r ≠ c :: cs := by
  obtain ⟨hNonempty, hAlphanum⟩ := p.name_alphanum
  obtain ⟨d, ds, hName⟩ := List.exists_cons_of_ne_nil hNonempty
  intro hText
  rw [hName] at hText
  obtain ⟨rfl, -⟩ := List.cons.inj hText
  have hAlpha := hAlphanum d (hName ▸ List.mem_cons_self)
  rw [hc] at hAlpha
  cases hAlpha

end Primitive

namespace Ty

/-- The types that are made of primitives, arrays, tuples, functions without flags, pointers and
references, where no function returns a tuple of one element. -/
inductive Legible : Ty → Prop
  | primitive (p : Primitive) : Legible (.primitive p)
  | array {o : Origin} {e : Ty} {n : Nat} (element : Legible e) (length : n < 2 ^ 53) :
      Legible (.array o e n)
  | tuple {o : Origin} {es : List Ty} (elements : ∀ t ∈ es, Legible t) : Legible (.tuple o es)
  | function {o : Origin} {ps : List Ty} {r : Ty} (params : ∀ t ∈ ps, Legible t)
      (result : Legible r) (single : ∀ o t, r ≠ .tuple o [t]) :
      Legible (.function o ps r Flags.none)
  | pointer {o : Origin} {t : Ty} (pointee : Legible t) : Legible (.pointer o t)
  | reference {o : Origin} {t : Ty} (referent : Legible t) : Legible (.reference o t)

/-- A tuple of one function is spelled like the function, where it is returned. -/
theorem spell_function_tuple {f : Ty} (h : f.isFunction = true) (o o' : Origin) (ps : List Ty)
    (flags : Flags) :
    (function o ps (.tuple o' [f]) flags).spell = (function o ps f flags).spell := by
  have hTuple : (tuple o' [f]).isFunction = false := rfl
  simp [spell, spellAll, h, hTuple]

/-! ## The characters of a text -/

def chars (t : Ty) : List Char := t.spell.toList

/-- The texts of types, each behind a comma. -/
def tailChars (ts : List Ty) : List Char := ts.flatMap fun t => ',' :: ' ' :: t.chars

/-- The texts of types with commas between them. -/
def listChars : List Ty → List Char
  | [] => []
  | t :: ts => t.chars ++ tailChars ts

def lengthChars (n : Nat) : List Char := if n = 0 then [] else (Number.ofNat n).text.toList

/-- What a function is spelled to return: a function in parentheses, which is spelled like a tuple
of it. -/
def wrapped (r : Ty) : Ty := if r.isFunction then .tuple default [r] else r

theorem intercalate_chars (ts : List Ty) :
    [',', ' '].intercalate (ts.map chars) = listChars ts := by
  cases ts with
  | nil => rfl
  | cons t ts =>
    induction ts generalizing t with
    | nil => simp [listChars, tailChars]
    | cons u us ih =>
      rw [List.map_cons, List.map_cons, List.intercalate_cons_cons, ← List.map_cons, ih]
      simp [listChars, tailChars]

@[simp]
theorem intercalate_spellAll (ts : List Ty) :
    [',', ' '].intercalate ((spellAll ts).map String.toList) = listChars ts := by
  rw [spellAll_eq_map, List.map_map]
  exact intercalate_chars ts

@[simp]
theorem chars_primitive (p : Primitive) : chars (.primitive p) = p.name.toList := rfl

@[simp]
theorem chars_array (o : Origin) (e : Ty) (n : Nat) :
    chars (.array o e n) = '[' :: (lengthChars n ++ ']' :: e.chars) := by
  simp only [chars, spell, lengthChars]
  split <;> simp

@[simp]
theorem chars_tuple (o : Origin) (es : List Ty) :
    chars (.tuple o es) = '(' :: (listChars es ++ [')']) := by
  simp [chars, spell]

@[simp]
theorem chars_function (o : Origin) (ps : List Ty) (r : Ty) (f : Flags) :
    chars (.function o ps r f) =
      '(' :: (listChars ps ++ ')' :: ' ' :: '-' :: '>' :: ' ' :: r.wrapped.chars) := by
  simp only [chars, spell, wrapped]
  split
  · simp [spell, spellAll]
  · simp

@[simp]
theorem chars_pointer (o : Origin) (t : Ty) : chars (.pointer o t) = '*' :: t.chars := by
  simp [chars, spell]

@[simp]
theorem chars_reference (o : Origin) (t : Ty) : chars (.reference o t) = '&' :: t.chars := by
  simp [chars, spell]

/-! ## Texts that can be told from what stands behind them -/

/-- A type whose text, with something behind it, is the text of no other type. -/
def Reads (a : Ty) : Prop :=
  ∀ {b : Ty} {r r' : List Char}, b.Legible → Closes r → Closes r' →
    a.chars ++ r = b.chars ++ r' → Alike a b ∧ r = r'

variable {a b : Ty} {o : Origin} {r r' : List Char}

/-- No text of a type begins with a closing parenthesis. -/
theorem Legible.append_ne (h : a.Legible) (r cs : List Char) : a.chars ++ r ≠ ')' :: cs := by
  cases h with
  | primitive p => exact p.name_append_ne (by decide) r cs
  | _ => simp

/-- A text that begins with a sign is not that of a primitive. -/
theorem append_ne_primitive {c : Char} {cs : List Char} (h : a.chars = c :: cs)
    (hc : c.isAlphanum = false) (p : Primitive) :
    a.chars ++ r ≠ chars (.primitive p) ++ r' := by
  rw [h, chars_primitive]
  exact (p.name_append_ne hc r' (cs ++ r)).symm

theorem bracket_not_mem_lengthChars (n : Nat) : ']' ∉ lengthChars n := by
  intro hMem
  rw [lengthChars] at hMem
  split at hMem
  · cases hMem
  · exact absurd (Number.isDecimalChar_of_mem_text hMem) (by unfold Decimal.IsDecimalChar; decide)

/-- The text of a length tells the length, and it is empty only if any length will do. -/
theorem lengthChars_inj {m n : Nat} (hm : m < 2 ^ 53) (hn : n < 2 ^ 53)
    (h : lengthChars m = lengthChars n) : m = n := by
  have hDouble : ∀ k < 2 ^ 53, (Number.ofNat k).IsDouble := fun k hk => Number.isDouble_ofNat hk.le
  have hNonempty : ∀ k < 2 ^ 53, (Number.ofNat k).text.toList ≠ [] := by
    intro k hk hNil
    obtain ⟨c, cs, hText, -⟩ := Number.magnitudeText_eq_cons (hDouble k hk)
    rw [Number.text_eq, hText] at hNil
    simp at hNil
  simp only [lengthChars] at h
  split at h <;> split at h
  · rename_i hZero hZero'
    rw [hZero, hZero']
  · exact absurd h.symm (hNonempty n hn)
  · exact absurd h (hNonempty m hm)
  · exact Number.ofNat_injective
      (Number.text_injective (hDouble m hm) (hDouble n hn) (String.toList_inj.mp h))

theorem eq_of_append_bracket {m n : Nat} (hm : m < 2 ^ 53) (hn : n < 2 ^ 53)
    (h : lengthChars m ++ ']' :: r = lengthChars n ++ ']' :: r') : m = n ∧ r = r' := by
  have hBefore := congrArg (Decimal.before ']') h
  have hAfter := congrArg (Decimal.after ']') h
  simp only [Decimal.before_append (bracket_not_mem_lengthChars _)] at hBefore
  simp only [Decimal.after_append (bracket_not_mem_lengthChars _)] at hAfter
  exact ⟨lengthChars_inj hm hn hBefore, hAfter⟩

theorem reads_primitive (p : Primitive) : Reads (.primitive p) := by
  intro b r r' hb hr hr' h
  cases hb with
  | primitive q =>
    have hName : ∀ q : Primitive, ∀ c ∈ q.name.toList, c ≠ ',' ∧ c ≠ ')' := by
      rintro q c hc
      have := q.name_alphanum.2 c hc
      constructor <;> rintro rfl <;> cases this
    obtain ⟨hNames, hRest⟩ := eq_of_append_closes (hName p) (hName q) hr hr' h
    rw [Primitive.name_injective (String.toList_inj.mp hNames)]
    exact ⟨.primitive q, hRest⟩
  | array => exact absurd h.symm (append_ne_primitive (chars_array _ _ _) (by decide) p)
  | tuple => exact absurd h.symm (append_ne_primitive (chars_tuple _ _) (by decide) p)
  | function => exact absurd h.symm (append_ne_primitive (chars_function _ _ _ _) (by decide) p)
  | pointer => exact absurd h.symm (append_ne_primitive (chars_pointer _ _) (by decide) p)
  | reference => exact absurd h.symm (append_ne_primitive (chars_reference _ _) (by decide) p)

theorem Reads.array {e : Ty} {n : Nat} (hElement : e.Reads) (hn : n < 2 ^ 53) :
    Reads (.array o e n) := by
  intro b r r' hb hr hr' h
  cases hb with
  | primitive q => exact absurd h (append_ne_primitive (chars_array _ _ _) (by decide) q)
  | array element length =>
    simp only [chars_array, List.cons_append, List.append_assoc, List.cons.injEq, true_and] at h
    obtain ⟨rfl, hRest⟩ := eq_of_append_bracket hn length h
    obtain ⟨hAlike, rfl⟩ := hElement element hr hr' hRest
    exact ⟨.array hAlike, rfl⟩
  | _ => simp at h

theorem closes_tailChars (ts : List Ty) (r : List Char) : Closes (tailChars ts ++ ')' :: r) := by
  cases ts with
  | nil => exact closes_paren r
  | cons t ts => exact closes_comma _

/-- Types behind commas, up to a closing parenthesis. -/
theorem forall₂_of_tailChars {ts us : List Ty} (hts : ∀ t ∈ ts, t.Reads)
    (hus : ∀ u ∈ us, u.Legible) (h : tailChars ts ++ ')' :: r = tailChars us ++ ')' :: r') :
    List.Forall₂ Alike ts us ∧ r = r' := by
  induction ts generalizing us with
  | nil =>
    cases us with
    | nil => exact ⟨.nil, (List.cons.inj h).2⟩
    | cons u us => simp [tailChars] at h
  | cons t ts ih =>
    cases us with
    | nil => simp [tailChars] at h
    | cons u us =>
      rw [List.forall_mem_cons] at hts hus
      simp only [tailChars, List.flatMap_cons, List.cons_append, List.append_assoc,
        List.cons.injEq, true_and] at h
      obtain ⟨hAlike, hRest⟩ := hts.1 hus.1 (closes_tailChars ts r) (closes_tailChars us r') h
      obtain ⟨hTail, rfl⟩ := ih hts.2 hus.2 hRest
      exact ⟨.cons hAlike hTail, rfl⟩

/-- Types in parentheses. -/
theorem forall₂_of_listChars {ts us : List Ty} (hts : ∀ t ∈ ts, t.Legible ∧ t.Reads)
    (hus : ∀ u ∈ us, u.Legible) (h : listChars ts ++ ')' :: r = listChars us ++ ')' :: r') :
    List.Forall₂ Alike ts us ∧ r = r' := by
  cases ts with
  | nil =>
    cases us with
    | nil => exact ⟨.nil, (List.cons.inj h).2⟩
    | cons u us =>
      simp only [listChars, List.append_assoc] at h
      exact absurd h.symm ((hus u List.mem_cons_self).append_ne _ _)
  | cons t ts =>
    cases us with
    | nil =>
      simp only [listChars, List.append_assoc] at h
      exact absurd h ((hts t List.mem_cons_self).1.append_ne _ _)
    | cons u us =>
      rw [List.forall_mem_cons] at hts hus
      simp only [listChars, List.append_assoc] at h
      obtain ⟨hAlike, hRest⟩ := hts.1.2 hus.1 (closes_tailChars ts r) (closes_tailChars us r') h
      obtain ⟨hTail, rfl⟩ := forall₂_of_tailChars (fun t ht => (hts.2 t ht).2) hus.2 hRest
      exact ⟨.cons hAlike hTail, rfl⟩

theorem Reads.tuple {es : List Ty} (hElements : ∀ t ∈ es, t.Legible ∧ t.Reads) :
    Reads (.tuple o es) := by
  intro b r r' hb hr hr' h
  cases hb with
  | primitive q => exact absurd h (append_ne_primitive (chars_tuple _ _) (by decide) q)
  | tuple elements =>
    simp only [chars_tuple, List.cons_append, List.append_assoc, List.cons.injEq, true_and,
      List.nil_append] at h
    obtain ⟨hAlike, rfl⟩ := forall₂_of_listChars hElements elements h
    exact ⟨.tuple hAlike, rfl⟩
  | function params =>
    -- behind the parameters of a function there is an arrow
    simp only [chars_tuple, chars_function, List.cons_append, List.append_assoc, List.cons.injEq,
      true_and, List.nil_append] at h
    obtain ⟨-, rfl⟩ := forall₂_of_listChars hElements params h
    exact absurd (hr _ rfl) (by decide)
  | _ => simp at h

/-! ## Functions -/

theorem Legible.wrapped (h : a.Legible) : a.wrapped.Legible := by
  unfold Ty.wrapped
  split
  · exact .tuple fun t ht => List.mem_singleton.mp ht ▸ h
  · exact h

theorem Reads.wrapped (h : a.Legible) (hReads : a.Reads) : a.wrapped.Reads := by
  unfold Ty.wrapped
  split
  · exact Reads.tuple fun t ht => List.mem_singleton.mp ht ▸ ⟨h, hReads⟩
  · exact hReads

/-- Where tuples of one element are left out, parentheses mark a function. -/
theorem alike_of_wrapped (ha : ∀ o t, a ≠ .tuple o [t]) (hb : ∀ o t, b ≠ .tuple o [t])
    (h : Alike a.wrapped b.wrapped) : Alike a b := by
  unfold wrapped at h
  split at h <;> split at h
  · cases h with
    | tuple elements =>
      cases elements with
      | cons hHead _ => exact hHead
  · cases h with
    | tuple elements =>
      cases elements with
      | cons _ hTail =>
        cases hTail
        exact absurd rfl (hb _ _)
  · cases h with
    | tuple elements =>
      cases elements with
      | cons _ hTail =>
        cases hTail
        exact absurd rfl (ha _ _)
  · exact h

theorem Reads.function {ps : List Ty} {result : Ty} (hParams : ∀ t ∈ ps, t.Legible ∧ t.Reads)
    (hResult : result.Legible ∧ result.Reads) (hSingle : ∀ o t, result ≠ .tuple o [t]) :
    Reads (.function o ps result Flags.none) := by
  intro b r r' hb hr hr' h
  cases hb with
  | primitive q => exact absurd h (append_ne_primitive (chars_function _ _ _ _) (by decide) q)
  | tuple elements =>
    simp only [chars_tuple, chars_function, List.cons_append, List.append_assoc, List.cons.injEq,
      true_and, List.nil_append] at h
    obtain ⟨-, rfl⟩ := forall₂_of_listChars hParams elements h
    exact absurd (hr' _ rfl) (by decide)
  | function params result single =>
    simp only [chars_function, List.cons_append, List.append_assoc, List.cons.injEq,
      true_and] at h
    obtain ⟨hAlike, hRest⟩ := forall₂_of_listChars hParams params h
    simp only [List.cons.injEq, true_and] at hRest
    -- a function that is returned is read as a tuple of it, which no function here returns
    obtain ⟨hWrapped, rfl⟩ := Reads.wrapped hResult.1 hResult.2 result.wrapped hr hr' hRest
    exact ⟨.function hAlike (alike_of_wrapped hSingle single hWrapped), rfl⟩
  | _ => simp at h

theorem Reads.pointer (hPointee : a.Reads) : Reads (.pointer o a) := by
  intro b r r' hb hr hr' h
  cases hb with
  | primitive q => exact absurd h (append_ne_primitive (chars_pointer _ _) (by decide) q)
  | pointer pointee =>
    simp only [chars_pointer, List.cons_append, List.cons.injEq, true_and] at h
    obtain ⟨hAlike, rfl⟩ := hPointee pointee hr hr' h
    exact ⟨.pointer hAlike, rfl⟩
  | _ => simp at h

theorem Reads.reference (hReferent : a.Reads) : Reads (.reference o a) := by
  intro b r r' hb hr hr' h
  cases hb with
  | primitive q => exact absurd h (append_ne_primitive (chars_reference _ _) (by decide) q)
  | reference referent =>
    simp only [chars_reference, List.cons_append, List.cons.injEq, true_and] at h
    obtain ⟨hAlike, rfl⟩ := hReferent referent hr hr' h
    exact ⟨.reference hAlike, rfl⟩
  | _ => simp at h

theorem Legible.reads (h : a.Legible) : a.Reads := by
  induction h with
  | primitive p => exact reads_primitive p
  | array element length ih => exact ih.array length
  | tuple elements ih => exact Reads.tuple fun t ht => ⟨elements t ht, ih t ht⟩
  | function params result single ihParams ihResult =>
    exact Reads.function (fun t ht => ⟨params t ht, ihParams t ht⟩) ⟨result, ihResult⟩ single
  | pointer pointee ih => exact ih.pointer
  | reference referent ih => exact ih.reference

/-- Types with the same text are alike. -/
theorem Legible.alike_of_spell_eq (ha : a.Legible) (hb : b.Legible) (h : a.spell = b.spell) :
    Alike a b :=
  (ha.reads hb closes_nil closes_nil (by rw [chars, h, chars])).1

end Ty

/-! ## Types of one registry -/

namespace History

variable {names : List Name} {first r : Registry} {es es' : List (TypeCall × Option Ty)}

/-- What was answered since the last reset is found under the request for its own shape. -/
theorem find?_of_mem_answers (hFirst : first.Sound (· ∈ names) [])
    (h : History names first (es ++ es') r) (hClear : ∀ e ∈ es', e.1 ≠ .clear) {t : Ty} {s : Shape}
    (ht : t ∈ answers es') (hShape : t.shape? = some s) : r.find? s.request = some t := by
  obtain ⟨⟨c, _⟩, hMem, rfl⟩ := List.mem_filterMap.mp ht
  obtain ⟨before, after, rfl⟩ := List.append_of_mem hMem
  rw [← List.append_assoc] at h
  have hSplit := h
  rw [List.append_cons] at hSplit
  obtain ⟨r₂, h₂⟩ := hSplit.exists_prefix
  obtain ⟨r₁, -, -, hAnswer, -⟩ := h₂.exists_last
  obtain ⟨s', hAsked⟩ := Registry.exists_shape hAnswer.symm
  have hFound := h.find?_request (fun e he => hClear e (by simp [he])) hAsked
  obtain ⟨-, s'', hShape', hRequest⟩ := (h.sound hFirst).filed _ _ hFound
  obtain rfl := Option.some.inj (hShape.symm.trans hShape')
  rw [hRequest, hFound]

/-- Types that a registry made since it was last cleared, with all their parts, are spelled alike
only if they are one. -/
theorem spell_eq_iff {serial : Nat} {pointerSize : Number} {a b : Ty}
    (hCreate : Registry.create serial pointerSize = .ok first)
    (h : History names first (es ++ es') r) (hClear : ∀ e ∈ es', e.1 ≠ .clear)
    (ha : Composed (answers es') a) (hb : Composed (answers es') b) (hLegible : a.Legible)
    (hLegible' : b.Legible) : a.spell = b.spell ↔ a = b := by
  have hFirst := Registry.sound_create (N := (· ∈ names)) hCreate
  constructor
  · intro hSpell
    refine ha.eq_of_alike hb (fun t ht u hu s hs hs' => ?_)
      (hLegible.alike_of_spell_eq hLegible' hSpell)
    have hFound := h.find?_of_mem_answers hFirst hClear ht hs
    rw [h.find?_of_mem_answers hFirst hClear hu hs'] at hFound
    exact (Option.some.inj hFound).symm
  · rintro rfl
    rfl

/-- A function that returns a function, and one that takes it. -/
theorem spell_eq_iff_functions :
    let f := Ty.function ⟨0, .eight, 64⟩ [] (.primitive .bool) Flags.none
    let g := Ty.function ⟨0, .eight, 65⟩ [] f Flags.none
    let h := Ty.function ⟨0, .eight, 66⟩ [f] (.primitive .bool) Flags.none
    g.spell = "() -> (() -> bool)" ∧ h.spell = "(() -> bool) -> bool" ∧
      (g.spell = h.spell ↔ g = h) := by
  intro f g h
  have hLawful : ∀ {made : List Ty} {ps : List Ty} {t : Ty}, (∀ u ∈ t :: ps, Known made u) →
      (TypeCall.function ps t Flags.none).Lawful [] made := by
    refine fun hTypes => ⟨hTypes, by simp [TypeCall.names], fun x hx => ?_⟩
    rw [List.mem_singleton.mp hx]
    exact Number.isDouble_ofNat (Nat.zero_le _)
  have hBool : ∀ made, Known made (.primitive .bool) := fun made => Or.inl ⟨.bool, rfl⟩
  have hCreate : Registry.create 0 8 = .ok { serial := 0, pointerSize := .eight } := rfl
  have h₁ := (@History.start [] { serial := 0, pointerSize := .eight }).call_eq
    (c := .function [] (.primitive .bool) Flags.none) (a := some f) (hLawful (by simp [hBool]))
    (Prod.ext (by decide +kernel) rfl)
  have h₂ := h₁.call_eq (c := .function [] f Flags.none) (a := some g)
    (hLawful (by simp [Known, answers])) (Prod.ext (by decide +kernel) rfl)
  have h₃ := h₂.call_eq (c := .function [f] (.primitive .bool) Flags.none) (a := some h)
    (hLawful (by simp [Known, answers])) (Prod.ext (by decide +kernel) rfl)
  let made : List (TypeCall × Option Ty) :=
    [(.function [] (.primitive .bool) Flags.none, some f), (.function [] f Flags.none, some g),
      (.function [f] (.primitive .bool) Flags.none, some h)]
  have hHistory : History [] { serial := 0, pointerSize := .eight } ([] ++ made) _ := h₃
  have hf : Composed (answers made) f :=
    .composite (by simp [made, answers]) rfl (by simp [Shape.types, Composed.primitive])
  have hg : Composed (answers made) g :=
    .composite (by simp [made, answers]) rfl (by simp [Shape.types, hf])
  have hh : Composed (answers made) h :=
    .composite (by simp [made, answers]) rfl (by simp [Shape.types, hf, Composed.primitive])
  have hLegible : f.Legible := .function (by simp) (.primitive .bool) (by simp)
  refine ⟨by decide +kernel, by decide +kernel, ?_⟩
  exact spell_eq_iff hCreate hHistory (by simp [made]) hg hh
    (.function (by simp) hLegible (by simp [f]))
    (.function (by simp [hLegible]) (.primitive .bool) (by simp))

end History

end SemanticCore
