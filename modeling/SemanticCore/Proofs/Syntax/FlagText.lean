import Mathlib.Data.List.Nodup
import Mathlib.Data.Nat.Bitwise
import Mathlib.Tactic.IntervalCases
import SemanticCore.Proofs.Number.Word
import SemanticCore.Syntax.Flags

/-!
# Reading the text of flags

The text of flags is a list of parts with bars between them: the names of the flags that are set,
and at the end the bits without a name, in hexadecimal. Each part is read on its own, and the union
of what the parts stand for has the bits of the flags again, as words of 32 bits.

* `Text.readHex?_toDigits`: a number is read from its hexadecimal digits.
* `Flags.entries`: the parts of a text, each with the flags that it stands for.
* `Flags.toWord_union_entries`: their union.
* `Flags.parts_of_text`: what is read from the text of any flags in 32 bits.
-/

namespace SemanticCore

/-! ## Hexadecimal digits -/

namespace Text

/-- The value of a hexadecimal digit. -/
def hexDigit? (c : Char) : Option Nat :=
  if c.isDigit then some (c.toNat - '0'.toNat)
  else if 'a' ≤ c ∧ c ≤ 'f' then some (c.toNat - 'a'.toNat + 10)
  else none

/-- The number that hexadecimal digits stand for. -/
def readHex? (cs : List Char) : Option Nat :=
  cs.foldlM (fun n c => (hexDigit? c).map fun d => 16 * n + d) 0

theorem hexDigit?_digitChar {d : Nat} (h : d < 16) : hexDigit? d.digitChar = some d := by
  interval_cases d <;> rfl

theorem readHex?_singleton (c : Char) : readHex? [c] = hexDigit? c := by
  rw [readHex?]
  cases hDigit : hexDigit? c <;> simp [hDigit]

theorem readHex?_append {cs : List Char} {c : Char} {n d : Nat} (hs : readHex? cs = some n)
    (h : hexDigit? c = some d) : readHex? (cs ++ [c]) = some (16 * n + d) := by
  rw [readHex?] at hs ⊢
  rw [List.foldlM_append, hs]
  simp only [Option.bind_eq_bind, Option.bind_some, List.foldlM_cons, List.foldlM_nil, h,
    Option.map_some]
  rfl

theorem readHex?_toDigits (n : Nat) : readHex? (Nat.toDigits 16 n) = some n := by
  induction n using Nat.strongRecOn with
  | ind n ih =>
    by_cases hOne : n < 16
    · rw [Nat.toDigits_of_lt_base hOne]
      exact hexDigit?_digitChar hOne ▸ readHex?_singleton n.digitChar
    · have hLast : n % 16 < 16 := Nat.mod_lt n (by decide)
      rw [Nat.toDigits_of_base_le (by decide) (not_lt.mp hOne),
        readHex?_append (ih (n / 16) (by omega)) (hexDigit?_digitChar hLast), Nat.div_add_mod]

theorem hexDigit?_of_mem_toDigits {n : Nat} {c : Char} (h : c ∈ Nat.toDigits 16 n) :
    (hexDigit? c).isSome = true := by
  induction n using Nat.strongRecOn with
  | ind n ih =>
    by_cases hOne : n < 16
    · rw [Nat.toDigits_of_lt_base hOne, List.mem_singleton] at h
      rw [h, hexDigit?_digitChar hOne, Option.isSome_some]
    · have hLast : n % 16 < 16 := Nat.mod_lt n (by decide)
      rw [Nat.toDigits_of_base_le (by decide) (not_lt.mp hOne), List.mem_append,
        List.mem_singleton] at h
      rcases h with hInit | rfl
      · exact ih (n / 16) (by omega) hInit
      · rw [hexDigit?_digitChar hLast, Option.isSome_some]

end Text

/-! ## Unions of bits -/

theorem word_and_or (u v w : UInt32) : u &&& (v ||| w) = u &&& v ||| u &&& w :=
  UInt32.toBitVec_inj.mp BitVec.and_or_distrib_left

/-- The union of those of some words that lie within a word is what the word has of their union, if
each of them lies within it or outside. -/
theorem foldl_or_filter (w : UInt32) (bs : List UInt32)
    (h : ∀ b ∈ bs, w &&& b = b ∨ w &&& b = 0) (start : UInt32) :
    (bs.filter fun b => w &&& b == b).foldl (· ||| ·) (w &&& start) =
      w &&& bs.foldl (· ||| ·) start := by
  induction bs generalizing start with
  | nil => rfl
  | cons b bs ih =>
    have hRest := ih (fun c hc => h c (List.mem_cons_of_mem b hc)) (start ||| b)
    rw [word_and_or] at hRest
    rw [List.foldl_cons, ← hRest]
    by_cases hInside : w &&& b = b
    · rw [List.filter_cons_of_pos (by simpa using hInside), List.foldl_cons, hInside]
    · have hOutside : w &&& b = 0 := (h b List.mem_cons_self).resolve_left hInside
      rw [List.filter_cons_of_neg (by simpa using hInside), hOutside, UInt32.or_zero]

theorem and_or_and_not (w v : UInt32) : w &&& v ||| w &&& ~~~ v = w := by
  rw [← word_and_or, UInt32.or_not_self, UInt32.and_neg_one]

namespace Flags

open Number

variable {f : Flags} {e : String × Flags}

/-- A single bit lies within a word or outside. -/
theorem and_two_pow_word (w : UInt32) {k : Nat} (hk : k < 32) :
    w &&& (ofNat (2 ^ k)).toWord = (ofNat (2 ^ k)).toWord ∨ w &&& (ofNat (2 ^ k)).toWord = 0 := by
  have hLt : 2 ^ k < 2 ^ 32 := Nat.pow_lt_pow_right (by decide) hk
  have hBit : (ofNat (2 ^ k)).toWord.toNat = 2 ^ k := by
    rw [toNat_toWord_ofNat, Nat.mod_eq_of_lt hLt]
  rw [← UInt32.toNat_inj, ← UInt32.toNat_inj, UInt32.toNat_and, hBit, Nat.and_two_pow]
  cases w.toNat.testBit k with
  | true => exact .inl (Nat.one_mul _)
  | false => exact .inr (Nat.zero_mul _)

/-! ## Names -/

theorem nodup_all : (all.map (·.1)).Nodup := by decide

theorem mem_all_of_mem_named (h : e ∈ named) : e ∈ all := List.mem_cons_of_mem _ h

theorem ofName?_of_mem (h : e ∈ all) : ofName? e.1 = some e.2 := by
  obtain ⟨e', hFind⟩ : ∃ e', all.find? (·.1 == e.1) = some e' :=
    Option.isSome_iff_exists.mp (List.find?_isSome.mpr ⟨e, h, beq_self_eq_true e.1⟩)
  have hName : e'.1 = e.1 := by simpa using List.find?_some hFind
  have hSame : e' = e :=
    List.inj_on_of_nodup_map nodup_all (List.mem_of_find?_eq_some hFind) h hName
  rw [ofName?, hFind, hSame, Option.map_some]

theorem exists_bit_of_mem (h : e ∈ named) : ∃ k < 18, e.2 = ofNat (2 ^ k) := by
  obtain ⟨⟨name, k⟩, hMem, rfl⟩ := List.mem_map.mp h
  have hk : k < names.length := by
    have := List.snd_lt_of_mem_zipIdx hMem
    simpa using this
  exact ⟨k, hk, rfl⟩

theorem ofName?_eq_none {s : String} (h : s ∉ all.map (·.1)) : ofName? s = Option.none := by
  rw [ofName?, Option.map_eq_none_iff, List.find?_eq_none]
  intro e he hName
  exact h (List.mem_map.mpr ⟨e, he, by simpa using hName⟩)

/-! ## The parts of a text -/

/-- The named flags among some flags, in order. -/
def present (f : Flags) : List (String × Flags) := named.filter fun e => f.bitAnd e.2 == e.2

/-- The bits without a name. -/
def unnamed (f : Flags) : UInt32 := (f.bitAnd known.bitNot).toWord

theorem unnamed_eq (f : Flags) : unnamed f = f.toWord &&& ~~~ known.toWord := by
  rw [unnamed, toWord_bitAnd, toWord_bitNot]

def hexPart (w : UInt32) : String := String.ofList ('0' :: 'x' :: Nat.toDigits 16 w.toNat)

/-- The parts of the text of some flags, each with what it stands for. -/
def entries (f : Flags) : List (String × Flags) :=
  if f = 0 then [("None", none)]
  else present f ++ if unnamed f = 0 then [] else [(hexPart (unnamed f), .ofNat (unnamed f).toNat)]

theorem text_eq (f : Flags) : text f = "|".intercalate ((entries f).map (·.1)) := by
  have hZero : f.bitAnd known.bitNot = 0 ↔ unnamed f = 0 := by
    rw [bitAnd_eq_zero_iff, unnamed, toWord_bitAnd]
  rw [text, entries]
  split
  · rfl
  · congr 1
    rw [List.map_append, parts]
    simp only [hZero]
    split
    · exact (List.append_nil _).symm
    · rfl

theorem mem_entries_cases (h : e ∈ entries f) :
    (f = 0 ∧ e = ("None", none)) ∨ (f ≠ 0 ∧ e ∈ named) ∨
      (f ≠ 0 ∧ e = (hexPart (unnamed f), .ofNat (unnamed f).toNat)) := by
  rw [entries] at h
  split at h
  · rename_i hZero
    exact .inl ⟨hZero, List.mem_singleton.mp h⟩
  · rename_i hSome
    rcases List.mem_append.mp h with hSet | hHex
    · exact .inr (.inl ⟨hSome, List.mem_of_mem_filter hSet⟩)
    · split at hHex
      · cases hHex
      · exact .inr (.inr ⟨hSome, List.mem_singleton.mp hHex⟩)

/-! ## Each part -/

/-- What a part stands for: digits behind `0x` are hexadecimal, all else is a name. -/
def ofPart? (s : String) : Option Flags :=
  match s.toList with
  | '0' :: 'x' :: digits => (Text.readHex? digits).map .ofNat
  | _ => ofName? s

theorem ofPart?_hexPart (w : UInt32) : ofPart? (hexPart w) = some (.ofNat w.toNat) := by
  simp only [ofPart?, hexPart, String.toList_ofList, Text.readHex?_toDigits, Option.map_some]

/-- No name begins like a hexadecimal number. -/
theorem head_of_mem_all (h : e ∈ all) : e.1.toList.head? ≠ some '0' := by
  revert e
  decide

theorem ofPart?_of_mem_all (h : e ∈ all) : ofPart? e.1 = some e.2 := by
  have hHead := head_of_mem_all h
  rw [ofPart?]
  split
  · rename_i hDigits
    rw [hDigits] at hHead
    exact absurd rfl hHead
  · exact ofName?_of_mem h

theorem ofPart?_of_mem_entries (h : e ∈ entries f) : ofPart? e.1 = some e.2 := by
  rcases mem_entries_cases h with ⟨-, rfl⟩ | ⟨-, hNamed⟩ | ⟨-, rfl⟩
  · exact ofPart?_of_mem_all List.mem_cons_self
  · exact ofPart?_of_mem_all (mem_all_of_mem_named hNamed)
  · exact ofPart?_hexPart _

theorem bar_not_mem_entries (h : e ∈ entries f) : '|' ∉ e.1.toList := by
  have hAll : ∀ e ∈ all, '|' ∉ e.1.toList := by decide
  rcases mem_entries_cases h with ⟨-, rfl⟩ | ⟨-, hNamed⟩ | ⟨-, rfl⟩
  · exact hAll _ List.mem_cons_self
  · exact hAll _ (mem_all_of_mem_named hNamed)
  · intro hBar
    simp only [hexPart, String.toList_ofList, List.mem_cons] at hBar
    rcases hBar with hZero | hLetter | hDigit
    · cases hZero
    · cases hLetter
    · cases Text.hexDigit?_of_mem_toDigits hDigit

theorem hexPart_not_mem_all (w : UInt32) : hexPart w ∉ all.map (·.1) := by
  intro hMem
  obtain ⟨e, he, hName⟩ := List.mem_map.mp hMem
  refine head_of_mem_all he ?_
  rw [hName, hexPart, String.toList_ofList, List.head?_cons]

/-! ## All parts -/

/-- The union of flags. -/
def union (fs : List Flags) : Flags := fs.foldl insert none

theorem toWord_union (fs : List Flags) :
    (union fs).toWord = (fs.map Number.toWord).foldl (· ||| ·) 0 := by
  have hFold : ∀ start : Flags, (fs.foldl insert start).toWord =
      (fs.map Number.toWord).foldl (· ||| ·) start.toWord := by
    induction fs with
    | nil => exact fun start => rfl
    | cons f fs ih =>
      intro start
      rw [List.foldl_cons, ih, insert, toWord_bitOr, List.map_cons, List.foldl_cons]
  exact hFold none

/-- The union of all flags with a name. -/
theorem toWord_union_named : (named.map (·.2.toWord)).foldl (· ||| ·) 0 = known.toWord := by
  decide

theorem present_eq (f : Flags) :
    present f = named.filter fun e => f.toWord &&& e.2.toWord == e.2.toWord := by
  refine List.filter_congr fun e he => ?_
  obtain ⟨k, hk, hBit⟩ := exists_bit_of_mem he
  have hSmall : 2 ^ k < 2 ^ 31 := Nat.pow_lt_pow_right (by decide) (by omega)
  have hWord : e.2 = ofWord e.2.toWord := by rw [hBit, ofWord_toWord_ofNat hSmall]
  rw [bitAnd, Bool.eq_iff_iff, beq_iff_eq, beq_iff_eq]
  conv_lhs => rhs; rw [hWord]
  exact ofWord_inj

theorem toWord_union_present (f : Flags) :
    ((present f).map (·.2.toWord)).foldl (· ||| ·) 0 = f.toWord &&& known.toWord := by
  have hBits : ∀ b ∈ named.map (·.2.toWord), f.toWord &&& b = b ∨ f.toWord &&& b = 0 := by
    intro b hb
    obtain ⟨e, he, rfl⟩ := List.mem_map.mp hb
    obtain ⟨k, hk, hBit⟩ := exists_bit_of_mem he
    rw [hBit]
    exact and_two_pow_word f.toWord (by omega)
  have hFilter := foldl_or_filter f.toWord _ hBits 0
  rw [toWord_union_named, UInt32.and_zero, List.filter_map] at hFilter
  rw [present_eq]
  exact hFilter

/-- What the parts stand for has all bits of the flags. -/
theorem toWord_union_entries (f : Flags) : (union ((entries f).map (·.2))).toWord = f.toWord := by
  rw [toWord_union, List.map_map, entries]
  split
  · rename_i hZero
    rw [hZero]
    rfl
  · rw [List.map_append, List.foldl_append]
    have hSet := toWord_union_present f
    have hWhole := and_or_and_not f.toWord known.toWord
    rw [← unnamed_eq] at hWhole
    split
    · rename_i hRest
      rw [hRest, UInt32.or_zero] at hWhole
      exact hSet.trans hWhole
    · have hValue : (ofNat (unnamed f).toNat).toWord = unnamed f := by
        rw [← UInt32.toNat_inj, toNat_toWord_ofNat, Nat.mod_eq_of_lt (unnamed f).toNat_lt]
      rw [List.map_singleton, List.foldl_cons, List.foldl_nil]
      exact (congrArg₂ (· ||| ·) hSet hValue).trans hWhole

theorem names_present_sublist (f : Flags) :
    ((present f).map (·.1)).Sublist (all.map (·.1)) := by
  have hPresent : (present f).Sublist all := List.filter_sublist.trans (List.sublist_cons_self _ _)
  exact hPresent.map _

theorem nodup_entries (f : Flags) : ((entries f).map (·.1)).Nodup := by
  have hNames := names_present_sublist f
  rw [entries]
  split
  · exact List.nodup_singleton _
  · rw [List.map_append]
    split
    · rw [List.map_nil, List.append_nil]
      exact hNames.nodup nodup_all
    · rw [List.map_singleton, List.nodup_append]
      refine ⟨hNames.nodup nodup_all, List.nodup_singleton _, fun s hs t ht hEq => ?_⟩
      rw [hEq, List.mem_singleton.mp ht] at hs
      exact hexPart_not_mem_all _ (hNames.subset hs)

/-- The parts that are names stand in the order of the names. -/
theorem names_sublist (f : Flags) :
    (((entries f).map (·.1)).filter fun s => (ofName? s).isSome).Sublist (all.map (·.1)) := by
  rw [entries]
  split
  · exact List.filter_sublist.trans (List.singleton_sublist.mpr List.mem_cons_self)
  · have hNames : (((present f).map (·.1)).filter fun s => (ofName? s).isSome).Sublist
        (all.map (·.1)) := List.filter_sublist.trans (names_present_sublist f)
    rw [List.map_append, List.filter_append]
    split
    · rw [List.map_nil, List.filter_nil, List.append_nil]
      exact hNames
    · have hNone := ofName?_eq_none (hexPart_not_mem_all (unnamed f))
      rw [List.map_singleton, List.filter_cons_of_neg (by rw [hNone]; exact Bool.false_ne_true),
        List.filter_nil, List.append_nil]
      exact hNames

/-- The name of no flag is a part only where there are none. -/
theorem none_mem_entries_iff : "None" ∈ (entries f).map (·.1) ↔ f = 0 := by
  constructor
  · intro hMem
    obtain ⟨e, he, hName⟩ := List.mem_map.mp hMem
    have hFirst : "None" ∉ named.map (·.1) := (List.nodup_cons.mp nodup_all).1
    rcases mem_entries_cases he with ⟨hZero, -⟩ | ⟨-, hNamed⟩ | ⟨-, rfl⟩
    · exact hZero
    · exact absurd (List.mem_map.mpr ⟨e, hNamed, hName⟩) hFirst
    · exact absurd (List.mem_map.mpr ⟨_, List.mem_cons_self, hName.symm⟩) (hexPart_not_mem_all _)
  · rintro rfl
    exact List.mem_cons_self

/-! ## Reading a text -/

/-- The parts of a text, set apart by bars. -/
def split (s : String) : List String := (s.split '|').toList.map (·.copy)

/-- Where there are flags in the last 32 bits, or none at all, the text has its parts. -/
theorem split_text (h : f = 0 ∨ f.toWord ≠ 0) : split (text f) = (entries f).map (·.1) := by
  have hNonempty : (entries f).map (·.1) ≠ [] := by
    intro hNil
    rw [List.map_eq_nil_iff] at hNil
    have hWord := toWord_union_entries f
    rcases h with rfl | hSome
    · cases hNil
    · rw [hNil] at hWord
      exact hSome hWord.symm
  have hBars : ∀ s ∈ (entries f).map (·.1), '|' ∉ s.toList := by
    intro s hs
    obtain ⟨e, he, rfl⟩ := List.mem_map.mp hs
    exact bar_not_mem_entries he
  have hSplit := String.toList_split_intercalate hBars
  rw [if_neg hNonempty] at hSplit
  rw [split, text_eq]
  exact hSplit

theorem ofInt_eq_zero_iff {i : Int} : ofInt i = 0 ↔ i = 0 := by
  show Number.finite (i : Rat) = .finite ((0 : Nat) : Int) ↔ _
  simp

/-- The text of flags in 32 bits, signed or not, is read back: each part is a name or hexadecimal,
and the union of the parts has the bits of the flags. No part occurs twice, the names stand in their
order, and the name of no flag stands for no flags only. -/
theorem parts_of_text {i : Int} (hLow : -2 ^ 31 ≤ i) (hHigh : i < 2 ^ 32) :
    (∃ fs : List Flags, (split (text (ofInt i))).map ofPart? = fs.map some ∧
        ((union fs).toWord.toNat : Int) = i % 2 ^ 32) ∧
      (split (text (ofInt i))).Nodup ∧
      ((split (text (ofInt i))).filter fun s => (ofName? s).isSome).Sublist (all.map (·.1)) ∧
      ("None" ∈ split (text (ofInt i)) ↔ i = 0) := by
  have hWord := toNat_toWord_ofInt i
  have hText : split (text (ofInt i)) = (entries (ofInt i)).map (·.1) := by
    refine split_text ?_
    by_cases hZero : i = 0
    · exact .inl (ofInt_eq_zero_iff.mpr hZero)
    · refine .inr fun hNone => hZero ?_
      rw [hNone, UInt32.toNat_zero] at hWord
      omega
  rw [hText]
  refine ⟨⟨(entries (ofInt i)).map (·.2), ?_, ?_⟩, nodup_entries _, names_sublist _,
    none_mem_entries_iff.trans ofInt_eq_zero_iff⟩
  · rw [List.map_map, List.map_map]
    exact List.map_congr_left fun e he => ofPart?_of_mem_entries he
  · rw [toWord_union_entries, hWord]

/-- The first named bit and the sign bit, which has no name. -/
theorem parts_of_text_sign_bit : (-2 ^ 31 : Int) ≤ -2147483647 ∧ (-2147483647 : Int) < 2 ^ 32 ∧
    (∃ fs : List Flags, (split (text (ofInt (-2147483647)))).map ofPart? = fs.map some ∧
        ((union fs).toWord.toNat : Int) = -2147483647 % 2 ^ 32) ∧
      (split (text (ofInt (-2147483647)))).Nodup ∧
      ((split (text (ofInt (-2147483647)))).filter fun s => (ofName? s).isSome).Sublist
        (all.map (·.1)) ∧
      ("None" ∈ split (text (ofInt (-2147483647))) ↔ (-2147483647 : Int) = 0) := by
  have hLow : (-2 ^ 31 : Int) ≤ -2147483647 := by norm_num
  have hHigh : (-2147483647 : Int) < 2 ^ 32 := by norm_num
  exact ⟨hLow, hHigh, parts_of_text hLow hHigh⟩

example : text (ofInt (-2147483647)) = "Const|0x80000000" := by decide +kernel

end Flags

end SemanticCore
