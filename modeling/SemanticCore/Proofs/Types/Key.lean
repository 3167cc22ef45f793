import Mathlib.Data.List.Basic
import SemanticCore.Proofs.Number.Natural
import SemanticCore.Proofs.Number.Text
import SemanticCore.Types.Registry

/-!
# Keys of composite types

A registry knows a composite by its kind and a text in which the numbers of its parts stand one
after the other. `Shape` has the parts themselves and `Outline` their numbers. Commas, bars and the
signs between them occur in no number, so a key can be taken apart again.

* `Outline.request_injective`: a key tells the outline.
* `Shape.eq_of_request_eq`: where types and names are told apart by their numbers, two shapes have
  the same key only if they are the same.
-/

namespace SemanticCore

/-! ## Texts with separators -/

/-- A text before a separator that does not occur in it can be told from the rest. -/
theorem eq_of_append_separator {s s' t t' sep : String} {c : Char} (hSep : sep.toList = [c])
    (h : c ∉ s.toList) (h' : c ∉ s'.toList) (hKey : s ++ (sep ++ t) = s' ++ (sep ++ t')) :
    s = s' ∧ t = t' := by
  have hList : s.toList ++ c :: t.toList = s'.toList ++ c :: t'.toList := by
    simpa [hSep] using congrArg String.toList hKey
  have hBefore := congrArg (Decimal.before c) hList
  have hAfter := congrArg (Decimal.after c) hList
  rw [Decimal.before_append h, Decimal.before_append h'] at hBefore
  rw [Decimal.after_append h, Decimal.after_append h'] at hAfter
  exact ⟨String.toList_inj.mp hBefore, String.toList_inj.mp hAfter⟩

/-- Texts that are not empty can be told from what they give when commas are put between them. -/
theorem eq_of_intercalate_eq {l l' : List String}
    (h : ∀ s ∈ l, ',' ∉ s.toList ∧ s.toList ≠ []) (h' : ∀ s ∈ l', ',' ∉ s.toList ∧ s.toList ≠ [])
    (hKey : ",".intercalate l = ",".intercalate l') : l = l' := by
  have hSplit : ∀ {l : List String}, (∀ s ∈ l, ',' ∉ s.toList ∧ s.toList ≠ []) → l ≠ [] →
      (",".intercalate l).toList.splitOn ',' = l.map String.toList := by
    intro l hl hNonempty
    rw [String.toList_intercalate]
    exact List.splitOn_intercalate ',' (by simpa using fun s hs => (hl s hs).1) (by simpa)
  have hEmpty : ∀ {l : List String}, (∀ s ∈ l, ',' ∉ s.toList ∧ s.toList ≠ []) →
      ",".intercalate l = "" → l = [] := by
    intro l hl hNone
    by_contra hNonempty
    have hOne := hSplit hl hNonempty
    rw [hNone] at hOne
    obtain ⟨s, l, rfl⟩ := List.exists_cons_of_ne_nil hNonempty
    exact (hl s List.mem_cons_self).2 (List.cons.inj hOne).1.symm
  by_cases hNil : l = []
  · subst hNil
    exact (hEmpty h' hKey.symm).symm
  · by_cases hNil' : l' = []
    · subst hNil'
      exact hEmpty h hKey
    · have hLists := hSplit h hNil
      rw [hKey, hSplit h' hNil'] at hLists
      exact (List.map_injective_iff.mpr (fun _ _ => String.toList_inj.mp) hLists).symm

theorem eq_of_map_eq {α β : Type} {f : α → β} {l l' : List α}
    (hInj : ∀ a ∈ l, ∀ b ∈ l', f a = f b → a = b) (h : l.map f = l'.map f) : l = l' := by
  induction l generalizing l' with
  | nil => exact (List.map_eq_nil_iff.mp h.symm).symm
  | cons a l ih =>
    cases l' with
    | nil => cases h
    | cons b l' =>
      obtain ⟨hHead, hTail⟩ := List.cons.inj h
      rw [hInj a List.mem_cons_self b List.mem_cons_self hHead,
        ih (fun x hx y hy => hInj x (List.mem_cons_of_mem _ hx) y (List.mem_cons_of_mem _ hy))
          hTail]

/-! ## Numbers in keys -/

theorem isDigits_repr (n : Nat) : Decimal.IsDigits n.repr.toList := by
  rw [Nat.toList_repr]
  exact Decimal.isDigits_toDigits n

theorem repr_ne_nil (n : Nat) : n.repr.toList ≠ [] := by
  rw [Nat.toList_repr]
  exact Nat.toDigits_ne_nil

theorem repr_injective {m n : Nat} (h : m.repr = n.repr) : m = n := by
  have hDigits := congrArg (fun s : String => Decimal.ofDigits s.toList) h
  simpa [Nat.toList_repr] using hDigits

/-! ## Shapes -/

/-- The kind of a composite and its parts, without methods and declarations. -/
inductive Shape where
  | array (element : Ty) (length : Nat)
  | tuple (elements : List Ty)
  | union (variants : List Ty)
  | function (params : List Ty) (result : Ty) (flags : Flags)
  | pointer (pointee : Ty)
  | reference (referent : Ty)
  | structType (name : Name) (flags : Flags) (fields : List Field)
  | classType (name : Name) (flags : Flags) (base : Option Ty) (fields : List Field)

namespace Shape

/-- What a registry keeps a composite of a shape under. -/
def request : Shape → Request
  | array e n => .ofArray e n
  | tuple es => .ofTuple es
  | union vs => .ofUnion vs
  | function ps r f => .ofFunction ps r f
  | pointer t => .ofPointer t
  | reference t => .ofReference t
  | structType n f fs => .ofStruct n f fs
  | classType n f b fs => .ofClass n f b fs

def types : Shape → List Ty
  | array e _ => [e]
  | tuple ts | union ts => ts
  | function ps r _ => r :: ps
  | pointer t | reference t => [t]
  | structType _ _ fs => fs.map Prod.snd
  | classType _ _ b fs => b.toList ++ fs.map Prod.snd

def names : Shape → List Name
  | structType n _ fs | classType n _ _ fs => n :: fs.map Prod.fst
  | _ => []

def numbers : Shape → List Number
  | array _ n => [.ofNat n]
  | function _ _ f | structType _ f _ | classType _ f _ _ => [f]
  | _ => []

/-- A shape whose types satisfy `T`, whose names satisfy `N` and whose numbers are doubles. -/
structure Over (T : Ty → Prop) (N : Name → Prop) (s : Shape) : Prop where
  types : ∀ t ∈ s.types, T t
  names : ∀ n ∈ s.names, N n
  numbers : ∀ x ∈ s.numbers, x.IsDouble

end Shape

/-- No two types that satisfy `T` have the same number. -/
def TypesApart (T : Ty → Prop) : Prop := ∀ t u, T t → T u → t.id = u.id → t = u

/-- No two names that satisfy `N` have the same number. -/
def NamesApart (N : Name → Prop) : Prop := ∀ m n, N m → N n → m.id = n.id → m = n

/-! ## Outlines -/

/-- What the key of a shape says of it: the numbers of its parts, and its own numbers as texts. -/
inductive Outline where
  | array (element : Nat) (length : String)
  | tuple (elements : List Nat)
  | union (variants : List Nat)
  | function (params : List Nat) (result : Nat) (flags : String)
  | pointer (pointee : Nat)
  | reference (referent : Nat)
  | structType (name : Nat) (flags : String) (fields : List (Nat × Nat))
  | classType (name : Nat) (flags : String) (base : Option Nat) (fields : List (Nat × Nat))

namespace Outline

def idList (ids : List Nat) : String := ",".intercalate (ids.map Nat.repr)

def fieldPair (f : Nat × Nat) : String := f.1.repr ++ "=" ++ f.2.repr

def fieldList (fields : List (Nat × Nat)) : String := ",".intercalate (fields.map fieldPair)

def baseText (base : Option Nat) : String := (base.map Nat.repr).getD "-"

def request : Outline → Request
  | array e n => .array (e.repr ++ ":" ++ n)
  | tuple es => .tuple (idList es)
  | union vs => .union (idList vs)
  | function ps r f => .function (f ++ "|" ++ idList ps ++ "|" ++ r.repr)
  | pointer t => .pointer t
  | reference t => .reference t
  | structType n f fs => .structType (n.repr ++ "|" ++ f ++ "|" ++ fieldList fs)
  | classType n f b fs =>
    .classType (n.repr ++ "|" ++ f ++ "|" ++ baseText b ++ "|" ++ fieldList fs)

/-- The texts in an outline can be told from what stands after them in its key. -/
def Readable : Outline → Prop
  | function _ _ f | structType _ f _ | classType _ f _ _ => '|' ∉ f.toList
  | _ => True

theorem idList_injective : Function.Injective idList := by
  intro is js h
  have hTexts : ∀ ids : List Nat, ∀ s ∈ ids.map Nat.repr, ',' ∉ s.toList ∧ s.toList ≠ [] := by
    intro ids s hs
    obtain ⟨i, -, rfl⟩ := List.mem_map.mp hs
    exact ⟨(isDigits_repr i).not_mem rfl, repr_ne_nil i⟩
  exact List.map_injective_iff.mpr (fun _ _ => repr_injective)
    (eq_of_intercalate_eq (hTexts is) (hTexts js) h)

theorem fieldPair_injective : Function.Injective fieldPair := by
  intro f g h
  obtain ⟨hName, hType⟩ := eq_of_append_separator (c := '=') rfl
    ((isDigits_repr f.1).not_mem rfl) ((isDigits_repr g.1).not_mem rfl)
    (by simpa only [fieldPair, String.append_assoc] using h)
  exact Prod.ext (repr_injective hName) (repr_injective hType)

theorem fieldList_injective : Function.Injective fieldList := by
  intro fs gs h
  have hTexts : ∀ l : List (Nat × Nat), ∀ s ∈ l.map fieldPair, ',' ∉ s.toList ∧ s.toList ≠ [] := by
    intro l s hs
    obtain ⟨f, -, rfl⟩ := List.mem_map.mp hs
    have hComma : ∀ n : Nat, ',' ∉ Nat.toDigits 10 n :=
      fun n => (Decimal.isDigits_toDigits n).not_mem rfl
    simp [fieldPair, hComma]
  exact List.map_injective_iff.mpr fieldPair_injective
    (eq_of_intercalate_eq (hTexts fs) (hTexts gs) h)

theorem baseText_injective : Function.Injective baseText := by
  intro b c h
  have hDash : ∀ i : Nat, i.repr ≠ "-" := by
    intro i hText
    have hDigit := isDigits_repr i '-' (by rw [hText]; decide)
    cases hDigit
  cases b with
  | none =>
    cases c with
    | none => rfl
    | some j => exact absurd h.symm (hDash j)
  | some i =>
    cases c with
    | none => exact absurd h (hDash i)
    | some j => exact congrArg some (repr_injective h)

theorem bar_not_mem_repr (n : Nat) : '|' ∉ n.repr.toList := (isDigits_repr n).not_mem rfl

theorem bar_not_mem_idList (ids : List Nat) : '|' ∉ (idList ids).toList := by
  have hBar : ∀ n : Nat, '|' ∉ Nat.toDigits 10 n :=
    fun n => (Decimal.isDigits_toDigits n).not_mem rfl
  induction ids with
  | nil => simp [idList]
  | cons i is ih =>
    cases is with
    | nil => simp [idList, hBar]
    | cons j js => simpa [idList, hBar] using ih

theorem bar_not_mem_baseText (b : Option Nat) : '|' ∉ (baseText b).toList := by
  cases b with
  | none => decide
  | some i => exact bar_not_mem_repr i

/-- A key tells the outline. -/
theorem request_injective {a b : Outline} (ha : a.Readable) (hb : b.Readable)
    (h : a.request = b.request) : a = b := by
  -- a request tells the kind, so only outlines of one kind are left to compare
  cases a with
  | array e n =>
    cases b with
    | array e' n' =>
      obtain ⟨hId, rfl⟩ := eq_of_append_separator (c := ':') rfl
        ((isDigits_repr e).not_mem rfl) ((isDigits_repr e').not_mem rfl)
        (by simpa only [String.append_assoc] using Request.array.inj h)
      rw [repr_injective hId]
    | _ => cases h
  | tuple is =>
    cases b with
    | tuple js => exact congrArg tuple (idList_injective (Request.tuple.inj h))
    | _ => cases h
  | union is =>
    cases b with
    | union js => exact congrArg union (idList_injective (Request.union.inj h))
    | _ => cases h
  | function ps r f =>
    cases b with
    | function ps' r' f' =>
      obtain ⟨rfl, hRest⟩ := eq_of_append_separator (c := '|') rfl ha hb
        (by simpa only [String.append_assoc] using Request.function.inj h)
      obtain ⟨hIds, hId⟩ := eq_of_append_separator (c := '|') rfl
        (bar_not_mem_idList ps) (bar_not_mem_idList ps') hRest
      rw [idList_injective hIds, repr_injective hId]
    | _ => cases h
  | pointer i =>
    cases b with
    | pointer j => exact congrArg pointer (Request.pointer.inj h)
    | _ => cases h
  | reference i =>
    cases b with
    | reference j => exact congrArg reference (Request.reference.inj h)
    | _ => cases h
  | structType n f fs =>
    cases b with
    | structType n' f' fs' =>
      obtain ⟨hName, hRest⟩ := eq_of_append_separator (c := '|') rfl
        (bar_not_mem_repr n) (bar_not_mem_repr n')
        (by simpa only [String.append_assoc] using Request.structType.inj h)
      obtain ⟨rfl, hFields⟩ := eq_of_append_separator (c := '|') rfl ha hb hRest
      rw [repr_injective hName, fieldList_injective hFields]
    | _ => cases h
  | classType n f c fs =>
    cases b with
    | classType n' f' c' fs' =>
      obtain ⟨hName, hRest⟩ := eq_of_append_separator (c := '|') rfl
        (bar_not_mem_repr n) (bar_not_mem_repr n')
        (by simpa only [String.append_assoc] using Request.classType.inj h)
      obtain ⟨rfl, hLast⟩ := eq_of_append_separator (c := '|') rfl ha hb hRest
      obtain ⟨hBase, hFields⟩ := eq_of_append_separator (c := '|') rfl
        (bar_not_mem_baseText c) (bar_not_mem_baseText c') hLast
      rw [repr_injective hName, baseText_injective hBase, fieldList_injective hFields]
    | _ => cases h

end Outline

/-- The numbers of the name and the type of a field. -/
def Field.ids (f : Field) : Nat × Nat := (f.1.id, f.2.id)

namespace Shape

def outline : Shape → Outline
  | array e n => .array e.id (Number.ofNat n).text
  | tuple es => .tuple (es.map Ty.id)
  | union vs => .union (vs.map Ty.id)
  | function ps r f => .function (ps.map Ty.id) r.id (Number.text f)
  | pointer t => .pointer t.id
  | reference t => .reference t.id
  | structType n f fs => .structType n.id (Number.text f) (fs.map Field.ids)
  | classType n f b fs => .classType n.id (Number.text f) (b.map Ty.id) (fs.map Field.ids)

theorem readable_outline (s : Shape) : s.outline.Readable := by
  cases s with
  | function _ _ f => exact Number.bar_not_mem_text f
  | structType _ f _ => exact Number.bar_not_mem_text f
  | classType _ f _ _ => exact Number.bar_not_mem_text f
  | _ => trivial

theorem request_outline (s : Shape) : s.outline.request = s.request := by
  have hIds : ∀ ts : List Ty, Outline.idList (ts.map Ty.id) = Request.idList ts := by
    intro ts
    rw [Outline.idList, List.map_map]
    rfl
  have hFields : ∀ fs : List Field,
      Outline.fieldList (fs.map Field.ids) = Request.fieldList fs := by
    intro fs
    rw [Outline.fieldList, List.map_map]
    rfl
  have hBase : ∀ b : Option Ty, Outline.baseText (b.map Ty.id) = Request.baseText b := by
    intro b
    cases b <;> rfl
  cases s with
  | tuple es => exact congrArg Request.tuple (hIds es)
  | union vs => exact congrArg Request.union (hIds vs)
  | function ps r f => simp only [outline, Outline.request, hIds, request, Request.ofFunction]
  | structType n f fs => simp only [outline, Outline.request, hFields, request, Request.ofStruct]
  | classType n f b fs =>
    simp only [outline, Outline.request, hFields, hBase, request, Request.ofClass]
  | _ => rfl

theorem request_eq_iff {s s' : Shape} : s.request = s'.request ↔ s.outline = s'.outline := by
  rw [← request_outline, ← request_outline]
  exact ⟨Outline.request_injective s.readable_outline s'.readable_outline, congrArg _⟩

end Shape

theorem Request.ofClass_ne {n m : Name} {f g : Flags} {b c : Option Ty} {fs gs : List Field}
    (h : b.map Ty.id ≠ c.map Ty.id) : ofClass n f b fs ≠ ofClass m g c gs := by
  intro hKey
  have hOutline :=
    (@Shape.request_eq_iff (.classType n f b fs) (.classType m g c gs)).mp hKey
  exact h (Outline.classType.inj hOutline).2.2.1

/-! ## Keys tell shapes apart -/

namespace Shape

variable {T : Ty → Prop} {N : Name → Prop}

theorem Over.structType {n : Name} {f : Flags} {fs : List Field}
    (h : (structType n f fs).Over T N) :
    N n ∧ f.IsDouble ∧ ∀ x ∈ fs, N x.1 ∧ T x.2 := by
  refine ⟨h.names n List.mem_cons_self, h.numbers f List.mem_cons_self, fun x hx => ⟨?_, ?_⟩⟩
  · exact h.names _ (List.mem_cons_of_mem _ (List.mem_map_of_mem hx))
  · exact h.types _ (List.mem_map_of_mem hx)

theorem Over.classType {n : Name} {f : Flags} {b : Option Ty} {fs : List Field}
    (h : (classType n f b fs).Over T N) :
    N n ∧ f.IsDouble ∧ (∀ t ∈ b.toList, T t) ∧ ∀ x ∈ fs, N x.1 ∧ T x.2 := by
  refine ⟨h.names n List.mem_cons_self, h.numbers f List.mem_cons_self,
    fun t ht => h.types t (List.mem_append_left _ ht), fun x hx => ⟨?_, ?_⟩⟩
  · exact h.names _ (List.mem_cons_of_mem _ (List.mem_map_of_mem hx))
  · exact h.types _ (List.mem_append_right _ (List.mem_map_of_mem hx))

variable (hT : TypesApart T) (hN : NamesApart N)

include hT

theorem eq_of_ids {ts us : List Ty} (ht : ∀ t ∈ ts, T t) (hu : ∀ u ∈ us, T u)
    (h : ts.map Ty.id = us.map Ty.id) : ts = us :=
  eq_of_map_eq (fun t hts u hus => hT t u (ht t hts) (hu u hus)) h

theorem eq_of_base_id {b c : Option Ty} (hb : ∀ t ∈ b.toList, T t) (hc : ∀ t ∈ c.toList, T t)
    (h : b.map Ty.id = c.map Ty.id) : b = c := by
  cases b with
  | none => exact (Option.map_eq_none_iff.mp h.symm).symm
  | some t =>
    cases c with
    | none => cases h
    | some u => rw [hT t u (hb t (by simp)) (hc u (by simp)) (Option.some.inj h)]

include hN

theorem eq_of_field_ids {fs gs : List Field} (hf : ∀ f ∈ fs, N f.1 ∧ T f.2)
    (hg : ∀ g ∈ gs, N g.1 ∧ T g.2) (h : fs.map Field.ids = gs.map Field.ids) : fs = gs := by
  refine eq_of_map_eq (fun f hfs g hgs hIds => ?_) h
  obtain ⟨hName, hType⟩ := Prod.mk.inj hIds
  exact Prod.ext (hN _ _ (hf f hfs).1 (hg g hgs).1 hName) (hT _ _ (hf f hfs).2 (hg g hgs).2 hType)

/-- Where types and names are told apart by their numbers, shapes are told apart by their keys. -/
theorem eq_of_request_eq {s s' : Shape} (h : s.Over T N) (h' : s'.Over T N)
    (hKey : s.request = s'.request) : s = s' := by
  have hOutline := request_eq_iff.mp hKey
  cases s with
  | array e n =>
    cases s' with
    | array e' n' =>
      obtain ⟨hId, hText⟩ := Outline.array.inj hOutline
      rw [hT e e' (h.types _ List.mem_cons_self) (h'.types _ List.mem_cons_self) hId,
        Number.ofNat_injective (Number.text_injective (h.numbers _ List.mem_cons_self)
          (h'.numbers _ List.mem_cons_self) hText)]
    | _ => cases hOutline
  | tuple ts =>
    cases s' with
    | tuple us => exact congrArg tuple (eq_of_ids hT h.types h'.types (Outline.tuple.inj hOutline))
    | _ => cases hOutline
  | union ts =>
    cases s' with
    | union us => exact congrArg union (eq_of_ids hT h.types h'.types (Outline.union.inj hOutline))
    | _ => cases hOutline
  | function ps r f =>
    cases s' with
    | function ps' r' f' =>
      obtain ⟨hIds, hId, hText⟩ := Outline.function.inj hOutline
      rw [eq_of_ids hT (fun t ht => h.types t (List.mem_cons_of_mem _ ht))
          (fun t ht => h'.types t (List.mem_cons_of_mem _ ht)) hIds,
        hT r r' (h.types _ List.mem_cons_self) (h'.types _ List.mem_cons_self) hId,
        Number.text_injective (h.numbers f List.mem_cons_self) (h'.numbers f' List.mem_cons_self)
          hText]
    | _ => cases hOutline
  | pointer t =>
    cases s' with
    | pointer u =>
      exact congrArg pointer (hT t u (h.types _ List.mem_cons_self)
        (h'.types _ List.mem_cons_self) (Outline.pointer.inj hOutline))
    | _ => cases hOutline
  | reference t =>
    cases s' with
    | reference u =>
      exact congrArg reference (hT t u (h.types _ List.mem_cons_self)
        (h'.types _ List.mem_cons_self) (Outline.reference.inj hOutline))
    | _ => cases hOutline
  | structType n f fs =>
    cases s' with
    | structType n' f' fs' =>
      obtain ⟨hn, hf, hfs⟩ := h.structType
      obtain ⟨hn', hf', hfs'⟩ := h'.structType
      obtain ⟨hId, hText, hIds⟩ := Outline.structType.inj hOutline
      rw [hN n n' hn hn' hId, Number.text_injective hf hf' hText,
        eq_of_field_ids hT hN hfs hfs' hIds]
    | _ => cases hOutline
  | classType n f b fs =>
    cases s' with
    | classType n' f' b' fs' =>
      obtain ⟨hn, hf, hb, hfs⟩ := h.classType
      obtain ⟨hn', hf', hb', hfs'⟩ := h'.classType
      obtain ⟨hId, hText, hBase, hIds⟩ := Outline.classType.inj hOutline
      rw [hN n n' hn hn' hId, Number.text_injective hf hf' hText, eq_of_base_id hT hb hb' hBase,
        eq_of_field_ids hT hN hfs hfs' hIds]
    | _ => cases hOutline

end Shape

end SemanticCore
