import Mathlib.Data.List.Nodup
import SemanticCore.Interner.Basic

/-!
# Numbers of names

An interner numbers its names in the order in which their texts came. So a name of an interner that
was not reset can be told from its number.

* `Interner.Reached`: the interners between two resets.
* `Interner.Reached.eq_of_id`: names of one interner with the same number are the same.
-/

namespace SemanticCore.Interner

/-- An interner as it is after some texts were interned and before it is reset. -/
inductive Reached : Interner → Prop
  | start (era : Nat) (a : Arena) : Reached (Interner.start era a).1
  | intern {s : Interner} (a : Arena) (text : String) (h : Reached s) :
      Reached (s.intern a text).2.1

/-- The number of a name is its place. -/
def Numbered (s : Interner) : Prop := s.names.map Name.id = List.range s.names.length

variable {s : Interner}

theorem Numbered.intern (h : s.Numbered) (a : Arena) (text : String) :
    (s.intern a text).2.1.Numbered := by
  unfold Interner.intern
  split
  · exact h
  · simp only [Numbered, List.map_append, List.length_append, List.map_cons, List.map_nil,
      List.length_singleton, List.range_succ]
    rw [h]

/-- The interner of an era is what interning the empty text, then the built-in names and then the
keywords leaves. -/
theorem exists_start (era : Nat) (a : Arena) :
    ∃ (first : Name × Interner × Arena) (all keywords : List (String × Name) × Interner × Arena),
      intern { era } a "" = first ∧ internAll first.2.1 first.2.2 Builtin.names = all ∧
        internAll all.2.1 all.2.2 Builtin.keywords = keywords ∧
        start era a = ({ keywords.2.1 with
          empty := first.1
          builtins := all.1
          builtinNames := all.1.map Prod.snd
          keywordNames := keywords.1.map Prod.snd }, keywords.2.2) := by
  refine ⟨_, _, _, rfl, rfl, rfl, ?_⟩
  unfold start
  generalize Builtin.names = texts, Builtin.keywords = keywords
  rfl

/-- What interning keeps holds of the interner of an era and its arena, if it does not matter which
names are noted as the empty one, the built-in ones and the keywords. -/
theorem start_induction {P : Interner → Arena → Prop} (era : Nat) (a : Arena) (hNew : P { era } a)
    (hIntern : ∀ s a text, P s a → P (s.intern a text).2.1 (s.intern a text).2.2)
    (hNote : ∀ s a empty builtins builtinNames keywordNames, P s a →
      P { s with empty, builtins, builtinNames, keywordNames } a) :
    P (start era a).1 (start era a).2 := by
  have hAll : ∀ texts s a, P s a → P (s.internAll a texts).2.1 (s.internAll a texts).2.2 := by
    intro texts
    induction texts with
    | nil => exact fun _ _ h => h
    | cons text texts ih => exact fun s a h => ih _ _ (hIntern s a text h)
  obtain ⟨first, all, keywords, hFirst, hBuiltins, hKeywords, hStart⟩ := exists_start era a
  have hKept := hAll Builtin.keywords _ _ (hAll Builtin.names _ _ (hIntern _ _ "" hNew))
  rw [hFirst, hBuiltins, hKeywords] at hKept
  rw [hStart]
  exact hNote _ _ _ _ _ _ hKept

theorem numbered_start (era : Nat) (a : Arena) : (Interner.start era a).1.Numbered :=
  start_induction (P := fun s _ => s.Numbered) era a rfl (fun _ a text h => h.intern a text)
    fun _ _ _ _ _ _ h => h

theorem Reached.numbered (h : Reached s) : s.Numbered := by
  induction h with
  | start era a => exact numbered_start era a
  | intern a text _ ih => exact ih.intern a text

/-- Names of one interner with the same number are the same. -/
theorem Reached.eq_of_id (h : Reached s) {m n : Name} (hm : m ∈ s.names) (hn : n ∈ s.names)
    (hId : m.id = n.id) : m = n := by
  have hNodup : (s.names.map Name.id).Nodup := h.numbered ▸ List.nodup_range
  exact List.inj_on_of_nodup_map hNodup hm hn hId

end SemanticCore.Interner
