import SemanticCore.Proofs.Types.Equality
import SemanticCore.Types.Predicate

/-!
# The cases of the relations between types

The relations are functions with a branch for each kind of type. Here each of them is said to hold
in some cases and in no others, so that what is proved of it is proved case by case.

* `Ty.assignableFromList_iff`, `Ty.convertsImplicitlyInto_iff`, …: a relation between lists.
* `Ty.ancestors`, `Ty.chain`: what a class inherits from, without and with the class itself;
  `Ty.derivesFrom_iff`, `Ty.isSubclassOf_iff`.
* `Ty.Alike.not_derivesFrom`: no class derives from one that is equal to it.
* `Ty.Assigns`, `Ty.assignableFrom_iff`: the cases of assignment.
* `Ty.Widens`, `Ty.convertsImplicitly_iff`: the conversions without a cast.
* `Ty.Casts`, `Ty.convertsExplicitly_iff`: the conversions with a cast.
* `Ty.Meets`, `Ty.compatible_iff`: the cases of compatibility.
-/

namespace SemanticCore.Ty

variable {a b c : Ty} {ts us : List Ty}

/-! ## Lists of types -/

/-- A function that compares lists entry by entry. -/
theorem forall₂_of_entries {r : Ty → Ty → Bool} {f : List Ty → List Ty → Bool}
    (hNil : f [] [] = true) (hCons : ∀ t u ts us, f (t :: ts) (u :: us) = (r t u && f ts us))
    (hLeft : ∀ t ts, f (t :: ts) [] = false) (hRight : ∀ u us, f [] (u :: us) = false) :
    f ts us = true ↔ List.Forall₂ (fun t u => r t u = true) ts us := by
  induction ts generalizing us with
  | nil => cases us <;> simp [hNil, hRight]
  | cons t ts ih => cases us <;> simp [hLeft, hCons, ih]

theorem assignableFromList_iff : assignableFromList ts us = true ↔
    List.Forall₂ (fun t u => t.assignableFrom u = true) ts us :=
  forall₂_of_entries rfl (fun _ _ _ _ => rfl) (fun _ _ => rfl) fun _ _ => rfl

theorem convertsImplicitlyList_iff : convertsImplicitlyList ts us = true ↔
    List.Forall₂ (fun t u => t.convertsImplicitly u = true) ts us :=
  forall₂_of_entries rfl (fun _ _ _ _ => rfl) (fun _ _ => rfl) fun _ _ => rfl

theorem convertsExplicitlyList_iff : convertsExplicitlyList ts us = true ↔
    List.Forall₂ (fun t u => t.convertsExplicitly u = true) ts us :=
  forall₂_of_entries rfl (fun _ _ _ _ => rfl) (fun _ _ => rfl) fun _ _ => rfl

theorem compatibleList_iff : compatibleList ts us = true ↔
    List.Forall₂ (fun t u => t.compatible u = true) ts us :=
  forall₂_of_entries rfl (fun _ _ _ _ => rfl) (fun _ _ => rfl) fun _ _ => rfl

theorem convertsImplicitlyInto_iff : convertsImplicitlyInto ts us = true ↔
    ∀ t ∈ ts, ∃ u ∈ us, t.convertsImplicitly u = true := by
  induction ts with
  | nil => simp [convertsImplicitlyInto]
  | cons t ts ih => simp [convertsImplicitlyInto, ih]

theorem convertsExplicitlyInto_iff : convertsExplicitlyInto ts us = true ↔
    ∀ t ∈ ts, ∃ u ∈ us, t.convertsExplicitly u = true := by
  induction ts with
  | nil => simp [convertsExplicitlyInto]
  | cons t ts ih => simp [convertsExplicitlyInto, ih]

theorem compatibleSome_iff : compatibleSome ts us = true ↔
    ∃ t ∈ ts, ∃ u ∈ us, t.compatible u = true := by
  induction ts with
  | nil => simp [compatibleSome]
  | cons t ts ih => simp [compatibleSome, ih]

/-! ## Equality -/

theorem equal_refl (a : Ty) : a.equal a = true := (equal_iff a a).mpr (.refl a)

theorem equal_comm (a b : Ty) : a.equal b = b.equal a := by
  rw [Bool.eq_iff_iff, equal_iff, equal_iff]
  exact ⟨.symm, .symm⟩

theorem primitive_equal_iff {p : Primitive} : (primitive p).equal b = true ↔ b = primitive p := by
  rw [equal_iff]
  constructor
  · intro h
    cases h
    rfl
  · rintro rfl
    exact .refl _

/-! ## Inheritance -/

/-- The classes that a class inherits from, its base class first. -/
def ancestors : Ty → List Ty
  | .classType _ _ _ (some b) => b :: ancestors b
  | _ => []
termination_by structural t => t

theorem derivesFrom_iff : a.derivesFrom b = true ↔ b ∈ a.ancestors := by
  induction a using Ty.induction with
  | classType o h fs base _ ih =>
    cases base with
    | none => simp [derivesFrom, ancestors]
    | some c =>
      rw [derivesFrom, ancestors, Bool.or_eq_true, isSame_iff, ih c rfl, List.mem_cons]
      exact or_congr_left eq_comm
  | _ => simp [derivesFrom, ancestors]

/-- A type and what it inherits from, nearest first. -/
def chain (t : Ty) : List Ty := t :: t.ancestors

theorem chain_suffix (h : b ∈ a.ancestors) : b.chain <:+ a.ancestors := by
  fun_induction ancestors a with
  | case1 o hd fs c ih =>
    rcases List.mem_cons.mp h with rfl | h
    · exact List.suffix_rfl
    · exact (ih h).trans (List.suffix_cons c c.ancestors)
  | case2 => cases h

theorem length_ancestors_lt (h : b ∈ a.ancestors) : b.ancestors.length < a.ancestors.length :=
  (chain_suffix h).length_le

theorem mem_ancestors_trans (h : b ∈ a.ancestors) (h' : c ∈ b.ancestors) : c ∈ a.ancestors :=
  (chain_suffix h).subset (List.mem_cons_of_mem b h')

theorem isSubclassOf_iff : a.isSubclassOf b = true ↔
    (a.isClass = true ∧ b.isClass = true) ∧ b ∈ a.ancestors := by
  rw [isSubclassOf, Bool.and_eq_true, Bool.and_eq_true, derivesFrom_iff]

theorem isSubclassOf_trans (h : a.isSubclassOf b = true) (h' : b.isSubclassOf c = true) :
    a.isSubclassOf c = true := by
  obtain ⟨⟨ha, -⟩, hMem⟩ := isSubclassOf_iff.mp h
  obtain ⟨⟨-, hc⟩, hMem'⟩ := isSubclassOf_iff.mp h'
  exact isSubclassOf_iff.mpr ⟨⟨ha, hc⟩, mem_ancestors_trans hMem hMem'⟩

/-- Chains of base classes end, so no two classes derive from each other. -/
theorem isSubclassOf_asymm (h : a.isSubclassOf b = true) : ¬ b.isSubclassOf a = true := by
  intro h'
  have hLt := length_ancestors_lt (isSubclassOf_iff.mp h).2
  exact absurd hLt (Nat.lt_asymm (length_ancestors_lt (isSubclassOf_iff.mp h').2))

theorem Alike.length_ancestors (h : Alike a b) : a.ancestors.length = b.ancestors.length := by
  induction a using Ty.induction generalizing b with
  | classType o hd fs base _ ih =>
    cases h with
    | classType _ _ _ _ hBase =>
      cases hBase with
      | none => rfl
      | some hRel => rw [ancestors, ancestors, List.length_cons, List.length_cons, ih _ rfl hRel]
  | _ =>
    cases h
    rfl

theorem Alike.not_derivesFrom (h : Alike a b) : a.derivesFrom b = false := by
  rw [← Bool.not_eq_true, derivesFrom_iff]
  intro hMem
  exact absurd (length_ancestors_lt hMem) (h.length_ancestors ▸ Nat.lt_irrefl _)

/-- Types that are alike are related only if they are one. -/
theorem Alike.related_iff (h : Alike a b) : a.related b = true ↔ a = b := by
  rw [related, h.not_derivesFrom, h.symm.not_derivesFrom, Bool.or_false, Bool.or_false, isSame_iff]

theorem related_comm (a b : Ty) : a.related b = b.related a := by
  rw [related, related, Bool.or_right_comm]
  congr 2
  rw [Bool.eq_iff_iff, isSame_iff, isSame_iff]
  exact eq_comm

/-! ## Assignment -/

/-- What may be assigned, by the kind of the target. -/
inductive Assigns : Ty → Ty → Prop
  | primitive {p : Primitive} (void : p ≠ .void) (auto : p ≠ .auto) :
      Assigns (.primitive p) (.primitive p)
  | array {o o' : Origin} {e e' : Ty} {n : Nat} (element : e.assignableFrom e' = true) :
      Assigns (.array o e n) (.array o' e' n)
  | tuple {o o' : Origin} {es es' : List Ty}
      (elements : List.Forall₂ (fun t u => t.assignableFrom u = true) es es') :
      Assigns (.tuple o es) (.tuple o' es')
  | union {o : Origin} {vs : List Ty} {b : Ty}
      (variant : (Ty.union o vs).equal b = true ∨ ∃ v ∈ vs, v.equal b = true) :
      Assigns (.union o vs) b
  | function {o : Origin} {ps : List Ty} {r b : Ty} {f : Flags}
      (equal : (Ty.function o ps r f).equal b = true) : Assigns (.function o ps r f) b
  | structType {o : Origin} {h : RecordHead} {fs : List Field} {b : Ty}
      (equal : (Ty.structType o h fs).equal b = true) : Assigns (.structType o h fs) b
  | pointer {o o' : Origin} {t s : Ty} (pointee : t.equal s = true ∨ s.isSubclassOf t = true) :
      Assigns (.pointer o t) (.pointer o' s)
  | reference {o o' : Origin} {t s : Ty} (referent : t.equal s = true ∨ s.isSubclassOf t = true) :
      Assigns (.reference o t) (.reference o' s)
  | classes {o : Origin} {h : RecordHead} {fs : List Field} {base : Option Ty} {b : Ty}
      (source : (Ty.classType o h fs base).equal b = true ∨
        b.isSubclassOf (.classType o h fs base) = true) : Assigns (.classType o h fs base) b

theorem assignableFrom_iff : a.assignableFrom b = true ↔ Assigns a b := by
  rw [assignableFrom.eq_def]
  constructor
  · intro h
    split at h
    · cases h
    · cases h
    · rename_i p hVoid hAuto
      rw [primitive_equal_iff.mp h]
      exact .primitive hVoid hAuto
    · exact .function h
    · exact .structType h
    · split at h
      · rw [Bool.and_eq_true, beq_iff_eq] at h
        obtain ⟨rfl, hElement⟩ := h
        exact .array hElement
      · cases h
    · split at h
      · exact .tuple (assignableFromList_iff.mp h)
      · cases h
    · refine .union ?_
      simpa using h
    · split at h
      · exact .pointer (Bool.or_eq_true _ _ ▸ h)
      · cases h
    · split at h
      · exact .reference (Bool.or_eq_true _ _ ▸ h)
      · cases h
    · exact .classes (Bool.or_eq_true _ _ ▸ h)
  · intro h
    cases h with
    | @primitive p void auto =>
      cases p with
      | void => exact absurd rfl void
      | auto => exact absurd rfl auto
      | _ => exact equal_refl _
    | array element => exact Bool.and_eq_true_iff.mpr ⟨beq_self_eq_true _, element⟩
    | tuple elements => exact assignableFromList_iff.mpr elements
    | union variant => simpa using variant
    | function equal => exact equal
    | structType equal => exact equal
    | pointer pointee => exact (Bool.or_eq_true _ _).mpr pointee
    | reference referent => exact (Bool.or_eq_true _ _).mpr referent
    | classes source => exact (Bool.or_eq_true _ _).mpr source

/-! ## Conversion -/

/-- The conversions without a cast, apart from those to an equal type. -/
inductive Widens : Ty → Ty → Prop
  | integer {k k' : IntegerKind} (bits : k.bits < k'.bits) :
      Widens (.primitive (.integer k)) (.primitive (.integer k'))
  | integerFloat (k : IntegerKind) (k' : FloatKind) :
      Widens (.primitive (.integer k)) (.primitive (.float k'))
  | float {k k' : FloatKind} (bits : k.bits < k'.bits) :
      Widens (.primitive (.float k)) (.primitive (.float k'))
  | char (k : IntegerKind) : Widens (.primitive .char) (.primitive (.integer k))
  | array {o o' : Origin} {e e' : Ty} {n : Nat} (fixed : n ≠ 0) (element : e.equal e' = true) :
      Widens (.array o e n) (.array o' e' 0)
  | tuple {o o' : Origin} {es es' : List Ty}
      (elements : List.Forall₂ (fun t u => t.convertsImplicitly u = true) es es') :
      Widens (.tuple o es) (.tuple o' es')
  | union {o o' : Origin} {vs vs' : List Ty}
      (variants : ∀ v ∈ vs, ∃ w ∈ vs', v.convertsImplicitly w = true) :
      Widens (.union o vs) (.union o' vs')
  | pointer {o o' : Origin} {t t' : Ty} (pointee : t.isSubclassOf t' = true) :
      Widens (.pointer o t) (.pointer o' t')
  | reference {o o' : Origin} {t t' : Ty} (referent : t.isSubclassOf t' = true) :
      Widens (.reference o t) (.reference o' t')
  | classType {o : Origin} {h : RecordHead} {fs : List Field} {base : Option Ty} {b : Ty}
      (subclass : (Ty.classType o h fs base).isSubclassOf b = true) :
      Widens (.classType o h fs base) b

theorem convertsImplicitly_iff : a.convertsImplicitly b = true ↔
    (a ≠ .primitive .void ∧ a ≠ .primitive .auto) ∧ (a.equal b = true ∨ Widens a b) := by
  rw [convertsImplicitly.eq_def, Bool.and_eq_true, Bool.and_eq_true, Bool.or_eq_true, bne_iff_ne,
    bne_iff_ne]
  refine and_congr_right fun _ => or_congr_right ⟨fun h => ?_, fun h => ?_⟩
  · split at h
    · exact .integer (of_decide_eq_true h)
    · exact .integerFloat _ _
    · exact .float (of_decide_eq_true h)
    · exact .char _
    · simp only [Bool.and_eq_true, bne_iff_ne, beq_iff_eq] at h
      obtain ⟨⟨hFixed, rfl⟩, hElement⟩ := h
      exact .array hFixed hElement
    · exact .tuple (convertsImplicitlyList_iff.mp h)
    · exact .union (convertsImplicitlyInto_iff.mp h)
    · exact .pointer h
    · exact .reference h
    · exact .classType h
    · cases h
  · cases h with
    | integer bits => exact decide_eq_true bits
    | integerFloat => rfl
    | float bits => exact decide_eq_true bits
    | char => rfl
    | array fixed element => simp [fixed, element]
    | tuple elements => exact convertsImplicitlyList_iff.mpr elements
    | union variants => exact convertsImplicitlyInto_iff.mpr variants
    | pointer pointee => exact pointee
    | reference referent => exact referent
    | classType subclass => exact subclass

theorem convertsImplicitly_refl (hVoid : a ≠ .primitive .void) (hAuto : a ≠ .primitive .auto) :
    a.convertsImplicitly a = true :=
  convertsImplicitly_iff.mpr ⟨⟨hVoid, hAuto⟩, .inl (equal_refl a)⟩

theorem isNumeric_iff : a.isNumeric = true ↔
    (∃ k, a = .primitive (.integer k)) ∨ ∃ k, a = .primitive (.float k) := by
  cases a with
  | primitive p => cases p <;> simp [isNumeric, kind]
  | _ => simp [isNumeric, kind]

/-- Whether a pointer to one type can be cast to a pointer to another. -/
def pointeesConvert (a b : Ty) : Bool :=
  if a.isClass && b.isClass then a.related b else a.convertsExplicitly b

/-- The conversions with a cast, apart from those that need none. -/
inductive Casts : Ty → Ty → Prop
  | numeric {a b : Ty} (source : a.isNumeric = true) (target : b.isNumeric = true) : Casts a b
  | bool (k : IntegerKind) : Casts (.primitive .bool) (.primitive (.integer k))
  | char (k : IntegerKind) : Casts (.primitive .char) (.primitive (.integer k))
  | array {o o' : Origin} {e e' : Ty} {n n' : Nat} (element : e.convertsExplicitly e' = true) :
      Casts (.array o e n) (.array o' e' n')
  | tuple {o o' : Origin} {es es' : List Ty}
      (elements : List.Forall₂ (fun t u => t.convertsExplicitly u = true) es es') :
      Casts (.tuple o es) (.tuple o' es')
  | union {o o' : Origin} {vs vs' : List Ty}
      (variants : ∀ v ∈ vs, ∃ w ∈ vs', v.convertsExplicitly w = true) :
      Casts (.union o vs) (.union o' vs')
  | pointer {o o' : Origin} {t t' : Ty} (pointee : t.pointeesConvert t' = true) :
      Casts (.pointer o t) (.pointer o' t')
  | reference {o o' : Origin} {t t' : Ty} (referent : t.pointeesConvert t' = true) :
      Casts (.reference o t) (.reference o' t')
  | classes {a b : Ty} (source : a.isClass = true) (target : b.isClass = true)
      (related : a.related b = true) : Casts a b

theorem convertsExplicitly_iff : a.convertsExplicitly b = true ↔
    a.convertsImplicitly b = true ∨ Casts a b := by
  rw [convertsExplicitly.eq_def, Bool.or_eq_true]
  refine or_congr_right ⟨fun h => ?_, fun h => ?_⟩
  · split at h
    · exact .numeric rfl rfl
    · exact .numeric rfl rfl
    · exact .numeric rfl rfl
    · exact .numeric rfl rfl
    · exact .bool _
    · exact .char _
    · exact .array h
    · exact .tuple (convertsExplicitlyList_iff.mp h)
    · exact .union (convertsExplicitlyInto_iff.mp h)
    · exact .pointer h
    · exact .reference h
    · exact .classes rfl rfl h
    · cases h
  · cases h with
    | numeric source target =>
      rcases isNumeric_iff.mp source with ⟨k, rfl⟩ | ⟨k, rfl⟩ <;>
        rcases isNumeric_iff.mp target with ⟨k', rfl⟩ | ⟨k', rfl⟩ <;> rfl
    | bool => rfl
    | char => rfl
    | array element => exact element
    | tuple elements => exact convertsExplicitlyList_iff.mpr elements
    | union variants => exact convertsExplicitlyInto_iff.mpr variants
    | pointer pointee => exact pointee
    | reference referent => exact referent
    | classes source target related =>
      cases a with
      | classType =>
        cases b with
        | classType => exact related
        | _ => cases target
      | _ => cases source

/-- Numbers are converted to numbers, and with a cast to all of them. -/
theorem convertsNumeric_iff (ha : a.isNumeric = true) :
    (a.convertsImplicitly b || a.convertsExplicitly b) = true ↔ b.isNumeric = true := by
  rw [Bool.or_eq_true, convertsExplicitly_iff, ← or_assoc, or_self]
  constructor
  · rintro (hImplicit | hCasts)
    · rcases (convertsImplicitly_iff.mp hImplicit).2 with hEqual | hWidens
      · rcases isNumeric_iff.mp ha with ⟨k, rfl⟩ | ⟨k, rfl⟩ <;> rwa [primitive_equal_iff.mp hEqual]
      · cases hWidens <;> first | rfl | cases ha
    · cases hCasts with
      | numeric _ target => exact target
      | classes source => rcases isNumeric_iff.mp ha with ⟨k, rfl⟩ | ⟨k, rfl⟩ <;> cases source
      | _ => cases ha
  · exact fun hb => .inr (.numeric ha hb)

/-! ## Compatibility -/

/-- Which types are compatible, by the kind of the first. -/
inductive Meets : Ty → Ty → Prop
  | primitive (p : Primitive) : Meets (.primitive p) (.primitive p)
  | numeric {a b : Ty} (source : a.isNumeric = true) (target : b.isNumeric = true) : Meets a b
  | char (k : IntegerKind) : Meets (.primitive .char) (.primitive (.integer k))
  | array {o o' : Origin} {e e' : Ty} {n n' : Nat} (element : e.compatible e' = true) :
      Meets (.array o e n) (.array o' e' n')
  | tuple {o o' : Origin} {es es' : List Ty}
      (elements : List.Forall₂ (fun t u => t.compatible u = true) es es') :
      Meets (.tuple o es) (.tuple o' es')
  | unions {o o' : Origin} {vs vs' : List Ty}
      (variants : ∃ v ∈ vs, ∃ w ∈ vs', v.compatible w = true) :
      Meets (.union o vs) (.union o' vs')
  | union {o : Origin} {vs : List Ty} {b : Ty} (other : b.kind ≠ .union)
      (variants : ∃ v ∈ vs, v.compatible b = true) : Meets (.union o vs) b
  | function {o : Origin} {ps : List Ty} {r b : Ty} {f : Flags}
      (equal : (Ty.function o ps r f).equal b = true) : Meets (.function o ps r f) b
  | structType {o : Origin} {h : RecordHead} {fs : List Field} {b : Ty}
      (equal : (Ty.structType o h fs).equal b = true) : Meets (.structType o h fs) b
  | pointer {o : Origin} {t b : Ty} (converts : (Ty.pointer o t).convertsImplicitly b = true ∨
      b.convertsImplicitly (.pointer o t) = true) : Meets (.pointer o t) b
  | reference {o : Origin} {t b : Ty} (converts : (Ty.reference o t).convertsImplicitly b = true ∨
      b.convertsImplicitly (.reference o t) = true) : Meets (.reference o t) b
  | classes {a b : Ty} (source : a.isClass = true) (target : b.isClass = true)
      (related : a.related b = true) : Meets a b

theorem compatible_iff : a.compatible b = true ↔ Meets a b := by
  rw [compatible.eq_def]
  constructor
  · intro h
    split at h
    · exact .numeric rfl ((convertsNumeric_iff rfl).mp h)
    · exact .numeric rfl ((convertsNumeric_iff rfl).mp h)
    · rcases (convertsImplicitly_iff.mp h).2 with hEqual | hWidens
      · rw [primitive_equal_iff.mp hEqual]
        exact .primitive .char
      · cases hWidens with
        | char k => exact .char k
    · rw [primitive_equal_iff.mp h]
      exact .primitive _
    · exact .function h
    · exact .structType h
    · split at h
      · exact .array h
      · cases h
    · split at h
      · exact .tuple (compatibleList_iff.mp h)
      · cases h
    · split at h
      · exact .unions (compatibleSome_iff.mp h)
      · rename_i hOther
        refine .union (fun hKind => ?_) (by simpa using compatibleSome_iff.mp h)
        cases b with
        | union o' vs' => exact hOther o' vs' rfl
        | primitive p => cases p <;> cases hKind
        | _ => cases hKind
    · exact .pointer (Bool.or_eq_true _ _ ▸ h)
    · exact .reference (Bool.or_eq_true _ _ ▸ h)
    · rw [Bool.and_eq_true] at h
      exact .classes rfl h.1 h.2
  · intro h
    cases h with
    | primitive p =>
      rcases p with k | k | _ | _ | _ | _
      · exact Bool.or_eq_true_iff.mpr (.inl (convertsImplicitly_refl nofun nofun))
      · exact Bool.or_eq_true_iff.mpr (.inl (convertsImplicitly_refl nofun nofun))
      · exact equal_refl _
      · exact convertsImplicitly_refl nofun nofun
      · exact equal_refl _
      · exact equal_refl _
    | numeric source target =>
      have hConverts := (convertsNumeric_iff source).mpr target
      rcases isNumeric_iff.mp source with ⟨k, rfl⟩ | ⟨k, rfl⟩ <;> exact hConverts
    | char k => exact convertsImplicitly_iff.mpr ⟨⟨nofun, nofun⟩, .inr (.char k)⟩
    | array element => exact element
    | tuple elements => exact compatibleList_iff.mpr elements
    | unions variants => exact compatibleSome_iff.mpr variants
    | @union o vs b other variants =>
      have hSome : compatibleSome vs [b] = true := compatibleSome_iff.mpr (by simpa using variants)
      cases b with
      | union => exact absurd rfl other
      | _ => exact hSome
    | function equal => exact equal
    | structType equal => exact equal
    | pointer converts => exact (Bool.or_eq_true _ _).mpr converts
    | reference converts => exact (Bool.or_eq_true _ _).mpr converts
    | classes source target related =>
      cases a with
      | classType => exact Bool.and_eq_true_iff.mpr ⟨target, related⟩
      | _ => cases source

end SemanticCore.Ty
