import SemanticCore.Proofs.Types.Built
import SemanticCore.Proofs.Types.Relations

/-!
# Relations and equality

Most of what the relations compare they compare with `Ty.equal`, so types that are equal are in the
same relations. Classes are the exception: whether one derives from another, and whether two are
related, goes by the objects. A class is not related to an equal class of another registry, nor to
one made after a reset.

* `Ty.classes`: the classes of a type whose objects matter.
* `Ty.Twin`: equality that takes the classes as objects.
* `Ty.SameRelations`: two pairs of types are in the same relations.
* `Ty.relations_congr`: equal types with the same classes are in the same relations, and classes
  only then.
* `Ty.equal_classes_incompatible`: two classes that are equal and not compatible.
-/

namespace SemanticCore.Ty

variable {a a' b b' : Ty} {ts ts' : List Ty}

/-! ## Classes as objects -/

mutual

/-- The classes of a type, in order, without those in functions and in the fields of records. -/
def classes : Ty → List Ty
  | .array _ e _ => classes e
  | .tuple _ ts | .union _ ts => classesOfList ts
  | .pointer _ t | .reference _ t => classes t
  | .classType o h fs b => [.classType o h fs b]
  | _ => []
termination_by structural t => t

def classesOfList : List Ty → List Ty
  | [] => []
  | t :: ts => classes t ++ classesOfList ts
termination_by structural ts => ts

end

/-- Equality of structure that takes the classes of a type as objects. -/
inductive Twin : Ty → Ty → Prop
  | primitive (p : Primitive) : Twin (.primitive p) (.primitive p)
  | array {o o' : Origin} {e e' : Ty} {n : Nat} (element : Twin e e') :
      Twin (.array o e n) (.array o' e' n)
  | tuple {o o' : Origin} {es es' : List Ty} (elements : List.Forall₂ Twin es es') :
      Twin (.tuple o es) (.tuple o' es')
  | union {o o' : Origin} {vs vs' : List Ty} (variants : List.Forall₂ Twin vs vs') :
      Twin (.union o vs) (.union o' vs')
  | function {o o' : Origin} {ps ps' : List Ty} {r r' : Ty} {f f' : Flags}
      (alike : Alike (.function o ps r f) (.function o' ps' r' f')) :
      Twin (.function o ps r f) (.function o' ps' r' f')
  | pointer {o o' : Origin} {t t' : Ty} (pointee : Twin t t') :
      Twin (.pointer o t) (.pointer o' t')
  | reference {o o' : Origin} {t t' : Ty} (referent : Twin t t') :
      Twin (.reference o t) (.reference o' t')
  | structType {o o' : Origin} {h h' : RecordHead} {fs fs' : List Field}
      (alike : Alike (.structType o h fs) (.structType o' h' fs')) :
      Twin (.structType o h fs) (.structType o' h' fs')
  | classType (o : Origin) (h : RecordHead) (fs : List Field) (b : Option Ty) :
      Twin (.classType o h fs b) (.classType o h fs b)

/-- In alike lists the classes of each entry are as many, so they can be told apart. -/
theorem forall₂_classes (h : List.Forall₂ Alike ts ts')
    (hLength : ∀ t ∈ ts, ∀ t', Alike t t' → t.classes.length = t'.classes.length) :
    (classesOfList ts).length = (classesOfList ts').length ∧
      (classesOfList ts = classesOfList ts' →
        List.Forall₂ (fun t t' => Alike t t' ∧ t.classes = t'.classes) ts ts') := by
  induction h with
  | nil => exact ⟨rfl, fun _ => .nil⟩
  | @cons t t' ts ts' hHead _ ih =>
    have hFirst := hLength t List.mem_cons_self t' hHead
    obtain ⟨hRest, hSplit⟩ := ih fun u hu => hLength u (List.mem_cons_of_mem _ hu)
    simp only [classesOfList]
    refine ⟨by rw [List.length_append, List.length_append, hFirst, hRest], fun hEq => ?_⟩
    obtain ⟨hClasses, hOthers⟩ := List.append_inj hEq hFirst
    exact .cons ⟨hHead, hClasses⟩ (hSplit hOthers)

theorem Alike.length_classes (h : Alike a b) : a.classes.length = b.classes.length := by
  induction a using Ty.induction generalizing b with
  | array o e n ih =>
    cases h with
    | array element =>
      rw [classes, classes]
      exact ih element
  | tuple o es ih =>
    cases h with
    | tuple elements => exact (forall₂_classes elements fun t ht _ => ih t ht).1
  | union o vs ih =>
    cases h with
    | union variants => exact (forall₂_classes variants fun t ht _ => ih t ht).1
  | pointer o t ih =>
    cases h with
    | pointer pointee =>
      rw [classes, classes]
      exact ih pointee
  | reference o t ih =>
    cases h with
    | reference referent =>
      rw [classes, classes]
      exact ih referent
  | _ =>
    cases h
    rfl

theorem Alike.twin (h : Alike a b) (hClasses : a.classes = b.classes) : Twin a b := by
  have hList : ∀ {ts us : List Ty}, List.Forall₂ Alike ts us →
      classesOfList ts = classesOfList us →
      (∀ t ∈ ts, ∀ {u}, Alike t u → t.classes = u.classes → Twin t u) →
      List.Forall₂ Twin ts us :=
    fun h hEq ih => forall₂_of_mem ((forall₂_classes h fun _ _ _ => Alike.length_classes).2 hEq)
      fun t ht _ hu => ih t ht hu.1 hu.2
  induction a using Ty.induction generalizing b with
  | primitive p =>
    cases h
    exact .primitive p
  | array o e n ih =>
    cases h with
    | array element => exact .array (ih element hClasses)
  | tuple o es ih =>
    cases h with
    | tuple elements => exact .tuple (hList elements hClasses ih)
  | union o vs ih =>
    cases h with
    | union variants => exact .union (hList variants hClasses ih)
  | function o ps r f =>
    cases h with
    | function params result => exact .function (.function params result)
  | pointer o t ih =>
    cases h with
    | pointer pointee => exact .pointer (ih pointee hClasses)
  | reference o t ih =>
    cases h with
    | reference referent => exact .reference (ih referent hClasses)
  | structType o hd fs =>
    cases h with
    | structType name flags fieldNames fieldTypes =>
      exact .structType (.structType name flags fieldNames fieldTypes)
  | classType o hd fs base =>
    cases h with
    | classType =>
      obtain ⟨rfl, rfl, rfl, rfl⟩ := Ty.classType.inj (List.singleton_inj.mp hClasses)
      exact .classType o hd fs base

theorem Twin.alike (h : Twin a b) : Alike a b := by
  have hList : ∀ {ts us : List Ty}, List.Forall₂ Twin ts us →
      (∀ t ∈ ts, ∀ {u}, Twin t u → Alike t u) → List.Forall₂ Alike ts us :=
    fun h ih => forall₂_of_mem h fun t ht _ hu => ih t ht hu
  induction a using Ty.induction generalizing b with
  | primitive p =>
    cases h
    exact .refl _
  | array o e n ih =>
    cases h with
    | array element => exact .array (ih element)
  | tuple o es ih =>
    cases h with
    | tuple elements => exact .tuple (hList elements ih)
  | union o vs ih =>
    cases h with
    | union variants => exact .union (hList variants ih)
  | function o ps r f =>
    cases h with
    | function alike => exact alike
  | pointer o t ih =>
    cases h with
    | pointer pointee => exact .pointer (ih pointee)
  | reference o t ih =>
    cases h with
    | reference referent => exact .reference (ih referent)
  | structType o hd fs =>
    cases h with
    | structType alike => exact alike
  | classType o hd fs base =>
    cases h
    exact .refl _

/-! ## The relations of twins -/

namespace Twin

theorem equal_eq (ha : Twin a a') (hb : Twin b b') : a.equal b = a'.equal b' := by
  rw [Bool.eq_iff_iff, equal_iff, equal_iff]
  exact ⟨fun h => ha.alike.symm.trans (h.trans hb.alike),
    fun h => ha.alike.trans (h.trans hb.alike.symm)⟩

theorem eq_primitive {p : Primitive} (h : Twin a a') (ha' : a' = .primitive p) :
    a = .primitive p := by
  subst ha'
  cases h
  rfl

theorem kind_eq (h : Twin a a') : a.kind = a'.kind := by
  cases h <;> rfl

theorem isNumeric_eq (h : Twin a a') : a.isNumeric = a'.isNumeric := by
  cases h <;> rfl

theorem isClass_eq (h : Twin a a') : a.isClass = a'.isClass := by
  cases h <;> rfl

theorem eq_of_isClass (h : Twin a a') (hClass : a.isClass = true) : a = a' := by
  cases h <;> first | rfl | cases hClass

theorem isSubclassOf_eq (ha : Twin a a') (hb : Twin b b') :
    a.isSubclassOf b = a'.isSubclassOf b' := by
  rw [isSubclassOf, isSubclassOf, ← ha.isClass_eq, ← hb.isClass_eq]
  cases hClass : a.isClass with
  | false => rfl
  | true =>
    cases hClass' : b.isClass with
    | false => rfl
    | true => rw [ha.eq_of_isClass hClass, hb.eq_of_isClass hClass']

theorem assigns (ha : Twin a a') (hb : Twin b b')
    (ih : ∀ t ∈ a.parts, ∀ {t' u u'}, Twin t t' → Twin u u' → t.assignableFrom u = true →
      t'.assignableFrom u' = true) (h : Assigns a b) : Assigns a' b' := by
  have hEqual := ha.equal_eq hb
  cases h with
  | primitive void auto =>
    cases ha
    cases hb
    exact .primitive void auto
  | array element =>
    cases ha with
    | array hElement =>
      cases hb with
      | array hElement' => exact .array (ih _ List.mem_cons_self hElement hElement' element)
  | tuple elements =>
    cases ha with
    | tuple hElements =>
      cases hb with
      | tuple hElements' => exact .tuple (forall₂_transfer elements hElements hElements' ih)
  | union variant =>
    cases ha with
    | union hVariants =>
      refine .union (variant.imp (fun h => hEqual ▸ h) fun ⟨v, hv, h⟩ => ?_)
      obtain ⟨v', hv', hTwin⟩ := exists_mem_of_forall₂ hVariants hv
      exact ⟨v', hv', hTwin.equal_eq hb ▸ h⟩
  | function equal =>
    cases ha with
    | function => exact .function (hEqual ▸ equal)
  | structType equal =>
    cases ha with
    | structType => exact .structType (hEqual ▸ equal)
  | pointer pointee =>
    cases ha with
    | pointer hTarget =>
      cases hb with
      | pointer hSource =>
        exact .pointer (by rwa [← hTarget.equal_eq hSource, ← hSource.isSubclassOf_eq hTarget])
  | reference referent =>
    cases ha with
    | reference hTarget =>
      cases hb with
      | reference hSource =>
        exact .reference (by rwa [← hTarget.equal_eq hSource, ← hSource.isSubclassOf_eq hTarget])
  | classes source =>
    have hSubclass := hb.isSubclassOf_eq ha
    cases ha with
    | classType => exact .classes (by rwa [← hEqual, ← hSubclass])

theorem assignableFrom (ha : Twin a a') (hb : Twin b b') (h : a.assignableFrom b = true) :
    a'.assignableFrom b' = true := by
  induction a using Ty.partsInduction generalizing a' b b' with
  | step a ih =>
    exact assignableFrom_iff.mpr (ha.assigns hb (fun t ht => ih t ht) (assignableFrom_iff.mp h))

theorem widens (ha : Twin a a') (hb : Twin b b')
    (ih : ∀ t ∈ a.parts, ∀ {t' u u'}, Twin t t' → Twin u u' → t.convertsImplicitly u = true →
      t'.convertsImplicitly u' = true) (h : Widens a b) : Widens a' b' := by
  cases h with
  | integer bits =>
    cases ha
    cases hb
    exact .integer bits
  | integerFloat k k' =>
    cases ha
    cases hb
    exact .integerFloat k k'
  | float bits =>
    cases ha
    cases hb
    exact .float bits
  | char k =>
    cases ha
    cases hb
    exact .char k
  | array fixed element =>
    cases ha with
    | array hElement =>
      cases hb with
      | array hElement' => exact .array fixed (hElement.equal_eq hElement' ▸ element)
  | tuple elements =>
    cases ha with
    | tuple hElements =>
      cases hb with
      | tuple hElements' => exact .tuple (forall₂_transfer elements hElements hElements' ih)
  | union variants =>
    cases ha with
    | union hVariants =>
      cases hb with
      | union hVariants' =>
        refine .union fun v' hv' => ?_
        obtain ⟨v, hv, hTwin⟩ := exists_mem_of_forall₂_right hVariants hv'
        obtain ⟨w, hw, h⟩ := variants v hv
        obtain ⟨w', hw', hTwin'⟩ := exists_mem_of_forall₂ hVariants' hw
        exact ⟨w', hw', ih v hv hTwin hTwin' h⟩
  | pointer pointee =>
    cases ha with
    | pointer hSource =>
      cases hb with
      | pointer hTarget => exact .pointer (hSource.isSubclassOf_eq hTarget ▸ pointee)
  | reference referent =>
    cases ha with
    | reference hSource =>
      cases hb with
      | reference hTarget => exact .reference (hSource.isSubclassOf_eq hTarget ▸ referent)
  | classType subclass =>
    have hSubclass := ha.isSubclassOf_eq hb
    cases ha with
    | classType => exact .classType (hSubclass ▸ subclass)

theorem convertsImplicitly (ha : Twin a a') (hb : Twin b b')
    (h : a.convertsImplicitly b = true) : a'.convertsImplicitly b' = true := by
  induction a using Ty.partsInduction generalizing a' b b' with
  | step a ih =>
    obtain ⟨⟨hVoid, hAuto⟩, hCases⟩ := convertsImplicitly_iff.mp h
    refine convertsImplicitly_iff.mpr ⟨⟨mt ha.eq_primitive hVoid, mt ha.eq_primitive hAuto⟩, ?_⟩
    exact hCases.imp (fun h => ha.equal_eq hb ▸ h) (ha.widens hb fun t ht => ih t ht)

theorem pointeesConvert (ha : Twin a a') (hb : Twin b b')
    (ih : a.convertsExplicitly b = true → a'.convertsExplicitly b' = true)
    (h : a.pointeesConvert b = true) : a'.pointeesConvert b' = true := by
  rw [Ty.pointeesConvert] at h ⊢
  rw [← ha.isClass_eq, ← hb.isClass_eq]
  split at h
  · rename_i hClasses
    rw [Bool.and_eq_true] at hClasses
    rw [if_pos (by rw [Bool.and_eq_true]; exact hClasses), ← ha.eq_of_isClass hClasses.1,
      ← hb.eq_of_isClass hClasses.2]
    exact h
  · rename_i hClasses
    rw [if_neg hClasses]
    exact ih h

theorem casts (ha : Twin a a') (hb : Twin b b')
    (ih : ∀ t ∈ a.parts, ∀ {t' u u'}, Twin t t' → Twin u u' → t.convertsExplicitly u = true →
      t'.convertsExplicitly u' = true) (h : Casts a b) : Casts a' b' := by
  cases h with
  | numeric source target => exact .numeric (ha.isNumeric_eq ▸ source) (hb.isNumeric_eq ▸ target)
  | bool k =>
    cases ha
    cases hb
    exact .bool k
  | char k =>
    cases ha
    cases hb
    exact .char k
  | array element =>
    cases ha with
    | array hElement =>
      cases hb with
      | array hElement' => exact .array (ih _ List.mem_cons_self hElement hElement' element)
  | tuple elements =>
    cases ha with
    | tuple hElements =>
      cases hb with
      | tuple hElements' => exact .tuple (forall₂_transfer elements hElements hElements' ih)
  | union variants =>
    cases ha with
    | union hVariants =>
      cases hb with
      | union hVariants' =>
        refine .union fun v' hv' => ?_
        obtain ⟨v, hv, hTwin⟩ := exists_mem_of_forall₂_right hVariants hv'
        obtain ⟨w, hw, h⟩ := variants v hv
        obtain ⟨w', hw', hTwin'⟩ := exists_mem_of_forall₂ hVariants' hw
        exact ⟨w', hw', ih v hv hTwin hTwin' h⟩
  | pointer pointee =>
    cases ha with
    | pointer hSource =>
      cases hb with
      | pointer hTarget =>
        exact .pointer (hSource.pointeesConvert hTarget (ih _ List.mem_cons_self hSource hTarget)
          pointee)
  | reference referent =>
    cases ha with
    | reference hSource =>
      cases hb with
      | reference hTarget =>
        exact .reference (hSource.pointeesConvert hTarget (ih _ List.mem_cons_self hSource hTarget)
          referent)
  | classes source target related =>
    rw [ha.eq_of_isClass source, hb.eq_of_isClass target] at related
    exact .classes (ha.isClass_eq ▸ source) (hb.isClass_eq ▸ target) related

theorem convertsExplicitly (ha : Twin a a') (hb : Twin b b')
    (h : a.convertsExplicitly b = true) : a'.convertsExplicitly b' = true := by
  induction a using Ty.partsInduction generalizing a' b b' with
  | step a ih =>
    exact convertsExplicitly_iff.mpr ((convertsExplicitly_iff.mp h).imp (ha.convertsImplicitly hb)
      (ha.casts hb fun t ht => ih t ht))

theorem meets (ha : Twin a a') (hb : Twin b b')
    (ih : ∀ t ∈ a.parts, ∀ {t' u u'}, Twin t t' → Twin u u' → t.compatible u = true →
      t'.compatible u' = true) (h : Meets a b) : Meets a' b' := by
  have hEqual := ha.equal_eq hb
  cases h with
  | primitive p =>
    cases ha
    cases hb
    exact .primitive p
  | numeric source target => exact .numeric (ha.isNumeric_eq ▸ source) (hb.isNumeric_eq ▸ target)
  | char k =>
    cases ha
    cases hb
    exact .char k
  | array element =>
    cases ha with
    | array hElement =>
      cases hb with
      | array hElement' => exact .array (ih _ List.mem_cons_self hElement hElement' element)
  | tuple elements =>
    cases ha with
    | tuple hElements =>
      cases hb with
      | tuple hElements' => exact .tuple (forall₂_transfer elements hElements hElements' ih)
  | unions variants =>
    cases ha with
    | union hVariants =>
      cases hb with
      | union hVariants' =>
        obtain ⟨v, hv, w, hw, h⟩ := variants
        obtain ⟨v', hv', hTwin⟩ := exists_mem_of_forall₂ hVariants hv
        obtain ⟨w', hw', hTwin'⟩ := exists_mem_of_forall₂ hVariants' hw
        exact .unions ⟨v', hv', w', hw', ih v hv hTwin hTwin' h⟩
  | union other variants =>
    cases ha with
    | union hVariants =>
      obtain ⟨v, hv, h⟩ := variants
      obtain ⟨v', hv', hTwin⟩ := exists_mem_of_forall₂ hVariants hv
      exact .union (hb.kind_eq ▸ other) ⟨v', hv', ih v hv hTwin hb h⟩
  | function equal =>
    cases ha with
    | function => exact .function (hEqual ▸ equal)
  | structType equal =>
    cases ha with
    | structType => exact .structType (hEqual ▸ equal)
  | pointer converts =>
    have hConverts := converts.imp (ha.convertsImplicitly hb) (hb.convertsImplicitly ha)
    cases ha with
    | pointer => exact .pointer hConverts
  | reference converts =>
    have hConverts := converts.imp (ha.convertsImplicitly hb) (hb.convertsImplicitly ha)
    cases ha with
    | reference => exact .reference hConverts
  | classes source target related =>
    rw [ha.eq_of_isClass source, hb.eq_of_isClass target] at related
    exact .classes (ha.isClass_eq ▸ source) (hb.isClass_eq ▸ target) related

theorem compatible (ha : Twin a a') (hb : Twin b b') (h : a.compatible b = true) :
    a'.compatible b' = true := by
  induction a using Ty.partsInduction generalizing a' b b' with
  | step a ih =>
    exact compatible_iff.mpr (ha.meets hb (fun t ht => ih t ht) (compatible_iff.mp h))

theorem passableTo (ha : Twin a a') (hb : Twin b b') (h : a.passableTo b = true) :
    a'.passableTo b' = true := by
  have hConverts := ha.convertsImplicitly hb
  cases ha with
  | primitive p =>
    cases p with
    | integer k =>
      cases hb with
      | primitive q => exact h
      | _ => cases h
    | _ => exact hConverts h
  | _ => exact hConverts h

end Twin

/-! ## Equal types -/

/-- Two pairs of types are in the same relations. -/
structure SameRelations (a b a' b' : Ty) : Prop where
  assignableFrom : a.assignableFrom b = a'.assignableFrom b'
  convertsImplicitly : a.convertsImplicitly b = a'.convertsImplicitly b'
  convertsExplicitly : a.convertsExplicitly b = a'.convertsExplicitly b'
  compatible : a.compatible b = a'.compatible b'
  isSubclassOf : a.isSubclassOf b = a'.isSubclassOf b'
  passableTo : a.passableTo b = a'.passableTo b'

theorem sameRelations_of_twin (ha : Twin a a') (hb : Twin b b') (ha' : Twin a' a)
    (hb' : Twin b' b) : SameRelations a b a' b' where
  assignableFrom := Bool.eq_iff_iff.mpr ⟨ha.assignableFrom hb, ha'.assignableFrom hb'⟩
  convertsImplicitly := Bool.eq_iff_iff.mpr ⟨ha.convertsImplicitly hb, ha'.convertsImplicitly hb'⟩
  convertsExplicitly := Bool.eq_iff_iff.mpr ⟨ha.convertsExplicitly hb, ha'.convertsExplicitly hb'⟩
  compatible := Bool.eq_iff_iff.mpr ⟨ha.compatible hb, ha'.compatible hb'⟩
  isSubclassOf := ha.isSubclassOf_eq hb
  passableTo := Bool.eq_iff_iff.mpr ⟨ha.passableTo hb, ha'.passableTo hb'⟩

theorem compatible_classes_iff (ha : a.isClass = true) (h : Alike a b) :
    b.compatible a = true ↔ b = a := by
  rw [compatible_iff, ← h.symm.related_iff]
  constructor
  · intro hMeets
    cases h with
    | classType =>
      cases hMeets with
      | classes _ _ related => exact related
      | numeric source => cases source
    | _ => cases ha
  · intro hRelated
    cases h with
    | classType => exact .classes rfl rfl hRelated
    | _ => cases ha

/-- Equal types are in the same relations if their classes are the same objects. A class is in the
same relations as an equal class only if they are one. -/
theorem relations_congr (hEqual : a.equal a' = true) (hEqual' : b.equal b' = true) :
    (a.classes = a'.classes → b.classes = b'.classes → SameRelations a b a' b') ∧
      (a.isClass = true → ((∀ c, SameRelations a c a' c) ↔ a = a')) := by
  rw [equal_iff] at hEqual hEqual'
  refine ⟨fun ha hb => ?_, fun hClass => ⟨fun hAll => ?_, ?_⟩⟩
  · exact sameRelations_of_twin (hEqual.twin ha) (hEqual'.twin hb) (hEqual.symm.twin ha.symm)
      (hEqual'.symm.twin hb.symm)
  · have hSelf := (compatible_classes_iff hClass (.refl a)).mpr rfl
    rw [(hAll a).compatible] at hSelf
    exact ((compatible_classes_iff hClass hEqual).mp hSelf).symm
  · rintro rfl c
    exact ⟨rfl, rfl, rfl, rfl, rfl, rfl⟩

/-- A pointer to a class, and one to the same class that was made after a reset. -/
theorem relations_congr_pointers :
    let base := classType ⟨0, .eight, 64⟩ ⟨⟨0, 0, "A", 0, default⟩, Flags.none, [], none⟩ [] none
    SameRelations (.pointer ⟨0, .eight, 65⟩ base) (.pointer ⟨0, .eight, 65⟩ base)
      (.pointer ⟨0, .eight, 66⟩ base) (.pointer ⟨0, .eight, 66⟩ base) := by
  intro base
  have hEqual : (pointer ⟨0, .eight, 65⟩ base).equal (.pointer ⟨0, .eight, 66⟩ base) = true :=
    (equal_iff _ _).mpr (.pointer (.refl base))
  exact (relations_congr hEqual hEqual).1 rfl rfl

/-- Two registries each make a class without fields and with the same name. -/
theorem equal_classes_incompatible :
    let here := classType ⟨0, .eight, 64⟩ ⟨⟨0, 0, "A", 0, default⟩, Flags.none, [], none⟩ [] none
    let there := classType ⟨1, .eight, 64⟩ ⟨⟨0, 0, "A", 0, default⟩, Flags.none, [], none⟩ [] none
    here.Built ∧ there.Built ∧ here.equal here = true ∧ here.equal there = true ∧
      here.compatible here = true ∧ here.compatible there = false := by
  intro here there
  have hAlike : Alike there here := .classType rfl rfl rfl .nil .none
  refine ⟨⟨0, 8, _, [], .classType _ [] none, rfl, rfl⟩,
    ⟨1, 8, _, [], .classType _ [] none, rfl, rfl⟩, equal_refl here,
    (equal_iff _ _).mpr hAlike.symm, (compatible_classes_iff rfl (.refl here)).mpr rfl, ?_⟩
  rw [← Bool.not_eq_true, compatible_classes_iff rfl hAlike]
  exact fun hEq => absurd (congrArg key hEq) (by decide)

end SemanticCore.Ty
