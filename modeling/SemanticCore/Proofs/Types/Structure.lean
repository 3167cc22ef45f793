import Mathlib.Data.List.Forall2
import Mathlib.Data.Option.Basic
import SemanticCore.Types.Hash

/-!
# Structural equality of types

Two types are alike when they are of one kind and have the same data and alike parts in the same
order. Where a type comes from, its methods and its declaration do not count, and neither does what
follows from its parts or from its origin: its number, its hash and its layout.

* `Ty.induction`, `Ty.partsInduction`: what holds of a type if it holds of its parts.
* `Ty.Alike`: structural equality.
* `Ty.Alike.hash_eq`: types that are alike have the same hash.
* `Ty.not_alike_part`: of two types only one can have a part that is alike to the other.
* `Ty.alike_equivalence`: structural equality is an equivalence.
-/

namespace SemanticCore

/-! ## Lists compared entry by entry -/

section

variable {α β γ : Type} {R : α → β → Prop}

theorem forall₂_of_mem {S : α → β → Prop} {l : List α} {l' : List β} (h : List.Forall₂ R l l')
    (hMem : ∀ a ∈ l, ∀ b, R a b → S a b) : List.Forall₂ S l l' := by
  induction h with
  | nil => exact .nil
  | cons hHead _ ih =>
    refine .cons (hMem _ List.mem_cons_self _ hHead) (ih fun a ha => ?_)
    exact hMem a (List.mem_cons_of_mem _ ha)

theorem forall₂_iff_of_mem {S : α → β → Prop} {l : List α} {l' : List β}
    (hMem : ∀ a ∈ l, ∀ b, R a b ↔ S a b) : List.Forall₂ R l l' ↔ List.Forall₂ S l l' :=
  ⟨fun h => forall₂_of_mem h fun a ha b => (hMem a ha b).mp,
    fun h => forall₂_of_mem h fun a ha b => (hMem a ha b).mpr⟩

theorem map_eq_of_forall₂ {f : α → γ} {g : β → γ} {l : List α} {l' : List β}
    (h : List.Forall₂ R l l') (hMem : ∀ a ∈ l, ∀ b, R a b → f a = g b) : l.map f = l'.map g := by
  induction h with
  | nil => rfl
  | cons hHead _ ih =>
    rw [List.map_cons, List.map_cons, hMem _ List.mem_cons_self _ hHead,
      ih fun a ha => hMem a (List.mem_cons_of_mem _ ha)]

theorem forall₂_trans_of_mem {S : β → γ → Prop} {T : α → γ → Prop} {l : List α} {l' : List β}
    {l'' : List γ} (h : List.Forall₂ R l l') (h' : List.Forall₂ S l' l'')
    (hMem : ∀ a ∈ l, ∀ b c, R a b → S b c → T a c) : List.Forall₂ T l l'' := by
  induction h generalizing l'' with
  | nil =>
    cases h'
    exact .nil
  | cons hHead _ ih =>
    cases h' with
    | cons hHead' hTail' =>
      refine .cons (hMem _ List.mem_cons_self _ _ hHead hHead') (ih hTail' fun a ha => ?_)
      exact hMem a (List.mem_cons_of_mem _ ha)

/-- Lists that are compared in both directions. -/
theorem forall₂_of_both {S : β → α → Prop} {T : α → β → Prop} {l : List α} {l' : List β}
    (h : List.Forall₂ R l l') (h' : List.Forall₂ S l' l)
    (hMem : ∀ a ∈ l, ∀ b, R a b → S b a → T a b) : List.Forall₂ T l l' := by
  induction h with
  | nil => exact .nil
  | cons hHead _ ih =>
    cases h' with
    | cons hHead' hTail' =>
      refine .cons (hMem _ List.mem_cons_self _ hHead hHead') (ih hTail' fun a ha => ?_)
      exact hMem a (List.mem_cons_of_mem _ ha)

theorem forall₂_and_mem {l : List α} {l' : List β} (h : List.Forall₂ R l l') :
    List.Forall₂ (fun a b => b ∈ l' ∧ R a b) l l' := by
  induction h with
  | nil => exact .nil
  | cons hHead _ ih =>
    refine .cons ⟨List.mem_cons_self, hHead⟩ (ih.imp fun a b hRel => ?_)
    exact ⟨List.mem_cons_of_mem _ hRel.1, hRel.2⟩

theorem forall₂_trans_of_mem_all {S : β → γ → Prop} {T : α → γ → Prop} {l : List α} {l' : List β}
    {l'' : List γ} (h : List.Forall₂ R l l') (h' : List.Forall₂ S l' l'')
    (hMem : ∀ a ∈ l, ∀ b ∈ l', ∀ c ∈ l'', R a b → S b c → T a c) : List.Forall₂ T l l'' := by
  refine forall₂_trans_of_mem (forall₂_and_mem h) (forall₂_and_mem h') ?_
  rintro a ha b c ⟨hb, hFormer⟩ ⟨hc, hLatter⟩
  exact hMem a ha b hb c hc hFormer hLatter

theorem forall₂_transfer {S P P' : α → α → Prop} {l l' m m' : List α} (h : List.Forall₂ P l m)
    (hl : List.Forall₂ S l l') (hm : List.Forall₂ S m m')
    (hMem : ∀ a ∈ l, ∀ {a' b b'}, S a a' → S b b' → P a b → P' a' b') : List.Forall₂ P' l' m' := by
  induction h generalizing l' m' with
  | nil =>
    cases hl
    cases hm
    exact .nil
  | cons hHead _ ih =>
    cases hl with
    | cons hl hls =>
      cases hm with
      | cons hm hms =>
        refine .cons (hMem _ List.mem_cons_self hl hm hHead) (ih hls hms fun a ha => ?_)
        exact hMem a (List.mem_cons_of_mem _ ha)

theorem exists_mem_of_forall₂ {l : List α} {l' : List β} (h : List.Forall₂ R l l') {a : α}
    (ha : a ∈ l) : ∃ b ∈ l', R a b := by
  induction h with
  | nil => cases ha
  | cons hHead _ ih =>
    rcases List.mem_cons.mp ha with rfl | ha
    · exact ⟨_, List.mem_cons_self, hHead⟩
    · obtain ⟨b, hb, hRel⟩ := ih ha
      exact ⟨b, List.mem_cons_of_mem _ hb, hRel⟩

theorem exists_mem_of_forall₂_right {l : List α} {l' : List β} (h : List.Forall₂ R l l') {b : β}
    (hb : b ∈ l') : ∃ a ∈ l, R a b :=
  exists_mem_of_forall₂ (R := flip R) (List.Forall₂.flip h) hb

end

namespace Ty

/-! ## Induction -/

/-- What holds of every type whose parts have it holds of every type. -/
@[elab_as_elim]
theorem induction {motive : Ty → Prop} (primitive : ∀ p, motive (.primitive p))
    (array : ∀ o e n, motive e → motive (.array o e n))
    (tuple : ∀ o es, (∀ t ∈ es, motive t) → motive (.tuple o es))
    (union : ∀ o vs, (∀ t ∈ vs, motive t) → motive (.union o vs))
    (function : ∀ o ps r f, (∀ t ∈ ps, motive t) → motive r → motive (.function o ps r f))
    (pointer : ∀ o t, motive t → motive (.pointer o t))
    (reference : ∀ o t, motive t → motive (.reference o t))
    (structType : ∀ o h fs, (∀ t ∈ fs.map Prod.snd, motive t) → motive (.structType o h fs))
    (classType : ∀ o h fs b, (∀ t ∈ fs.map Prod.snd, motive t) → (∀ t ∈ b, motive t) →
      motive (.classType o h fs b)) (t : Ty) : motive t := by
  induction h : sizeOf t using Nat.strongRecOn generalizing t with
  | ind n ih =>
    subst h
    have hPart : ∀ u, sizeOf u < sizeOf t → motive u := fun u hu => ih _ hu u rfl
    have hList : ∀ ts : List Ty, sizeOf ts < sizeOf t → ∀ u ∈ ts, motive u := by
      intro ts hts u hu
      exact hPart u (Nat.lt_trans (List.sizeOf_lt_of_mem hu) hts)
    have hFields : ∀ fs : List (Name × Ty), sizeOf fs < sizeOf t →
        ∀ u ∈ fs.map Prod.snd, motive u := by
      intro fs hfs u hu
      obtain ⟨f, hf, rfl⟩ := List.mem_map.mp hu
      exact hPart f.2 (Nat.lt_trans (sizeOf_snd_lt_of_mem hf) hfs)
    cases t with
    | primitive p => exact primitive p
    | array o e n => exact array o e n (hPart e (by rw [Ty.array.sizeOf_spec]; omega))
    | tuple o es => exact tuple o es (hList es (by rw [Ty.tuple.sizeOf_spec]; omega))
    | union o vs => exact union o vs (hList vs (by rw [Ty.union.sizeOf_spec]; omega))
    | function o ps r f =>
      have hSize := Ty.function.sizeOf_spec o ps r f
      exact function o ps r f (hList ps (by omega)) (hPart r (by omega))
    | pointer o t => exact pointer o t (hPart t (by rw [Ty.pointer.sizeOf_spec]; omega))
    | reference o t => exact reference o t (hPart t (by rw [Ty.reference.sizeOf_spec]; omega))
    | structType o h fs =>
      exact structType o h fs (hFields fs (by rw [Ty.structType.sizeOf_spec]; omega))
    | classType o h fs b =>
      have hSize := Ty.classType.sizeOf_spec o h fs b
      refine classType o h fs b (hFields fs (by omega)) fun u hu => hPart u ?_
      cases hu
      rw [Option.some.sizeOf_spec] at hSize
      omega

/-- What a type is made of directly; its base class counts, its methods do not. -/
def parts : Ty → List Ty
  | .primitive _ => []
  | .array _ e _ => [e]
  | .tuple _ ts | .union _ ts => ts
  | .function _ ps r _ => r :: ps
  | .pointer _ t | .reference _ t => [t]
  | .structType _ _ fs => fs.map Prod.snd
  | .classType _ _ fs b => b.toList ++ fs.map Prod.snd

/-- Induction in one case, for proofs that go by something else than the kind of a type. -/
theorem partsInduction {motive : Ty → Prop} (step : ∀ t, (∀ u ∈ t.parts, motive u) → motive t)
    (t : Ty) : motive t := by
  induction t using Ty.induction with
  | primitive p => exact step _ (List.forall_mem_nil _)
  | array o e n ih => exact step _ (List.forall_mem_singleton.mpr ih)
  | tuple o es ih => exact step _ ih
  | union o vs ih => exact step _ ih
  | function o ps r f ihParams ihResult =>
    exact step _ (List.forall_mem_cons.mpr ⟨ihResult, ihParams⟩)
  | pointer o t ih => exact step _ (List.forall_mem_singleton.mpr ih)
  | reference o t ih => exact step _ (List.forall_mem_singleton.mpr ih)
  | structType o h fs ih => exact step _ ih
  | classType o h fs b ihFields ihBase =>
    refine step _ (List.forall_mem_append.mpr ⟨fun u hu => ?_, ihFields⟩)
    exact ihBase u (Option.mem_toList.mp hu)

/-! ## Structural equality -/

/-- Structural equality of types: one kind, the same data, and alike parts in the same order. -/
inductive Alike : Ty → Ty → Prop
  | primitive (p : Primitive) : Alike (.primitive p) (.primitive p)
  | array {o o' : Origin} {e e' : Ty} {n : Nat} (element : Alike e e') :
      Alike (.array o e n) (.array o' e' n)
  | tuple {o o' : Origin} {es es' : List Ty} (elements : List.Forall₂ Alike es es') :
      Alike (.tuple o es) (.tuple o' es')
  | union {o o' : Origin} {vs vs' : List Ty} (variants : List.Forall₂ Alike vs vs') :
      Alike (.union o vs) (.union o' vs')
  | function {o o' : Origin} {ps ps' : List Ty} {r r' : Ty} {f : Flags}
      (params : List.Forall₂ Alike ps ps') (result : Alike r r') :
      Alike (.function o ps r f) (.function o' ps' r' f)
  | pointer {o o' : Origin} {t t' : Ty} (pointee : Alike t t') :
      Alike (.pointer o t) (.pointer o' t')
  | reference {o o' : Origin} {t t' : Ty} (referent : Alike t t') :
      Alike (.reference o t) (.reference o' t')
  | structType {o o' : Origin} {h h' : RecordHead} {fs fs' : List Field}
      (name : h.name = h'.name) (flags : h.flags = h'.flags)
      (fieldNames : fs.map Prod.fst = fs'.map Prod.fst)
      (fieldTypes : List.Forall₂ Alike (fs.map Prod.snd) (fs'.map Prod.snd)) :
      Alike (.structType o h fs) (.structType o' h' fs')
  | classType {o o' : Origin} {h h' : RecordHead} {fs fs' : List Field} {b b' : Option Ty}
      (name : h.name = h'.name) (flags : h.flags = h'.flags)
      (fieldNames : fs.map Prod.fst = fs'.map Prod.fst)
      (fieldTypes : List.Forall₂ Alike (fs.map Prod.snd) (fs'.map Prod.snd))
      (base : Option.Rel Alike b b') : Alike (.classType o h fs b) (.classType o' h' fs' b')

theorem fieldHashes_eq {fs fs' : List Field} (hNames : fs.map Prod.fst = fs'.map Prod.fst)
    (hTypes : (fs.map Prod.snd).map hash = (fs'.map Prod.snd).map hash) :
    fieldHashes fs = fieldHashes fs' := by
  induction fs generalizing fs' with
  | nil => rw [List.map_eq_nil_iff.mp hNames.symm]
  | cons f fs ih =>
    cases fs' with
    | nil => cases hNames
    | cons f' fs' =>
      obtain ⟨hName, hNames⟩ := List.cons.inj hNames
      obtain ⟨hType, hTypes⟩ := List.cons.inj hTypes
      simp only [fieldHashes, List.flatMap_cons, hName, hType]
      exact congrArg _ (ih hNames hTypes)

namespace Alike

variable {a b c : Ty}

/-- All that the hash of a type is made of is part of its structure. -/
theorem hash_eq (h : Alike a b) : a.hash = b.hash := by
  induction a using Ty.induction generalizing b with
  | primitive p =>
    cases h
    rfl
  | array o e n ih =>
    cases h with
    | array element => rw [hash_array, hash_array, ih element]
  | tuple o es ih =>
    cases h with
    | tuple elements =>
      rw [hash_tuple, hash_tuple, map_eq_of_forall₂ elements fun t ht _ => ih t ht]
  | union o vs ih =>
    cases h with
    | union variants =>
      rw [hash_union, hash_union, map_eq_of_forall₂ variants fun t ht _ => ih t ht]
  | function o ps r f ihParams ihResult =>
    cases h with
    | function params result =>
      rw [hash_function, hash_function, map_eq_of_forall₂ params fun t ht _ => ihParams t ht,
        ihResult result]
  | pointer o t ih =>
    cases h with
    | pointer pointee => rw [hash_pointer, hash_pointer, ih pointee]
  | reference o t ih =>
    cases h with
    | reference referent => rw [hash_reference, hash_reference, ih referent]
  | structType o hd fs ih =>
    cases h with
    | structType name flags fieldNames fieldTypes =>
      have hTypes := map_eq_of_forall₂ fieldTypes fun t ht _ => ih t ht
      rw [hash_structType, hash_structType, name, flags, fieldHashes_eq fieldNames hTypes]
  | classType o hd fs base ihFields ihBase =>
    cases h with
    | classType name flags fieldNames fieldTypes hBase =>
      have hTypes := map_eq_of_forall₂ fieldTypes fun t ht _ => ihFields t ht
      rw [hash_classType, hash_classType, name, flags, fieldHashes_eq fieldNames hTypes]
      cases hBase with
      | none => rfl
      | some hRel => rw [baseHash, baseHash, ihBase _ rfl hRel]

theorem refl (a : Ty) : Alike a a := by
  have hList : ∀ ts : List Ty, (∀ t ∈ ts, Alike t t) → List.Forall₂ Alike ts ts :=
    fun ts hts => List.forall₂_same.mpr hts
  induction a using Ty.induction with
  | primitive p => exact .primitive p
  | array o e n ih => exact .array ih
  | tuple o es ih => exact .tuple (hList es ih)
  | union o vs ih => exact .union (hList vs ih)
  | function o ps r f ihParams ihResult => exact .function (hList ps ihParams) ihResult
  | pointer o t ih => exact .pointer ih
  | reference o t ih => exact .reference ih
  | structType o hd fs ih => exact .structType rfl rfl rfl (hList _ ih)
  | classType o hd fs base ihFields ihBase =>
    refine .classType rfl rfl rfl (hList _ ihFields) ?_
    cases base with
    | none => exact .none
    | some t => exact .some (ihBase t rfl)

theorem symm (h : Alike a b) : Alike b a := by
  have hList : ∀ {ts us : List Ty}, List.Forall₂ Alike ts us →
      (∀ t ∈ ts, ∀ {u}, Alike t u → Alike u t) → List.Forall₂ Alike us ts :=
    fun h ih => (forall₂_of_mem h fun t ht _ hu => ih t ht hu).flip
  induction a using Ty.induction generalizing b with
  | primitive p =>
    cases h
    exact .primitive p
  | array o e n ih =>
    cases h with
    | array element => exact .array (ih element)
  | tuple o es ih =>
    cases h with
    | tuple elements => exact .tuple (hList elements ih)
  | union o vs ih =>
    cases h with
    | union variants => exact .union (hList variants ih)
  | function o ps r f ihParams ihResult =>
    cases h with
    | function params result => exact .function (hList params ihParams) (ihResult result)
  | pointer o t ih =>
    cases h with
    | pointer pointee => exact .pointer (ih pointee)
  | reference o t ih =>
    cases h with
    | reference referent => exact .reference (ih referent)
  | structType o hd fs ih =>
    cases h with
    | structType name flags fieldNames fieldTypes =>
      exact .structType name.symm flags.symm fieldNames.symm (hList fieldTypes ih)
  | classType o hd fs base ihFields ihBase =>
    cases h with
    | classType name flags fieldNames fieldTypes hBase =>
      refine .classType name.symm flags.symm fieldNames.symm (hList fieldTypes ihFields) ?_
      cases hBase with
      | none => exact .none
      | some hRel => exact .some (ihBase _ rfl hRel)

theorem trans (h : Alike a b) (h' : Alike b c) : Alike a c := by
  have hList : ∀ {ts us vs : List Ty}, List.Forall₂ Alike ts us → List.Forall₂ Alike us vs →
      (∀ t ∈ ts, ∀ {u v}, Alike t u → Alike u v → Alike t v) → List.Forall₂ Alike ts vs :=
    fun h h' ih => forall₂_trans_of_mem h h' fun t ht _ _ => ih t ht
  induction a using Ty.induction generalizing b c with
  | primitive p =>
    cases h
    exact h'
  | array o e n ih =>
    cases h with
    | array element =>
      cases h' with
      | array element' => exact .array (ih element element')
  | tuple o es ih =>
    cases h with
    | tuple elements =>
      cases h' with
      | tuple elements' => exact .tuple (hList elements elements' ih)
  | union o vs ih =>
    cases h with
    | union variants =>
      cases h' with
      | union variants' => exact .union (hList variants variants' ih)
  | function o ps r f ihParams ihResult =>
    cases h with
    | function params result =>
      cases h' with
      | function params' result' =>
        exact .function (hList params params' ihParams) (ihResult result result')
  | pointer o t ih =>
    cases h with
    | pointer pointee =>
      cases h' with
      | pointer pointee' => exact .pointer (ih pointee pointee')
  | reference o t ih =>
    cases h with
    | reference referent =>
      cases h' with
      | reference referent' => exact .reference (ih referent referent')
  | structType o hd fs ih =>
    cases h with
    | structType name flags names types =>
      cases h' with
      | structType name' flags' names' types' =>
        exact .structType (name.trans name') (flags.trans flags') (names.trans names')
          (hList types types' ih)
  | classType o hd fs base ihFields ihBase =>
    cases h with
    | classType name flags names types hBase =>
      cases h' with
      | classType name' flags' names' types' hBase' =>
        refine .classType (name.trans name') (flags.trans flags') (names.trans names')
          (hList types types' ihFields) ?_
        cases hBase with
        | none =>
          cases hBase'
          exact .none
        | some hRel =>
          cases hBase' with
          | some hRel' => exact .some (ihBase _ rfl hRel hRel')

/-- Alike types have as many parts, and those are alike one by one. -/
theorem parts (h : Alike a b) : List.Forall₂ Alike a.parts b.parts := by
  cases h with
  | primitive => exact .nil
  | array element => exact .cons element .nil
  | tuple elements => exact elements
  | union variants => exact variants
  | function params result => exact .cons result params
  | pointer pointee => exact .cons pointee .nil
  | reference referent => exact .cons referent .nil
  | structType _ _ _ fieldTypes => exact fieldTypes
  | classType _ _ _ fieldTypes base =>
    refine List.rel_append ?_ fieldTypes
    cases base with
    | none => exact .nil
    | some hRel => exact .cons hRel .nil

end Alike

/-- Two types do not each have a part that is alike to the other. -/
theorem not_alike_part {a b v w : Ty} (hv : v ∈ a.parts) (hvb : Alike v b) (hw : w ∈ b.parts) :
    ¬ Alike w a := by
  induction a using Ty.partsInduction generalizing b v w with
  | step a ih =>
    intro hwa
    -- what is alike to `a` within `b` has its match within `v`, a part of `a`
    obtain ⟨w', hw', hAlike⟩ := exists_mem_of_forall₂_right hvb.parts hw
    exact ih v hv hw' (hAlike.trans hwa) hv (.refl v)

theorem alike_equivalence : Equivalence Alike := ⟨Alike.refl, Alike.symm, Alike.trans⟩

end Ty

end SemanticCore
