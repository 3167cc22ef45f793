import SemanticCore.Types.Basic

/-!
# Identity of types

Two types are the same object exactly when they are equal (`Ty.isSame_iff`): the origin tells apart
any two composites that a registry made. The comparison goes part by part, but for an object and
itself it need not.

* `Ty.sameTree`: the comparison part by part.
* `Ty.isSame`: the comparison that looks first whether it has one object before it.
-/

namespace SemanticCore.Ty

mutual

/-- Whether two types are the same object, part by part. -/
def sameTree : Ty → Ty → Bool
  | .primitive p, .primitive q => p == q
  | .array o e n, .array o' e' n' => o == o' && n == n' && sameTree e e'
  | .tuple o es, .tuple o' es' => o == o' && sameTrees es es'
  | .union o vs, .union o' vs' => o == o' && sameTrees vs vs'
  | .function o ps r f, .function o' ps' r' f' =>
    o == o' && f == f' && sameTrees ps ps' && sameTree r r'
  | .pointer o t, .pointer o' t' => o == o' && sameTree t t'
  | .reference o t, .reference o' t' => o == o' && sameTree t t'
  | .structType o h fs, .structType o' h' fs' => o == o' && h == h' && sameFieldTrees fs fs'
  | .classType o h fs b, .classType o' h' fs' b' =>
    o == o' && h == h' && sameFieldTrees fs fs' && sameBaseTree b b'
  | _, _ => false
termination_by structural t => t

/-- Whether types are the same objects, one by one. -/
def sameTrees : List Ty → List Ty → Bool
  | [], [] => true
  | t :: ts, u :: us => sameTree t u && sameTrees ts us
  | _, _ => false
termination_by structural ts => ts

/-- Whether fields have the same names and types. -/
def sameFieldTrees : List (Name × Ty) → List (Name × Ty) → Bool
  | [], [] => true
  | ⟨n, t⟩ :: fs, ⟨m, u⟩ :: gs => n == m && sameTree t u && sameFieldTrees fs gs
  | _, _ => false
termination_by structural fs => fs

/-- Whether base classes are the same object, or there is none twice. -/
def sameBaseTree : Option Ty → Option Ty → Bool
  | none, none => true
  | some t, some u => sameTree t u
  | _, _ => false
termination_by structural b => b

end

mutual

theorem eq_of_sameTree : ∀ {a b : Ty}, sameTree a b = true → a = b
  | .primitive p, b, h => by cases b <;> simp_all [sameTree]
  | .array o e n, b, h => by
    cases b <;> simp [sameTree] at h
    obtain ⟨⟨rfl, rfl⟩, h⟩ := h
    rw [eq_of_sameTree h]
  | .tuple o es, b, h => by
    cases b <;> simp [sameTree] at h
    obtain ⟨rfl, h⟩ := h
    rw [eq_of_sameTrees h]
  | .union o vs, b, h => by
    cases b <;> simp [sameTree] at h
    obtain ⟨rfl, h⟩ := h
    rw [eq_of_sameTrees h]
  | .function o ps r f, b, h => by
    cases b <;> simp [sameTree] at h
    obtain ⟨⟨⟨rfl, rfl⟩, h⟩, h'⟩ := h
    rw [eq_of_sameTrees h, eq_of_sameTree h']
  | .pointer o t, b, h => by
    cases b <;> simp [sameTree] at h
    obtain ⟨rfl, h⟩ := h
    rw [eq_of_sameTree h]
  | .reference o t, b, h => by
    cases b <;> simp [sameTree] at h
    obtain ⟨rfl, h⟩ := h
    rw [eq_of_sameTree h]
  | .structType o hd fs, b, h => by
    cases b <;> simp [sameTree] at h
    obtain ⟨⟨rfl, rfl⟩, h⟩ := h
    rw [eq_of_sameFieldTrees h]
  | .classType o hd fs bs, b, h => by
    cases b <;> simp [sameTree] at h
    obtain ⟨⟨⟨rfl, rfl⟩, h⟩, h'⟩ := h
    rw [eq_of_sameFieldTrees h, eq_of_sameBaseTree h']

theorem eq_of_sameTrees : ∀ {a b : List Ty}, sameTrees a b = true → a = b
  | [], [], _ => rfl
  | [], _ :: _, h => by simp [sameTrees] at h
  | t :: ts, b, h => by
    cases b <;> simp [sameTrees] at h
    rw [eq_of_sameTree h.1, eq_of_sameTrees h.2]

theorem eq_of_sameFieldTrees : ∀ {a b : List (Name × Ty)}, sameFieldTrees a b = true → a = b
  | [], [], _ => rfl
  | [], _ :: _, h => by simp [sameFieldTrees] at h
  | ⟨n, t⟩ :: fs, b, h => by
    cases b <;> simp [sameFieldTrees] at h
    obtain ⟨⟨rfl, h⟩, h'⟩ := h
    rw [eq_of_sameTree h, eq_of_sameFieldTrees h']

theorem eq_of_sameBaseTree : ∀ {a b : Option Ty}, sameBaseTree a b = true → a = b
  | none, none, _ => rfl
  | none, some _, h => by simp [sameBaseTree] at h
  | some t, b, h => by
    cases b <;> simp [sameBaseTree] at h
    rw [eq_of_sameTree h]

end

mutual

theorem sameTree_refl : ∀ (t : Ty), sameTree t t = true
  | .primitive p => by simp [sameTree]
  | .array o e n => by simp [sameTree, sameTree_refl e]
  | .tuple o es => by simp [sameTree, sameTrees_refl es]
  | .union o vs => by simp [sameTree, sameTrees_refl vs]
  | .function o ps r f => by simp [sameTree, sameTrees_refl ps, sameTree_refl r]
  | .pointer o t => by simp [sameTree, sameTree_refl t]
  | .reference o t => by simp [sameTree, sameTree_refl t]
  | .structType o h fs => by simp [sameTree, sameFieldTrees_refl fs]
  | .classType o h fs b => by simp [sameTree, sameFieldTrees_refl fs, sameBaseTree_refl b]

theorem sameTrees_refl : ∀ (ts : List Ty), sameTrees ts ts = true
  | [] => rfl
  | t :: ts => by simp [sameTrees, sameTree_refl t, sameTrees_refl ts]

theorem sameFieldTrees_refl : ∀ (fs : List (Name × Ty)), sameFieldTrees fs fs = true
  | [] => rfl
  | ⟨n, t⟩ :: fs => by simp [sameFieldTrees, sameTree_refl t, sameFieldTrees_refl fs]

theorem sameBaseTree_refl : ∀ (b : Option Ty), sameBaseTree b b = true
  | none => rfl
  | some t => by simp [sameBaseTree, sameTree_refl t]

end

/-- Whether two types are the same object. Parts are looked at only where the addresses differ. -/
def isSame (a b : Ty) : Bool := withPtrEq a b (fun _ => sameTree a b) fun h => h ▸ sameTree_refl a

/-- Two types are the same exactly when they are equal. -/
theorem isSame_iff {a b : Ty} : isSame a b = true ↔ a = b :=
  ⟨eq_of_sameTree, fun h => h ▸ sameTree_refl a⟩

instance : DecidableEq Ty := fun _ _ => decidable_of_iff _ isSame_iff

end SemanticCore.Ty
