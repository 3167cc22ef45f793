import SemanticCore.Proofs.Arena.Handle
import SemanticCore.Proofs.Syntax.LinkForest
import SemanticCore.Syntax.Tree

/-!
# The links of a syntax tree

`Tree.parent?`, `Tree.childrenOf` and `Tree.attributesOf` read the links of a tree as maps on
handles, on which a handle without a node has none. What an edit does to the nodes is said of
`Tree.get?`, what it does to the links is said of these maps:

* `Tree.get?_modify`, `Tree.create_eq_ok`: the nodes after one was changed, or made.
* `Tree.listOf`: a list that every node has, as a map on handles; `Tree.childrenOf` is one.
* `Tree.setParent`, `Tree.setChildren`, `Tree.setAttributes`: the changes of one link, of which the
  edits are composed.
-/

namespace SemanticCore

theorem ok_bind {ε α β : Type} (a : α) (f : α → Except ε β) : (Except.ok a >>= f) = f a := rfl

theorem bind_eq_ok {ε α β : Type} {x : Except ε α} {f : α → Except ε β} {b : β} :
    (x >>= f) = .ok b ↔ ∃ a, x = .ok a ∧ f a = .ok b := by
  cases x with
  | error e =>
    constructor
    · intro h
      cases h
    · rintro ⟨a, h, -⟩
      cases h
  | ok a =>
    constructor
    · intro h
      exact ⟨a, rfl, h⟩
    · rintro ⟨a', h, hf⟩
      cases h
      exact hf

namespace Tree

variable {t t' : Tree} {id k p c : NodeId} {n : Node}

def parent? (t : Tree) (id : NodeId) : Option NodeId := (t.get? id).bind (·.parent)

def childrenOf (t : Tree) (id : NodeId) : List NodeId := ((t.get? id).map (·.children)).getD []

/-! ## Single nodes -/

theorem node_eq_ok_iff : t.node id = .ok n ↔ t.get? id = some n := by
  unfold node
  cases t.get? id with
  | none => simp
  | some m => simp

theorem node_of_get? (h : t.get? id = some n) : t.node id = .ok n := node_eq_ok_iff.mpr h

theorem get?_modify (f : Node → Node) :
    (t.modify id f).get? k = if k = id then (t.get? k).map f else t.get? k :=
  Pool.get?_modify f

theorem get?_modify_self {f : Node → Node} (h : t.get? id = some n) :
    (t.modify id f).get? id = some (f n) := by
  rw [get?_modify, if_pos rfl, h, Option.map_some]

theorem get?_modify_of_ne {f : Node → Node} (h : k ≠ id) : (t.modify id f).get? k = t.get? k := by
  rw [get?_modify, if_neg h]

theorem isSome_get?_modify (f : Node → Node) :
    ((t.modify id f).get? k).isSome = (t.get? k).isSome := by
  rw [get?_modify]
  split
  · exact Option.isSome_map
  · rfl

theorem update_eq_ok_iff {f : Node → Node} :
    t.update id f = .ok t' ↔ (t.get? id).isSome ∧ t' = t.modify id f := by
  rw [update, bind_eq_ok]
  constructor
  · rintro ⟨n, hNode, hPure⟩
    exact ⟨by rw [node_eq_ok_iff.mp hNode]; rfl, (Except.ok.inj hPure).symm⟩
  · rintro ⟨hSome, rfl⟩
    obtain ⟨n, hGet⟩ := Option.isSome_iff_exists.mp hSome
    exact ⟨n, node_of_get? hGet, rfl⟩

theorem create_eq_ok {location : Location} {kind : NodeKind} {payload : Payload}
    (h : t.create location kind payload = .ok (id, t')) :
    id = t.pool.nextHandle ∧ t.get? id = none ∧ t'.pool.items.size ≤ Handle.span ∧
      ∀ k, t'.get? k = if k = id then some { id, kind, payload, location } else t.get? k := by
  unfold create at h
  split at h
  · rename_i handle pool hNew
    cases h
    obtain ⟨hRoom, rfl, hPool⟩ := Pool.construct?_eq_some hNew
    refine ⟨rfl, Pool.get?_nextHandle, ?_, fun k => Pool.get?_construct hNew⟩
    rw [hPool, Array.size_push]
    exact hRoom
  · cases h

/-! ## Links as maps -/

theorem parent?_of_get? (h : t.get? id = some n) : t.parent? id = n.parent := by
  rw [parent?, h, Option.bind_some]

theorem childrenOf_of_get? (h : t.get? id = some n) : t.childrenOf id = n.children := by
  rw [childrenOf, h, Option.map_some, Option.getD_some]

/-! ## Lists of links -/

section ListOf

variable {list : Node → List NodeId} {f : Node → Node}

/-- A list that every node has. -/
def listOf (list : Node → List NodeId) (t : Tree) (id : NodeId) : List NodeId :=
  ((t.get? id).map list).getD []

theorem listOf_of_get? (h : t.get? id = some n) : listOf list t id = list n := by
  rw [listOf, h, Option.map_some, Option.getD_some]

theorem exists_of_mem_listOf (h : c ∈ listOf list t p) : ∃ n, t.get? p = some n ∧ c ∈ list n := by
  cases hGet : t.get? p with
  | none => simp [listOf, hGet] at h
  | some n => exact ⟨n, rfl, by rwa [listOf_of_get? hGet] at h⟩

theorem listOf_modify (hf : ∀ n, list (f n) = list n) :
    listOf list (t.modify id f) = listOf list t := by
  funext k
  rw [listOf, listOf, get?_modify]
  split
  · cases t.get? k with
    | none => rfl
    | some n => exact congrArg (fun l => (some l).getD []) (hf n)
  · rfl

theorem listOf_modify_self {g : List NodeId → List NodeId} (h : (t.get? id).isSome)
    (hf : ∀ n, list (f n) = g (list n)) :
    listOf list (t.modify id f) = Function.update (listOf list t) id (g (listOf list t id)) := by
  obtain ⟨n, hGet⟩ := Option.isSome_iff_exists.mp h
  funext k
  rw [Function.update_apply]
  split
  · rename_i hEq
    rw [hEq, listOf_of_get? (get?_modify_self hGet), listOf_of_get? hGet, hf]
  · rename_i hNe
    rw [listOf, listOf, get?_modify_of_ne hNe]

end ListOf

theorem isSome_of_mem_childrenOf (h : c ∈ t.childrenOf p) : (t.get? p).isSome := by
  obtain ⟨n, hGet, -⟩ := exists_of_mem_listOf h
  exact Option.isSome_of_eq_some hGet

def attributesOf (t : Tree) (id : NodeId) : List NodeId := listOf (·.attributes) t id

/-! ## Changes of links -/

def setParent (t : Tree) (id : NodeId) (link : Option NodeId) : Tree :=
  t.modify id fun n => { n with parent := link }

def setChildren (t : Tree) (id : NodeId) (f : List NodeId → List NodeId) : Tree :=
  t.modify id fun n => { n with children := f n.children }

def setAttributes (t : Tree) (id : NodeId) (f : List NodeId → List NodeId) : Tree :=
  t.modify id fun n => { n with attributes := f n.attributes }

variable {link : Option NodeId} {f : List NodeId → List NodeId}

theorem parent?_modify {f : Node → Node} (hf : ∀ n, (f n).parent = n.parent) :
    (t.modify id f).parent? = t.parent? := by
  funext k
  rw [parent?, parent?, get?_modify]
  split
  · cases t.get? k with
    | none => rfl
    | some n => exact hf n
  · rfl

theorem childrenOf_modify {f : Node → Node} (hf : ∀ n, (f n).children = n.children) :
    (t.modify id f).childrenOf = t.childrenOf :=
  listOf_modify hf

@[simp]
theorem isSome_get?_setParent : ((t.setParent id link).get? k).isSome = (t.get? k).isSome :=
  isSome_get?_modify _

@[simp]
theorem isSome_get?_setChildren : ((t.setChildren id f).get? k).isSome = (t.get? k).isSome :=
  isSome_get?_modify _

theorem parent?_setParent (h : (t.get? id).isSome) :
    (t.setParent id link).parent? = Function.update t.parent? id link := by
  obtain ⟨n, hGet⟩ := Option.isSome_iff_exists.mp h
  funext k
  rw [Function.update_apply]
  split
  · rename_i hEq
    exact hEq ▸ parent?_of_get? (get?_modify_self hGet)
  · rename_i hNe
    rw [parent?, parent?, setParent, get?_modify_of_ne hNe]

@[simp]
theorem childrenOf_setParent : (t.setParent id link).childrenOf = t.childrenOf :=
  childrenOf_modify fun _ => rfl

@[simp]
theorem parent?_setChildren : (t.setChildren id f).parent? = t.parent? :=
  parent?_modify fun _ => rfl

theorem childrenOf_setChildren (h : (t.get? id).isSome) :
    (t.setChildren id f).childrenOf = Function.update t.childrenOf id (f (t.childrenOf id)) :=
  listOf_modify_self h fun _ => rfl

theorem attributesOf_modify {f : Node → Node} (hf : ∀ n, (f n).attributes = n.attributes) :
    (t.modify id f).attributesOf = t.attributesOf :=
  listOf_modify hf

@[simp]
theorem attributesOf_setParent : (t.setParent id link).attributesOf = t.attributesOf :=
  attributesOf_modify fun _ => rfl

@[simp]
theorem attributesOf_setChildren : (t.setChildren id f).attributesOf = t.attributesOf :=
  attributesOf_modify fun _ => rfl

theorem attributesOf_setAttributes (h : (t.get? id).isSome) :
    (t.setAttributes id f).attributesOf =
      Function.update t.attributesOf id (f (t.attributesOf id)) :=
  listOf_modify_self h fun _ => rfl

end Tree

end SemanticCore
