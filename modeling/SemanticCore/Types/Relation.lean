import SemanticCore.Types.Record

/-!
# Relations between types

* `Ty.equal`: equality of structure, across registries. Types with different hashes are told apart
  at once.
* `Ty.assignableFrom`: whether a value of one type may be stored in a place of another.
* `Ty.convertsImplicitly`, `Ty.convertsExplicitly`: the conversions without and with a cast.
* `Ty.compatible`: whether two types can meet through some conversion.
* `Ty.passableTo`: the rule for arguments of calls.
-/

namespace SemanticCore.Ty

/-! ## Equality of structure -/

mutual

/-- Whether two types have the same structure. Methods and declarations do not count. -/
def equal (a b : Ty) : Bool :=
  a.isSame b || (a.hash == b.hash &&
    match a, b with
    | .primitive p, .primitive q => p == q
    | .array _ e n, .array _ e' n' => n == n' && equal e e'
    | .tuple _ es, .tuple _ es' => equalList es es'
    | .union _ vs, .union _ vs' => equalList vs vs'
    | .function _ ps r f, .function _ ps' r' f' => f == f' && equalList ps ps' && equal r r'
    | .pointer _ t, .pointer _ t' => equal t t'
    | .reference _ t, .reference _ t' => equal t t'
    | .structType _ h fs, .structType _ h' fs' =>
      h.name == h'.name && h.flags == h'.flags && equalFields fs fs'
    | .classType _ h fs b, .classType _ h' fs' b' =>
      h.name == h'.name && h.flags == h'.flags && equalFields fs fs' && equalBase b b'
    | _, _ => false)
termination_by structural a

/-- Whether types have the same structure one by one. -/
def equalList : List Ty → List Ty → Bool
  | [], [] => true
  | t :: ts, u :: us => equal t u && equalList ts us
  | _, _ => false
termination_by structural ts => ts

/-- Whether fields have the same names and types of the same structure. -/
def equalFields : List (Name × Ty) → List (Name × Ty) → Bool
  | [], [] => true
  | ⟨n, t⟩ :: fs, ⟨m, u⟩ :: gs => n == m && equal t u && equalFields fs gs
  | _, _ => false
termination_by structural fs => fs

/-- Whether base classes have the same structure, or there is none twice. -/
def equalBase : Option Ty → Option Ty → Bool
  | none, none => true
  | some t, some u => equal t u
  | _, _ => false
termination_by structural b => b

end

/-! ## Inheritance -/

/-- Whether a class derives from another one. -/
def isSubclassOf (derived base : Ty) : Bool :=
  derived.isClass && base.isClass && derived.derivesFrom base

/-- Whether two classes are the same or one derives from the other. -/
def related (a b : Ty) : Bool := a.isSame b || a.derivesFrom b || b.derivesFrom a

/-! ## Assignment -/

mutual

/-- Whether a value of type `source` may be stored in a place of type `target`. -/
def assignableFrom (target source : Ty) : Bool :=
  match target with
  | .primitive .void | .primitive .auto => false
  | .primitive _ | .function .. | .structType .. => target.equal source
  | .array _ e n =>
    match source with
    | .array _ e' n' => n == n' && assignableFrom e e'
    | _ => false
  | .tuple _ es =>
    match source with
    | .tuple _ es' => assignableFromList es es'
    | _ => false
  | .union _ vs => target.equal source || vs.any (·.equal source)
  | .pointer _ t =>
    match source with
    | .pointer _ s => t.equal s || s.isSubclassOf t
    | _ => false
  | .reference _ t =>
    match source with
    | .reference _ s => t.equal s || s.isSubclassOf t
    | _ => false
  | .classType .. => target.equal source || source.isSubclassOf target
termination_by structural target

/-- Whether values of some types may be stored in places of others, one by one. -/
def assignableFromList : List Ty → List Ty → Bool
  | [], [] => true
  | t :: ts, s :: ss => assignableFrom t s && assignableFromList ts ss
  | _, _ => false
termination_by structural ts => ts

end

/-! ## Conversion -/

mutual

/-- Whether a value of type `a` becomes one of type `b` without a cast. Every type but `void` and
`auto` converts to itself. -/
def convertsImplicitly (a b : Ty) : Bool :=
  a != .primitive .void && a != .primitive .auto &&
    (a.equal b ||
      match a, b with
      | .primitive (.integer k), .primitive (.integer k') => decide (k.bits < k'.bits)
      | .primitive (.integer _), .primitive (.float _) => true
      | .primitive (.float k), .primitive (.float k') => decide (k.bits < k'.bits)
      | .primitive .char, .primitive (.integer _) => true
      | .array _ e n, .array _ e' n' => n != 0 && n' == 0 && e.equal e'
      | .tuple _ es, .tuple _ es' => convertsImplicitlyList es es'
      | .union _ vs, .union _ vs' => convertsImplicitlyInto vs vs'
      | .pointer _ t, .pointer _ t' => t.isSubclassOf t'
      | .reference _ t, .reference _ t' => t.isSubclassOf t'
      | .classType .., _ => a.isSubclassOf b
      | _, _ => false)
termination_by structural a

/-- Whether types convert without a cast one by one. -/
def convertsImplicitlyList : List Ty → List Ty → Bool
  | [], [] => true
  | t :: ts, u :: us => convertsImplicitly t u && convertsImplicitlyList ts us
  | _, _ => false
termination_by structural ts => ts

/-- Whether each type converts implicitly to some of `targets`. -/
def convertsImplicitlyInto (ts targets : List Ty) : Bool :=
  match ts with
  | [] => true
  | t :: ts => targets.any (fun u => convertsImplicitly t u) && convertsImplicitlyInto ts targets
termination_by structural ts

end

mutual

/-- Whether a value of type `a` becomes one of type `b` with a cast. -/
def convertsExplicitly (a b : Ty) : Bool :=
  a.convertsImplicitly b ||
    match a, b with
    | .primitive (.integer _), .primitive (.integer _)
    | .primitive (.integer _), .primitive (.float _)
    | .primitive (.float _), .primitive (.integer _)
    | .primitive (.float _), .primitive (.float _)
    | .primitive .bool, .primitive (.integer _)
    | .primitive .char, .primitive (.integer _) => true
    | .array _ e _, .array _ e' _ => convertsExplicitly e e'
    | .tuple _ es, .tuple _ es' => convertsExplicitlyList es es'
    | .union _ vs, .union _ vs' => convertsExplicitlyInto vs vs'
    | .pointer _ t, .pointer _ t' =>
      if t.isClass && t'.isClass then t.related t' else convertsExplicitly t t'
    | .reference _ t, .reference _ t' =>
      if t.isClass && t'.isClass then t.related t' else convertsExplicitly t t'
    | .classType .., .classType .. => a.related b
    | _, _ => false
termination_by structural a

/-- Whether types convert with a cast one by one. -/
def convertsExplicitlyList : List Ty → List Ty → Bool
  | [], [] => true
  | t :: ts, u :: us => convertsExplicitly t u && convertsExplicitlyList ts us
  | _, _ => false
termination_by structural ts => ts

/-- Whether each type converts explicitly to some of `targets`. -/
def convertsExplicitlyInto (ts targets : List Ty) : Bool :=
  match ts with
  | [] => true
  | t :: ts => targets.any (fun u => convertsExplicitly t u) && convertsExplicitlyInto ts targets
termination_by structural ts

end

/-! ## Compatibility -/

mutual

/-- Whether two types can meet through some conversion. -/
def compatible (a b : Ty) : Bool :=
  match a with
  | .primitive (.integer _) | .primitive (.float _) =>
    a.convertsImplicitly b || a.convertsExplicitly b
  | .primitive .char => a.convertsImplicitly b
  | .primitive _ | .function .. | .structType .. => a.equal b
  | .array _ e _ =>
    match b with
    | .array _ e' _ => compatible e e'
    | _ => false
  | .tuple _ es =>
    match b with
    | .tuple _ es' => compatibleList es es'
    | _ => false
  | .union _ vs =>
    match b with
    | .union _ vs' => compatibleSome vs vs'
    | _ => compatibleSome vs [b]
  | .pointer .. | .reference .. => a.convertsImplicitly b || b.convertsImplicitly a
  | .classType .. => b.isClass && a.related b
termination_by structural a

/-- Whether types are compatible one by one. -/
def compatibleList : List Ty → List Ty → Bool
  | [], [] => true
  | t :: ts, u :: us => compatible t u && compatibleList ts us
  | _, _ => false
termination_by structural ts => ts

/-- Whether some of the types is compatible with some of `others`. -/
def compatibleSome (ts others : List Ty) : Bool :=
  match ts with
  | [] => false
  | t :: ts => others.any (fun u => compatible t u) || compatibleSome ts others
termination_by structural ts

end

/-! ## Arguments -/

/-- Whether an argument may be passed to a parameter. An integer may be narrowed or become a float;
all else has to convert implicitly. -/
def passableTo (argument parameter : Ty) : Bool :=
  match argument, parameter with
  | .primitive (.integer _), .primitive (.integer _)
  | .primitive (.integer _), .primitive (.float _) => true
  | .primitive (.integer _), _ => false
  | _, _ => argument.convertsImplicitly parameter

end SemanticCore.Ty
