import SemanticCore.Types.Relation

/-!
# Calls and overloads

`Ty.distance?` tells how far a list of arguments is from a list of parameters; the nearest of some
candidates is called, and if there are several nearest ones the call is ambiguous
(`Ty.rankOverloads`).
-/

namespace SemanticCore.Ty

/-- The types of the parameters of a function. -/
def params : Ty → List Ty
  | .function _ ps _ _ => ps
  | _ => []

/-- Whether an argument can stand for a parameter. -/
def accepts (argument parameter : Ty) : Bool :=
  argument.equal parameter || argument.passableTo parameter

/-- Whether a function can be called with arguments: as many as it has parameters, each accepted
for its parameter. -/
def callableWith (function : Ty) (arguments : List Ty) : Bool :=
  arguments.length == function.params.length &&
    (arguments.zip function.params).all fun (argument, parameter) => argument.accepts parameter

/-- The cost of an argument for a parameter that accepts it. -/
def argumentDistance (argument parameter : Ty) : Nat :=
  if argument.equal parameter then 0
  else
    match argument, parameter with
    | .primitive (.integer k), .primitive (.integer k') =>
      if k.bits < k'.bits then 1 else if k'.bits < k.bits then 3 else 2
    | .primitive (.float k), .primitive (.float k') => if k.bits < k'.bits then 1 else 3
    | .primitive (.integer _), .primitive (.float _) => 2
    | .primitive (.float _), .primitive (.integer _) => 4
    | _, _ => 1

/-- The total cost of arguments for parameters; `none` if the numbers differ or an argument is not
accepted. -/
def distanceTo? : List Ty → List Ty → Option Nat
  | [], [] => some 0
  | a :: arguments, p :: parameters =>
    if a.equal p then distanceTo? arguments parameters
    else if a.passableTo p then
      (distanceTo? arguments parameters).map (a.argumentDistance p + ·)
    else none
  | _, _ => none

/-- The total cost of calling a function with arguments; `none` if it cannot be called. -/
def distance? (function : Ty) (arguments : List Ty) : Option Nat :=
  distanceTo? arguments function.params

/-- What a call with several candidates comes to; candidates go by their place. -/
inductive Resolution where
  | resolved (index distance : Nat)
  | ambiguous (indices : List Nat) (distance : Nat)
  | none
  deriving DecidableEq, Repr, Inhabited

/-- The least distance seen so far with the candidates at it. -/
structure Ranking where
  distance : Nat
  indices : List Nat

/-- Takes one more candidate into account; one that cannot be called does not count. -/
def Ranking.add (index : Nat) (distance : Option Nat) (r : Option Ranking) : Option Ranking :=
  match distance, r with
  | .none, r => r
  | some d, .none => some ⟨d, [index]⟩
  | some d, some r =>
    if d < r.distance then some ⟨d, [index]⟩
    else if d = r.distance then some { r with indices := r.indices ++ [index] }
    else some r

/-- The nearest of some candidates, if one can be called. -/
def ranking (candidates arguments : List Ty) : Option Ranking :=
  (candidates.map (·.distance? arguments)).zipIdx.foldl
    (fun r (distance, index) => Ranking.add index distance r) .none

/-- Which of some candidates is called. -/
def rankOverloads (candidates arguments : List Ty) : Resolution :=
  match ranking candidates arguments with
  | some ⟨d, [i]⟩ => .resolved i d
  | some ⟨d, i :: is⟩ => .ambiguous (i :: is) d
  | _ => .none

end SemanticCore.Ty
