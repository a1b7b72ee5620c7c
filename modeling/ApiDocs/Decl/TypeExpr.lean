import ApiDocs.TypeName

/-!
# Type expressions

Parameters, results and fields are declared with type expressions: a named type with its arguments,
a generic parameter, or a form derived from another type.

## Main definitions

* `TypeExpr`: type expressions.
* `TypeExpr.displayName`: the expression as a reader sees it.
* `TypeExpr.definitionName?`: the full name of the type that an expression refers to.
-/

namespace ApiDocs

/-- Where a generic parameter is declared. -/
inductive GenericScope where
  /-- At a type. -/
  | type
  /-- At a method. -/
  | method
deriving DecidableEq, Repr

/-- How a type is derived from another one. -/
inductive TypeForm where
  /-- An array with a number of dimensions. -/
  | array (rank : UInt32)
  /-- A reference to a variable. -/
  | byRef
  /-- A pointer. -/
  | pointer
deriving DecidableEq, Repr

/-- A use of a type. -/
inductive TypeExpr where
  /-- A type with the arguments for its generic parameters, those of enclosing types first. -/
  | named (fullName : String) (args : List TypeExpr)
  /-- A generic parameter of a type or method. -/
  | param (scope : GenericScope) (position : UInt32) (name : String)
  /-- An array, reference or pointer. -/
  | derived (form : TypeForm) (target : TypeExpr)

/-- The written form of a derived type, from that of its target. -/
def TypeForm.display (target : String) : TypeForm → String
  | array rank => target ++ "[" ++ String.ofList (List.replicate (rank.toNat - 1) ',') ++ "]"
  | byRef => "ref " ++ target
  | pointer => target ++ "*"

namespace TypeExpr

/-- The type of methods that return nothing. -/
def void : TypeExpr :=
  named "System.Void" []

/-- Whether the expression names the type of methods that return nothing. -/
def isVoid : TypeExpr → Bool
  | named fullName _ => fullName == "System.Void"
  | _ => false

/-- The full name of the named type that an expression stands for, seen through references to
variables only. -/
def definitionName? : TypeExpr → Option String
  | named fullName _ => some fullName
  | derived .byRef target => target.definitionName?
  | _ => none

mutual

/-- The expression as a reader sees it: short names, arguments in angle brackets. -/
def displayName : TypeExpr → String
  | named fullName [] => TypeName.display fullName
  | named fullName (arg :: args) =>
    TypeName.display fullName ++ "<" ++ String.intercalate ", " (displayNames (arg :: args)) ++ ">"
  | param _ _ name => name
  | derived form target => form.display target.displayName

/-- The display names of a list of expressions. -/
def displayNames : List TypeExpr → List String
  | [] => []
  | arg :: args => arg.displayName :: displayNames args

end

@[simp] theorem displayNames_eq_map (args : List TypeExpr) :
    displayNames args = args.map displayName := by
  induction args with
  | nil => rfl
  | cons arg args ih => simp [displayNames, ih]

/-! ### Equality -/

mutual

/-- Decides whether two expressions are equal. -/
def decEq : (a b : TypeExpr) → Decidable (a = b)
  | named n as, named m bs =>
    match decEqList as bs with
    | .isTrue h =>
      if h' : n = m then .isTrue (by rw [h, h']) else .isFalse (by simp [h'])
    | .isFalse h => .isFalse (by simp [h])
  | param s p n, param t q m =>
    if h : s = t ∧ p = q ∧ n = m then
      .isTrue (by simp [h])
    else
      .isFalse (by simpa using h)
  | derived f a, derived g b =>
    match decEq a b with
    | .isTrue h =>
      if h' : f = g then .isTrue (by rw [h, h']) else .isFalse (by simp [h'])
    | .isFalse h => .isFalse (by simp [h])
  | named _ _, param _ _ _ => .isFalse nofun
  | named _ _, derived _ _ => .isFalse nofun
  | param _ _ _, named _ _ => .isFalse nofun
  | param _ _ _, derived _ _ => .isFalse nofun
  | derived _ _, named _ _ => .isFalse nofun
  | derived _ _, param _ _ _ => .isFalse nofun

/-- Decides whether two lists of expressions are equal. -/
def decEqList : (as bs : List TypeExpr) → Decidable (as = bs)
  | [], [] => .isTrue rfl
  | [], _ :: _ => .isFalse nofun
  | _ :: _, [] => .isFalse nofun
  | a :: as, b :: bs =>
    match decEq a b with
    | .isTrue h =>
      match decEqList as bs with
      | .isTrue h' => .isTrue (by rw [h, h'])
      | .isFalse h' => .isFalse (by simp [h'])
    | .isFalse h => .isFalse (by simp [h])

end

instance : DecidableEq TypeExpr := decEq

end TypeExpr

end ApiDocs
