import BaseLang.Tree

/-
  The types of expressions and symbols.

  Two types are the same when they are written alike, with one exception: all
  function types count as the same, since functions are never values and their
  types meet only where a function is misused.
-/

namespace BaseLang

/-- The type of an expression or of a symbol. -/
inductive Ty where
  | logical
  | integer
  | void
  | string
  /-- A value of the tuple type of that name. -/
  | tupleInstance (name : String)
  /-- The tuple type itself. -/
  | tupleDef (name : String)
  | function (result : Ty) (params : List Ty)
  /-- What is wrong here has been reported already. -/
  | error
  deriving Repr, Inhabited

namespace Ty

def same : Ty → Ty → Bool
  | logical, logical => true
  | integer, integer => true
  | void, void => true
  | string, string => true
  | tupleInstance a, tupleInstance b => a == b
  | tupleDef a, tupleDef b => a == b
  | function _ _, function _ _ => true
  | error, error => true
  | _, _ => false

def isLogical : Ty → Bool
  | logical => true
  | _ => false

def isInteger : Ty → Bool
  | integer => true
  | _ => false

def isVoid : Ty → Bool
  | void => true
  | _ => false

def isString : Ty → Bool
  | string => true
  | _ => false

def isTupleInstance : Ty → Bool
  | tupleInstance _ => true
  | _ => false

def isTupleDef : Ty → Bool
  | tupleDef _ => true
  | _ => false

def isFunction : Ty → Bool
  | function _ _ => true
  | _ => false

def isError : Ty → Bool
  | error => true
  | _ => false

mutual

/-- How the type is shown. A function's type is its parameter types with commas
between them, an arrow and the type of its result. -/
def text : Ty → String
  | logical => "logical"
  | integer => "integer"
  | void => "void"
  | string => "string"
  | tupleInstance name => name
  | tupleDef name => "tuple " ++ name
  | function result params => textOfAll params ++ "->" ++ result.text
  | error => "error"

def textOfAll : List Ty → String
  | [] => ""
  | [t] => t.text
  | t :: rest => t.text ++ "," ++ textOfAll rest

end

theorem same_refl (t : Ty) : t.same t = true := by
  cases t <;> simp [same]

theorem same_comm (a b : Ty) : a.same b = b.same a := by
  cases a <;> cases b <;> simp [same, Bool.beq_comm]

theorem isError_iff {t : Ty} : t.isError = true ↔ t = error := by
  cases t <;> simp [isError]

theorem isLogical_iff {t : Ty} : t.isLogical = true ↔ t = logical := by
  cases t <;> simp [isLogical]

theorem isInteger_iff {t : Ty} : t.isInteger = true ↔ t = integer := by
  cases t <;> simp [isInteger]

end Ty

/-- The type that a declaration with this written type gives its name. -/
def TypeName.ty : TypeName → Ty
  | .logical => .logical
  | .integer => .integer
  | .void => .void
  | .tuple name => .tupleInstance name.name

end BaseLang
