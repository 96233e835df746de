import BaseLang.Position

/-
  Diagnostics: what is wrong with a program that could be parsed.

  Analysis goes on after a diagnostic, and lists them in the order in which they
  were found.
-/

namespace BaseLang

/-- The ways in which a program can be wrong. -/
inductive DiagnosticKind where
  -- names
  | undeclaredIdentifier
  | multiplyDeclared
  | nonFunctionVoid
  | invalidTupleType
  | colonAccessOfNonTuple
  | invalidTupleField
  -- operators
  | arithmeticNonInteger
  | relationalNonInteger
  | logicalNonLogical
  | mismatchedType
  | equalityVoidCalls
  | equalityFunctionNames
  | equalityTupleVariables
  | equalityTupleNames
  -- assignments
  | assignFunctionName
  | assignTupleVariable
  | assignTupleName
  -- calls
  | callNonFunction
  | wrongArgCount
  | actualFormalMismatch
  -- statements
  | nonLogicalIfCondition
  | nonLogicalWhileCondition
  | readFunctionName
  | readTupleVariable
  | readTupleName
  | writeFunctionName
  | writeTupleVariable
  | writeTupleName
  | writeVoid
  | returnValueMissing
  | returnWithValueInVoid
  | returnValueWrongType
  deriving DecidableEq, Repr

def DiagnosticKind.text : DiagnosticKind → String
  | undeclaredIdentifier => "Undeclared identifier"
  | multiplyDeclared => "Multiply-declared identifier"
  | nonFunctionVoid => "Non-function declared void"
  | invalidTupleType => "Invalid name of tuple type"
  | colonAccessOfNonTuple => "Colon-access of non-tuple type"
  | invalidTupleField => "Invalid tuple field name"
  | arithmeticNonInteger => "Arithmetic operator used with non-integer operand"
  | relationalNonInteger => "Relational operator used with non-integer operand"
  | logicalNonLogical => "Logical operator used with non-logical operand"
  | mismatchedType => "Mismatched type"
  | equalityVoidCalls => "Equality operator used with void function calls"
  | equalityFunctionNames => "Equality operator used with function names"
  | equalityTupleVariables => "Equality operator used with tuple variables"
  | equalityTupleNames => "Equality operator used with tuple names"
  | assignFunctionName => "Assignment to function name"
  | assignTupleVariable => "Assignment to tuple variable"
  | assignTupleName => "Assignment to tuple name"
  | callNonFunction => "Call attempt on non-function"
  | wrongArgCount => "Function call with wrong # of args"
  | actualFormalMismatch => "Actual type does not match formal type"
  | nonLogicalIfCondition => "Non-logical expression used in if condition"
  | nonLogicalWhileCondition => "Non-logical expression used in while condition"
  | readFunctionName => "Read attempt of function name"
  | readTupleVariable => "Read attempt of tuple variable"
  | readTupleName => "Read attempt of tuple name"
  | writeFunctionName => "Write attempt of function name"
  | writeTupleVariable => "Write attempt of tuple variable"
  | writeTupleName => "Write attempt of tuple name"
  | writeVoid => "Write attempt of void"
  | returnValueMissing => "Return value missing"
  | returnWithValueInVoid => "Return with value in void function"
  | returnValueWrongType => "Return value wrong type"

structure Diagnostic where
  position : Position
  kind : DiagnosticKind
  deriving DecidableEq, Repr

/-- The line that reports the diagnostic. -/
def Diagnostic.text (d : Diagnostic) : String :=
  d.position.text ++ " ***ERROR*** " ++ d.kind.text

/-- Diagnostics in the order in which they were found. -/
abbrev Diagnostics := List Diagnostic

namespace Diagnostics

/-- Adds a diagnostic at the end. -/
def report (ds : Diagnostics) (p : Position) (k : DiagnosticKind) : Diagnostics :=
  ds ++ [⟨p, k⟩]

def kinds (ds : Diagnostics) : List DiagnosticKind := ds.map (·.kind)

def countOf (ds : Diagnostics) (k : DiagnosticKind) : Nat := ds.kinds.count k

end Diagnostics

end BaseLang
