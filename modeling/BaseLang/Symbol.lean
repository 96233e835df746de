import BaseLang.Symbol.Scope
import BaseLang.Symbol.Ty

/-
  Symbols: what a declared name stands for.
-/

namespace BaseLang

/-- The kinds of declared things, with what is known of each. -/
inductive SymbolKind where
  | variable (type : Ty)
  /-- A function: the type of its result and those of its formals. -/
  | function (result : Ty) (params : List Ty)
  /-- A variable, formal or field of a tuple type, whose definition is the symbol
  of the given number. -/
  | tupleInstance (tupleName : String) (definition : SymbolId)
  /-- A tuple type and its fields, which stand in a table of their own. -/
  | tupleDef (fields : ScopeTable)
  deriving Repr

structure Symbol where
  name : String
  kind : SymbolKind
  deriving Repr

namespace Symbol

/-- The type of an identifier that stands for the symbol. -/
def ty (s : Symbol) : Ty :=
  match s.kind with
  | .variable type => type
  | .function result params => .function result params
  | .tupleInstance tupleName _ => .tupleInstance tupleName
  | .tupleDef _ => .tupleDef s.name

def isTupleDef (s : Symbol) : Bool :=
  match s.kind with
  | .tupleDef _ => true
  | _ => false

/-- How the symbol is shown beside its name: by its type, a tuple type by the
word alone. -/
def text (s : Symbol) : String :=
  match s.kind with
  | .tupleDef _ => "tuple"
  | _ => s.ty.text

/-- The symbol with these parameter types, if it is a function. -/
def withParams (s : Symbol) (params : List Ty) : Symbol :=
  match s.kind with
  | .function result _ => { s with kind := .function result params }
  | _ => s

end Symbol

end BaseLang
