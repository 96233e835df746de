import BaseLang.Position

/-
  The syntax tree of a Base program.

  A program is a list of declarations of variables, functions and tuple types.
  A function's body and the branches of its statements are blocks: declarations,
  then statements. Whatever can be assigned to is a location: a name, or a field
  of the tuple at another location.

  Every occurrence of an identifier and every field access carries a number. What
  is found out about a node is kept beside the tree, under its number.
-/

namespace BaseLang

/-- The number of an identifier occurrence or of a field access. -/
abbrev NodeId := Nat

/-- One occurrence of a name in the source. -/
structure Ident where
  id : NodeId
  name : String
  position : Position
  deriving DecidableEq, Repr, Inhabited

/-- A type as a declaration writes it. -/
inductive TypeName where
  | logical
  | integer
  | void
  | tuple (name : Ident)
  deriving DecidableEq, Repr, Inhabited

def TypeName.isVoid : TypeName → Bool
  | .void => true
  | _ => false

/-- A name with its type: a variable, a formal of a function or a field of a
tuple type. -/
structure VarDecl where
  type : TypeName
  name : Ident
  deriving DecidableEq, Repr, Inhabited

/-- A place that holds a value: a variable, or a field of another location. -/
inductive Loc where
  | ident (name : Ident)
  | access (id : NodeId) (base : Loc) (field : Ident)
  deriving DecidableEq, Repr, Inhabited

/-- The position of the identifier that ends the location. -/
def Loc.position : Loc → Position
  | .ident name => name.position
  | .access _ _ field => field.position

inductive UnaryOp where
  | negate
  | not
  deriving DecidableEq, Repr, Inhabited

inductive BinaryOp where
  | plus | minus | times | divide
  | equals | notEquals
  | less | lessEq | greater | greaterEq
  | and | or
  deriving DecidableEq, Repr, Inhabited

namespace BinaryOp

def all : List BinaryOp :=
  [plus, minus, times, divide, equals, notEquals, less, lessEq, greater, greaterEq, and, or]

theorem mem_all (op : BinaryOp) : op ∈ all := by cases op <;> decide

def symbol : BinaryOp → String
  | plus => "+"
  | minus => "-"
  | times => "*"
  | divide => "/"
  | equals => "=="
  | notEquals => "~="
  | less => "<"
  | lessEq => "<="
  | greater => ">"
  | greaterEq => ">="
  | and => "&"
  | or => "|"

/-- Integers to an integer. -/
def isArithmetic : BinaryOp → Bool
  | plus | minus | times | divide => true
  | _ => false

/-- Integers to a truth value. -/
def isRelational : BinaryOp → Bool
  | less | lessEq | greater | greaterEq => true
  | _ => false

/-- Two values of one type to a truth value. -/
def isEquality : BinaryOp → Bool
  | equals | notEquals => true
  | _ => false

/-- Truth values to a truth value. -/
def isLogical : BinaryOp → Bool
  | and | or => true
  | _ => false

end BinaryOp

/-- An expression. A string literal is kept as it is written, quotes and escapes
included. -/
inductive Expr where
  | logical (value : Bool) (position : Position)
  | int (value : Int32) (position : Position)
  | string (text : String) (position : Position)
  | loc (place : Loc)
  | assign (target : Loc) (value : Expr)
  | call (callee : Ident) (args : List Expr)
  | unary (op : UnaryOp) (operand : Expr)
  | binary (op : BinaryOp) (left right : Expr)
  deriving BEq, Repr, Inhabited

namespace Expr

/-- Where reports about the expression as a whole are made. -/
def position : Expr → Position
  | logical _ p | int _ p | string _ p => p
  | loc place => place.position
  | assign target _ => target.position
  | call callee _ => callee.position
  | unary _ operand => operand.position
  | binary _ left _ => left.position

/-- Whether the expression is a call. -/
def isCall : Expr → Bool
  | call _ _ => true
  | _ => false

/-- The location that the expression is, if it is one. -/
def place? : Expr → Option Loc
  | loc place => some place
  | _ => none

theorem place?_eq_some_iff {e : Expr} {l : Loc} : e.place? = some l ↔ e = .loc l := by
  cases e <;> simp [place?]

end Expr

mutual

/-- A statement. A return carries the position of its first word. -/
inductive Stmt where
  | assign (target : Loc) (value : Expr)
  | increment (target : Loc)
  | decrement (target : Loc)
  | ifThen (cond : Expr) (body : Block)
  | ifElse (cond : Expr) (thenBody elseBody : Block)
  | whileDo (cond : Expr) (body : Block)
  | read (target : Loc)
  | write (value : Expr)
  | call (callee : Ident) (args : List Expr)
  | ret (value : Option Expr) (position : Position)
  deriving BEq, Repr

/-- Declarations followed by statements. -/
inductive Block where
  | mk (decls : List VarDecl) (stmts : List Stmt)
  deriving BEq, Repr

end

def Block.decls : Block → List VarDecl
  | .mk decls _ => decls

def Block.stmts : Block → List Stmt
  | .mk _ stmts => stmts

/-- A function: the type of its result, its name, its formals and its body. -/
structure FunctionDecl where
  result : TypeName
  name : Ident
  formals : List VarDecl
  body : Block
  deriving BEq, Repr

/-- A tuple type: its name and its fields. -/
structure TupleDecl where
  name : Ident
  fields : List VarDecl
  deriving BEq, Repr

/-- A declaration at the top of a program. -/
inductive Decl where
  | var (decl : VarDecl)
  | function (decl : FunctionDecl)
  | tuple (decl : TupleDecl)
  deriving BEq, Repr

/-- A program: its declarations in source order. -/
structure Program where
  decls : List Decl
  deriving BEq, Repr

end BaseLang
