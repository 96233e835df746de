import BaseLang.Token
import BaseLang.Tree

/-
  The rules that say which phrase a token begins or continues.

  An expression is read by binding power: the token at its start says which form
  its first part has, and an operator after it continues it as long as the
  operator binds more strongly than what stands before the expression. A
  statement or a written type is chosen by its first token. `Rules.standard`
  holds the rules of the language.
-/

namespace BaseLang

/-- How strongly an operator holds its operands, weakest first. -/
inductive BindingPower where
  | default
  | comma
  | assignment
  | logicalOr
  | logicalAnd
  | relational
  | additive
  | multiplicative
  | unary
  | call
  | member
  deriving DecidableEq, Repr, Inhabited

namespace BindingPower

def level : BindingPower → Nat
  | default => 0
  | comma => 1
  | assignment => 2
  | logicalOr => 3
  | logicalAnd => 4
  | relational => 5
  | additive => 6
  | multiplicative => 7
  | unary => 8
  | call => 9
  | member => 10

instance : LE BindingPower := ⟨fun a b => a.level ≤ b.level⟩

instance (a b : BindingPower) : Decidable (a ≤ b) := Nat.decLe a.level b.level

def all : List BindingPower :=
  [default, comma, assignment, logicalOr, logicalAnd, relational, additive, multiplicative,
   unary, call, member]

end BindingPower

/-- The forms of statement that begin with a word of their own. -/
inductive StmtRule where
  | ifElse
  | whileDo
  | read
  | write
  | ret
  deriving DecidableEq, Repr

/-- The forms with which an expression can begin. -/
inductive StartRule where
  /-- A literal or a name. -/
  | primary
  /-- An operator before its operand. -/
  | unary
  /-- An expression in parentheses. -/
  | group
  deriving DecidableEq, Repr

/-- The forms that continue an expression. -/
inductive OperatorRule where
  | binary
  | assign
  | call
  | access
  deriving DecidableEq, Repr

inductive TypeRule where
  | word
  | tuple
  deriving DecidableEq, Repr

/-- Which form each kind of token begins or continues, and how strongly it binds
as an operator. -/
structure Rules where
  stmt : TokenKind → Option StmtRule
  start : TokenKind → Option StartRule
  operator : TokenKind → Option OperatorRule
  power : TokenKind → Option BindingPower
  type : TokenKind → Option TypeRule

namespace Rules

def empty : Rules where
  stmt _ := none
  start _ := none
  operator _ := none
  power _ := none
  type _ := none

/-- Adds a form that continues an expression, with its power. -/
def addOperator (r : Rules) (k : TokenKind) (power : BindingPower) (rule : OperatorRule) :
    Rules :=
  { r with
    operator := fun j => if j = k then some rule else r.operator j
    power := fun j => if j = k then some power else r.power j }

/-- Adds a form that begins an expression. The powers stay, so that a token can
be both kinds of operator. -/
def addStart (r : Rules) (k : TokenKind) (rule : StartRule) : Rules :=
  { r with start := fun j => if j = k then some rule else r.start j }

/-- Adds a form of statement. Its first token continues no expression. -/
def addStmt (r : Rules) (k : TokenKind) (rule : StmtRule) : Rules :=
  { r with
    stmt := fun j => if j = k then some rule else r.stmt j
    power := fun j => if j = k then some .default else r.power j }

/-- The power of a token as an operator: the weakest if it is none. -/
def powerOf (r : Rules) (k : TokenKind) : BindingPower := (r.power k).getD .default

/-! ## The rules of the language -/

def standardStmt : TokenKind → Option StmtRule
  | .ifWord => some .ifElse
  | .whileWord => some .whileDo
  | .readWord => some .read
  | .writeWord => some .write
  | .returnWord => some .ret
  | _ => none

def standardStart : TokenKind → Option StartRule
  | .intLiteral | .stringLiteral | .identifier | .trueWord | .falseWord => some .primary
  | .dash | .tilde => some .unary
  | .openParen => some .group
  | _ => none

def standardOperator : TokenKind → Option OperatorRule
  | .assignment => some .assign
  | .or | .and | .less | .lessEquals | .greater | .greaterEquals | .equals | .notEquals
  | .plus | .dash | .star | .slash => some .binary
  | .openParen => some .call
  | .colon => some .access
  | _ => none

/-- The powers of the tokens that continue an expression; the first words of
statements have the weakest. -/
def standardPower : TokenKind → Option BindingPower
  | .assignment => some .assignment
  | .or => some .logicalOr
  | .and => some .logicalAnd
  | .less | .lessEquals | .greater | .greaterEquals | .equals | .notEquals => some .relational
  | .plus | .dash => some .additive
  | .star | .slash => some .multiplicative
  | .openParen => some .call
  | .colon => some .member
  | .ifWord | .whileWord | .readWord | .writeWord | .returnWord => some .default
  | _ => none

/-- The written types: a single word, or a word and a name. -/
def standardType : TokenKind → Option TypeRule
  | .logicalWord | .integerWord | .voidWord => some .word
  | .tupleWord => some .tuple
  | _ => none

/-- The rules of the Base language. -/
def standard : Rules where
  stmt := standardStmt
  start := standardStart
  operator := standardOperator
  power := standardPower
  type := standardType

end Rules

/-- The operator that a token is between two operands. -/
def BinaryOp.ofKind? : TokenKind → Option BinaryOp
  | .plus => some .plus
  | .dash => some .minus
  | .star => some .times
  | .slash => some .divide
  | .equals => some .equals
  | .notEquals => some .notEquals
  | .less => some .less
  | .lessEquals => some .lessEq
  | .greater => some .greater
  | .greaterEquals => some .greaterEq
  | .and => some .and
  | .or => some .or
  | _ => none

def BinaryOp.kind : BinaryOp → TokenKind
  | .plus => .plus
  | .minus => .dash
  | .times => .star
  | .divide => .slash
  | .equals => .equals
  | .notEquals => .notEquals
  | .less => .less
  | .lessEq => .lessEquals
  | .greater => .greater
  | .greaterEq => .greaterEquals
  | .and => .and
  | .or => .or

theorem BinaryOp.ofKind?_eq_some_iff {k : TokenKind} {op : BinaryOp} :
    ofKind? k = some op ↔ k = op.kind := by
  cases k <;> cases op <;> simp [ofKind?, BinaryOp.kind]

end BaseLang
