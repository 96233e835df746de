import BaseLang.Parsing.Rules
import BaseLang.Text.Decimal
import BaseLang.Token
import BaseLang.Tree

/-
  The canonical text of a program.

  Each declaration and each statement stands on a line of its own, blocks are
  indented by four blanks, and every compound expression stands in parentheses,
  as does the location before a colon. The text is made of pieces, so that its
  tokens can be told from the layout around them. How an identifier is written is
  a parameter; the name in a written type is always written as it is.
-/

namespace BaseLang

/-- A piece of the canonical text: a token, or the layout between tokens. -/
inductive Piece where
  | token (kind : TokenKind) (text : String)
  | gap (text : String)
  deriving DecidableEq, Repr

def Piece.text : Piece → String
  | token _ text => text
  | gap text => text

namespace Printer

/-- How identifiers are written. -/
abbrev Naming := Ident → String

/-! ## Pieces -/

/-- An operator, a punctuation mark or a reserved word. -/
def mark (kind : TokenKind) : List Piece :=
  let text := match kind with
    | .openBracket => "["
    | .closeBracket => "]"
    | .openCurly => "\x7b"
    | .closeCurly => "\x7d"
    | .openParen => "("
    | .closeParen => ")"
    | .colon => ":"
    | .comma => ","
    | .dot => "."
    | .writeArrow => "<<"
    | .readArrow => ">>"
    | .assignment => "="
    | .equals => "=="
    | .notEquals => "~="
    | .tilde => "~"
    | .less => "<"
    | .lessEquals => "<="
    | .greater => ">"
    | .greaterEquals => ">="
    | .or => "|"
    | .and => "&"
    | .plusPlus => "++"
    | .minusMinus => "--"
    | .plus => "+"
    | .dash => "-"
    | .slash => "/"
    | .star => "*"
    | .logicalWord => "logical"
    | .integerWord => "integer"
    | .voidWord => "void"
    | .tupleWord => "tuple"
    | .trueWord => "True"
    | .falseWord => "False"
    | .ifWord => "if"
    | .elseWord => "else"
    | .whileWord => "while"
    | .readWord => "read"
    | .writeWord => "write"
    | .returnWord => "return"
    | _ => ""
  [.token kind text]

def blank : List Piece := [.gap " "]

def newline : List Piece := [.gap "\n"]

/-- The blanks before a line in a block nested that deep. -/
def indent (depth : Nat) : List Piece := [.gap (String.ofList (List.replicate (4 * depth) ' '))]

def ident (naming : Naming) (x : Ident) : List Piece := [.token .identifier (naming x)]

def type : TypeName → List Piece
  | .logical => mark .logicalWord
  | .integer => mark .integerWord
  | .void => mark .voidWord
  | .tuple name => mark .tupleWord ++ blank ++ [.token .identifier name.name]

/-- Lists of pieces with commas and blanks between them. -/
def commas : List (List Piece) → List Piece
  | [] => []
  | [ps] => ps
  | ps :: rest => ps ++ mark .comma ++ blank ++ commas rest

/-! ## Expressions -/

/-- A location. What stands before a colon is put in parentheses. -/
def loc (naming : Naming) : Loc → List Piece
  | .ident x => ident naming x
  | .access _ base field =>
    mark .openParen ++ loc naming base ++ mark .closeParen ++ mark .colon ++ ident naming field

mutual

def expr (naming : Naming) : Expr → List Piece
  | .logical true _ => mark .trueWord
  | .logical false _ => mark .falseWord
  | .int value _ => [.token .intLiteral (String.ofList (Decimal.signed value.toInt))]
  | .string text _ => [.token .stringLiteral text]
  | .loc place => loc naming place
  | .assign target value =>
    mark .openParen ++ loc naming target ++ blank ++ mark .assignment ++ blank ++
      expr naming value ++ mark .closeParen
  | .call callee args =>
    ident naming callee ++ mark .openParen ++ commas (exprs naming args) ++ mark .closeParen
  | .unary .negate operand =>
    mark .openParen ++ mark .dash ++ expr naming operand ++ mark .closeParen
  | .unary .not operand =>
    mark .openParen ++ mark .tilde ++ expr naming operand ++ mark .closeParen
  | .binary op left right =>
    mark .openParen ++ expr naming left ++ blank ++ mark op.kind ++ blank ++
      expr naming right ++ mark .closeParen

/-- Expressions, each by itself. -/
def exprs (naming : Naming) : List Expr → List (List Piece)
  | [] => []
  | e :: rest => expr naming e :: exprs naming rest

end

/-! ## Declarations of names -/

/-- A type and a name. -/
def typed (naming : Naming) (d : VarDecl) : List Piece :=
  type d.type ++ blank ++ ident naming d.name

/-- The line of a variable or a field. -/
def varDecl (naming : Naming) (depth : Nat) (d : VarDecl) : List Piece :=
  indent depth ++ typed naming d ++ mark .dot ++ newline

/-! ## Statements -/

/-- The brackets around a block, whose lines have been printed already. -/
def bracketed (depth : Nat) (body : List Piece) : List Piece :=
  blank ++ mark .openBracket ++ newline ++ body ++ indent depth ++ mark .closeBracket ++ newline

/-- What follows the indentation of a statement that stands on one line. -/
def simple (ps : List Piece) : List Piece := ps ++ mark .dot ++ newline

mutual

def stmt (naming : Naming) (depth : Nat) : Stmt → List Piece
  | .assign target value =>
    indent depth ++ simple
      (loc naming target ++ blank ++ mark .assignment ++ blank ++ expr naming value)
  | .increment target => indent depth ++ simple (loc naming target ++ mark .plusPlus)
  | .decrement target => indent depth ++ simple (loc naming target ++ mark .minusMinus)
  | .ifThen cond body =>
    indent depth ++ mark .ifWord ++ blank ++ expr naming cond ++
      bracketed depth (block naming (depth + 1) body)
  | .ifElse cond thenBody elseBody =>
    indent depth ++ mark .ifWord ++ blank ++ expr naming cond ++
      bracketed depth (block naming (depth + 1) thenBody) ++
      indent depth ++ mark .elseWord ++
      bracketed depth (block naming (depth + 1) elseBody)
  | .whileDo cond body =>
    indent depth ++ mark .whileWord ++ blank ++ expr naming cond ++
      bracketed depth (block naming (depth + 1) body)
  | .read target =>
    indent depth ++ simple (mark .readWord ++ blank ++ mark .readArrow ++ blank ++ loc naming target)
  | .write value =>
    indent depth ++
      simple (mark .writeWord ++ blank ++ mark .writeArrow ++ blank ++ expr naming value)
  | .call callee args => indent depth ++ simple (expr naming (.call callee args))
  | .ret none _ => indent depth ++ simple (mark .returnWord)
  | .ret (some value) _ =>
    indent depth ++ simple (mark .returnWord ++ blank ++ expr naming value)

def block (naming : Naming) (depth : Nat) : Block → List Piece
  | .mk decls body => decls.flatMap (varDecl naming depth) ++ stmts naming depth body

/-- The lines of statements one after the other. -/
def stmts (naming : Naming) (depth : Nat) : List Stmt → List Piece
  | [] => []
  | s :: rest => stmt naming depth s ++ stmts naming depth rest

end

/-! ## Programs -/

/-- The lines of a declaration. An empty line follows a function and a tuple type. -/
def decl (naming : Naming) : Decl → List Piece
  | .var d => varDecl naming 0 d
  | .function d =>
    indent 0 ++ type d.result ++ blank ++ ident naming d.name ++
      mark .openCurly ++ commas (d.formals.map (typed naming)) ++ mark .closeCurly ++
      bracketed 0 (block naming 1 d.body) ++ newline
  | .tuple d =>
    indent 0 ++ mark .tupleWord ++ blank ++ ident naming d.name ++ blank ++
      mark .openCurly ++ newline ++ d.fields.flatMap (varDecl naming 1) ++
      indent 0 ++ mark .closeCurly ++ mark .dot ++ newline ++ newline

def program (naming : Naming) (p : Program) : List Piece := p.decls.flatMap (decl naming)

end Printer

/-- How a written type is shown. -/
def TypeName.text (t : TypeName) : String := String.join ((Printer.type t).map Piece.text)

/-- The canonical text of a program, with identifiers written as `naming` says. -/
def Program.render (p : Program) (naming : Printer.Naming) : String :=
  String.join ((Printer.program naming p).map Piece.text)

/-- The canonical text of a program. -/
def Program.text (p : Program) : String := p.render Ident.name

end BaseLang
