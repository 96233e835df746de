import BaseLang.Position

/-
  Tokens of the Base language: their kinds, the reserved words and how a token
  is described.
-/

namespace BaseLang

/-- What a token is. Words that are not reserved are identifiers. -/
inductive TokenKind where
  | endOfInput
  | intLiteral | stringLiteral | identifier
  | openBracket | closeBracket | openCurly | closeCurly | openParen | closeParen
  | colon | comma | dot
  | writeArrow | readArrow
  | assignment | equals | notEquals | tilde
  | less | lessEquals | greater | greaterEquals
  | or | and
  | plusPlus | minusMinus
  | plus | dash | slash | star
  | logicalWord | integerWord | voidWord | tupleWord | trueWord | falseWord
  | ifWord | elseWord | whileWord | readWord | writeWord | returnWord
  deriving DecidableEq, Repr, Inhabited

namespace TokenKind

/-- The name under which messages mention the kind. -/
def name : TokenKind → String
  | endOfInput => "EOF"
  | intLiteral => "IntLiteral"
  | stringLiteral => "StringLiteral"
  | identifier => "Identifier"
  | openBracket => "OpenBracket"
  | closeBracket => "CloseBracket"
  | openCurly => "OpenCurly"
  | closeCurly => "CloseCurly"
  | openParen => "OpenParen"
  | closeParen => "CloseParen"
  | colon => "Colon"
  | comma => "Comma"
  | dot => "Dot"
  | writeArrow => "WriteArrow"
  | readArrow => "ReadArrow"
  | assignment => "Assignment"
  | equals => "Equals"
  | notEquals => "NotEquals"
  | tilde => "Tilde"
  | less => "Less"
  | lessEquals => "LessEquals"
  | greater => "Greater"
  | greaterEquals => "GreaterEquals"
  | or => "Or"
  | and => "And"
  | plusPlus => "PlusPlus"
  | minusMinus => "MinusMinus"
  | plus => "Plus"
  | dash => "Dash"
  | slash => "Slash"
  | star => "Star"
  | logicalWord => "Logical"
  | integerWord => "Integer"
  | voidWord => "Void"
  | tupleWord => "Tuple"
  | trueWord => "True"
  | falseWord => "False"
  | ifWord => "If"
  | elseWord => "Else"
  | whileWord => "While"
  | readWord => "Read"
  | writeWord => "Write"
  | returnWord => "Return"

def all : List TokenKind :=
  [endOfInput, intLiteral, stringLiteral, identifier, openBracket, closeBracket, openCurly,
   closeCurly, openParen, closeParen, colon, comma, dot, writeArrow, readArrow, assignment,
   equals, notEquals, tilde, less, lessEquals, greater, greaterEquals, or, and, plusPlus,
   minusMinus, plus, dash, slash, star, logicalWord, integerWord, voidWord, tupleWord, trueWord,
   falseWord, ifWord, elseWord, whileWord, readWord, writeWord, returnWord]

theorem mem_all (k : TokenKind) : k ∈ all := by cases k <;> decide

def ofName? (text : String) : Option TokenKind := all.find? fun k => k.name == text

/-- The words that start one of the three simple types: these alone may be the
type of a formal or of a function's result. -/
def isSimpleType : TokenKind → Bool
  | logicalWord | integerWord | voidWord => true
  | _ => false

def reserved : List (String × TokenKind) :=
  [("logical", logicalWord), ("integer", integerWord), ("void", voidWord),
   ("tuple", tupleWord), ("True", trueWord), ("False", falseWord), ("if", ifWord),
   ("else", elseWord), ("while", whileWord), ("read", readWord), ("write", writeWord),
   ("return", returnWord)]

/-- The kind of a word: its own if it is reserved, an identifier otherwise. -/
def ofWord (word : String) : TokenKind := (reserved.lookup word).getD identifier

end TokenKind

/-- A piece of the source: what it is, its text as written, and where it stands. -/
structure Token where
  kind : TokenKind
  text : String
  span : Span
  deriving DecidableEq, Repr, Inhabited

namespace Token

def start (t : Token) : Position := t.span.start

/-- The token that stands after all others. -/
def endOfInput (p : Position) : Token := ⟨.endOfInput, "EOF", .empty p⟩

def isOneOf (t : Token) (kinds : List TokenKind) : Bool := kinds.contains t.kind

/-- The token's kind, with its text where the kind alone does not give it. -/
def description (t : Token) : String :=
  if t.isOneOf [.stringLiteral, .identifier, .intLiteral] then
    t.kind.name ++ " (" ++ t.text ++ ")"
  else t.kind.name

end Token

end BaseLang
