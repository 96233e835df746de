import BaseLang.Parsing.Statements
import BaseLang.Token.Scan

/-
  Reading declarations and whole programs.

  Two tokens ahead decide what is declared: an opening brace after a type's first
  word and a name begins a function or a tuple type, anything else a variable.
  `parse` reads a program from tokens, `Program.ofSource?` from a text.
-/

namespace BaseLang

namespace Reader

/-- A function: the type of its result, its name, its formals in braces and its
body. -/
def functionDecl (rules : Rules) : Reader FunctionDecl := do
  let result ← simpleType rules
  let name ← ident
  let _ ← expect .openCurly
  let formals ← if (← kind) = .closeCurly then pure [] else commaList (formal rules)
  let _ ← expect .closeCurly
  let body ← block rules
  return ⟨result, name, formals, body⟩

/-- A tuple type: its name and its fields in braces. -/
def tupleDecl (rules : Rules) : Reader TupleDecl := do
  let _ ← expect .tupleWord
  let name ← ident
  let _ ← expect .openCurly
  let fields ← many (· != .closeCurly) do
    if (← kind) = .endOfInput then unexpectedWith "expected `\x7d` to close the tuple"
    else varDecl rules
  let _ ← expect .closeCurly
  let _ ← expect .dot
  return ⟨name, fields⟩

def decl (rules : Rules) : Reader Decl := do
  let k ← kind
  let opensBody := (← peekKind 2) == .openCurly
  if k = .tupleWord then
    if opensBody then return .tuple (← tupleDecl rules) else return .var (← varDecl rules)
  else if k.isSimpleType then
    if opensBody then return .function (← functionDecl rules) else return .var (← varDecl rules)
  else unexpectedWith "expected a declaration"

/-- Declarations up to the first end of the input. -/
def program (rules : Rules) : Reader Program := do
  return ⟨← many (· != .endOfInput) (decl rules)⟩

end Reader

/-- The program that the tokens are, or the first error in them. -/
def parse (tokens : List Token) : Except SyntaxError Program :=
  match (Reader.program .standard).run (.ofTokens tokens) with
  | .ok program _ => .ok program
  | .error e _ => .error e

/-- The program that the text is, or the first error in it. The whole text is
scanned before any of it is parsed. -/
def Program.ofSource? (source : String) : Except SyntaxError Program :=
  (scan source).bind parse

end BaseLang
