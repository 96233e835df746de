import BaseLang.Parsing.Expressions

/-
  Reading written types, declarations of names, statements and blocks.

  A statement that begins with no word of its own is an assignment, a call, an
  increment or a decrement: an expression is read first and judged by what
  follows it. Blocks and statements contain each other; the bound of
  `stmtWithin` is the number of tokens ahead, as for expressions.
-/

namespace BaseLang.Reader

/-! ## Written types and declarations of names -/

/-- A type written as a single word. -/
def wordType : Reader TypeName := do
  let t ← advance
  match t.kind with
  | .logicalWord => return .logical
  | .integerWord => return .integer
  | .voidWord => return .void
  | _ => throw ⟨.unexpected t.text, t.start⟩

/-- A tuple type: the word and the name of the type. -/
def tupleType : Reader TypeName := do
  let _ ← expect .tupleWord
  return .tuple (← ident)

def typeOf : TypeRule → Reader TypeName
  | .word => wordType
  | .tuple => tupleType

def typeName (rules : Rules) : Reader TypeName := do
  match rules.type (← kind) with
  | some rule => typeOf rule
  | none => unexpectedWith "expected a type"

/-- A written type other than a tuple, as formals and results have. -/
def simpleType (rules : Rules) : Reader TypeName := do
  if (← kind).isSimpleType then typeName rules
  else unexpectedWith "expected `logical`, `integer` or `void`"

/-- A type, a name and a dot. -/
def varDecl (rules : Rules) : Reader VarDecl := do
  let type ← typeName rules
  let name ← ident
  let _ ← expect .dot
  return ⟨type, name⟩

def formal (rules : Rules) : Reader VarDecl := do
  let type ← simpleType rules
  let name ← ident
  return ⟨type, name⟩

/-! ## Statements and blocks -/

/-- The declarations, then the statements between square brackets. -/
def blockOf (rules : Rules) (stmt : Reader Stmt) : Reader Block := do
  let _ ← expect .openBracket
  let decls ← many (fun k => k.isSimpleType || k == .tupleWord) (varDecl rules)
  let stmts ← many (· != .closeBracket) do
    if (← kind) = .endOfInput then unexpectedWith "expected `]` to close the block" else stmt
  let _ ← expect .closeBracket
  return .mk decls stmts

/-- A condition with one block, or with two that `else` separates. -/
def ifStmt (rules : Rules) (stmt : Reader Stmt) : Reader Stmt := do
  let _ ← advance
  let cond ← expr rules .default
  let body ← blockOf rules stmt
  if (← kind) = .elseWord then
    let _ ← advance
    let other ← blockOf rules stmt
    return .ifElse cond body other
  else return .ifThen cond body

/-- A condition and the block that is repeated. -/
def whileStmt (rules : Rules) (stmt : Reader Stmt) : Reader Stmt := do
  let _ ← advance
  let cond ← expr rules .default
  let body ← blockOf rules stmt
  return .whileDo cond body

/-- An arrow and the location that is read into. -/
def readStmt (rules : Rules) : Reader Stmt := do
  let _ ← advance
  let _ ← expect .readArrow
  let place ← expr rules .default
  let _ ← expect .dot
  return .read (← target place)

/-- An arrow and the value that is written. -/
def writeStmt (rules : Rules) : Reader Stmt := do
  let _ ← advance
  let _ ← expect .writeArrow
  let value ← expr rules .default
  let _ ← expect .dot
  return .write value

/-- A return with a value or, if a dot follows at once, without one. -/
def returnStmt (rules : Rules) : Reader Stmt := do
  let t ← advance
  let value ← if (← kind) = .dot then pure none else some <$> expr rules .default
  let _ ← expect .dot
  return .ret value t.start

def exprStmt (rules : Rules) : Reader Stmt := do
  let e ← expr rules .default
  match (← kind) with
  | .plusPlus =>
    let _ ← advance
    let _ ← expect .dot
    return .increment (← target e)
  | .minusMinus =>
    let _ ← advance
    let _ ← expect .dot
    return .decrement (← target e)
  | .dot =>
    let _ ← advance
    match e with
    | .assign place value => return .assign place value
    | .call callee args => return .call callee args
    | _ => throw ⟨.invalidStatement, e.position⟩
  | _ => unexpected

/-- A statement of the given form; `stmt` reads those in its blocks. -/
def stmtOf (rules : Rules) (stmt : Reader Stmt) : StmtRule → Reader Stmt
  | .ifElse => ifStmt rules stmt
  | .whileDo => whileStmt rules stmt
  | .read => readStmt rules
  | .write => writeStmt rules
  | .ret => returnStmt rules

/-- A statement whose blocks are nested at most as deep as the bound. -/
def stmtWithin (rules : Rules) : Nat → Reader Stmt
  | 0 => unexpected
  | n + 1 => do
    match rules.stmt (← kind) with
    | some rule => stmtOf rules (stmtWithin rules n) rule
    | none => exprStmt rules

def stmt (rules : Rules) : Reader Stmt := do
  stmtWithin rules (← remaining)

def block (rules : Rules) : Reader Block := do
  blockOf rules (stmtWithin rules (← remaining))

end BaseLang.Reader
