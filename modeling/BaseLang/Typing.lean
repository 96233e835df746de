import BaseLang.Diagnostic
import BaseLang.Symbol.Resolution

/-
  Type checking: the type of every expression and the faults of every statement
  in the bodies of a program's functions.

  Checking an expression gives its type and the faults found in it: those of its
  operands in source order, then its own. The type is `error` where a fault was
  found, here or during name resolution, and an operand of that type keeps
  whatever uses it from reporting anything more.
-/

namespace BaseLang.Typing

/-! ## Types of names -/

/-- The type of an identifier: that of its symbol. One that stands for no symbol
has been reported already. -/
def identType (r : Resolution) (x : Ident) : Ty := ((r.symbolOf x).map Symbol.ty).getD .error

/-- The type of a location. That of a field counts only if its access was found
right. -/
def locType (r : Resolution) : Loc → Ty
  | .ident x => identType r x
  | .access id _ field =>
    match r.access id with
    | some (.resolved _) => identType r field
    | _ => .error

/-! ## The rules of the operators

Each rule is given the operands with their types, and says what type the whole
has and what faults are its own. -/

/-- One fault of the given kind for each operand whose type is not as wanted. -/
def operandFaults (wanted : Ty → Bool) (kind : DiagnosticKind) (operands : List (Expr × Ty)) :
    Diagnostics :=
  operands.filterMap fun (e, t) => if wanted t then none else some ⟨e.position, kind⟩

/-- The rule of an operator whose operands must all have types as wanted. -/
def uniform (wanted : Ty → Bool) (kind : DiagnosticKind) (result : Ty)
    (operands : List (Expr × Ty)) : Ty × Diagnostics :=
  if operands.any fun (_, t) => t.isError then (.error, [])
  else
    let faults := operandFaults wanted kind operands
    (if faults.isEmpty then result else .error, faults)

/-- A minus sign needs an integer, a tilde a truth value. -/
def unary (op : UnaryOp) (operand : Expr × Ty) : Ty × Diagnostics :=
  match op with
  | .negate => uniform Ty.isInteger .arithmeticNonInteger .integer [operand]
  | .not => uniform Ty.isLogical .logicalNonLogical .logical [operand]

/-- What is wrong with comparing two operands of the same type, if anything is. -/
def equalityFault? (left right : Expr) : Ty → Option DiagnosticKind
  | .integer | .logical | .string | .error => none
  | .void => if left.isCall && right.isCall then some .equalityVoidCalls else none
  | .function _ _ => some .equalityFunctionNames
  | .tupleInstance _ => some .equalityTupleVariables
  | .tupleDef _ => some .equalityTupleNames

/-- Two values of one type are compared. -/
def equality (left right : Expr × Ty) : Ty × Diagnostics :=
  if left.2.isError || right.2.isError then (.error, [])
  else if !left.2.same right.2 then (.error, [⟨left.1.position, .mismatchedType⟩])
  else
    match equalityFault? left.1 right.1 left.2 with
    | none => (.logical, [])
    | some kind => (.error, [⟨left.1.position, kind⟩])

/-- Arithmetic and comparisons of size need integers, logical operators truth
values. -/
def binary (op : BinaryOp) (left right : Expr × Ty) : Ty × Diagnostics :=
  if op.isArithmetic then uniform Ty.isInteger .arithmeticNonInteger .integer [left, right]
  else if op.isRelational then uniform Ty.isInteger .relationalNonInteger .logical [left, right]
  else if op.isEquality then equality left right
  else uniform Ty.isLogical .logicalNonLogical .logical [left, right]

/-- What is wrong with assigning to a location of this type a value of the same
type, if anything is. -/
def assignFault? : Ty → Option DiagnosticKind
  | .function _ _ => some .assignFunctionName
  | .tupleInstance _ => some .assignTupleVariable
  | .tupleDef _ => some .assignTupleName
  | _ => none

/-- An assignment has the type of its two sides. -/
def assign (target : Loc) (left right : Ty) : Ty × Diagnostics :=
  if left.isError || right.isError then (.error, [])
  else if !left.same right then (.error, [⟨target.position, .mismatchedType⟩])
  else
    match assignFault? left with
    | none => (left, [])
    | some kind => (.error, [⟨target.position, kind⟩])

/-- One fault for each argument whose type is not that of its formal. -/
def argFaults : List (Expr × Ty) → List Ty → Diagnostics
  | (e, actual) :: args, formal :: formals =>
    if actual.same formal then argFaults args formals
    else ⟨e.position, .actualFormalMismatch⟩ :: argFaults args formals
  | _, _ => []

/-- A call needs a function and arguments that fit its formals, and has the type
of the function's result. That it calls no function is reported whatever its
arguments are. -/
def call (r : Resolution) (callee : Ident) (args : List (Expr × Ty)) : Ty × Diagnostics :=
  match (r.symbolOf callee).map Symbol.kind with
  | none => (.error, [])
  | some (.function result params) =>
    if args.any fun (_, t) => t.isError then (.error, [])
    else if args.length ≠ params.length then (.error, [⟨callee.position, .wrongArgCount⟩])
    else
      let faults := argFaults args params
      (if faults.isEmpty then result else .error, faults)
  | some _ => (.error, [⟨callee.position, .callNonFunction⟩])

/-! ## Expressions -/

mutual

/-- The type of an expression and the faults found in it. -/
def checkExpr (r : Resolution) : Expr → Ty × Diagnostics
  | .logical _ _ => (.logical, [])
  | .int _ _ => (.integer, [])
  | .string _ _ => (.string, [])
  | .loc place => (locType r place, [])
  | .assign target value =>
    let (right, inner) := checkExpr r value
    let (type, own) := assign target (locType r target) right
    (type, inner ++ own)
  | .call callee args =>
    let (types, inner) := checkExprs r args
    let (type, own) := call r callee (args.zip types)
    (type, inner ++ own)
  | .unary op operand =>
    let (t, inner) := checkExpr r operand
    let (type, own) := unary op (operand, t)
    (type, inner ++ own)
  | .binary op left right =>
    let (leftType, leftInner) := checkExpr r left
    let (rightType, rightInner) := checkExpr r right
    let (type, own) := binary op (left, leftType) (right, rightType)
    (type, leftInner ++ rightInner ++ own)

/-- The types of expressions one after the other, and the faults found in them. -/
def checkExprs (r : Resolution) : List Expr → List Ty × Diagnostics
  | [] => ([], [])
  | e :: rest =>
    let (type, first) := checkExpr r e
    let (types, others) := checkExprs r rest
    (type :: types, first ++ others)

end

def exprType (r : Resolution) (e : Expr) : Ty := (checkExpr r e).1

/-- The faults found in an expression. -/
def exprFaults (r : Resolution) (e : Expr) : Diagnostics := (checkExpr r e).2

/-! ## Statements -/

/-- The faults of a condition: it must be a truth value. -/
def conditionFaults (r : Resolution) (kind : DiagnosticKind) (cond : Expr) : Diagnostics :=
  let (type, inner) := checkExpr r cond
  inner ++ if type.isError || type.isLogical then [] else [⟨cond.position, kind⟩]

/-- The faults of an increment or a decrement: it needs an integer. -/
def stepFaults (r : Resolution) (target : Loc) : Diagnostics :=
  let type := locType r target
  if type.isError || type.isInteger then [] else [⟨target.position, .arithmeticNonInteger⟩]

/-- What is wrong with reading into a location of this type, if anything is. -/
def readFault? : Ty → Option DiagnosticKind
  | .function _ _ => some .readFunctionName
  | .tupleInstance _ => some .readTupleVariable
  | .tupleDef _ => some .readTupleName
  | _ => none

/-- What is wrong with writing an expression of this type, if anything is. -/
def writeFault? (value : Expr) : Ty → Option DiagnosticKind
  | .function _ _ => some .writeFunctionName
  | .tupleInstance _ => some .writeTupleVariable
  | .tupleDef _ => some .writeTupleName
  | .void => if value.isCall then some .writeVoid else none
  | _ => none

/-- The fault of that kind at that place, if there is one. -/
def faultAt (p : Position) (kind : Option DiagnosticKind) : Diagnostics :=
  kind.toList.map fun k => ⟨p, k⟩

/-- The faults of a return from a function with this type of result. A value that
is missing has no place in the text. -/
def returnFaults (r : Resolution) (result : Ty) : Option Expr → Diagnostics
  | none => if result.isVoid then [] else [⟨.nowhere, .returnValueMissing⟩]
  | some value =>
    let (type, inner) := checkExpr r value
    inner ++
      if result.isVoid then [⟨value.position, .returnWithValueInVoid⟩]
      else if type.isError || type.same result then []
      else [⟨value.position, .returnValueWrongType⟩]

mutual

/-- The faults of a statement in a function with this type of result. -/
def checkStmt (r : Resolution) (result : Ty) : Stmt → Diagnostics
  | .assign target value => exprFaults r (.assign target value)
  | .increment target | .decrement target => stepFaults r target
  | .ifThen cond body =>
    conditionFaults r .nonLogicalIfCondition cond ++ checkBlock r result body
  | .ifElse cond thenBody elseBody =>
    conditionFaults r .nonLogicalIfCondition cond ++
      (checkBlock r result thenBody ++ checkBlock r result elseBody)
  | .whileDo cond body =>
    conditionFaults r .nonLogicalWhileCondition cond ++ checkBlock r result body
  | .read target => faultAt target.position (readFault? (locType r target))
  | .write value =>
    let (type, inner) := checkExpr r value
    inner ++ faultAt value.position (writeFault? value type)
  | .call callee args => exprFaults r (.call callee args)
  | .ret value _ => returnFaults r result value

/-- The faults of a block. Declarations have none. -/
def checkBlock (r : Resolution) (result : Ty) : Block → Diagnostics
  | .mk _ stmts => checkStmts r result stmts

/-- The faults of statements one after the other. -/
def checkStmts (r : Resolution) (result : Ty) : List Stmt → Diagnostics
  | [] => []
  | s :: rest => checkStmt r result s ++ checkStmts r result rest

end

/-- The faults of a declaration: only functions have statements. -/
def checkDecl (r : Resolution) : Decl → Diagnostics
  | .function d => checkBlock r d.result.ty d.body
  | _ => []

/-- The type faults of a program, in source order. -/
def checkProgram (r : Resolution) (p : Program) : Diagnostics := p.decls.flatMap (checkDecl r)

end BaseLang.Typing
