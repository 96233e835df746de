import BaseLang.Parsing.Rules
import BaseLang.Parsing.Stream
import BaseLang.Text.Decimal

/-
  Reading expressions by binding power.

  Each form is a reader that is given the reader of its parts. `exprWithin` ties
  them together: its bound is the number of tokens ahead, of which each form
  takes at least one before it reads a part, so `expr` never runs out.
-/

namespace BaseLang.Reader

/-- A reader of expressions whose operators bind more strongly than the given
power. -/
abbrev Operands := BindingPower → Reader Expr

/-! ## Forms that begin an expression -/

/-- A literal or a name. -/
def primary : Reader Expr := do
  let t ← advance
  match t.kind with
  | .intLiteral =>
    match Decimal.int32? t.text.toList with
    | some value => return .int value t.start
    | none => throw ⟨.badNumber t.text, t.start⟩
  | .stringLiteral => return .string t.text t.start
  | .trueWord => return .logical true t.start
  | .falseWord => return .logical false t.start
  | .identifier => return .loc (.ident (← identOf t))
  | _ => throw ⟨.unexpected t.text, t.start⟩

/-- An operator and its operand: a tilde is the logical one. -/
def unary (operand : Operands) : Reader Expr := do
  let t ← advance
  let value ← operand .unary
  return .unary (if t.kind = .tilde then .not else .negate) value

/-- An expression in parentheses, which leave no trace in the tree. -/
def group (operand : Operands) : Reader Expr := do
  let _ ← advance
  let value ← operand .default
  let _ ← expect .closeParen
  return value

/-- The form that begins an expression. -/
def start (operand : Operands) : StartRule → Reader Expr
  | .primary => primary
  | .unary => unary operand
  | .group => group operand

/-! ## Forms that continue an expression -/

/-- An operator between two operands. Operators of one power group to the left,
since the right operand takes only stronger ones. -/
def binary (operand : Operands) (left : Expr) (power : BindingPower) : Reader Expr := do
  let t ← advance
  match BinaryOp.ofKind? t.kind with
  | none => throw ⟨.unexpected t.text, t.start⟩
  | some op =>
    let right ← operand power
    return .binary op left right

/-- The location that an expression is, which assignments and reads need. -/
def target (e : Expr) : Reader Loc :=
  match e.place? with
  | some place => return place
  | none => throw ⟨.invalidTarget, e.position⟩

/-- An assignment. Assignments group to the right, since the value may be one. -/
def assign (operand : Operands) (left : Expr) : Reader Expr := do
  let _ ← advance
  let place ← target left
  let value ← operand .comma
  return .assign place value

def call (operand : Operands) (left : Expr) : Reader Expr := do
  let t ← advance
  match left with
  | .loc (.ident callee) =>
    let args ← if (← kind) = .closeParen then pure [] else commaList (operand .default)
    let _ ← expect .closeParen
    return .call callee args
  | _ => throw ⟨.unexpectedWith t.text "only a function name can be called", t.start⟩

/-- A field of the tuple at a location. The access is numbered before its field. -/
def access (left : Expr) : Reader Expr := do
  let t ← advance
  match left.place? with
  | none => throw ⟨.unexpectedWith t.text "field access needs a name on its left", t.start⟩
  | some base =>
    let id ← freshId
    let field ← ident
    return .loc (.access id base field)

/-- The form that continues the expression `left` with an operator of the given
power. -/
def continuation (operand : Operands) (left : Expr) (power : BindingPower) :
    OperatorRule → Reader Expr
  | .binary => binary operand left power
  | .assign => assign operand left
  | .call => call operand left
  | .access => access left

/-! ## Whole expressions -/

/-- Continues the expression `left` for as long as an operator follows that binds
more strongly than `power`, at most the given number of times. -/
def operators (rules : Rules) (operand : Operands) :
    Nat → BindingPower → Expr → Reader Expr
  | 0, _, left => return left
  | n + 1, power, left => do
    let k ← kind
    if rules.powerOf k ≤ power then return left
    else
      match rules.operator k with
      | none => return left
      | some rule =>
        let longer ← continuation operand left (rules.powerOf k) rule
        operators rules operand n power longer

/-- An expression of operators that bind more strongly than `power`, nested at
most as deep as the bound. -/
def exprWithin (rules : Rules) : Nat → Operands
  | 0, _ => unexpected
  | n + 1, power => do
    match rules.start (← kind) with
    | none => unexpected
    | some rule =>
      let first ← start (exprWithin rules n) rule
      operators rules (exprWithin rules n) (n + 1) power first

/-- An expression of operators that bind more strongly than `power`. -/
def expr (rules : Rules) (power : BindingPower) : Reader Expr := do
  exprWithin rules (← remaining) power

end BaseLang.Reader
