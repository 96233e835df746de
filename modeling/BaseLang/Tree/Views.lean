import BaseLang.Tree

/-
  What a tree holds, as lists in source order: its identifier occurrences, its
  field accesses, its statements and their expressions.
-/

namespace BaseLang

/-! ## Identifier occurrences -/

/-- The identifiers of a location, from its base outwards. -/
def Loc.idents : Loc → List Ident
  | .ident name => [name]
  | .access _ base field => base.idents ++ [field]

/-- The identifier of a written type. -/
def TypeName.idents : TypeName → List Ident
  | .tuple name => [name]
  | _ => []

/-- The identifiers of a declaration. -/
def VarDecl.idents (d : VarDecl) : List Ident := d.type.idents ++ [d.name]

mutual

/-- The identifiers of an expression. -/
def Expr.idents : Expr → List Ident
  | .logical _ _ | .int _ _ | .string _ _ => []
  | .loc place => place.idents
  | .assign target value => target.idents ++ value.idents
  | .call callee args => callee :: Expr.identsOfAll args
  | .unary _ operand => operand.idents
  | .binary _ left right => left.idents ++ right.idents

/-- The identifiers of expressions one after the other. -/
def Expr.identsOfAll : List Expr → List Ident
  | [] => []
  | e :: rest => e.idents ++ Expr.identsOfAll rest

end

mutual

def Stmt.idents : Stmt → List Ident
  | .assign target value => target.idents ++ value.idents
  | .increment target | .decrement target | .read target => target.idents
  | .ifThen cond body | .whileDo cond body => cond.idents ++ body.idents
  | .ifElse cond thenBody elseBody => cond.idents ++ (thenBody.idents ++ elseBody.idents)
  | .write value => value.idents
  | .call callee args => callee :: Expr.identsOfAll args
  | .ret value _ => (value.map Expr.idents).getD []

def Block.idents : Block → List Ident
  | .mk decls stmts => decls.flatMap VarDecl.idents ++ Stmt.identsOfAll stmts

/-- The identifiers of statements one after the other. -/
def Stmt.identsOfAll : List Stmt → List Ident
  | [] => []
  | s :: rest => s.idents ++ Stmt.identsOfAll rest

end

/-- The identifiers of a declaration. -/
def Decl.idents : Decl → List Ident
  | .var d => d.idents
  | .function d =>
    d.result.idents ++ (d.name :: (d.formals.flatMap VarDecl.idents ++ d.body.idents))
  | .tuple d => d.name :: d.fields.flatMap VarDecl.idents

def Program.idents (p : Program) : List Ident := p.decls.flatMap Decl.idents

/-! ## Field accesses -/

/-- The field accesses of a location, innermost first. -/
def Loc.accesses : Loc → List NodeId
  | .ident _ => []
  | .access id base _ => base.accesses ++ [id]

mutual

/-- The field accesses of an expression. -/
def Expr.accesses : Expr → List NodeId
  | .logical _ _ | .int _ _ | .string _ _ => []
  | .loc place => place.accesses
  | .assign target value => target.accesses ++ value.accesses
  | .call _ args => Expr.accessesOfAll args
  | .unary _ operand => operand.accesses
  | .binary _ left right => left.accesses ++ right.accesses

/-- The field accesses of expressions one after the other. -/
def Expr.accessesOfAll : List Expr → List NodeId
  | [] => []
  | e :: rest => e.accesses ++ Expr.accessesOfAll rest

end

/-! ## Statements and their expressions -/

mutual

/-- A statement and those in its blocks, each before the ones inside it. -/
def Stmt.statements : Stmt → List Stmt
  | .ifThen cond body => .ifThen cond body :: body.statements
  | .ifElse cond thenBody elseBody =>
    .ifElse cond thenBody elseBody :: (thenBody.statements ++ elseBody.statements)
  | .whileDo cond body => .whileDo cond body :: body.statements
  | s => [s]

/-- The statements of a block, at every depth. -/
def Block.statements : Block → List Stmt
  | .mk _ stmts => Stmt.statementsOfAll stmts

/-- The statements in statements one after the other. -/
def Stmt.statementsOfAll : List Stmt → List Stmt
  | [] => []
  | s :: rest => s.statements ++ Stmt.statementsOfAll rest

end

/-- The statements in the body of a declared function. -/
def Decl.statements : Decl → List Stmt
  | .function d => d.body.statements
  | _ => []

/-- The statements in the bodies of all functions. -/
def Program.statements (p : Program) : List Stmt := p.decls.flatMap Decl.statements

mutual

/-- The expressions that stand in a statement as a whole. An assignment or a
call counts as one, the place of an increment, a decrement or a read as another,
and a condition comes before the branches. -/
def Stmt.exprs : Stmt → List Expr
  | .assign target value => [.assign target value]
  | .increment target | .decrement target | .read target => [.loc target]
  | .ifThen cond body | .whileDo cond body => cond :: body.exprs
  | .ifElse cond thenBody elseBody => cond :: (thenBody.exprs ++ elseBody.exprs)
  | .write value => [value]
  | .call callee args => [.call callee args]
  | .ret value _ => value.toList

def Block.exprs : Block → List Expr
  | .mk _ stmts => Stmt.exprsOfAll stmts

/-- The expressions of statements one after the other. -/
def Stmt.exprsOfAll : List Stmt → List Expr
  | [] => []
  | s :: rest => s.exprs ++ Stmt.exprsOfAll rest

end

/-- The expressions in the body of a declared function. -/
def Decl.exprs : Decl → List Expr
  | .function d => d.body.exprs
  | _ => []

/-- The expressions in the bodies of all functions. -/
def Program.exprs (p : Program) : List Expr := p.decls.flatMap Decl.exprs

/-- The field accesses of a program. They all stand in expressions. -/
def Program.accesses (p : Program) : List NodeId := p.exprs.flatMap Expr.accesses

end BaseLang
