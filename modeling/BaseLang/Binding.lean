import BaseLang.Diagnostic
import BaseLang.Symbol.Resolution

/-
  Name resolution: which declaration each identifier of a program refers to.

  The program is walked once in source order with a table of the open scopes. A
  declaration makes a symbol and adds its name to the innermost scope, unless
  something is wrong with it; a use is linked to the symbol that its name stands
  for at that point. A function's body, a branch and a loop body have scopes of
  their own; the fields of a tuple type have a table that encloses nothing, which
  is consulted only for accesses to its instances.
-/

namespace BaseLang

/-- The state of the walk. -/
structure Binding where
  scopes : ScopeTable
  resolution : Resolution
  diagnostics : Diagnostics

/-- The state before the first declaration. -/
def Binding.start : Binding := ⟨.empty, .empty, []⟩

/-- A step of the walk. -/
abbrev Binder := StateT Binding (Except InternalError)

namespace Binder

/-! ## Single effects -/

def report (p : Position) (k : DiagnosticKind) : Binder Unit :=
  modify fun b => { b with diagnostics := b.diagnostics.report p k }

/-- Lets an identifier stand for a symbol. -/
def link (x : Ident) (id : SymbolId) : Binder Unit :=
  modify fun b => { b with resolution := b.resolution.link x id }

def alloc (s : Symbol) : Binder SymbolId := do
  let b ← get
  set { b with resolution := b.resolution.alloc s }
  return b.resolution.nextSymbol

def declare (name : String) (id : SymbolId) : Binder Unit := do
  let b ← get
  let scopes ← b.scopes.declare name id
  set { b with scopes }

def lookup (name : String) : Binder (Option SymbolId) := do
  return (← get).scopes.lookupChain name

def isTaken (name : String) : Binder Bool := do
  return ((← get).scopes.lookupLocal name).isSome

/-- The symbol of that number, which must have been made. -/
def readSymbol (id : SymbolId) : Binder Symbol := do
  match (← get).resolution.symbol? id with
  | some s => return s
  | none => throw (.noSymbol id)

/-- The kind of the symbol of that number. -/
def kindOf (id : SymbolId) : Binder SymbolKind := do
  return (← readSymbol id).kind

def setParams (id : SymbolId) (params : List Ty) : Binder Unit := do
  let _ ← readSymbol id
  modify fun b => { b with resolution := b.resolution.setParams id params }

/-- Does what is given inside a new scope. -/
def inScope (inside : Binder Unit) : Binder Unit := do
  modify fun b => { b with scopes := b.scopes.enter }
  inside
  let b ← get
  let scopes ← b.scopes.exit
  set { b with scopes }

/-! ## Uses -/

/-- Links a use of a name. -/
def ident (x : Ident) : Binder Unit := do
  match ← lookup x.name with
  | some id => link x id
  | none => report x.position .undeclaredIdentifier

/-- Links a field, given the number of the tuple type it should belong to. -/
def field (definition : SymbolId) (x : Ident) : Binder AccessLink := do
  let s ← readSymbol definition
  match s.kind with
  | .tupleDef fields =>
    match fields.lookupChain x.name with
    | none =>
      report x.position .invalidTupleField
      return .bad
    | some id =>
      link x id
      match ← kindOf id with
      | .tupleInstance _ inner => return .resolved (some inner)
      | _ => return .resolved none
  | _ => throw (.notATupleDef s.name)

/-- The tuple type of a name before a colon, if it is a tuple. -/
def baseOfIdent (x : Ident) : Binder (Option SymbolId) := do
  ident x
  match (← get).resolution.linkOf x with
  | none => return none
  | some id =>
    match ← kindOf id with
    | .tupleInstance _ definition => return some definition
    | _ =>
      report x.position .colonAccessOfNonTuple
      return none

/-- The tuple type of a field before a colon, if it is a tuple. -/
def baseOfAccess (fieldName : Ident) : AccessLink → Binder (Option SymbolId)
  | .bad => return none
  | .resolved none => do
    report fieldName.position .colonAccessOfNonTuple
    return none
  | .resolved (some definition) => return some definition

/-- Links a field access, once the tuple type before its colon is known. -/
def accessOn (id : NodeId) (fieldName : Ident) (definition : Option SymbolId) :
    Binder AccessLink := do
  let outcome ← match definition with
    | some definition => field definition fieldName
    | none => pure .bad
  modify fun b => { b with resolution := b.resolution.setAccess id outcome }
  return outcome

/-- Links the field access of a location; a location that is a name has none. The
result is the tuple type to which a further access would go. -/
def base : Loc → Binder (Option SymbolId)
  | .ident x => baseOfIdent x
  | .access id inner fieldName => do
    let outcome ← accessOn id fieldName (← base inner)
    baseOfAccess fieldName outcome

def loc : Loc → Binder Unit
  | .ident x => ident x
  | .access id inner fieldName => do
    let _ ← accessOn id fieldName (← base inner)

mutual

/-- Links the names of an expression. -/
def expr : Expr → Binder Unit
  | .logical _ _ | .int _ _ | .string _ _ => return
  | .loc place => loc place
  | .assign target value => do
    loc target
    expr value
  | .call callee args => do
    ident callee
    exprs args
  | .unary _ operand => expr operand
  | .binary _ left right => do
    expr left
    expr right

def exprs : List Expr → Binder Unit
  | [] => return
  | e :: rest => do
    expr e
    exprs rest

end

/-! ## Declarations -/

/-- The kind of symbol that a declaration with this written type makes, if the
type is right. -/
def kindFor (d : VarDecl) : Binder (Option SymbolKind) := do
  match d.type with
  | .void =>
    report d.name.position .nonFunctionVoid
    return none
  | .tuple tupleName =>
    match ← lookup tupleName.name with
    | some definition =>
      match ← kindOf definition with
      | .tupleDef _ =>
        link tupleName definition
        return some (.tupleInstance tupleName.name definition)
      | _ =>
        report tupleName.position .invalidTupleType
        return none
    | none =>
      report tupleName.position .invalidTupleType
      return none
  | type => return some (.variable type.ty)

/-- The symbol of a declared name, unless its type is wrong or its name taken. -/
def newSymbol (d : VarDecl) (taken : Bool) : Binder (Option SymbolId) := do
  let kind ← kindFor d
  if taken then
    report d.name.position .multiplyDeclared
    return none
  else
    match kind with
    | none => return none
    | some kind => return some (← alloc ⟨d.name.name, kind⟩)

/-- Declares a variable or a formal in the innermost scope. The result is its
type if it was accepted. -/
def varDecl (d : VarDecl) : Binder (Option Ty) := do
  let taken ← isTaken d.name.name
  match ← newSymbol d taken with
  | none => return none
  | some id =>
    declare d.name.name id
    link d.name id
    return some d.type.ty

/-- Declares a field in the table of its tuple type, which is the result. -/
def fieldDecl (fields : ScopeTable) (d : VarDecl) : Binder ScopeTable := do
  match ← newSymbol d (fields.lookupLocal d.name.name).isSome with
  | none => return fields
  | some id =>
    let fields ← fields.declare d.name.name id
    link d.name id
    return fields

def fieldDecls (fields : ScopeTable) : List VarDecl → Binder ScopeTable
  | [] => return fields
  | d :: rest => do
    let fields ← fieldDecl fields d
    fieldDecls fields rest

def varDecls : List VarDecl → Binder Unit
  | [] => return
  | d :: rest => do
    let _ ← varDecl d
    varDecls rest

/-- Declares formals one after the other. The result is the types of those that
were accepted. -/
def formals : List VarDecl → Binder (List Ty)
  | [] => return []
  | d :: rest => do
    let type ← varDecl d
    let types ← formals rest
    return type.toList ++ types

/-! ## Statements and blocks -/

mutual

def stmt : Stmt → Binder Unit
  | .assign target value => do
    loc target
    expr value
  | .increment target | .decrement target | .read target => loc target
  | .ifThen cond body | .whileDo cond body => do
    expr cond
    inScope (block body)
  | .ifElse cond thenBody elseBody => do
    expr cond
    inScope (block thenBody)
    inScope (block elseBody)
  | .write value => expr value
  | .call callee args => do
    ident callee
    exprs args
  | .ret (some value) _ => expr value
  | .ret none _ => return

/-- Declares the names of a block in the innermost scope, then links those of its
statements. -/
def block : Block → Binder Unit
  | .mk decls body => do
    varDecls decls
    stmts body

def stmts : List Stmt → Binder Unit
  | [] => return
  | s :: rest => do
    stmt s
    stmts rest

end

/-! ## Programs -/

/-- Declares a function and resolves its body. The function is known inside its
body, and its formals share a scope with the declarations there. A function whose
name is taken is resolved all the same. -/
def functionDecl (d : FunctionDecl) : Binder Unit := do
  let symbol ← do
    if ← isTaken d.name.name then
      report d.name.position .multiplyDeclared
      pure none
    else
      let id ← alloc ⟨d.name.name, .function d.result.ty []⟩
      declare d.name.name id
      link d.name id
      pure (some id)
  inScope do
    let params ← formals d.formals
    match symbol with
    | some id => setParams id params
    | none => pure ()
    block d.body

/-- Declares a tuple type. Its own name is not known among its fields. -/
def tupleDecl (d : TupleDecl) : Binder Unit := do
  let taken ← isTaken d.name.name
  if taken then report d.name.position .multiplyDeclared
  let fields ← fieldDecls .empty d.fields
  if !taken then
    let id ← alloc ⟨d.name.name, .tupleDef fields⟩
    declare d.name.name id
    link d.name id

def decl : Decl → Binder Unit
  | .var d => do
    let _ ← varDecl d
  | .function d => functionDecl d
  | .tuple d => tupleDecl d

def decls : List Decl → Binder Unit
  | [] => return
  | d :: rest => do
    decl d
    decls rest

end Binder

/-- The resolution of a program and what is wrong with its names. -/
def resolveNames (p : Program) : Except InternalError (Resolution × Diagnostics) :=
  match (Binder.decls p.decls).run .start with
  | .ok (_, b) => .ok (b.resolution, b.diagnostics)
  | .error e => .error e

end BaseLang
