import BaseLang.Proofs.Resolving.Walk

/-
  What one step of the resolver does to its state, as functions on states.

  The resolver is written with a state and with errors that should not happen. Here
  every part of it is given as a function that has none of them:

    1. `Binding.symbolAt?`, `Binding.linkLoc`, `Binding.locFaults` — the symbol to which a
       location leads, its links and its faults;
    2. `Binding.afterDecl` — the state after a name has been declared in a table;
    3. `Binding.after` — the state after a step.

  `Binder.run_perform` says that the resolver does what these functions say. Whatever
  is proved about runs is proved about them.
-/

namespace BaseLang

/-! ## What a resolution knows of a symbol -/

namespace Resolution

/-- The tuple type of which the symbol is a value. -/
def tupleOf? (r : Resolution) (id : SymbolId) : Option SymbolId :=
  match (r.symbol? id).map Symbol.kind with
  | some (.tupleInstance _ definition) => some definition
  | _ => none

def fieldsOf? (r : Resolution) (id : SymbolId) : Option ScopeTable :=
  match (r.symbol? id).map Symbol.kind with
  | some (.tupleDef fields) => some fields
  | _ => none

/-- The field of that name in the tuple type. -/
def fieldOf? (r : Resolution) (definition : SymbolId) (name : String) : Option SymbolId :=
  (r.fieldsOf? definition).bind (·.lookupChain name)

/-- The type of every tuple variable is a tuple type. -/
def Closed (r : Resolution) : Prop :=
  ∀ id definition, r.tupleOf? id = some definition → ∃ fields, r.fieldsOf? definition = some fields

end Resolution

def ScopeTable.extend (t : ScopeTable) (name : String) (id : SymbolId) : ScopeTable :=
  t.setInnermost ((name, id) :: t.innermost)

theorem ScopeTable.declare_eq_ok {t : ScopeTable} {name : String} {id : SymbolId}
    (h : t.lookupLocal name = none) : t.declare name id = .ok (t.extend name id) :=
  declare_eq_ok_iff.2 ⟨h, rfl⟩

namespace Binding
variable (b : Binding)

/-! ## Locations -/

/-- The symbol to which a location leads when it stands before a colon. -/
def symbolAt? : Loc → Option SymbolId
  | .ident x => (b.scopes.lookupChain x.name).or (b.resolution.linkOf x)
  | .access _ l f =>
    (symbolAt? l).bind fun id => (b.resolution.tupleOf? id).bind (b.resolution.fieldOf? · f.name)

/-- The fault of a colon after a location that is no tuple. -/
def colonFaults (l : Loc) : Diagnostics :=
  match b.symbolAt? l with
  | none => []
  | some id =>
    match b.resolution.tupleOf? id with
    | none => [⟨l.position, .colonAccessOfNonTuple⟩]
    | some _ => []

/-- The fault of a field after a colon that its tuple type does not have. -/
def fieldFaults (l : Loc) (f : Ident) : Diagnostics :=
  match (b.symbolAt? l).bind b.resolution.tupleOf? with
  | none => []
  | some definition =>
    match b.resolution.fieldOf? definition f.name with
    | none => [⟨f.position, .invalidTupleField⟩]
    | some _ => []

def locFaults : Loc → Diagnostics
  | .ident x =>
    match b.scopes.lookupChain x.name with
    | none => [⟨x.position, .undeclaredIdentifier⟩]
    | some _ => []
  | .access _ l f => locFaults l ++ (b.colonFaults l ++ b.fieldFaults l f)

def linkLoc : Loc → Resolution
  | .ident x =>
    match b.scopes.lookupChain x.name with
    | some id => b.resolution.link x id
    | none => b.resolution
  | .access id l f =>
    match b.symbolAt? (.access id l f) with
    | some field => ((linkLoc l).link f field).setAccess id (.resolved (b.resolution.tupleOf? field))
    | none => (linkLoc l).setAccess id .bad

/-- The state after a location has been used. -/
def afterUse (l : Loc) : Binding := ⟨b.scopes, b.linkLoc l, b.diagnostics ++ b.locFaults l⟩

/-! ## Declarations of names -/

/-- The tuple type that a name stands for. -/
def definition? (name : String) : Option SymbolId :=
  (b.scopes.lookupChain name).filter fun id => (b.resolution.fieldsOf? id).isSome

/-- The kind of symbol that a written type makes, if it is right. -/
def typeKind? : TypeName → Option SymbolKind
  | .void => none
  | .tuple t => (b.definition? t.name).map (.tupleInstance t.name)
  | type => some (.variable type.ty)

def typeFaults (d : VarDecl) : Diagnostics :=
  match d.type with
  | .void => [⟨d.name.position, .nonFunctionVoid⟩]
  | .tuple t =>
    match b.definition? t.name with
    | none => [⟨t.position, .invalidTupleType⟩]
    | some _ => []
  | _ => []

def linkType : TypeName → Resolution
  | .tuple t =>
    match b.definition? t.name with
    | some id => b.resolution.link t id
    | none => b.resolution
  | _ => b.resolution

/-- The kind of symbol that a declaration makes, if the table accepts it. -/
def accepts? (t : ScopeTable) (d : VarDecl) : Option SymbolKind :=
  if (t.lookupLocal d.name.name).isSome then none else b.typeKind? d.type

def declFaults (t : ScopeTable) (d : VarDecl) : Diagnostics :=
  b.typeFaults d ++
    if (t.lookupLocal d.name.name).isSome then [⟨d.name.position, .multiplyDeclared⟩] else []

def linkDecl (t : ScopeTable) (d : VarDecl) : Resolution :=
  match b.accepts? t d with
  | some kind => ((b.linkType d.type).alloc ⟨d.name.name, kind⟩).link d.name b.resolution.nextSymbol
  | none => b.linkType d.type

def tableAfter (t : ScopeTable) (d : VarDecl) : ScopeTable :=
  match b.accepts? t d with
  | some _ => t.extend d.name.name b.resolution.nextSymbol
  | none => t

/-- The state after a declaration in a table, which may be the scopes or another. -/
def afterDecl (t : ScopeTable) (scopes : ScopeTable) (d : VarDecl) : Binding :=
  ⟨scopes, b.linkDecl t d, b.diagnostics ++ b.declFaults t d⟩

def afterVar (d : VarDecl) : Binding := b.afterDecl b.scopes (b.tableAfter b.scopes d) d

def formalTypes (b : Binding) : List VarDecl → List Ty
  | [] => []
  | d :: ds => ((b.accepts? b.scopes d).map fun _ => d.type.ty).toList ++ formalTypes (b.afterVar d) ds

def fieldsAfter (b : Binding) (t : ScopeTable) : List VarDecl → ScopeTable
  | [] => t
  | d :: ds => fieldsAfter (b.afterDecl t b.scopes d) (b.tableAfter t d) ds

def afterFields (b : Binding) (t : ScopeTable) : List VarDecl → Binding
  | [] => b
  | d :: ds => afterFields (b.afterDecl t b.scopes d) (b.tableAfter t d) ds

/-! ## Declarations of functions and tuple types -/

/-- The state in which a name stands for a new symbol. -/
def withSymbol (x : Ident) (kind : SymbolKind) : Binding :=
  ⟨b.scopes.extend x.name b.resolution.nextSymbol,
    (b.resolution.alloc ⟨x.name, kind⟩).link x b.resolution.nextSymbol, b.diagnostics⟩

/-- The fault of a name that the innermost scope holds already. -/
def withMultiple (x : Ident) : Binding :=
  { b with diagnostics := b.diagnostics ++ [⟨x.position, .multiplyDeclared⟩] }

def afterFunctionName (d : FunctionDecl) : Binding :=
  if (b.scopes.lookupLocal d.name.name).isSome then b.withMultiple d.name
  else b.withSymbol d.name (.function d.result.ty [])

def inside : Binding := { b with scopes := b.scopes.enter }

def outside : Binding := { b with scopes := { b.scopes with nested := b.scopes.nested.tail } }

def withParams (id : SymbolId) (params : List Ty) : Binding :=
  { b with resolution := b.resolution.setParams id params }

def afterHeading (d : FunctionDecl) : Binding :=
  let opened := (b.afterFunctionName d).inside
  let after := d.formals.foldl afterVar opened
  if (b.scopes.lookupLocal d.name.name).isSome then after
  else after.withParams b.resolution.nextSymbol (opened.formalTypes d.formals)

def afterTuple (d : TupleDecl) : Binding :=
  if (b.scopes.lookupLocal d.name.name).isSome then
    (b.withMultiple d.name).afterFields .empty d.fields
  else
    (b.afterFields .empty d.fields).withSymbol d.name (.tupleDef (b.fieldsAfter .empty d.fields))

def after : Step → Binding
  | .use _ l => b.afterUse l
  | .enter _ => b.inside
  | .exit _ => b.outside
  | .var _ d => b.afterVar d
  | .heading _ d => b.afterHeading d
  | .tuple _ d => b.afterTuple d

section Free
variable {b : Binding} {d : FunctionDecl} (hfree : b.scopes.lookupLocal d.name.name = none)
include hfree

theorem afterFunctionName_of_free :
    b.afterFunctionName d = b.withSymbol d.name (.function d.result.ty []) := by
  rw [afterFunctionName, hfree]
  rfl

theorem afterHeading_of_free : b.afterHeading d =
    (d.formals.foldl afterVar (b.afterFunctionName d).inside).withParams b.resolution.nextSymbol
      ((b.afterFunctionName d).inside.formalTypes d.formals) := by
  rw [afterHeading, hfree]
  rfl

end Free

end Binding

/-! ## What the functions keep -/

namespace Binder
variable {b : Binding}

/-- The symbols, and what depends on them alone, stay when a location is linked. -/
theorem symbols_linkLoc (l : Loc) : (b.linkLoc l).symbols = b.resolution.symbols := by
  induction l with
  | ident x =>
    rw [Binding.linkLoc]
    split <;> rfl
  | access id l f ih =>
    rw [Binding.linkLoc]
    split <;> exact ih

theorem symbols_linkType (type : TypeName) : (b.linkType type).symbols = b.resolution.symbols := by
  cases type with
  | tuple t =>
    rw [Binding.linkType]
    split <;> rfl
  | logical | integer | void => rfl

theorem symbol?_linkLoc (l : Loc) (id : SymbolId) : (b.linkLoc l).symbol? id = b.resolution.symbol? id :=
  congrArg (·[id]?) (symbols_linkLoc l)

theorem symbol?_linkType (type : TypeName) (id : SymbolId) :
    (b.linkType type).symbol? id = b.resolution.symbol? id :=
  congrArg (·[id]?) (symbols_linkType type)

theorem scopes_afterFields : ∀ (ds : List VarDecl) (b : Binding) (t : ScopeTable),
    (b.afterFields t ds).scopes = b.scopes
  | [], _, _ => rfl
  | _ :: ds, _, _ => scopes_afterFields ds _ _

end Binder

namespace Resolution

theorem tupleOf?_congr {r r' : Resolution} (h : r'.symbols = r.symbols) : r'.tupleOf? = r.tupleOf? := by
  funext id
  rw [tupleOf?, symbol?, h]
  rfl

theorem fieldsOf?_congr {r r' : Resolution} (h : r'.symbols = r.symbols) :
    r'.fieldsOf? = r.fieldsOf? := by
  funext id
  rw [fieldsOf?, symbol?, h]
  rfl

theorem fieldsOf?_eq_some_iff {r : Resolution} {id : SymbolId} {fields : ScopeTable} :
    r.fieldsOf? id = some fields ↔ ∃ s, r.symbol? id = some s ∧ s.kind = .tupleDef fields := by
  rw [fieldsOf?]
  cases r.symbol? id with
  | none => simp
  | some s =>
    obtain ⟨name, kind⟩ := s
    cases kind <;> simp

theorem tupleOf?_eq_some_iff {r : Resolution} {id definition : SymbolId} :
    r.tupleOf? id = some definition ↔
      ∃ s name, r.symbol? id = some s ∧ s.kind = .tupleInstance name definition := by
  rw [tupleOf?]
  cases r.symbol? id with
  | none => simp
  | some s =>
    obtain ⟨name, kind⟩ := s
    cases kind <;> simp

end Resolution

end BaseLang
