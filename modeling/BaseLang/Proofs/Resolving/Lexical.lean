import BaseLang.Proofs.Resolving.Walk

/-
  Lexical scoping, as a matter of positions.

  A program mentions names: it declares them and uses them, each in a scope. What a use
  stands for depends on the declarations mentioned before it and on the scopes in which
  they lie, and on nothing else. There is no table of scopes here and no state.

    1. `Program.mentions` — the mentions of a program in the order in which they count:
       a function is declared before its formals and its body, a tuple type after its
       fields, whose types are looked up in the program;
    2. `visible?` — the declaration that a name stands for: in the innermost of the
       enclosing scopes that holds one;
    3. `Declaration.accepts` — a declaration counts if its type is right and its name is
       new in its scope; `acceptedOf` — the declarations that count;
    4. `Mention.faults` — what is wrong with a mention.
-/

namespace BaseLang

/-! ## Mentions -/

inductive Role where
  /-- A variable, a formal or a field of this type. -/
  | value (type : TypeName)
  /-- A function with a result of this type. -/
  | function (result : TypeName)
  /-- A tuple type. -/
  | tuple

def Role.isTuple : Role → Bool
  | .tuple => true
  | _ => false

/-- A name that is declared: the scope that is to hold it, and the scope in which its
type is looked up. They differ for the fields of a tuple type. -/
structure Declaration where
  name : Ident
  scope : ScopePath
  around : ScopePath
  role : Role

inductive Mention where
  | declares (d : Declaration)
  | uses (scope : ScopePath) (x : Ident)

/-- The first name of a location. The others are fields. -/
def Loc.root : Loc → Ident
  | .ident x => x
  | .access _ l _ => l.root

/-- A variable or a formal in a scope. -/
def VarDecl.declaration (scope around : ScopePath) (d : VarDecl) : Declaration :=
  ⟨d.name, scope, around, .value d.type⟩

def Step.mentions : Step → List Mention
  | .use scope l => [.uses scope l.root]
  | .enter _ | .exit _ => []
  | .var scope d => [.declares (d.declaration scope scope)]
  | .heading scope d =>
    .declares ⟨d.name, scope.tail, scope.tail, .function d.result⟩ ::
      d.formals.map fun f => .declares (f.declaration scope scope)
  | .tuple scope d =>
    (d.fields.map fun f => .declares (f.declaration scope scope.tail)) ++
      [.declares ⟨d.name, scope.tail, scope.tail, .tuple⟩]

def Program.mentions (p : Program) : List Mention := p.steps.flatMap Step.mentions

/-! ## What names stand for -/

/-- A scope and those around it, innermost first. -/
def ScopePath.enclosing : ScopePath → List ScopePath
  | [] => [[]]
  | n :: scope => (n :: scope) :: enclosing scope

/-- The declaration of a name that a scope holds. -/
def held? (ds : List Declaration) (name : String) (scope : ScopePath) : Option Declaration :=
  ds.find? fun d => d.scope == scope && d.name.name == name

/-- The declaration that a name stands for in a scope, given those that count so far:
that of the innermost enclosing scope which holds one. -/
def visible? (ds : List Declaration) (scope : ScopePath) (name : String) : Option Declaration :=
  scope.enclosing.findSome? (held? ds name)

/-- The tuple type that a name stands for. -/
def definition? (ds : List Declaration) (scope : ScopePath) (name : String) : Option Declaration :=
  (visible? ds scope name).filter (·.role.isTuple)

namespace Declaration

/-- Whether a type may be given to a name: a value cannot be nothing, and the name of a
tuple type must stand for one. -/
def typeRight (ds : List Declaration) (d : Declaration) : Bool :=
  match d.role with
  | .value .void => false
  | .value (.tuple t) => (definition? ds d.around t.name).isSome
  | _ => true

def taken (ds : List Declaration) (d : Declaration) : Bool := (held? ds d.name.name d.scope).isSome

/-- Whether a declaration counts, given those that count so far. -/
def accepts (ds : List Declaration) (d : Declaration) : Bool := d.typeRight ds && !d.taken ds

def typeFaults (ds : List Declaration) (d : Declaration) : Diagnostics :=
  match d.role with
  | .value .void => [⟨d.name.position, .nonFunctionVoid⟩]
  | .value (.tuple t) =>
    match definition? ds d.around t.name with
    | none => [⟨t.position, .invalidTupleType⟩]
    | some _ => []
  | _ => []

end Declaration

/-- The declarations that count after these mentions, latest first. -/
def acceptedOf (ds : List Declaration) : List Mention → List Declaration
  | [] => ds
  | .uses _ _ :: ms => acceptedOf ds ms
  | .declares d :: ms => acceptedOf (if d.accepts ds then d :: ds else ds) ms

def Mention.faults (ds : List Declaration) : Mention → Diagnostics
  | .uses scope x =>
    match visible? ds scope x.name with
    | none => [⟨x.position, .undeclaredIdentifier⟩]
    | some _ => []
  | .declares d =>
    d.typeFaults ds ++ if d.taken ds then [⟨d.name.position, .multiplyDeclared⟩] else []

def faultsOf (ds : List Declaration) : List Mention → Diagnostics
  | [] => []
  | m :: ms => m.faults ds ++ faultsOf (acceptedOf ds [m]) ms

/-- A fault that depends on what names stand for, and not on fields. -/
def Diagnostic.isOfScopes (d : Diagnostic) : Bool :=
  d.kind != .colonAccessOfNonTuple && d.kind != .invalidTupleField

theorem acceptedOf_append (ds : List Declaration) (ms ms' : List Mention) :
    acceptedOf ds (ms ++ ms') = acceptedOf (acceptedOf ds ms) ms' := by
  induction ms generalizing ds with
  | nil => rfl
  | cons m ms ih => cases m <;> exact ih _

theorem faultsOf_append (ds : List Declaration) (ms ms' : List Mention) :
    faultsOf ds (ms ++ ms') = faultsOf ds ms ++ faultsOf (acceptedOf ds ms) ms' := by
  induction ms generalizing ds with
  | nil => rfl
  | cons m ms ih =>
    rw [List.cons_append, faultsOf, faultsOf, ih, List.append_assoc, ← acceptedOf_append]
    rfl

/-! ## What a resolution makes of them -/

/-- The symbol is of the kind that the declaration asks for. -/
def Symbol.Fits (s : Symbol) (d : Declaration) : Prop :=
  s.name = d.name.name ∧
    match d.role with
    | .value (.tuple t) => ∃ definition, s.kind = .tupleInstance t.name definition
    | .value type => s.kind = .variable type.ty
    | .function result => ∃ params, s.kind = .function result.ty params
    | .tuple => ∃ fields, s.kind = .tupleDef fields

/-- The resolution lets the name stand for the declaration, or for nothing if there is none. -/
def Resolution.Links (r : Resolution) (x : Ident) : Option Declaration → Prop
  | some d => ∃ id, r.linkOf d.name = some id ∧ r.linkOf x = some id
  | none => r.linkOf x = none

/-- The resolution treats a mention as lexical scoping asks, given the declarations that
count so far. A use stands for the declaration that is visible; a declaration that counts
has a symbol of its kind, and one that does not has none; the name of its type stands for
the tuple type that is visible. -/
def Resolution.Respects (r : Resolution) (ds : List Declaration) : Mention → Prop
  | .uses scope x => r.Links x (visible? ds scope x.name)
  | .declares d =>
    (if d.accepts ds then ∃ id s, r.linkOf d.name = some id ∧ r.symbol? id = some s ∧ s.Fits d
      else r.linkOf d.name = none) ∧
    ∀ t, d.role = .value (.tuple t) → r.Links t (definition? ds d.around t.name)

/-- The resolution treats the mentions as lexical scoping asks, one after the other. -/
def Resolution.RespectsAll (r : Resolution) (ds : List Declaration) : List Mention → Prop
  | [] => True
  | m :: ms => r.Respects ds m ∧ RespectsAll r (acceptedOf ds [m]) ms

theorem Resolution.RespectsAll.append {r : Resolution} {ds : List Declaration} {ms ms' : List Mention}
    (h : r.RespectsAll ds ms) (h' : r.RespectsAll (acceptedOf ds ms) ms') :
    r.RespectsAll ds (ms ++ ms') := by
  induction ms generalizing ds with
  | nil => exact h'
  | cons m ms ih =>
    refine ⟨h.1, ih h.2 ?_⟩
    rwa [← acceptedOf_append]

/-- Every mention is treated so, given the declarations that count before it. -/
theorem Resolution.RespectsAll.respects {r : Resolution} : ∀ (pre : List Mention)
    {ds : List Declaration} {m : Mention} {post : List Mention},
    r.RespectsAll ds (pre ++ m :: post) → r.Respects (acceptedOf ds pre) m
  | [], _, _, _, h => h.1
  | x :: pre, _, _, _, h => by
    have hrest := respects pre h.2
    rwa [← acceptedOf_append] at hrest

end BaseLang
