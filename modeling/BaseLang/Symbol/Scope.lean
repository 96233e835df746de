import BaseLang.Text.Quoted

/-
  Scopes: which symbol a name stands for.

  Scopes are nested, and a name stands for the symbol that the innermost scope
  holding it gives it. The outermost scope is kept apart from the others, so
  there is always one. A name is declared at most once in a scope.
-/

namespace BaseLang

/-- The number of a symbol. Symbols are numbered in the order of their making. -/
abbrev SymbolId := Nat

/-- A state of the analysis that no program leads to. -/
inductive InternalError where
  | exitOutermostScope
  | duplicateSymbol (name : String)
  | notATupleDef (name : String)
  /-- A symbol was asked for whose number no symbol has. -/
  | noSymbol (id : SymbolId)
  deriving DecidableEq, Repr

def InternalError.message : InternalError → String
  | .exitOutermostScope => "attempted to exit the outermost scope"
  | .duplicateSymbol name => "symbol " ++ Quoted.encode name ++ " declared twice in one scope"
  | .notATupleDef name => "symbol " ++ Quoted.encode name ++ " is not a tuple definition"
  | .noSymbol id => "there is no symbol with the number " ++ toString id

/-- The names of one scope. -/
abbrev Scope := List (String × SymbolId)

/-- The scopes that are open at one point of a program. -/
structure ScopeTable where
  outermost : Scope
  /-- The scopes within the outermost one, innermost first. -/
  nested : List Scope
  deriving DecidableEq, Repr

namespace ScopeTable

/-- The outermost scope alone, without names. -/
def empty : ScopeTable := ⟨[], []⟩

/-- Opens a scope without names inside the innermost one. -/
def enter (t : ScopeTable) : ScopeTable := { t with nested := [] :: t.nested }

/-- Closes the innermost scope, if it is not the outermost one. The table is there in both
outcomes. -/
def tryExit (t : ScopeTable) : Except InternalError Unit × ScopeTable :=
  match t.nested with
  | [] => (.error .exitOutermostScope, t)
  | _ :: outer => (.ok (), { t with nested := outer })

def innermost (t : ScopeTable) : Scope := t.nested.headD t.outermost

def setInnermost (t : ScopeTable) (s : Scope) : ScopeTable :=
  match t.nested with
  | [] => { t with outermost := s }
  | _ :: outer => { t with nested := s :: outer }

def lookupLocal (t : ScopeTable) (name : String) : Option SymbolId := t.innermost.lookup name

/-- The symbol of a name in the innermost scope that holds it. -/
def lookupChain (t : ScopeTable) (name : String) : Option SymbolId :=
  (t.nested ++ [t.outermost]).findSome? (·.lookup name)

/-- Adds a name to the innermost scope, if that does not hold it yet. The table is there in
both outcomes. -/
def tryDeclare (t : ScopeTable) (name : String) (id : SymbolId) : Except InternalError Unit × ScopeTable :=
  if (t.lookupLocal name).isSome then (.error (.duplicateSymbol name), t)
  else (.ok (), t.setInnermost ((name, id) :: t.innermost))

/-- The table after an operation that must not fail. -/
def required : Except InternalError Unit × ScopeTable → Except InternalError ScopeTable
  | (.ok (), t) => .ok t
  | (.error e, _) => .error e

/-- Closes the innermost scope, which must not be the outermost one. -/
def exit (t : ScopeTable) : Except InternalError ScopeTable := required t.tryExit

/-- Adds a name to the innermost scope, which must not hold it yet. -/
def declare (t : ScopeTable) (name : String) (id : SymbolId) : Except InternalError ScopeTable :=
  required (t.tryDeclare name id)

def depth (t : ScopeTable) : Nat := t.nested.length + 1

/-! ## What the operations do to the lookups -/

theorem innermost_setInnermost (t : ScopeTable) (s : Scope) :
    (t.setInnermost s).innermost = s := by
  obtain ⟨outermost, nested⟩ := t
  cases nested <;> rfl

theorem setInnermost_setInnermost (t : ScopeTable) (s u : Scope) :
    (t.setInnermost s).setInnermost u = t.setInnermost u := by
  obtain ⟨outermost, nested⟩ := t
  cases nested <;> rfl

theorem setInnermost_innermost (t : ScopeTable) : t.setInnermost t.innermost = t := by
  obtain ⟨outermost, nested⟩ := t
  cases nested <;> rfl

/-- Opening a scope hides nothing. -/
theorem lookupChain_enter (t : ScopeTable) (name : String) :
    t.enter.lookupChain name = t.lookupChain name := rfl

/-- A scope just opened holds nothing. -/
theorem lookupLocal_enter (t : ScopeTable) (name : String) :
    t.enter.lookupLocal name = none := rfl

/-- Closing a scope undoes its opening, whatever was declared in it. -/
theorem exit_setInnermost_enter (t : ScopeTable) (s : Scope) :
    (t.enter.setInnermost s).exit = .ok t := rfl

/-- A name can be declared exactly if the innermost scope does not hold it. -/
theorem declare_eq_ok_iff {t u : ScopeTable} {name : String} {id : SymbolId} :
    t.declare name id = .ok u ↔
      t.lookupLocal name = none ∧ u = t.setInnermost ((name, id) :: t.innermost) := by
  unfold declare tryDeclare
  cases t.lookupLocal name with
  | none => simp [required, eq_comm]
  | some _ => simp [required]

/-- A declared name stands for its symbol in the innermost scope, and the other
names stand for what they stood for. -/
theorem lookupLocal_declare {t u : ScopeTable} {name : String} {id : SymbolId}
    (h : t.declare name id = .ok u) (other : String) :
    u.lookupLocal other = if other = name then some id else t.lookupLocal other := by
  obtain ⟨_, rfl⟩ := declare_eq_ok_iff.1 h
  unfold lookupLocal
  rw [innermost_setInnermost, List.lookup_cons]
  by_cases ho : other = name
  · rw [if_pos ho, beq_iff_eq.2 ho]
  · rw [if_neg ho, beq_eq_false_iff_ne.2 ho]

end ScopeTable

end BaseLang
