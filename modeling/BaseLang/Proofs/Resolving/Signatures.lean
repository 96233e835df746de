import BaseLang.Proofs.Resolving.Occurrences
import BaseLang.Proofs.Resolving.Runs

/-
  The formals of functions.

  The symbol of a function is made without formals and gets the types of those that its
  heading declares. No other step gives a function formals, so that what is so for the types
  that headings declare is so for the formals of every symbol:

    1. `Binding.ParamsAre` — a property of the formals of all functions;
    2. `ParamsAre.after`, `ParamsAre.walk` — a step keeps it if its heading has it, and so do
       steps one after the other;
    3. `Program.scalar_params` — in a program that was parsed, formals are truth values or
       integers.
-/

namespace BaseLang

/-- A type that a variable or a formal can have which is no tuple. -/
def Ty.IsScalar (t : Ty) : Prop := t = .logical ∨ t = .integer

namespace Binding
variable {P : Ty → Prop} {b b' : Binding}

/-- Every formal of every function has a type of this sort. -/
def ParamsAre (P : Ty → Prop) (b : Binding) : Prop :=
  ∀ id s result params, b.resolution.symbol? id = some s → s.kind = .function result params →
    ∀ t ∈ params, P t

/-- The declaration of a value makes no function. -/
theorem function_of_linkDecl {t : ScopeTable} {d : VarDecl} {id : SymbolId} {s : Symbol} {result : Ty}
    {params : List Ty} (hs : (b.linkDecl t d).symbol? id = some s) (hk : s.kind = .function result params) :
    b.resolution.symbol? id = some s := by
  rcases symbol?_of_linkDecl hs with hold | ⟨_, hvalue⟩ | ⟨_, _, hvalue⟩
  · exact hold
  · rw [hk] at hvalue
    cases hvalue
  · rw [hk] at hvalue
    cases hvalue

namespace ParamsAre

/-- No function is new. -/
theorem keep (h : b.ParamsAre P) (hsymbols : ∀ id s result params, b'.resolution.symbol? id = some s →
    s.kind = .function result params → b.resolution.symbol? id = some s) : b'.ParamsAre P :=
  fun id s result params hs hk => h id s result params (hsymbols id s result params hs hk) hk

/-! ## What steps do -/

theorem use (h : b.ParamsAre P) (l : Loc) : (b.afterUse l).ParamsAre P :=
  h.keep fun id _ _ _ hs _ => (Binder.symbol?_linkLoc l id).symm.trans hs

theorem var (h : b.ParamsAre P) (d : VarDecl) : (b.afterVar d).ParamsAre P :=
  h.keep fun _ _ _ _ => function_of_linkDecl

theorem vars : ∀ (ds : List VarDecl) {b : Binding}, b.ParamsAre P → (ds.foldl afterVar b).ParamsAre P
  | [], _, h => h
  | d :: ds, _, h => vars ds (h.var d)

theorem fields : ∀ (ds : List VarDecl) {b : Binding} (t : ScopeTable), b.ParamsAre P →
    (b.afterFields t ds).ParamsAre P
  | [], _, _, h => h
  | d :: ds, b, t, h => by
    have hfield : (b.afterDecl t b.scopes d).ParamsAre P := h.keep fun _ _ _ _ => function_of_linkDecl
    exact fields ds (b.tableAfter t d) hfield

/-- A function is made without formals. -/
theorem withSymbol (h : b.ParamsAre P) (x : Ident) {kind : SymbolKind}
    (hkind : ∀ result params, kind = .function result params → params = []) :
    (b.withSymbol x kind).ParamsAre P := by
  intro id s result params hs hk
  change (b.resolution.alloc ⟨x.name, kind⟩).symbol? id = some s at hs
  rw [Resolution.symbol?_alloc] at hs
  split at hs
  · cases hs
    rw [hkind result params hk]
    exact nofun
  · exact h id s result params hs hk

/-- A function gets formals of the sort. -/
theorem withParams (h : b.ParamsAre P) (i : SymbolId) {types : List Ty} (htypes : ∀ t ∈ types, P t) :
    (b.withParams i types).ParamsAre P := by
  intro id s result params hs hk
  change (b.resolution.setParams i types).symbol? id = some s at hs
  rw [Resolution.symbol?_setParams] at hs
  split at hs
  · obtain ⟨⟨name, kind⟩, hold, rfl⟩ := Option.map_eq_some_iff.1 hs
    cases kind with
    | function _ _ =>
      cases hk
      exact htypes
    | «variable» _ | tupleInstance _ _ | tupleDef _ => cases hk
  · exact h id s result params hs hk

theorem heading (h : b.ParamsAre P) {d : FunctionDecl}
    (hformals : ∀ (b : Binding), ∀ t ∈ b.formalTypes d.formals, P t) : (b.afterHeading d).ParamsAre P := by
  have hname : (b.afterFunctionName d).ParamsAre P := by
    rw [afterFunctionName]
    split
    · exact h
    · refine h.withSymbol d.name fun result params hkind => ?_
      cases hkind
      rfl
  have hopened : (b.afterFunctionName d).inside.ParamsAre P := hname
  rw [afterHeading]
  split
  · exact vars d.formals hopened
  · exact (vars d.formals hopened).withParams _ (hformals _)

theorem tuple (h : b.ParamsAre P) (d : TupleDecl) : (b.afterTuple d).ParamsAre P := by
  rw [afterTuple]
  split
  · exact fields d.fields .empty h
  · exact (fields d.fields .empty h).withSymbol d.name fun _ _ hkind => by cases hkind

/-- A step keeps the sort of all formals if a heading declares such formals only. -/
theorem after (h : b.ParamsAre P) {s : Step} (hformals : ∀ scope d, s = .heading scope d →
    ∀ (b : Binding), ∀ t ∈ b.formalTypes d.formals, P t) : (b.after s).ParamsAre P := by
  cases s with
  | use _ l => exact h.use l
  | enter _ | exit _ => exact h
  | var _ d => exact h.var d
  | heading scope d => exact h.heading (hformals scope d rfl)
  | tuple _ d => exact h.tuple d

/-- So do steps one after the other. -/
theorem walk : ∀ (steps : List Step) {b : Binding}, (∀ scope d, .heading scope d ∈ steps →
    ∀ (b : Binding), ∀ t ∈ b.formalTypes d.formals, P t) → b.ParamsAre P → (steps.foldl Binding.after b).ParamsAre P
  | [], _, _, h => h
  | _ :: steps, _, hformals, h =>
    walk steps (fun scope d hd => hformals scope d (List.mem_cons_of_mem _ hd))
      (h.after fun scope d hs => hformals scope d (List.mem_cons.2 (.inl hs.symm)))

end ParamsAre

/-- Formals that are accepted and of no tuple type are scalars. -/
theorem scalar_formalTypes : ∀ {ds : List VarDecl} (b : Binding), (∀ d ∈ ds, d.type.idents = []) →
    ∀ t ∈ b.formalTypes ds, t.IsScalar
  | [], _, _, _, ht => by cases ht
  | d :: ds, b, hsimple, t, ht => by
    obtain ⟨hd, hds⟩ := List.forall_mem_cons.1 hsimple
    rw [formalTypes, List.mem_append] at ht
    rcases ht with ht | ht
    · obtain ⟨kind, haccepts, rfl⟩ := Option.map_eq_some_iff.1 (Option.mem_toList.1 ht)
      have hkind := accepts?_eq_some haccepts
      cases htype : d.type with
      | logical => exact .inl rfl
      | integer => exact .inr rfl
      | void =>
        rw [htype] at hkind
        cases hkind
      | tuple x =>
        rw [htype] at hd
        cases hd
    · exact scalar_formalTypes _ hds t ht

end Binding

/-- The formals of a program that was parsed are truth values and integers. -/
theorem Program.scalar_params {tokens : List Token} {p : Program} (hp : parse tokens = .ok p) :
    p.resolved.ParamsAre Ty.IsScalar :=
  Binding.ParamsAre.walk p.steps
    (fun _ d hd b => b.scalar_formalTypes (Grammar.parse_simple hp d (Program.heading_mem hd)).2) nofun

end BaseLang
