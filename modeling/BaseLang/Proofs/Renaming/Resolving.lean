import BaseLang.Proofs.Renaming.Tables
import BaseLang.Proofs.Resolving.Runs

/-
  Names are resolved alike under every renaming.

    1. `Program.steps_relabel` — the steps of a relabelled program are the relabelled
       steps, for any relabelling;
    2. `Renaming.binding_after` — a renamed step leads from the renamed state to the
       renamed result;
    3. `Renaming.resolved_relabel` — so the resolver ends in the renamed state.
-/

namespace BaseLang

/-! ## The steps of a relabelled tree -/

def Step.relabel (r : Relabelling) : Step → Step
  | .use scope l => .use scope (l.relabel r)
  | .enter scope => .enter scope
  | .exit scope => .exit scope
  | .var scope d => .var scope (d.relabel r)
  | .heading scope d => .heading scope (d.relabel r)
  | .tuple scope d => .tuple scope (d.relabel r)

section Steps
variable (r : Relabelling)

mutual

theorem Expr.places_relabel : ∀ e : Expr, (e.relabel r).places = e.places.map (Loc.relabel r)
  | .logical _ _ | .int _ _ | .string _ _ => rfl
  | .loc _ => rfl
  | .assign _ v => by rw [Expr.relabel, Expr.places, Expr.places, List.map_cons, places_relabel v]
  | .call _ args => by
    rw [Expr.relabel, Expr.places, Expr.places, List.map_cons, placesOfAll_relabel args]
    rfl
  | .unary _ v => places_relabel v
  | .binary _ v w => by
    rw [Expr.relabel, Expr.places, Expr.places, List.map_append, places_relabel v, places_relabel w]

theorem Expr.placesOfAll_relabel : ∀ es : List Expr,
    Expr.placesOfAll (Expr.relabelAll r es) = (Expr.placesOfAll es).map (Loc.relabel r)
  | [] => rfl
  | e :: es => by
    rw [Expr.relabelAll, Expr.placesOfAll, Expr.placesOfAll, List.map_append, places_relabel e,
      placesOfAll_relabel es]

end

theorem Expr.steps_relabel (scope : ScopePath) (e : Expr) :
    (e.relabel r).steps scope = (e.steps scope).map (Step.relabel r) := by
  rw [Expr.steps, Expr.places_relabel, Expr.steps, List.map_map, List.map_map]
  rfl

theorem var_steps_relabel (scope : ScopePath) (ds : List VarDecl) :
    (ds.map (VarDecl.relabel r)).map (Step.var scope) = (ds.map (Step.var scope)).map (Step.relabel r) := by
  rw [List.map_map, List.map_map]
  rfl

mutual

theorem Stmt.steps_relabel (scope : ScopePath) (k : Nat) : ∀ s : Stmt,
    (s.relabel r).steps scope k = (s.steps scope k).map (Step.relabel r)
  | .assign _ v => by
    rw [Stmt.relabel, Stmt.steps, Stmt.steps, List.map_cons, v.steps_relabel r]
    rfl
  | .increment _ | .decrement _ | .read _ => rfl
  | .ifThen c b | .whileDo c b => by
    rw [Stmt.relabel, Stmt.steps, Stmt.steps, List.map_append, c.steps_relabel r,
      Block.steps_relabel _ b]
  | .ifElse c b b' => by
    rw [Stmt.relabel, Stmt.steps, Stmt.steps, List.map_append, List.map_append, c.steps_relabel r,
      Block.steps_relabel _ b, Block.steps_relabel _ b']
  | .write v => v.steps_relabel r scope
  | .call f args => (Expr.call f args).steps_relabel r scope
  | .ret none _ => rfl
  | .ret (some v) _ => v.steps_relabel r scope

theorem Block.steps_relabel (scope : ScopePath) : ∀ b : Block,
    (b.relabel r).steps scope = (b.steps scope).map (Step.relabel r)
  | .mk ds ss => by
    rw [Block.relabel, Block.steps, Block.steps, var_steps_relabel, Stmt.stepsOfAll_relabel scope 0 ss,
      List.map_cons, List.map_append, List.map_append]
    rfl

theorem Stmt.stepsOfAll_relabel (scope : ScopePath) (k : Nat) : ∀ ss : List Stmt,
    Stmt.stepsOfAll scope k (Stmt.relabelAll r ss) = (Stmt.stepsOfAll scope k ss).map (Step.relabel r)
  | [] => rfl
  | s :: ss => by
    rw [Stmt.relabelAll, Stmt.stepsOfAll, Stmt.stepsOfAll, List.map_append, Stmt.steps_relabel scope k s,
      Stmt.stepsOfAll_relabel scope (k + 1) ss]

end

theorem Decl.steps_relabel (k : Nat) (d : Decl) :
    (d.relabel r).steps k = (d.steps k).map (Step.relabel r) := by
  cases d with
  | var d => rfl
  | function d =>
    obtain ⟨result, name, formals, ds, ss⟩ := d
    simp only [Decl.relabel, FunctionDecl.relabel, Block.relabel, Decl.steps, Block.bodySteps,
      var_steps_relabel, Stmt.stepsOfAll_relabel, List.map_cons, List.map_append]
    rfl
  | tuple d => rfl

theorem Decl.stepsOfAll_relabel (k : Nat) : ∀ ds : List Decl,
    Decl.stepsOfAll k (ds.map (Decl.relabel r)) = (Decl.stepsOfAll k ds).map (Step.relabel r)
  | [] => rfl
  | d :: ds => by
    rw [List.map_cons, Decl.stepsOfAll, Decl.stepsOfAll, List.map_append, d.steps_relabel,
      stepsOfAll_relabel (k + 1) ds]

/-- The steps of a relabelled program are its steps, relabelled. -/
theorem Program.steps_relabel (p : Program) : (p.relabel r).steps = p.steps.map (Step.relabel r) :=
  Decl.stepsOfAll_relabel r 0 p.decls

end Steps

/-! ## Single steps -/

namespace Renaming
variable (ρ : Renaming) (b : Binding)

theorem position_loc (l : Loc) : (l.relabel ρ.labels).position = ρ.place l.position := by
  cases l <;> rfl

theorem tupleOf?_binding : (ρ.binding b).resolution.tupleOf? = b.resolution.tupleOf? :=
  funext (ρ.tupleOf?_resolution b.resolution)

theorem symbolAt?_binding : ∀ l : Loc, (ρ.binding b).symbolAt? (l.relabel ρ.labels) = b.symbolAt? l
  | .ident x => by
    show ((ρ.table b.scopes).lookupChain (ρ.name x.name)).or
      ((ρ.resolution b.resolution).linkOf (ρ.labels.ident x)) = _
    rw [lookupChain_table, linkOf_resolution]
    rfl
  | .access id l f => by
    show ((ρ.binding b).symbolAt? (l.relabel ρ.labels)).bind
      (fun id => ((ρ.resolution b.resolution).tupleOf? id).bind
        ((ρ.resolution b.resolution).fieldOf? · (ρ.name f.name))) = _
    simp only [symbolAt?_binding l, tupleOf?_resolution, fieldOf?_resolution]
    rfl

theorem colonFaults_binding (l : Loc) :
    (ρ.binding b).colonFaults (l.relabel ρ.labels) = ρ.diagnostics (b.colonFaults l) := by
  rw [Binding.colonFaults, symbolAt?_binding, tupleOf?_binding, position_loc, Binding.colonFaults]
  cases b.symbolAt? l with
  | none => rfl
  | some id =>
    dsimp only
    cases b.resolution.tupleOf? id <;> rfl

theorem fieldFaults_binding (l : Loc) (f : Ident) :
    (ρ.binding b).fieldFaults (l.relabel ρ.labels) (ρ.labels.ident f) =
      ρ.diagnostics (b.fieldFaults l f) := by
  rw [Binding.fieldFaults, symbolAt?_binding, tupleOf?_binding, Binding.fieldFaults]
  cases (b.symbolAt? l).bind b.resolution.tupleOf? with
  | none => rfl
  | some definition =>
    have hfield : (ρ.binding b).resolution.fieldOf? definition (ρ.labels.ident f).name =
      b.resolution.fieldOf? definition f.name := ρ.fieldOf?_resolution b.resolution definition f.name
    dsimp only
    rw [hfield]
    cases b.resolution.fieldOf? definition f.name <;> rfl

theorem locFaults_binding : ∀ l : Loc,
    (ρ.binding b).locFaults (l.relabel ρ.labels) = ρ.diagnostics (b.locFaults l)
  | .ident x => by
    have hlookup : (ρ.binding b).scopes.lookupChain (ρ.labels.ident x).name = b.scopes.lookupChain x.name :=
      ρ.lookupChain_table b.scopes x.name
    rw [Loc.relabel, Binding.locFaults, hlookup, Binding.locFaults]
    cases b.scopes.lookupChain x.name <;> rfl
  | .access id l f => by
    rw [Loc.relabel, Binding.locFaults, Binding.locFaults, locFaults_binding l, colonFaults_binding,
      fieldFaults_binding, diagnostics_append, diagnostics_append]

theorem linkLoc_binding : ∀ l : Loc,
    (ρ.binding b).linkLoc (l.relabel ρ.labels) = ρ.resolution (b.linkLoc l)
  | .ident x => by
    have hlookup : (ρ.binding b).scopes.lookupChain (ρ.labels.ident x).name = b.scopes.lookupChain x.name :=
      ρ.lookupChain_table b.scopes x.name
    rw [Loc.relabel, Binding.linkLoc, hlookup, Binding.linkLoc]
    cases b.scopes.lookupChain x.name with
    | none => rfl
    | some id => exact (ρ.resolution_link b.resolution x id).symm
  | .access id l f => by
    have hat := ρ.symbolAt?_binding b (.access id l f)
    rw [Loc.relabel] at hat ⊢
    rw [Binding.linkLoc, hat, Binding.linkLoc, linkLoc_binding l]
    cases b.symbolAt? (.access id l f) with
    | none => exact (ρ.resolution_setAccess _ _ _).symm
    | some field =>
      rw [resolution_setAccess, resolution_link, ← ρ.tupleOf?_resolution b.resolution field]
      rfl

theorem binding_afterUse (l : Loc) :
    (ρ.binding b).afterUse (l.relabel ρ.labels) = ρ.binding (b.afterUse l) := by
  rw [Binding.afterUse, linkLoc_binding, locFaults_binding]
  exact congrArg (Binding.mk _ _) (ρ.diagnostics_append _ _).symm

/-! ### Declarations of names -/

theorem definition?_binding (n : String) : (ρ.binding b).definition? (ρ.name n) = b.definition? n := by
  show ((ρ.table b.scopes).lookupChain (ρ.name n)).filter _ = _
  rw [lookupChain_table, Binding.definition?]
  congr 1
  funext id
  show ((ρ.resolution b.resolution).fieldsOf? id).isSome = _
  rw [fieldsOf?_resolution, Option.isSome_map]

theorem typeKind?_binding (t : TypeName) :
    (ρ.binding b).typeKind? (t.relabel ρ.labels) = (b.typeKind? t).map ρ.kind := by
  cases t with
  | tuple x =>
    show ((ρ.binding b).definition? (ρ.name x.name)).map _ = ((b.definition? x.name).map _).map _
    rw [definition?_binding, Option.map_map]
    rfl
  | logical | integer | void => rfl

theorem typeFaults_binding (d : VarDecl) :
    (ρ.binding b).typeFaults (d.relabel ρ.labels) = ρ.diagnostics (b.typeFaults d) := by
  obtain ⟨t, x⟩ := d
  cases t with
  | tuple u =>
    have hlookup : (ρ.binding b).definition? (ρ.labels.ident u).name = b.definition? u.name :=
      ρ.definition?_binding b u.name
    rw [VarDecl.relabel, TypeName.relabel, Binding.typeFaults, Binding.typeFaults]
    dsimp only
    rw [hlookup]
    cases b.definition? u.name <;> rfl
  | logical | integer | void => rfl

theorem linkType_binding (t : TypeName) :
    (ρ.binding b).linkType (t.relabel ρ.labels) = ρ.resolution (b.linkType t) := by
  cases t with
  | tuple u =>
    have hlookup : (ρ.binding b).definition? (ρ.labels.ident u).name = b.definition? u.name :=
      ρ.definition?_binding b u.name
    rw [TypeName.relabel, Binding.linkType, hlookup, Binding.linkType]
    cases b.definition? u.name with
    | none => rfl
    | some id => exact (ρ.resolution_link b.resolution u id).symm
  | logical | integer | void => rfl

section Declarations
variable (t : ScopeTable) (d : VarDecl)

theorem accepts?_binding :
    (ρ.binding b).accepts? (ρ.table t) (d.relabel ρ.labels) = (b.accepts? t d).map ρ.kind := by
  show (if ((ρ.table t).lookupLocal (ρ.name d.name.name)).isSome then none
    else (ρ.binding b).typeKind? (d.type.relabel ρ.labels)) = _
  rw [lookupLocal_table, typeKind?_binding, Binding.accepts?]
  split <;> rfl

theorem declFaults_binding :
    (ρ.binding b).declFaults (ρ.table t) (d.relabel ρ.labels) = ρ.diagnostics (b.declFaults t d) := by
  show (ρ.binding b).typeFaults (d.relabel ρ.labels) ++
    (if ((ρ.table t).lookupLocal (ρ.name d.name.name)).isSome then _ else _) = _
  rw [typeFaults_binding, lookupLocal_table, Binding.declFaults, diagnostics_append]
  split <;> rfl

theorem linkDecl_binding :
    (ρ.binding b).linkDecl (ρ.table t) (d.relabel ρ.labels) = ρ.resolution (b.linkDecl t d) := by
  have htype : (ρ.binding b).linkType (d.relabel ρ.labels).type = ρ.resolution (b.linkType d.type) :=
    ρ.linkType_binding b d.type
  have hnext : (ρ.binding b).resolution.nextSymbol = b.resolution.nextSymbol :=
    ρ.nextSymbol_resolution b.resolution
  rw [Binding.linkDecl, accepts?_binding, htype, hnext, Binding.linkDecl]
  cases b.accepts? t d with
  | none => rfl
  | some kind =>
    rw [Option.map_some, resolution_link, resolution_alloc]
    rfl

theorem tableAfter_binding :
    (ρ.binding b).tableAfter (ρ.table t) (d.relabel ρ.labels) = ρ.table (b.tableAfter t d) := by
  have hnext : (ρ.binding b).resolution.nextSymbol = b.resolution.nextSymbol :=
    ρ.nextSymbol_resolution b.resolution
  rw [Binding.tableAfter, accepts?_binding, hnext, Binding.tableAfter]
  cases b.accepts? t d with
  | none => rfl
  | some kind => exact (ρ.table_extend t d.name.name _).symm

theorem binding_afterDecl (scopes : ScopeTable) :
    (ρ.binding b).afterDecl (ρ.table t) (ρ.table scopes) (d.relabel ρ.labels) =
      ρ.binding (b.afterDecl t scopes d) := by
  rw [Binding.afterDecl, linkDecl_binding, declFaults_binding]
  exact congrArg (Binding.mk _ _) (ρ.diagnostics_append _ _).symm

theorem binding_afterVar :
    (ρ.binding b).afterVar (d.relabel ρ.labels) = ρ.binding (b.afterVar d) := by
  show (ρ.binding b).afterDecl (ρ.table b.scopes)
    ((ρ.binding b).tableAfter (ρ.table b.scopes) (d.relabel ρ.labels)) (d.relabel ρ.labels) = _
  rw [tableAfter_binding, binding_afterDecl]
  rfl

end Declarations

theorem binding_formals : ∀ (ds : List VarDecl) (b : Binding),
    (ds.map (VarDecl.relabel ρ.labels)).foldl Binding.afterVar (ρ.binding b) =
      ρ.binding (ds.foldl Binding.afterVar b)
  | [], _ => rfl
  | d :: ds, b => by
    rw [List.map_cons, List.foldl_cons, List.foldl_cons, binding_afterVar, binding_formals ds]

theorem formalTypes_binding : ∀ (ds : List VarDecl) (b : Binding),
    (ρ.binding b).formalTypes (ds.map (VarDecl.relabel ρ.labels)) = ρ.tys (b.formalTypes ds)
  | [], _ => rfl
  | d :: ds, b => by
    have haccepts : (ρ.binding b).accepts? (ρ.binding b).scopes (d.relabel ρ.labels) =
        (b.accepts? b.scopes d).map ρ.kind := ρ.accepts?_binding b b.scopes d
    have htype : (d.relabel ρ.labels).type.ty = ρ.ty d.type.ty := ρ.ty_typeName d.type
    rw [List.map_cons, Binding.formalTypes, haccepts, htype, binding_afterVar, formalTypes_binding ds,
      Binding.formalTypes, tys_eq_map, tys_eq_map, List.map_append]
    cases b.accepts? b.scopes d <;> rfl

theorem fieldsAfter_binding : ∀ (ds : List VarDecl) (b : Binding) (t : ScopeTable),
    (ρ.binding b).fieldsAfter (ρ.table t) (ds.map (VarDecl.relabel ρ.labels)) =
      ρ.table (b.fieldsAfter t ds)
  | [], _, _ => rfl
  | d :: ds, b, t => by
    have hstate := ρ.binding_afterDecl b t d b.scopes
    rw [List.map_cons, Binding.fieldsAfter, tableAfter_binding, Binding.fieldsAfter,
      ← fieldsAfter_binding ds, ← hstate]
    rfl

theorem binding_afterFields : ∀ (ds : List VarDecl) (b : Binding) (t : ScopeTable),
    (ρ.binding b).afterFields (ρ.table t) (ds.map (VarDecl.relabel ρ.labels)) =
      ρ.binding (b.afterFields t ds)
  | [], _, _ => rfl
  | d :: ds, b, t => by
    have hstate := ρ.binding_afterDecl b t d b.scopes
    rw [List.map_cons, Binding.afterFields, tableAfter_binding, Binding.afterFields,
      ← binding_afterFields ds, ← hstate]
    rfl

/-! ### Functions and tuple types -/

theorem binding_withSymbol (x : Ident) (kind : SymbolKind) :
    (ρ.binding b).withSymbol (ρ.labels.ident x) (ρ.kind kind) = ρ.binding (b.withSymbol x kind) := by
  have hnext : (ρ.binding b).resolution.nextSymbol = b.resolution.nextSymbol :=
    ρ.nextSymbol_resolution b.resolution
  have htable := ρ.table_extend b.scopes x.name b.resolution.nextSymbol
  have hlink := ρ.resolution_link (b.resolution.alloc ⟨x.name, kind⟩) x b.resolution.nextSymbol
  rw [resolution_alloc] at hlink
  rw [Binding.withSymbol, hnext]
  exact (congrArg₂ (Binding.mk · · (ρ.diagnostics b.diagnostics)) htable hlink).symm

theorem binding_withMultiple (x : Ident) :
    (ρ.binding b).withMultiple (ρ.labels.ident x) = ρ.binding (b.withMultiple x) := by
  have hfaults := ρ.diagnostics_append b.diagnostics [⟨x.position, .multiplyDeclared⟩]
  exact congrArg (Binding.mk _ _) hfaults.symm

theorem binding_afterFunctionName (d : FunctionDecl) :
    (ρ.binding b).afterFunctionName (d.relabel ρ.labels) = ρ.binding (b.afterFunctionName d) := by
  show (if ((ρ.table b.scopes).lookupLocal (ρ.name d.name.name)).isSome then
      (ρ.binding b).withMultiple (ρ.labels.ident d.name)
    else (ρ.binding b).withSymbol (ρ.labels.ident d.name) (.function (d.result.relabel ρ.labels).ty [])) = _
  rw [lookupLocal_table, Binding.afterFunctionName, binding_withMultiple, ty_typeName,
    show SymbolKind.function (ρ.ty d.result.ty) [] = ρ.kind (.function d.result.ty []) from rfl,
    binding_withSymbol]
  split <;> rfl

theorem binding_inside : (ρ.binding b).inside = ρ.binding b.inside := rfl

theorem binding_outside : (ρ.binding b).outside = ρ.binding b.outside :=
  congrArg (fun nested => Binding.mk ⟨_, nested⟩ _ _) List.map_tail.symm

theorem binding_withParams (id : SymbolId) (params : List Ty) :
    (ρ.binding b).withParams id (ρ.tys params) = ρ.binding (b.withParams id params) := by
  exact congrArg (Binding.mk _ · _) (ρ.resolution_setParams _ id params).symm

theorem binding_afterHeading (d : FunctionDecl) :
    (ρ.binding b).afterHeading (d.relabel ρ.labels) = ρ.binding (b.afterHeading d) := by
  have hname : ((ρ.binding b).scopes.lookupLocal (d.relabel ρ.labels).name.name).isSome =
      (b.scopes.lookupLocal d.name.name).isSome :=
    congrArg Option.isSome (ρ.lookupLocal_table b.scopes d.name.name)
  have hnext : (ρ.binding b).resolution.nextSymbol = b.resolution.nextSymbol :=
    ρ.nextSymbol_resolution b.resolution
  have hformals : (d.relabel ρ.labels).formals = d.formals.map (VarDecl.relabel ρ.labels) := rfl
  rw [Binding.afterHeading, Binding.afterHeading, hname, hnext, hformals, binding_afterFunctionName,
    binding_inside, binding_formals, formalTypes_binding, binding_withParams]
  split <;> rfl

theorem binding_afterTuple (d : TupleDecl) :
    (ρ.binding b).afterTuple (d.relabel ρ.labels) = ρ.binding (b.afterTuple d) := by
  have hname : ((ρ.binding b).scopes.lookupLocal (d.relabel ρ.labels).name.name).isSome =
      (b.scopes.lookupLocal d.name.name).isSome :=
    congrArg Option.isSome (ρ.lookupLocal_table b.scopes d.name.name)
  have hfields : (d.relabel ρ.labels).fields = d.fields.map (VarDecl.relabel ρ.labels) := rfl
  have hx : (d.relabel ρ.labels).name = ρ.labels.ident d.name := rfl
  have hempty : ScopeTable.empty = ρ.table .empty := rfl
  rw [Binding.afterTuple, Binding.afterTuple, hname, hx, hfields, binding_withMultiple, hempty,
    binding_afterFields, binding_afterFields, fieldsAfter_binding,
    show SymbolKind.tupleDef (ρ.table (b.fieldsAfter .empty d.fields)) =
      ρ.kind (.tupleDef (b.fieldsAfter .empty d.fields)) from rfl, binding_withSymbol]
  split <;> rfl

/-- A renamed step leads from the renamed state to the renamed result. -/
theorem binding_after (s : Step) : (ρ.binding b).after (s.relabel ρ.labels) = ρ.binding (b.after s) := by
  cases s with
  | use _ l => exact ρ.binding_afterUse b l
  | enter _ => exact ρ.binding_inside b
  | exit _ => exact ρ.binding_outside b
  | var _ d => exact ρ.binding_afterVar b d
  | heading _ d => exact ρ.binding_afterHeading b d
  | tuple _ d => exact ρ.binding_afterTuple b d

/-! ## Programs -/

theorem binding_walk : ∀ (steps : List Step) (b : Binding),
    (steps.map (Step.relabel ρ.labels)).foldl Binding.after (ρ.binding b) =
      ρ.binding (steps.foldl Binding.after b)
  | [], _ => rfl
  | s :: steps, b => by
    rw [List.map_cons, List.foldl_cons, List.foldl_cons, binding_after, binding_walk steps]

theorem binding_start : ρ.binding .start = .start := by
  have hsymbols : (#[] : Array Symbol).map ρ.symbol = #[] := Array.map_empty
  exact congrArg (fun symbols => Binding.mk .empty ⟨symbols, .empty, .empty⟩ []) hsymbols

/-- The resolver ends on the renamed program in the renamed state. -/
theorem resolved_relabel (p : Program) : (p.relabel ρ.labels).resolved = ρ.binding p.resolved := by
  rw [Program.resolved, Program.steps_relabel, Program.resolved, ← binding_walk, binding_start]

end Renaming

end BaseLang
