import BaseLang.Analysis
import BaseLang.Proofs.Resolving.Nesting

/-
  The resolver never stops with an error.

  The resolver is written with four errors: a scope closed that is not open, a name
  declared twice in one scope, a field looked for in what is no tuple type, and a symbol
  asked for that has not been made. From a sound state none of them is raised:

    1. `Binder.run_perform` — a step runs to the state that `Binding.after` says, if a
       scope is open whenever one is closed;
    2. `Walks.run` — so do the steps that lead from one scope to another;
    3. `resolveNames_eq`, `resolved_closed`, `resolved_sound` — so every program is
       resolved, and the resolver ends in a sound state in the scope of the program;
    4. `analyze_total` — hence every program is analysed in both passes.
-/

namespace BaseLang

namespace Binder
variable {α β : Type} {b : Binding}

/-! ## Single effects -/

theorem run_bind_ok {m : Binder α} {b' : Binding} {a : α} (h : m.run b = .ok (a, b'))
    (f : α → Binder β) : (m >>= f).run b = (f a).run b' := by
  rw [StateT.run_bind, h]
  rfl

theorem run_get : (get : Binder Binding).run b = .ok (b, b) := rfl

theorem run_report_multiple (x : Ident) :
    (report x.position .multiplyDeclared).run b = .ok ((), b.withMultiple x) := rfl

theorem run_link (x : Ident) (id : SymbolId) :
    (link x id).run b = .ok ((), { b with resolution := b.resolution.link x id }) := rfl

theorem run_alloc (s : Symbol) :
    (alloc s).run b = .ok (b.resolution.nextSymbol, { b with resolution := b.resolution.alloc s }) := rfl

theorem run_lookup (name : String) : (lookup name).run b = .ok (b.scopes.lookupChain name, b) := rfl

theorem run_isTaken (name : String) :
    (isTaken name).run b = .ok ((b.scopes.lookupLocal name).isSome, b) := rfl

theorem run_lift {x : Except InternalError α} {a : α} (h : x = .ok a) :
    (liftM x : Binder α).run b = .ok (a, b) := by
  rw [h]
  rfl

theorem run_declare {t : ScopeTable} {name : String} (h : t.lookupLocal name = none) (id : SymbolId)
    (r : Resolution) (ds : Diagnostics) :
    (declare name id).run ⟨t, r, ds⟩ = .ok ((), ⟨t.extend name id, r, ds⟩) := by
  rw [declare, run_bind_ok run_get, run_bind_ok (run_lift (ScopeTable.declare_eq_ok h))]
  rfl

/-- A symbol that has been made can be read. -/
theorem run_readSymbol {id : SymbolId} {s : Symbol} (h : b.resolution.symbol? id = some s) :
    (readSymbol id).run b = .ok (s, b) := by
  rw [readSymbol, run_bind_ok run_get, h]
  rfl

theorem run_kindOf {id : SymbolId} {s : Symbol} (h : b.resolution.symbol? id = some s) :
    (kindOf id).run b = .ok (s.kind, b) := by
  rw [kindOf, run_bind_ok (run_readSymbol h)]
  rfl

theorem run_setParams {id : SymbolId} {s : Symbol} (h : b.resolution.symbol? id = some s)
    (params : List Ty) : (setParams id params).run b = .ok ((), b.withParams id params) := by
  rw [setParams, run_bind_ok (run_readSymbol h)]
  rfl

end Binder

namespace Resolution
variable {r : Resolution} {id : SymbolId} {s : Symbol}

theorem tupleOf?_of_symbol (h : r.symbol? id = some s) :
    r.tupleOf? id = match s.kind with
      | .tupleInstance _ definition => some definition
      | _ => none := by
  rw [tupleOf?, h, Option.map_some]
  cases s.kind <;> rfl

theorem fieldsOf?_of_symbol (h : r.symbol? id = some s) :
    r.fieldsOf? id = match s.kind with
      | .tupleDef fields => some fields
      | _ => none := by
  rw [fieldsOf?, h, Option.map_some]
  cases s.kind <;> rfl

end Resolution

namespace Binder
variable {b : Binding}

/-! ## Locations -/

theorem run_ident (x : Ident) : (ident x).run b = .ok ((), b.afterUse (.ident x)) := by
  rw [ident, run_bind_ok (run_lookup x.name), Binding.afterUse, Binding.linkLoc, Binding.locFaults]
  cases b.scopes.lookupChain x.name with
  | none => rfl
  | some id => rw [List.append_nil]; rfl

/-- A field of a tuple type, whether there is one of that name or not. -/
theorem run_field (hr : b.resolution.Sound) {definition : SymbolId} {fields : ScopeTable}
    (h : b.resolution.fieldsOf? definition = some fields) (f : Ident) :
    (field definition f).run b = .ok
      (match fields.lookupChain f.name with
        | none => (.bad, { b with diagnostics := b.diagnostics ++ [⟨f.position, .invalidTupleField⟩] })
        | some id =>
          (.resolved (b.resolution.tupleOf? id), { b with resolution := b.resolution.link f id })) := by
  obtain ⟨s, hs, hk⟩ := Resolution.fieldsOf?_eq_some_iff.1 h
  rw [field, run_bind_ok (run_readSymbol hs), hk]
  dsimp only
  cases hfield : fields.lookupChain f.name with
  | none => rfl
  | some id =>
    have hfound : b.resolution.fieldOf? definition f.name = some id := by
      rw [Resolution.fieldOf?, h]
      exact hfield
    obtain ⟨-, s', hs', -, -⟩ := hr.fieldOf? hfound
    have hkind : (kindOf id).run { b with resolution := b.resolution.link f id } = .ok (s'.kind, _) :=
      run_kindOf hs'
    dsimp only
    rw [run_bind_ok (run_link f id), run_bind_ok hkind, Resolution.tupleOf?_of_symbol hs']
    cases s'.kind <;> rfl

/-- A colon and a field after a location that has been linked. -/
theorem run_accessOn (hb : b.Sound) (ds : Diagnostics) (id : NodeId) (l : Loc) (f : Ident) :
    (accessOn id f ((b.symbolAt? l).bind b.resolution.tupleOf?)).run ⟨b.scopes, b.linkLoc l, ds⟩ = .ok
      (match b.symbolAt? (.access id l f) with
        | some field =>
          (.resolved (b.resolution.tupleOf? field),
            ⟨b.scopes, ((b.linkLoc l).link f field).setAccess id (.resolved (b.resolution.tupleOf? field)),
              ds ++ b.fieldFaults l f⟩)
        | none => (.bad, ⟨b.scopes, (b.linkLoc l).setAccess id .bad, ds ++ b.fieldFaults l f⟩)) := by
  have hat : b.symbolAt? (.access id l f) =
      ((b.symbolAt? l).bind b.resolution.tupleOf?).bind (b.resolution.fieldOf? · f.name) := by
    rw [Binding.symbolAt?, Option.bind_assoc]
  rw [hat, Binding.fieldFaults]
  cases hdef : (b.symbolAt? l).bind b.resolution.tupleOf? with
  | none => simp only [Option.bind_none, List.append_nil]; rfl
  | some definition =>
    obtain ⟨i, -, hi⟩ := Option.bind_eq_some_iff.1 hdef
    obtain ⟨fields, hfields⟩ := hb.resolution.closed i definition hi
    have hsame : (b.linkLoc l).fieldsOf? definition = some fields := by
      rw [Resolution.fieldsOf?_congr (symbols_linkLoc l), hfields]
    have hrun := run_field (b := ⟨b.scopes, b.linkLoc l, ds⟩) (hb.linkLoc l) hsame f
    have hfield : b.resolution.fieldOf? definition f.name = fields.lookupChain f.name := by
      rw [Resolution.fieldOf?, hfields]
      rfl
    rw [Resolution.tupleOf?_congr (symbols_linkLoc l)] at hrun
    rw [Option.bind_some, hfield, accessOn]
    dsimp only
    rw [run_bind_ok hrun, hfield]
    cases fields.lookupChain f.name with
    | none => rfl
    | some field => rw [List.append_nil]; rfl

/-- The tuple type to which a location leads before a colon, with the fault if it is none. -/
theorem run_base (hb : b.Sound) : ∀ l : Loc,
    (base l).run b = .ok ((b.symbolAt? l).bind b.resolution.tupleOf?,
      ⟨b.scopes, b.linkLoc l, b.diagnostics ++ b.locFaults l ++ b.colonFaults l⟩)
  | .ident x => by
    have hlink : (b.linkLoc (.ident x)).linkOf x = b.symbolAt? (.ident x) := by
      rw [Binding.linkLoc, Binding.symbolAt?]
      cases b.scopes.lookupChain x.name with
      | none => rfl
      | some id => exact Resolution.linkOf_link_self _ _ _
    rw [base, baseOfIdent, run_bind_ok (run_ident x), run_bind_ok run_get]
    dsimp only [Binding.afterUse]
    rw [hlink, Binding.colonFaults]
    cases hat : b.symbolAt? (.ident x) with
    | none => simp only [Option.bind_none, List.append_nil]; rfl
    | some id =>
      obtain ⟨s, hs⟩ := hb.symbolAt? hat
      have hlinked : (b.linkLoc (.ident x)).symbol? id = some s := (symbol?_linkLoc _ id).trans hs
      dsimp only [Option.bind_some]
      rw [run_bind_ok (run_kindOf (b := ⟨b.scopes, b.linkLoc (.ident x), _⟩) hlinked),
        Resolution.tupleOf?_of_symbol hs]
      cases s.kind <;> first | rfl | (rw [List.append_nil]; rfl)
  | .access id l f => by
    have hcolon : b.colonFaults (.access id l f) =
      match b.symbolAt? (.access id l f) with
      | none => []
      | some id =>
        match b.resolution.tupleOf? id with
        | none => [⟨f.position, .colonAccessOfNonTuple⟩]
        | some _ => [] := rfl
    rw [base, run_bind_ok (run_base hb l), run_bind_ok (run_accessOn hb _ id l f), Binding.linkLoc,
      Binding.locFaults, hcolon, ← List.append_assoc, ← List.append_assoc]
    cases b.symbolAt? (.access id l f) with
    | none => rw [List.append_nil]; rfl
    | some field =>
      dsimp only [Option.bind_some]
      cases b.resolution.tupleOf? field with
      | none => rfl
      | some definition => rw [List.append_nil]; rfl

theorem run_loc (hb : b.Sound) (l : Loc) : (loc l).run b = .ok ((), b.afterUse l) := by
  cases l with
  | ident x => exact run_ident x
  | access id l f =>
    rw [loc, run_bind_ok (run_base hb l), run_bind_ok (run_accessOn hb _ id l f), Binding.afterUse,
      Binding.linkLoc, Binding.locFaults, ← List.append_assoc, ← List.append_assoc]
    cases b.symbolAt? (.access id l f) <;> rfl

/-! ## Declarations of names -/

theorem run_kindFor (hb : b.Sound) (d : VarDecl) :
    (kindFor d).run b =
      .ok (b.typeKind? d.type, ⟨b.scopes, b.linkType d.type, b.diagnostics ++ b.typeFaults d⟩) := by
  rw [kindFor, Binding.typeFaults]
  cases d.type with
  | void => rfl
  | logical | integer =>
    rw [List.append_nil]
    rfl
  | tuple t =>
    dsimp only [Binding.typeKind?, Binding.linkType, Binding.definition?]
    rw [run_bind_ok (run_lookup t.name)]
    cases hlook : b.scopes.lookupChain t.name with
    | none => rfl
    | some id =>
      obtain ⟨s, hs, -⟩ := hb.lookupChain hlook
      dsimp only
      rw [run_bind_ok (run_kindOf hs), Option.filter_some, Resolution.fieldsOf?_of_symbol hs]
      cases s.kind with
      | tupleDef fields =>
        simp only [Option.isSome_some, if_true, List.append_nil]
        rfl
      | «variable» _ | function _ _ | tupleInstance _ _ => rfl

theorem run_newSymbol (hb : b.Sound) (t : ScopeTable) (d : VarDecl) :
    (newSymbol d (t.lookupLocal d.name.name).isSome).run b = .ok
      (match b.accepts? t d with
        | some kind =>
          (some b.resolution.nextSymbol, ⟨b.scopes, (b.linkType d.type).alloc ⟨d.name.name, kind⟩,
            b.diagnostics ++ b.declFaults t d⟩)
        | none => (none, ⟨b.scopes, b.linkType d.type, b.diagnostics ++ b.declFaults t d⟩)) := by
  rw [newSymbol, run_bind_ok (run_kindFor hb d), Binding.accepts?, Binding.declFaults]
  by_cases htaken : (t.lookupLocal d.name.name).isSome = true
  · simp only [htaken, if_true, ← List.append_assoc]
    rfl
  · simp only [htaken, Bool.false_eq_true, if_false, List.append_nil]
    cases b.typeKind? d.type with
    | none => rfl
    | some kind =>
      rw [← b.nextSymbol_linkType d.type]
      rfl

theorem not_taken_of_accepts {t : ScopeTable} {d : VarDecl} {kind : SymbolKind}
    (h : b.accepts? t d = some kind) : t.lookupLocal d.name.name = none := by
  rw [Binding.accepts?] at h
  split at h
  · cases h
  · next hfree => exact Option.not_isSome_iff_eq_none.1 hfree

theorem run_varDecl (hb : b.Sound) (d : VarDecl) :
    (varDecl d).run b =
      .ok ((b.accepts? b.scopes d).map fun _ => d.type.ty, b.afterVar d) := by
  rw [varDecl, run_bind_ok (run_isTaken d.name.name), run_bind_ok (run_newSymbol hb b.scopes d),
    Binding.afterVar, Binding.afterDecl, Binding.linkDecl, Binding.tableAfter]
  cases haccepts : b.accepts? b.scopes d with
  | none => rfl
  | some kind =>
    dsimp only
    rw [run_bind_ok (run_declare (not_taken_of_accepts haccepts) _ _ _)]
    rfl

theorem run_fieldDecl (hb : b.Sound) (t : ScopeTable) (d : VarDecl) :
    (fieldDecl t d).run b = .ok (b.tableAfter t d, b.afterDecl t b.scopes d) := by
  rw [fieldDecl, run_bind_ok (run_newSymbol hb t d), Binding.afterDecl, Binding.linkDecl,
    Binding.tableAfter]
  cases haccepts : b.accepts? t d with
  | none => rfl
  | some kind =>
    dsimp only
    rw [run_bind_ok (run_lift (ScopeTable.declare_eq_ok (not_taken_of_accepts haccepts)))]
    rfl

end Binder

namespace Binder

theorem run_fieldDecls : ∀ (ds : List VarDecl) {b : Binding} (t : ScopeTable), b.Sound →
    (fieldDecls t ds).run b = .ok (b.fieldsAfter t ds, b.afterFields t ds)
  | [], _, _, _ => rfl
  | d :: ds, b, t, hb => by
    rw [fieldDecls, run_bind_ok (run_fieldDecl hb t d), run_fieldDecls ds _ (hb.afterField t d)]
    rfl

theorem run_formals : ∀ (ds : List VarDecl) {b : Binding}, b.Sound →
    (formals ds).run b = .ok (b.formalTypes ds, ds.foldl Binding.afterVar b)
  | [], _, _ => rfl
  | d :: ds, b, hb => by
    rw [formals, run_bind_ok (run_varDecl hb d), run_bind_ok (run_formals ds (hb.afterVar d))]
    rfl

/-! ## Steps -/

variable {b : Binding}

theorem run_functionName (d : FunctionDecl) :
    (functionName d).run b = .ok
      (if (b.scopes.lookupLocal d.name.name).isSome then none else some b.resolution.nextSymbol,
        b.afterFunctionName d) := by
  rw [functionName, run_bind_ok (run_isTaken d.name.name), Binding.afterFunctionName]
  by_cases htaken : (b.scopes.lookupLocal d.name.name).isSome = true
  · simp only [htaken, if_true]
    rfl
  · simp only [htaken, Bool.false_eq_true, if_false]
    rw [run_bind_ok (run_alloc _),
      run_bind_ok (run_declare (Option.not_isSome_iff_eq_none.1 htaken) _ _ _)]
    rfl

/-- The symbol of a function is still there when its formals have been declared. -/
theorem symbol?_afterFormals {d : FunctionDecl} (h : (b.scopes.lookupLocal d.name.name).isSome ≠ true) :
    ∃ s, (d.formals.foldl Binding.afterVar (b.afterFunctionName d).inside).resolution.symbol?
      b.resolution.nextSymbol = some s := by
  have hnew : (b.afterFunctionName d).resolution.symbol? b.resolution.nextSymbol =
      some ⟨d.name.name, .function d.result.ty []⟩ := by
    rw [Binding.afterFunctionName, if_neg h]
    exact b.resolution.symbol?_alloc_self _
  obtain ⟨s, hs, -⟩ := (Binding.evolves_formals d.formals (b.afterFunctionName d).inside).symbols.name hnew
  exact ⟨s, hs⟩

theorem run_heading (hb : b.Sound) (d : FunctionDecl) : (heading d).run b = .ok ((), b.afterHeading d) := by
  have henter : enterScope.run (b.afterFunctionName d) = .ok ((), (b.afterFunctionName d).inside) := rfl
  rw [heading, run_bind_ok (run_functionName d), run_bind_ok henter,
    run_bind_ok (run_formals _ (hb.afterFunctionName d).inside), Binding.afterHeading]
  by_cases htaken : (b.scopes.lookupLocal d.name.name).isSome = true
  · simp only [htaken, if_true]
    rfl
  · obtain ⟨s, hs⟩ := symbol?_afterFormals htaken
    simp only [htaken, Bool.false_eq_true, if_false]
    exact run_setParams hs _

theorem run_tupleDecl (hb : b.Sound) (d : TupleDecl) :
    (tupleDecl d).run b = .ok ((), b.afterTuple d) := by
  rw [tupleDecl, run_bind_ok (run_isTaken d.name.name), Binding.afterTuple]
  by_cases htaken : (b.scopes.lookupLocal d.name.name).isSome = true
  · simp only [htaken, if_true]
    rw [run_bind_ok (run_report_multiple _), run_bind_ok (run_fieldDecls _ _ (hb.withMultiple d.name))]
    rfl
  · simp only [htaken, Bool.false_eq_true, if_false]
    have hfree : (b.afterFields .empty d.fields).scopes.lookupLocal d.name.name = none := by
      rw [scopes_afterFields]
      exact Option.not_isSome_iff_eq_none.1 htaken
    rw [run_bind_ok (run_fieldDecls _ _ hb), Bool.not_false, if_pos rfl, run_bind_ok (run_alloc _),
      run_bind_ok (run_declare hfree _ _ _)]
    rfl

/-- A step runs to the state that its function says. Only a scope that is not open
could not be closed. -/
theorem run_perform {s : Step} (hb : b.Sound)
    (hopen : ∀ scope, s = .exit scope → b.scopes.nested ≠ []) :
    (perform s).run b = .ok ((), b.after s) := by
  cases s with
  | use _ l => exact run_loc hb l
  | enter _ => rfl
  | exit scope =>
    have hexit : b.scopes.exit = .ok { b.scopes with nested := b.scopes.nested.tail } := by
      rw [ScopeTable.exit, ScopeTable.tryExit]
      cases hnested : b.scopes.nested with
      | nil => exact absurd hnested (hopen scope rfl)
      | cons _ _ => rfl
    rw [perform, exitScope, run_bind_ok run_get, run_bind_ok (run_lift hexit)]
    rfl
  | var _ d => exact run_bind_ok (run_varDecl hb d) _
  | heading _ d => exact run_heading hb d
  | tuple _ d => exact run_tupleDecl hb d

end Binder

/-! ## Programs -/

/-- Steps that lead from the scope of a sound state to another are performed. -/
theorem Walks.run {scope scope' : ScopePath} {steps : List Step} (hw : Walks scope steps scope') :
    ∀ {b : Binding}, b.Sound → b.scopes.nested.length = scope.length →
      (Binder.walk steps).run b = .ok ((), steps.foldl Binding.after b) := by
  induction hw with
  | nil => exact fun _ _ => rfl
  | @cons scope s scope' steps _ hs _ ih =>
    intro b hb hn
    have hopen : ∀ closed, s = .exit closed → b.scopes.nested ≠ [] := by
      intro closed heq hnil
      rw [heq] at hs
      rw [hnil] at hn
      cases hs
      cases hn
    rw [Binder.walk, Binder.run_bind_ok (Binder.run_perform hb hopen), List.foldl_cons]
    exact ih (hb.after s) (Binding.nested_after hs hn)

/-- The state in which the resolver ends. -/
def Program.resolved (p : Program) : Binding := p.steps.foldl Binding.after .start

/-- The resolver runs through the declarations of every program. -/
theorem Binder.run_decls (p : Program) : (Binder.decls p.decls).run .start = .ok ((), p.resolved) := by
  rw [Binder.decls_eq_walk 0]
  exact p.walks.run Binding.sound_start rfl

/-- Every program is resolved. -/
theorem resolveNames_eq (p : Program) :
    resolveNames p = .ok (p.resolved.resolution, p.resolved.diagnostics) := by
  rw [resolveNames, Binder.run_decls]

/-- Every program is analysed. -/
theorem analyze_eq (p : Program) :
    analyze p = .ok ⟨p.resolved.resolution,
      p.resolved.diagnostics ++ Typing.checkProgram p.resolved.resolution p⟩ := by
  rw [analyze, resolveNames_eq]

/-- Its scopes are closed again at the end, but for the outermost one. -/
theorem resolved_closed (p : Program) : p.resolved.scopes.nested = [] :=
  List.eq_nil_of_length_eq_zero (Binding.nested_walk p.walks rfl)

theorem resolved_sound (p : Program) : p.resolved.Sound := Binding.sound_start.walk p.steps

/-- Every link that the resolver makes leads to a symbol. -/
theorem resolveNames_linked (p : Program) :
    ∃ (r : LinkedResolution) (ds : Diagnostics), resolveNames p = .ok (r.toResolution, ds) :=
  ⟨⟨p.resolved.resolution, (resolved_sound p).resolution.links⟩, _, resolveNames_eq p⟩

/-- Whatever the tree, its numbers and its names, the resolver runs through it without an
error and ends in the outermost scope, all links lead to symbols that have been made, and
the types are checked with what it found. -/
theorem analyze_total (p : Program) :
    ∃ b : Binding, (Binder.decls p.decls).run .start = .ok ((), b) ∧ b.scopes.nested = [] ∧
      resolveNames p = .ok (b.resolution, b.diagnostics) ∧
      (∀ node id, b.resolution.links.find? node = some id → ∃ s, b.resolution.symbol? id = some s) ∧
      analyze p = .ok ⟨b.resolution, b.diagnostics ++ Typing.checkProgram b.resolution p⟩ := by
  refine ⟨p.resolved, Binder.run_decls p, resolved_closed p, resolveNames_eq p,
    (resolved_sound p).resolution.links, ?_⟩
  rw [analyze, resolveNames_eq]

end BaseLang
