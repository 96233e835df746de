import BaseLang.Proofs.Resolving.Persistence
import BaseLang.Proofs.Resolving.Scoping
import BaseLang.Proofs.Resolving.Signatures
import BaseLang.Proofs.Typing.Suppression

/-
  The parameters of a function are its formals that count.

  The symbol of a function is made before its formals are declared, and gets their types
  before its body is resolved. From then on it stays what it is:

    1. `acceptedFormals` — the formals that count, read off the list of formals alone;
    2. `Binding.Holds.var` — what the declaration of one formal does to a scope of which the
       names are known; `Binding.Holds.formalTypes_eq` and `Binding.Holds.linked_formals`, by
       induction on the formals: those that count give the parameters and have symbols;
    3. `Binding.symbol?_heading` — the symbol that a heading leaves;
    4. `Typing.callFaults`, `Typing.checkExpr_call` — what a call is checked against;
    5. `signature_of_formals` — the main theorem.
-/

namespace BaseLang

/-! ## The formals that count -/

/-- A formal does not count if it is void, or if a formal before it that counts has its
name. -/
def VarDecl.isDropped (names : List String) (d : VarDecl) : Bool :=
  d.type.ty.isVoid || names.contains d.name.name

/-- The formals that count, where those before them that do have these names. -/
def acceptedFormals (names : List String) : List VarDecl → List VarDecl
  | [] => []
  | d :: ds =>
    if d.isDropped names then acceptedFormals names ds
    else d :: acceptedFormals (d.name.name :: names) ds

def FunctionDecl.params (d : FunctionDecl) : List Ty :=
  (acceptedFormals [] d.formals).map fun f => f.type.ty

/-- The symbol of a function, with the result that is written and the formals that count. -/
def FunctionDecl.symbol (d : FunctionDecl) : Symbol := ⟨d.name.name, .function d.result.ty d.params⟩

namespace Binding
variable {b : Binding} {names : List String}

/-- These are the names in the innermost scope. -/
def Holds (b : Binding) (names : List String) : Prop :=
  ∀ name, (b.scopes.lookupLocal name).isSome = names.contains name

theorem holds_inside (b : Binding) : b.inside.Holds [] := fun _ => rfl

theorem isSome_typeKind? {type : TypeName} (hsimple : type.idents = []) :
    (b.typeKind? type).isSome = !type.ty.isVoid := by
  cases type with
  | tuple x => cases hsimple
  | logical | integer | void => rfl

namespace Holds

/-- A declaration that does not count leaves the scope as it is, and one that counts adds its
name. -/
theorem var (h : b.Holds names) {d : VarDecl} (hsimple : d.type.idents = []) :
    if d.isDropped names then b.accepts? b.scopes d = none ∧ (b.afterVar d).Holds names
    else (∃ kind, b.accepts? b.scopes d = some kind) ∧ (b.afterVar d).Holds (d.name.name :: names) := by
  have haccepts : (b.accepts? b.scopes d).isSome = !d.isDropped names := by
    rw [accepts?, VarDecl.isDropped, Bool.not_or, ← isSome_typeKind? (b := b) hsimple, ← h d.name.name]
    cases (b.scopes.lookupLocal d.name.name).isSome <;> simp
  have hscopes : (b.afterVar d).scopes = b.tableAfter b.scopes d := rfl
  split
  · next hdropped =>
    have hnone : b.accepts? b.scopes d = none := by simpa [hdropped] using haccepts
    refine ⟨hnone, fun name => ?_⟩
    rw [hscopes, tableAfter, hnone]
    exact h name
  · next hcounts =>
    obtain ⟨kind, hkind⟩ := Option.isSome_iff_exists.1 (haccepts.trans (by simpa using hcounts))
    refine ⟨⟨kind, hkind⟩, fun name => ?_⟩
    have hfree : b.scopes.lookupLocal d.name.name = none := by
      cases hheld : b.scopes.lookupLocal d.name.name with
      | none => rfl
      | some id =>
        rw [accepts?, hheld] at hkind
        cases hkind
    have hdeclare : b.scopes.declare d.name.name b.resolution.nextSymbol = .ok _ :=
      ScopeTable.declare_eq_ok hfree
    rw [hscopes, tableAfter, hkind]
    dsimp only
    rw [ScopeTable.lookupLocal_declare hdeclare, List.contains_cons, ← h name]
    by_cases hname : name = d.name.name
    · simp [hname]
    · simp [hname]

/-- The types of the formals that count become the parameters. -/
theorem formalTypes_eq : ∀ {ds : List VarDecl} {b : Binding} {names : List String}, b.Holds names →
    (∀ d ∈ ds, d.type.idents = []) →
    b.formalTypes ds = (acceptedFormals names ds).map fun d => d.type.ty
  | [], _, _, _, _ => rfl
  | d :: ds, b, names, h, hsimple => by
    obtain ⟨hd, hds⟩ := List.forall_mem_cons.1 hsimple
    have hvar := h.var hd
    rw [formalTypes, acceptedFormals]
    split at hvar
    · next hdropped =>
      obtain ⟨hnone, hafter⟩ := hvar
      rw [if_pos hdropped, hnone]
      exact formalTypes_eq hafter hds
    · next hcounts =>
      obtain ⟨⟨kind, hkind⟩, hafter⟩ := hvar
      rw [if_neg hcounts, hkind, formalTypes_eq hafter hds]
      rfl

/-- The formals that count are those that get symbols. -/
theorem linked_formals : ∀ {ds : List VarDecl} {b : Binding} {names : List String}, b.Holds names →
    (∀ d ∈ ds, d.type.idents = []) → b.resolution.Fresh (ds.flatMap VarDecl.nodes) →
    (ds.flatMap VarDecl.nodes).Nodup →
    ds.filter (fun d => ((ds.foldl afterVar b).resolution.linkOf d.name).isSome) = acceptedFormals names ds
  | [], _, _, _, _, _, _ => rfl
  | d :: ds, b, names, h, hsimple, hfresh, hnodup => by
    obtain ⟨hd, hds⟩ := List.forall_mem_cons.1 hsimple
    rw [List.flatMap_cons] at hfresh hnodup
    obtain ⟨hnodes, hrest, hapart⟩ := List.nodup_append.1 hnodup
    have hlater := (b.evolves_var d).fresh_right hfresh hnodup
    -- the formals after this one do not touch its name
    have hname : (ds.foldl afterVar (b.afterVar d)).resolution.linkOf d.name =
        (b.linkDecl b.scopes d).linkOf d.name := by
      refine (evolves_formals ds (b.afterVar d)).links _ fun hin => ?_
      exact hapart _ (List.mem_append_right _ List.mem_cons_self) _ hin rfl
    have hvar := h.var hd
    rw [List.foldl_cons, List.filter_cons, hname, acceptedFormals]
    split at hvar
    · next hdropped =>
      obtain ⟨hnone, hafter⟩ := hvar
      rw [linkOf_linkDecl_eq_none hnone hfresh.left hnodes, if_pos hdropped]
      exact linked_formals hafter hds hlater hrest
    · next hcounts =>
      obtain ⟨⟨kind, hkind⟩, hafter⟩ := hvar
      rw [linkOf_linkDecl hkind, if_neg hcounts]
      exact congrArg (d :: ·) (linked_formals hafter hds hlater hrest)

end Holds

/-! ## Headings -/

variable {d : FunctionDecl} (hfree : b.scopes.lookupLocal d.name.name = none)

section
include hfree

/-- The symbol of a function whose name is new has the formals that count. -/
theorem symbol?_heading (hsimple : ∀ f ∈ d.formals, f.type.idents = []) :
    (b.afterHeading d).resolution.symbol? b.resolution.nextSymbol = some d.symbol := by
  have hmade : (b.afterFunctionName d).inside.resolution.symbol? b.resolution.nextSymbol =
      some ⟨d.name.name, .function d.result.ty []⟩ := by
    rw [afterFunctionName_of_free hfree]
    exact b.resolution.symbol?_alloc_self _
  have hkept := (keeps_formals d.formals (b.afterFunctionName d).inside).symbols _
    (Resolution.symbol?_lt hmade)
  have htypes := (b.afterFunctionName d).holds_inside.formalTypes_eq hsimple
  rw [afterHeading_of_free hfree, htypes]
  show (Resolution.setParams _ _ _).symbol? _ = _
  rw [Resolution.symbol?_setParams, if_pos rfl, hkept, hmade]
  rfl

/-- Its name stands for that symbol. -/
theorem linkOf_heading (hname : d.name.id ∉ d.formals.flatMap VarDecl.nodes) :
    (b.afterHeading d).resolution.linkOf d.name = some b.resolution.nextSymbol := by
  rw [afterHeading_of_free hfree]
  refine ((evolves_formals d.formals (b.afterFunctionName d).inside).links _ hname).trans ?_
  rw [afterFunctionName_of_free hfree]
  exact Resolution.linkOf_link_self _ _ _

end

/-- The formals of a heading that count are those that get symbols. -/
theorem linked_heading {scope : ScopePath} (hsimple : ∀ f ∈ d.formals, f.type.idents = [])
    (hfresh : b.resolution.Fresh (Step.heading scope d).nodes) (hnodup : (Step.heading scope d).nodes.Nodup) :
    d.formals.filter (fun f => ((b.afterHeading d).resolution.linkOf f.name).isSome) =
      acceptedFormals [] d.formals := by
  obtain ⟨-, hnodup, -⟩ := List.nodup_append.1 hnodup
  have hname := (b.evolves_functionName d).then_free (evolves_inside _)
  have hfresh : (b.afterFunctionName d).inside.resolution.Fresh (d.formals.flatMap VarDecl.nodes) :=
    hname.fresh_right hfresh.right hnodup
  have hlinked := (b.afterFunctionName d).holds_inside.linked_formals hsimple hfresh
    (List.nodup_cons.1 hnodup).2
  rw [afterHeading]
  split <;> exact hlinked

end Binding

/-! ## Programs -/

/-- The steps of a program up to the heading of the function that stands after these
declarations. -/
def stepsThrough (before : List Decl) (d : FunctionDecl) : List Step :=
  Decl.stepsOfAll 0 before ++ [.heading [(before.length, false)] d]

/-- At the top of a program no declaration that counts has the name of the function that
stands after these. -/
def FunctionDecl.IsNew (before : List Decl) (d : FunctionDecl) : Prop :=
  held? (acceptedOf [] (Program.mk before).mentions) d.name.name [] = none

/-- The outermost scope holds the names of the declarations that count there. -/
theorem Program.lookupLocal_resolved {p : Program} (hnodup : p.nodes.Nodup) (name : String) :
    (p.resolved.scopes.lookupLocal name).isSome = (held? (acceptedOf [] p.mentions) name []).isSome := by
  obtain ⟨g, htraces, hfollows⟩ := Program.follows hnodup
  have haccepted : acceptedOf [] p.mentions = g.declarations := htraces.accepted.symm
  rw [haccepted, Ledger.held?_declarations, ScopeTable.lookupLocal, hfollows.innermost,
    Ledger.lookup_namesOf, Option.isSome_map, Option.isSome_map]

/-- The steps after that: the body of the function, the end of its scope and the later
declarations. -/
def stepsFrom (before : List Decl) (d : FunctionDecl) (after : List Decl) : List Step :=
  d.body.bodySteps [(before.length, false)] ++
    .exit [(before.length, false)] :: Decl.stepsOfAll (before.length + 1) after

section Function
variable {before after : List Decl} {d : FunctionDecl}

theorem steps_of_function (before after : List Decl) (d : FunctionDecl) :
    (Program.mk (before ++ .function d :: after)).steps =
      stepsThrough before d ++ stepsFrom before d after := by
  rw [Program.steps, Decl.stepsOfAll_append, Nat.zero_add, Decl.stepsOfAll, Decl.steps, stepsThrough, stepsFrom]
  simp only [List.append_assoc, List.cons_append, List.nil_append]

/-- The state after the heading. -/
theorem foldl_stepsThrough (before : List Decl) (d : FunctionDecl) :
    (stepsThrough before d).foldl Binding.after .start = (Program.mk before).resolved.afterHeading d := by
  rw [stepsThrough, List.foldl_append]
  rfl

theorem resolved_of_function (before after : List Decl) (d : FunctionDecl) :
    (Program.mk (before ++ .function d :: after)).resolved =
      (stepsFrom before d after).foldl Binding.after ((Program.mk before).resolved.afterHeading d) := by
  rw [Program.resolved, steps_of_function, List.foldl_append, foldl_stepsThrough]

theorem nodes_of_function (before after : List Decl) (d : FunctionDecl) :
    (Program.mk (before ++ .function d :: after)).nodes = (Program.mk before).nodes ++
      ((Step.heading [(before.length, false)] d).nodes ++ (stepsFrom before d after).flatMap Step.nodes) := by
  rw [← Program.steps_nodes, steps_of_function, stepsThrough, List.flatMap_append, List.flatMap_append,
    List.flatMap_singleton, List.append_assoc, ← Program.steps_nodes]
  rfl

/-- Steps after the heading keep the symbol that it leaves. -/
theorem symbol?_walk {b : Binding} (hfree : b.scopes.lookupLocal d.name.name = none)
    (hsimple : ∀ f ∈ d.formals, f.type.idents = []) (steps : List Step) :
    (steps.foldl Binding.after (b.afterHeading d)).resolution.symbol? b.resolution.nextSymbol =
      some d.symbol := by
  have hsymbol := Binding.symbol?_heading hfree hsimple
  rw [← hsymbol]
  exact (Binding.keeps_walk steps _).symbols _ (Resolution.symbol?_lt hsymbol)

/-- The resolver runs from the beginning to any point after the heading. -/
theorem run_stepsThrough {more : List Step} (hmore : more <+: stepsFrom before d after) :
    (Binder.walk (stepsThrough before d ++ more)).run .start =
      .ok ((), more.foldl Binding.after ((Program.mk before).resolved.afterHeading d)) := by
  obtain ⟨others, hothers⟩ := hmore
  have hwalks := (Program.mk (before ++ .function d :: after)).walks
  rw [steps_of_function, ← hothers, ← List.append_assoc] at hwalks
  obtain ⟨_, hupto, -⟩ := hwalks.of_append
  rw [hupto.run Binding.sound_start rfl, List.foldl_append, foldl_stepsThrough]

end Function

namespace Typing
variable {r : Resolution}

/-! ## Calls -/

/-- What is wrong with an argument for a formal of this type. -/
def mismatch? (r : Resolution) (arg : Expr) (formal : Ty) : Option Diagnostic :=
  if (exprType r arg).same formal then none else some ⟨arg.position, .actualFormalMismatch⟩

/-- What is wrong with a call of a function with formals of these types, but for what is
wrong with its arguments. -/
def callFaults (r : Resolution) (formals : List Ty) (callee : Ident) (args : List Expr) : Diagnostics :=
  if args.any fun a => (exprType r a).isError then []
  else if args.length ≠ formals.length then [⟨callee.position, .wrongArgCount⟩]
  else (args.zip formals).filterMap fun pair => mismatch? r pair.1 pair.2

/-- The type of such a call, if the result of the function has this one. -/
def callType (r : Resolution) (result : Ty) (formals : List Ty) (callee : Ident) (args : List Expr) : Ty :=
  if (args.any fun a => (exprType r a).isError) || !(callFaults r formals callee args).isEmpty then .error
  else result

theorem argFaults_eq (args : List Expr) (formals : List Ty) :
    argFaults (args.map fun a => (a, exprType r a)) formals =
      (args.zip formals).filterMap fun pair => mismatch? r pair.1 pair.2 := by
  induction args generalizing formals with
  | nil =>
    rw [List.map_nil, argFaults]
    · rfl
    · intro _ _ _ _ _ hargs
      cases hargs
  | cons a args ih =>
    cases formals with
    | nil => rfl
    | cons formal formals =>
      rw [List.map_cons, argFaults, ih, List.zip_cons_cons, List.filterMap_cons, mismatch?]
      cases (exprType r a).same formal <;> rfl

/-- A call of a function is checked against its formals and has the type of its result. -/
theorem checkExpr_call {callee : Ident} {name : String} {result : Ty} {formals : List Ty}
    (h : r.symbolOf callee = some ⟨name, .function result formals⟩) (args : List Expr) :
    checkExpr r (.call callee args) = (callType r result formals callee args,
      args.flatMap (exprFaults r) ++ callFaults r formals callee args) := by
  have herror : ((args.map fun a => (a, exprType r a)).any fun o => o.2.isError) =
      args.any fun a => (exprType r a).isError := List.any_map
  rw [checkExpr_eq, ruling, call, h, Option.map_some]
  dsimp only
  rw [herror, List.length_map, argFaults_eq, callType, callFaults, Expr.operands]
  cases args.any fun a => (exprType r a).isError with
  | true => rfl
  | false =>
    rw [if_neg Bool.false_ne_true, if_neg Bool.false_ne_true, Bool.false_or]
    by_cases hcount : args.length ≠ formals.length
    · rw [if_pos hcount, if_pos hcount]
      rfl
    · rw [if_neg hcount, if_neg hcount]
      cases (args.zip formals).filterMap fun pair => mismatch? r pair.1 pair.2 <;> rfl

end Typing

/-! ## The main theorem -/

/-- The parameters of a function are its formals that count. The symbol of every function
whose name is new in its program has the result that is written and, in their order, the
types of the formals that are not void and have the name of no formal before them that
counts; these are the formals that have symbols. The resolver leaves the symbol so with the
heading, whatever it has done after that, and every call of it is checked against that
result and these formals. -/
theorem signature_of_formals {tokens : List Token} {p : Program} (hp : parse tokens = .ok p)
    {before after : List Decl} {d : FunctionDecl} (hdecls : p.decls = before ++ .function d :: after)
    (hnew : d.IsNew before) :
    ∃ r ds id, resolveNames p = .ok (r, ds) ∧ r.linkOf d.name = some id ∧ r.symbol? id = some d.symbol ∧
      d.formals.filter (fun f => (r.linkOf f.name).isSome) = acceptedFormals [] d.formals ∧
      p.steps = stepsThrough before d ++ stepsFrom before d after ∧
      (∀ more, more <+: stepsFrom before d after →
        ∃ b : Binding, (Binder.walk (stepsThrough before d ++ more)).run .start = .ok ((), b) ∧
          b.resolution.symbol? id = some d.symbol) ∧
      ∀ callee args, r.linkOf callee = some id →
        Typing.checkExpr r (.call callee args) = (Typing.callType r d.result.ty d.params callee args,
          args.flatMap (Typing.exprFaults r) ++ Typing.callFaults r d.params callee args) ∧
        ∀ result, Typing.checkStmt r result (.call callee args) =
          args.flatMap (Typing.exprFaults r) ++ Typing.callFaults r d.params callee args := by
  obtain ⟨decls⟩ := p
  change decls = _ at hdecls
  subst hdecls
  have hnodup := Grammar.parse_nodup hp
  have hsimple : ∀ f ∈ d.formals, f.type.idents = [] :=
    (Grammar.parse_simple hp d (List.mem_append_right _ List.mem_cons_self)).2
  rw [nodes_of_function] at hnodup
  obtain ⟨hbefore, hafter, -⟩ := List.nodup_append.1 hnodup
  obtain ⟨hheading, -, hapart⟩ := List.nodup_append.1 hafter
  have hfresh : (Program.mk before).resolved.resolution.Fresh (Step.heading [(before.length, false)] d).nodes :=
    ((Binding.evolves_walk (Program.mk before).steps .start).fresh_right (fun _ _ => rfl)
      ((Program.mk before).steps_nodes ▸ hnodup)).left
  have hfree : (Program.mk before).resolved.scopes.lookupLocal d.name.name = none := by
    have hlookup := Program.lookupLocal_resolved hbefore d.name.name
    rw [hnew] at hlookup
    simpa using hlookup
  -- what comes after the heading touches none of its nodes
  have hlater : ∀ x : Ident, x.id ∈ (Step.heading [(before.length, false)] d).nodes →
      (Program.mk (before ++ .function d :: after)).resolved.resolution.linkOf x =
        ((Program.mk before).resolved.afterHeading d).resolution.linkOf x := by
    intro x hx
    rw [resolved_of_function]
    exact (Binding.evolves_walk (stepsFrom before d after) _).links _ fun hin => hapart _ hx _ hin rfl
  have hsymbol : (Program.mk (before ++ .function d :: after)).resolved.resolution.symbol?
      (Program.mk before).resolved.resolution.nextSymbol = some d.symbol := by
    rw [resolved_of_function]
    exact symbol?_walk hfree hsimple _
  refine ⟨_, _, (Program.mk before).resolved.resolution.nextSymbol, resolveNames_eq _, ?_, hsymbol, ?_,
    steps_of_function before after d, fun more hmore => ?_, fun callee args hcallee => ?_⟩
  · obtain ⟨-, hnames, -⟩ := List.nodup_append.1 hheading
    rw [hlater d.name (List.mem_append_right _ List.mem_cons_self)]
    exact Binding.linkOf_heading hfree (List.nodup_cons.1 hnames).1
  · rw [← Binding.linked_heading hsimple hfresh hheading]
    refine List.filter_congr fun f hf => ?_
    have hname : f.name.id ∈ d.formals.flatMap VarDecl.nodes :=
      List.mem_flatMap.2 ⟨f, hf, List.mem_append_right _ List.mem_cons_self⟩
    rw [hlater f.name (List.mem_append_right _ (List.mem_cons_of_mem _ hname))]
  · exact ⟨_, run_stepsThrough hmore, symbol?_walk hfree hsimple more⟩
  · have hcall := Typing.checkExpr_call (Typing.symbolOf_eq_some_iff.2 ⟨_, hcallee, hsymbol⟩) args
    exact ⟨hcall, fun _ => congrArg Prod.snd hcall⟩

/-- After a void variable `f`, which does not count, a function `f` that calls itself with the
one formal that counts of its three, and after it another one. -/
def fewerFormalsTokens : List Token :=
  [(.voidWord, "void"), (.identifier, "f"), (.dot, "."),
    (.integerWord, "integer"), (.identifier, "f"),
    (.openCurly, "\x7b"), (.voidWord, "void"), (.identifier, "a"), (.comma, ","),
    (.logicalWord, "logical"), (.identifier, "a"), (.comma, ","),
    (.integerWord, "integer"), (.identifier, "a"), (.closeCurly, "\x7d"),
    (.openBracket, "["), (.identifier, "f"), (.openParen, "("), (.identifier, "a"), (.closeParen, ")"),
    (.dot, "."), (.closeBracket, "]"),
    (.logicalWord, "logical"), (.identifier, "f"), (.openCurly, "\x7b"), (.closeCurly, "\x7d"),
    (.openBracket, "["), (.closeBracket, "]")].map
    fun (kind, text) => ⟨kind, text, ⟨.nowhere, .nowhere⟩⟩

def fewerFormals : FunctionDecl :=
  ⟨.integer, ⟨1, "f", .nowhere⟩,
    [⟨.void, ⟨2, "a", .nowhere⟩⟩, ⟨.logical, ⟨3, "a", .nowhere⟩⟩, ⟨.integer, ⟨4, "a", .nowhere⟩⟩],
    .mk [] [.call ⟨5, "f", .nowhere⟩ [.loc (.ident ⟨6, "a", .nowhere⟩)]]⟩

def fewerFormalsProgram : Program :=
  ⟨[.var ⟨.void, ⟨0, "f", .nowhere⟩⟩, .function fewerFormals,
    .function ⟨.logical, ⟨7, "f", .nowhere⟩, [], .mk [] []⟩]⟩

theorem signature_of_fewer_formals :
    parse fewerFormalsTokens = .ok fewerFormalsProgram ∧
      fewerFormals.IsNew [.var ⟨.void, ⟨0, "f", .nowhere⟩⟩] ∧
      ∃ r ds id, resolveNames fewerFormalsProgram = .ok (r, ds) ∧
        r.symbol? id = some ⟨"f", .function .integer [.logical]⟩ ∧
        r.linkOf ⟨5, "f", .nowhere⟩ = some id ∧
        Typing.checkStmt r .integer (.call ⟨5, "f", .nowhere⟩ [.loc (.ident ⟨6, "a", .nowhere⟩)]) = [] := by
  have hp : parse fewerFormalsTokens = .ok fewerFormalsProgram := rfl
  have hnew : fewerFormals.IsNew [.var ⟨.void, ⟨0, "f", .nowhere⟩⟩] := rfl
  have hdecls : fewerFormalsProgram.decls = [.var ⟨.void, ⟨0, "f", .nowhere⟩⟩] ++ .function fewerFormals ::
      [.function ⟨.logical, ⟨7, "f", .nowhere⟩, [], .mk [] []⟩] := rfl
  obtain ⟨r, ds, id, hr, hlink, hsymbol, -, -, -, hcalls⟩ := signature_of_formals hp hdecls hnew
  refine ⟨hp, hnew, r, ds, id, hr, hsymbol, ?_⟩
  have hresolved : resolveNames fewerFormalsProgram = _ := resolveNames_eq fewerFormalsProgram
  obtain ⟨rfl, -⟩ := Prod.mk.inj (Except.ok.inj (hr.symm.trans hresolved))
  have hname : fewerFormalsProgram.resolved.resolution.linkOf fewerFormals.name = some 0 := by decide
  have hcallee : fewerFormalsProgram.resolved.resolution.linkOf ⟨5, "f", .nowhere⟩ = some 0 := by decide
  obtain rfl : id = 0 := Option.some.inj (hlink.symm.trans hname)
  exact ⟨hcallee, (hcalls _ _ hcallee).2 .integer⟩

end BaseLang
