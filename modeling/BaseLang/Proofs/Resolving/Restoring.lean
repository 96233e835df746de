import BaseLang.Proofs.Resolving.Runs

/-
  What the resolver leaves in the scopes.

  A part of the resolver may only put names into the innermost scope of the state it is
  run from, and what it opens it closes. This is said once, of computations, and carried
  through the recursion:

    1. `ScopeTable.Gains` — a table that differs from another in new names of its innermost
       scope only, all of them for symbols made in the meantime;
    2. `Binder.Adds` — a computation that has this effect, with the names it may add. It is
       closed under `>>=`, and `Adds.inScope` says that a scope hides it;
    3. `adds_expr`, `adds_stmt`, `adds_block` and the declarations — by the recursion of the
       resolver, from every state;
    4. `scopes_restored` — hence what each of them leaves behind, wherever it is run.
-/

namespace BaseLang

/-! ## Names that have been added -/

/-- The entry's symbol has been made between the two resolutions, and bears its name. -/
def Resolution.Makes (r r' : Resolution) (e : String × SymbolId) : Prop :=
  r.symbol? e.2 = none ∧ ∃ s, r'.symbol? e.2 = some s ∧ s.name = e.1

namespace Resolution.Makes
variable {r r' r'' : Resolution} {e : String × SymbolId}

theorem later (h : Makes r r' e) (hr : r'.Grows r'') : Makes r r'' e := by
  obtain ⟨hnew, s, hs, hname⟩ := h
  obtain ⟨s', hs', hname'⟩ := hr.name hs
  exact ⟨hnew, s', hs', hname'.trans hname⟩

theorem earlier (h : Makes r' r'' e) (hr : r.Grows r') : Makes r r'' e := by
  refine ⟨?_, h.2⟩
  cases hs : r.symbol? e.2 with
  | none => rfl
  | some s =>
    obtain ⟨s', hs', _⟩ := hr.name hs
    rw [h.1] at hs'
    cases hs'

theorem alloc (r : Resolution) (s : Symbol) : Makes r (r.alloc s) (s.name, r.nextSymbol) :=
  ⟨Array.getElem?_eq_none (Nat.le_refl _), s, r.symbol?_alloc_self s, rfl⟩

end Resolution.Makes

namespace ScopeTable
variable {r r' r'' : Resolution} {t t' t'' : ScopeTable} {added more : Scope}

/-- From the first table to the second these names have been added to the innermost scope,
which held none of them, and nothing else has changed. Their symbols have been made between
the two resolutions. -/
structure Gains (r r' : Resolution) (added : Scope) (t t' : ScopeTable) : Prop where
  table : t' = t.setInnermost (added ++ t.innermost)
  free : ∀ e ∈ added, t.lookupLocal e.1 = none
  nodup : (added.map Prod.fst).Nodup
  made : ∀ e ∈ added, r.Makes r' e

/-- A name is in the innermost scope afterwards if it was there or has been added. -/
theorem lookupLocal_setInnermost_append (t : ScopeTable) (added : Scope) (name : String) :
    (t.setInnermost (added ++ t.innermost)).lookupLocal name =
      (added.lookup name).or (t.lookupLocal name) := by
  rw [lookupLocal, innermost_setInnermost, List.lookup_append]
  rfl

namespace Gains

theorem refl (r r' : Resolution) (t : ScopeTable) : Gains r r' [] t t :=
  ⟨t.setInnermost_innermost.symm, (fun _ h => by cases h), .nil, (fun _ h => by cases h)⟩

theorem eq (h : Gains r r' [] t t') : t' = t := h.table.trans t.setInnermost_innermost

theorem one {e : String × SymbolId} (hfree : t.lookupLocal e.1 = none) (hmade : r.Makes r' e) :
    Gains r r' [e] t (t.extend e.1 e.2) where
  table := rfl
  free := by simpa using hfree
  nodup := by simp
  made := by simpa using hmade

/-- What is added later comes in front. -/
theorem trans (h : Gains r r' added t t') (h' : Gains r' r'' more t' t'') (hr : r.Grows r')
    (hr' : r'.Grows r'') : Gains r r'' (more ++ added) t t'' := by
  have hfree : ∀ e ∈ more, added.lookup e.1 = none ∧ t.lookupLocal e.1 = none := by
    intro e he
    have hlookup := h'.free e he
    rwa [h.table, lookupLocal_setInnermost_append, Option.or_eq_none_iff] at hlookup
  refine ⟨?_, ?_, ?_, ?_⟩
  · rw [h'.table, h.table, setInnermost_setInnermost, innermost_setInnermost, List.append_assoc]
  · intro e he
    rcases List.mem_append.1 he with he | he
    · exact (hfree e he).2
    · exact h.free e he
  · rw [List.map_append, List.nodup_append]
    refine ⟨h'.nodup, h.nodup, ?_⟩
    rintro _ hmore _ hadded rfl
    obtain ⟨e, he, hname⟩ := List.mem_map.1 hmore
    obtain ⟨e', he', hname'⟩ := List.mem_map.1 hadded
    have hapart := List.lookup_eq_none_iff.1 (hfree e he).1 e' he'
    rw [hname, hname'] at hapart
    exact bne_iff_ne.1 hapart rfl
  · intro e he
    rcases List.mem_append.1 he with he | he
    · exact (h'.made e he).earlier hr
    · exact (h.made e he).later hr'

end Gains

end ScopeTable

/-! ## Computations that add names -/

namespace Binder
variable {α β : Type} {b b' b'' : Binding}

/-- A computation in two parts that does not fail is one part after the other. -/
theorem of_run_bind {m : Binder α} {f : α → Binder β} {c : β}
    (h : (m >>= f).run b = .ok (c, b'')) :
    ∃ a b', m.run b = .ok (a, b') ∧ (f a).run b' = .ok (c, b'') := by
  rw [StateT.run_bind] at h
  cases hm : m.run b with
  | error e =>
    rw [hm] at h
    cases h
  | ok ab =>
    rw [hm] at h
    exact ⟨ab.1, ab.2, rfl, h⟩

/-- The scopes differ in names of the innermost one only, which are new there and among
these, and whose symbols have been made. -/
def AddsOnly (names : List String) (b b' : Binding) : Prop :=
  ∃ added, b.scopes.Gains b.resolution b'.resolution added b'.scopes ∧ ∀ e ∈ added, e.1 ∈ names

/-- Whenever the computation ends, it has added some of these names to the innermost
scope, and done nothing else to the scopes. -/
def Adds (names : List String) (m : Binder α) : Prop :=
  ∀ b a b', m.run b = .ok (a, b') → b.resolution.Grows b'.resolution ∧ AddsOnly names b b'

namespace Adds
variable {names names' : List String} {m : Binder α} {f : α → Binder β}

/-- A computation that adds nothing leaves the scopes as they are. -/
theorem scopes_eq {a : α} (h : Adds [] m) (hrun : m.run b = .ok (a, b')) : b'.scopes = b.scopes := by
  obtain ⟨_, added, hgains, hnames⟩ := h b a b' hrun
  -- no entry can have one of no names
  obtain rfl : added = [] := List.eq_nil_iff_forall_not_mem.2 fun e he => by cases hnames e he
  exact hgains.eq

theorem of_scopes_eq (h : ∀ b a b', m.run b = .ok (a, b') →
    b'.scopes = b.scopes ∧ b.resolution.Grows b'.resolution) : Adds names m := by
  intro b a b' hrun
  obtain ⟨hscopes, hgrows⟩ := h b a b' hrun
  exact ⟨hgrows, [], hscopes ▸ .refl _ _ _, fun e he => by cases he⟩

theorem mono (h : Adds names m) (hnames : ∀ x ∈ names, x ∈ names') : Adds names' m := by
  intro b a b' hrun
  obtain ⟨hgrows, added, hgains, hin⟩ := h b a b' hrun
  exact ⟨hgrows, added, hgains, fun e he => hnames _ (hin e he)⟩

theorem bind (h : Adds names m) (hf : ∀ a, Adds names' (f a)) : Adds (names ++ names') (m >>= f) := by
  intro b c b'' hrun
  obtain ⟨a, b', hm, hfa⟩ := of_run_bind hrun
  obtain ⟨hgrows, added, hgains, hin⟩ := h b a b' hm
  obtain ⟨hgrows', more, hgains', hin'⟩ := hf a b' c b'' hfa
  refine ⟨hgrows.trans hgrows', more ++ added, hgains.trans hgains' hgrows hgrows', fun e he => ?_⟩
  rcases List.mem_append.1 he with he | he
  · exact List.mem_append_right _ (hin' e he)
  · exact List.mem_append_left _ (hin e he)

/-- A part that adds nothing may come before. -/
theorem after (h : Adds [] m) (hf : ∀ a, Adds names (f a)) : Adds names (m >>= f) := h.bind hf

/-- A part that adds nothing may come behind. -/
theorem before (h : Adds names m) (hf : ∀ a, Adds [] (f a)) : Adds names (m >>= f) := by
  simpa using h.bind hf

end Adds

variable {names names' : List String}

theorem adds_pure (a : α) : Adds names (pure a : Binder α) := by
  refine .of_scopes_eq fun b _ b' hrun => ?_
  cases hrun
  exact ⟨rfl, .of_symbols_eq rfl⟩

theorem adds_throw (e : InternalError) : Adds names (throw e : Binder α) := by
  intro b a b' hrun
  cases hrun

theorem adds_get : Adds names (get : Binder Binding) := by
  refine .of_scopes_eq fun b _ b' hrun => ?_
  cases hrun
  exact ⟨rfl, .of_symbols_eq rfl⟩

/-- A step that changes the resolution and the diagnostics only. -/
theorem adds_modify {f : Binding → Binding}
    (h : ∀ b, (f b).scopes = b.scopes ∧ b.resolution.Grows (f b).resolution) :
    Adds names (modify f : Binder Unit) := by
  refine .of_scopes_eq fun b _ b' hrun => ?_
  cases hrun
  exact h b

/-- What is added inside a scope of its own is gone when the scope is closed. -/
theorem Adds.inScope {m : Binder Unit} (h : Adds names m) : Adds [] (inScope m) := by
  refine of_scopes_eq fun b _ b'' hrun => ?_
  rw [inScope_eq] at hrun
  obtain ⟨_, _, henter, hrest⟩ := of_run_bind hrun
  obtain ⟨_, b', hm, hexit⟩ := of_run_bind hrest
  cases henter
  obtain ⟨hgrows, added, hgains, -⟩ := h _ _ _ hm
  have hclosed : b'.scopes.exit = .ok b.scopes := by
    rw [hgains.table]
    exact ScopeTable.exit_setInnermost_enter _ _
  rw [exitScope, run_bind_ok run_get, run_bind_ok (run_lift hclosed)] at hexit
  cases hexit
  exact ⟨rfl, hgrows⟩

/-! ## Uses of names -/

theorem adds_report (p : Position) (k : DiagnosticKind) : Adds [] (report p k) :=
  adds_modify fun _ => ⟨rfl, .of_symbols_eq rfl⟩

theorem adds_link (x : Ident) (id : SymbolId) : Adds [] (link x id) :=
  adds_modify fun _ => ⟨rfl, .of_symbols_eq rfl⟩

theorem adds_lookup (name : String) : Adds [] (lookup name) := adds_get.after fun _ => adds_pure _

theorem adds_isTaken (name : String) : Adds [] (isTaken name) := adds_get.after fun _ => adds_pure _

theorem adds_readSymbol (id : SymbolId) : Adds [] (readSymbol id) := by
  refine adds_get.after fun b => ?_
  cases b.resolution.symbol? id with
  | none => exact adds_throw _
  | some s => exact adds_pure s

theorem adds_kindOf (id : SymbolId) : Adds [] (kindOf id) :=
  (adds_readSymbol id).after fun _ => adds_pure _

theorem adds_setParams (id : SymbolId) (params : List Ty) : Adds [] (setParams id params) :=
  (adds_readSymbol id).after fun _ => adds_modify fun b => ⟨rfl, .setParams b.resolution id params⟩

theorem adds_ident (x : Ident) : Adds [] (ident x) := by
  refine (adds_lookup x.name).after fun found => ?_
  cases found with
  | none => exact adds_report _ _
  | some id => exact adds_link x id

theorem adds_field (definition : SymbolId) (x : Ident) : Adds [] (field definition x) := by
  refine (adds_readSymbol definition).after fun s => ?_
  cases s.kind with
  | «variable» _ | function _ _ | tupleInstance _ _ => exact adds_throw _
  | tupleDef fields =>
    dsimp only
    cases fields.lookupChain x.name with
    | none => exact (adds_report _ _).after fun _ => adds_pure _
    | some id =>
      refine (adds_link x id).after fun _ => (adds_kindOf id).after fun kind => ?_
      cases kind <;> exact adds_pure _

theorem adds_baseOfIdent (x : Ident) : Adds [] (baseOfIdent x) := by
  refine (adds_ident x).after fun _ => adds_get.after fun b => ?_
  cases b.resolution.linkOf x with
  | none => exact adds_pure _
  | some id =>
    refine (adds_kindOf id).after fun kind => ?_
    cases kind with
    | tupleInstance _ _ => exact adds_pure _
    | «variable» _ | function _ _ | tupleDef _ => exact (adds_report _ _).after fun _ => adds_pure _

theorem adds_baseOfAccess (x : Ident) (outcome : AccessLink) : Adds [] (baseOfAccess x outcome) := by
  cases outcome with
  | bad => exact adds_pure _
  | resolved definition =>
    cases definition with
    | none => exact (adds_report _ _).after fun _ => adds_pure _
    | some _ => exact adds_pure _

theorem adds_accessOn (id : NodeId) (x : Ident) (definition : Option SymbolId) :
    Adds [] (accessOn id x definition) := by
  have hset (outcome : AccessLink) : Adds [] (do
      modify fun b => { b with resolution := b.resolution.setAccess id outcome }
      return outcome : Binder AccessLink) := by
    refine Adds.after (adds_modify fun b => ?_) fun _ => adds_pure _
    exact ⟨rfl, .of_symbols_eq rfl⟩
  cases definition with
  | none => exact (adds_pure _).after hset
  | some definition => exact (adds_field definition x).after hset

theorem adds_base : ∀ l : Loc, Adds [] (base l)
  | .ident x => adds_baseOfIdent x
  | .access id inner x =>
    (adds_base inner).after fun _ => (adds_accessOn id x _).after fun _ => adds_baseOfAccess x _

theorem adds_loc : ∀ l : Loc, Adds [] (loc l)
  | .ident x => adds_ident x
  | .access id inner x => (adds_base inner).after fun _ => (adds_accessOn id x _).after fun _ => adds_pure _

mutual

theorem adds_expr : ∀ e : Expr, Adds [] (expr e)
  | .logical _ _ | .int _ _ | .string _ _ => adds_pure _
  | .loc l => adds_loc l
  | .assign l v => (adds_loc l).after fun _ => adds_expr v
  | .call f args => (adds_ident f).after fun _ => adds_exprs args
  | .unary _ v => adds_expr v
  | .binary _ v w => (adds_expr v).after fun _ => adds_expr w

theorem adds_exprs : ∀ es : List Expr, Adds [] (exprs es)
  | [] => adds_pure _
  | e :: es => (adds_expr e).after fun _ => adds_exprs es

end

/-! ## Declarations -/

theorem adds_alloc (s : Symbol) : Adds [] (alloc s) := by
  refine .of_scopes_eq fun b _ b' hrun => ?_
  cases hrun
  exact ⟨rfl, .alloc b.resolution s⟩

theorem adds_lift (x : Except InternalError α) : Adds [] (liftM x : Binder α) := by
  cases x with
  | error e => exact adds_throw e
  | ok a => exact adds_pure a

theorem made_alloc {s : Symbol} {id : SymbolId} (hrun : (alloc s).run b = .ok (id, b')) :
    b.resolution.Makes b'.resolution (s.name, id) := by
  cases hrun
  exact .alloc b.resolution s

theorem adds_kindFor (d : VarDecl) : Adds [] (kindFor d) := by
  rw [kindFor]
  cases d.type with
  | void => exact (adds_report _ _).after fun _ => adds_pure _
  | logical | integer => exact adds_pure _
  | tuple t =>
    refine (adds_lookup t.name).after fun found => ?_
    cases found with
    | none => exact (adds_report _ _).after fun _ => adds_pure _
    | some definition =>
      refine (adds_kindOf definition).after fun kind => ?_
      cases kind with
      | tupleDef _ => exact (adds_link t definition).after fun _ => adds_pure _
      | «variable» _ | function _ _ | tupleInstance _ _ =>
        exact (adds_report _ _).after fun _ => adds_pure _

theorem adds_newSymbol (d : VarDecl) (taken : Bool) : Adds [] (newSymbol d taken) := by
  refine (adds_kindFor d).after fun kind => ?_
  cases taken with
  | true => exact (adds_report _ _).after fun _ => adds_pure _
  | false =>
    cases kind with
    | none => exact adds_pure _
    | some kind => exact (adds_alloc _).after fun _ => adds_pure _

theorem made_newSymbol {d : VarDecl} {taken : Bool} {id : SymbolId}
    (hrun : (newSymbol d taken).run b = .ok (some id, b')) :
    b.resolution.Makes b'.resolution (d.name.name, id) := by
  obtain ⟨kind, b₁, hkind, hrest⟩ := of_run_bind hrun
  have hgrows := (adds_kindFor d b kind b₁ hkind).1
  cases taken with
  | true => cases hrest
  | false =>
    cases kind with
    | none => cases hrest
    | some kind =>
      obtain ⟨id', b₂, halloc, hreturn⟩ := of_run_bind (m := alloc ⟨d.name.name, kind⟩) hrest
      cases hreturn
      exact (made_alloc halloc).earlier hgrows

/-- A name that is declared was free. -/
theorem of_run_declare {name : String} {id : SymbolId} {u : Unit}
    (hrun : (declare name id).run b = .ok (u, b')) :
    b.scopes.lookupLocal name = none ∧ b' = { b with scopes := b.scopes.extend name id } := by
  obtain ⟨_, _, hget, hrest⟩ := of_run_bind hrun
  cases hget
  cases hdeclare : b.scopes.declare name id with
  | error e =>
    rw [hdeclare] at hrest
    cases hrest
  | ok t =>
    rw [hdeclare] at hrest
    cases hrest
    obtain ⟨hfree, rfl⟩ := ScopeTable.declare_eq_ok_iff.1 hdeclare
    exact ⟨hfree, rfl⟩

/-- A computation that adds nothing but makes a symbol, which is then declared. That its
name was free follows from the declaration, which has not failed. -/
theorem Adds.declaring {m : Binder α} {f : Unit → Binder β} {name : String} {id : SymbolId} {a : α}
    {c : β} (h : Adds [] m) (hm : m.run b = .ok (a, b'))
    (hmade : b.resolution.Makes b'.resolution (name, id))
    (hrun : (declare name id >>= f).run b' = .ok (c, b'')) (hf : ∀ u, Adds [] (f u)) :
    b.resolution.Grows b''.resolution ∧ AddsOnly [name] b b'' := by
  obtain ⟨u, b₁, hdeclare, hrest⟩ := of_run_bind hrun
  obtain ⟨hfree, rfl⟩ := of_run_declare hdeclare
  have hgrows := (h b a b' hm).1
  have hgrows' := (hf u _ c b'' hrest).1
  rw [h.scopes_eq hm] at hfree
  refine ⟨hgrows.trans hgrows', [(name, id)], ?_, by simp⟩
  rw [(hf u).scopes_eq hrest, h.scopes_eq hm]
  exact .one hfree (hmade.later hgrows')

theorem adds_varDecl (d : VarDecl) : Adds [d.name.name] (varDecl d) := by
  refine (adds_isTaken d.name.name).after fun taken => ?_
  intro b c b'' hrun
  obtain ⟨symbol, b', hnew, hrest⟩ := of_run_bind hrun
  cases symbol with
  | none =>
    cases hrest
    exact (adds_newSymbol d taken).mono (fun _ h => by cases h) b none _ hnew
  | some id =>
    exact (adds_newSymbol d taken).declaring hnew (made_newSymbol hnew) hrest fun _ =>
      (adds_link d.name id).after fun _ => adds_pure _

theorem adds_varDecls : ∀ ds : List VarDecl, Adds (ds.map (·.name.name)) (varDecls ds)
  | [] => adds_pure _
  | d :: ds => (adds_varDecl d).bind fun _ => adds_varDecls ds

theorem adds_formals : ∀ ds : List VarDecl, Adds (ds.map (·.name.name)) (formals ds)
  | [] => adds_pure _
  | d :: ds => (adds_varDecl d).bind fun _ => (adds_formals ds).before fun _ => adds_pure _

theorem adds_fieldDecl (t : ScopeTable) (d : VarDecl) : Adds [] (fieldDecl t d) := by
  refine (adds_newSymbol d _).after fun symbol => ?_
  cases symbol with
  | none => exact adds_pure t
  | some id => exact (adds_lift _).after fun _ => (adds_link d.name id).after fun _ => adds_pure _

theorem adds_fieldDecls : ∀ (ds : List VarDecl) (t : ScopeTable), Adds [] (fieldDecls t ds)
  | [], t => adds_pure t
  | d :: ds, t => (adds_fieldDecl t d).after fun t' => adds_fieldDecls ds t'

/-- A field goes into the table of its tuple type. -/
theorem gains_fieldDecl {t t' : ScopeTable} {d : VarDecl} (hrun : (fieldDecl t d).run b = .ok (t', b')) :
    ∃ added, t.Gains b.resolution b'.resolution added t' ∧ ∀ e ∈ added, e.1 = d.name.name := by
  obtain ⟨symbol, b₁, hnew, hrest⟩ := of_run_bind hrun
  cases symbol with
  | none =>
    cases hrest
    exact ⟨[], .refl _ _ _, fun e he => by cases he⟩
  | some id =>
    obtain ⟨u, b₂, hdeclare, hrest⟩ := of_run_bind hrest
    cases ht : t.declare d.name.name id with
    | error e =>
      rw [ht] at hdeclare
      cases hdeclare
    | ok u' =>
      rw [ht] at hdeclare
      cases hdeclare
      cases hrest
      obtain ⟨hfree, rfl⟩ := ScopeTable.declare_eq_ok_iff.1 ht
      exact ⟨[(d.name.name, id)], .one hfree ((made_newSymbol hnew).later (.of_symbols_eq rfl)), by simp⟩

/-! ## Statements and blocks -/

mutual

theorem adds_stmt : ∀ s : Stmt, Adds [] (stmt s)
  | .assign l v => (adds_loc l).after fun _ => adds_expr v
  | .increment l | .decrement l | .read l => adds_loc l
  | .ifThen c body | .whileDo c body => (adds_expr c).after fun _ => (adds_block body).inScope
  | .ifElse c body body' =>
    (adds_expr c).after fun _ => (adds_block body).inScope.after fun _ => (adds_block body').inScope
  | .write v => adds_expr v
  | .call f args => (adds_ident f).after fun _ => adds_exprs args
  | .ret (some v) _ => adds_expr v
  | .ret none _ => adds_pure _

theorem adds_block : ∀ body : Block, Adds (body.decls.map (·.name.name)) (block body)
  | .mk ds ss => (adds_varDecls ds).before fun _ => adds_stmts ss

theorem adds_stmts : ∀ ss : List Stmt, Adds [] (stmts ss)
  | [] => adds_pure _
  | s :: ss => (adds_stmt s).after fun _ => adds_stmts ss

end

/-- The formals and the body of a function share a scope that is closed again. -/
theorem adds_inside (d : FunctionDecl) (symbol : Option SymbolId) : Adds [] (inScope do
    let params ← formals d.formals
    match symbol with
    | some id => setParams id params
    | none => pure ()
    block d.body) := by
  refine ((adds_formals d.formals).bind fun params =>
    (?_ : Adds (d.body.decls.map (·.name.name)) _)).inScope
  cases symbol with
  | none => exact adds_block d.body
  | some id => exact (adds_setParams id params).after fun _ => adds_block d.body

theorem adds_functionDecl (d : FunctionDecl) : Adds [d.name.name] (functionDecl d) := by
  refine (adds_isTaken d.name.name).after fun taken => ?_
  cases taken with
  | true =>
    refine Adds.mono ?_ (List.nil_subset _)
    exact (adds_report _ _).after fun _ => (adds_pure none).after (adds_inside d)
  | false =>
    intro b c b'' hrun
    obtain ⟨id, b', halloc, hrest⟩ :=
      of_run_bind (m := alloc ⟨d.name.name, .function d.result.ty []⟩) hrun
    exact (adds_alloc _).declaring halloc (made_alloc halloc) hrest fun _ =>
      (adds_link d.name id).after fun _ => (adds_pure (some id)).after (adds_inside d)

theorem adds_tupleDecl (d : TupleDecl) : Adds [d.name.name] (tupleDecl d) := by
  refine (adds_isTaken d.name.name).after fun taken => ?_
  cases taken with
  | true => exact (adds_report _ _).after fun _ => (adds_fieldDecls d.fields _).after fun _ => adds_pure _
  | false =>
    refine Adds.after (adds_fieldDecls d.fields _) fun fields => ?_
    intro b c b'' hrun
    obtain ⟨id, b', halloc, hrest⟩ := of_run_bind (m := alloc ⟨d.name.name, .tupleDef fields⟩) hrun
    exact (adds_alloc _).declaring halloc (made_alloc halloc) hrest fun _ => adds_link d.name id

/-! ## What is left behind -/

/-- What a computation leaves behind when it is run from a state: if it ends this holds,
and if the state is sound it ends, in a sound state again. An error ends the resolution of
the program, so there are no scopes after it. -/
structure Ensures (m : Binder α) (b : Binding) (post : α → Binding → Prop) : Prop where
  leaves : ∀ a b', m.run b = .ok (a, b') → post a b'
  ends : b.Sound → ∃ a b', m.run b = .ok (a, b') ∧ b'.Sound

/-- A list of steps that comes back to the scope in which it begins is performed. -/
theorem ends_of_walk {m : Binder Unit} (steps : ScopePath → List Step)
    (hm : ∀ scope, m = walk (steps scope)) (hw : ∀ scope, Walks scope (steps scope) scope)
    (hb : b.Sound) : ∃ a b', m.run b = .ok (a, b') ∧ b'.Sound := by
  have hrun := (hw (List.replicate b.scopes.nested.length (0, false))).run hb List.length_replicate.symm
  exact ⟨(), _, hm _ ▸ hrun, hb.walk _⟩

theorem ends_functionDecl (hb : b.Sound) (d : FunctionDecl) :
    ∃ a b', (functionDecl d).run b = .ok (a, b') ∧ b'.Sound := by
  -- the number of the declaration is of no account here
  let inner (scope : ScopePath) : ScopePath := (0, false) :: scope
  refine ends_of_walk (fun scope =>
    .heading (inner scope) d :: (d.body.bodySteps (inner scope) ++ [.exit (inner scope)])) ?_ ?_ hb
  · intro scope
    rw [functionDecl_eq, walk, walk_append, walk_one, ← body_eq_walk]
    rfl
  · exact fun scope => .cons .heading ((d.body.walks_body _).append (.one .exit))

end Binder

open Binder

/-- Expressions, statements and blocks with a scope of their own leave the scopes exactly
as they find them, in whatever state they are resolved. A block resolved in the open scope,
a declaration, a function and a tuple type change the innermost scope alone, and only by
names that it does not hold yet, each for a symbol made on the way: a block by names of its
declarations, the others by their own. The declaration of a field does this to the table
of its tuple type and leaves the scopes as they are.

The states are the resolver's own, nothing else makes any. All to which it comes are sound
(`Binding.Sound.walk`), and from a sound state none of these computations fails. Nothing is
said of the scopes after one that fails, since it has no state in the end. -/
theorem scopes_restored (b : Binding) :
    (∀ e, Ensures (expr e) b fun _ b' => b'.scopes = b.scopes) ∧
    (∀ s, Ensures (stmt s) b fun _ b' => b'.scopes = b.scopes) ∧
    (∀ body, Ensures (inScope (block body)) b fun _ b' => b'.scopes = b.scopes) ∧
    (∀ body, Ensures (block body) b fun _ b' => AddsOnly (body.decls.map (·.name.name)) b b') ∧
    (∀ d, Ensures (varDecl d) b fun _ b' => AddsOnly [d.name.name] b b') ∧
    (∀ t d, Ensures (fieldDecl t d) b fun t' b' => b'.scopes = b.scopes ∧
      ∃ added, t.Gains b.resolution b'.resolution added t' ∧ ∀ e ∈ added, e.1 = d.name.name) ∧
    (∀ d, Ensures (functionDecl d) b fun _ b' => AddsOnly [d.name.name] b b') ∧
    (∀ d, Ensures (tupleDecl d) b fun _ b' => AddsOnly [d.name.name] b b') := by
  refine ⟨fun e => ⟨fun u b' hrun => (adds_expr e).scopes_eq hrun, ?_⟩,
    fun s => ⟨fun u b' hrun => (adds_stmt s).scopes_eq hrun, ?_⟩,
    fun body => ⟨fun u b' hrun => (adds_block body).inScope.scopes_eq hrun, ?_⟩,
    fun body => ⟨fun u b' hrun => (adds_block body b u b' hrun).2, ?_⟩,
    fun d => ⟨fun type b' hrun => (adds_varDecl d b type b' hrun).2, ?_⟩,
    fun t d => ⟨fun t' b' hrun => ⟨(adds_fieldDecl t d).scopes_eq hrun, gains_fieldDecl hrun⟩, ?_⟩,
    fun d => ⟨fun u b' hrun => (adds_functionDecl d b u b' hrun).2, ?_⟩,
    fun d => ⟨fun u b' hrun => (adds_tupleDecl d b u b' hrun).2, ?_⟩⟩
  · exact ends_of_walk _ (expr_eq_walk · e) e.walks
  · exact ends_of_walk _ (stmt_eq_walk · 0 s) (Stmt.walks · 0 s)
  · exact ends_of_walk _ (fun scope => block_eq_walk ((0, false) :: scope) body)
      (Block.walks (0, false) · body)
  · exact ends_of_walk _ (body_eq_walk · body) (Block.walks_body · body)
  · exact fun hb => ⟨_, _, run_varDecl hb d, hb.afterVar d⟩
  · exact fun hb => ⟨_, _, run_fieldDecl hb t d, hb.afterField t d⟩
  · exact fun hb => ends_functionDecl hb d
  · exact fun hb => ⟨_, _, run_tupleDecl hb d, hb.afterTuple d⟩

/-- A branch that declares and reads a variable of its own. -/
def hidingBranch : Stmt :=
  .ifThen (.logical true ⟨2, 6⟩) (.mk [⟨.integer, ⟨1, "x", ⟨2, 21⟩⟩⟩] [.read (.ident ⟨2, "x", ⟨2, 30⟩⟩)])

/-- After the branch its name stands for the variable around it again. -/
theorem scopes_restored_hiding :
    let b := Binding.start.afterVar ⟨.logical, ⟨0, "x", ⟨1, 9⟩⟩⟩
    b.Sound ∧ ∃ u b', (stmt hidingBranch).run b = .ok (u, b') ∧ b'.scopes = b.scopes ∧
      b'.scopes.lookupChain "x" = some 0 := by
  intro b
  have hb : b.Sound := Binding.sound_start.afterVar _
  obtain ⟨-, hstmt, -⟩ := scopes_restored b
  obtain ⟨u, b', hrun, -⟩ := (hstmt hidingBranch).ends hb
  have hscopes : b'.scopes = b.scopes := (hstmt hidingBranch).leaves u b' hrun
  exact ⟨hb, u, b', hrun, hscopes, by rw [hscopes]; rfl⟩

end BaseLang
