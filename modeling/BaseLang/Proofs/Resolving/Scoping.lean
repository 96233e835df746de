import BaseLang.Proofs.Grammar.Numbering
import BaseLang.Proofs.Resolving.Ledger

/-
  The resolver implements lexical scoping.

    1. `Ledger.Follows.after` — every step treats its mentions as lexical scoping asks,
       if the scope that it opens is a new one;
    2. `Ledger.Follows.walk` — so does every list of steps in which no scope is opened
       twice, and `Program.follows` — so does every program;
    3. `resolveNames_lexical` — the theorem, for every program that was parsed.
-/

namespace BaseLang

/-! ## Scopes that are open -/

namespace ScopePath

theorem enclosing_eq (scope : ScopePath) : scope.enclosing = scope :: scope.enclosing.tail := by
  cases scope <;> rfl

theorem length_le_of_mem_enclosing {inner : ScopePath} : ∀ {scope : ScopePath},
    inner ∈ scope.enclosing → inner.length ≤ scope.length
  | [], h => Nat.le_of_eq (congrArg _ (List.mem_singleton.1 h))
  | _ :: _, h => by
    rcases List.mem_cons.1 h with rfl | h
    · exact Nat.le_refl _
    · exact Nat.le_succ_of_le (length_le_of_mem_enclosing h)

/-- A scope does not lie around itself. -/
theorem not_mem_enclosing (n : Nat × Bool) (scope : ScopePath) : n :: scope ∉ scope.enclosing :=
  fun h => Nat.not_succ_le_self _ (length_le_of_mem_enclosing h)

theorem not_mem_tail_enclosing (scope : ScopePath) : scope ∉ scope.enclosing.tail := by
  cases scope with
  | nil => exact List.not_mem_nil
  | cons n scope => exact not_mem_enclosing n scope

end ScopePath

namespace Ledger
variable {g : Ledger} {scope : ScopePath} {b : Binding}

theorem mem_after {d : Declaration} {id : SymbolId} {e : Declaration × SymbolId} (h : e ∈ g.after d id) :
    e ∈ g ∨ e.1.scope = d.scope := by
  rw [after] at h
  split at h
  · rcases List.mem_cons.1 h with rfl | h
    · exact .inr rfl
    · exact .inl h
  · exact .inl h

/-- Scopes in which an entry does not lie hold the same names without it. -/
theorem map_namesOf_cons {e : Declaration × SymbolId} {scopes : List ScopePath}
    (h : e.1.scope ∉ scopes) : scopes.map (namesOf (e :: g)) = scopes.map g.namesOf := by
  refine List.map_congr_left fun q hq => ?_
  have hne : e.1.scope ≠ q := fun heq => h (heq ▸ hq)
  rw [namesOf_cons, if_neg hne]

theorem map_namesOf_after {d : Declaration} {scopes : List ScopePath} (h : d.scope ∉ scopes)
    (id : SymbolId) : scopes.map (g.after d id).namesOf = scopes.map g.namesOf := by
  rw [after]
  split
  · exact map_namesOf_cons h
  · rfl

theorem Follows.innermost (h : g.Follows scope b) : b.scopes.innermost = g.namesOf scope := by
  have hhead : b.scopes.levels.head? = some b.scopes.innermost := by
    obtain ⟨outermost, nested⟩ := b.scopes
    cases nested <;> rfl
  rw [h.levels, scope.enclosing_eq] at hhead
  exact (Option.some.inj hhead).symm

/-- A name that is added to the innermost scope goes into the ledger. -/
theorem Follows.levels_extend (h : g.Follows scope b) {e : Declaration × SymbolId}
    (he : e.1.scope = scope) :
    (b.scopes.extend e.1.name.name e.2).levels = scope.enclosing.map (namesOf (e :: g)) := by
  have htail : b.scopes.levels.tail = scope.enclosing.tail.map g.namesOf := by
    rw [h.levels, List.map_tail]
  rw [ScopeTable.levels_extend, h.innermost, htail, scope.enclosing_eq, List.map_cons, List.tail_cons,
    map_namesOf_cons (he ▸ scope.not_mem_tail_enclosing), namesOf_cons, if_pos he]

/-- A new scope is open, in which nothing has been declared. -/
theorem Follows.inside (h : g.Follows scope b) {n : Nat × Bool} (hnew : ∀ e ∈ g, e.1.scope ≠ n :: scope) :
    g.Follows (n :: scope) b.inside := by
  refine ⟨h.kept, ?_⟩
  show [] :: b.scopes.levels = g.namesOf (n :: scope) :: scope.enclosing.map g.namesOf
  rw [namesOf_eq_nil hnew, h.levels]

theorem Follows.outside {n : Nat × Bool} (h : g.Follows (n :: scope) b) : g.Follows scope b.outside := by
  refine ⟨h.kept, ?_⟩
  have hlevels : b.scopes.levels = g.namesOf (n :: scope) :: scope.enclosing.map g.namesOf := h.levels
  show b.scopes.nested.tail ++ [b.scopes.outermost] = _
  have hopen : b.scopes.nested ≠ [] := by
    intro hnil
    rw [ScopeTable.levels, hnil, scope.enclosing_eq] at hlevels
    injection hlevels with _ hrest
    cases hrest
  rw [← List.tail_append_of_ne_nil hopen, ← ScopeTable.levels, hlevels, List.tail_cons]

end Ledger

/-! ## Uses -/

theorem Loc.root_mem_nodes (l : Loc) : l.root.id ∈ l.nodes := by
  induction l with
  | ident x => exact List.mem_cons_self
  | access id l f ih => exact List.mem_append_left _ ih

/-- The first name of a location is linked as the scopes say. -/
theorem Binding.linkOf_root (b : Binding) {l : Loc} (hfresh : b.resolution.Fresh l.nodes)
    (hnodup : l.nodes.Nodup) : (b.linkLoc l).linkOf l.root = b.scopes.lookupChain l.root.name := by
  induction l with
  | ident x =>
    rw [linkLoc, Loc.root]
    cases b.scopes.lookupChain x.name with
    | none => exact hfresh _ List.mem_cons_self
    | some id => exact Resolution.linkOf_link_self _ _ _
  | access id l f ih =>
    obtain ⟨hl, -, hdisjoint⟩ := List.nodup_append.1 hnodup
    have hin := ih hfresh.left hl
    have hne : l.root.id ≠ f.id :=
      hdisjoint _ l.root_mem_nodes _ (List.mem_cons_of_mem _ List.mem_cons_self)
    rw [linkLoc, Loc.root]
    cases b.symbolAt? (.access id l f) with
    | none => exact hin
    | some field => exact (Resolution.links_link _ _ _ hne).trans hin

/-- What is wrong with a location, but for its fields, is that its first name stands for
nothing. -/
theorem Ledger.Follows.locFaults {g : Ledger} {scope : ScopePath} {b : Binding} (h : g.Follows scope b)
    (l : Loc) :
    (b.locFaults l).filter Diagnostic.isOfScopes = (Mention.uses scope l.root).faults g.declarations := by
  induction l with
  | ident x =>
    rw [Binding.locFaults, Mention.faults, Loc.root, h.lookupChain, visible?_declarations]
    cases g.visible? scope x.name <;> rfl
  | access id l f ih =>
    have hcolon : (b.colonFaults l).filter Diagnostic.isOfScopes = [] := by
      rw [Binding.colonFaults]
      split
      · rfl
      · split <;> rfl
    have hfield : (b.fieldFaults l f).filter Diagnostic.isOfScopes = [] := by
      rw [Binding.fieldFaults]
      split
      · rfl
      · split <;> rfl
    rw [Binding.locFaults, List.filter_append, List.filter_append, hcolon, hfield, ih, List.append_nil,
      List.append_nil, Loc.root]

theorem Ledger.Follows.use {g : Ledger} {scope : ScopePath} {b : Binding} (h : g.Follows scope b) {l : Loc}
    (hfresh : b.resolution.Fresh l.nodes) (hnodup : l.nodes.Nodup) :
    Traces l.nodes [.uses scope l.root] g b g (b.afterUse l) ∧ g.Follows scope (b.afterUse l) := by
  have hkept := h.kept.evolves (b.evolves_use l) hfresh
  refine ⟨⟨hkept, rfl, ⟨?_, trivial⟩, ⟨b.locFaults l, rfl, ?_⟩, b.evolves_use l, ?_⟩, hkept, h.levels⟩
  · show (b.afterUse l).resolution.Links l.root (BaseLang.visible? g.declarations scope l.root.name)
    rw [visible?_declarations]
    refine hkept.links_of (fun e he => mem_of_visible? he) ?_
    exact (b.linkOf_root hfresh hnodup).trans (h.lookupChain _)
  · rw [h.locFaults, faultsOf, faultsOf, List.append_nil]
  · intro m hm i hi
    rw [List.mem_singleton.1 hm] at hi
    rw [List.mem_singleton.1 hi]
    exact l.root_mem_nodes

/-! ## Declarations -/

namespace Ledger.Follows
variable {g : Ledger} {scope : ScopePath} {b : Binding}

theorem var (h : g.Follows scope b) {d : VarDecl} (hfresh : b.resolution.Fresh d.nodes)
    (hnodup : d.nodes.Nodup) :
    Traces d.nodes [.declares (d.declaration scope scope)] g b
        (g.after (d.declaration scope scope) b.resolution.nextSymbol) (b.afterVar d) ∧
      (g.after (d.declaration scope scope) b.resolution.nextSymbol).Follows scope (b.afterVar d) := by
  have htraces := h.traces_decl h.innermost (b.tableAfter b.scopes d) hfresh hnodup
  refine ⟨htraces, htraces.kept, ?_⟩
  have haccepts := h.isSome_accepts? h.innermost d
  show (b.tableAfter b.scopes d).levels = _
  rw [Binding.tableAfter, after, ← haccepts]
  cases b.accepts? b.scopes d with
  | none => exact h.levels
  | some kind =>
    exact h.levels_extend (e := (d.declaration scope scope, b.resolution.nextSymbol)) rfl

/-- Formals or variables, one after the other. -/
theorem vars : ∀ (ds : List VarDecl) {g : Ledger} {b : Binding}, g.Follows scope b →
    b.resolution.Fresh (ds.flatMap VarDecl.nodes) → (ds.flatMap VarDecl.nodes).Nodup →
    ∃ g', Traces (ds.flatMap VarDecl.nodes) (ds.map fun d => .declares (d.declaration scope scope)) g b g'
        (ds.foldl Binding.afterVar b) ∧
      g'.Follows scope (ds.foldl Binding.afterVar b) ∧ ∀ e ∈ g', e ∈ g ∨ e.1.scope = scope
  | [], g, b, h, hfresh, _ => ⟨g, .nil h.kept (.refl b) rfl hfresh, h, fun _ he => .inl he⟩
  | d :: ds, g, b, h, hfresh, hnodup => by
    rw [List.flatMap_cons] at hfresh hnodup
    obtain ⟨hd, hds, -⟩ := List.nodup_append.1 hnodup
    obtain ⟨hfirst, hfollows⟩ := h.var hfresh.left hd
    have hlater := hfirst.evolves.fresh_right hfresh hnodup
    obtain ⟨g', hrest, hfollows', hmem⟩ := vars ds hfollows hlater hds
    refine ⟨g', hfirst.append hrest hfresh hnodup, hfollows', ?_⟩
    intro e he
    rcases hmem e he with he | he
    · exact mem_after he
    · exact .inr he

/-- Fields, one after the other, in a table that encloses nothing. -/
theorem fields {around : ScopePath} (hscope : scope ∉ around.enclosing) :
    ∀ (ds : List VarDecl) {g : Ledger} {b : Binding} {t : ScopeTable}, g.Follows around b →
    t.innermost = g.namesOf scope → b.resolution.Fresh (ds.flatMap VarDecl.nodes) →
    (ds.flatMap VarDecl.nodes).Nodup →
    ∃ g', Traces (ds.flatMap VarDecl.nodes) (ds.map fun d => .declares (d.declaration scope around)) g b g'
        (b.afterFields t ds) ∧
      g'.Follows around (b.afterFields t ds) ∧ ∀ e ∈ g', e ∈ g ∨ e.1.scope = scope
  | [], g, b, _, h, _, hfresh, _ => ⟨g, .nil h.kept (.refl b) rfl hfresh, h, fun _ he => .inl he⟩
  | d :: ds, g, b, t, h, ht, hfresh, hnodup => by
    rw [List.flatMap_cons] at hfresh hnodup
    obtain ⟨hd, hds, -⟩ := List.nodup_append.1 hnodup
    have hfirst := h.traces_decl ht b.scopes hfresh.left hd
    have hfollows : (g.after (d.declaration scope around) b.resolution.nextSymbol).Follows around
        (b.afterDecl t b.scopes d) :=
      ⟨hfirst.kept, h.levels.trans (map_namesOf_after hscope _).symm⟩
    have htable : (b.tableAfter t d).innermost =
        (g.after (d.declaration scope around) b.resolution.nextSymbol).namesOf scope := by
      rw [Binding.tableAfter, after, ← h.isSome_accepts? ht d]
      cases b.accepts? t d with
      | none => exact ht
      | some kind =>
        show (t.extend d.name.name b.resolution.nextSymbol).innermost = namesOf (_ :: g) scope
        rw [ScopeTable.extend, ScopeTable.innermost_setInnermost, ht, namesOf_cons]
        exact (if_pos rfl).symm
    have hlater := hfirst.evolves.fresh_right hfresh hnodup
    obtain ⟨g', hrest, hfollows', hmem⟩ := fields hscope ds hfollows htable hlater hds
    refine ⟨g', hfirst.append hrest hfresh hnodup, hfollows', ?_⟩
    intro e he
    rcases hmem e he with he | he
    · exact mem_after he
    · exact .inr he

/-- A name that is not taken, of a function or a tuple type. -/
theorem withSymbol (h : g.Follows scope b) {d : Declaration} {kind : SymbolKind}
    (hscope : d.scope = scope) (hrole : ∀ type, d.role ≠ .value type)
    (hfree : d.taken g.declarations = false) (hfits : Symbol.Fits ⟨d.name.name, kind⟩ d)
    (hfresh : b.resolution.Fresh [d.name.id]) :
    Traces [d.name.id] [.declares d] g b ((d, b.resolution.nextSymbol) :: g) (b.withSymbol d.name kind) ∧
      Follows ((d, b.resolution.nextSymbol) :: g) scope (b.withSymbol d.name kind) := by
  have htraces := Traces.withSymbol h.kept hrole hfree hfits hfresh
  exact ⟨htraces, htraces.kept, h.levels_extend (e := (d, b.resolution.nextSymbol)) hscope⟩

theorem functionName (h : g.Follows scope b) {d : FunctionDecl} (hfresh : b.resolution.Fresh [d.name.id]) :
    ∃ g', Traces [d.name.id] [.declares ⟨d.name, scope, scope, .function d.result⟩] g b g'
        (b.afterFunctionName d) ∧
      g'.Follows scope (b.afterFunctionName d) ∧ ∀ e ∈ g', e ∈ g ∨ e.1.scope = scope := by
  have htaken : (b.scopes.lookupLocal d.name.name).isSome =
      Declaration.taken g.declarations ⟨d.name, scope, scope, .function d.result⟩ :=
    isSome_lookupLocal (d := ⟨d.name, scope, scope, .function d.result⟩) h.innermost
  rw [Binding.afterFunctionName]
  split
  · next hin =>
    rw [htaken] at hin
    have htraces := Traces.withMultiple h.kept (fun _ hrole => by cases hrole) hin hfresh
    exact ⟨g, htraces, ⟨htraces.kept, h.levels⟩, fun _ he => .inl he⟩
  · next hout =>
    rw [htaken, Bool.not_eq_true] at hout
    obtain ⟨htraces, hfollows⟩ := h.withSymbol rfl (fun _ hrole => by cases hrole) hout ⟨rfl, [], rfl⟩ hfresh
    refine ⟨_, htraces, hfollows, fun e he => ?_⟩
    rcases List.mem_cons.1 he with rfl | he
    · exact .inr rfl
    · exact .inl he

/-! ## Steps -/

theorem heading {n : Nat × Bool} (h : g.Follows scope b) {d : FunctionDecl}
    (hfresh : b.resolution.Fresh (d.name.id :: d.formals.flatMap VarDecl.nodes))
    (hnodup : (d.name.id :: d.formals.flatMap VarDecl.nodes).Nodup)
    (hnew : ∀ e ∈ g, e.1.scope ≠ n :: scope) :
    ∃ g', Traces (d.name.id :: d.formals.flatMap VarDecl.nodes) (Step.heading (n :: scope) d).mentions g b g'
        (b.afterHeading d) ∧
      g'.Follows (n :: scope) (b.afterHeading d) ∧
      ∀ e ∈ g', e ∈ g ∨ e.1.scope = scope ∨ e.1.scope = n :: scope := by
  rw [← List.singleton_append] at hfresh hnodup
  obtain ⟨-, hformals, -⟩ := List.nodup_append.1 hnodup
  obtain ⟨g₁, hfirst, hfollows₁, hmem₁⟩ := h.functionName hfresh.left
  have hne : scope ≠ n :: scope := fun heq => Nat.succ_ne_self _ (congrArg List.length heq).symm
  have hnew₁ : ∀ e ∈ g₁, e.1.scope ≠ n :: scope := by
    intro e he
    rcases hmem₁ e he with he | he
    · exact hnew e he
    · rwa [he]
  have hopened := hfirst.then_free (Binding.evolves_inside _) rfl
  have hlater := hopened.evolves.fresh_right hfresh hnodup
  obtain ⟨g₂, hrest, hfollows₂, hmem₂⟩ := vars d.formals (hfollows₁.inside hnew₁) hlater hformals
  have htraces := hopened.append hrest hfresh hnodup
  have hmem : ∀ e ∈ g₂, e ∈ g ∨ e.1.scope = scope ∨ e.1.scope = n :: scope := by
    intro e he
    rcases hmem₂ e he with he | he
    · rcases hmem₁ e he with he | he
      · exact .inl he
      · exact .inr (.inl he)
    · exact .inr (.inr he)
  rw [Binding.afterHeading]
  split
  · exact ⟨g₂, htraces, hfollows₂, hmem⟩
  · have hparams := htraces.then_free (Binding.evolves_withParams _ b.resolution.nextSymbol
      ((b.afterFunctionName d).inside.formalTypes d.formals)) rfl
    exact ⟨g₂, hparams, ⟨hparams.kept, hfollows₂.levels⟩, hmem⟩

theorem tuple {n : Nat × Bool} (h : g.Follows scope b) {d : TupleDecl}
    (hfresh : b.resolution.Fresh (d.name.id :: d.fields.flatMap VarDecl.nodes))
    (hnodup : (d.name.id :: d.fields.flatMap VarDecl.nodes).Nodup)
    (hnew : ∀ e ∈ g, e.1.scope ≠ n :: scope) :
    ∃ g', Traces (d.name.id :: d.fields.flatMap VarDecl.nodes) (Step.tuple (n :: scope) d).mentions g b g'
        (b.afterTuple d) ∧
      g'.Follows scope (b.afterTuple d) ∧
      ∀ e ∈ g', e ∈ g ∨ e.1.scope = scope ∨ e.1.scope = n :: scope := by
  obtain ⟨hname, hfields⟩ := List.nodup_cons.1 hnodup
  have hleft : b.resolution.Fresh (d.fields.flatMap VarDecl.nodes) :=
    fun i hi => hfresh i (List.mem_cons_of_mem _ hi)
  have hempty : ScopeTable.empty.innermost = g.namesOf (n :: scope) := (namesOf_eq_nil hnew).symm
  have htable := ScopePath.not_mem_enclosing n scope
  rw [Binding.afterTuple]
  split
  · next hin =>
    have hopened : g.Follows scope (b.withMultiple d.name) := ⟨h.kept, h.levels⟩
    obtain ⟨g₁, htraces, hfollows, hmem⟩ := fields htable d.fields hopened hempty hleft hfields
    have htaken := isSome_lookupLocal (d := ⟨d.name, scope, scope, .tuple⟩) hfollows.innermost
    rw [Binder.scopes_afterFields] at htaken
    refine ⟨g₁, ?_, hfollows, fun e he => (hmem e he).imp_right .inr⟩
    refine htraces.after_withMultiple (d := ⟨d.name, scope, scope, .tuple⟩) (fun _ hrole => by cases hrole)
      (htaken.symm.trans hin) ?_
    exact (htraces.evolves.links _ hname).trans (hfresh _ List.mem_cons_self)
  · next hout =>
    obtain ⟨g₁, htraces, hfollows, hmem⟩ := fields htable d.fields h hempty hleft hfields
    have hfree := isSome_lookupLocal (d := ⟨d.name, scope, scope, .tuple⟩) hfollows.innermost
    rw [Binder.scopes_afterFields] at hfree
    -- the name comes before the fields in the text, and after them here
    have hswap : (d.fields.flatMap VarDecl.nodes ++ [d.name.id]).Perm
        (d.name.id :: d.fields.flatMap VarDecl.nodes) := List.perm_append_singleton _ _
    have hfresh' : b.resolution.Fresh (d.fields.flatMap VarDecl.nodes ++ [d.name.id]) :=
      fun i hi => hfresh i (hswap.mem_iff.1 hi)
    have hnodup' := hswap.nodup_iff.2 hnodup
    have hlast := htraces.evolves.fresh_right hfresh' hnodup'
    obtain ⟨hsymbol, hfollows'⟩ := hfollows.withSymbol (d := ⟨d.name, scope, scope, .tuple⟩) rfl
      (fun _ hrole => by cases hrole) (hfree.symm.trans (Bool.not_eq_true _ ▸ hout))
      ⟨rfl, b.fieldsAfter .empty d.fields, rfl⟩ hlast
    have hboth := (htraces.append hsymbol hfresh' hnodup').mono fun i => hswap.mem_iff.1
    refine ⟨_, hboth, hfollows', fun e he => ?_⟩
    rcases List.mem_cons.1 he with rfl | he
    · exact .inr (.inl rfl)
    · exact (hmem e he).imp_right .inr

/-- Every step treats its mentions as lexical scoping asks. -/
theorem after {scope' : ScopePath} {s : Step} (hs : s.Moves scope scope') (h : g.Follows scope b)
    (hfresh : b.resolution.Fresh s.nodes) (hnodup : s.nodes.Nodup)
    (hnew : ∀ q, s.opens? = some q → ∀ e ∈ g, e.1.scope ≠ q) :
    ∃ g', Traces s.nodes s.mentions g b g' (b.after s) ∧ g'.Follows scope' (b.after s) ∧
      ∀ e ∈ g', e ∈ g ∨ e.1.scope = scope ∨ s.opens? = some e.1.scope := by
  cases hs with
  | use =>
    obtain ⟨htraces, hfollows⟩ := h.use hfresh hnodup
    exact ⟨g, htraces, hfollows, fun _ he => .inl he⟩
  | enter =>
    exact ⟨g, .nil h.kept b.evolves_inside rfl hfresh, h.inside (hnew _ rfl), fun _ he => .inl he⟩
  | exit => exact ⟨g, .nil h.kept b.evolves_outside rfl hfresh, h.outside, fun _ he => .inl he⟩
  | var =>
    obtain ⟨htraces, hfollows⟩ := h.var hfresh hnodup
    exact ⟨_, htraces, hfollows, fun e he => (mem_after he).imp_right .inl⟩
  | heading =>
    obtain ⟨-, hname, -⟩ := List.nodup_append.1 hnodup
    obtain ⟨g', htraces, hfollows, hmem⟩ := h.heading hfresh.right hname (hnew _ rfl)
    refine ⟨g', htraces.mono fun _ => List.mem_append_right _, hfollows, fun e he => ?_⟩
    exact (hmem e he).imp_right (.imp_right fun hin => congrArg some hin.symm)
  | tuple =>
    obtain ⟨g', htraces, hfollows, hmem⟩ := h.tuple hfresh hnodup (hnew _ rfl)
    refine ⟨g', htraces, hfollows, fun e he => ?_⟩
    exact (hmem e he).imp_right (.imp_right fun hin => congrArg some hin.symm)

end Ledger.Follows

/-! ## Programs -/

/-- The scopes that a step leaves open were open before, or it has opened them. -/
theorem Step.Moves.mem_enclosing {s : Step} {scope scope' q : ScopePath} (hs : s.Moves scope scope')
    (hq : q ∈ scope'.enclosing) : q ∈ scope.enclosing ∨ s.opens? = some q := by
  cases hs with
  | use | var | tuple => exact .inl hq
  | exit => exact .inl (List.mem_cons_of_mem _ hq)
  | enter | heading =>
    rcases List.mem_cons.1 hq with rfl | hq
    · exact .inr rfl
    · exact .inl hq

theorem opened_cons (s : Step) (steps : List Step) :
    opened (s :: steps) = s.opens?.toList ++ opened steps := by
  rw [opened, List.filterMap_cons]
  cases s.opens? <;> rfl

/-- So does every list of steps, if no scope is opened twice. -/
theorem Ledger.Follows.walk {scope scope' : ScopePath} {steps : List Step} (hw : Walks scope steps scope') :
    ∀ {g : Ledger} {b : Binding}, g.Follows scope b → b.resolution.Fresh (steps.flatMap Step.nodes) →
    (steps.flatMap Step.nodes).Nodup → (opened steps).Nodup →
    (∀ q ∈ opened steps, q ∉ scope.enclosing ∧ ∀ e ∈ g, e.1.scope ≠ q) →
    ∃ g', Traces (steps.flatMap Step.nodes) (steps.flatMap Step.mentions) g b g'
        (steps.foldl Binding.after b) ∧
      g'.Follows scope' (steps.foldl Binding.after b) := by
  induction hw with
  | nil => exact fun h hfresh _ _ _ => ⟨_, .nil h.kept (.refl _) rfl hfresh, h⟩
  | @cons scope s scope' steps scope'' hs _ ih =>
    intro g b h hfresh hnodup hopened hnew
    rw [List.flatMap_cons] at hfresh hnodup
    rw [opened_cons] at hopened hnew
    obtain ⟨hnodes, hrest, -⟩ := List.nodup_append.1 hnodup
    obtain ⟨-, hopened', hapart⟩ := List.nodup_append.1 hopened
    obtain ⟨g₁, hfirst, hfollows, hmem⟩ := after hs h hfresh.left hnodes fun q hq =>
      (hnew q (List.mem_append_left _ (Option.mem_toList.2 hq))).2
    have hlater := hfirst.evolves.fresh_right hfresh hnodup
    -- what is opened later is not open now, and nothing has been declared in it
    have hnew' : ∀ q ∈ opened steps, q ∉ scope'.enclosing ∧ ∀ e ∈ g₁, e.1.scope ≠ q := by
      intro q hq
      obtain ⟨hout, hfree⟩ := hnew q (List.mem_append_right _ hq)
      have hother : s.opens? ≠ some q := fun hin => hapart q (Option.mem_toList.2 hin) q hq rfl
      refine ⟨fun hin => ?_, fun e he heq => ?_⟩
      · rcases hs.mem_enclosing hin with hin | hin
        · exact hout hin
        · exact hother hin
      · rcases hmem e he with he | he | he
        · exact hfree e he heq
        · rw [← heq, he, scope.enclosing_eq] at hout
          exact hout List.mem_cons_self
        · exact hother (heq ▸ he)
    obtain ⟨g₂, hlast, hfollows'⟩ := ih hfollows hlater hrest hopened' hnew'
    exact ⟨g₂, hfirst.append hlast hfresh hnodup, hfollows'⟩

/-- The resolver treats the mentions of a program as lexical scoping asks, and at the end
its outermost scope holds the names of the declarations that count there. -/
theorem Program.follows {p : Program} (hnodup : p.nodes.Nodup) :
    ∃ g : Ledger, Traces p.nodes p.mentions [] .start g p.resolved ∧ g.Follows [] p.resolved := by
  have hkept : Ledger.Kept [] Binding.start.resolution :=
    ⟨fun _ he => absurd he List.not_mem_nil, fun _ he => absurd he List.not_mem_nil, .nil⟩
  have hstart : Ledger.Follows [] [] .start := ⟨hkept, rfl⟩
  rw [← p.steps_nodes] at hnodup ⊢
  refine hstart.walk p.walks (fun _ _ => rfl) hnodup p.opened_nodup fun q hq => ⟨fun hin => ?_, fun _ he => ?_⟩
  · rw [List.mem_singleton.1 hin] at hq
    exact p.nil_not_mem_opened hq
  · cases he

theorem Program.traces {p : Program} (hnodup : p.nodes.Nodup) :
    ∃ g, Traces p.nodes p.mentions [] .start g p.resolved := by
  obtain ⟨g, htraces, -⟩ := follows hnodup
  exact ⟨g, htraces⟩

/-- Different entries of a ledger have different symbols. -/
theorem Ledger.Kept.nodup_links {g : Ledger} {r : Resolution} (h : g.Kept r) :
    (g.declarations.map fun d => r.linkOf d.name).Nodup := by
  have hlinks : g.declarations.map (fun d => r.linkOf d.name) = (g.map Prod.snd).map some := by
    rw [Ledger.declarations, List.map_map, List.map_map]
    exact List.map_congr_left fun e he => h.links e he
  rw [hlinks, List.Nodup, List.pairwise_map]
  exact h.distinct.imp fun hne heq => hne (Option.some.inj heq)

/-- Name resolution implements lexical scoping. Every parsed program is resolved. Each of
its mentions is treated as the declarations that count before it ask, no two of these
declarations have the same symbol, and what is reported, but for the fields after colons,
is what is wrong with the mentions, each fault as often. -/
theorem resolveNames_lexical {tokens : List Token} {p : Program} (hp : parse tokens = .ok p) :
    ∃ r ds, resolveNames p = .ok (r, ds) ∧
      (∀ pre m post, p.mentions = pre ++ m :: post → r.Respects (acceptedOf [] pre) m) ∧
      ((acceptedOf [] p.mentions).map fun d => r.linkOf d.name).Nodup ∧
      (ds.filter Diagnostic.isOfScopes).Perm (faultsOf [] p.mentions) := by
  obtain ⟨g, htraces⟩ := Program.traces (Grammar.parse_nodup hp)
  refine ⟨_, _, resolveNames_eq p, fun pre m post heq => ?_, ?_, ?_⟩
  · have hall := htraces.respects
    rw [heq] at hall
    exact hall.respects pre
  · have hnodup := htraces.kept.nodup_links
    rwa [htraces.accepted] at hnodup
  · obtain ⟨found, hfound, hperm⟩ := htraces.faults
    rwa [hfound]

/-- A function with a formal that hides a variable, and with a name that it uses outside
the scope of that name. -/
def hidingTokens : List Token :=
  [(.integerWord, "integer"), (.identifier, "x"), (.dot, "."),
    (.integerWord, "integer"), (.identifier, "f"),
    (.openCurly, "\x7b"), (.logicalWord, "logical"), (.identifier, "x"), (.closeCurly, "\x7d"),
    (.openBracket, "["),
    (.ifWord, "if"), (.identifier, "x"), (.openBracket, "["),
    (.integerWord, "integer"), (.identifier, "y"), (.dot, "."),
    (.identifier, "y"), (.plusPlus, "++"), (.dot, "."), (.closeBracket, "]"),
    (.returnWord, "return"), (.identifier, "y"), (.dot, "."), (.closeBracket, "]")].map
    fun (kind, text) => ⟨kind, text, ⟨.nowhere, .nowhere⟩⟩

def hidingProgram : Program :=
  ⟨[.var ⟨.integer, ⟨0, "x", .nowhere⟩⟩,
    .function ⟨.integer, ⟨1, "f", .nowhere⟩, [⟨.logical, ⟨2, "x", .nowhere⟩⟩],
      .mk []
        [.ifThen (.loc (.ident ⟨3, "x", .nowhere⟩))
          (.mk [⟨.integer, ⟨4, "y", .nowhere⟩⟩] [.increment (.ident ⟨5, "y", .nowhere⟩)]),
          .ret (some (.loc (.ident ⟨6, "y", .nowhere⟩))) .nowhere]⟩]⟩

theorem resolveNames_lexical_hiding :
    parse hidingTokens = .ok hidingProgram ∧
      ∃ r ds, resolveNames hidingProgram = .ok (r, ds) ∧
        r.Links ⟨3, "x", .nowhere⟩
          (some ⟨⟨2, "x", .nowhere⟩, [(1, false)], [(1, false)], .value .logical⟩) ∧
        r.Links ⟨6, "y", .nowhere⟩ none ∧
        (ds.filter Diagnostic.isOfScopes).Perm [⟨.nowhere, .undeclaredIdentifier⟩] := by
  have hp : parse hidingTokens = .ok hidingProgram := rfl
  obtain ⟨r, ds, hr, hrespects, -, hfaults⟩ := resolveNames_lexical hp
  refine ⟨hp, r, ds, hr, ?_, ?_, hfaults⟩
  · exact hrespects (hidingProgram.mentions.take 3) (.uses [(1, false)] ⟨3, "x", .nowhere⟩) _ rfl
  · exact hrespects (hidingProgram.mentions.take 6) (.uses [(1, false)] ⟨6, "y", .nowhere⟩) _ rfl

end BaseLang
