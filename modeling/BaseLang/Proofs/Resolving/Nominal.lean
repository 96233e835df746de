import BaseLang.Proofs.Resolving.Occurrences
import BaseLang.Proofs.Resolving.Runs
import Mathlib.Data.List.Nodup

/-
  Tuple types that have one name are one type.

  Types carry the name of a tuple type, while the resolver works with the number of its
  symbol. The two agree because tuple types are declared in the outermost scope only, in
  which a name is declared at most once; what hides the name further inside is no type.

    1. `Binding.Nominal` — the outermost scope holds different names, and all tuple types
       are among them;
    2. `Nominal.after`, `Nominal.walk` — every step of a program keeps this, and so does every
       run;
    3. `tuple_types_nominal` — the theorem, for every program.
-/

namespace BaseLang

/-! ## The outermost scope -/

namespace ScopeTable
variable {t : ScopeTable} {name : String}

theorem outermost_subset_extend (t : ScopeTable) (name : String) (id : SymbolId) :
    t.outermost ⊆ (t.extend name id).outermost := by
  obtain ⟨outermost, nested⟩ := t
  cases nested with
  | nil => exact List.subset_cons_self _ _
  | cons _ _ => exact List.Subset.refl _

/-- The names of the outermost scope stay different when a name is added that the innermost
one does not hold. -/
theorem nodup_extend (h : (t.outermost.map Prod.fst).Nodup) (hfree : t.lookupLocal name = none)
    (id : SymbolId) : ((t.extend name id).outermost.map Prod.fst).Nodup := by
  obtain ⟨outermost, nested⟩ := t
  cases nested with
  | nil =>
    refine List.nodup_cons.2 ⟨fun hin => ?_, h⟩
    obtain ⟨e, he, hname⟩ := List.mem_map.1 hin
    exact bne_iff_ne.1 (List.lookup_eq_none_iff.1 hfree e he) hname.symm
  | cons _ _ => exact h

end ScopeTable

namespace Binding
variable {b b' : Binding}

/-- The names of the outermost scope are different, and it holds every tuple type. -/
structure Nominal (b : Binding) : Prop where
  names : (b.scopes.outermost.map Prod.fst).Nodup
  types : ∀ id s, b.resolution.symbol? id = some s → s.isTupleDef = true → (s.name, id) ∈ b.scopes.outermost

/-- The declaration of a value makes no tuple type. -/
theorem tupleDef_of_linkDecl {t : ScopeTable} {d : VarDecl} {id : SymbolId} {s : Symbol}
    (hs : (b.linkDecl t d).symbol? id = some s) (htuple : s.isTupleDef = true) :
    b.resolution.symbol? id = some s := by
  rcases symbol?_of_linkDecl hs with hold | ⟨_, hk⟩ | ⟨_, _, hk⟩
  · exact hold
  · rw [Symbol.isTupleDef, hk] at htuple
    cases htuple
  · rw [Symbol.isTupleDef, hk] at htuple
    cases htuple

namespace Nominal

/-- Names may be added where no tuple type is made. -/
theorem keep (h : b.Nominal) (hnames : (b'.scopes.outermost.map Prod.fst).Nodup)
    (hscope : b.scopes.outermost ⊆ b'.scopes.outermost)
    (hsymbols : ∀ id s, b'.resolution.symbol? id = some s → s.isTupleDef = true →
      b.resolution.symbol? id = some s) : b'.Nominal :=
  ⟨hnames, fun id s hs htuple => hscope (h.types id s (hsymbols id s hs htuple) htuple)⟩

/-! ## What steps do -/

theorem use (h : b.Nominal) (l : Loc) : (b.afterUse l).Nominal :=
  h.keep h.names (List.Subset.refl _) fun id _ hs _ => (Binder.symbol?_linkLoc l id).symm.trans hs

theorem var (h : b.Nominal) (d : VarDecl) : (b.afterVar d).Nominal := by
  have hscope : ((b.tableAfter b.scopes d).outermost.map Prod.fst).Nodup ∧
      b.scopes.outermost ⊆ (b.tableAfter b.scopes d).outermost := by
    rw [tableAfter]
    split
    · next haccepts =>
      exact ⟨ScopeTable.nodup_extend h.names (Binder.not_taken_of_accepts haccepts) _,
        ScopeTable.outermost_subset_extend _ _ _⟩
    · exact ⟨h.names, List.Subset.refl _⟩
  exact h.keep hscope.1 hscope.2 fun _ _ => tupleDef_of_linkDecl

theorem vars : ∀ (ds : List VarDecl) {b : Binding}, b.Nominal → (ds.foldl afterVar b).Nominal
  | [], _, h => h
  | d :: ds, _, h => vars ds (h.var d)

/-- Fields go into a table of their own. -/
theorem fields : ∀ (ds : List VarDecl) {b : Binding} (t : ScopeTable), b.Nominal → (b.afterFields t ds).Nominal
  | [], _, _, h => h
  | d :: ds, b, t, h => by
    have hfield : (b.afterDecl t b.scopes d).Nominal :=
      h.keep h.names (List.Subset.refl _) fun _ _ => tupleDef_of_linkDecl
    exact fields ds (b.tableAfter t d) hfield

/-- A name that is free, of a function or, at the top level, of a tuple type. -/
theorem withSymbol (h : b.Nominal) {x : Ident} {kind : SymbolKind}
    (hfree : b.scopes.lookupLocal x.name = none)
    (htop : (Symbol.mk x.name kind).isTupleDef = true → b.scopes.nested = []) :
    (b.withSymbol x kind).Nominal := by
  refine ⟨ScopeTable.nodup_extend h.names hfree _, fun id s hs htuple => ?_⟩
  change (b.resolution.alloc ⟨x.name, kind⟩).symbol? id = some s at hs
  rw [Resolution.symbol?_alloc] at hs
  split at hs
  · next hid =>
    cases hs
    rw [hid]
    show _ ∈ (b.scopes.extend x.name b.resolution.nextSymbol).outermost
    rw [ScopeTable.extend, ScopeTable.setInnermost, htop htuple]
    exact List.mem_cons_self
  · exact ScopeTable.outermost_subset_extend _ _ _ (h.types id s hs htuple)

theorem heading (h : b.Nominal) (d : FunctionDecl) : (b.afterHeading d).Nominal := by
  have hname : (b.afterFunctionName d).Nominal := by
    rw [afterFunctionName]
    split
    · exact ⟨h.names, h.types⟩
    · next hfree => exact h.withSymbol (Option.not_isSome_iff_eq_none.1 hfree) fun htuple => by cases htuple
  have hopened : (b.afterFunctionName d).inside.Nominal := ⟨hname.names, hname.types⟩
  have hformals := vars d.formals hopened
  rw [afterHeading]
  split
  · exact hformals
  · refine hformals.keep hformals.names (List.Subset.refl _) fun id s hs htuple => ?_
    change (Resolution.setParams _ _ _).symbol? id = some s at hs
    rw [Resolution.symbol?_setParams] at hs
    split at hs
    · -- only functions have parameters
      obtain ⟨⟨name, kind⟩, hold, rfl⟩ := Option.map_eq_some_iff.1 hs
      cases kind with
      | function _ _ => cases htuple
      | «variable» _ | tupleInstance _ _ | tupleDef _ => exact hold
    · exact hs

theorem tuple (h : b.Nominal) (htop : b.scopes.nested = []) (d : TupleDecl) : (b.afterTuple d).Nominal := by
  rw [afterTuple]
  split
  · exact fields d.fields .empty ⟨h.names, h.types⟩
  · next hfree =>
    have hscopes := Binder.scopes_afterFields d.fields b .empty
    refine (fields d.fields .empty h).withSymbol ?_ fun _ => ?_
    · rw [hscopes]
      exact Option.not_isSome_iff_eq_none.1 hfree
    · rw [hscopes]
      exact htop

/-- Every step keeps the names of the tuple types different, if these are declared at the top
level. -/
theorem after (h : b.Nominal) {s : Step} (htop : ∀ scope d, s = .tuple scope d → b.scopes.nested = []) :
    (b.after s).Nominal := by
  cases s with
  | use _ l => exact h.use l
  | enter _ | exit _ => exact ⟨h.names, h.types⟩
  | var _ d => exact h.var d
  | heading _ d => exact h.heading d
  | tuple scope d => exact h.tuple (htop scope d rfl) d

/-- So does every list of steps. -/
theorem walk {scope scope' : ScopePath} {steps : List Step} (hw : Walks scope steps scope') :
    ∀ {b : Binding}, b.Nominal → b.scopes.nested.length = scope.length →
      (∀ inner d, .tuple inner d ∈ steps → ∃ n, inner = [n]) → (steps.foldl Binding.after b).Nominal := by
  induction hw with
  | nil => exact fun h _ _ => h
  | @cons scope s scope' steps _ hs _ ih =>
    intro b h hn htuples
    refine ih (h.after fun inner d hs' => ?_) (nested_after hs hn) fun inner d hin =>
      htuples inner d (List.mem_cons_of_mem _ hin)
    -- the scope of the fields lies in that of the program, so that this one is open
    obtain ⟨n, rfl⟩ := htuples inner d (List.mem_cons.2 (.inl hs'.symm))
    rw [hs'] at hs
    cases hs
    exact List.eq_nil_of_length_eq_zero hn

end Nominal

end Binding

theorem Program.resolved_nominal (p : Program) : p.resolved.Nominal := by
  have hstart : Binding.start.Nominal := ⟨.nil, nofun⟩
  exact hstart.walk p.walks rfl fun _ _ => Program.tuple_scope

/-! ## Types and definitions -/

/-- That types are written alike means that they have the same definition. -/
structure Resolution.Nominal (r : Resolution) : Prop where
  /-- No two tuple types have one name. -/
  names : ∀ id s id' s', r.symbol? id = some s → s.isTupleDef = true → r.symbol? id' = some s' →
    s'.isTupleDef = true → s.name = s'.name → id = id'
  /-- Two values of tuple types have the same type if that type is the same. -/
  instances : ∀ id s name definition id' s' name' definition',
    r.symbol? id = some s → s.kind = .tupleInstance name definition →
    r.symbol? id' = some s' → s'.kind = .tupleInstance name' definition' →
    (s.ty.same s'.ty = true ↔ definition = definition')
  /-- A value has the type of that name if it was declared with it. -/
  types : ∀ id s name definition id' s', r.symbol? id = some s → s.kind = .tupleInstance name definition →
    r.symbol? id' = some s' → s'.isTupleDef = true →
    ((∃ written, s.ty = .tupleInstance written ∧ s'.ty = .tupleDef written) ↔ definition = id')

namespace Binding.Nominal
variable {b : Binding} (h : b.Nominal)
include h

theorem eq_of_name {id id' : SymbolId} {s s' : Symbol} (hs : b.resolution.symbol? id = some s)
    (htuple : s.isTupleDef = true) (hs' : b.resolution.symbol? id' = some s')
    (htuple' : s'.isTupleDef = true) (hname : s.name = s'.name) : id = id' := by
  have hin := h.types id s hs htuple
  have hin' := h.types id' s' hs' htuple'
  exact (Prod.mk.inj (List.inj_on_of_nodup_map h.names hin hin' hname)).2

theorem resolution (hb : b.Sound) : b.resolution.Nominal := by
  have hdefinition : ∀ {id s name definition}, b.resolution.symbol? id = some s →
      s.kind = .tupleInstance name definition →
      ∃ t, b.resolution.symbol? definition = some t ∧ t.isTupleDef = true ∧ t.name = name := by
    intro id s name definition hs hk
    obtain ⟨-, t, fields, ht, hname, hkt⟩ := hb.resolution.definition hs hk
    exact ⟨t, ht, by rw [Symbol.isTupleDef, hkt], hname⟩
  refine ⟨fun _ _ _ _ hs htuple hs' htuple' => h.eq_of_name hs htuple hs' htuple', ?_, ?_⟩
  · intro id s name definition id' s' name' definition' hs hk hs' hk'
    obtain ⟨t, ht, htuple, hname⟩ := hdefinition hs hk
    obtain ⟨t', ht', htuple', hname'⟩ := hdefinition hs' hk'
    have hsame : s.ty.same s'.ty = true ↔ name = name' := by
      rw [Symbol.ty, hk, Symbol.ty, hk', Ty.same, beq_iff_eq]
    rw [hsame, ← hname, ← hname']
    refine ⟨h.eq_of_name ht htuple ht' htuple', ?_⟩
    rintro rfl
    rw [ht] at ht'
    cases ht'
    rfl
  · intro id s name definition id' s' hs hk hs' htuple'
    obtain ⟨t, ht, htuple, hname⟩ := hdefinition hs hk
    have hty : s'.ty = .tupleDef s'.name := by
      obtain ⟨_, kind⟩ := s'
      cases kind with
      | tupleDef _ => rfl
      | «variable» _ | function _ _ | tupleInstance _ _ => cases htuple'
    rw [hty, Symbol.ty, hk]
    constructor
    · rintro ⟨written, hwritten, hwritten'⟩
      cases hwritten
      cases hwritten'
      exact h.eq_of_name ht htuple hs' htuple' hname
    · rintro rfl
      rw [ht] at hs'
      cases hs'
      exact ⟨name, rfl, by rw [hname]⟩

end Binding.Nominal

/-- In every program that types of tuples are written alike means that they have the same
definition, whatever names are hidden or declared twice. -/
theorem tuple_types_nominal (p : Program) : ∃ r ds, resolveNames p = .ok (r, ds) ∧ r.Nominal :=
  ⟨_, _, resolveNames_eq p, p.resolved_nominal.resolution (resolved_sound p)⟩

/-- The name of a tuple type is declared again, as one and as a variable in a function; there
is one type of that name. -/
example : (resolveNames
      ⟨[.tuple ⟨⟨0, "pair", .nowhere⟩, [⟨.integer, ⟨1, "n", .nowhere⟩⟩]⟩,
        .tuple ⟨⟨2, "pair", .nowhere⟩, [⟨.logical, ⟨3, "n", .nowhere⟩⟩]⟩,
        .var ⟨.tuple ⟨4, "pair", .nowhere⟩, ⟨5, "x", .nowhere⟩⟩,
        .function ⟨.void, ⟨6, "f", .nowhere⟩, [],
          .mk [⟨.integer, ⟨7, "pair", .nowhere⟩⟩, ⟨.tuple ⟨8, "pair", .nowhere⟩, ⟨9, "y", .nowhere⟩⟩] []⟩]⟩).toOption.map
        (fun a => a.1.symbols.toList.map fun s => (s.name, s.text)) =
    some [("n", "integer"), ("pair", "tuple"), ("n", "logical"), ("x", "pair"), ("f", "->void"),
      ("pair", "integer")] := by decide +kernel

end BaseLang
