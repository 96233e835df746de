import BaseLang.Proofs.Resolving.Lexical
import BaseLang.Proofs.Resolving.Locations

/-
  Between the resolver and lexical scoping.

  The resolver has a stack of scopes and numbers its symbols; lexical scoping has a list
  of declarations with the scopes in which they lie. A ledger is between the two: it
  lists the declarations that count, each with the number of its symbol.

    1. `Ledger.Follows` — what holds between a ledger and a state: the stack has, for each
       of the scopes that are open, what the ledger lists for it;
    2. `Traces` — from one state to another the resolver has treated some mentions as
       lexical scoping asks, and has reported what is wrong with them; `Traces.append`
       puts two such stretches together;
    3. `Ledger.Follows.traces_decl`, `Traces.withSymbol`, `Traces.withMultiple` — so it is
       for the declaration of a value, in whatever table, and of a function or a tuple type.
-/

namespace BaseLang

/-- The declarations that count, each with its symbol, latest first. -/
abbrev Ledger := List (Declaration × SymbolId)

namespace Ledger
variable (g : Ledger)

/-! ## What a ledger lists -/

def declarations : List Declaration := g.map Prod.fst

def namesOf (scope : ScopePath) : Scope :=
  (g.filter fun e => e.1.scope == scope).map fun e => (e.1.name.name, e.2)

def held? (name : String) (scope : ScopePath) : Option (Declaration × SymbolId) :=
  g.find? fun e => e.1.scope == scope && e.1.name.name == name

/-- The declaration that a name stands for, with its symbol. -/
def visible? (scope : ScopePath) (name : String) : Option (Declaration × SymbolId) :=
  scope.enclosing.findSome? (g.held? name)

variable {g}

theorem lookup_namesOf (name : String) (scope : ScopePath) :
    (g.namesOf scope).lookup name = (g.held? name scope).map Prod.snd := by
  induction g with
  | nil => rfl
  | cons e g ih =>
    rw [namesOf, held?, List.filter_cons, List.find?_cons]
    by_cases hs : e.1.scope == scope
    · rw [if_pos hs, List.map_cons, List.lookup_cons, hs, Bool.true_and, Bool.beq_comm]
      cases e.1.name.name == name with
      | true => rfl
      | false => exact ih
    · rw [if_neg hs, Bool.eq_false_iff.2 hs, Bool.false_and]
      exact ih

theorem held?_declarations (name : String) (scope : ScopePath) :
    BaseLang.held? g.declarations name scope = (g.held? name scope).map Prod.fst := by
  rw [BaseLang.held?, declarations, List.find?_map]
  rfl

theorem visible?_declarations (scope : ScopePath) (name : String) :
    BaseLang.visible? g.declarations scope name = (g.visible? scope name).map Prod.fst := by
  rw [BaseLang.visible?, visible?, List.map_findSome?]
  congr 1
  funext q
  exact held?_declarations name q

theorem mem_of_visible? {scope : ScopePath} {name : String} {e : Declaration × SymbolId}
    (h : g.visible? scope name = some e) : e ∈ g := by
  obtain ⟨q, -, hq⟩ := List.exists_of_findSome?_eq_some h
  exact List.mem_of_find?_eq_some hq

theorem namesOf_cons (e : Declaration × SymbolId) (scope : ScopePath) :
    namesOf (e :: g) scope =
      if e.1.scope = scope then (e.1.name.name, e.2) :: g.namesOf scope else g.namesOf scope := by
  rw [namesOf, List.filter_cons]
  simp only [beq_iff_eq]
  split <;> rfl

/-- A scope in which nothing is declared holds no names. -/
theorem namesOf_eq_nil {scope : ScopePath} (h : ∀ e ∈ g, e.1.scope ≠ scope) : g.namesOf scope = [] := by
  rw [namesOf, List.map_eq_nil_iff, List.filter_eq_nil_iff]
  intro e he
  simpa using h e he

end Ledger

/-! ## Symbols and declarations -/

theorem Symbol.Fits.withParams {s : Symbol} {d : Declaration} (h : s.Fits d) (params : List Ty) :
    (s.withParams params).Fits d := by
  obtain ⟨name, kind⟩ := s
  refine ⟨(Symbol.name_withParams _ _).trans h.1, ?_⟩
  have hkind := h.2
  cases kind with
  | «variable» _ | tupleInstance _ _ | tupleDef _ => exact hkind
  | function result ts =>
    obtain ⟨x, scope, around, role⟩ := d
    cases role with
    | value type =>
      cases type with
      | tuple t =>
        obtain ⟨_, hk⟩ := hkind
        cases hk
      | logical | integer | void => cases hkind
    | function type =>
      obtain ⟨_, hk⟩ := hkind
      cases hk
      exact ⟨params, rfl⟩
    | tuple =>
      obtain ⟨_, hk⟩ := hkind
      cases hk

/-- Only the declaration of a tuple type asks for the symbol of one. -/
theorem Symbol.Fits.isTuple_iff {s : Symbol} {d : Declaration} (h : s.Fits d) :
    (∃ fields, s.kind = .tupleDef fields) ↔ d.role.isTuple = true := by
  obtain ⟨x, scope, around, role⟩ := d
  have hkind := h.2
  cases role with
  | value type =>
    refine ⟨fun ⟨fields, hf⟩ => ?_, nofun⟩
    cases type with
    | tuple t =>
      obtain ⟨_, hk⟩ := hkind
      rw [hf] at hk
      cases hk
    | logical | integer | void =>
      change s.kind = _ at hkind
      rw [hf] at hkind
      cases hkind
  | function result =>
    refine ⟨fun ⟨fields, hf⟩ => ?_, nofun⟩
    obtain ⟨_, hk⟩ := hkind
    rw [hf] at hk
    cases hk
  | tuple => exact ⟨fun _ => rfl, fun _ => hkind⟩

/-! ## Ledgers and resolutions -/

/-- The declarations of the ledger have their symbols, each one of its own. -/
structure Ledger.Kept (g : Ledger) (r : Resolution) : Prop where
  symbols : ∀ e ∈ g, ∃ s, r.symbol? e.2 = some s ∧ s.Fits e.1
  links : ∀ e ∈ g, r.linkOf e.1.name = some e.2
  distinct : (g.map Prod.snd).Nodup

/-- The names that a mention may link. -/
def Mention.nodes : Mention → List NodeId
  | .uses _ x => [x.id]
  | .declares ⟨x, _, _, .value type⟩ => type.nodes ++ [x.id]
  | .declares ⟨x, _, _, _⟩ => [x.id]

theorem Declaration.name_mem_nodes (d : Declaration) : d.name.id ∈ (Mention.declares d).nodes := by
  obtain ⟨x, scope, around, role⟩ := d
  cases role with
  | value type => exact List.mem_append_right _ List.mem_cons_self
  | function _ | tuple => exact List.mem_cons_self

namespace Ledger.Kept
variable {g : Ledger} {r : Resolution} {b b' : Binding} {nodes : List NodeId}

theorem evolves (h : g.Kept b.resolution) (he : Binding.Evolves nodes b b') (hfresh : b.resolution.Fresh nodes) :
    g.Kept b'.resolution := by
  refine ⟨fun e hin => ?_, fun e hin => ?_, h.distinct⟩
  · obtain ⟨s, hs, hfits⟩ := h.symbols e hin
    obtain ⟨params, hs'⟩ := he.symbols e.2 s hs
    exact ⟨_, hs', hfits.withParams params⟩
  · exact he.linkOf_eq hfresh (h.links e hin)

theorem isSome_fieldsOf? (h : g.Kept r) {e : Declaration × SymbolId} (he : e ∈ g) :
    (r.fieldsOf? e.2).isSome = e.1.role.isTuple := by
  obtain ⟨s, hs, hfits⟩ := h.symbols e he
  rw [Bool.eq_iff_iff, ← hfits.isTuple_iff, Option.isSome_iff_exists]
  simp only [Resolution.fieldsOf?_eq_some_iff, hs, Option.some.injEq, exists_eq_left']

/-- A name linked to the symbol of an entry stands for its declaration. -/
theorem links_of (h : g.Kept r) {x : Ident} {found? : Option (Declaration × SymbolId)}
    (hin : ∀ e, found? = some e → e ∈ g) (hx : r.linkOf x = found?.map Prod.snd) :
    r.Links x (found?.map Prod.fst) := by
  cases found? with
  | none => exact hx
  | some e => exact ⟨e.2, h.links e (hin e rfl), hx⟩

end Ledger.Kept

/-! ## Ledgers and states -/

/-- The declarations of the ledger have their symbols, and the scopes that are open in
the state, the innermost of which is the given one, hold the names it lists for them. -/
structure Ledger.Follows (g : Ledger) (scope : ScopePath) (b : Binding) : Prop where
  kept : g.Kept b.resolution
  levels : b.scopes.levels = scope.enclosing.map g.namesOf

namespace Ledger.Follows
variable {g : Ledger} {scope : ScopePath} {b : Binding}

theorem lookupChain (h : g.Follows scope b) (name : String) :
    b.scopes.lookupChain name = (g.visible? scope name).map Prod.snd := by
  rw [ScopeTable.lookupChain_eq, h.levels, List.findSome?_map, visible?, List.map_findSome?]
  congr 1
  funext q
  exact lookup_namesOf name q

/-- The entry of the tuple type that a name stands for. -/
theorem definition? (h : g.Follows scope b) (name : String) :
    b.definition? name =
      ((g.visible? scope name).filter (·.1.role.isTuple)).map Prod.snd := by
  rw [Binding.definition?, h.lookupChain]
  cases hv : g.visible? scope name with
  | none => rfl
  | some e =>
    rw [Option.map_some, Option.filter_some, Option.filter_some,
      h.kept.isSome_fieldsOf? (mem_of_visible? hv)]
    split <;> rfl

end Ledger.Follows

theorem Ledger.definition?_declarations (g : Ledger) (scope : ScopePath) (name : String) :
    BaseLang.definition? g.declarations scope name =
      ((g.visible? scope name).filter (·.1.role.isTuple)).map Prod.fst := by
  rw [BaseLang.definition?, visible?_declarations]
  cases g.visible? scope name with
  | none => rfl
  | some e =>
    rw [Option.map_some, Option.filter_some, Option.filter_some]
    split <;> rfl

/-! ## What is done stays done -/

theorem Resolution.Links.evolves {b b' : Binding} {nodes : List NodeId} {x : Ident}
    {d? : Option Declaration} (h : b.resolution.Links x d?) (he : Binding.Evolves nodes b b')
    (hfresh : b.resolution.Fresh nodes) (hx : x.id ∉ nodes) : b'.resolution.Links x d? := by
  cases d? with
  | none => exact (he.links x.id hx).trans h
  | some d =>
    obtain ⟨id, hd, hid⟩ := h
    exact ⟨id, he.linkOf_eq hfresh hd, he.linkOf_eq hfresh hid⟩

theorem Resolution.Respects.evolves {b b' : Binding} {nodes : List NodeId} {ds : List Declaration}
    {m : Mention} (h : b.resolution.Respects ds m) (he : Binding.Evolves nodes b b')
    (hfresh : b.resolution.Fresh nodes) (hm : ∀ i ∈ m.nodes, i ∉ nodes) : b'.resolution.Respects ds m := by
  cases m with
  | uses scope x => exact Links.evolves h he hfresh (hm _ List.mem_cons_self)
  | declares d =>
    obtain ⟨hcounts, htype⟩ := h
    refine ⟨?_, fun t ht => ?_⟩
    · by_cases hd : d.accepts ds = true
      · rw [if_pos hd] at hcounts ⊢
        obtain ⟨id, s, hid, hs, hfits⟩ := hcounts
        obtain ⟨params, hs'⟩ := he.symbols id s hs
        exact ⟨id, _, he.linkOf_eq hfresh hid, hs', hfits.withParams params⟩
      · rw [if_neg hd] at hcounts ⊢
        exact (he.links _ (hm _ d.name_mem_nodes)).trans hcounts
    · refine (htype t ht).evolves he hfresh (hm _ ?_)
      obtain ⟨x, scope, around, role⟩ := d
      cases ht
      exact List.mem_append_left _ List.mem_cons_self

theorem Resolution.RespectsAll.evolves {b b' : Binding} {nodes : List NodeId}
    (he : Binding.Evolves nodes b b') (hfresh : b.resolution.Fresh nodes) :
    ∀ {ms : List Mention} {ds : List Declaration}, b.resolution.RespectsAll ds ms →
      (∀ m ∈ ms, ∀ i ∈ m.nodes, i ∉ nodes) → b'.resolution.RespectsAll ds ms
  | [], _, _, _ => trivial
  | _ :: _, _, h, hms =>
    ⟨h.1.evolves he hfresh (hms _ List.mem_cons_self),
      evolves he hfresh h.2 fun m hm => hms m (List.mem_cons_of_mem _ hm)⟩

/-! ## Mentions that have been treated -/

/-- Between the two states the resolver has treated the mentions as lexical scoping asks.
It has touched these nodes only, and the ledger has gained the declarations that count. -/
structure Traces (nodes : List NodeId) (ms : List Mention) (g : Ledger) (b : Binding) (g' : Ledger)
    (b' : Binding) : Prop where
  kept : g'.Kept b'.resolution
  accepted : g'.declarations = acceptedOf g.declarations ms
  respects : b'.resolution.RespectsAll g.declarations ms
  faults : ∃ found, b'.diagnostics = b.diagnostics ++ found ∧
    (found.filter Diagnostic.isOfScopes).Perm (faultsOf g.declarations ms)
  evolves : Binding.Evolves nodes b b'
  mentioned : ∀ m ∈ ms, ∀ i ∈ m.nodes, i ∈ nodes

namespace Traces
variable {g g' g'' : Ledger} {b b' b'' : Binding} {ns ns' : List NodeId} {ms ms' : List Mention}

theorem nil (h : g.Kept b.resolution) (he : Binding.Evolves ns b b')
    (hdiagnostics : b'.diagnostics = b.diagnostics) (hfresh : b.resolution.Fresh ns) :
    Traces ns [] g b g b' :=
  ⟨h.evolves he hfresh, rfl, trivial, ⟨[], by rw [hdiagnostics, List.append_nil], .nil⟩, he,
    fun _ hm => by cases hm⟩

theorem append (h : Traces ns ms g b g' b') (h' : Traces ns' ms' g' b' g'' b'')
    (hfresh : b.resolution.Fresh (ns ++ ns')) (hnodup : (ns ++ ns').Nodup) :
    Traces (ns ++ ns') (ms ++ ms') g b g'' b'' := by
  have hlater := h.evolves.fresh_right hfresh hnodup
  have hdisjoint : ∀ i ∈ ns, i ∉ ns' := fun i hi hin => (List.nodup_append.1 hnodup).2.2 i hi i hin rfl
  refine ⟨h'.kept, ?_, ?_, ?_, h.evolves.trans h'.evolves, ?_⟩
  · rw [h'.accepted, h.accepted, acceptedOf_append]
  · have hrest := h'.respects
    rw [h.accepted] at hrest
    have hearlier := h.respects.evolves h'.evolves hlater fun m hm i hi =>
      hdisjoint i (h.mentioned m hm i hi)
    exact hearlier.append hrest
  · obtain ⟨found, hfound, hperm⟩ := h.faults
    obtain ⟨found', hfound', hperm'⟩ := h'.faults
    refine ⟨found ++ found', by rw [hfound', hfound, List.append_assoc], ?_⟩
    rw [List.filter_append, faultsOf_append, ← h.accepted]
    exact hperm.append hperm'
  · intro m hm i hi
    rcases List.mem_append.1 hm with hm | hm
    · exact List.mem_append_left _ (h.mentioned m hm i hi)
    · exact List.mem_append_right _ (h'.mentioned m hm i hi)

theorem mono (h : Traces ns ms g b g' b') (hns : ∀ i ∈ ns, i ∈ ns') : Traces ns' ms g b g' b' :=
  { h with evolves := h.evolves.mono hns, mentioned := fun m hm i hi => hns i (h.mentioned m hm i hi) }

/-- What touches no names, reports nothing and leaves the ledger alone can follow. -/
theorem then_free (h : Traces ns ms g b g' b') (he : Binding.Evolves [] b' b'')
    (hdiagnostics : b''.diagnostics = b'.diagnostics) : Traces ns ms g b g' b'' := by
  have hnone : b'.resolution.Fresh [] := fun _ hi => by cases hi
  have hrespects := h.respects.evolves he hnone fun _ _ _ _ hi => by cases hi
  exact ⟨h.kept.evolves he hnone, h.accepted, hrespects, by rw [hdiagnostics]; exact h.faults,
    h.evolves.then_free he, h.mentioned⟩

end Traces

/-! ## One declaration -/

/-- The ledger with another declaration, if it counts. -/
def Ledger.after (g : Ledger) (d : Declaration) (id : SymbolId) : Ledger :=
  if d.accepts g.declarations then (d, id) :: g else g

theorem Ledger.declarations_after (g : Ledger) (d : Declaration) (id : SymbolId) :
    (g.after d id).declarations = acceptedOf g.declarations [.declares d] := by
  rw [after, acceptedOf, acceptedOf]
  split <;> rfl

/-- Whatever is wrong with a mention depends on what names stand for. -/
theorem Mention.filter_faults (ds : List Declaration) (m : Mention) :
    (m.faults ds).filter Diagnostic.isOfScopes = m.faults ds := by
  refine List.filter_eq_self.2 fun f hf => ?_
  cases m with
  | uses scope x =>
    rw [faults] at hf
    split at hf
    · rw [List.mem_singleton.1 hf]
      rfl
    · cases hf
  | declares d =>
    rcases List.mem_append.1 hf with hf | hf
    · rw [Declaration.typeFaults] at hf
      split at hf
      · rw [List.mem_singleton.1 hf]
        rfl
      · split at hf
        · rw [List.mem_singleton.1 hf]
          rfl
        · cases hf
      · cases hf
    · split at hf
      · rw [List.mem_singleton.1 hf]
        rfl
      · cases hf

/-- A declaration is treated as it should be if it is linked to a symbol of its kind, the
next one, or not at all, its type is linked, and its faults are reported. -/
theorem Traces.declares {nodes : List NodeId} {g : Ledger} {b b' : Binding} {d : Declaration}
    (hg : g.Kept b.resolution) (he : Binding.Evolves nodes b b') (hfresh : b.resolution.Fresh nodes)
    (hnodes : ∀ i ∈ (Mention.declares d).nodes, i ∈ nodes)
    (hcounts : d.accepts g.declarations = true →
      ∃ s, b'.resolution.symbol? b.resolution.nextSymbol = some s ∧ s.Fits d ∧
        b'.resolution.linkOf d.name = some b.resolution.nextSymbol)
    (hrejected : d.accepts g.declarations = false → b'.resolution.linkOf d.name = none)
    (htype : ∀ t, d.role = .value (.tuple t) →
      b'.resolution.Links t (definition? g.declarations d.around t.name))
    (hfaults : b'.diagnostics = b.diagnostics ++ (Mention.declares d).faults g.declarations) :
    Traces nodes [.declares d] g b (g.after d b.resolution.nextSymbol) b' := by
  have hkept := hg.evolves he hfresh
  refine ⟨?_, g.declarations_after d _, ⟨⟨?_, htype⟩, trivial⟩, ⟨_, hfaults, ?_⟩, he, ?_⟩
  · rw [Ledger.after]
    split
    · next hd =>
      obtain ⟨s, hs, hfits, hlink⟩ := hcounts hd
      refine ⟨?_, ?_, List.nodup_cons.2 ⟨fun hin => ?_, hkept.distinct⟩⟩
      · intro e hin
        rcases List.mem_cons.1 hin with rfl | hin
        · exact ⟨s, hs, hfits⟩
        · exact hkept.symbols e hin
      · intro e hin
        rcases List.mem_cons.1 hin with rfl | hin
        · exact hlink
        · exact hkept.links e hin
      · obtain ⟨e, hin, heq⟩ := List.mem_map.1 hin
        obtain ⟨s', hs', -⟩ := hg.symbols e hin
        exact Nat.lt_irrefl _ (heq ▸ Resolution.symbol?_lt hs')
    · exact hkept
  · split
    · next hd =>
      obtain ⟨s, hs, hfits, hlink⟩ := hcounts hd
      exact ⟨_, s, hlink, hs, hfits⟩
    · next hd => exact hrejected (Bool.eq_false_iff.2 hd)
  · rw [Mention.filter_faults, faultsOf, faultsOf, List.append_nil]
  · intro m hm
    rw [List.mem_singleton.1 hm]
    exact hnodes

/-- A table that holds the names of a scope finds those that are taken. -/
theorem Ledger.isSome_lookupLocal {g : Ledger} {t : ScopeTable} {d : Declaration}
    (ht : t.innermost = g.namesOf d.scope) :
    (t.lookupLocal d.name.name).isSome = d.taken g.declarations := by
  rw [ScopeTable.lookupLocal, ht, lookup_namesOf, Declaration.taken, held?_declarations,
    Option.isSome_map, Option.isSome_map]

section Declarations
variable {g : Ledger} {around scope : ScopePath} {b : Binding} {t : ScopeTable}

/-! ### Variables, formals and fields -/

theorem Ledger.Follows.isSome_typeKind? (h : g.Follows around b) (scope : ScopePath) (d : VarDecl) :
    (b.typeKind? d.type).isSome = (d.declaration scope around).typeRight g.declarations := by
  rw [Declaration.typeRight, VarDecl.declaration]
  cases d.type with
  | tuple t =>
    show ((b.definition? t.name).map _).isSome = (BaseLang.definition? _ around t.name).isSome
    rw [Option.isSome_map, h.definition?, Ledger.definition?_declarations, Option.isSome_map,
      Option.isSome_map]
  | logical | integer | void => rfl

theorem Ledger.Follows.typeFaults (h : g.Follows around b) (scope : ScopePath) (d : VarDecl) :
    b.typeFaults d = (d.declaration scope around).typeFaults g.declarations := by
  rw [Binding.typeFaults, Declaration.typeFaults, VarDecl.declaration]
  cases d.type with
  | tuple t =>
    dsimp only
    rw [h.definition?, Ledger.definition?_declarations]
    cases (g.visible? around t.name).filter (·.1.role.isTuple) <;> rfl
  | logical | integer | void => rfl

theorem Ledger.Follows.isSome_accepts? (h : g.Follows around b) (ht : t.innermost = g.namesOf scope)
    (d : VarDecl) :
    (b.accepts? t d).isSome = (d.declaration scope around).accepts g.declarations := by
  have htaken : (t.lookupLocal d.name.name).isSome = (d.declaration scope around).taken g.declarations :=
    Ledger.isSome_lookupLocal (d := d.declaration scope around) ht
  rw [Declaration.accepts, ← htaken, ← h.isSome_typeKind? scope d, Binding.accepts?]
  cases (t.lookupLocal d.name.name).isSome with
  | true => rw [if_pos rfl, Bool.not_true, Bool.and_false, Option.isSome_none]
  | false => rw [if_neg Bool.false_ne_true, Bool.not_false, Bool.and_true]

/-- The symbol of a declaration is of the kind that it asks for. -/
theorem fits_of_typeKind? {d : VarDecl} {kind : SymbolKind} (h : b.typeKind? d.type = some kind) :
    Symbol.Fits ⟨d.name.name, kind⟩ (d.declaration scope around) := by
  obtain ⟨type, x⟩ := d
  refine ⟨rfl, ?_⟩
  cases type with
  | void => cases h
  | logical | integer =>
    cases h
    rfl
  | tuple t =>
    obtain ⟨id, -, rfl⟩ := Option.map_eq_some_iff.1 h
    exact ⟨id, rfl⟩

/-- The type of a declaration is linked to the tuple type that is visible. -/
theorem Ledger.Follows.linkOf_type (h : g.Follows around b) {d : VarDecl} {x : Ident}
    (hx : d.type = .tuple x) (hne : x.id ≠ d.name.id) (hfresh : b.resolution.linkOf x = none) :
    (b.linkDecl t d).linkOf x =
      ((g.visible? around x.name).filter (·.1.role.isTuple)).map Prod.snd := by
  have htype : (b.linkType d.type).linkOf x = b.definition? x.name := by
    rw [hx, Binding.linkType]
    cases b.definition? x.name with
    | none => exact hfresh
    | some id => exact Resolution.linkOf_link_self _ _ _
  rw [← h.definition?, ← htype, Binding.linkDecl]
  cases b.accepts? t d with
  | none => rfl
  | some kind => exact Resolution.links_link _ _ _ hne

/-- A variable, a formal or a field is declared as it should be, in whatever table. -/
theorem Ledger.Follows.traces_decl (h : g.Follows around b) (ht : t.innermost = g.namesOf scope)
    (scopes : ScopeTable) {d : VarDecl} (hfresh : b.resolution.Fresh d.nodes) (hnodup : d.nodes.Nodup) :
    Traces d.nodes [.declares (d.declaration scope around)] g b
      (g.after (d.declaration scope around) b.resolution.nextSymbol) (b.afterDecl t scopes d) := by
  have hevolves := b.evolves_decl t scopes d
  have haccepts := h.isSome_accepts? ht d
  refine Traces.declares h.kept hevolves hfresh (fun _ hi => hi) (fun hd => ?_) (fun hd => ?_)
    (fun x hx => ?_) ?_
  · rw [hd] at haccepts
    obtain ⟨kind, hkind⟩ := Option.isSome_iff_exists.1 haccepts
    exact ⟨_, Binding.symbol?_linkDecl hkind, fits_of_typeKind? (Binding.accepts?_eq_some hkind),
      Binding.linkOf_linkDecl hkind⟩
  · rw [hd, Option.isSome_eq_false_iff, Option.isNone_iff_eq_none] at haccepts
    exact Binding.linkOf_linkDecl_eq_none haccepts hfresh hnodup
  · have htype : d.type = .tuple x := by injection hx
    have hin : x.id ∈ d.type.nodes := by
      rw [htype]
      exact List.mem_cons_self
    rw [Ledger.definition?_declarations]
    refine (h.kept.evolves hevolves hfresh).links_of (fun e he => ?_) ?_
    · exact Ledger.mem_of_visible? (Option.filter_eq_some_iff.1 he).1
    · refine h.linkOf_type htype (fun heq => ?_) (hfresh _ (List.mem_append_left _ hin))
      exact (List.nodup_append.1 hnodup).2.2 _ hin _ List.mem_cons_self heq
  · have htaken := Ledger.isSome_lookupLocal (d := d.declaration scope around) ht
    show b.diagnostics ++ b.declFaults t d = _
    rw [Binding.declFaults, h.typeFaults scope d, Mention.faults, ← htaken]
    rfl

end Declarations

/-! ### Functions and tuple types -/

section Names
variable {g : Ledger} {b : Binding} {d : Declaration}

theorem Declaration.typeRight_of_role (hrole : ∀ type, d.role ≠ .value type) (ds : List Declaration) :
    d.typeRight ds = true ∧ d.typeFaults ds = [] := by
  obtain ⟨x, scope, around, role⟩ := d
  cases role with
  | value type => exact absurd rfl (hrole type)
  | function _ | tuple => exact ⟨rfl, rfl⟩

theorem Declaration.nodes_of_role (hrole : ∀ type, d.role ≠ .value type) :
    (Mention.declares d).nodes = [d.name.id] := by
  obtain ⟨x, scope, around, role⟩ := d
  cases role with
  | value type => exact absurd rfl (hrole type)
  | function _ | tuple => rfl

/-- A name that is not taken gets a symbol. -/
theorem Traces.withSymbol {kind : SymbolKind} (hg : g.Kept b.resolution)
    (hrole : ∀ type, d.role ≠ .value type) (hfree : d.taken g.declarations = false)
    (hfits : Symbol.Fits ⟨d.name.name, kind⟩ d) (hfresh : b.resolution.Fresh [d.name.id]) :
    Traces [d.name.id] [.declares d] g b ((d, b.resolution.nextSymbol) :: g)
      (b.withSymbol d.name kind) := by
  obtain ⟨htype, hfaults⟩ := Declaration.typeRight_of_role hrole g.declarations
  have haccepts : d.accepts g.declarations = true := by rw [Declaration.accepts, htype, hfree]; rfl
  have hafter : (d, b.resolution.nextSymbol) :: g = g.after d b.resolution.nextSymbol := by
    rw [Ledger.after, if_pos haccepts]
  rw [hafter]
  refine Traces.declares hg (b.evolves_withSymbol d.name kind) hfresh ?_ (fun _ => ?_) (fun hd => ?_)
    (fun t ht => absurd ht (hrole _)) ?_
  · rw [Declaration.nodes_of_role hrole]
    exact fun _ hi => hi
  · refine ⟨⟨d.name.name, kind⟩, ?_, hfits, ?_⟩
    · exact b.resolution.symbol?_alloc_self _
    · exact Resolution.linkOf_link_self _ _ _
  · rw [haccepts] at hd
    cases hd
  · rw [Mention.faults, hfaults, hfree]
    exact (List.append_nil _).symm

theorem Declaration.accepts_of_taken {ds : List Declaration} (h : d.taken ds = true) :
    d.accepts ds = false := by
  rw [Declaration.accepts, h, Bool.not_true, Bool.and_false]

theorem Declaration.faults_of_taken {ds : List Declaration} (hrole : ∀ type, d.role ≠ .value type)
    (h : d.taken ds = true) : (Mention.declares d).faults ds = [⟨d.name.position, .multiplyDeclared⟩] := by
  rw [Mention.faults, (Declaration.typeRight_of_role hrole ds).2, h, if_pos rfl, List.nil_append]

/-- A name that is taken is reported. -/
theorem Traces.withMultiple (hg : g.Kept b.resolution) (hrole : ∀ type, d.role ≠ .value type)
    (htaken : d.taken g.declarations = true) (hfresh : b.resolution.Fresh [d.name.id]) :
    Traces [d.name.id] [.declares d] g b g (b.withMultiple d.name) := by
  have haccepts := Declaration.accepts_of_taken htaken
  have htraces : Traces [d.name.id] [.declares d] g b (g.after d b.resolution.nextSymbol)
      (b.withMultiple d.name) := by
    refine Traces.declares hg (b.evolves_withMultiple d.name).free hfresh ?_ (fun hd => ?_) (fun _ => ?_)
      (fun t ht => absurd ht (hrole _)) ?_
    · rw [Declaration.nodes_of_role hrole]
      exact fun _ hi => hi
    · rw [haccepts] at hd
      cases hd
    · exact hfresh _ List.mem_cons_self
    · rw [Declaration.faults_of_taken hrole htaken]
      rfl
  rwa [Ledger.after, if_neg (Bool.eq_false_iff.1 haccepts)] at htraces

/-- The name of a tuple type that is taken is reported before its fields, though it is
declared after them. -/
theorem Traces.after_withMultiple {g' : Ledger} {b' : Binding} {ns : List NodeId} {ms : List Mention}
    (h : Traces ns ms g (b.withMultiple d.name) g' b') (hrole : ∀ type, d.role ≠ .value type)
    (htaken : d.taken g'.declarations = true) (hlink : b'.resolution.linkOf d.name = none) :
    Traces (d.name.id :: ns) (ms ++ [.declares d]) g b g' b' := by
  have haccepts : ¬ d.accepts (acceptedOf g.declarations ms) = true := by
    rw [← h.accepted, Declaration.accepts_of_taken htaken]
    exact Bool.false_ne_true
  refine ⟨h.kept, ?_, ?_, ?_, ?_, ?_⟩
  · rw [acceptedOf_append, acceptedOf, acceptedOf, if_neg haccepts, h.accepted]
  · refine h.respects.append ⟨⟨?_, fun t ht => absurd ht (hrole _)⟩, trivial⟩
    rwa [if_neg haccepts]
  · obtain ⟨found, hfound, hperm⟩ := h.faults
    refine ⟨⟨d.name.position, .multiplyDeclared⟩ :: found, ?_, ?_⟩
    · rw [hfound, Binding.withMultiple, List.append_assoc, List.singleton_append]
    · rw [faultsOf_append, ← h.accepted, faultsOf, faultsOf,
        Declaration.faults_of_taken hrole htaken, List.append_nil]
      exact (hperm.cons _).trans (List.perm_append_singleton _ _).symm
  · have hname : Binding.Evolves [d.name.id] b (b.withMultiple d.name) := (b.evolves_withMultiple d.name).free
    exact hname.trans h.evolves
  · intro m hm i hi
    rcases List.mem_append.1 hm with hm | hm
    · exact List.mem_cons_of_mem _ (h.mentioned m hm i hi)
    · rw [List.mem_singleton.1 hm, Declaration.nodes_of_role hrole] at hi
      rw [List.mem_singleton.1 hi]
      exact List.mem_cons_self

end Names

end BaseLang
