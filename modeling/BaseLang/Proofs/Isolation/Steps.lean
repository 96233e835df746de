import BaseLang.Proofs.Isolation.Renumbering
import BaseLang.Proofs.Resolving.Faults

/-
  The same steps from two states, one of which holds the other.

    1. `Binding.Embeds` — a state holds another one under new numbers: its scopes hold the
       same names, and its resolution the same symbols;
    2. `Binding.Embeds.after` — so it does after a step of both that is on no hidden node,
       and both report the same;
    3. `Binding.Embeds.walk` — so it does after any number of such steps.
-/

namespace BaseLang

namespace Binding

/-- The second state holds the first under new numbers, but for the hidden nodes. -/
structure Embeds (f : SymbolId → SymbolId) (hidden : List NodeId) (b b' : Binding) : Prop where
  scopes : b'.scopes = b.scopes.renumber f
  resolution : b.resolution.Embeds f hidden b'.resolution

namespace Embeds
variable {f : SymbolId → SymbolId} {hidden : List NodeId} {b b' : Binding}

theorem lookupChain (h : b.Embeds f hidden b') (name : String) :
    b'.scopes.lookupChain name = (b.scopes.lookupChain name).map f := by
  rw [h.scopes, ScopeTable.lookupChain_renumber]

theorem lookupLocal_isSome (h : b.Embeds f hidden b') (name : String) :
    (b'.scopes.lookupLocal name).isSome = (b.scopes.lookupLocal name).isSome := by
  rw [h.scopes, ScopeTable.lookupLocal_renumber, Option.isSome_map]

/-! ## Locations -/

theorem symbolAt? (h : b.Embeds f hidden b') : ∀ {l : Loc}, (∀ i ∈ l.nodes, i ∉ hidden) →
    b'.symbolAt? l = (b.symbolAt? l).map f
  | .ident x, hl => by
    rw [Binding.symbolAt?, h.lookupChain, h.resolution.linkOf (hl _ List.mem_cons_self),
      Binding.symbolAt?, Option.map_or]
  | .access id l x, hl => by
    have hin := h.symbolAt? (l := l) fun i hi => hl i (List.mem_append_left _ hi)
    rw [Binding.symbolAt?, hin, Option.bind_map, Binding.symbolAt?, Option.map_bind]
    congr 1
    funext id
    rw [Function.comp_apply, h.resolution.tupleOf?, Option.bind_map, Function.comp_apply, Option.map_bind]
    congr 1
    funext definition
    exact h.resolution.fieldOf? definition x.name

theorem colonFaults (h : b.Embeds f hidden b') {l : Loc} (hl : ∀ i ∈ l.nodes, i ∉ hidden) :
    b'.colonFaults l = b.colonFaults l := by
  rw [Binding.colonFaults, h.symbolAt? hl, Binding.colonFaults]
  cases b.symbolAt? l with
  | none => rfl
  | some id =>
    rw [Option.map_some]
    dsimp only
    rw [h.resolution.tupleOf?]
    cases b.resolution.tupleOf? id <;> rfl

theorem fieldFaults (h : b.Embeds f hidden b') {l : Loc} (hl : ∀ i ∈ l.nodes, i ∉ hidden) (x : Ident) :
    b'.fieldFaults l x = b.fieldFaults l x := by
  have htuple : (b'.symbolAt? l).bind b'.resolution.tupleOf? =
      ((b.symbolAt? l).bind b.resolution.tupleOf?).map f := by
    rw [h.symbolAt? hl, Option.bind_map, Option.map_bind]
    exact congrArg _ (funext h.resolution.tupleOf?)
  rw [Binding.fieldFaults, htuple, Binding.fieldFaults]
  cases (b.symbolAt? l).bind b.resolution.tupleOf? with
  | none => rfl
  | some definition =>
    rw [Option.map_some]
    dsimp only
    rw [h.resolution.fieldOf?]
    cases b.resolution.fieldOf? definition x.name <;> rfl

theorem locFaults (h : b.Embeds f hidden b') : ∀ {l : Loc}, (∀ i ∈ l.nodes, i ∉ hidden) →
    b'.locFaults l = b.locFaults l
  | .ident x, _ => by
    rw [Binding.locFaults, h.lookupChain, Binding.locFaults]
    cases b.scopes.lookupChain x.name <;> rfl
  | .access id l x, hl => by
    have hbase : ∀ i ∈ l.nodes, i ∉ hidden := fun i hi => hl i (List.mem_append_left _ hi)
    rw [Binding.locFaults, h.locFaults hbase, h.colonFaults hbase, h.fieldFaults hbase, Binding.locFaults]

theorem linkLoc (h : b.Embeds f hidden b') : ∀ {l : Loc}, (∀ i ∈ l.nodes, i ∉ hidden) →
    (b.linkLoc l).Embeds f hidden (b'.linkLoc l)
  | .ident x, _ => by
    rw [Binding.linkLoc, Binding.linkLoc, h.lookupChain]
    cases b.scopes.lookupChain x.name with
    | none => exact h.resolution
    | some id => exact h.resolution.link x id
  | .access id l x, hl => by
    have hin := h.linkLoc (l := l) fun i hi => hl i (List.mem_append_left _ hi)
    rw [Binding.linkLoc, Binding.linkLoc, h.symbolAt? hl]
    cases b.symbolAt? (.access id l x) with
    | none => exact hin.setAccess id rfl
    | some field => exact (hin.link x field).setAccess id rfl

theorem afterUse (h : b.Embeds f hidden b') {l : Loc} (hl : ∀ i ∈ l.nodes, i ∉ hidden) :
    (b.afterUse l).Embeds f hidden (b'.afterUse l) := ⟨h.scopes, h.linkLoc hl⟩

/-! ## Declarations of names -/

theorem definition? (h : b.Embeds f hidden b') (name : String) :
    b'.definition? name = (b.definition? name).map f := by
  rw [Binding.definition?, h.lookupChain, Option.filter_map, Binding.definition?]
  congr 2
  funext id
  rw [Function.comp_apply, h.resolution.fieldsOf?, Option.isSome_map]

theorem typeKind? (h : b.Embeds f hidden b') (type : TypeName) :
    b'.typeKind? type = (b.typeKind? type).map (SymbolKind.renumber f) := by
  cases type with
  | tuple t =>
    rw [Binding.typeKind?, h.definition?, Option.map_map, Binding.typeKind?, Option.map_map]
    rfl
  | logical | integer | void => rfl

theorem typeFaults (h : b.Embeds f hidden b') (d : VarDecl) : b'.typeFaults d = b.typeFaults d := by
  rw [Binding.typeFaults, Binding.typeFaults]
  cases d.type with
  | tuple t =>
    dsimp only
    rw [h.definition?]
    cases b.definition? t.name <;> rfl
  | logical | integer | void => rfl

theorem linkType (h : b.Embeds f hidden b') (type : TypeName) :
    (b.linkType type).Embeds f hidden (b'.linkType type) := by
  cases type with
  | tuple t =>
    rw [Binding.linkType, Binding.linkType, h.definition?]
    cases b.definition? t.name with
    | none => exact h.resolution
    | some id => exact h.resolution.link t id
  | logical | integer | void => exact h.resolution

section Tables
variable (t : ScopeTable)

theorem accepts? (h : b.Embeds f hidden b') (d : VarDecl) :
    b'.accepts? (t.renumber f) d = (b.accepts? t d).map (SymbolKind.renumber f) := by
  rw [Binding.accepts?, ScopeTable.lookupLocal_renumber, Option.isSome_map, h.typeKind?, Binding.accepts?]
  split <;> rfl

theorem declFaults (h : b.Embeds f hidden b') (d : VarDecl) :
    b'.declFaults (t.renumber f) d = b.declFaults t d := by
  rw [Binding.declFaults, ScopeTable.lookupLocal_renumber, Option.isSome_map, h.typeFaults,
    Binding.declFaults]

theorem linkDecl (h : b.Embeds f hidden b') (d : VarDecl) :
    (b.linkDecl t d).Embeds f hidden (b'.linkDecl (t.renumber f) d) := by
  rw [Binding.linkDecl, Binding.linkDecl, h.accepts?, h.resolution.nextSymbol]
  cases b.accepts? t d with
  | none => exact h.linkType d.type
  | some kind => exact ((h.linkType d.type).alloc ⟨d.name.name, kind⟩).link d.name _

theorem tableAfter (h : b.Embeds f hidden b') (d : VarDecl) :
    b'.tableAfter (t.renumber f) d = (b.tableAfter t d).renumber f := by
  rw [Binding.tableAfter, h.accepts?, h.resolution.nextSymbol, Binding.tableAfter]
  cases b.accepts? t d with
  | none => rfl
  | some kind => exact (t.extend_renumber d.name.name _).symm

theorem afterField (h : b.Embeds f hidden b') (d : VarDecl) :
    (b.afterDecl t b.scopes d).Embeds f hidden (b'.afterDecl (t.renumber f) b'.scopes d) :=
  ⟨h.scopes, h.linkDecl t d⟩

end Tables

theorem afterVar (h : b.Embeds f hidden b') (d : VarDecl) :
    (b.afterVar d).Embeds f hidden (b'.afterVar d) := by
  rw [Binding.afterVar, Binding.afterVar, h.scopes]
  exact ⟨h.tableAfter b.scopes d, h.linkDecl b.scopes d⟩

end Embeds

namespace Embeds
variable {f : SymbolId → SymbolId} {hidden : List NodeId}

/-- Formals are accepted alike, declared alike, and have the same faults. -/
theorem formals : ∀ (ds : List VarDecl) {b b' : Binding}, b.Embeds f hidden b' →
    (ds.foldl Binding.afterVar b).Embeds f hidden (ds.foldl Binding.afterVar b') ∧
      b'.formalTypes ds = b.formalTypes ds ∧ b'.varsFaults ds = b.varsFaults ds
  | [], _, _, h => ⟨h, rfl, rfl⟩
  | d :: ds, b, b', h => by
    obtain ⟨hstate, htypes, hfaults⟩ := formals ds (h.afterVar d)
    refine ⟨hstate, ?_, ?_⟩
    · rw [Binding.formalTypes, htypes, h.scopes, h.accepts?, Option.map_map, Binding.formalTypes]
      rfl
    · rw [Binding.varsFaults, hfaults, h.scopes, h.declFaults, Binding.varsFaults]

/-- Fields are declared alike, in tables that correspond, and have the same faults. -/
theorem fields : ∀ (ds : List VarDecl) {b b' : Binding} (t : ScopeTable), b.Embeds f hidden b' →
    (b.afterFields t ds).Embeds f hidden (b'.afterFields (t.renumber f) ds) ∧
      b'.fieldsAfter (t.renumber f) ds = (b.fieldsAfter t ds).renumber f ∧
      b'.fieldsFaults (t.renumber f) ds = b.fieldsFaults t ds
  | [], _, _, _, h => ⟨h, rfl, rfl⟩
  | d :: ds, b, b', t, h => by
    obtain ⟨hstate, htable, hfaults⟩ := fields ds (b.tableAfter t d) (h.afterField t d)
    rw [← h.tableAfter] at hstate htable hfaults
    refine ⟨hstate, htable, ?_⟩
    rw [Binding.fieldsFaults, hfaults, h.declFaults, Binding.fieldsFaults]

variable {b b' : Binding}

/-! ## Functions and tuple types -/

theorem withSymbol (h : b.Embeds f hidden b') (x : Ident) (kind : SymbolKind) :
    (b.withSymbol x kind).Embeds f hidden (b'.withSymbol x (kind.renumber f)) := by
  rw [Binding.withSymbol, Binding.withSymbol, h.resolution.nextSymbol, h.scopes]
  exact ⟨(b.scopes.extend_renumber x.name _).symm, (h.resolution.alloc ⟨x.name, kind⟩).link x _⟩

theorem withMultiple (h : b.Embeds f hidden b') (x : Ident) :
    (b.withMultiple x).Embeds f hidden (b'.withMultiple x) := ⟨h.scopes, h.resolution⟩

theorem nameFaults (h : b.Embeds f hidden b') (x : Ident) : b'.nameFaults x = b.nameFaults x := by
  rw [Binding.nameFaults, h.lookupLocal_isSome, Binding.nameFaults]

theorem afterFunctionName (h : b.Embeds f hidden b') (d : FunctionDecl) :
    (b.afterFunctionName d).Embeds f hidden (b'.afterFunctionName d) := by
  rw [Binding.afterFunctionName, Binding.afterFunctionName, h.lookupLocal_isSome]
  split
  · exact h.withMultiple d.name
  · exact h.withSymbol d.name (.function d.result.ty [])

theorem inside (h : b.Embeds f hidden b') : b.inside.Embeds f hidden b'.inside :=
  ⟨congrArg ScopeTable.enter h.scopes, h.resolution⟩

theorem outside (h : b.Embeds f hidden b') : b.outside.Embeds f hidden b'.outside := by
  refine ⟨?_, h.resolution⟩
  rw [Binding.outside, h.scopes]
  exact congrArg (ScopeTable.mk _) List.map_tail.symm

theorem withParams (h : b.Embeds f hidden b') (id : SymbolId) (params : List Ty) :
    (b.withParams id params).Embeds f hidden (b'.withParams (f id) params) :=
  ⟨h.scopes, h.resolution.setParams id params⟩

theorem afterHeading (h : b.Embeds f hidden b') (d : FunctionDecl) :
    (b.afterHeading d).Embeds f hidden (b'.afterHeading d) := by
  obtain ⟨hstate, htypes, -⟩ := formals d.formals (h.afterFunctionName d).inside
  rw [Binding.afterHeading, Binding.afterHeading, h.lookupLocal_isSome, h.resolution.nextSymbol, htypes]
  split
  · exact hstate
  · exact hstate.withParams _ _

theorem atFields (h : b.Embeds f hidden b') (d : TupleDecl) :
    (b.atFields d).Embeds f hidden (b'.atFields d) := by
  rw [Binding.atFields, Binding.atFields, h.lookupLocal_isSome]
  split
  · exact h.withMultiple d.name
  · exact h

theorem afterTuple (h : b.Embeds f hidden b') (d : TupleDecl) :
    (b.afterTuple d).Embeds f hidden (b'.afterTuple d) := by
  rw [Binding.afterTuple, Binding.afterTuple, h.lookupLocal_isSome]
  split
  · exact (fields d.fields .empty (h.withMultiple d.name)).1
  · obtain ⟨hstate, htable, -⟩ := fields d.fields .empty h
    have hkind : SymbolKind.tupleDef (b'.fieldsAfter .empty d.fields) =
        (SymbolKind.tupleDef (b.fieldsAfter .empty d.fields)).renumber f := congrArg SymbolKind.tupleDef htable
    rw [hkind]
    exact hstate.withSymbol d.name _

/-! ## Steps -/

/-- After a step that is on no hidden node the one state still holds the other. -/
theorem after (h : b.Embeds f hidden b') {s : Step} (hs : ∀ i ∈ s.nodes, i ∉ hidden) :
    (b.after s).Embeds f hidden (b'.after s) := by
  cases s with
  | use _ l => exact h.afterUse hs
  | enter _ => exact h.inside
  | exit _ => exact h.outside
  | var _ d => exact h.afterVar d
  | heading _ d => exact h.afterHeading d
  | tuple _ d => exact h.afterTuple d

/-- A step that is on no hidden node reports the same in both states. -/
theorem faults (h : b.Embeds f hidden b') {s : Step} (hs : ∀ i ∈ s.nodes, i ∉ hidden) :
    b'.faults s = b.faults s := by
  cases s with
  | use _ l => exact h.locFaults hs
  | enter _ | exit _ => rfl
  | var _ d =>
    rw [Binding.faults, h.scopes, h.declFaults, Binding.faults]
  | heading _ d =>
    obtain ⟨-, -, hfaults⟩ := formals d.formals (h.afterFunctionName d).inside
    rw [Binding.faults, h.nameFaults, hfaults, Binding.faults]
  | tuple _ d =>
    obtain ⟨-, -, hfaults⟩ := fields d.fields .empty (h.atFields d)
    rw [Binding.faults, h.nameFaults, Binding.faults]
    exact congrArg _ hfaults

end Embeds

/-- After any number of steps on no hidden node the one state still holds the other, and
both have reported the same. -/
theorem Embeds.walk {f : SymbolId → SymbolId} {hidden : List NodeId} : ∀ (steps : List Step)
    {b b' : Binding}, b.Embeds f hidden b' → (∀ i ∈ steps.flatMap Step.nodes, i ∉ hidden) →
    (steps.foldl Binding.after b).Embeds f hidden (steps.foldl Binding.after b') ∧
      b'.found steps = b.found steps
  | [], _, _, h, _ => ⟨h, rfl⟩
  | s :: steps, b, b', h, hsteps => by
    rw [List.flatMap_cons] at hsteps
    have hs : ∀ i ∈ s.nodes, i ∉ hidden := fun i hi => hsteps i (List.mem_append_left _ hi)
    obtain ⟨hstate, hfound⟩ := Embeds.walk steps (h.after hs) fun i hi =>
      hsteps i (List.mem_append_right _ hi)
    refine ⟨hstate, ?_⟩
    rw [Binding.found, hfound, h.faults hs, Binding.found]

end Binding

end BaseLang
