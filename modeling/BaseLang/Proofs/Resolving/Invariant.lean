import BaseLang.Proofs.Resolving.Evolution

/-
  The invariant of the resolver.

  A resolution is sound when its symbols are of the kinds that declarations can make:
  a variable is a truth value or an integer, a tuple variable and its type know each
  other, the fields of a tuple type are variables made before it, and no type is an
  error. A state is sound when, besides, its scopes lead to symbols of the right names.

    1. `Binding.sound_start` — the state before the first step is sound;
    2. `Binding.Sound.after`, `Binding.Sound.walk` — every step keeps a state sound, and so
       does every list of steps;
    3. `Resolution.Sound.closed`, `Resolution.Sound.fieldOf?` — in a sound state a tuple
       variable has its tuple type, and a field has a symbol of its name.
-/

namespace BaseLang

def ScopeTable.levels (t : ScopeTable) : List Scope := t.nested ++ [t.outermost]

/-- A symbol that stands for a value, as that of a field does. -/
def Symbol.IsValue (s : Symbol) : Prop :=
  (∃ type, s.kind = .variable type) ∨ ∃ name definition, s.kind = .tupleInstance name definition

/-- A type that a declaration can write for a name that is no function. -/
def Ty.IsParam (type : Ty) : Prop := ∃ t : TypeName, t ≠ .void ∧ type = t.ty

/-- The fields of the tuple type of that number: names of values with smaller numbers. -/
structure ScopeTable.IsFields (t : ScopeTable) (r : Resolution) (bound : SymbolId) : Prop where
  flat : t.nested = []
  fields : ∀ e ∈ t.outermost, e.2 < bound ∧ ∃ s, r.symbol? e.2 = some s ∧ s.name = e.1 ∧ s.IsValue

/-- A kind of symbol that a declaration can make under that number. -/
def SymbolKind.SoundIn (r : Resolution) (id : SymbolId) : SymbolKind → Prop
  | .variable type => type = .logical ∨ type = .integer
  | .function result params => (∃ t : TypeName, result = t.ty) ∧ ∀ type ∈ params, type.IsParam
  | .tupleInstance name definition =>
    definition < id ∧ ∃ s fields, r.symbol? definition = some s ∧ s.name = name ∧ s.kind = .tupleDef fields
  | .tupleDef fields => fields.IsFields r id

/-- The symbols are of kinds that declarations can make, and links lead to symbols. -/
structure Resolution.Sound (r : Resolution) : Prop where
  symbols : ∀ id s, r.symbol? id = some s → s.kind.SoundIn r id
  links : ∀ i id, r.links.find? i = some id → ∃ s, r.symbol? id = some s

/-- The names in the scopes lead to symbols of those names. -/
def ScopeTable.Leads (t : ScopeTable) (r : Resolution) : Prop :=
  ∀ scope ∈ t.levels, ∀ e ∈ scope, ∃ s, r.symbol? e.2 = some s ∧ s.name = e.1

/-- A state in which the resolver can be. -/
structure Binding.Sound (b : Binding) : Prop where
  resolution : b.resolution.Sound
  scopes : b.scopes.Leads b.resolution

/-! ## Scope tables -/

namespace ScopeTable
variable {t : ScopeTable} {r r' : Resolution}

theorem mem_of_lookup {scope : Scope} {name : String} {id : SymbolId}
    (h : scope.lookup name = some id) : (name, id) ∈ scope := by
  obtain ⟨pre, post, rfl, _⟩ := List.lookup_eq_some_iff.1 h
  exact List.mem_append_right _ List.mem_cons_self

theorem lookupChain_eq (t : ScopeTable) (name : String) :
    t.lookupChain name = t.levels.findSome? (·.lookup name) := rfl

theorem Leads.lookupChain (h : t.Leads r) {name : String} {id : SymbolId}
    (hl : t.lookupChain name = some id) : ∃ s, r.symbol? id = some s ∧ s.name = name := by
  obtain ⟨scope, hscope, hfound⟩ := List.exists_of_findSome?_eq_some hl
  exact h scope hscope _ (mem_of_lookup hfound)

theorem Leads.grows (h : t.Leads r) (hr : r.Grows r') : t.Leads r' := by
  intro scope hscope e he
  obtain ⟨s, hs, hn⟩ := h scope hscope e he
  obtain ⟨s', hs', hn'⟩ := hr.name hs
  exact ⟨s', hs', hn'.trans hn⟩

theorem levels_extend (t : ScopeTable) (name : String) (id : SymbolId) :
    (t.extend name id).levels = ((name, id) :: t.innermost) :: t.levels.tail := by
  obtain ⟨outermost, nested⟩ := t
  cases nested <;> rfl

theorem innermost_mem_levels (t : ScopeTable) : t.innermost ∈ t.levels := by
  obtain ⟨outermost, nested⟩ := t
  cases nested with
  | nil => exact List.mem_singleton_self _
  | cons scope nested => exact List.mem_cons_self

theorem Leads.extend (h : t.Leads r) {name : String} {id : SymbolId} {s : Symbol}
    (hs : r.symbol? id = some s) (hn : s.name = name) : (t.extend name id).Leads r := by
  intro scope hscope e he
  rw [levels_extend, List.mem_cons] at hscope
  rcases hscope with rfl | hscope
  · rcases List.mem_cons.1 he with rfl | he
    · exact ⟨s, hs, hn⟩
    · exact h _ t.innermost_mem_levels e he
  · exact h scope (List.mem_of_mem_tail hscope) e he

theorem Leads.enter (h : t.Leads r) : t.enter.Leads r := by
  intro scope hscope e he
  rcases List.mem_cons.1 hscope with rfl | hscope
  · cases he
  · exact h scope hscope e he

theorem Leads.outside (h : t.Leads r) : ({ t with nested := t.nested.tail } : ScopeTable).Leads r := by
  intro scope hscope
  refine h scope ?_
  rcases List.mem_append.1 hscope with hin | hout
  · exact List.mem_append_left _ (List.mem_of_mem_tail hin)
  · exact List.mem_append_right _ hout

theorem isFields_empty (r : Resolution) (bound : SymbolId) : empty.IsFields r bound :=
  ⟨rfl, fun e he => by cases he⟩

theorem IsFields.grows {bound bound' : SymbolId} (h : t.IsFields r bound) (hr : r.Grows r')
    (hbound : bound ≤ bound') : t.IsFields r' bound' := by
  refine ⟨h.flat, ?_⟩
  intro e he
  obtain ⟨hlt, s, hs, hn, hv⟩ := h.fields e he
  refine ⟨Nat.lt_of_lt_of_le hlt hbound, s, hr.symbol hs ?_, hn, hv⟩
  intro result params hk
  rcases hv with ⟨type, h'⟩ | ⟨name, definition, h'⟩ <;> rw [hk] at h' <;> cases h'

theorem IsFields.extend {bound : SymbolId} (h : t.IsFields r bound) {name : String} {id : SymbolId}
    {s : Symbol} (hid : id < bound) (hs : r.symbol? id = some s) (hn : s.name = name)
    (hv : s.IsValue) : (t.extend name id).IsFields r bound := by
  obtain ⟨outermost, nested⟩ := t
  obtain ⟨rfl, hfields⟩ := h
  refine ⟨rfl, ?_⟩
  intro e he
  rcases List.mem_cons.1 he with rfl | he
  · exact ⟨hid, s, hs, hn, hv⟩
  · exact hfields e he

end ScopeTable

/-! ## Resolutions -/

theorem SymbolKind.SoundIn.grows {r r' : Resolution} {id : SymbolId} {kind : SymbolKind}
    (h : kind.SoundIn r id) (hr : r.Grows r') : kind.SoundIn r' id := by
  cases kind with
  | «variable» _ | function _ _ => exact h
  | tupleInstance name definition =>
    obtain ⟨hlt, s, fields, hs, hn, hk⟩ := h
    exact ⟨hlt, s, fields, hr.symbol hs (by rw [hk]; nofun), hn, hk⟩
  | tupleDef fields => exact ScopeTable.IsFields.grows h hr (Nat.le_refl _)

namespace Resolution
variable {r : Resolution}

theorem Sound.link (h : r.Sound) (x : Ident) {id : SymbolId} (hid : ∃ s, r.symbol? id = some s) :
    (r.link x id).Sound := by
  refine ⟨fun i s hs => (h.symbols i s hs).grows (.of_symbols_eq rfl), ?_⟩
  intro i j hj
  change (r.links.insert x.id id).find? i = some j at hj
  rw [NodeMap.find?_insert] at hj
  split at hj
  · cases hj
    exact hid
  · exact h.links i j hj

theorem Sound.setAccess (h : r.Sound) (access : NodeId) (outcome : AccessLink) :
    (r.setAccess access outcome).Sound :=
  ⟨fun i s hs => (h.symbols i s hs).grows (.of_symbols_eq rfl), h.links⟩

theorem Sound.alloc (h : r.Sound) {s : Symbol} (hs : s.kind.SoundIn r r.nextSymbol) :
    (r.alloc s).Sound := by
  refine ⟨?_, ?_⟩
  · intro id s' hs'
    rw [symbol?_alloc] at hs'
    split at hs'
    · next hid =>
      cases hs'
      rw [hid]
      exact hs.grows (.alloc r s)
    · exact (h.symbols id s' hs').grows (.alloc r s)
  · intro i id hid
    obtain ⟨s', hs'⟩ := h.links i id hid
    obtain ⟨_, h', _⟩ := (Grows.alloc r s).name hs'
    exact ⟨_, h'⟩

theorem Sound.setParams (h : r.Sound) (i : SymbolId) {params : List Ty}
    (hparams : ∀ type ∈ params, type.IsParam) : (r.setParams i params).Sound := by
  refine ⟨?_, ?_⟩
  · intro id s hs
    rw [symbol?_setParams] at hs
    split at hs
    · obtain ⟨s', hs', rfl⟩ := Option.map_eq_some_iff.1 hs
      have hsound := (h.symbols id s' hs').grows (.setParams r i params)
      obtain ⟨name, kind⟩ := s'
      cases kind with
      | function result _ => exact ⟨hsound.1, hparams⟩
      | «variable» _ | tupleInstance _ _ | tupleDef _ => exact hsound
    · exact (h.symbols id s hs).grows (.setParams r i params)
  · intro j id hid
    obtain ⟨s', hs'⟩ := h.links j id hid
    obtain ⟨_, h', _⟩ := (Grows.setParams r i params).name hs'
    exact ⟨_, h'⟩

/-- The type of a tuple variable is a tuple type of the name it was declared with. -/
theorem Sound.definition (h : r.Sound) {id definition : SymbolId} {s : Symbol} {name : String}
    (hs : r.symbol? id = some s) (hk : s.kind = .tupleInstance name definition) :
    definition < id ∧ ∃ t fields, r.symbol? definition = some t ∧ t.name = name ∧ t.kind = .tupleDef fields := by
  have hsound := h.symbols id s hs
  rwa [hk] at hsound

theorem Sound.closed (h : r.Sound) : r.Closed := by
  intro id definition hd
  obtain ⟨s, name, hs, hk⟩ := tupleOf?_eq_some_iff.1 hd
  obtain ⟨-, t, fields, ht, -, hkt⟩ := h.definition hs hk
  exact ⟨fields, fieldsOf?_eq_some_iff.2 ⟨t, ht, hkt⟩⟩

/-- The fields of a tuple type are values of their names, made before it. -/
theorem Sound.fields (h : r.Sound) {id : SymbolId} {s : Symbol} {fields : ScopeTable}
    (hs : r.symbol? id = some s) (hk : s.kind = .tupleDef fields) :
    ∀ scope ∈ fields.levels, ∀ e ∈ scope,
      e.2 < id ∧ ∃ f, r.symbol? e.2 = some f ∧ f.name = e.1 ∧ f.IsValue := by
  intro scope hscope e he
  have hsound := h.symbols id s hs
  rw [hk] at hsound
  rw [ScopeTable.levels, ScopeTable.IsFields.flat hsound, List.nil_append, List.mem_singleton] at hscope
  exact ScopeTable.IsFields.fields hsound e (hscope ▸ he)

/-- A field is a value of the name by which it was found. -/
theorem Sound.fieldOf? (h : r.Sound) {definition id : SymbolId} {name : String}
    (hf : r.fieldOf? definition name = some id) :
    id < definition ∧ ∃ s, r.symbol? id = some s ∧ s.name = name ∧ s.IsValue := by
  obtain ⟨fields, hfields, hlook⟩ := Option.bind_eq_some_iff.1 hf
  obtain ⟨s, hs, hk⟩ := fieldsOf?_eq_some_iff.1 hfields
  obtain ⟨scope, hscope, hfound⟩ := List.exists_of_findSome?_eq_some hlook
  exact h.fields hs hk scope hscope _ (ScopeTable.mem_of_lookup hfound)

end Resolution

/-! ## Steps -/

namespace Binding
variable {b : Binding}

theorem Sound.lookupChain (h : b.Sound) {name : String} {id : SymbolId}
    (hl : b.scopes.lookupChain name = some id) : ∃ s, b.resolution.symbol? id = some s ∧ s.name = name :=
  h.scopes.lookupChain hl

/-- A location before a colon leads to a symbol that exists. -/
theorem Sound.symbolAt? (h : b.Sound) {l : Loc} {id : SymbolId} (hat : b.symbolAt? l = some id) :
    ∃ s, b.resolution.symbol? id = some s := by
  cases l with
  | ident x =>
    rcases Option.or_eq_some_iff.1 hat with hl | ⟨-, hl⟩
    · obtain ⟨s, hs, -⟩ := h.lookupChain hl
      exact ⟨s, hs⟩
    · exact h.resolution.links _ _ hl
  | access i l f =>
    obtain ⟨j, -, hj⟩ := Option.bind_eq_some_iff.1 hat
    obtain ⟨definition, -, hf⟩ := Option.bind_eq_some_iff.1 hj
    obtain ⟨-, s, hs, -⟩ := h.resolution.fieldOf? hf
    exact ⟨s, hs⟩

theorem Sound.linkLoc (h : b.Sound) (l : Loc) : (b.linkLoc l).Sound := by
  induction l with
  | ident x =>
    rw [Binding.linkLoc]
    split
    · next id hl =>
      obtain ⟨s, hs, -⟩ := h.lookupChain hl
      exact h.resolution.link x ⟨s, hs⟩
    · exact h.resolution
  | access id l f ih =>
    rw [Binding.linkLoc]
    split
    · next field hat =>
      obtain ⟨s, hs⟩ := h.symbolAt? hat
      exact (ih.link f ⟨s, (Binder.symbol?_linkLoc l field).trans hs⟩).setAccess _ _
    · exact ih.setAccess _ _

theorem Sound.afterUse (h : b.Sound) (l : Loc) : (b.afterUse l).Sound :=
  ⟨h.linkLoc l, h.scopes.grows (.of_symbols_eq (Binder.symbols_linkLoc l))⟩

/-- A name that stands for a tuple type leads to a symbol of that name. -/
theorem Sound.definition? (h : b.Sound) {name : String} {id : SymbolId}
    (hd : b.definition? name = some id) :
    ∃ s fields, b.resolution.symbol? id = some s ∧ s.name = name ∧ s.kind = .tupleDef fields := by
  obtain ⟨hl, hf⟩ := Option.filter_eq_some_iff.1 hd
  obtain ⟨s, hs, hn⟩ := h.lookupChain hl
  obtain ⟨fields, hfields⟩ := Option.isSome_iff_exists.1 hf
  obtain ⟨s', hs', hk⟩ := Resolution.fieldsOf?_eq_some_iff.1 hfields
  rw [hs] at hs'
  cases hs'
  exact ⟨s, fields, hs, hn, hk⟩

/-- A declaration makes a value. -/
theorem isValue_of_typeKind? {type : TypeName} {kind : SymbolKind} (h : b.typeKind? type = some kind)
    (name : String) : (Symbol.mk name kind).IsValue := by
  cases type with
  | void => cases h
  | logical | integer =>
    cases h
    exact .inl ⟨_, rfl⟩
  | tuple t =>
    obtain ⟨id, -, rfl⟩ := Option.map_eq_some_iff.1 h
    exact .inr ⟨_, _, rfl⟩

/-- It is of a kind that the resolution allows for the next symbol. -/
theorem Sound.typeKind? (h : b.Sound) {type : TypeName} {kind : SymbolKind}
    (hk : b.typeKind? type = some kind) : kind.SoundIn b.resolution b.resolution.nextSymbol := by
  cases type with
  | void => cases hk
  | logical =>
    cases hk
    exact .inl rfl
  | integer =>
    cases hk
    exact .inr rfl
  | tuple t =>
    obtain ⟨id, hd, rfl⟩ := Option.map_eq_some_iff.1 hk
    obtain ⟨s, fields, hs, hn, hkind⟩ := h.definition? hd
    exact ⟨Resolution.symbol?_lt hs, s, fields, hs, hn, hkind⟩

theorem Sound.linkType (h : b.Sound) (type : TypeName) : (b.linkType type).Sound := by
  cases type with
  | tuple t =>
    rw [Binding.linkType]
    split
    · next id hd =>
      obtain ⟨s, _, hs, -⟩ := h.definition? hd
      exact h.resolution.link t ⟨s, hs⟩
    · exact h.resolution
  | logical | integer | void => exact h.resolution

theorem accepts?_eq_some {t : ScopeTable} {d : VarDecl} {kind : SymbolKind}
    (h : b.accepts? t d = some kind) : b.typeKind? d.type = some kind := by
  rw [Binding.accepts?] at h
  split at h
  · cases h
  · exact h

theorem nextSymbol_linkType (b : Binding) (type : TypeName) :
    (b.linkType type).nextSymbol = b.resolution.nextSymbol := by
  rw [Resolution.nextSymbol, Binder.symbols_linkType]
  rfl

/-- The symbol of an accepted declaration is the next one. -/
theorem symbol?_linkDecl {t : ScopeTable} {d : VarDecl} {kind : SymbolKind}
    (h : b.accepts? t d = some kind) :
    (b.linkDecl t d).symbol? b.resolution.nextSymbol = some ⟨d.name.name, kind⟩ := by
  rw [Binding.linkDecl, h]
  show ((b.linkType d.type).alloc ⟨d.name.name, kind⟩).symbol? b.resolution.nextSymbol = _
  rw [Resolution.symbol?_alloc, nextSymbol_linkType, if_pos rfl]

/-- A declaration makes no symbol but that of a value. -/
theorem symbol?_of_linkDecl {t : ScopeTable} {d : VarDecl} {id : SymbolId} {s : Symbol}
    (hs : (b.linkDecl t d).symbol? id = some s) : b.resolution.symbol? id = some s ∨ s.IsValue := by
  have htype : (b.linkType d.type).symbol? id = b.resolution.symbol? id := Binder.symbol?_linkType d.type id
  cases haccepts : b.accepts? t d with
  | none =>
    rw [Binding.linkDecl, haccepts] at hs
    exact .inl (htype.symm.trans hs)
  | some kind =>
    rw [Binding.linkDecl, haccepts] at hs
    change ((b.linkType d.type).alloc ⟨d.name.name, kind⟩).symbol? id = some s at hs
    rw [Resolution.symbol?_alloc] at hs
    split at hs
    · cases hs
      exact .inr (isValue_of_typeKind? (accepts?_eq_some haccepts) d.name.name)
    · exact .inl (htype.symm.trans hs)

/-- Its name stands for that symbol. -/
theorem linkOf_linkDecl {t : ScopeTable} {d : VarDecl} {kind : SymbolKind}
    (h : b.accepts? t d = some kind) : (b.linkDecl t d).linkOf d.name = some b.resolution.nextSymbol := by
  rw [Binding.linkDecl, h]
  exact Resolution.linkOf_link_self _ _ _

theorem nextSymbol_linkDecl (b : Binding) (t : ScopeTable) (d : VarDecl) :
    (b.linkDecl t d).nextSymbol = b.resolution.nextSymbol + (b.accepts? t d).toList.length := by
  rw [Binding.linkDecl]
  cases b.accepts? t d with
  | none => exact b.nextSymbol_linkType d.type
  | some kind =>
    show ((b.linkType d.type).symbols.push _).size = _
    rw [Array.size_push, Binder.symbols_linkType]
    rfl

theorem Sound.linkDecl (h : b.Sound) (t : ScopeTable) (d : VarDecl) : (b.linkDecl t d).Sound := by
  cases haccepts : b.accepts? t d with
  | none =>
    rw [Binding.linkDecl, haccepts]
    exact h.linkType d.type
  | some kind =>
    have hkind := h.typeKind? (accepts?_eq_some haccepts)
    have hnew := symbol?_linkDecl haccepts
    rw [Binding.linkDecl, haccepts] at hnew ⊢
    refine ((h.linkType d.type).alloc ?_).link d.name ⟨_, hnew⟩
    rw [nextSymbol_linkType]
    exact hkind.grows (.of_symbols_eq (Binder.symbols_linkType d.type))

theorem Sound.afterVar (h : b.Sound) (d : VarDecl) : (b.afterVar d).Sound := by
  have hscopes := h.scopes.grows (b.evolves_var d).symbols
  refine ⟨h.linkDecl b.scopes d, ?_⟩
  show (b.tableAfter b.scopes d).Leads (b.linkDecl b.scopes d)
  rw [Binding.tableAfter]
  split
  · next kind haccepts => exact ScopeTable.Leads.extend hscopes (symbol?_linkDecl haccepts) rfl
  · exact hscopes

theorem Sound.afterField (h : b.Sound) (t : ScopeTable) (d : VarDecl) :
    (b.afterDecl t b.scopes d).Sound :=
  ⟨h.linkDecl t d, h.scopes.grows (b.evolves_decl t b.scopes d).symbols⟩

/-- A table of fields remains one, with numbers below the next symbol. -/
theorem isFields_tableAfter {t : ScopeTable}
    (ht : t.IsFields b.resolution b.resolution.nextSymbol) (d : VarDecl) :
    (b.tableAfter t d).IsFields (b.linkDecl t d) (b.linkDecl t d).nextSymbol := by
  have hgrows : b.resolution.Grows (b.linkDecl t d) := (b.evolves_decl t b.scopes d).symbols
  have hnext := b.nextSymbol_linkDecl t d
  have hold := ht.grows hgrows (Nat.le.intro hnext.symm)
  rw [Binding.tableAfter]
  split
  · next kind haccepts =>
    have hvalue := isValue_of_typeKind? (accepts?_eq_some haccepts) d.name.name
    rw [haccepts] at hnext
    exact hold.extend (by rw [hnext]; exact Nat.lt_succ_self _) (symbol?_linkDecl haccepts) rfl hvalue
  · exact hold

end Binding

namespace Binding

theorem Sound.formals : ∀ (ds : List VarDecl) {b : Binding}, b.Sound → (ds.foldl Binding.afterVar b).Sound
  | [], _, h => h
  | d :: ds, _, h => Sound.formals ds (h.afterVar d)

theorem Sound.afterFields : ∀ (ds : List VarDecl) {b : Binding} {t : ScopeTable}, b.Sound →
    t.IsFields b.resolution b.resolution.nextSymbol →
    (b.afterFields t ds).Sound ∧
      (b.fieldsAfter t ds).IsFields (b.afterFields t ds).resolution
        (b.afterFields t ds).resolution.nextSymbol
  | [], _, _, h, ht => ⟨h, ht⟩
  | d :: ds, _, t, h, ht => Sound.afterFields ds (h.afterField t d) (isFields_tableAfter ht d)

theorem isParam_formalTypes : ∀ (ds : List VarDecl) (b : Binding), ∀ type ∈ b.formalTypes ds, type.IsParam
  | [], _, _, h => by cases h
  | d :: ds, b, type, h => by
    rw [Binding.formalTypes, List.mem_append] at h
    rcases h with h | h
    · obtain ⟨kind, haccepts, rfl⟩ := Option.map_eq_some_iff.1 (Option.mem_toList.1 h)
      have hkind := accepts?_eq_some haccepts
      refine ⟨d.type, ?_, rfl⟩
      intro hvoid
      rw [hvoid] at hkind
      cases hkind
    · exact isParam_formalTypes ds _ type h

variable {b : Binding}

theorem Sound.withSymbol (h : b.Sound) (x : Ident) {kind : SymbolKind}
    (hk : kind.SoundIn b.resolution b.resolution.nextSymbol) : (b.withSymbol x kind).Sound := by
  have hnew := b.resolution.symbol?_alloc_self ⟨x.name, kind⟩
  refine ⟨(h.resolution.alloc hk).link x ⟨_, hnew⟩, ?_⟩
  exact (h.scopes.grows (b.evolves_withSymbol x kind).symbols).extend hnew rfl

theorem Sound.withMultiple (h : b.Sound) (x : Ident) : (b.withMultiple x).Sound :=
  ⟨h.resolution, h.scopes⟩

theorem Sound.afterFunctionName (h : b.Sound) (d : FunctionDecl) : (b.afterFunctionName d).Sound := by
  rw [Binding.afterFunctionName]
  split
  · exact h.withMultiple d.name
  · exact h.withSymbol d.name ⟨⟨d.result, rfl⟩, fun _ ht => by cases ht⟩

theorem Sound.inside (h : b.Sound) : b.inside.Sound := ⟨h.resolution, h.scopes.enter⟩

theorem Sound.outside (h : b.Sound) : b.outside.Sound := ⟨h.resolution, h.scopes.outside⟩

theorem Sound.withParams (h : b.Sound) (id : SymbolId) {params : List Ty}
    (hparams : ∀ type ∈ params, type.IsParam) : (b.withParams id params).Sound :=
  ⟨h.resolution.setParams id hparams, h.scopes.grows (b.evolves_withParams id params).symbols⟩

theorem Sound.afterHeading (h : b.Sound) (d : FunctionDecl) : (b.afterHeading d).Sound := by
  have hformals := Sound.formals d.formals (h.afterFunctionName d).inside
  rw [Binding.afterHeading]
  split
  · exact hformals
  · exact hformals.withParams _ (isParam_formalTypes _ _)

theorem Sound.afterTuple (h : b.Sound) (d : TupleDecl) : (b.afterTuple d).Sound := by
  rw [Binding.afterTuple]
  split
  · exact (Sound.afterFields d.fields (h.withMultiple d.name) (ScopeTable.isFields_empty _ _)).1
  · obtain ⟨hstate, hfields⟩ := Sound.afterFields d.fields h (ScopeTable.isFields_empty _ _)
    exact hstate.withSymbol d.name hfields

/-- Every step keeps the state sound. -/
theorem Sound.after (h : b.Sound) (s : Step) : (b.after s).Sound := by
  cases s with
  | use _ l => exact h.afterUse l
  | enter _ => exact h.inside
  | exit _ => exact h.outside
  | var _ d => exact h.afterVar d
  | heading _ d => exact h.afterHeading d
  | tuple _ d => exact h.afterTuple d

theorem Sound.walk : ∀ (steps : List Step) {b : Binding}, b.Sound → (steps.foldl Binding.after b).Sound
  | [], _, h => h
  | s :: steps, _, h => Sound.walk steps (h.after s)

theorem sound_start : Binding.start.Sound := by
  refine ⟨⟨?_, ?_⟩, ?_⟩
  · intro id s hs
    cases hs
  · intro i id hid
    cases hid
  · intro scope hscope e he
    rw [List.mem_singleton.1 hscope] at he
    cases he

end Binding

end BaseLang
