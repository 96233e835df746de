import BaseLang.Proofs.Resolving.States

/-
  What the resolver leaves alone.

  From one state to the next symbols are added, and the parameters of a function may
  be filled in, but no symbol changes its name or its kind otherwise. Only the nodes of
  the steps performed are linked, and diagnostics are only added at the end:

    1. `Binding.Evolves` — a state after another, with the nodes touched in between;
    2. `evolves_after`, `evolves_walk` — every step and every list of steps evolves the
       state, touching its own nodes only.
-/

namespace BaseLang

/-! ## Symbols -/

namespace Symbol

theorem withParams_withParams (s : Symbol) (ts us : List Ty) :
    (s.withParams ts).withParams us = s.withParams us := by
  obtain ⟨name, kind⟩ := s
  cases kind <;> rfl

theorem exists_withParams_eq (s : Symbol) : ∃ params, s.withParams params = s := by
  obtain ⟨name, kind⟩ := s
  cases kind with
  | function result params => exact ⟨params, rfl⟩
  | «variable» _ | tupleInstance _ _ | tupleDef _ => exact ⟨[], rfl⟩

@[simp] theorem name_withParams (s : Symbol) (params : List Ty) : (s.withParams params).name = s.name := by
  obtain ⟨name, kind⟩ := s
  cases kind <;> rfl

/-- A symbol that is no function is not changed. -/
theorem withParams_of_kind {s : Symbol} (h : ∀ result ts, s.kind ≠ .function result ts)
    (params : List Ty) : s.withParams params = s := by
  obtain ⟨name, kind⟩ := s
  cases kind with
  | function result ts => exact absurd rfl (h result ts)
  | «variable» _ | tupleInstance _ _ | tupleDef _ => rfl

end Symbol

namespace Resolution
variable {r r' r'' : Resolution}

/-- The later resolution has the symbols of the earlier one, up to parameters. -/
def Grows (r r' : Resolution) : Prop :=
  ∀ id s, r.symbol? id = some s → ∃ params, r'.symbol? id = some (s.withParams params)

theorem Grows.of_symbols_eq (h : r'.symbols = r.symbols) : Grows r r' := by
  intro id s hs
  obtain ⟨params, hsame⟩ := s.exists_withParams_eq
  exact ⟨params, by rw [hsame, ← hs, symbol?, symbol?, h]⟩

theorem Grows.trans (h : Grows r r') (h' : Grows r' r'') : Grows r r'' := by
  intro id s hs
  obtain ⟨ts, ht⟩ := h id s hs
  obtain ⟨us, hu⟩ := h' id _ ht
  exact ⟨us, by rw [hu, s.withParams_withParams]⟩

theorem symbol?_lt {id : SymbolId} {s : Symbol} (h : r.symbol? id = some s) : id < r.nextSymbol :=
  (Array.getElem?_eq_some_iff.1 h).1

theorem symbol?_alloc (r : Resolution) (s : Symbol) (id : SymbolId) :
    (r.alloc s).symbol? id = if id = r.nextSymbol then some s else r.symbol? id :=
  Array.getElem?_push

/-- A symbol that is made is found under the number it was given. -/
theorem symbol?_alloc_self (r : Resolution) (s : Symbol) : (r.alloc s).symbol? r.nextSymbol = some s :=
  (symbol?_alloc r s _).trans (if_pos rfl)

theorem Grows.alloc (r : Resolution) (s : Symbol) : Grows r (r.alloc s) := by
  intro id s' hs
  obtain ⟨params, hsame⟩ := s'.exists_withParams_eq
  refine ⟨params, ?_⟩
  rw [hsame, symbol?_alloc, if_neg (Nat.ne_of_lt (symbol?_lt hs)), hs]

theorem symbol?_setParams (r : Resolution) (i : SymbolId) (params : List Ty) (id : SymbolId) :
    (r.setParams i params).symbol? id =
      if i = id then (r.symbol? id).map (·.withParams params) else r.symbol? id := by
  simp only [symbol?, setParams, Array.getElem?_modify]

theorem Grows.setParams (r : Resolution) (i : SymbolId) (params : List Ty) :
    Grows r (r.setParams i params) := by
  intro id s hs
  rw [symbol?_setParams, hs]
  by_cases h : i = id
  · exact ⟨params, by rw [if_pos h]; rfl⟩
  · obtain ⟨ts, hsame⟩ := s.exists_withParams_eq
    exact ⟨ts, by rw [if_neg h, hsame]⟩

theorem Grows.name {id : SymbolId} {s : Symbol} (h : Grows r r') (hs : r.symbol? id = some s) :
    ∃ s', r'.symbol? id = some s' ∧ s'.name = s.name := by
  obtain ⟨params, h'⟩ := h id s hs
  exact ⟨_, h', s.name_withParams params⟩

/-- A symbol that is no function stays as it is. -/
theorem Grows.symbol {id : SymbolId} {s : Symbol} (h : Grows r r') (hs : r.symbol? id = some s)
    (hk : ∀ result ts, s.kind ≠ .function result ts) : r'.symbol? id = some s := by
  obtain ⟨params, h'⟩ := h id s hs
  rw [h', Symbol.withParams_of_kind hk]

end Resolution

/-! ## States -/

namespace Binding
variable {b b' b'' : Binding}

/-- The later state comes from the earlier one, and only these nodes have been touched. -/
structure Evolves (nodes : List NodeId) (b b' : Binding) : Prop where
  symbols : b.resolution.Grows b'.resolution
  links : ∀ i ∉ nodes, b'.resolution.links.find? i = b.resolution.links.find? i
  accesses : ∀ i ∉ nodes, b'.resolution.accesses.find? i = b.resolution.accesses.find? i
  diagnostics : ∃ found, b'.diagnostics = b.diagnostics ++ found

namespace Evolves
variable {ns ms : List NodeId}

theorem refl (b : Binding) : Evolves ns b b :=
  ⟨.of_symbols_eq rfl, fun _ _ => rfl, fun _ _ => rfl, [], (List.append_nil _).symm⟩

theorem trans (h : Evolves ns b b') (h' : Evolves ms b' b'') : Evolves (ns ++ ms) b b'' := by
  refine ⟨h.symbols.trans h'.symbols, ?_, ?_, ?_⟩
  · intro i hi
    rw [List.mem_append, not_or] at hi
    rw [h'.links i hi.2, h.links i hi.1]
  · intro i hi
    rw [List.mem_append, not_or] at hi
    rw [h'.accesses i hi.2, h.accesses i hi.1]
  · obtain ⟨found, hf⟩ := h.diagnostics
    obtain ⟨more, hm⟩ := h'.diagnostics
    exact ⟨found ++ more, by rw [hm, hf, List.append_assoc]⟩

theorem mono (hns : ∀ i ∈ ns, i ∈ ms) (h : Evolves ns b b') : Evolves ms b b' :=
  ⟨h.symbols, fun i hi => h.links i fun hm => hi (hns i hm),
    fun i hi => h.accesses i fun hm => hi (hns i hm), h.diagnostics⟩

/-- What touches nothing can be added anywhere. -/
theorem free (h : Evolves [] b b') : Evolves ns b b' := h.mono fun _ hi => by cases hi

theorem then_free (h : Evolves ns b b') (h' : Evolves [] b' b'') : Evolves ns b b'' :=
  (h.trans h').mono fun _ hi => by rwa [List.append_nil] at hi

end Evolves

/-! ## Nodes that are linked -/

end Binding

namespace Resolution

theorem links_link (r : Resolution) (x : Ident) (id : SymbolId) {i : NodeId} (h : i ≠ x.id) :
    (r.link x id).links.find? i = r.links.find? i := by
  rw [link, NodeMap.find?_insert, if_neg h]

theorem linkOf_link (r : Resolution) (x y : Ident) (id : SymbolId) :
    (r.link x id).linkOf y = if y.id = x.id then some id else r.linkOf y :=
  NodeMap.find?_insert _ _ _ _

/-- An identifier stands for what it was last linked to. -/
theorem linkOf_link_self (r : Resolution) (x : Ident) (id : SymbolId) : (r.link x id).linkOf x = some id :=
  (linkOf_link r x x id).trans (if_pos rfl)

theorem access_setAccess (r : Resolution) (i j : NodeId) (outcome : AccessLink) :
    (r.setAccess i outcome).access j = if j = i then some outcome else r.access j :=
  NodeMap.find?_insert _ _ _ _

theorem access_setAccess_self (r : Resolution) (i : NodeId) (outcome : AccessLink) :
    (r.setAccess i outcome).access i = some outcome :=
  (access_setAccess r i i outcome).trans (if_pos rfl)

theorem accesses_setAccess (r : Resolution) (access : NodeId) (outcome : AccessLink) {i : NodeId}
    (h : i ≠ access) : (r.setAccess access outcome).accesses.find? i = r.accesses.find? i := by
  rw [setAccess, NodeMap.find?_insert, if_neg h]

end Resolution

namespace Binding
variable (b : Binding)

theorem links_linkLoc (l : Loc) {i : NodeId} (h : i ∉ l.nodes) :
    (b.linkLoc l).links.find? i = b.resolution.links.find? i := by
  induction l with
  | ident x =>
    rw [linkLoc]
    split
    · exact Resolution.links_link _ _ _ fun hi => h (List.mem_singleton.2 hi)
    · rfl
  | access id l f ih =>
    simp only [Loc.nodes, List.mem_append, List.mem_cons, List.not_mem_nil, or_false, not_or] at h
    rw [linkLoc]
    split
    · exact (Resolution.links_link _ _ _ h.2.2).trans (ih h.1)
    · exact ih h.1

theorem accesses_linkLoc (l : Loc) {i : NodeId} (h : i ∉ l.nodes) :
    (b.linkLoc l).accesses.find? i = b.resolution.accesses.find? i := by
  induction l with
  | ident x =>
    rw [linkLoc]
    split <;> rfl
  | access id l f ih =>
    simp only [Loc.nodes, List.mem_append, List.mem_cons, List.not_mem_nil, or_false, not_or] at h
    rw [linkLoc]
    split <;> exact (Resolution.accesses_setAccess _ _ _ h.2.1).trans (ih h.1)

theorem evolves_use (l : Loc) : Evolves l.nodes b (b.afterUse l) :=
  ⟨.of_symbols_eq (Binder.symbols_linkLoc l), fun _ h => b.links_linkLoc l h,
    fun _ h => b.accesses_linkLoc l h, _, rfl⟩

theorem links_linkType (type : TypeName) {i : NodeId} (h : i ∉ type.nodes) :
    (b.linkType type).links.find? i = b.resolution.links.find? i := by
  cases type with
  | tuple t =>
    rw [linkType]
    split
    · exact Resolution.links_link _ _ _ fun hi => h (List.mem_singleton.2 hi)
    · rfl
  | logical | integer | void => rfl

theorem accesses_linkType (type : TypeName) : (b.linkType type).accesses = b.resolution.accesses := by
  cases type with
  | tuple t =>
    rw [linkType]
    split <;> rfl
  | logical | integer | void => rfl

/-- A declaration touches its type and its name, whatever table it goes into. -/
theorem evolves_decl (t scopes : ScopeTable) (d : VarDecl) :
    Evolves d.nodes b (b.afterDecl t scopes d) := by
  have htype : b.resolution.Grows (b.linkType d.type) := .of_symbols_eq (Binder.symbols_linkType d.type)
  refine ⟨?_, ?_, ?_, _, rfl⟩
  · show b.resolution.Grows (b.linkDecl t d)
    rw [linkDecl]
    split
    · exact htype.trans (.alloc _ _)
    · exact htype
  · intro i hi
    rw [VarDecl.nodes, List.mem_append, List.mem_singleton, not_or] at hi
    show (b.linkDecl t d).links.find? i = _
    rw [linkDecl]
    split
    · exact (Resolution.links_link _ _ _ hi.2).trans (b.links_linkType d.type hi.1)
    · exact b.links_linkType d.type hi.1
  · intro i _
    show (b.linkDecl t d).accesses.find? i = _
    rw [linkDecl]
    split <;> exact congrArg (·.find? i) (b.accesses_linkType d.type)

theorem evolves_var (d : VarDecl) : Evolves d.nodes b (b.afterVar d) := b.evolves_decl _ _ d

end Binding

namespace Binding

theorem evolves_formals : ∀ (ds : List VarDecl) (b : Binding),
    Evolves (ds.flatMap VarDecl.nodes) b (ds.foldl afterVar b)
  | [], b => .refl b
  | d :: ds, b => (b.evolves_var d).trans (evolves_formals ds (b.afterVar d))

theorem evolves_fields : ∀ (ds : List VarDecl) (b : Binding) (t : ScopeTable),
    Evolves (ds.flatMap VarDecl.nodes) b (b.afterFields t ds)
  | [], b, _ => .refl b
  | d :: ds, b, t =>
    (b.evolves_decl t b.scopes d).trans (evolves_fields ds (b.afterDecl t b.scopes d) (b.tableAfter t d))

variable (b : Binding)

theorem evolves_withSymbol (x : Ident) (kind : SymbolKind) : Evolves [x.id] b (b.withSymbol x kind) := by
  refine ⟨?_, ?_, fun _ _ => rfl, [], (List.append_nil _).symm⟩
  · exact Resolution.Grows.alloc _ _
  · intro i hi
    exact Resolution.links_link _ _ _ fun h => hi (List.mem_singleton.2 h)

theorem evolves_withMultiple (x : Ident) : Evolves [] b (b.withMultiple x) :=
  ⟨.of_symbols_eq rfl, fun _ _ => rfl, fun _ _ => rfl, _, rfl⟩

theorem evolves_functionName (d : FunctionDecl) : Evolves [d.name.id] b (b.afterFunctionName d) := by
  rw [afterFunctionName]
  split
  · exact (b.evolves_withMultiple d.name).free
  · exact b.evolves_withSymbol d.name _

theorem evolves_inside : Evolves [] b b.inside :=
  ⟨.of_symbols_eq rfl, fun _ _ => rfl, fun _ _ => rfl, [], (List.append_nil _).symm⟩

theorem evolves_outside : Evolves [] b b.outside :=
  ⟨.of_symbols_eq rfl, fun _ _ => rfl, fun _ _ => rfl, [], (List.append_nil _).symm⟩

theorem evolves_withParams (id : SymbolId) (params : List Ty) :
    Evolves [] b (b.withParams id params) :=
  ⟨.setParams _ _ _, fun _ _ => rfl, fun _ _ => rfl, [], (List.append_nil _).symm⟩

theorem evolves_heading (d : FunctionDecl) :
    Evolves (d.name.id :: d.formals.flatMap VarDecl.nodes) b (b.afterHeading d) := by
  have hname : Evolves [d.name.id] b (b.afterFunctionName d).inside :=
    (b.evolves_functionName d).then_free (evolves_inside _)
  have hformals := hname.trans (evolves_formals d.formals _)
  rw [afterHeading]
  split
  · exact hformals
  · exact hformals.then_free (evolves_withParams _ _ _)

theorem evolves_tuple (d : TupleDecl) :
    Evolves (d.name.id :: d.fields.flatMap VarDecl.nodes) b (b.afterTuple d) := by
  rw [afterTuple]
  split
  · have hname : Evolves [d.name.id] b (b.withMultiple d.name) := (b.evolves_withMultiple d.name).free
    exact hname.trans (evolves_fields d.fields _ _)
  · exact ((evolves_fields d.fields b _).trans (evolves_withSymbol _ d.name _)).mono fun i hi => by
      simpa [or_comm] using hi

/-- A step touches its own nodes only. -/
theorem evolves_after (s : Step) : Evolves s.nodes b (b.after s) := by
  cases s with
  | use _ l => exact b.evolves_use l
  | enter _ => exact b.evolves_inside
  | exit _ => exact b.evolves_outside
  | var _ d => exact b.evolves_var d
  | heading _ d => exact (b.evolves_heading d).mono fun _ => List.mem_append_right _
  | tuple _ d => exact b.evolves_tuple d

end Binding

/-- A list of steps touches the nodes of its steps only. -/
theorem Binding.evolves_walk : ∀ (steps : List Step) (b : Binding),
    Evolves (steps.flatMap Step.nodes) b (steps.foldl Binding.after b)
  | [], b => .refl b
  | s :: steps, b => (b.evolves_after s).trans (evolves_walk steps (b.after s))

end BaseLang
