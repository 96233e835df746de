import BaseLang.Symbol

/-
  What name resolution finds out about a program.

  A resolution holds the symbols in the order of their making, the symbol that
  each identifier occurrence stands for, and the outcome of each field access.
  The last two are kept under the numbers of the nodes. A resolution can be put
  together by hand, and then an identifier may stand for a number that no symbol
  has. Its symbol cannot be looked up. A `LinkedResolution` has no such links.
-/

namespace BaseLang

/-! ## Values kept under node numbers -/

/-- At most one value for each node number. -/
structure NodeMap (α : Type) where
  entries : List (NodeId × α)
  deriving Repr

namespace NodeMap

variable {α : Type}

def empty : NodeMap α := ⟨[]⟩

def find? (m : NodeMap α) (id : NodeId) : Option α := m.entries.lookup id

/-- Gives a node a value, in place of the one it had. -/
def insert (m : NodeMap α) (id : NodeId) (value : α) : NodeMap α :=
  ⟨(id, value) :: m.entries.filter fun e => e.1 != id⟩

def size (m : NodeMap α) : Nat := m.entries.length

@[simp] theorem find?_empty (id : NodeId) : (empty : NodeMap α).find? id = none := rfl

theorem lookup_filter_ne (l : List (NodeId × α)) {i j : NodeId} (h : j ≠ i) :
    (l.filter fun e => e.1 != i).lookup j = l.lookup j := by
  induction l with
  | nil => rfl
  | cons e l ih =>
    obtain ⟨k, v⟩ := e
    by_cases hk : k = i
    · have hj : (j == k) = false := by simpa [hk] using h
      simp [hk, List.lookup_cons, ih, hk ▸ hj]
    · simp [hk, List.lookup_cons, ih]

/-- A node has the value it was last given. -/
theorem find?_insert (m : NodeMap α) (i j : NodeId) (v : α) :
    (m.insert i v).find? j = if j = i then some v else m.find? j := by
  by_cases h : j = i
  · simp [find?, insert, h]
  · have hj : (j == i) = false := by simpa using h
    simp [find?, insert, List.lookup_cons, h, hj, lookup_filter_ne]

end NodeMap

/-! ## Resolutions -/

/-- The outcome of a field access. -/
inductive AccessLink where
  /-- Something is wrong with the access, or with the location it starts from,
  and has been reported. -/
  | bad
  /-- The field was found. If it is a tuple itself, its definition is given, and
  a further access can go on from there. -/
  | resolved (tupleDef? : Option SymbolId)
  deriving DecidableEq, Repr

/-- The symbols of a program and what its nodes stand for. -/
structure Resolution where
  symbols : Array Symbol
  links : NodeMap SymbolId
  accesses : NodeMap AccessLink
  deriving Repr

namespace Resolution

def empty : Resolution := ⟨#[], .empty, .empty⟩

/-- Adds a symbol under the next number. -/
def alloc (r : Resolution) (s : Symbol) : Resolution := { r with symbols := r.symbols.push s }

def nextSymbol (r : Resolution) : SymbolId := r.symbols.size

def symbol? (r : Resolution) (id : SymbolId) : Option Symbol := r.symbols[id]?

/-- Gives the symbol of that number parameter types, if it is a function. -/
def setParams (r : Resolution) (id : SymbolId) (params : List Ty) : Resolution :=
  { r with symbols := r.symbols.modify id (·.withParams params) }

/-- Lets an identifier stand for a symbol. -/
def link (r : Resolution) (x : Ident) (id : SymbolId) : Resolution :=
  { r with links := r.links.insert x.id id }

/-- The number of the symbol that an identifier stands for. -/
def linkOf (r : Resolution) (x : Ident) : Option SymbolId := r.links.find? x.id

/-- The symbol that an identifier stands for. A link to a number that no symbol has is a loose
end: it means nothing, and there is none in a `LinkedResolution`. -/
def symbolOf (r : Resolution) (x : Ident) : Option Symbol := (r.linkOf x).bind r.symbol?

def setAccess (r : Resolution) (access : NodeId) (outcome : AccessLink) : Resolution :=
  { r with accesses := r.accesses.insert access outcome }

def access (r : Resolution) (access : NodeId) : Option AccessLink := r.accesses.find? access

def linkCount (r : Resolution) : Nat := r.links.size

end Resolution

/-! ## Resolutions without loose ends -/

/-- A resolution in which whatever an identifier stands for is a symbol. -/
structure LinkedResolution extends Resolution where
  symbol_of_link : ∀ i id, links.find? i = some id → ∃ s, toResolution.symbol? id = some s

namespace LinkedResolution

instance : Coe LinkedResolution Resolution := ⟨toResolution⟩

def empty : LinkedResolution := ⟨.empty, fun _ _ h => absurd h.symm (Option.some_ne_none _)⟩

variable {r : LinkedResolution} {x : Ident} {id : SymbolId}

theorem symbolOf_of_linkOf (h : r.linkOf x = some id) :
    ∃ s, r.symbol? id = some s ∧ r.symbolOf x = some s := by
  obtain ⟨s, hs⟩ := r.symbol_of_link x.id id h
  refine ⟨s, hs, ?_⟩
  rw [Resolution.symbolOf, h]
  exact hs

/-- An identifier has a symbol exactly if it is linked. -/
theorem symbolOf_eq_none_iff : r.symbolOf x = none ↔ r.linkOf x = none := by
  cases h : r.linkOf x with
  | none =>
    rw [Resolution.symbolOf, h]
    exact ⟨fun _ => rfl, fun _ => rfl⟩
  | some id =>
    obtain ⟨s, -, hs⟩ := symbolOf_of_linkOf h
    rw [hs]
    exact ⟨fun hnone => absurd hnone (Option.some_ne_none s), fun hnone => absurd hnone (Option.some_ne_none id)⟩

end LinkedResolution

end BaseLang
