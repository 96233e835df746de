import BaseLang.Proofs.Resolving.States
import Mathlib.Logic.Function.Basic

/-
  Trees and tables under another choice of names, numbers and positions.

  A renaming replaces names by names and node numbers by node numbers, different ones
  by different ones, and positions in any way. It acts on trees, on types, on symbols
  and on everything that the analysis keeps, and each operation on the tables gives the
  renamed result on renamed arguments:

    1. `lookupLocal_table`, `lookupChain_table`, `table_extend` — scopes;
    2. `find?_nodes`, `resolution_link`, `resolution_setAccess`, `resolution_alloc`,
       `resolution_setParams` — resolutions;
    3. `tupleOf?_resolution`, `fieldOf?_resolution` — tuple types.
-/

namespace BaseLang

/-- Other names and numbers, different ones for different ones, and other positions. -/
structure Renaming where
  name : String → String
  node : NodeId → NodeId
  place : Position → Position
  name_injective : Function.Injective name
  node_injective : Function.Injective node

/-- Looking up a key that is replaced along with those of the list. -/
theorem lookup_map_key {α β : Type} [BEq α] [LawfulBEq α] {f : α → α} (hf : Function.Injective f)
    (l : List (α × β)) (a : α) : (l.map fun e => (f e.1, e.2)).lookup (f a) = l.lookup a := by
  induction l with
  | nil => rfl
  | cons e l ih =>
    have hkey : (f a == f e.1) = (a == e.1) := by
      rw [Bool.eq_iff_iff, beq_iff_eq, beq_iff_eq]
      exact hf.eq_iff
    rw [List.map_cons, List.lookup_cons, List.lookup_cons, hkey, ih]

namespace Renaming
variable (ρ : Renaming)

/-! ## The action of a renaming -/

def labels : Relabelling where
  ident x := ⟨ρ.node x.id, ρ.name x.name, ρ.place x.position⟩
  access := ρ.node
  position := ρ.place

mutual

def ty : Ty → Ty
  | .logical => .logical
  | .integer => .integer
  | .void => .void
  | .string => .string
  | .tupleInstance n => .tupleInstance (ρ.name n)
  | .tupleDef n => .tupleDef (ρ.name n)
  | .function result params => .function (ty result) (tys params)
  | .error => .error

def tys : List Ty → List Ty
  | [] => []
  | t :: ts => ty t :: tys ts

end

def scope (s : Scope) : Scope := s.map fun e => (ρ.name e.1, e.2)

def table (t : ScopeTable) : ScopeTable := ⟨ρ.scope t.outermost, t.nested.map ρ.scope⟩

def kind : SymbolKind → SymbolKind
  | .variable type => .variable (ρ.ty type)
  | .function result params => .function (ρ.ty result) (ρ.tys params)
  | .tupleInstance n definition => .tupleInstance (ρ.name n) definition
  | .tupleDef fields => .tupleDef (ρ.table fields)

def symbol (s : Symbol) : Symbol := ⟨ρ.name s.name, ρ.kind s.kind⟩

def nodes {α : Type} (m : NodeMap α) : NodeMap α := ⟨m.entries.map fun e => (ρ.node e.1, e.2)⟩

def resolution (r : Resolution) : Resolution :=
  ⟨r.symbols.map ρ.symbol, ρ.nodes r.links, ρ.nodes r.accesses⟩

/-- The diagnostic at the new position. A missing value has no position to be replaced. -/
def diagnostic (d : Diagnostic) : Diagnostic :=
  if d.kind = .returnValueMissing then d else ⟨ρ.place d.position, d.kind⟩

def diagnostics (ds : Diagnostics) : Diagnostics := ds.map ρ.diagnostic

def binding (b : Binding) : Binding := ⟨ρ.table b.scopes, ρ.resolution b.resolution, ρ.diagnostics b.diagnostics⟩

/-! ## Types and diagnostics -/

theorem tys_eq_map : ∀ ts : List Ty, ρ.tys ts = ts.map ρ.ty
  | [] => rfl
  | t :: ts => by rw [tys, tys_eq_map ts, List.map_cons]

/-- A written type and its relabelled form. -/
theorem ty_typeName (t : TypeName) : (t.relabel ρ.labels).ty = ρ.ty t.ty := by
  cases t <;> rfl

@[simp] theorem diagnostic_mk {k : DiagnosticKind} (hk : k ≠ .returnValueMissing) (p : Position) :
    ρ.diagnostic ⟨p, k⟩ = ⟨ρ.place p, k⟩ := if_neg hk

@[simp] theorem diagnostics_append (ds ds' : Diagnostics) :
    ρ.diagnostics (ds ++ ds') = ρ.diagnostics ds ++ ρ.diagnostics ds' := List.map_append

/-! ## Scopes -/

theorem lookup_scope (s : Scope) (n : String) : (ρ.scope s).lookup (ρ.name n) = s.lookup n :=
  lookup_map_key ρ.name_injective s n

theorem innermost_table (t : ScopeTable) : (ρ.table t).innermost = ρ.scope t.innermost := by
  obtain ⟨outermost, nested⟩ := t
  cases nested <;> rfl

theorem lookupLocal_table (t : ScopeTable) (n : String) :
    (ρ.table t).lookupLocal (ρ.name n) = t.lookupLocal n := by
  rw [ScopeTable.lookupLocal, innermost_table, lookup_scope, ScopeTable.lookupLocal]

theorem lookupChain_table (t : ScopeTable) (n : String) :
    (ρ.table t).lookupChain (ρ.name n) = t.lookupChain n := by
  have hlevels : (ρ.table t).nested ++ [(ρ.table t).outermost] =
      (t.nested ++ [t.outermost]).map ρ.scope := by
    rw [List.map_append]
    rfl
  have hlookup : (fun s => List.lookup (ρ.name n) s) ∘ ρ.scope = fun s => List.lookup n s :=
    funext fun s => ρ.lookup_scope s n
  rw [ScopeTable.lookupChain, hlevels, List.findSome?_map, hlookup]
  rfl

theorem table_extend (t : ScopeTable) (n : String) (id : SymbolId) :
    ρ.table (t.extend n id) = (ρ.table t).extend (ρ.name n) id := by
  obtain ⟨outermost, nested⟩ := t
  cases nested <;> rfl

/-! ## Resolutions -/

theorem find?_nodes {α : Type} (m : NodeMap α) (i : NodeId) : (ρ.nodes m).find? (ρ.node i) = m.find? i :=
  lookup_map_key ρ.node_injective m.entries i

/-- Only the new numbers have values: those of the old ones. -/
theorem find?_nodes_eq_some_iff {α : Type} (m : NodeMap α) (i : NodeId) (v : α) :
    (ρ.nodes m).find? i = some v ↔ ∃ j, i = ρ.node j ∧ m.find? j = some v := by
  constructor
  · intro h
    obtain ⟨pre, post, hentries, -⟩ := List.lookup_eq_some_iff.1 h
    have hmem : (i, v) ∈ m.entries.map fun e => (ρ.node e.1, e.2) := by
      rw [show (m.entries.map fun e => (ρ.node e.1, e.2)) = pre ++ (i, v) :: post from hentries]
      exact List.mem_append_right _ List.mem_cons_self
    obtain ⟨e, -, he⟩ := List.mem_map.1 hmem
    cases he
    exact ⟨e.1, rfl, (ρ.find?_nodes m e.1).symm.trans h⟩
  · rintro ⟨j, rfl, h⟩
    exact (ρ.find?_nodes m j).trans h

theorem insert_nodes {α : Type} (m : NodeMap α) (i : NodeId) (v : α) :
    ρ.nodes (m.insert i v) = (ρ.nodes m).insert (ρ.node i) v := by
  have hkeep : ((fun e : NodeId × α => e.1 != ρ.node i) ∘ fun e : NodeId × α => (ρ.node e.1, e.2)) =
      fun e : NodeId × α => e.1 != i := by
    funext e
    rw [Bool.eq_iff_iff]
    simp only [Function.comp_apply, bne_iff_ne, ne_eq, ρ.node_injective.eq_iff]
  simp only [nodes, NodeMap.insert, List.map_cons, List.filter_map, hkeep]

theorem resolution_link (r : Resolution) (x : Ident) (id : SymbolId) :
    ρ.resolution (r.link x id) = (ρ.resolution r).link (ρ.labels.ident x) id := by
  simp only [resolution, Resolution.link, insert_nodes]
  rfl

theorem resolution_setAccess (r : Resolution) (access : NodeId) (outcome : AccessLink) :
    ρ.resolution (r.setAccess access outcome) = (ρ.resolution r).setAccess (ρ.node access) outcome := by
  simp only [resolution, Resolution.setAccess, insert_nodes]

theorem resolution_alloc (r : Resolution) (s : Symbol) :
    ρ.resolution (r.alloc s) = (ρ.resolution r).alloc (ρ.symbol s) := by
  simp only [resolution, Resolution.alloc, Array.map_push]

theorem symbol_withParams (s : Symbol) (params : List Ty) :
    ρ.symbol (s.withParams params) = (ρ.symbol s).withParams (ρ.tys params) := by
  obtain ⟨n, k⟩ := s
  cases k <;> rfl

theorem resolution_setParams (r : Resolution) (id : SymbolId) (params : List Ty) :
    ρ.resolution (r.setParams id params) = (ρ.resolution r).setParams id (ρ.tys params) := by
  have hsymbols : (r.symbols.modify id (·.withParams params)).map ρ.symbol =
      (r.symbols.map ρ.symbol).modify id (·.withParams (ρ.tys params)) := by
    apply Array.ext_getElem?
    intro i
    simp only [Array.getElem?_map, Array.getElem?_modify]
    split
    · simp only [Option.map_map, Function.comp_def, symbol_withParams]
    · rfl
  simp only [resolution, Resolution.setParams, hsymbols]

theorem linkOf_resolution (r : Resolution) (x : Ident) :
    (ρ.resolution r).linkOf (ρ.labels.ident x) = r.linkOf x := ρ.find?_nodes r.links x.id

theorem access_resolution (r : Resolution) (i : NodeId) :
    (ρ.resolution r).access (ρ.node i) = r.access i := ρ.find?_nodes r.accesses i

theorem nextSymbol_resolution (r : Resolution) : (ρ.resolution r).nextSymbol = r.nextSymbol :=
  Array.size_map

theorem symbol?_resolution (r : Resolution) (id : SymbolId) :
    (ρ.resolution r).symbol? id = (r.symbol? id).map ρ.symbol := Array.getElem?_map

theorem symbolOf_resolution (r : Resolution) (x : Ident) :
    (ρ.resolution r).symbolOf (ρ.labels.ident x) = (r.symbolOf x).map ρ.symbol := by
  rw [Resolution.symbolOf, linkOf_resolution, Resolution.symbolOf, Option.map_bind]
  exact congrArg _ (funext (ρ.symbol?_resolution r))

theorem ty_symbol (s : Symbol) : (ρ.symbol s).ty = ρ.ty s.ty := by
  obtain ⟨n, k⟩ := s
  cases k <;> rfl

theorem tupleOf?_resolution (r : Resolution) (id : SymbolId) :
    (ρ.resolution r).tupleOf? id = r.tupleOf? id := by
  rw [Resolution.tupleOf?, symbol?_resolution, Resolution.tupleOf?]
  cases r.symbol? id with
  | none => rfl
  | some s =>
    obtain ⟨n, k⟩ := s
    cases k <;> rfl

theorem fieldsOf?_resolution (r : Resolution) (id : SymbolId) :
    (ρ.resolution r).fieldsOf? id = (r.fieldsOf? id).map ρ.table := by
  rw [Resolution.fieldsOf?, symbol?_resolution, Resolution.fieldsOf?]
  cases r.symbol? id with
  | none => rfl
  | some s =>
    obtain ⟨n, k⟩ := s
    cases k <;> rfl

theorem fieldOf?_resolution (r : Resolution) (definition : SymbolId) (n : String) :
    (ρ.resolution r).fieldOf? definition (ρ.name n) = r.fieldOf? definition n := by
  rw [Resolution.fieldOf?, fieldsOf?_resolution, Option.bind_map, Resolution.fieldOf?]
  exact congrArg _ (funext fun t => ρ.lookupChain_table t n)

end Renaming

end BaseLang
