import BaseLang.Proofs.Renaming.Tables
import BaseLang.Proofs.Resolving.Invariant

/-
  Tables under a new name for one symbol.

  The names that stand for the symbol are replaced in every scope and in every table of
  fields; the same name, where it stands for another symbol, is not. So what becomes of a
  name depends on the symbol to which it leads, and different names need not stay different.
  That each name is found again rests on the new name being that of no symbol, and on the
  names in the tables being those of the symbols to which they lead:

    1. `lookupChain_table` — a name that led to a symbol leads to it under its new name;
    2. `lookupLocal_table` — a name that was free for the next symbol is free for it under
       its new name;
    3. `resolution_alloc`, `resolution_setParams`, `tupleOf?_resolution`,
       `fieldOf?_resolution` — resolutions.
-/

namespace BaseLang

/-- A new name for the symbol of that number. The types of functions, which hold names and
not numbers, change as given. -/
structure NewName where
  symbol : SymbolId
  name : String
  types : Renaming

/-- A name is looked up in all open scopes put together, innermost first. -/
theorem ScopeTable.lookupChain_eq_lookup (t : ScopeTable) (m : String) :
    t.lookupChain m = t.levels.flatten.lookup m := by
  rw [lookupChain_eq]
  induction t.levels with
  | nil => rfl
  | cons s levels ih =>
    rw [List.findSome?_cons, List.flatten_cons, List.lookup_append, ← ih]
    cases s.lookup m <;> rfl

/-- The names of fields lead to symbols of those names. -/
theorem ScopeTable.IsFields.leads {t : ScopeTable} {r : Resolution} {bound : SymbolId}
    (h : t.IsFields r bound) : t.Leads r := by
  intro scope hscope e he
  rw [ScopeTable.levels, h.flat, List.nil_append, List.mem_singleton] at hscope
  obtain ⟨-, s, hs, hname, -⟩ := h.fields e (hscope ▸ he)
  exact ⟨s, hs, hname⟩

namespace NewName
variable (c : NewName)

/-! ## The action of a new name -/

def nameOf (id : SymbolId) (old : String) : String := if id = c.symbol then c.name else old

def ident (id : SymbolId) (x : Ident) : Ident := { x with name := c.nameOf id x.name }

def scope (s : Scope) : Scope := s.map fun e => (c.nameOf e.2 e.1, e.2)

def table (t : ScopeTable) : ScopeTable := ⟨c.scope t.outermost, t.nested.map c.scope⟩

def kind : SymbolKind → SymbolKind
  | .variable type => .variable type
  | .function result params => .function (c.types.ty result) (c.types.tys params)
  | .tupleInstance old definition => .tupleInstance (c.nameOf definition old) definition
  | .tupleDef fields => .tupleDef (c.table fields)

def symbolAt (id : SymbolId) (s : Symbol) : Symbol := ⟨c.nameOf id s.name, c.kind s.kind⟩

def resolution (r : Resolution) : Resolution := { r with symbols := r.symbols.mapIdx c.symbolAt }

def binding (b : Binding) : Binding := ⟨c.table b.scopes, c.resolution b.resolution, b.diagnostics⟩

/-- The new name is that of no symbol. -/
def Unused (r : Resolution) : Prop := ∀ id s, r.symbol? id = some s → s.name ≠ c.name

variable {c} {r r' : Resolution} {t : ScopeTable}

theorem Unused.grows (h : c.Unused r') (hr : r.Grows r') : c.Unused r := by
  intro id s hs hname
  obtain ⟨s', hs', hsame⟩ := hr.name hs
  exact h id s' hs' (hsame.trans hname)

/-! ## Names -/

theorem nameOf_self (c : NewName) (old : String) : c.nameOf c.symbol old = c.name := if_pos rfl

theorem nameOf_of_ne {id : SymbolId} (h : id ≠ c.symbol) (old : String) : c.nameOf id old = old := if_neg h

/-- Symbols that have one name under the new name had one before, or are the same. -/
theorem eq_or_eq_of_nameOf_eq {id i : SymbolId} {m k : String} (h : c.nameOf id m = c.nameOf i k)
    (hm : m ≠ c.name) (hk : k ≠ c.name) : id = i ∨ m = k := by
  by_cases hid : id = c.symbol <;> by_cases hi : i = c.symbol
  · exact .inl (hid.trans hi.symm)
  · rw [hid, nameOf_self, nameOf_of_ne hi] at h
    exact absurd h.symm hk
  · rw [hi, nameOf_self, nameOf_of_ne hid] at h
    exact absurd h hm
  · rw [nameOf_of_ne hid, nameOf_of_ne hi] at h
    exact .inr h

/-! ## Scopes -/

theorem lookup_scope {m : String} {id : SymbolId} : ∀ {s : Scope}, (∀ e ∈ s, e.1 ≠ c.name) →
    s.lookup m = some id → (c.scope s).lookup (c.nameOf id m) = some id
  | [], _, h => by cases h
  | (k, i) :: s, hs, h => by
    obtain ⟨hk, hrest⟩ := List.forall_mem_cons.1 hs
    rw [scope, List.map_cons]
    rw [List.lookup_cons] at h
    cases hmk : m == k with
    | true =>
      rw [hmk] at h
      cases h
      rw [beq_iff_eq.1 hmk]
      exact List.lookup_cons_self
    | false =>
      rw [hmk] at h
      have hm : m ≠ c.name := hrest _ (ScopeTable.mem_of_lookup h)
      by_cases hkey : c.nameOf id m = c.nameOf i k
      · -- what now stands before it under the new name leads to the same symbol
        have hid : id = i := (eq_or_eq_of_nameOf_eq hkey hm hk).resolve_right (beq_eq_false_iff_ne.1 hmk)
        rw [hkey, hid]
        exact List.lookup_cons_self
      · rw [List.lookup_cons, beq_eq_false_iff_ne.2 hkey]
        exact lookup_scope hrest h

theorem levels_table (c : NewName) (t : ScopeTable) : (c.table t).levels = t.levels.map c.scope := by
  rw [ScopeTable.levels, ScopeTable.levels, List.map_append]
  rfl

theorem innermost_table (c : NewName) (t : ScopeTable) : (c.table t).innermost = c.scope t.innermost := by
  obtain ⟨outermost, nested⟩ := t
  cases nested <;> rfl

theorem table_extend (c : NewName) (t : ScopeTable) (m : String) (id : SymbolId) :
    c.table (t.extend m id) = (c.table t).extend (c.nameOf id m) id := by
  obtain ⟨outermost, nested⟩ := t
  cases nested <;> rfl

/-- The names in a table are those of symbols, so that none is the new one. -/
theorem Unused.ne_of_leads (h : c.Unused r) (ht : t.Leads r) : ∀ e ∈ t.levels.flatten, e.1 ≠ c.name := by
  intro e he
  obtain ⟨s, hs, hes⟩ := List.mem_flatten.1 he
  obtain ⟨sym, hsym, hname⟩ := ht s hs e hes
  exact fun heq => h _ sym hsym (hname.trans heq)

/-- A name that led to a symbol leads to it under its new name. -/
theorem lookupChain_table (h : c.Unused r) (ht : t.Leads r) {m : String} {id : SymbolId}
    (hl : t.lookupChain m = some id) : (c.table t).lookupChain (c.nameOf id m) = some id := by
  rw [ScopeTable.lookupChain_eq_lookup] at hl
  have hflat : (c.table t).levels.flatten = c.scope t.levels.flatten := by
    rw [levels_table, scope, List.map_flatten]
    rfl
  rw [ScopeTable.lookupChain_eq_lookup, hflat]
  exact lookup_scope (h.ne_of_leads ht) hl

/-- A name that was free for the next symbol is free for it under its new name. -/
theorem lookupLocal_table (h : c.Unused r) (ht : t.Leads r) {m : String} (hm : m ≠ c.name)
    (hl : t.lookupLocal m = none) : (c.table t).lookupLocal (c.nameOf r.nextSymbol m) = none := by
  rw [ScopeTable.lookupLocal, innermost_table, List.lookup_eq_none_iff]
  intro p hp
  obtain ⟨e, he, rfl⟩ := List.mem_map.1 hp
  have hin : e ∈ t.levels.flatten := List.mem_flatten.2 ⟨_, t.innermost_mem_levels, he⟩
  obtain ⟨s, hs, -⟩ := ht _ t.innermost_mem_levels e he
  refine bne_iff_ne.2 fun heq => ?_
  rcases eq_or_eq_of_nameOf_eq heq hm (h.ne_of_leads ht e hin) with hnext | hname
  · exact Nat.ne_of_gt (Resolution.symbol?_lt hs) hnext
  · exact bne_iff_ne.1 (List.lookup_eq_none_iff.1 hl e he) hname

/-! ## Resolutions -/

theorem symbol?_resolution (c : NewName) (r : Resolution) (id : SymbolId) :
    (c.resolution r).symbol? id = (r.symbol? id).map (c.symbolAt id) := Array.getElem?_mapIdx

theorem nextSymbol_resolution (c : NewName) (r : Resolution) :
    (c.resolution r).nextSymbol = r.nextSymbol := Array.size_mapIdx

theorem resolution_alloc (c : NewName) (r : Resolution) (s : Symbol) :
    c.resolution (r.alloc s) = (c.resolution r).alloc (c.symbolAt r.nextSymbol s) := by
  rw [resolution, Resolution.alloc, Array.mapIdx_push]
  rfl

theorem symbolAt_withParams (c : NewName) (id : SymbolId) (s : Symbol) (params : List Ty) :
    c.symbolAt id (s.withParams params) = (c.symbolAt id s).withParams (c.types.tys params) := by
  obtain ⟨name, kind⟩ := s
  cases kind <;> rfl

theorem resolution_setParams (c : NewName) (r : Resolution) (id : SymbolId) (params : List Ty) :
    c.resolution (r.setParams id params) = (c.resolution r).setParams id (c.types.tys params) := by
  have hsymbols : (r.symbols.modify id (·.withParams params)).mapIdx c.symbolAt =
      (r.symbols.mapIdx c.symbolAt).modify id (·.withParams (c.types.tys params)) := by
    apply Array.ext_getElem?
    intro i
    simp only [Array.getElem?_mapIdx, Array.getElem?_modify]
    split
    · simp only [Option.map_map, Function.comp_def, symbolAt_withParams]
    · rfl
  simp only [resolution, Resolution.setParams, hsymbols]

theorem tupleOf?_resolution (c : NewName) (r : Resolution) (id : SymbolId) :
    (c.resolution r).tupleOf? id = r.tupleOf? id := by
  rw [Resolution.tupleOf?, symbol?_resolution, Resolution.tupleOf?]
  cases r.symbol? id with
  | none => rfl
  | some s =>
    obtain ⟨name, kind⟩ := s
    cases kind <;> rfl

theorem fieldsOf?_resolution (c : NewName) (r : Resolution) (id : SymbolId) :
    (c.resolution r).fieldsOf? id = (r.fieldsOf? id).map c.table := by
  rw [Resolution.fieldsOf?, symbol?_resolution, Resolution.fieldsOf?]
  cases r.symbol? id with
  | none => rfl
  | some s =>
    obtain ⟨name, kind⟩ := s
    cases kind <;> rfl

theorem fieldOf?_resolution (h : c.Unused r) (hr : r.Sound) {definition id : SymbolId} {m : String}
    (hf : r.fieldOf? definition m = some id) :
    (c.resolution r).fieldOf? definition (c.nameOf id m) = some id := by
  obtain ⟨fields, hfields, hlook⟩ := Option.bind_eq_some_iff.1 hf
  obtain ⟨s, hs, hk⟩ := Resolution.fieldsOf?_eq_some_iff.1 hfields
  have hsound := hr.symbols definition s hs
  rw [hk] at hsound
  rw [Resolution.fieldOf?, fieldsOf?_resolution, hfields]
  exact lookupChain_table h (ScopeTable.IsFields.leads hsound) hlook

end NewName

end BaseLang
