import BaseLang.Proofs.Resolving.Evolution
import Mathlib.Logic.Function.Basic

/-
  Resolutions that hold another one under other numbers.

  Two walks over the same declarations make the same symbols, but under different
  numbers if one of them has made others in between. Every number that a table or a
  symbol refers to is then replaced:

    1. `lookupLocal_renumber`, `lookupChain_renumber`, `extend_renumber` — scopes;
    2. `Resolution.Embeds` — a resolution holds another one under new numbers, but for
       some nodes about which nothing is said; `Embeds.link`, `Embeds.setAccess`,
       `Embeds.alloc`, `Embeds.setParams` — so it does after each operation on both;
    3. `Embeds.tupleOf?`, `Embeds.fieldOf?`, `Embeds.symbolOf` — and each question about a
       symbol has the same answer, renumbered.
-/

namespace BaseLang

variable {f : SymbolId → SymbolId}

/-! ## Scopes and symbols -/

def Scope.renumber (f : SymbolId → SymbolId) (s : Scope) : Scope := s.map fun e => (e.1, f e.2)

namespace ScopeTable

def renumber (f : SymbolId → SymbolId) (t : ScopeTable) : ScopeTable :=
  ⟨Scope.renumber f t.outermost, t.nested.map (Scope.renumber f)⟩

theorem lookup_renumber (s : Scope) (name : String) :
    (Scope.renumber f s).lookup name = (s.lookup name).map f := by
  induction s with
  | nil => rfl
  | cons e s ih =>
    rw [Scope.renumber, List.map_cons, List.lookup_cons, List.lookup_cons]
    cases name == e.1 with
    | true => rfl
    | false => exact ih

theorem innermost_renumber (t : ScopeTable) :
    (t.renumber f).innermost = Scope.renumber f t.innermost := by
  obtain ⟨outermost, nested⟩ := t
  cases nested <;> rfl

theorem lookupLocal_renumber (t : ScopeTable) (name : String) :
    (t.renumber f).lookupLocal name = (t.lookupLocal name).map f := by
  rw [lookupLocal, innermost_renumber, lookup_renumber, lookupLocal]

theorem lookupChain_renumber (t : ScopeTable) (name : String) :
    (t.renumber f).lookupChain name = (t.lookupChain name).map f := by
  have hlevels : (t.renumber f).nested ++ [(t.renumber f).outermost] =
      (t.nested ++ [t.outermost]).map (Scope.renumber f) := by
    rw [List.map_append]
    rfl
  rw [lookupChain, hlevels, List.findSome?_map, lookupChain, List.map_findSome?]
  congr 1
  funext s
  exact lookup_renumber s name

theorem extend_renumber (t : ScopeTable) (name : String) (id : SymbolId) :
    (t.extend name id).renumber f = (t.renumber f).extend name (f id) := by
  obtain ⟨outermost, nested⟩ := t
  cases nested <;> rfl

end ScopeTable

/-- The kind with other symbols for the tuple type of a value and for its fields. -/
def SymbolKind.renumber (f : SymbolId → SymbolId) : SymbolKind → SymbolKind
  | .variable type => .variable type
  | .function result params => .function result params
  | .tupleInstance name definition => .tupleInstance name (f definition)
  | .tupleDef fields => .tupleDef (fields.renumber f)

namespace Symbol

def renumber (f : SymbolId → SymbolId) (s : Symbol) : Symbol := ⟨s.name, s.kind.renumber f⟩

theorem ty_renumber (s : Symbol) : (s.renumber f).ty = s.ty := by
  obtain ⟨name, kind⟩ := s
  cases kind <;> rfl

theorem withParams_renumber (s : Symbol) (params : List Ty) :
    (s.withParams params).renumber f = (s.renumber f).withParams params := by
  obtain ⟨name, kind⟩ := s
  cases kind <;> rfl

end Symbol

/-! ## Resolutions -/

def AccessLink.isResolved : AccessLink → Bool
  | .bad => false
  | .resolved _ => true

namespace Resolution

/-- The second resolution holds the first under new numbers. It may have more symbols,
made earlier, and nothing is said about the hidden nodes. From the next symbol on the
numbers of both go in step. -/
structure Embeds (f : SymbolId → SymbolId) (hidden : List NodeId) (r r' : Resolution) : Prop where
  injective : Function.Injective f
  next : ∀ k, f (r.nextSymbol + k) = r'.nextSymbol + k
  symbols : ∀ id, r'.symbol? (f id) = (r.symbol? id).map (Symbol.renumber f)
  links : ∀ i ∉ hidden, r'.links.find? i = (r.links.find? i).map f
  accesses : ∀ i ∉ hidden,
    (r'.accesses.find? i).map AccessLink.isResolved = (r.accesses.find? i).map AccessLink.isResolved

namespace Embeds
variable {hidden : List NodeId} {r r' : Resolution}

theorem nextSymbol (h : r.Embeds f hidden r') : r'.nextSymbol = f r.nextSymbol := (h.next 0).symm

/-! ### The operations -/

theorem link (h : r.Embeds f hidden r') (x : Ident) (id : SymbolId) :
    (r.link x id).Embeds f hidden (r'.link x (f id)) := by
  refine { h with links := fun i hi => ?_ }
  rw [Resolution.link, Resolution.link, NodeMap.find?_insert, NodeMap.find?_insert, h.links i hi]
  split <;> rfl

theorem setAccess (h : r.Embeds f hidden r') (access : NodeId) {outcome outcome' : AccessLink}
    (ho : outcome'.isResolved = outcome.isResolved) :
    (r.setAccess access outcome).Embeds f hidden (r'.setAccess access outcome') := by
  refine { h with accesses := fun i hi => ?_ }
  rw [Resolution.setAccess, Resolution.setAccess, NodeMap.find?_insert, NodeMap.find?_insert]
  split
  · exact congrArg some ho
  · exact h.accesses i hi

theorem alloc (h : r.Embeds f hidden r') (s : Symbol) :
    (r.alloc s).Embeds f hidden (r'.alloc (s.renumber f)) := by
  have hsize : ∀ (r : Resolution) (s : Symbol), (r.alloc s).nextSymbol = r.nextSymbol + 1 :=
    fun r s => Array.size_push s
  refine { h with next := fun k => ?_, symbols := fun id => ?_ }
  · rw [hsize, hsize, Nat.add_assoc, Nat.add_assoc]
    exact h.next (1 + k)
  · -- only the new symbol of the one is the new symbol of the other
    rw [symbol?_alloc, symbol?_alloc, h.nextSymbol, h.symbols id]
    by_cases hid : id = r.nextSymbol
    · rw [if_pos hid, if_pos (congrArg f hid)]
      rfl
    · rw [if_neg hid, if_neg fun heq => hid (h.injective heq)]

theorem setParams (h : r.Embeds f hidden r') (id : SymbolId) (params : List Ty) :
    (r.setParams id params).Embeds f hidden (r'.setParams (f id) params) := by
  have hsize : ∀ (r : Resolution) (id : SymbolId), (r.setParams id params).nextSymbol = r.nextSymbol :=
    fun r id => Array.size_modify
  refine { h with next := fun k => ?_, symbols := fun i => ?_ }
  · rw [hsize, hsize]
    exact h.next k
  · rw [symbol?_setParams, symbol?_setParams, h.symbols i]
    by_cases hi : id = i
    · rw [if_pos hi, if_pos (congrArg f hi), Option.map_map, Option.map_map]
      exact congrArg (Option.map · _) (funext fun s => (s.withParams_renumber params).symm)
    · rw [if_neg hi, if_neg fun heq => hi (h.injective heq)]

/-! ### The questions -/

theorem linkOf (h : r.Embeds f hidden r') {x : Ident} (hx : x.id ∉ hidden) :
    r'.linkOf x = (r.linkOf x).map f := h.links x.id hx

theorem symbolOf (h : r.Embeds f hidden r') {x : Ident} (hx : x.id ∉ hidden) :
    r'.symbolOf x = (r.symbolOf x).map (Symbol.renumber f) := by
  rw [Resolution.symbolOf, h.linkOf hx, Option.bind_map, Resolution.symbolOf, Option.map_bind]
  exact congrArg _ (funext h.symbols)

theorem tupleOf? (h : r.Embeds f hidden r') (id : SymbolId) :
    r'.tupleOf? (f id) = (r.tupleOf? id).map f := by
  rw [Resolution.tupleOf?, h.symbols, Resolution.tupleOf?]
  cases r.symbol? id with
  | none => rfl
  | some s =>
    obtain ⟨name, kind⟩ := s
    cases kind <;> rfl

theorem fieldsOf? (h : r.Embeds f hidden r') (id : SymbolId) :
    r'.fieldsOf? (f id) = (r.fieldsOf? id).map (ScopeTable.renumber f) := by
  rw [Resolution.fieldsOf?, h.symbols, Resolution.fieldsOf?]
  cases r.symbol? id with
  | none => rfl
  | some s =>
    obtain ⟨name, kind⟩ := s
    cases kind <;> rfl

theorem fieldOf? (h : r.Embeds f hidden r') (definition : SymbolId) (name : String) :
    r'.fieldOf? (f definition) name = (r.fieldOf? definition name).map f := by
  rw [Resolution.fieldOf?, h.fieldsOf?, Option.bind_map, Resolution.fieldOf?, Option.map_bind]
  exact congrArg _ (funext fun t => t.lookupChain_renumber name)

end Embeds

end Resolution

end BaseLang
