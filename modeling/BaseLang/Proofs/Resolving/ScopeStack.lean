import BaseLang.Symbol.Scope
import Mathlib.Data.Finmap

/-
  A scope table is a stack of finite maps.

  The table keeps the outermost scope apart from those nested in it, so that there is always
  one. Here it is set beside a stack that makes no such difference: a list of finite maps,
  innermost first, that is never empty. Every operation on the table is the one on the stack.

    1. `MapStack` — the stack and its operations;
    2. `ScopeOp`, `performAll` — operations one after the other, failed ones included;
    3. `ScopeTable.stack_perform`, `ScopeTable.stack_performAll` — one operation, and a run of any
       length, give the same answers on both;
    4. `ScopeTable.Encloses.performAll` — what is done between opening a scope and closing it
       leaves no trace;
    5. `scopes_are_maps` — the main theorem.
-/

namespace BaseLang

/-! ## Stacks of maps -/

abbrev NameMap := Finmap fun _ : String => SymbolId

/-- The scopes that are open, innermost first. There is always one. -/
@[ext]
structure MapStack where
  maps : List NameMap
  ne_nil : maps ≠ []

namespace MapStack

def empty : MapStack := ⟨[∅], List.cons_ne_nil _ _⟩

def top (m : MapStack) : NameMap := m.maps.head m.ne_nil

def enter (m : MapStack) : MapStack := ⟨∅ :: m.maps, List.cons_ne_nil _ _⟩

/-- Takes the innermost map off, unless it is the only one. -/
def exit (m : MapStack) : Except InternalError MapStack :=
  if h : m.maps.tail = [] then .error .exitOutermostScope else .ok ⟨m.maps.tail, h⟩

/-- Adds a name to the innermost map, unless it is there. -/
def declare (m : MapStack) (name : String) (id : SymbolId) : Except InternalError MapStack :=
  if name ∈ m.top then .error (.duplicateSymbol name)
  else .ok ⟨m.top.insert name id :: m.maps.tail, List.cons_ne_nil _ _⟩

def lookupLocal (m : MapStack) (name : String) : Option SymbolId := m.top.lookup name

/-- The symbol that the name has in the innermost of the maps that hold it. -/
def lookupChain (m : MapStack) (name : String) : Option SymbolId :=
  (m.maps.find? fun s => name ∈ s).bind (·.lookup name)

end MapStack

/-! ## Operations -/

inductive ScopeOp where
  | enter
  | exit
  | declare (name : String) (id : SymbolId)
  | lookupLocal (name : String)
  | lookupChain (name : String)

inductive ScopeAnswer where
  | done
  | failed (e : InternalError)
  | found (id? : Option SymbolId)
  deriving DecidableEq

section Perform
variable {σ : Type}

/-- The answer of an operation that gives what there is after it also if it fails. -/
def answered : Except InternalError Unit × σ → ScopeAnswer × σ
  | (.ok (), t) => (.done, t)
  | (.error e, t) => (.failed e, t)

theorem answered_snd (r : Except InternalError Unit × σ) : (answered r).2 = r.2 := by
  obtain ⟨_ | _, t⟩ := r <;> rfl

/-- The answer of an operation that gives nothing if it fails: then there is what there was
before it. -/
def attempt (s : σ) : Except InternalError σ → ScopeAnswer × σ
  | .ok t => (.done, t)
  | .error e => (.failed e, s)

/-- The answers of operations one after the other, and what there is after them. -/
def performAll (perform : σ → ScopeOp → ScopeAnswer × σ) (s : σ) : List ScopeOp → List ScopeAnswer × σ
  | [] => ([], s)
  | op :: ops =>
    let (answer, t) := perform s op
    let (answers, u) := performAll perform t ops
    (answer :: answers, u)

theorem performAll_append (perform : σ → ScopeOp → ScopeAnswer × σ) (s : σ)
    (ops ops' : List ScopeOp) :
    performAll perform s (ops ++ ops') =
      ((performAll perform s ops).1 ++ (performAll perform (performAll perform s ops).2 ops').1,
        (performAll perform (performAll perform s ops).2 ops').2) := by
  induction ops generalizing s with
  | nil => rfl
  | cons op ops ih =>
    dsimp only [performAll, List.cons_append]
    rw [ih]

end Perform

def ScopeTable.perform (t : ScopeTable) : ScopeOp → ScopeAnswer × ScopeTable
  | .enter => (.done, t.enter)
  | .exit => answered t.tryExit
  | .declare name id => answered (t.tryDeclare name id)
  | .lookupLocal name => (.found (t.lookupLocal name), t)
  | .lookupChain name => (.found (t.lookupChain name), t)

/-- One operation on a stack. One that fails leaves the stack as it was. -/
def MapStack.perform (m : MapStack) : ScopeOp → ScopeAnswer × MapStack
  | .enter => (.done, m.enter)
  | .exit => attempt m m.exit
  | .declare name id => attempt m (m.declare name id)
  | .lookupLocal name => (.found (m.lookupLocal name), m)
  | .lookupChain name => (.found (m.lookupChain name), m)

/-! ## A table as a stack -/

def Scope.toMap (s : Scope) : NameMap := (List.map (fun e => ⟨e.1, e.2⟩) s).toFinmap

namespace Scope

theorem lookup_toMap (s : Scope) (name : String) : s.toMap.lookup name = s.lookup name := by
  rw [toMap, Finmap.dlookup_list_toFinmap]
  induction s with
  | nil => rfl
  | cons e s ih =>
    rw [List.map_cons, List.lookup_cons]
    by_cases h : name = e.1
    · subst h
      rw [List.dlookup_cons_eq, beq_self_eq_true]
    · rw [List.dlookup_cons_ne _ _ h, ih, beq_false_of_ne h]

theorem mem_toMap_iff {s : Scope} {name : String} : name ∈ s.toMap ↔ (s.lookup name).isSome := by
  rw [← Finmap.lookup_isSome, lookup_toMap]

theorem toMap_cons (name : String) (id : SymbolId) (s : Scope) :
    Scope.toMap ((name, id) :: s) = s.toMap.insert name id := Finmap.toFinmap_cons _ _ _

end Scope

namespace ScopeTable
variable {t u : ScopeTable} {name : String} {id : SymbolId}

/-- All scopes of the table, innermost first. -/
def stack (t : ScopeTable) : MapStack :=
  ⟨(t.nested ++ [t.outermost]).map Scope.toMap, by
    rw [List.map_append]
    exact List.append_ne_nil_of_right_ne_nil _ (List.cons_ne_nil _ _)⟩

theorem maps_stack (t : ScopeTable) : t.stack.maps = (t.nested ++ [t.outermost]).map Scope.toMap := rfl

theorem length_stack (t : ScopeTable) : t.stack.maps.length = t.depth := by
  rw [maps_stack, List.length_map, List.length_append, List.length_singleton, depth]

theorem top_stack (t : ScopeTable) : t.stack.top = t.innermost.toMap := by
  obtain ⟨outermost, nested⟩ := t
  cases nested <;> rfl

theorem stack_setInnermost (t : ScopeTable) (s : Scope) :
    (t.setInnermost s).stack.maps = s.toMap :: t.stack.maps.tail := by
  obtain ⟨outermost, nested⟩ := t
  cases nested <;> rfl

theorem stack_exit (t : ScopeTable) :
    attempt t.stack t.stack.exit = ((answered t.tryExit).1, t.tryExit.2.stack) := by
  obtain ⟨outermost, nested⟩ := t
  cases nested with
  | nil => rfl
  | cons s nested =>
    have hopen : (ScopeTable.mk outermost (s :: nested)).stack.maps.tail ≠ [] :=
      (ScopeTable.mk outermost nested).stack.ne_nil
    rw [MapStack.exit, dif_neg hopen]
    rfl

theorem stack_declare (t : ScopeTable) (name : String) (id : SymbolId) :
    attempt t.stack (t.stack.declare name id) =
      ((answered (t.tryDeclare name id)).1, (t.tryDeclare name id).2.stack) := by
  have htop : name ∈ t.stack.top ↔ (t.lookupLocal name).isSome := by
    rw [top_stack, Scope.mem_toMap_iff, lookupLocal]
  rw [MapStack.declare, tryDeclare]
  by_cases h : (t.lookupLocal name).isSome
  · rw [if_pos h, if_pos (htop.2 h)]
    rfl
  · rw [if_neg h, if_neg fun hmem => h (htop.1 hmem), attempt, answered, Prod.mk.injEq]
    refine ⟨rfl, ?_⟩
    ext1
    rw [stack_setInnermost, Scope.toMap_cons, ← top_stack]

theorem stack_lookupLocal (t : ScopeTable) (name : String) :
    t.stack.lookupLocal name = t.lookupLocal name := by
  rw [MapStack.lookupLocal, top_stack, Scope.lookup_toMap, lookupLocal]

/-- The first map that gives the name a symbol is the first that holds it. -/
theorem stack_lookupChain (t : ScopeTable) (name : String) :
    t.stack.lookupChain name = t.lookupChain name := by
  rw [MapStack.lookupChain, maps_stack, lookupChain]
  induction t.nested ++ [t.outermost] with
  | nil => rfl
  | cons s levels ih =>
    rw [List.map_cons, List.find?_cons, List.findSome?_cons, ← Scope.lookup_toMap]
    cases h : s.toMap.lookup name with
    | none =>
      rw [decide_eq_false (Finmap.lookup_eq_none.1 h)]
      exact ih
    | some id =>
      rw [decide_eq_true (Finmap.mem_iff.2 ⟨id, h⟩)]
      exact h

/-- What fails changes nothing. -/
theorem perform_of_failed {op : ScopeOp} {e : InternalError} (h : (t.perform op).1 = .failed e) :
    (t.perform op).2 = t := by
  cases op with
  | enter => cases h
  | exit =>
    rw [perform, tryExit] at h ⊢
    split at h
    · rfl
    · cases h
  | declare name id =>
    rw [perform, tryDeclare] at h ⊢
    split at h
    · next htaken => rw [if_pos htaken]; rfl
    · cases h
  | lookupLocal name | lookupChain name => rfl

/-- An operation on the table is the operation on the stack. -/
theorem stack_perform (t : ScopeTable) (op : ScopeOp) :
    t.stack.perform op = ((t.perform op).1, (t.perform op).2.stack) := by
  cases op with
  | enter => rfl
  | exit => rw [MapStack.perform, stack_exit, perform, answered_snd]
  | declare name id => rw [MapStack.perform, stack_declare, perform, answered_snd]
  | lookupLocal name => rw [MapStack.perform, stack_lookupLocal, perform]
  | lookupChain name => rw [MapStack.perform, stack_lookupChain, perform]

/-- So are operations one after the other. -/
theorem stack_performAll (t : ScopeTable) (ops : List ScopeOp) :
    performAll MapStack.perform t.stack ops =
      ((performAll perform t ops).1, (performAll perform t ops).2.stack) := by
  induction ops generalizing t with
  | nil => rfl
  | cons op ops ih =>
    dsimp only [performAll]
    rw [stack_perform, ih]

/-! ## Opening and closing -/

/-- The second table holds the scopes of the first one, and at least one inside them. -/
def Under (t u : ScopeTable) : Prop :=
  ∃ s inner, u.nested = s :: (inner ++ t.nested) ∧ u.outermost = t.outermost

namespace Under

theorem enter (t : ScopeTable) : t.Under t.enter := ⟨[], [], rfl, rfl⟩

/-- An operation after which more scopes are open than those of the first table leaves these as
they are. -/
theorem perform (h : t.Under u) {op : ScopeOp} (hdepth : t.depth < (u.perform op).2.depth) :
    t.Under (u.perform op).2 := by
  obtain ⟨s, inner, hnested, houter⟩ := h
  obtain ⟨outermost, nested⟩ := u
  subst hnested houter
  cases op with
  | enter => exact ⟨[], s :: inner, rfl, rfl⟩
  | exit =>
    cases inner with
    | nil => exact absurd hdepth (Nat.lt_irrefl _)
    | cons s' inner => exact ⟨s', inner, rfl, rfl⟩
  | declare name id =>
    rw [ScopeTable.perform, ScopeTable.tryDeclare]
    split
    · exact ⟨s, inner, rfl, rfl⟩
    · exact ⟨(name, id) :: s, inner, rfl, rfl⟩
  | lookupLocal name => exact ⟨s, inner, rfl, rfl⟩
  | lookupChain name => exact ⟨s, inner, rfl, rfl⟩

theorem performAll (h : t.Under u) {ops : List ScopeOp}
    (hdepth : ∀ k, t.depth < (performAll ScopeTable.perform u (ops.take k)).2.depth) :
    t.Under (performAll ScopeTable.perform u ops).2 := by
  induction ops generalizing u with
  | nil => exact h
  | cons op ops ih => exact ih (h.perform (hdepth 1)) fun k => hdepth (k + 1)

/-- If only one more scope is open, closing it leaves the first table. -/
theorem exit (h : t.Under u) (hdepth : u.depth = t.depth + 1) : u.tryExit = (.ok (), t) := by
  obtain ⟨s, inner, hnested, houter⟩ := h
  obtain ⟨outermost, nested⟩ := u
  subst hnested houter
  have hinner : inner = [] := by
    have hlength : inner.length + t.nested.length = t.nested.length := by
      simpa [depth] using hdepth
    exact List.length_eq_zero_iff.1 (by omega)
  rw [hinner]
  rfl

end Under

/-- Operations between the opening of a scope in the table and the closing of that scope: they
never close it, and in the end it is the innermost one again. -/
structure Encloses (t : ScopeTable) (ops : List ScopeOp) : Prop where
  inside : ∀ k, t.depth < (performAll perform t.enter (ops.take k)).2.depth
  level : (performAll perform t.enter ops).2.depth = t.depth + 1

/-- What is done between the opening of a scope and its closing leaves nothing behind. -/
theorem Encloses.performAll {ops : List ScopeOp} (h : t.Encloses ops) :
    performAll perform t (.enter :: (ops ++ [.exit])) =
      (.done :: ((performAll perform t.enter ops).1 ++ [.done]), t) := by
  have hexit := ((Under.enter t).performAll h.inside).exit h.level
  have hclose :
      BaseLang.performAll perform (BaseLang.performAll perform t.enter ops).2 [.exit] = ([.done], t) := by
    dsimp only [BaseLang.performAll, perform]
    rw [hexit]
    rfl
  dsimp only [BaseLang.performAll]
  rw [performAll_append]
  dsimp only [perform]
  rw [hclose]

end ScopeTable

/-! ## The main theorem -/

/-- The symbol that a name has is the one that the innermost map which holds it gives it. -/
theorem MapStack.lookupChain_eq_some_iff {m : MapStack} {name : String} {id : SymbolId} :
    m.lookupChain name = some id ↔ ∃ inner s outer, m.maps = inner ++ s :: outer ∧
      (∀ s' ∈ inner, name ∉ s') ∧ s.lookup name = some id := by
  rw [lookupChain, Option.bind_eq_some_iff]
  constructor
  · rintro ⟨s, hfind, hid⟩
    obtain ⟨-, inner, outer, hmaps, hinner⟩ := List.find?_eq_some_iff_append.1 hfind
    exact ⟨inner, s, outer, hmaps, fun s' hs' => by simpa using hinner s' hs', hid⟩
  · rintro ⟨inner, s, outer, hmaps, hinner, hid⟩
    refine ⟨s, List.find?_eq_some_iff_append.2 ⟨?_, inner, outer, hmaps, fun s' hs' => ?_⟩, hid⟩
    · exact decide_eq_true (Finmap.mem_iff.2 ⟨id, hid⟩)
    · simpa using hinner s' hs'

/-- A scope table is a stack of finite maps. Whatever operations are done from the start on, those on
the table answer as those on a list of maps that is never empty, and as many scopes are open as there are
maps. An operation that fails leaves the table as it was. A name stands for the symbol that it was
declared with in the innermost of the open scopes that hold it. And whatever is done between the
opening of a scope and its closing, failed operations included, the table is then the one from before,
so that its depth and all lookups are the same. -/
theorem scopes_are_maps (ops : List ScopeOp) :
    let t := (performAll ScopeTable.perform .empty ops).2
    let m := (performAll MapStack.perform .empty ops).2
    (performAll ScopeTable.perform .empty ops).1 = (performAll MapStack.perform .empty ops).1 ∧
      t.depth = m.maps.length ∧
      (∀ op e, (t.perform op).1 = .failed e → (t.perform op).2 = t) ∧
      (∀ name id, t.lookupChain name = some id ↔ ∃ inner s outer, m.maps = inner ++ s :: outer ∧
        (∀ s' ∈ inner, name ∉ s') ∧ s.lookup name = some id) ∧
      ∀ between, t.Encloses between →
        performAll ScopeTable.perform t (.enter :: (between ++ [.exit])) =
          (.done :: ((performAll ScopeTable.perform t.enter between).1 ++ [.done]), t) := by
  have hrun := ScopeTable.stack_performAll .empty ops
  change performAll MapStack.perform .empty ops = _ at hrun
  rw [hrun]
  refine ⟨rfl, (ScopeTable.length_stack _).symm, fun op e hfailed => ?_, fun name id => ?_, fun between h =>
    h.performAll⟩
  · exact ScopeTable.perform_of_failed hfailed
  · rw [← MapStack.lookupChain_eq_some_iff, ScopeTable.stack_lookupChain]

/-- A name that is declared outside, once more inside, and there a second time. -/
def shadowingOps : List ScopeOp :=
  [.lookupLocal "x", .declare "x" 1, .declare "x" 2, .enter, .exit, .lookupChain "x"]

theorem scopes_are_maps_shadowing :
    let t := (performAll ScopeTable.perform .empty [.declare "x" 0]).2
    t.Encloses shadowingOps ∧ performAll ScopeTable.perform t (.enter :: (shadowingOps ++ [.exit])) =
      ([.done, .found none, .done, .failed (.duplicateSymbol "x"), .done, .done, .found (some 1),
        .done], t) := by
  have hencloses : (performAll ScopeTable.perform .empty [.declare "x" 0]).2.Encloses shadowingOps := by
    refine ⟨fun k => ?_, by decide⟩
    by_cases hk : k < 6
    · decide +revert
    · rw [List.take_of_length_le (Nat.le_of_not_lt hk)]
      decide
  exact ⟨hencloses, (scopes_are_maps [.declare "x" 0]).2.2.2.2 shadowingOps hencloses⟩

end BaseLang
