import BaseLang.Proofs.Isolation.Steps
import BaseLang.Proofs.Resolving.Nesting
import BaseLang.Proofs.Resolving.Persistence

/-
  What the body of a function leaves behind.

    1. `Binding.Confined` — from one state to another only the innermost scope has changed,
       and no symbol that there was; `Block.confined_body` — so it is from the beginning of
       a body to its end;
    2. `Resolution.Keeps.embeds` — a resolution holds the one that it goes on from, but for
       the nodes touched in between, under numbers that let a gap for its own symbols;
    3. `Binding.Confined.embeds` — when the scope of the body is closed, the state holds the
       one in which nothing was done, the symbols that were made later under numbers that
       are higher by as many as the body has made.
-/

namespace BaseLang

namespace ScopeTable

/-- Once the innermost scope is closed, it does not matter what it was. -/
theorem nested_tail_setInnermost {t : ScopeTable} (h : t.nested ≠ []) (s : Scope) :
    (t.setInnermost s).outermost = t.outermost ∧ (t.setInnermost s).nested.tail = t.nested.tail := by
  obtain ⟨outermost, nested⟩ := t
  cases nested with
  | nil => exact absurd rfl h
  | cons _ _ => exact ⟨rfl, rfl⟩

end ScopeTable

namespace Binding

/-! ## Inside a scope -/

/-- From the first state to the second the innermost scope may have changed and symbols may
have been made, but all else that names stand for is as it was. -/
structure Confined (b b' : Binding) : Prop where
  scopes : ∃ s, b'.scopes = b.scopes.setInnermost s
  next : b.resolution.nextSymbol ≤ b'.resolution.nextSymbol
  symbols : ∀ id < b.resolution.nextSymbol, b'.resolution.symbol? id = b.resolution.symbol? id

namespace Confined
variable {b b' b'' : Binding}

theorem refl (b : Binding) : Confined b b :=
  ⟨⟨_, b.scopes.setInnermost_innermost.symm⟩, Nat.le_refl _, fun _ _ => rfl⟩

theorem trans (h : Confined b b') (h' : Confined b' b'') : Confined b b'' := by
  refine ⟨?_, Nat.le_trans h.next h'.next, fun id hid => ?_⟩
  · obtain ⟨s, hs⟩ := h.scopes
    obtain ⟨s', hs'⟩ := h'.scopes
    exact ⟨s', by rw [hs', hs, ScopeTable.setInnermost_setInnermost]⟩
  · rw [h'.symbols id (Nat.lt_of_lt_of_le hid h.next), h.symbols id hid]

/-- What is done in a scope that is opened and closed leaves no name in the one around it. -/
theorem outside (h : Confined b.inside b') : Confined b b'.outside := by
  obtain ⟨s, hs⟩ := h.scopes
  have hscopes : b'.outside.scopes = b.scopes := by
    rw [Binding.outside, hs]
    rfl
  exact ⟨⟨_, hscopes.trans b.scopes.setInnermost_innermost.symm⟩, h.next, h.symbols⟩

theorem use (b : Binding) (l : Loc) : Confined b (b.afterUse l) :=
  ⟨⟨_, b.scopes.setInnermost_innermost.symm⟩, (b.keeps_use l).next, (b.keeps_use l).symbols⟩

theorem var (b : Binding) (d : VarDecl) : Confined b (b.afterVar d) := by
  have hkeeps := b.keeps_decl b.scopes (b.tableAfter b.scopes d) d
  refine ⟨?_, hkeeps.next, hkeeps.symbols⟩
  show ∃ s, b.tableAfter b.scopes d = _
  rw [tableAfter]
  split
  · exact ⟨_, rfl⟩
  · exact ⟨_, b.scopes.setInnermost_innermost.symm⟩

theorem uses (scope : ScopePath) : ∀ (ls : List Loc) (b : Binding),
    Confined b ((ls.map (.use scope)).foldl after b)
  | [], b => .refl b
  | l :: ls, b => (use b l).trans (uses scope ls (b.afterUse l))

theorem vars (scope : ScopePath) : ∀ (ds : List VarDecl) (b : Binding),
    Confined b ((ds.map (.var scope)).foldl after b)
  | [], b => .refl b
  | d :: ds, b => (var b d).trans (vars scope ds (b.afterVar d))

end Confined

end Binding

open Binding (Confined)

theorem Expr.confined (scope : ScopePath) (e : Expr) (b : Binding) :
    Confined b ((e.steps scope).foldl Binding.after b) := .uses scope e.places b

mutual

theorem Stmt.confined (scope : ScopePath) (k : Nat) : ∀ (s : Stmt) (b : Binding),
    Confined b ((s.steps scope k).foldl Binding.after b)
  | .assign l v, b => (Confined.use b l).trans (v.confined scope (b.afterUse l))
  | .increment l, b | .decrement l, b | .read l, b => .use b l
  | .ifThen c blk, b | .whileDo c blk, b => by
    rw [Stmt.steps, List.foldl_append]
    exact (c.confined scope b).trans (Block.confined _ blk _)
  | .ifElse c blk blk', b => by
    rw [Stmt.steps, List.foldl_append, List.foldl_append]
    exact (c.confined scope b).trans ((Block.confined _ blk _).trans (Block.confined _ blk' _))
  | .write v, b => v.confined scope b
  | .call g args, b => (Expr.call g args).confined scope b
  | .ret none _, b => .refl b
  | .ret (some v) _, b => v.confined scope b

theorem Block.confined (scope : ScopePath) : ∀ (blk : Block) (b : Binding),
    Confined b ((blk.steps scope).foldl Binding.after b)
  | .mk ds ss, b => by
    rw [Block.steps, List.foldl_cons, List.foldl_append, List.foldl_append]
    exact ((Confined.vars scope ds b.inside).trans (Stmt.confinedAll scope 0 ss _)).outside

theorem Stmt.confinedAll (scope : ScopePath) (k : Nat) : ∀ (ss : List Stmt) (b : Binding),
    Confined b ((Stmt.stepsOfAll scope k ss).foldl Binding.after b)
  | [], b => .refl b
  | s :: ss, b => by
    rw [Stmt.stepsOfAll, List.foldl_append]
    exact (Stmt.confined scope k s b).trans (Stmt.confinedAll scope (k + 1) ss _)

end

/-- The body of a function changes the scope of its formals only. -/
theorem Block.confined_body (scope : ScopePath) (blk : Block) (b : Binding) :
    Confined b ((blk.bodySteps scope).foldl Binding.after b) := by
  obtain ⟨ds, ss⟩ := blk
  rw [Block.bodySteps, List.foldl_append]
  exact (Confined.vars scope ds b).trans (Stmt.confinedAll scope 0 ss _)

/-! ## What is there when the scope is closed -/

/-- The numbers from the bound on, higher by so many. -/
def shift (bound more id : Nat) : Nat := if id < bound then id else id + more

theorem shift_injective (bound more : Nat) : Function.Injective (shift bound more) := by
  intro i j h
  simp only [shift] at h
  split at h <;> split at h <;> omega

theorem shift_of_lt {bound id : Nat} (more : Nat) (h : id < bound) : shift bound more id = id := if_pos h

theorem shift_of_le {bound id : Nat} (more : Nat) (h : bound ≤ id) : shift bound more id = id + more :=
  if_neg (Nat.not_lt.2 h)

/-! A renumbering that keeps the numbers of the symbols there are keeps all that refers to them. -/

section Kept
variable {f : SymbolId → SymbolId} {r : Resolution} (hf : ∀ id < r.nextSymbol, f id = id)
include hf

theorem Scope.renumber_eq {s : Scope} (hs : ∀ e ∈ s, e.2 < r.nextSymbol) : Scope.renumber f s = s := by
  refine (List.map_congr_left fun e he => ?_).trans (List.map_id s)
  exact Prod.ext rfl (hf e.2 (hs e he))

theorem ScopeTable.Leads.renumber_eq {t : ScopeTable} (h : t.Leads r) : t.renumber f = t := by
  have hlevel : ∀ s ∈ t.levels, Scope.renumber f s = s := by
    intro s hs
    refine Scope.renumber_eq hf fun e he => ?_
    obtain ⟨s', hs', -⟩ := h s hs e he
    exact Resolution.symbol?_lt hs'
  obtain ⟨outermost, nested⟩ := t
  have houter : Scope.renumber f outermost = outermost := hlevel _ (List.mem_append_right _ List.mem_cons_self)
  have hnested : nested.map (Scope.renumber f) = nested :=
    (List.map_congr_left fun s hs => hlevel s (List.mem_append_left _ hs)).trans (List.map_id nested)
  rw [ScopeTable.renumber, houter, hnested]

theorem Resolution.Sound.renumber_eq (h : r.Sound) {id : SymbolId} {s : Symbol} (hs : r.symbol? id = some s) :
    s.renumber f = s := by
  have hsound := h.symbols id s hs
  have hid := Resolution.symbol?_lt hs
  obtain ⟨name, kind⟩ := s
  cases kind with
  | «variable» _ | function _ _ => rfl
  | tupleInstance tupleName definition =>
    exact congrArg (fun d => Symbol.mk name (.tupleInstance tupleName d)) (hf _ (Nat.lt_trans hsound.1 hid))
  | tupleDef fields =>
    obtain ⟨outermost, nested⟩ := fields
    obtain ⟨rfl, hfields⟩ := hsound
    have houter : Scope.renumber f outermost = outermost :=
      Scope.renumber_eq hf fun e he => Nat.lt_trans (hfields e he).1 hid
    exact congrArg (fun s => Symbol.mk name (.tupleDef ⟨s, []⟩)) houter

end Kept

/-- A resolution holds the one that it goes on from, but for the nodes touched in between. -/
theorem Resolution.Keeps.embeds {r r' : Resolution} {nodes : List NodeId} (h : r.Keeps r') (hr : r.Sound)
    (hlinks : ∀ i ∉ nodes, r'.links.find? i = r.links.find? i)
    (haccesses : ∀ i ∉ nodes, r'.accesses.find? i = r.accesses.find? i) :
    r.Embeds (shift r.nextSymbol (r'.nextSymbol - r.nextSymbol)) nodes r' := by
  have hkeep : ∀ id < r.nextSymbol, shift r.nextSymbol (r'.nextSymbol - r.nextSymbol) id = id :=
    fun id hid => shift_of_lt _ hid
  refine ⟨shift_injective _ _, fun k => ?_, fun id => ?_, fun i hi => ?_, fun i hi => ?_⟩
  · rw [shift_of_le _ (Nat.le_add_right _ _), Nat.add_right_comm, Nat.add_sub_of_le h.next]
  · by_cases hid : id < r.nextSymbol
    · rw [hkeep id hid, h.symbols id hid]
      cases hs : r.symbol? id with
      | none => rfl
      | some s => rw [Option.map_some, hr.renumber_eq hkeep hs]
    · -- neither resolution has a symbol of that number
      have hle : r.nextSymbol ≤ id := Nat.not_lt.1 hid
      have hnone : r.symbol? id = none := Array.getElem?_eq_none hle
      have hle' : r'.nextSymbol ≤ id + (r'.nextSymbol - r.nextSymbol) :=
        calc r'.nextSymbol = r.nextSymbol + (r'.nextSymbol - r.nextSymbol) := (Nat.add_sub_of_le h.next).symm
          _ ≤ id + (r'.nextSymbol - r.nextSymbol) := Nat.add_le_add_right hle _
      rw [shift_of_le _ hle, hnone]
      exact Array.getElem?_eq_none hle'
  · rw [hlinks i hi]
    cases hid : r.links.find? i with
    | none => rfl
    | some id =>
      obtain ⟨s, hs⟩ := hr.links i id hid
      rw [Option.map_some, hkeep id (Resolution.symbol?_lt hs)]
  · exact congrArg _ (haccesses i hi)

/-- When its scope is closed, a body has left nothing but its symbols and what is found at
its own nodes. -/
theorem Binding.Confined.embeds {b b' : Binding} {nodes : List NodeId} (h : Confined b b')
    (hev : Binding.Evolves nodes b b') (hb : b.Sound) (hopen : b.scopes.nested ≠ []) :
    b.outside.Embeds
      (shift b.resolution.nextSymbol (b'.resolution.nextSymbol - b.resolution.nextSymbol)) nodes b'.outside := by
  have hkeeps : b.resolution.Keeps b'.resolution := ⟨h.next, h.symbols⟩
  refine ⟨?_, hkeeps.embeds hb.resolution hev.links hev.accesses⟩
  obtain ⟨s, hs⟩ := h.scopes
  obtain ⟨houter, htail⟩ := ScopeTable.nested_tail_setInnermost hopen s
  have hscopes : b'.outside.scopes = b.outside.scopes := by
    show ScopeTable.mk b'.scopes.outermost b'.scopes.nested.tail = _
    rw [hs, houter, htail]
    rfl
  have hkeep : ∀ id < b.outside.resolution.nextSymbol,
      shift b.resolution.nextSymbol (b'.resolution.nextSymbol - b.resolution.nextSymbol) id = id :=
    fun id hid => shift_of_lt _ hid
  rw [hb.outside.scopes.renumber_eq hkeep, hscopes]

end BaseLang
