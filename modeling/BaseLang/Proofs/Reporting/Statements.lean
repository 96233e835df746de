import BaseLang.Proofs.Reporting.Expressions
import BaseLang.Proofs.Resolving.Lexical
import Mathlib.Data.List.Nodup

/-
  What both passes report of statements and declarations.

  A declared name or a returned value can be reported twice: a name that is declared
  `void` may besides be taken already, and a value that is returned from a function
  without a result may besides be wrong in itself. Nothing else shares a position.

    1. `Clear` — what may stand at a position;
    2. `Tells` — diagnostics that stand at identifiers and literals among given marks,
       with nothing but what may stand there at each position;
    3. `Tells.append` — so it is for two parts of a program with different marks;
    4. `Stmt.tells`, `Decl.tells` — so it is for a statement and a declaration.
-/

namespace BaseLang

open scoped List

/-- The diagnostics that stand at a position. -/
def Diagnostics.standing (ds : Diagnostics) (x : Position) : Diagnostics :=
  ds.filter fun d => d.position = x

namespace Diagnostics
variable {ds es : Diagnostics} {x : Position}

@[simp] theorem standing_append : standing (ds ++ es) x = ds.standing x ++ es.standing x :=
  List.filter_append ..

theorem mem_standing {d : Diagnostic} : d ∈ ds.standing x ↔ d ∈ ds ∧ d.position = x := by
  simp [standing]

theorem standing_eq_nil (h : ∀ d ∈ ds, d.position ≠ x) : ds.standing x = [] :=
  List.filter_eq_nil_iff.2 fun d hd => by simpa using h d hd

theorem length_standing (ds : Diagnostics) (x : Position) : (ds.standing x).length = ds.places.count x := by
  induction ds with
  | nil => rfl
  | cons d ds ih =>
    rw [standing] at ih
    rw [standing, places, List.map_cons, List.count_cons, List.filter_cons, ← places, ← ih]
    by_cases h : d.position = x <;> simp [h]

end Diagnostics

mutual

/-- The values that a statement returns from a function whose result is nothing. -/
def Stmt.unwanted (result : Ty) : Stmt → List Expr
  | .ret (some v) _ => if result.isVoid then [v] else []
  | .ifThen _ b | .whileDo _ b => b.unwanted result
  | .ifElse _ b b' => b.unwanted result ++ b'.unwanted result
  | _ => []

def Block.unwanted (result : Ty) : Block → List Expr
  | .mk _ ss => Stmt.unwantedOfAll result ss

def Stmt.unwantedOfAll (result : Ty) : List Stmt → List Expr
  | [] => []
  | s :: ss => s.unwanted result ++ Stmt.unwantedOfAll result ss

end

def Decl.unwanted : Decl → List Expr
  | .function d => d.body.unwanted d.result.ty
  | _ => []

/-- The values that are returned in the functions of a program whose result is nothing. -/
def Program.unwanted (p : Program) : List Expr := p.decls.flatMap Decl.unwanted

/-! ## What may stand at a position -/

/-- What may stand at a position, of what name resolution and the checker have reported
about these mentions and returned values. -/
inductive Clear (mentions : List Mention) (values : List Expr) (N T : Diagnostics) (x : Position) : Prop
  | single (h : (N.standing x ++ T.standing x).length ≤ 1)
  | twice (d : Declaration) (hd : .declares d ∈ mentions) (hrole : d.role = .value .void)
      (hx : d.name.position = x) (pre post : Diagnostics)
      (hnext : N = pre ++ ⟨x, .nonFunctionVoid⟩ :: ⟨x, .multiplyDeclared⟩ :: post)
      (h : N.standing x ++ T.standing x = [⟨x, .nonFunctionVoid⟩, ⟨x, .multiplyDeclared⟩])
  | returned (v : Expr) (hv : v ∈ values) (hx : v.position = x) (d : Diagnostic)
      (hd : d.kind ≠ .returnWithValueInVoid)
      (h : N.standing x ++ T.standing x = [d, ⟨x, .returnWithValueInVoid⟩])

/-- The diagnostics stand at identifiers and literals among the marks, except that a return
without a value has no place, and at each position there is only what may be there. -/
structure Tells (ms : List Mark) (mentions : List Mention) (values : List Expr) (N T : Diagnostics) :
    Prop where
  placed : ∀ d ∈ N ++ T, d.kind = .returnValueMissing ∧ d.position = .nowhere ∨
    d.kind ≠ .returnValueMissing ∧ d.position ∈ placesOf ms
  clear : ∀ x, x ≠ .nowhere → Clear mentions values N T x

section Telling
variable {ms ms' : List Mark} {mentions mentions' : List Mention} {values values' : List Expr}
  {N N' T T' : Diagnostics} {x : Position}

theorem Clear.append_right (h : Clear mentions values N T x) (hN : N'.standing x = [])
    (hT : T'.standing x = []) : Clear (mentions ++ mentions') (values ++ values') (N ++ N') (T ++ T') x := by
  have hsame : (N ++ N').standing x ++ (T ++ T').standing x = N.standing x ++ T.standing x := by
    rw [Diagnostics.standing_append, Diagnostics.standing_append, hN, hT, List.append_nil, List.append_nil]
  cases h with
  | single h => exact .single (by rw [hsame]; exact h)
  | twice d hd hrole hx pre post hnext h =>
    refine .twice d (List.mem_append_left _ hd) hrole hx pre (post ++ N') ?_ (hsame.trans h)
    rw [hnext, List.append_assoc]
    rfl
  | returned v hv hx d hd h => exact .returned v (List.mem_append_left _ hv) hx d hd (hsame.trans h)

theorem Clear.append_left (h : Clear mentions values N T x) (hN : N'.standing x = [])
    (hT : T'.standing x = []) : Clear (mentions' ++ mentions) (values' ++ values) (N' ++ N) (T' ++ T) x := by
  have hsame : (N' ++ N).standing x ++ (T' ++ T).standing x = N.standing x ++ T.standing x := by
    rw [Diagnostics.standing_append, Diagnostics.standing_append, hN, hT, List.nil_append, List.nil_append]
  cases h with
  | single h => exact .single (by rw [hsame]; exact h)
  | twice d hd hrole hx pre post hnext h =>
    refine .twice d (List.mem_append_right _ hd) hrole hx (N' ++ pre) post ?_ (hsame.trans h)
    rw [hnext, List.append_assoc]
  | returned v hv hx d hd h => exact .returned v (List.mem_append_right _ hv) hx d hd (hsame.trans h)

namespace Tells

/-- Nothing stands where there is no mark. -/
theorem silent (h : Tells ms mentions values N T) (hx : x ≠ .nowhere) (hms : x ∉ placesOf ms) :
    N.standing x = [] ∧ T.standing x = [] := by
  have helsewhere : ∀ d ∈ N ++ T, d.position ≠ x := by
    intro d hd heq
    rcases h.placed d hd with ⟨-, hnowhere⟩ | ⟨-, hplace⟩
    · exact hx (heq.symm.trans hnowhere)
    · exact hms (heq ▸ hplace)
  exact ⟨Diagnostics.standing_eq_nil fun d hd => helsewhere d (List.mem_append_left _ hd),
    Diagnostics.standing_eq_nil fun d hd => helsewhere d (List.mem_append_right _ hd)⟩

/-- Two parts of a program, with different marks. -/
theorem append (h : Tells ms mentions values N T) (h' : Tells ms' mentions' values' N' T')
    (hnodup : (placesOf (ms ++ ms')).Nodup) :
    Tells (ms ++ ms') (mentions ++ mentions') (values ++ values') (N ++ N') (T ++ T') := by
  rw [placesOf_append] at hnodup
  obtain ⟨-, -, hdisjoint⟩ := List.nodup_append.1 hnodup
  constructor
  · have hmono : ∀ d : Diagnostic, (d ∈ N ++ T ∨ d ∈ N' ++ T') → d.kind = .returnValueMissing ∧
        d.position = .nowhere ∨ d.kind ≠ .returnValueMissing ∧ d.position ∈ placesOf (ms ++ ms') := by
      intro d hd
      rw [placesOf_append]
      rcases hd with hd | hd
      · exact (h.placed d hd).imp id fun hplaced => ⟨hplaced.1, List.mem_append_left _ hplaced.2⟩
      · exact (h'.placed d hd).imp id fun hplaced => ⟨hplaced.1, List.mem_append_right _ hplaced.2⟩
    intro d hd
    apply hmono d
    simp only [List.mem_append] at hd ⊢
    rcases hd with (hd | hd) | (hd | hd)
    · exact .inl (.inl hd)
    · exact .inr (.inl hd)
    · exact .inl (.inr hd)
    · exact .inr (.inr hd)
  · intro x hx
    by_cases hms : x ∈ placesOf ms
    · -- the second part has no mark there
      obtain ⟨hN, hT⟩ := h'.silent hx fun hms' => hdisjoint x hms x hms' rfl
      exact (h.clear x hx).append_right hN hT
    · obtain ⟨hN, hT⟩ := h.silent hx hms
      exact (h'.clear x hx).append_left hN hT

/-- More mentions, in any order. -/
theorem mono (h : Tells ms mentions values N T) (hsub : mentions ⊆ mentions') :
    Tells ms mentions' values N T where
  placed := h.placed
  clear x hx := by
    cases h.clear x hx with
    | single h => exact .single h
    | twice d hd hrole hplace pre post hnext h => exact .twice d (hsub hd) hrole hplace pre post hnext h
    | returned v hv hplace d hd h => exact .returned v hv hplace d hd h

theorem nil (ms : List Mark) (mentions : List Mention) (values : List Expr) :
    Tells ms mentions values [] [] :=
  ⟨nofun, fun _ _ => .single (Nat.zero_le _)⟩

end Tells

theorem Sparse.length_standing (h : Sparse (N ++ T) ms) (hnodup : (placesOf ms).Nodup) (x : Position) :
    (N.standing x ++ T.standing x).length ≤ 1 := by
  rw [← Diagnostics.standing_append, Diagnostics.length_standing]
  calc (Diagnostics.places (N ++ T)).count x
      ≤ (placesOf ms).count x := h.places.count_le x
    _ ≤ 1 := List.nodup_iff_count_le_one.1 hnodup x

/-- Where there is at most one diagnostic for each mark, there is one at each position. -/
theorem Sparse.tells (h : Sparse (N ++ T) ms) (hnodup : (placesOf ms).Nodup) (mentions : List Mention)
    (values : List Expr) : Tells ms mentions values N T where
  placed d hd := .inr ⟨(h.plain d hd).1, h.places.subset (List.mem_map_of_mem hd)⟩
  clear x _ := .single (h.length_standing hnodup x)

end Telling

section Nodup
variable {ms ms' : List Mark}

theorem nodup_left (h : (placesOf (ms ++ ms')).Nodup) : (placesOf ms).Nodup := by
  rw [placesOf_append] at h
  exact (List.nodup_append.1 h).1

theorem nodup_right (h : (placesOf (ms ++ ms')).Nodup) : (placesOf ms').Nodup := by
  rw [placesOf_append] at h
  exact (List.nodup_append.1 h).2.1

end Nodup

/-! ## Declarations of names -/

theorem Binding.typeFaults_sparse {b : Binding} {d : VarDecl} (h : d.type ≠ .void) :
    Sparse (b.typeFaults d) d.type.marks := by
  obtain ⟨type, name⟩ := d
  cases type with
  | void => exact absurd rfl h
  | logical | integer => exact .nil _
  | tuple t =>
    rw [typeFaults]
    dsimp only
    split
    · exact .one List.mem_cons_self (by decide)
    · exact .nil _

/-- The fault of a name that the table holds already. -/
def takenFaults (t : ScopeTable) (x : Ident) : Diagnostics :=
  if (t.lookupLocal x.name).isSome then [⟨x.position, .multiplyDeclared⟩] else []

theorem takenFaults_sparse (t : ScopeTable) (x : Ident) : Sparse (takenFaults t x) [x.mark] := by
  rw [takenFaults]
  split
  · exact .one List.mem_cons_self (by decide)
  · exact .nil _

/-- A name that is declared `void` may be taken besides, which is reported after it. -/
theorem void_tells (t : ScopeTable) {d : Declaration} (hvoid : d.role = .value .void) :
    Tells [d.name.mark] [.declares d] []
      (⟨d.name.position, .nonFunctionVoid⟩ :: takenFaults t d.name) [] := by
  have htaken := takenFaults_sparse t d.name
  constructor
  · intro f hf
    rw [List.append_nil] at hf
    rcases List.mem_cons.1 hf with rfl | hf
    · exact .inr ⟨by simp, List.mem_cons_self⟩
    · exact .inr ⟨(htaken.plain f hf).1, htaken.places.subset (List.mem_map_of_mem hf)⟩
  · intro x _
    rw [takenFaults]
    split
    · by_cases hx : d.name.position = x
      · refine .twice d List.mem_cons_self hvoid hx [] [] ?_ ?_
        · rw [hx]
          rfl
        · simp [Diagnostics.standing, hx]
      · apply Clear.single
        simp [Diagnostics.standing, hx]
    · apply Clear.single
      rw [← Diagnostics.standing_append, List.append_nil]
      exact List.length_filter_le _ _

/-- What is reported of a declaration of a variable, a formal or a field. -/
theorem VarDecl.tells {b : Binding} {t : ScopeTable} {d : VarDecl} (scope around : ScopePath)
    (hnodup : (placesOf d.marks).Nodup) :
    Tells d.marks [.declares (d.declaration scope around)] [] (b.declFaults t d) [] := by
  by_cases hvoid : d.type = .void
  · have hmarks : d.marks = [d.name.mark] := by
      rw [VarDecl.marks, hvoid]
      rfl
    have hfaults : b.declFaults t d = ⟨d.name.position, .nonFunctionVoid⟩ :: takenFaults t d.name := by
      rw [Binding.declFaults, Binding.typeFaults, hvoid]
      rfl
    rw [hmarks, hfaults]
    exact void_tells t (d := d.declaration scope around) (congrArg Role.value hvoid)
  · have htype : Sparse (b.typeFaults d ++ []) d.type.marks := by
      rw [List.append_nil]
      exact Binding.typeFaults_sparse hvoid
    have hname : Sparse (takenFaults t d.name ++ []) [d.name.mark] := by
      rw [List.append_nil]
      exact takenFaults_sparse t d.name
    exact (htype.merge hname).tells hnodup _ _

namespace Binding

/-- What is reported of variables and formals. -/
theorem varsFaults_tells (scope : ScopePath) : ∀ {ds : List VarDecl} {b : Binding},
    (placesOf (ds.flatMap VarDecl.marks)).Nodup →
    Tells (ds.flatMap VarDecl.marks) (ds.map fun d => .declares (d.declaration scope scope)) []
      (b.varsFaults ds) []
  | [], _, _ => .nil _ _ _
  | d :: ds, _, hnodup => by
    rw [List.flatMap_cons] at hnodup ⊢
    exact (VarDecl.tells scope scope (nodup_left hnodup)).append
      (varsFaults_tells scope (nodup_right hnodup)) hnodup

/-- What is reported of fields. -/
theorem fieldsFaults_tells (scope around : ScopePath) : ∀ {ds : List VarDecl} {b : Binding} {t : ScopeTable},
    (placesOf (ds.flatMap VarDecl.marks)).Nodup →
    Tells (ds.flatMap VarDecl.marks) (ds.map fun d => .declares (d.declaration scope around)) []
      (b.fieldsFaults t ds) []
  | [], _, _, _ => .nil _ _ _
  | d :: ds, _, _, hnodup => by
    rw [List.flatMap_cons] at hnodup ⊢
    exact (VarDecl.tells scope around (nodup_left hnodup)).append
      (fieldsFaults_tells scope around (nodup_right hnodup)) hnodup

theorem nameFaults_tells {b : Binding} {x : Ident} (mentions : List Mention) :
    Tells [x.mark] mentions [] (b.nameFaults x) [] := by
  have hsparse : Sparse (b.nameFaults x ++ []) [x.mark] := by
    rw [List.append_nil]
    exact takenFaults_sparse b.scopes x
  exact hsparse.tells (List.nodup_singleton x.position) _ _

theorem found_vars (scope : ScopePath) : ∀ (ds : List VarDecl) (b : Binding),
    b.found (ds.map (.var scope)) = b.varsFaults ds
  | [], _ => rfl
  | d :: ds, b => congrArg (b.declFaults b.scopes d ++ ·) (found_vars scope ds (b.afterVar d))

end Binding

theorem mentions_vars (scope : ScopePath) (ds : List VarDecl) :
    (ds.map (Step.var scope)).flatMap Step.mentions =
      ds.map fun d => .declares (d.declaration scope scope) := by
  rw [List.flatMap_map]
  exact List.map_eq_flatMap.symm

/-! ## Statements -/

namespace Typing
variable {r : Resolution}

theorem modest_one {e : Expr} {k : DiagnosticKind} {quiet : Bool} (hk : k.IsPlain)
    (h : exprType r e = .error → quiet = true) :
    Modest [exprType r e] [e.position] (if quiet then [] else [⟨e.position, k⟩]) := by
  by_cases hquiet : quiet = true
  · rw [if_pos hquiet]
    exact .nothing
  · rw [if_neg hquiet]
    refine .one (fun herror => hquiet (h ?_)) hk
    exact (List.mem_singleton.1 herror).symm

theorem condition_modest {e : Expr} {k : DiagnosticKind} (hk : k.IsPlain) :
    Modest [exprType r e] [e.position]
      (if (exprType r e).isError || (exprType r e).isLogical then [] else [⟨e.position, k⟩]) := by
  apply modest_one hk
  intro herror
  rw [herror]
  rfl

theorem step_modest {l : Loc} :
    Modest [exprType r (.loc l)] [(Expr.loc l).position] (stepFaults r l) := by
  apply modest_one (by decide)
  intro herror
  rw [show locType r l = .error from herror]
  rfl

theorem faultAt_modest {e : Expr} {kind : Option DiagnosticKind}
    (hsilent : exprType r e = .error → kind = none) (hplain : ∀ k, kind = some k → k.IsPlain) :
    Modest [exprType r e] [e.position] (faultAt e.position kind) := by
  cases kind with
  | none => exact .nothing
  | some k =>
    refine .one (fun herror => ?_) (hplain k rfl)
    cases hsilent (List.mem_singleton.1 herror).symm

theorem read_modest {l : Loc} :
    Modest [exprType r (.loc l)] [(Expr.loc l).position] (faultAt l.position (readFault? (locType r l))) := by
  apply faultAt_modest (e := .loc l)
  · intro herror
    rw [show locType r l = .error from herror]
    rfl
  · intro k hk
    unfold readFault? at hk
    split at hk <;> cases hk <;> decide

theorem write_modest {e : Expr} :
    Modest [exprType r e] [e.position] (faultAt e.position (writeFault? e (exprType r e))) := by
  apply faultAt_modest
  · intro herror
    rw [herror]
    rfl
  · intro k hk
    cases ht : exprType r e <;>
      simp only [ht, writeFault?, reduceCtorEq, Option.some.injEq, Option.ite_none_right_eq_some] at hk
    · obtain ⟨-, rfl⟩ := hk
      decide
    all_goals
      subst hk
      decide

end Typing

section Statements
variable {r : Resolution} (result : Ty)

/-- What is reported of an expression that stands in a statement. -/
theorem Expr.tells (hr : r.Sound) {scope : ScopePath} {e : Expr} {b : Binding} {own : Diagnostics}
    (h : Settles r b (e.steps scope)) (hnodup : (placesOf e.marks).Nodup)
    (hown : Typing.Modest [Typing.exprType r e] [e.position] own) :
    Tells e.marks ((e.steps scope).flatMap Step.mentions) [] (b.found (e.steps scope))
      (Typing.exprFaults r e ++ own) :=
  (Expr.sparse_under scope hr h hown).tells hnodup _ _

/-- What is reported of a value that is returned from a function without a result. -/
theorem Expr.tells_unwanted (hr : r.Sound) {scope : ScopePath} {e : Expr} {b : Binding}
    (h : Settles r b (e.steps scope)) (hnodup : (placesOf e.marks).Nodup) :
    Tells e.marks ((e.steps scope).flatMap Step.mentions) [e] (b.found (e.steps scope))
      (Typing.exprFaults r e ++ [⟨e.position, .returnWithValueInVoid⟩]) := by
  have hsparse := Expr.sparse scope hr h
  constructor
  · intro d hd
    rw [← List.append_assoc] at hd
    rcases List.mem_append.1 hd with hd | hd
    · exact .inr ⟨(hsparse.plain d hd).1, hsparse.places.subset (List.mem_map_of_mem hd)⟩
    · rw [List.mem_singleton.1 hd]
      exact .inr ⟨nofun, e.position_mem⟩
  · intro x _
    have hlength := hsparse.length_standing hnodup x
    rw [← Diagnostics.standing_append] at hlength
    by_cases hx : e.position = x
    · -- the value itself may have been reported at its position
      have hall : (b.found (e.steps scope)).standing x ++
          Diagnostics.standing (Typing.exprFaults r e ++ [⟨e.position, .returnWithValueInVoid⟩]) x =
          Diagnostics.standing (b.found (e.steps scope) ++ Typing.exprFaults r e) x ++
            [⟨x, .returnWithValueInVoid⟩] := by
        simp [Diagnostics.standing, hx]
      cases hd : Diagnostics.standing (b.found (e.steps scope) ++ Typing.exprFaults r e) x with
      | nil =>
        apply Clear.single
        rw [hall, hd]
        exact Nat.le_refl 1
      | cons d rest =>
        have hrest : rest = [] := by
          rw [hd, List.length_cons] at hlength
          apply List.eq_nil_of_length_eq_zero
          omega
        subst hrest
        have hmem : d ∈ Diagnostics.standing (b.found (e.steps scope) ++ Typing.exprFaults r e) x := by
          rw [hd]
          exact List.mem_cons_self
        refine .returned e List.mem_cons_self hx d ?_ (by rw [hall, hd]; rfl)
        exact (hsparse.plain d (Diagnostics.mem_standing.1 hmem).1).2
    · apply Clear.single
      have hnone : Diagnostics.standing [⟨e.position, .returnWithValueInVoid⟩] x = [] := by
        simp [Diagnostics.standing, hx]
      rw [Diagnostics.standing_append, hnone, List.append_nil, ← Diagnostics.standing_append]
      exact hlength

/-- What is reported of declarations followed by statements. -/
theorem Block.tells_body {scope : ScopePath} {ds : List VarDecl} {ss : List Stmt} {b : Binding}
    (hss : Tells (Stmt.marksOfAll ss) ((Stmt.stepsOfAll scope 0 ss).flatMap Step.mentions)
      (Stmt.unwantedOfAll result ss)
      (((ds.map (Step.var scope)).foldl Binding.after b).found (Stmt.stepsOfAll scope 0 ss))
      (Typing.checkStmts r result ss))
    (hnodup : (placesOf (Block.mk ds ss).marks).Nodup) :
    Tells (Block.mk ds ss).marks (((Block.mk ds ss).bodySteps scope).flatMap Step.mentions)
      ((Block.mk ds ss).unwanted result) (b.found ((Block.mk ds ss).bodySteps scope))
      (Typing.checkBlock r result (.mk ds ss)) := by
  have hvars := Binding.varsFaults_tells scope (b := b) (nodup_left hnodup)
  rw [Block.bodySteps, List.flatMap_append, mentions_vars, Binding.found_append, Binding.found_vars]
  exact hvars.append hss hnodup

mutual

/-- What is reported of a statement in a function with this type of result. -/
theorem Stmt.tells (hr : r.Sound) {scope : ScopePath} {k : Nat} : ∀ {s : Stmt} {b : Binding},
    Settles r b (s.steps scope k) → (placesOf s.marks).Nodup →
    Tells s.marks ((s.steps scope k).flatMap Step.mentions) (s.unwanted result)
      (b.found (s.steps scope k)) (Typing.checkStmt r result s)
  | .assign l v, _, h, hnodup =>
    (Expr.sparse scope hr (e := .assign l v) h).tells hnodup _ _
  | .increment l, _, h, hnodup | .decrement l, _, h, hnodup =>
    Expr.tells hr (e := .loc l) h hnodup Typing.step_modest
  | .ifThen c body, _, h, hnodup => by
    obtain ⟨hc, hbody⟩ := h.of_append
    have hcond := Expr.tells hr hc (nodup_left hnodup)
      (Typing.condition_modest (k := .nonLogicalIfCondition) (by decide))
    have hthen := Block.tells hr hbody (nodup_right hnodup)
    rw [Stmt.steps, List.flatMap_append, Binding.found_append]
    exact hcond.append hthen hnodup
  | .whileDo c body, _, h, hnodup => by
    obtain ⟨hc, hbody⟩ := h.of_append
    have hcond := Expr.tells hr hc (nodup_left hnodup)
      (Typing.condition_modest (k := .nonLogicalWhileCondition) (by decide))
    have hloop := Block.tells hr hbody (nodup_right hnodup)
    rw [Stmt.steps, List.flatMap_append, Binding.found_append]
    exact hcond.append hloop hnodup
  | .ifElse c body other, _, h, hnodup => by
    obtain ⟨hc, hblocks⟩ := h.of_append
    obtain ⟨hbody, hother⟩ := hblocks.of_append
    have hbranches := nodup_right hnodup
    have hcond := Expr.tells hr hc (nodup_left hnodup)
      (Typing.condition_modest (k := .nonLogicalIfCondition) (by decide))
    have hthen := Block.tells hr hbody (nodup_left hbranches)
    have helse := Block.tells hr hother (nodup_right hbranches)
    rw [Stmt.steps, List.flatMap_append, List.flatMap_append, Binding.found_append, Binding.found_append]
    exact hcond.append (hthen.append helse hbranches) hnodup
  | .read l, _, h, hnodup => Expr.tells hr (e := .loc l) h hnodup Typing.read_modest
  | .write v, _, h, hnodup => Expr.tells hr (e := v) h hnodup Typing.write_modest
  | .call f args, _, h, hnodup => (Expr.sparse scope hr (e := .call f args) h).tells hnodup _ _
  | .ret none p, b, h, hnodup => by
    show Tells _ [] [] [] (if result.isVoid then [] else [⟨.nowhere, .returnValueMissing⟩])
    split
    · exact .nil _ _ _
    · constructor
      · intro d hd
        rw [List.mem_singleton.1 hd]
        exact .inl ⟨rfl, rfl⟩
      · intro x hx
        have hnone : Diagnostics.standing [⟨.nowhere, .returnValueMissing⟩] x = [] := by
          simp [Diagnostics.standing, hx.symm]
        apply Clear.single
        rw [hnone]
        exact Nat.zero_le 1
  | .ret (some v) p, b, h, hnodup => by
    -- the word itself is no place of a report
    have hmarks : ∀ {mentions values N T}, Tells v.marks mentions values N T →
        Tells (Stmt.marks (.ret (some v) p)) mentions values N T := fun h => ⟨h.placed, h.clear⟩
    apply hmarks
    show Tells v.marks ((v.steps scope).flatMap Step.mentions) (if result.isVoid then [v] else [])
      (b.found (v.steps scope)) (Typing.exprFaults r v ++
        if result.isVoid then [⟨v.position, .returnWithValueInVoid⟩]
        else if (Typing.exprType r v).isError || (Typing.exprType r v).same result then []
        else [⟨v.position, .returnValueWrongType⟩])
    by_cases hvoid : result.isVoid = true
    · rw [if_pos hvoid, if_pos hvoid]
      exact Expr.tells_unwanted hr h hnodup
    · rw [if_neg hvoid, if_neg hvoid]
      apply Expr.tells hr h hnodup
      apply Typing.modest_one (by decide)
      intro herror
      rw [herror]
      rfl

theorem Block.tells (hr : r.Sound) {scope : ScopePath} : ∀ {body : Block} {b : Binding},
    Settles r b (body.steps scope) → (placesOf body.marks).Nodup →
    Tells body.marks ((body.steps scope).flatMap Step.mentions) (body.unwanted result)
      (b.found (body.steps scope)) (Typing.checkBlock r result body)
  | .mk ds ss, b, h, hnodup => by
    have hsteps : (Block.mk ds ss).steps scope =
        .enter scope :: ((Block.mk ds ss).bodySteps scope ++ [.exit scope]) := by
      rw [Block.steps, Block.bodySteps, List.append_assoc]
    have hmentions : ((Block.mk ds ss).steps scope).flatMap Step.mentions =
        ((Block.mk ds ss).bodySteps scope).flatMap Step.mentions := by
      rw [hsteps, List.flatMap_cons, List.flatMap_append]
      simp [Step.mentions]
    have hfound : b.found ((Block.mk ds ss).steps scope) =
        b.inside.found ((Block.mk ds ss).bodySteps scope) := by
      rw [hsteps, Binding.found, Binding.found_append]
      exact List.append_nil _
    rw [hsteps] at h
    obtain ⟨hbody, -⟩ := h.2.of_append
    rw [hmentions, hfound]
    exact Block.tells_body result (Stmt.tells_all hr hbody.of_append.2 (nodup_right hnodup)) hnodup

theorem Stmt.tells_all (hr : r.Sound) {scope : ScopePath} {k : Nat} : ∀ {ss : List Stmt} {b : Binding},
    Settles r b (Stmt.stepsOfAll scope k ss) → (placesOf (Stmt.marksOfAll ss)).Nodup →
    Tells (Stmt.marksOfAll ss) ((Stmt.stepsOfAll scope k ss).flatMap Step.mentions)
      (Stmt.unwantedOfAll result ss) (b.found (Stmt.stepsOfAll scope k ss))
      (Typing.checkStmts r result ss)
  | [], _, _, _ => .nil _ _ _
  | s :: ss, b, h, hnodup => by
    obtain ⟨hs, hss⟩ := h.of_append
    have hfirst := Stmt.tells hr hs (nodup_left hnodup)
    have hrest := Stmt.tells_all hr hss (nodup_right hnodup)
    rw [Stmt.stepsOfAll, List.flatMap_append, Binding.found_append]
    exact hfirst.append hrest hnodup

end

end Statements

/-! ## Declarations of a program -/

section Declarations
variable {r : Resolution}

/-- What is reported of a declaration of a program. -/
theorem Decl.tells (hr : r.Sound) {k : Nat} {d : Decl} {b : Binding} (h : Settles r b (d.steps k))
    (hnodup : (placesOf d.marks).Nodup) :
    Tells d.marks ((d.steps k).flatMap Step.mentions) d.unwanted (b.found (d.steps k))
      (Typing.checkDecl r d) := by
  cases d with
  | var d =>
    have hvar : Tells d.marks [.declares (d.declaration [] [])] [] (b.declFaults b.scopes d) [] :=
      VarDecl.tells [] [] hnodup
    show Tells d.marks [.declares (d.declaration [] [])] [] (b.declFaults b.scopes d ++ []) []
    rw [List.append_nil]
    exact hvar
  | function d =>
    obtain ⟨result, name, formals, ds, ss⟩ := d
    let whole : FunctionDecl := ⟨result, name, formals, .mk ds ss⟩
    let scope : ScopePath := [(k, false)]
    have hrest : (placesOf (formals.flatMap VarDecl.marks ++ (Block.mk ds ss).marks)).Nodup :=
      (List.nodup_cons.1 (nodup_right hnodup)).2
    have hbody := h.2.of_append.1
    have hname := Binding.nameFaults_tells (b := b) (x := name) [.declares ⟨name, [], [], .function result⟩]
    have hformals := Binding.varsFaults_tells scope (b := (b.afterFunctionName whole).inside)
      (nodup_left hrest)
    have hblock := Block.tells_body result.ty
      (Stmt.tells_all result.ty hr hbody.of_append.2 (nodup_right (nodup_right hrest))) (nodup_right hrest)
    have hall := (Tells.nil result.marks [] []).append
      (hname.append (hformals.append hblock hrest) (nodup_right hnodup)) hnodup
    have hmentions : ((Decl.function whole).steps k).flatMap Step.mentions =
        (.declares ⟨name, [], [], .function result⟩ ::
          formals.map fun f => .declares (f.declaration scope scope)) ++
          (whole.body.bodySteps scope).flatMap Step.mentions := by
      rw [Decl.steps, List.flatMap_cons, List.flatMap_append, List.flatMap_singleton]
      exact congrArg (_ ++ ·) (List.append_nil _)
    have hfound : b.found ((Decl.function whole).steps k) =
        (b.nameFaults name ++ (b.afterFunctionName whole).inside.varsFaults formals) ++
          (b.afterHeading whole).found (whole.body.bodySteps scope) := by
      rw [Decl.steps, Binding.found, Binding.found_append]
      exact congrArg (_ ++ ·) (List.append_nil _)
    rw [hmentions, hfound, List.append_assoc]
    exact hall
  | tuple d =>
    obtain ⟨name, fields⟩ := d
    have hname := Binding.nameFaults_tells (b := b) (x := name) []
    have hfields := Binding.fieldsFaults_tells [(k, false)] [] (b := b.atFields ⟨name, fields⟩)
      (t := .empty) (List.nodup_cons.1 hnodup).2
    have hall := hname.append hfields hnodup
    show Tells _ (((fields.map fun f => .declares (f.declaration [(k, false)] [])) ++ [_]) ++ []) []
      ((b.nameFaults name ++ (b.atFields ⟨name, fields⟩).fieldsFaults .empty fields) ++ []) []
    rw [List.append_nil, List.append_nil]
    exact hall.mono (List.subset_append_left _ _)

theorem Decl.tells_all (hr : r.Sound) : ∀ {ds : List Decl} {k : Nat} {b : Binding},
    Settles r b (Decl.stepsOfAll k ds) → (placesOf (ds.flatMap Decl.marks)).Nodup →
    Tells (ds.flatMap Decl.marks) ((Decl.stepsOfAll k ds).flatMap Step.mentions)
      (ds.flatMap Decl.unwanted) (b.found (Decl.stepsOfAll k ds)) (ds.flatMap (Typing.checkDecl r))
  | [], _, _, _, _ => .nil _ _ _
  | d :: ds, k, b, h, hnodup => by
    obtain ⟨hd, hds⟩ := h.of_append
    rw [List.flatMap_cons] at hnodup
    have hfirst := Decl.tells hr hd (nodup_left hnodup)
    have hrest := Decl.tells_all hr hds (nodup_right hnodup)
    rw [Decl.stepsOfAll, List.flatMap_append, Binding.found_append]
    exact hfirst.append hrest hnodup

end Declarations

end BaseLang
