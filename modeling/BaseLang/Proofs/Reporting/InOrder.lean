import BaseLang.Proofs.Grammar.Placing
import BaseLang.Proofs.Grammar.SourceOrder
import BaseLang.Proofs.Reporting.Expressions
import BaseLang.Proofs.Resolving.Lexical
import BaseLang.Proofs.Resolving.Occurrences

/-
  Name resolution reports in source order.

  Each step of the resolver reports at its own identifiers, from the first to the last of them.
  A location has one fault at most, at whichever of its names it stops; only a declared name can
  have two. As the steps hold the identifiers of the program in their order, and these stand in
  the order of their tokens, so do the diagnostics.

    1. `Diagnostics.Along` — diagnostics at the identifiers of a list, in their order;
    2. `Loc.along`, `VarDecl.along`, `Step.along` — those of one step;
    3. `Binding.found_along` — those of steps one after the other;
    4. `idents_in_order` — the identifiers of a source;
    5. `resolveNames_in_order` — the diagnostics of name resolution.
-/

namespace BaseLang

variable {mentions : List Mention}

/-- The first diagnostic stands before the second. Or both are about one declared name: that it is
`void`, and that it is taken. -/
inductive Diagnostic.Precedes (mentions : List Mention) : Diagnostic → Diagnostic → Prop
  | before {d d'} (h : d.position.before d'.position) : Precedes mentions d d'
  | again (d : Declaration) (hd : .declares d ∈ mentions) (hrole : d.role = .value .void) :
    Precedes mentions ⟨d.name.position, .nonFunctionVoid⟩ ⟨d.name.position, .multiplyDeclared⟩

/-- A diagnostic that is not about a taken name comes after the others. -/
theorem Diagnostic.Precedes.before_of_kind {mentions : List Mention} {d d' : Diagnostic}
    (h : d.Precedes mentions d') (hkind : d'.kind ≠ .multiplyDeclared) : d.position.before d'.position := by
  cases h with
  | before h => exact h
  | again => exact absurd rfl hkind

/-! ## Along a list of identifiers -/

/-- The diagnostics stand at some of the identifiers, in their order. There is one at each, or two at
a declared name that is `void` and taken. -/
inductive Diagnostics.Along (mentions : List Mention) : List Ident → Diagnostics → Prop
  | nil : Along mentions [] []
  | skip (x) {xs ds} (h : Along mentions xs ds) : Along mentions (x :: xs) ds
  | one (x k) {xs ds} (h : Along mentions xs ds) : Along mentions (x :: xs) (⟨x.position, k⟩ :: ds)
  | two (d : Declaration) (hd : .declares d ∈ mentions) (hrole : d.role = .value .void) {xs ds}
      (h : Along mentions xs ds) : Along mentions (d.name :: xs)
        (⟨d.name.position, .nonFunctionVoid⟩ :: ⟨d.name.position, .multiplyDeclared⟩ :: ds)

namespace Diagnostics.Along
variable {xs ys : List Ident} {ds es : Diagnostics}

theorem silent (mentions : List Mention) : ∀ xs : List Ident, Along mentions xs []
  | [] => .nil
  | x :: xs => .skip x (silent mentions xs)

/-- One identifier, at which something stands on a condition. -/
theorem when (mentions : List Mention) (x : Ident) (k : DiagnosticKind) (c : Prop) [Decidable c] :
    Along mentions [x] (if c then [⟨x.position, k⟩] else []) := by
  split
  · exact .one x k .nil
  · exact .silent _ _

theorem append (h : Along mentions xs ds) (h' : Along mentions ys es) :
    Along mentions (xs ++ ys) (ds ++ es) := by
  induction h with
  | nil => exact h'
  | skip x _ ih => exact .skip x ih
  | one x k _ ih => exact .one x k ih
  | two d hd hrole _ ih => exact .two d hd hrole ih

/-- Identifiers at which nothing stands, after the others. -/
theorem rest (h : Along mentions xs ds) (ys : List Ident) : Along mentions (xs ++ ys) ds := by
  have hboth := h.append (silent mentions ys)
  rwa [List.append_nil] at hboth

/-- Identifiers at which nothing stands, before the others. -/
theorem after (xs : List Ident) (h : Along mentions ys es) : Along mentions (xs ++ ys) es :=
  (silent mentions xs).append h

theorem position_mem (h : Along mentions xs ds) : ∀ d ∈ ds, ∃ x ∈ xs, x.position = d.position := by
  induction h with
  | nil => nofun
  | skip x _ ih =>
    intro d hd
    obtain ⟨y, hy, hplace⟩ := ih d hd
    exact ⟨y, List.mem_cons_of_mem _ hy, hplace⟩
  | one x k _ ih =>
    rw [List.forall_mem_cons]
    refine ⟨⟨x, List.mem_cons_self, rfl⟩, fun d hd => ?_⟩
    obtain ⟨y, hy, hplace⟩ := ih d hd
    exact ⟨y, List.mem_cons_of_mem _ hy, hplace⟩
  | two d _ _ _ ih =>
    rw [List.forall_mem_cons, List.forall_mem_cons]
    refine ⟨⟨d.name, List.mem_cons_self, rfl⟩, ⟨d.name, List.mem_cons_self, rfl⟩, fun d hd => ?_⟩
    obtain ⟨y, hy, hplace⟩ := ih d hd
    exact ⟨y, List.mem_cons_of_mem _ hy, hplace⟩

/-- Along identifiers that stand in order, so do the diagnostics. -/
theorem pairwise (h : Along mentions xs ds)
    (hxs : xs.Pairwise fun x y => x.position.before y.position) :
    ds.Pairwise (Diagnostic.Precedes mentions) := by
  have hlater : ∀ {x : Ident} {xs : List Ident} {ds : Diagnostics} (k : DiagnosticKind),
      (∀ y ∈ xs, x.position.before y.position) → Along mentions xs ds →
      ∀ d ∈ ds, Diagnostic.Precedes mentions ⟨x.position, k⟩ d := by
    intro x xs ds k hx h d hd
    obtain ⟨y, hy, hplace⟩ := h.position_mem d hd
    exact .before (hplace ▸ hx y hy)
  induction h with
  | nil => exact .nil
  | skip x _ ih => exact ih (List.pairwise_cons.1 hxs).2
  | one x k h ih =>
    obtain ⟨hx, hxs⟩ := List.pairwise_cons.1 hxs
    exact .cons (hlater k hx h) (ih hxs)
  | two d hd hrole h ih =>
    obtain ⟨hx, hxs⟩ := List.pairwise_cons.1 hxs
    refine .cons ?_ (.cons (hlater _ hx h) (ih hxs))
    rw [List.forall_mem_cons]
    exact ⟨.again d hd hrole, hlater _ hx h⟩

end Diagnostics.Along

open Diagnostics (Along)

/-! ## What a step reports -/

/-- A location ends with the identifier at which it stands. -/
theorem Loc.idents_eq (l : Loc) : ∃ xs x, l.idents = xs ++ [x] ∧ x.position = l.position := by
  cases l with
  | ident x => exact ⟨[], x, rfl, rfl⟩
  | access id base f => exact ⟨base.idents, f, rfl, rfl⟩

/-- The fault of a location that has not been linked: where its base has one, the rest of it has none. -/
theorem Loc.along {b : Binding} : ∀ {l : Loc}, b.resolution.Fresh l.nodes →
    Along mentions l.idents (b.locFaults l)
  | .ident x, _ => by
    rw [Binding.locFaults, Loc.idents]
    split
    · exact .one x _ .nil
    · exact .silent _ _
  | .access id l f, hfresh => by
    have hbase := along hfresh.left
    rw [Binding.locFaults, Loc.idents]
    by_cases hnil : b.locFaults l = []
    · rw [hnil, List.nil_append, Binding.colonFaults, Binding.fieldFaults]
      cases b.symbolAt? l with
      | none => exact .silent _ _
      | some id =>
        dsimp only [Option.bind_some]
        cases b.resolution.tupleOf? id with
        | none =>
          obtain ⟨xs, x, hidents, hplace⟩ := l.idents_eq
          rw [hidents, ← hplace]
          exact (Along.after xs (.one x _ .nil)).rest [f]
        | some definition =>
          dsimp only
          cases b.resolution.fieldOf? definition f.name with
          | none => exact .after _ (.one f _ .nil)
          | some _ => exact .silent _ _
    · rw [Binding.colon_field_silent hfresh.left hnil, List.append_nil]
      exact hbase.rest [f]

/-- A declaration is reported at the name of its type, then at its own. -/
theorem VarDecl.along {b : Binding} {t : ScopeTable} {d : VarDecl} {scope around : ScopePath}
    (hd : .declares (d.declaration scope around) ∈ mentions) :
    Along mentions d.idents (b.declFaults t d) := by
  have hname := Along.when mentions d.name .multiplyDeclared ((t.lookupLocal d.name.name).isSome = true)
  rw [VarDecl.idents, Binding.declFaults, Binding.typeFaults]
  cases htype : d.type with
  | logical | integer => exact hname
  | tuple u =>
    refine Along.append ?_ hname
    dsimp only
    split
    · exact .one u _ .nil
    · exact .silent _ _
  | void =>
    change Along mentions [d.name] (⟨d.name.position, .nonFunctionVoid⟩ :: _)
    split
    · exact .two (d.declaration scope around) hd (congrArg Role.value htype) .nil
    · exact .one d.name _ .nil

namespace Binding

theorem nameFaults_along (b : Binding) (x : Ident) : Along mentions [x] (b.nameFaults x) :=
  .when mentions x .multiplyDeclared _

theorem varsFaults_along (scope : ScopePath) : ∀ {ds : List VarDecl} {b : Binding},
    (∀ d ∈ ds, .declares (d.declaration scope scope) ∈ mentions) →
    Along mentions (ds.flatMap VarDecl.idents) (b.varsFaults ds)
  | [], _, _ => .nil
  | _ :: _, _, h =>
    have h := List.forall_mem_cons.1 h
    (VarDecl.along h.1).append (varsFaults_along scope h.2)

theorem fieldsFaults_along (scope around : ScopePath) :
    ∀ {ds : List VarDecl} {b : Binding} {t : ScopeTable},
    (∀ d ∈ ds, .declares (d.declaration scope around) ∈ mentions) →
    Along mentions (ds.flatMap VarDecl.idents) (b.fieldsFaults t ds)
  | [], _, _, _ => .nil
  | _ :: _, _, _, h =>
    have h := List.forall_mem_cons.1 h
    (VarDecl.along h.1).append (fieldsFaults_along scope around h.2)

/-- A step reports along its identifiers. -/
theorem faults_along {r : Resolution} {b : Binding} {s : Step} (hs : s.Settled r b)
    (hmentions : ∀ m ∈ s.mentions, m ∈ mentions) : Along mentions s.idents (b.faults s) := by
  cases s with
  | use _ l => exact Loc.along hs.1
  | enter _ | exit _ => exact .nil
  | var scope d => exact VarDecl.along (hmentions _ List.mem_cons_self)
  | heading scope d =>
    refine (nameFaults_along b d.name).append (varsFaults_along scope fun f hf => ?_)
    exact hmentions _ (List.mem_cons_of_mem _ (List.mem_map_of_mem hf))
  | tuple scope d =>
    refine (nameFaults_along b d.name).append (fieldsFaults_along scope scope.tail fun f hf => ?_)
    exact hmentions _ (List.mem_append_left _ (List.mem_map_of_mem hf))

/-- Steps report along their identifiers, one after the other. -/
theorem found_along {r : Resolution} : ∀ {steps : List Step} {b : Binding}, Settles r b steps →
    (∀ m ∈ steps.flatMap Step.mentions, m ∈ mentions) →
    Along mentions (steps.flatMap Step.idents) (b.found steps)
  | [], _, _, _ => .nil
  | _ :: _, _, hs, hmentions => by
    rw [List.flatMap_cons, List.forall_mem_append] at hmentions
    exact (faults_along hs.1 hmentions.1).append (found_along hs.2 hmentions.2)

end Binding

/-! ## The identifiers of a source -/

/-- Names that are taken from tokens stand in the order of the tokens. -/
theorem Grammar.Labels.pairwise {n m : NodeId} {ts : List Token} {xs : List Ident} {as : List NodeId}
    (h : Labels n ts xs as m) (hts : ts.Pairwise fun t u => t.start.before u.start) :
    xs.Pairwise fun x y => x.position.before y.position := by
  have hnumbered : (numbered n ts).Pairwise fun a b => a.1.start.before b.1.start := by
    have hfirst : (numbered n ts).map Prod.fst = ts.filter Token.isNumbered := List.zipIdx_map_fst n _
    rw [← List.pairwise_map (f := Prod.fst) (R := fun t u : Token => t.start.before u.start), hfirst]
    exact hts.filter _
  have hposition : ∀ {a : Token × NodeId} {x : Ident}, identAt? a = some x → x.position = a.1.start := by
    rintro ⟨t, i⟩ x hx
    rw [identAt?] at hx
    split at hx
    · cases hx
      rfl
    · cases hx
  rw [h.names_eq]
  refine hnumbered.filterMap _ fun a b hbefore x hx y hy => ?_
  rw [hposition hx, hposition hy]
  exact hbefore

/-- The identifiers of a program stand in the source in the order in which the tree has them. -/
theorem idents_in_order {source : String} {p : Program} (hsize : utf8Length source.toList < 2 ^ 32 - 1)
    (h : Program.ofSource? source = .ok p) :
    p.idents.Pairwise fun x y => x.position.before y.position := by
  obtain ⟨tokens, hscan, hparse⟩ := ofSource?_eq_ok h
  obtain ⟨m, hd⟩ := derives_beforeEnd hparse
  exact hd.labels.pairwise ((scan_starts hsize hscan).1.sublist (List.takeWhile_sublist _))

/-- Name resolution reports in source order. Whatever it says of a program that was read from a
source of fewer than `2 ^ 32 - 1` bytes, each diagnostic stands before all that come after it; except
that a name that is declared `void` may besides be taken, which is said next. -/
theorem resolveNames_in_order {source : String} {p : Program} (hsize : utf8Length source.toList < 2 ^ 32 - 1)
    (h : Program.ofSource? source = .ok p) :
    ∃ r ds, resolveNames p = .ok (r, ds) ∧ ds.Pairwise (Diagnostic.Precedes p.mentions) := by
  obtain ⟨tokens, -, hparse⟩ := ofSource?_eq_ok h
  have hsettles := Program.settles (Grammar.parse_nodup hparse)
  have halong : Along p.mentions _ _ := Binding.found_along hsettles fun _ hm => hm
  rw [Program.steps_idents (Grammar.parse_results hparse), ← Program.resolved_diagnostics] at halong
  exact ⟨_, _, resolveNames_eq p, halong.pairwise (idents_in_order hsize h)⟩

/-- A name that is `void` and taken, a type that is none, and accesses and uses that fail, on two lines. -/
def manifoldSource : String :=
  "tuple t \x7b integer a. \x7d. integer x. void x. tuple u w. tuple t v.\n" ++
    "void f \x7b \x7d [ write << x:a + v:q + v:a:b. y(z). ]"

def manifoldFaults : Diagnostics :=
  [⟨⟨1, 41⟩, .nonFunctionVoid⟩, ⟨⟨1, 41⟩, .multiplyDeclared⟩, ⟨⟨1, 50⟩, .invalidTupleType⟩,
    ⟨⟨2, 23⟩, .colonAccessOfNonTuple⟩, ⟨⟨2, 31⟩, .invalidTupleField⟩, ⟨⟨2, 37⟩, .colonAccessOfNonTuple⟩,
    ⟨⟨2, 42⟩, .undeclaredIdentifier⟩, ⟨⟨2, 44⟩, .undeclaredIdentifier⟩]

theorem resolveNames_in_order_manifold : utf8Length manifoldSource.toList < 2 ^ 32 - 1 ∧
    ∃ p r, Program.ofSource? manifoldSource = .ok p ∧ resolveNames p = .ok (r, manifoldFaults) ∧
      manifoldFaults.Pairwise (Diagnostic.Precedes p.mentions) := by
  have hsize : utf8Length manifoldSource.toList < 2 ^ 32 - 1 := by decide +kernel
  have hcheck : ((Program.ofSource? manifoldSource).toOption.bind fun p =>
      (resolveNames p).toOption.map Prod.snd) = some manifoldFaults := by decide +kernel
  cases hp : Program.ofSource? manifoldSource with
  | error e =>
    rw [hp] at hcheck
    cases hcheck
  | ok p =>
    obtain ⟨r, ds, hrun, horder⟩ := resolveNames_in_order hsize hp
    rw [hp] at hcheck
    have hfaults : (resolveNames p).toOption.map Prod.snd = some manifoldFaults := hcheck
    rw [hrun] at hfaults
    cases hfaults
    exact ⟨hsize, p, r, rfl, hrun, horder⟩

/-- In a longer source two faults can stand at one position: here the second name is `2 ^ 32` bytes
after the first one. -/
theorem resolveNames_not_in_order :
    ∃ p r ds, Program.ofSource? (spacedSource (2 ^ 32 - 7)) = .ok p ∧ resolveNames p = .ok (r, ds) ∧
      ds = [⟨⟨1, 6⟩, .nonFunctionVoid⟩, ⟨⟨1, 6⟩, .nonFunctionVoid⟩] ∧
      ¬ ds.Pairwise (Diagnostic.Precedes p.mentions) := by
  obtain ⟨tokens, hscan, hparse⟩ := parse_spaced (2 ^ 32 - 7)
  have hplaces : twoVoids (.narrow ⟨1, 6⟩) (.narrow ⟨1, 13 + (2 ^ 32 - 7)⟩) = twoVoids ⟨1, 6⟩ ⟨1, 6⟩ := rfl
  have hsource := ofSource?_eq_ok_iff.2 ⟨tokens, hscan, hparse.trans (congrArg _ hplaces)⟩
  have hrun : resolveNames (twoVoids ⟨1, 6⟩ ⟨1, 6⟩) =
      .ok (.empty, [⟨⟨1, 6⟩, .nonFunctionVoid⟩, ⟨⟨1, 6⟩, .nonFunctionVoid⟩]) := rfl
  refine ⟨_, _, _, hsource, hrun, rfl, ?_⟩
  intro horder
  have hfirst := (List.pairwise_cons.1 horder).1 _ List.mem_cons_self
  exact Position.not_before_self _ (hfirst.before_of_kind nofun)

end BaseLang
