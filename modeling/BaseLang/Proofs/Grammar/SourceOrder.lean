import BaseLang.Proofs.Concrete.Language
import BaseLang.Proofs.Typing.Reported
import Mathlib.Data.List.Infix

/-
  Which token each number belongs to.

  The identifiers and the colons before the first end of the input are numbered in their
  order, from zero. An identifier of the program has the number, the text and the place of
  its token, and a field access has the number of its colon.

    1. `Token.isNumbered`, `numbered` — the tokens with their numbers;
    2. `Labels` — a phrase takes its names and accesses from its tokens, in their order,
       with a lemma for each way to put tokens together;
    3. `Phrase.labels`, `Sentence.labels`, `Declared.labels` — every derivation does so;
    4. `Loc.Ordered` — an access is numbered between its base and its field;
    5. `parse_source_order` — the main theorem.
-/

namespace BaseLang

/-- Whether the token takes a number: an identifier does, and a colon, for the access that
it makes. -/
def Token.isNumbered (t : Token) : Bool := t.kind = .identifier || t.kind = .colon

/-- The tokens that take numbers, with those that they take from the given one on. -/
def numbered (n : NodeId) (ts : List Token) : List (Token × NodeId) :=
  (ts.filter Token.isNumbered).zipIdx n

def identAt? : Token × NodeId → Option Ident
  | (t, i) => if t.kind = .identifier then some ⟨i, t.text, t.start⟩ else none

def accessAt? : Token × NodeId → Option NodeId
  | (t, i) => if t.kind = .colon then some i else none

/-- The tokens that take numbers are the identifiers and the accesses. -/
theorem perm_of_isNumbered {ts : List (Token × NodeId)} (h : ∀ x ∈ ts, x.1.isNumbered = true) :
    ((ts.filterMap identAt?).map Ident.id ++ ts.filterMap accessAt?).Perm (ts.map Prod.snd) := by
  induction ts with
  | nil => exact .nil
  | cons x ts ih =>
    obtain ⟨t, i⟩ := x
    have hrest := ih fun y hy => h y (List.mem_cons_of_mem _ hy)
    have ht : t.kind = .identifier ∨ t.kind = .colon := by
      simpa [Token.isNumbered] using h (t, i) List.mem_cons_self
    rcases ht with ht | ht
    · simpa [identAt?, accessAt?, ht] using hrest
    · simpa [identAt?, accessAt?, ht] using List.perm_middle.trans (hrest.cons i)

/-- In every access of the location the base has smaller numbers and the field the next. -/
def Loc.Ordered : Loc → Prop
  | .ident _ => True
  | .access id base field => base.Ordered ∧ (∀ i ∈ base.nodes, i < id) ∧ field.id = id + 1

namespace Grammar

/-! ## Names and accesses of tokens -/

/-- The names and the accesses are those of the tokens, which take the numbers from the
first up to the last. -/
structure Labels (n : NodeId) (ts : List Token) (names : List Ident) (accesses : List NodeId)
    (m : NodeId) : Prop where
  names_eq : names = (numbered n ts).filterMap identAt?
  accesses_eq : accesses = (numbered n ts).filterMap accessAt?
  next_eq : m = n + ts.countP Token.isNumbered

namespace Labels
variable {n k m : NodeId} {ts us : List Token} {t : Token} {xs ys : List Ident} {as bs : List NodeId}

theorem nil (n : NodeId) : Labels n [] [] [] n := ⟨rfl, rfl, rfl⟩

theorem append (h : Labels n ts xs as k) (h' : Labels k us ys bs m) :
    Labels n (ts ++ us) (xs ++ ys) (as ++ bs) m := by
  obtain ⟨rfl, rfl, rfl⟩ := h
  obtain ⟨rfl, rfl, rfl⟩ := h'
  have hsplit : numbered n (ts ++ us) =
      numbered n ts ++ numbered (n + ts.countP Token.isNumbered) us := by
    rw [numbered, List.filter_append, List.zipIdx_append, ← List.countP_eq_length_filter]
    rfl
  refine ⟨?_, ?_, ?_⟩
  · rw [hsplit, List.filterMap_append]
  · rw [hsplit, List.filterMap_append]
  · rw [List.countP_append, Nat.add_assoc]

/-- An identifier takes the number. -/
theorem name (ht : t.kind = .identifier) : Labels n [t] [⟨n, t.text, t.start⟩] [] (n + 1) := by
  have hnumbered : t.isNumbered = true := by simp [Token.isNumbered, ht]
  refine ⟨?_, ?_, ?_⟩
  · simp [numbered, hnumbered, identAt?, ht]
  · simp [numbered, hnumbered, accessAt?, ht]
  · simp [hnumbered]

/-- A colon takes the number. -/
theorem colon (ht : t.kind = .colon) : Labels n [t] [] [n] (n + 1) := by
  have hnumbered : t.isNumbered = true := by simp [Token.isNumbered, ht]
  refine ⟨?_, ?_, ?_⟩
  · simp [numbered, hnumbered, identAt?, ht]
  · simp [numbered, hnumbered, accessAt?, ht]
  · simp [hnumbered]

/-- Any other token takes none. -/
theorem other {κ : TokenKind} (ht : t.kind = κ) (hκ : κ ≠ .identifier ∧ κ ≠ .colon) :
    Labels n [t] [] [] n := by
  have hnumbered : t.isNumbered = false := by simp [Token.isNumbered, ht, hκ]
  refine ⟨?_, ?_, ?_⟩
  · simp [numbered, hnumbered]
  · simp [numbered, hnumbered]
  · simp [hnumbered]

/-- Another token before the rest. -/
theorem skip {κ : TokenKind} (ht : t.kind = κ) (hκ : κ ≠ .identifier ∧ κ ≠ .colon)
    (h : Labels n ts xs as m) : Labels n (t :: ts) xs as m :=
  (other ht hκ).append h

/-- Other tokens after the rest. -/
theorem close (h : Labels n ts xs as m) (h' : Labels m us [] [] m) : Labels n (ts ++ us) xs as m := by
  simpa using h.append h'

end Labels

/-! ## Derivations -/

section Lists
variable {α : Type} {G : Form α} (identsOf : α → List Ident) (accessesOf : α → List NodeId)
  {n m : NodeId} {ts : List Token} {as : List α}

theorem Repeated.labels (hG : ∀ n ts a m, G n ts a m → Labels n ts (identsOf a) (accessesOf a) m)
    (h : Repeated G n ts as m) : Labels n ts (as.flatMap identsOf) (as.flatMap accessesOf) m := by
  induction h with
  | nil => exact .nil _
  | cons h _ ih =>
    rw [List.flatMap_cons, List.flatMap_cons]
    exact (hG _ _ _ _ h).append ih

theorem Commas.labels (hG : ∀ n ts a m, G n ts a m → Labels n ts (identsOf a) (accessesOf a) m)
    (h : Commas G n ts as m) : Labels n ts (as.flatMap identsOf) (as.flatMap accessesOf) m := by
  induction h with
  | one h =>
    rw [List.flatMap_singleton, List.flatMap_singleton]
    exact hG _ _ _ _ h
  | more h hc _ ih =>
    rw [List.flatMap_cons, List.flatMap_cons]
    exact (hG _ _ _ _ h).append (ih.skip hc (by decide))

theorem Separated.labels (hG : ∀ n ts a m, G n ts a m → Labels n ts (identsOf a) (accessesOf a) m)
    (h : Separated G n ts as m) : Labels n ts (as.flatMap identsOf) (as.flatMap accessesOf) m := by
  cases h with
  | none => exact .nil _
  | some h => exact h.labels _ _ hG

end Lists

theorem SimpleType.labels {n : NodeId} {t : Token} {type : TypeName} (h : SimpleType t type) :
    Labels n [t] type.idents [] n := by
  cases h with
  | logical ht | integer ht | void ht => exact .other ht (by decide)

theorem Typed.labels {n : NodeId} {ts : List Token} {type : TypeName} {m : NodeId}
    (h : Typed n ts type m) : Labels n ts type.idents [] m := by
  cases h with
  | simple h => exact h.labels
  | tuple ht hu => exact (Labels.name hu).skip ht (by decide)

theorem Variable.labels {n : NodeId} {ts : List Token} {d : VarDecl} {m : NodeId}
    (h : Variable n ts d m) : Labels n ts d.idents [] m := by
  obtain ⟨h, hu, hd⟩ := h
  exact h.labels.append ((Labels.name hu).close (.other hd (by decide)))

/-- Variables have no accesses. -/
theorem Variable.labels_all {n : NodeId} {ts : List Token} {ds : List VarDecl} {m : NodeId}
    (h : Repeated Variable n ts ds m) : Labels n ts (ds.flatMap VarDecl.idents) [] m := by
  have hall := h.labels _ (fun _ => []) fun _ _ _ _ h => h.labels
  rwa [List.flatMap_eq_nil_iff.2 fun _ _ => rfl] at hall

theorem Formal.labels {n : NodeId} {ts : List Token} {d : VarDecl} {m : NodeId}
    (h : Formal n ts d m) : Labels n ts d.idents [] m := by
  obtain ⟨h, hu⟩ := h
  exact h.labels.append (.name hu)

theorem Formal.labels_all {n : NodeId} {ts : List Token} {ds : List VarDecl} {m : NodeId}
    (h : Separated Formal n ts ds m) : Labels n ts (ds.flatMap VarDecl.idents) [] m := by
  have hall := h.labels _ (fun _ => []) fun _ _ _ _ h => h.labels
  rwa [List.flatMap_eq_nil_iff.2 fun _ _ => rfl] at hall

theorem unaryOp?_not_numbered {κ : TokenKind} {op : UnaryOp} (h : unaryOp? κ = some op) :
    κ ≠ .identifier ∧ κ ≠ .colon := by
  constructor
  · rintro rfl
    cases h
  · rintro rfl
    cases h

theorem binaryOp_not_numbered (op : BinaryOp) : op.kind ≠ .identifier ∧ op.kind ≠ .colon := by
  cases op <;> decide

mutual

theorem Phrase.labels {p : BindingPower} {n : NodeId} {ts : List Token} {e : Expr} {m : NodeId} :
    Phrase p n ts e m → Labels n ts e.idents e.accesses m
  | .int ht _ | .string ht | .true ht | .false ht => .other ht (by decide)
  | .name ht => .name ht
  | .group ho h hc => (h.labels.close (.other hc (by decide))).skip ho (by decide)
  | .call h ho hargs hc =>
    h.labels.append (((Phrase.labels_arguments hargs).close (.other hc (by decide))).skip ho (by decide))
  | .access h hc hf => h.labels.append ((Labels.colon hc).append (.name hf))
  | .unary ht h => h.labels.skip rfl (unaryOp?_not_numbered ht)
  | .binary hl ht _ _ hr => hl.labels.append (hr.labels.skip ht (binaryOp_not_numbered _))
  | .assign h ht hv => h.labels.append (hv.labels.skip ht (by decide))
  | .weaken _ h => h.labels

theorem Phrase.labels_arguments {n : NodeId} {ts : List Token} {es : List Expr} {m : NodeId} :
    Separated (Phrase .assignment) n ts es m →
      Labels n ts (Expr.identsOfAll es) (Expr.accessesOfAll es) m
  | .none => .nil _
  | .some h => Phrase.labels_list h

theorem Phrase.labels_list {n : NodeId} {ts : List Token} {es : List Expr} {m : NodeId} :
    Commas (Phrase .assignment) n ts es m →
      Labels n ts (Expr.identsOfAll es) (Expr.accessesOfAll es) m
  | .one h => by
    rw [Expr.identsOfAll, Expr.identsOfAll, Expr.accessesOfAll, Expr.accessesOfAll, List.append_nil,
      List.append_nil]
    exact h.labels
  | .more h hc hs => h.labels.append ((Phrase.labels_list hs).skip hc (by decide))

end

mutual

theorem Sentence.labels {n : NodeId} {ts : List Token} {s : Stmt} {m : NodeId} :
    Sentence n ts s m → Labels n ts s.idents (s.exprs.flatMap Expr.accesses) m
  | .assign h hd | .call h hd => by
    rw [Stmt.exprs, List.flatMap_singleton]
    exact h.labels.close (.other hd (by decide))
  | .increment h ho hd | .decrement h ho hd => by
    rw [Stmt.exprs, List.flatMap_singleton]
    exact h.labels.close ((Labels.other hd (by decide)).skip ho (by decide))
  | .ifThen hw h hb | .whileDo hw h hb => (h.labels.append hb.labels).skip hw (by decide)
  | .ifElse hw h hb hv ho => by
    rw [Stmt.exprs, List.flatMap_cons, List.flatMap_append]
    exact (h.labels.append (hb.labels.append (ho.labels.skip hv (by decide)))).skip hw (by decide)
  | .read hw ha h hd | .write hw ha h hd => by
    rw [Stmt.exprs, List.flatMap_singleton]
    exact ((h.labels.close (.other hd (by decide))).skip ha (by decide)).skip hw (by decide)
  | .leave hw hd => (Labels.other hd (by decide)).skip hw (by decide)
  | .giveBack hw h hd => by
    rw [Stmt.exprs, Option.toList_some, List.flatMap_singleton]
    exact (h.labels.close (.other hd (by decide))).skip hw (by decide)

theorem Body.labels {n : NodeId} {ts : List Token} {b : Block} {m : NodeId} :
    Body n ts b m → Labels n ts b.idents (b.exprs.flatMap Expr.accesses) m
  | .mk ho hd hs hc =>
    ((Variable.labels_all hd).append
      ((Sentence.labels_all hs).close (.other hc (by decide)))).skip ho (by decide)

theorem Sentence.labels_all {n : NodeId} {ts : List Token} {ss : List Stmt} {m : NodeId} :
    Repeated Sentence n ts ss m →
      Labels n ts (Stmt.identsOfAll ss) ((Stmt.exprsOfAll ss).flatMap Expr.accesses) m
  | .nil => .nil _
  | .cons h hs => by
    rw [Stmt.exprsOfAll, List.flatMap_append]
    exact h.labels.append (Sentence.labels_all hs)

end

theorem Declared.labels {n : NodeId} {ts : List Token} {d : Decl} {m : NodeId}
    (h : Declared n ts d m) : Labels n ts d.idents (d.exprs.flatMap Expr.accesses) m := by
  cases h with
  | var h => exact h.labels
  | function ht hu ho hf hc hb =>
    exact ht.labels.append ((Labels.name hu).append
      (((Formal.labels_all hf).append (hb.labels.skip hc (by decide))).skip ho (by decide)))
  | tuple ht hu ho hf hc hd =>
    have hfields := (Variable.labels_all hf).close ((Labels.other hd (by decide)).skip hc (by decide))
    exact ((Labels.name hu).append (hfields.skip ho (by decide))).skip ht (by decide)

theorem Derives.labels {ts : List Token} {p : Program} {m : NodeId} (h : Derives ts p m) :
    Labels 0 ts p.idents p.accesses m := by
  have hdecls := Repeated.labels _ _ (fun _ _ _ _ h => Declared.labels h) h
  rwa [← List.flatMap_assoc] at hdecls

end Grammar

/-! ## Accesses between their base and their field -/

/-- Numbers that come one after the other without gaps. -/
theorem consecutive_of_infix_range {xs : List Nat} {a b n : Nat} (h : xs ++ [a, b] <:+: List.range n) :
    (∀ x ∈ xs, x < a) ∧ b = a + 1 := by
  obtain ⟨before, after, hrange⟩ := h
  rw [List.range_eq_range', eq_comm, List.append_assoc, List.range'_eq_append_iff] at hrange
  obtain ⟨_, -, -, hrange⟩ := hrange
  obtain ⟨len, -, hrange, -⟩ := List.range'_eq_append_iff.1 hrange.symm
  obtain ⟨k, -, rfl, hpair⟩ := List.range'_eq_append_iff.1 hrange.symm
  simp only [Nat.mul_one] at hpair hrange ⊢
  have hlen : len - k = 2 := by simpa using (congrArg List.length hpair).symm
  rw [hlen] at hpair
  cases hpair
  exact ⟨fun x hx => (List.mem_range'_1.1 hx).2, rfl⟩

theorem Loc.ordered_of_isInfix {n : Nat} : ∀ {l : Loc}, l.nodes <:+: List.range n → l.Ordered
  | .ident _, _ => trivial
  | .access id base field, h => by
    obtain ⟨hbase, hfield⟩ := consecutive_of_infix_range h
    exact ⟨ordered_of_isInfix ((List.prefix_append _ _).isInfix.trans h), hbase, hfield⟩

theorem Expr.nodes_isInfix {p : Program} {e : Expr} (h : e ∈ p.exprs) : e.nodes <:+: p.nodes := by
  obtain ⟨scope, hsteps⟩ := Decl.exprs_stand 0 h
  rw [← p.steps_nodes, ← e.steps_nodes scope]
  exact List.IsInfix.flatMap hsteps _

theorem Loc.nodes_isInfix {e : Expr} {l : Loc} (h : l ∈ e.places) : l.nodes <:+: e.nodes := by
  obtain ⟨before, after, hplaces⟩ := List.append_of_mem h
  rw [← e.places_nodes, hplaces, List.flatMap_append, List.flatMap_cons, ← List.append_assoc]
  exact ⟨_, _, rfl⟩

/-- The numbers of a parsed program. Its identifiers and accesses, listed in the order of
their identifier and colon tokens before the first end of the input, are numbered from zero,
without gaps: an identifier is the token with its number, and an access has the number of
its colon, which lies between the numbers of its base and that of its field. -/
theorem parse_source_order {tokens : List Token} {p : Program} (h : parse tokens = .ok p) :
    p.nodes = List.range ((beforeEnd tokens).countP Token.isNumbered) ∧
      (p.idents.map Ident.id ++ p.accesses).Perm p.nodes ∧
      p.idents = (numbered 0 (beforeEnd tokens)).filterMap identAt? ∧
      p.accesses = (numbered 0 (beforeEnd tokens)).filterMap accessAt? ∧
      ∀ e ∈ p.exprs, ∀ l ∈ e.places, l.Ordered := by
  obtain ⟨m, hd⟩ := derives_beforeEnd h
  obtain ⟨hidents, haccesses, rfl⟩ := hd.labels
  have hnodes := hd.nodes_eq
  rw [Nat.zero_add] at hnodes
  refine ⟨hnodes, ?_, hidents, haccesses, fun e he l hl => ?_⟩
  · rw [hidents, haccesses, hnodes, List.countP_eq_length_filter, List.range_eq_range',
      ← List.zipIdx_map_snd]
    exact perm_of_isNumbered fun x hx => (List.mem_filter.1 (List.fst_mem_of_mem_zipIdx hx)).2
  · have hinfix := (Loc.nodes_isInfix hl).trans (Expr.nodes_isInfix he)
    rw [hnodes] at hinfix
    exact Loc.ordered_of_isInfix hinfix

theorem parse_source_order_parenthesised :
    ∃ p, parse parenthesised = .ok p ∧ p.nodes = List.range 10 ∧ p.accesses = [3] ∧
      p.idents.map Ident.id = [0, 1, 2, 4, 5, 6, 7, 8, 9] := by
  cases hp : parse parenthesised with
  | error e =>
    have hok : (parse parenthesised).isOk = true := by decide +kernel
    rw [hp] at hok
    cases hok
  | ok p =>
    obtain ⟨hnodes, -, hidents, haccesses, -⟩ := parse_source_order hp
    refine ⟨p, rfl, hnodes, haccesses, ?_⟩
    rw [hidents]
    rfl

end BaseLang
