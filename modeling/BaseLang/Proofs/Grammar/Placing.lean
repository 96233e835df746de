import BaseLang.Proofs.Grammar.Soundness
import BaseLang.Proofs.Scanning.Starts
import BaseLang.Proofs.Tree.Marks

/-
  The marks of a parsed program are places of its tokens.

  A derivation takes the positions in its tree from its tokens, each from a token of its
  own and in their order (`Declared.marks`). So the marks of a program that a source was
  parsed to are tokens of the source, and no two of them stand at one position
  (`parse_marks`, `marks_nodup`).
-/

namespace BaseLang

def Token.mark (t : Token) : Mark := (t.kind, t.start)

namespace Grammar

/-- The marks are those of some of the tokens, in their order. -/
def Marks (marks : List Mark) (ts : List Token) : Prop := List.Sublist marks (ts.map Token.mark)

namespace Marks
variable {xs ys : List Mark} {ts us : List Token} {t : Token} {k : TokenKind}

theorem nil (ts : List Token) : Marks [] ts := List.nil_sublist _

theorem one (h : t.kind = k) : Marks [(k, t.start)] [t] := by
  rw [← h]
  exact List.Sublist.refl _

theorem append (h : Marks xs ts) (h' : Marks ys us) : Marks (xs ++ ys) (ts ++ us) := by
  unfold Marks
  rw [List.map_append]
  exact List.Sublist.append h h'

/-- A token of which the tree keeps nothing, before the others. -/
theorem skip (h : Marks xs ts) : Marks xs (t :: ts) := List.Sublist.cons _ h

/-- Tokens of which the tree keeps nothing, after the others. -/
theorem rest (h : Marks xs ts) (us : List Token) : Marks xs (ts ++ us) := by
  have := h.append (nil us)
  rwa [List.append_nil] at this

/-- A token of which the tree keeps the position, before the others. -/
theorem keep (hk : t.kind = k) (h : Marks xs ts) : Marks ((k, t.start) :: xs) (t :: ts) :=
  (one hk).append h

end Marks

section Lists
variable {α : Type} {G : Form α} {marksOf : α → List Mark}

theorem Repeated.marks (hG : ∀ n ts a m, G n ts a m → Marks (marksOf a) ts) {n : NodeId} {ts : List Token}
    {as : List α} {m : NodeId} (h : Repeated G n ts as m) : Marks (as.flatMap marksOf) ts := by
  induction h with
  | nil => exact .nil _
  | cons h _ ih =>
    rw [List.flatMap_cons]
    exact (hG _ _ _ _ h).append ih

theorem Commas.marks (hG : ∀ n ts a m, G n ts a m → Marks (marksOf a) ts) {n : NodeId} {ts : List Token}
    {as : List α} {m : NodeId} (h : Commas G n ts as m) : Marks (as.flatMap marksOf) ts := by
  induction h with
  | one h => simpa using hG _ _ _ _ h
  | more h _ _ ih =>
    rw [List.flatMap_cons]
    exact (hG _ _ _ _ h).append ih.skip

theorem Separated.marks (hG : ∀ n ts a m, G n ts a m → Marks (marksOf a) ts) {n : NodeId} {ts : List Token}
    {as : List α} {m : NodeId} (h : Separated G n ts as m) : Marks (as.flatMap marksOf) ts := by
  cases h with
  | none => exact .nil _
  | some h => exact h.marks hG

end Lists

theorem Typed.marks {n : NodeId} {ts : List Token} {type : TypeName} {m : NodeId}
    (h : Typed n ts type m) : Marks type.marks ts := by
  cases h with
  | simple h => cases h <;> exact .nil _
  | tuple _ hu => exact (Marks.one hu).skip

theorem Variable.marks {n : NodeId} {ts : List Token} {d : VarDecl} {m : NodeId}
    (h : Variable n ts d m) : Marks d.marks ts := by
  obtain ⟨h, hu, _⟩ := h
  exact h.marks.append (.keep hu (.nil _))

theorem Formal.marks {n : NodeId} {ts : List Token} {d : VarDecl} {m : NodeId}
    (h : Formal n ts d m) : Marks d.marks ts := by
  obtain ⟨h, hu⟩ := h
  cases h <;> exact (Marks.one hu).skip

mutual

theorem Phrase.marks {p : BindingPower} {n : NodeId} {ts : List Token} {e : Expr} {m : NodeId} :
    Phrase p n ts e m → Marks e.marks ts
  | .int ht _ | .string ht | .true ht | .false ht | .name ht => .one ht
  | .group _ h _ => (h.marks.rest _).skip
  | .call h _ hargs _ => h.marks.append ((Phrase.marks_arguments hargs).rest _).skip
  | .access h _ hf => h.marks.append (Marks.one hf).skip
  | .unary _ h => h.marks.skip
  | .binary hl _ _ _ hr => hl.marks.append hr.marks.skip
  | .assign h _ hv => h.marks.append hv.marks.skip
  | .weaken _ h => h.marks

theorem Phrase.marks_arguments {n : NodeId} {ts : List Token} {es : List Expr} {m : NodeId} :
    Separated (Phrase .assignment) n ts es m → Marks (Expr.marksOfAll es) ts
  | .none => .nil _
  | .some h => Phrase.marks_list h

theorem Phrase.marks_list {n : NodeId} {ts : List Token} {es : List Expr} {m : NodeId} :
    Commas (Phrase .assignment) n ts es m → Marks (Expr.marksOfAll es) ts
  | .one h => by
    rw [Expr.marksOfAll, Expr.marksOfAll, List.append_nil]
    exact h.marks
  | .more h _ hs => h.marks.append (Phrase.marks_list hs).skip

end

mutual

theorem Sentence.marks {n : NodeId} {ts : List Token} {s : Stmt} {m : NodeId} :
    Sentence n ts s m → Marks s.marks ts
  | .assign h _ | .call h _ | .increment h _ _ | .decrement h _ _ => h.marks.rest _
  | .read _ _ h _ | .write _ _ h _ => (h.marks.rest _).skip.skip
  | .ifThen _ h hb | .whileDo _ h hb => (h.marks.append hb.marks).skip
  | .ifElse _ h hb _ ho => (h.marks.append (hb.marks.append ho.marks.skip)).skip
  | .leave hw _ => .keep hw (.nil _)
  | .giveBack hw h _ => .keep hw (h.marks.rest _)

theorem Body.marks {n : NodeId} {ts : List Token} {b : Block} {m : NodeId} :
    Body n ts b m → Marks b.marks ts
  | .mk _ hd hs _ =>
    ((hd.marks fun _ _ _ _ h => h.marks).append ((Sentence.marks_all hs).rest _)).skip

theorem Sentence.marks_all {n : NodeId} {ts : List Token} {ss : List Stmt} {m : NodeId} :
    Repeated Sentence n ts ss m → Marks (Stmt.marksOfAll ss) ts
  | .nil => .nil _
  | .cons h hs => h.marks.append (Sentence.marks_all hs)

end

theorem Declared.marks {n : NodeId} {ts : List Token} {d : Decl} {m : NodeId}
    (h : Declared n ts d m) : Marks d.marks ts := by
  cases h with
  | var h => exact h.marks
  | function ht hu _ hf _ hb =>
    have hformals := hf.marks fun _ _ _ _ h => Formal.marks h
    cases ht <;> exact (Marks.keep hu (hformals.append hb.marks.skip).skip).skip
  | tuple _ hu _ hf _ _ =>
    exact (Marks.keep hu ((hf.marks fun _ _ _ _ h => h.marks).rest _).skip).skip

theorem Derives.marks {ts : List Token} {p : Program} {m : NodeId} (h : Derives ts p m) :
    Marks p.marks ts :=
  Repeated.marks (fun _ _ _ _ h => Declared.marks h) h

/-- Marks of tokens at different places are at different places. -/
theorem Marks.nodup {xs : List Mark} {ts : List Token} (h : Marks xs ts)
    (hstarts : (ts.map Token.start).Nodup) : (xs.map Prod.snd).Nodup := by
  have hsub := h.map Prod.snd
  rw [List.map_map] at hsub
  exact hsub.nodup hstarts

end Grammar

open Grammar

/-- The marks of a parsed program are those of some of its tokens, in their order. -/
theorem parse_marks {tokens : List Token} {p : Program} (h : parse tokens = .ok p) :
    Marks p.marks tokens := by
  obtain ⟨used, rest, m, hahead, hd⟩ := parse_derives h
  have hmarks := hd.marks.rest rest
  rw [← hahead, TokenStream.ahead_ofTokens] at hmarks
  -- a last end of the input is not among the tokens that are read
  split at hmarks
  · exact List.Sublist.trans hmarks ((List.dropLast_sublist tokens).map Token.mark)
  · exact hmarks

/-- The source scans and parses to the program. -/
theorem ofSource?_eq_ok {source : String} {p : Program} (h : Program.ofSource? source = .ok p) :
    ∃ tokens, scan source = .ok tokens ∧ parse tokens = .ok p := by
  rw [Program.ofSource?] at h
  cases hscan : scan source with
  | error e => rw [hscan] at h; cases h
  | ok tokens => exact ⟨tokens, rfl, by rw [hscan] at h; exact h⟩

theorem ofSource?_eq_ok_iff {source : String} {p : Program} :
    Program.ofSource? source = .ok p ↔ ∃ tokens, scan source = .ok tokens ∧ parse tokens = .ok p := by
  refine ⟨ofSource?_eq_ok, ?_⟩
  rintro ⟨tokens, hscan, hparse⟩
  rw [Program.ofSource?, hscan]
  exact hparse

/-- Each mark of a parsed program is one of its tokens. -/
theorem mem_tokens_of_mark {tokens : List Token} {p : Program} (h : parse tokens = .ok p) {m : Mark}
    (hm : m ∈ p.marks) : ∃ t ∈ tokens, t.kind = m.1 ∧ t.start = m.2 := by
  obtain ⟨t, ht, rfl⟩ := List.mem_map.1 ((parse_marks h).subset hm)
  exact ⟨t, ht, rfl, rfl⟩

/-- No two marks of a program that was parsed from a source stand at one position if the source is
not too long, and each of them stands in the text. -/
theorem marks_nodup {source : String} {p : Program} (hsize : utf8Length source.toList < 2 ^ 32 - 1)
    (h : Program.ofSource? source = .ok p) :
    (p.marks.map Prod.snd).Nodup ∧ ∀ m ∈ p.marks, m.2 ≠ .nowhere := by
  obtain ⟨tokens, hscan, hparse⟩ := ofSource?_eq_ok h
  obtain ⟨hpairs, hsome⟩ := scan_starts hsize hscan
  constructor
  · have hstarts : (tokens.map Token.start).Nodup := by
      refine List.pairwise_map.2 (hpairs.imp fun hbefore heq => ?_)
      rw [heq] at hbefore
      exact Position.not_before_self _ hbefore
    exact (parse_marks hparse).nodup hstarts
  · intro m hm
    obtain ⟨t, ht, -, heq⟩ := mem_tokens_of_mark hparse hm
    rw [← heq]
    exact hsome t ht

/-- Two declarations with their names at these positions. -/
def twoVoids (p q : Position) : Program :=
  ⟨[.var ⟨.void, ⟨0, "x", p⟩⟩, .var ⟨.void, ⟨1, "x", q⟩⟩]⟩

/-- Beyond that the marks of two declarations can stand at one position. -/
theorem parse_spaced (blanks : Nat) :
    ∃ tokens, scan (spacedSource blanks) = .ok tokens ∧
      parse tokens = .ok (twoVoids (.narrow ⟨1, 6⟩) (.narrow ⟨1, 13 + blanks⟩)) := by
  refine ⟨_, scan_spaced blanks, ?_⟩
  have hcolumn : 8 + blanks + 5 = 13 + blanks := by omega
  rw [← hcolumn]
  rfl

end BaseLang
