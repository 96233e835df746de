import BaseLang.Proofs.Parsing.Composition

/-
  No reader takes an end of the input, so that none leaves the list of tokens.

  `advance` takes whatever token is current, and lists of tokens may hold ends of the input
  anywhere. Yet a reader advances only once it has seen a token that is none: one of a kind
  that it wants, or one for which the rules of the language have an entry.

    1. `TokenStream.Takes` — between two streams lies no end of the input;
    2. `Careful` — whether it succeeds or fails, a run takes such tokens only; `composes_takes`
       — the ways of putting readers together keep to that, and so do all readers, up to
       `Careful.program`;
    3. `TokenStream.StandsAt` — the place of a stream in a list of tokens;
    4. `Proceeds` — the places that a run passes.
-/

namespace BaseLang

/-- `t` is what may be left of `s` once some tokens were read, and none of these is an end of
the input. -/
structure TokenStream.Takes (s t : TokenStream) : Prop extends s.LeadsTo t where
  inside : ∃ used, s.ahead = used ++ t.ahead ∧ ∀ u ∈ used, u.kind ≠ .endOfInput

namespace TokenStream.Takes
variable {s t u : TokenStream}

theorem refl (s : TokenStream) : s.Takes s := ⟨.refl s, [], rfl, nofun⟩

theorem trans (h : s.Takes t) (h' : t.Takes u) : s.Takes u := by
  obtain ⟨hst, ts, hs, hts⟩ := h
  obtain ⟨htu, us, ht, hus⟩ := h'
  exact ⟨hst.trans htu, ts ++ us, by rw [hs, ht, List.append_assoc], List.forall_mem_append.2 ⟨hts, hus⟩⟩

theorem advance (h : s.current.kind ≠ .endOfInput) : s.Takes s.advance := by
  refine ⟨.advance s, ?_⟩
  obtain ⟨ahead, text, place, id⟩ := s
  cases ahead with
  | nil => exact absurd rfl h
  | cons t ahead => exact ⟨[t], rfl, List.forall_mem_singleton.2 h⟩

end TokenStream.Takes

namespace Reader

variable {α β : Type}

/-- No run takes an end of the input. -/
def Careful (r : Reader α) : Prop := ∀ s : TokenStream, s.Takes (left (r.run s))

/-- To take no end of the input is kept by every way of putting readers together. -/
theorem composes_takes : Composes fun r s => s.Takes (left (r.run s)) where
  pure _ s := .refl s
  throw _ s := .refl s
  bind {α β r f s} hr hf := by
    rw [EStateM.run_bind]
    cases hx : r.run s with
    | ok a t =>
      rw [hx] at hr
      exact hr.trans (hf a t)
    | error e t =>
      rw [hx] at hr
      exact hr
  current h := h
  advance := .advance
  freshId s := ⟨Forward.freshId s, [], rfl, nofun⟩
  limit h s := by
    obtain ⟨r', hr', hsame⟩ := h (s.ahead.length + 1)
    rw [← hsame s (Nat.lt_succ_self _)]
    exact hr' s

namespace Careful

theorem expr (power : BindingPower) : Careful (expr .standard power) := composes_takes.expr power

theorem varDecl : Careful (varDecl .standard) := composes_takes.varDecl

theorem stmt : Careful (stmt .standard) := composes_takes.stmt

theorem block : Careful (block .standard) := composes_takes.block

/-- To look ahead takes nothing. -/
theorem decl : Careful (decl .standard) := fun s => composes_takes.declBy _ s

theorem program : Careful (program .standard) := fun s =>
  composes_takes.bind (composes_takes.many .decl (fun t _ => decl t) s) fun _ => composes_takes.pure _

end Careful

end Reader

/-! ## Places in a list of tokens -/

namespace TokenStream

def tokens (s : TokenStream) : List Token := s.ahead ++ [s.final]

theorem getElem?_tokens_zero (s : TokenStream) : s.tokens[0]? = some s.current := by
  obtain ⟨ahead, text, place, id⟩ := s
  cases ahead <;> rfl

/-- The stream is what the list holds from place `i` on, and no end of the input stands before
that place. -/
structure StandsAt (ts : List Token) (i : Nat) (s : TokenStream) : Prop where
  rest : ts.drop i = s.tokens
  before : ∀ t ∈ ts.take i, t.kind ≠ .endOfInput

theorem standsAt_zero (s : TokenStream) : s.StandsAt s.tokens 0 := ⟨rfl, nofun⟩

namespace StandsAt
variable {ts : List Token} {i : Nat} {s t : TokenStream}

/-- The current token is the one at the place of the stream, which is in the list. -/
theorem getElem? (h : s.StandsAt ts i) : ts[i]? = some s.current := by
  have hfirst := getElem?_tokens_zero s
  rw [← h.rest, List.getElem?_drop] at hfirst
  exact hfirst

/-- The place is not after the first end of the input. -/
theorem le_findIdx (h : s.StandsAt ts i) : i ≤ ts.findIdx (·.kind == .endOfInput) := by
  obtain ⟨hlt, -⟩ := List.getElem?_eq_some_iff.1 h.getElem?
  refine List.le_findIdx_of_not hlt fun j hj => ?_
  have hmem : ts[j] ∈ ts.take i := List.mem_take_iff_getElem.2 ⟨j, by omega, rfl⟩
  exact beq_eq_false_iff_ne.2 (h.before _ hmem)

/-- A stream moves on by the tokens that are taken from it. -/
theorem moved (h : s.StandsAt ts i) (ht : s.Takes t) :
    t.StandsAt ts (i + (s.ahead.length - t.ahead.length)) := by
  obtain ⟨used, hused, hinside⟩ := ht.inside
  have hfinal : t.final = s.final := by rw [final, final, ht.endText, ht.endSpan]
  have hlength : s.ahead.length - t.ahead.length = used.length := by
    rw [hused, List.length_append, Nat.add_sub_cancel]
  have hrest : ts.drop i = used ++ t.tokens := by
    rw [h.rest, tokens, tokens, hused, hfinal, List.append_assoc]
  rw [hlength]
  constructor
  · rw [← List.drop_drop, hrest, List.drop_left]
  · rw [List.take_add, hrest, List.take_left]
    exact List.forall_mem_append.2 ⟨h.before, hinside⟩

end StandsAt

/-- On the way to a stream, nothing is taken that is not taken on the whole way. -/
theorem Takes.between {s t u : TokenStream} (h : s.Takes u) (hst : s.LeadsTo t) (htu : t.LeadsTo u) :
    s.Takes t := by
  obtain ⟨used, hused, hinside⟩ := h.inside
  obtain ⟨vs, hvs⟩ := hst.ahead
  obtain ⟨us, hus⟩ := htu.ahead
  have hparts : used = vs ++ us :=
    List.append_cancel_right (hused.symm.trans (by rw [← hvs, ← hus, List.append_assoc]))
  exact ⟨hst, vs, hvs.symm, fun x hx => hinside x (by rw [hparts]; exact List.mem_append_left _ hx)⟩

/-- The list of a stream is the list of tokens, with an end of the input if it has none there. -/
theorem tokens_ofTokens (ts : List Token) :
    (ofTokens ts).tokens =
      if ts.getLast?.map Token.kind = some .endOfInput then ts else ts ++ [(ofTokens ts).final] := by
  rw [tokens, ahead_ofTokens]
  split
  · next h =>
    obtain ⟨last, hlast, hkind⟩ := Option.map_eq_some_iff.1 h
    have hfinal : (ofTokens ts).final = last := by
      rw [final, ofTokens, hlast]
      dsimp only
      rw [if_pos hkind, ← hkind]
    obtain ⟨before, rfl⟩ := List.getLast?_eq_some_iff.1 hlast
    rw [hfinal, List.dropLast_concat]
  · rfl

end TokenStream

namespace Reader

variable {α : Type}

/-- The run of the reader from a place of any list of tokens: wherever it passes, and where it stops,
is a place of the list that is not after its first end of the input, and if it succeeds it
stops at a later place than it began. -/
def Proceeds (r : Reader α) : Prop :=
  ∀ ts i (s : TokenStream), s.StandsAt ts i →
    ∃ j, (left (r.run s)).StandsAt ts j ∧
      (∀ t, s.LeadsTo t → t.LeadsTo (left (r.run s)) → ∃ k, i ≤ k ∧ k ≤ j ∧ t.StandsAt ts k) ∧
      ∀ a t, r.run s = .ok a t → i < j

theorem proceeds {r : Reader α} (h : Careful r) (hprogress : Consumes r) : Proceeds r := by
  intro ts i s hs
  refine ⟨_, hs.moved (h s), fun t hst htu => ?_, fun a t hr => ?_⟩
  · have hle := htu.length_le
    exact ⟨_, Nat.le_add_right _ _, by omega, hs.moved ((h s).between hst htu)⟩
  · have hlt := hprogress s a t hr
    have hleft : left (r.run s) = t := by rw [hr]; rfl
    rw [hleft]
    omega

end Reader

end BaseLang
