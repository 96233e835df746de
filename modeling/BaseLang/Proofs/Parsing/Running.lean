import BaseLang.Parsing.Programs

/-
  Runs of readers.

  What the single readers do to a stream whose tokens are written out, how a run of
  one reader after another splits, and three properties of readers that are closed
  under every way of putting readers together:

    1. `Forward` — a run, successful or not, leaves a stream that is the rest of the
       one it began with, and never takes a node number back.
    2. `Consumes` — a successful run takes at least one token.
    3. `AgreeFrom` — two readers behave alike on a stream and on all that can be
       left of it.
-/

namespace BaseLang

/-- The kind of the token at the front of a list; past its end stands the end of
the input. -/
def nextKind : List Token → TokenKind
  | [] => .endOfInput
  | t :: _ => t.kind

/-- `t` is what may be left of `s` once some tokens were read and some node numbers
handed out. -/
structure TokenStream.LeadsTo (s t : TokenStream) : Prop where
  ahead : t.ahead <:+ s.ahead
  endText : t.endText = s.endText
  endSpan : t.endSpan = s.endSpan
  nextId : s.nextId ≤ t.nextId

namespace TokenStream.LeadsTo

variable {s t u : TokenStream}

theorem refl (s : TokenStream) : s.LeadsTo s := ⟨List.suffix_refl _, rfl, rfl, Nat.le_refl _⟩

theorem trans (h₁ : s.LeadsTo t) (h₂ : t.LeadsTo u) : s.LeadsTo u :=
  ⟨h₂.ahead.trans h₁.ahead, h₂.endText.trans h₁.endText, h₂.endSpan.trans h₁.endSpan,
    Nat.le_trans h₁.nextId h₂.nextId⟩

theorem length_le (h : s.LeadsTo t) : t.ahead.length ≤ s.ahead.length := h.ahead.length_le

theorem advance (s : TokenStream) : s.LeadsTo s.advance :=
  ⟨List.tail_suffix _, rfl, rfl, Nat.le_refl _⟩

end TokenStream.LeadsTo

namespace Reader

variable {α β : Type}

def left : EStateM.Result SyntaxError TokenStream α → TokenStream
  | .ok _ t | .error _ t => t

/-! ## Runs on a stream that is written out -/

section Written
variable {x : String} {sp : Span} {n : NodeId}

theorem run_bind_ok {r : Reader α} {f : α → Reader β} {s t : TokenStream} {a : α}
    (h : r.run s = .ok a t) : (r >>= f).run s = (f a).run t := by
  rw [EStateM.run_bind, h]

theorem bind_eq_ok {r : Reader α} {f : α → Reader β} {s u : TokenStream} {b : β}
    (h : (r >>= f).run s = .ok b u) : ∃ a t, r.run s = .ok a t ∧ (f a).run t = .ok b u := by
  rw [EStateM.run_bind] at h
  cases hr : r.run s with
  | ok a t => rw [hr] at h; exact ⟨a, t, rfl, h⟩
  | error e t => rw [hr] at h; cases h

theorem run_kind (ahead : List Token) :
    kind.run ⟨ahead, x, sp, n⟩ = .ok (nextKind ahead) ⟨ahead, x, sp, n⟩ := by
  cases ahead <;> rfl

theorem current_kind (ahead : List Token) :
    (TokenStream.mk ahead x sp n).current.kind = nextKind ahead := by
  cases ahead <;> rfl

theorem run_advance (t : Token) (ahead : List Token) :
    advance.run ⟨t :: ahead, x, sp, n⟩ = .ok t ⟨ahead, x, sp, n⟩ := rfl

theorem run_expect {t : Token} {k : TokenKind} (h : t.kind = k) (ahead : List Token) :
    (expect k).run ⟨t :: ahead, x, sp, n⟩ = .ok t ⟨ahead, x, sp, n⟩ := by
  rw [expect, run_bind_ok (run_kind _), nextKind, if_pos h, run_advance]

theorem run_ident {t : Token} (h : t.kind = .identifier) (ahead : List Token) :
    ident.run ⟨t :: ahead, x, sp, n⟩ = .ok ⟨n, t.text, t.start⟩ ⟨ahead, x, sp, n + 1⟩ := by
  rw [ident, run_bind_ok (run_kind _), nextKind, if_pos h]
  rfl

/-- Taking a token of a wanted kind succeeds only if the token is there. -/
theorem expect_eq_ok {k : TokenKind} {ahead : List Token} {t : Token} {u : TokenStream}
    (hk : k ≠ .endOfInput) (h : (expect k).run ⟨ahead, x, sp, n⟩ = .ok t u) :
    ∃ rest, ahead = t :: rest ∧ t.kind = k ∧ u = ⟨rest, x, sp, n⟩ := by
  rw [expect, run_bind_ok (run_kind _)] at h
  by_cases hw : nextKind ahead = k
  · rw [if_pos hw] at h
    cases ahead with
    | nil => exact absurd hw.symm hk
    | cons t' rest =>
      cases h
      exact ⟨rest, rfl, hw, rfl⟩
  · rw [if_neg hw] at h
    cases h

theorem ident_eq_ok {ahead : List Token} {y : Ident} {u : TokenStream}
    (h : ident.run ⟨ahead, x, sp, n⟩ = .ok y u) :
    ∃ t rest, ahead = t :: rest ∧ t.kind = .identifier ∧ y = ⟨n, t.text, t.start⟩ ∧
      u = ⟨rest, x, sp, n + 1⟩ := by
  rw [ident, run_bind_ok (run_kind _)] at h
  by_cases hw : nextKind ahead = .identifier
  · rw [if_pos hw] at h
    cases ahead with
    | nil => cases hw
    | cons t rest =>
      cases h
      exact ⟨t, rest, rfl, hw, rfl, rfl⟩
  · rw [if_neg hw] at h
    cases h

end Written

/-! ## Moving forward only -/

/-- Every run leaves the rest of the stream that it began with. -/
def Forward (r : Reader α) : Prop := ∀ s : TokenStream, s.LeadsTo (left (r.run s))

namespace Forward

theorem pure (a : α) : Forward (Pure.pure a : Reader α) := fun s => .refl s

theorem throw (e : SyntaxError) : Forward (MonadExcept.throw e : Reader α) := fun s => .refl s

theorem bind {r : Reader α} {f : α → Reader β} (hr : Forward r) (hf : ∀ a, Forward (f a)) :
    Forward (r >>= f) := by
  intro s
  have h := hr s
  rw [EStateM.run_bind]
  cases hx : r.run s with
  | ok a t => rw [hx] at h; exact h.trans (hf a t)
  | error e t => rw [hx] at h; exact h

theorem ite {c : Prop} [Decidable c] {r₁ r₂ : Reader α} (h₁ : Forward r₁) (h₂ : Forward r₂) :
    Forward (if c then r₁ else r₂) := by
  split
  · exact h₁
  · exact h₂

theorem map {r : Reader α} (f : α → β) (hr : Forward r) : Forward (f <$> r) := by
  rw [map_eq_pure_bind]
  exact bind hr fun a => pure (f a)

theorem kind : Forward kind := fun s => .refl s

theorem peekKind (places : Nat) : Forward (peekKind places) := fun s => .refl s

theorem remaining : Forward remaining := fun s => .refl s

theorem advance : Forward advance := fun s => .advance s

theorem freshId : Forward freshId :=
  fun _ => ⟨List.suffix_refl _, rfl, rfl, Nat.le_succ _⟩

theorem unexpected : Forward (unexpected : Reader α) := fun s => .refl s

theorem unexpectedWith (note : String) : Forward (unexpectedWith note : Reader α) :=
  fun s => .refl s

theorem expect (k : TokenKind) : Forward (expect k) :=
  bind kind fun _ => ite advance unexpected

theorem identOf (t : Token) : Forward (identOf t) := bind freshId fun _ => pure _

theorem ident : Forward ident :=
  bind kind fun _ => ite (bind advance identOf) (unexpectedWith _)

theorem collect {goesOn : TokenKind → Bool} {item : Reader α} (h : Forward item) :
    ∀ bound, Forward (collect goesOn item bound)
  | 0 => pure _
  | bound + 1 =>
    bind kind fun _ => ite (bind h fun _ => bind (collect h bound) fun _ => pure _) (pure _)

theorem many {goesOn : TokenKind → Bool} {item : Reader α} (h : Forward item) :
    Forward (many goesOn item) :=
  bind remaining fun _ => collect h _

theorem commaList {item : Reader α} (h : Forward item) : Forward (commaList item) :=
  bind h fun _ => bind (many (bind advance fun _ => h)) fun _ => pure _

end Forward

/-! ## Taking at least one token -/

/-- Every successful run takes a token. -/
def Consumes (r : Reader α) : Prop :=
  ∀ (s : TokenStream) (v : α) (t : TokenStream), r.run s = .ok v t →
    t.ahead.length < s.ahead.length

namespace Consumes

theorem bind_left {r : Reader α} {f : α → Reader β} (hr : Consumes r) (hf : ∀ a, Forward (f a)) :
    Consumes (r >>= f) := by
  intro s v u h
  obtain ⟨a, t, h₁, h₂⟩ := bind_eq_ok h
  have hle := (hf a t).length_le
  rw [h₂] at hle
  exact Nat.lt_of_le_of_lt hle (hr s a t h₁)

theorem bind_right {r : Reader α} {f : α → Reader β} (hr : Forward r) (hf : ∀ a, Consumes (f a)) :
    Consumes (r >>= f) := by
  intro s v u h
  obtain ⟨a, t, h₁, h₂⟩ := bind_eq_ok h
  have hle := (hr s).length_le
  rw [h₁] at hle
  exact Nat.lt_of_lt_of_le (hf a t v u h₂) hle

theorem ite {c : Prop} [Decidable c] {r₁ r₂ : Reader α} (h₁ : Consumes r₁) (h₂ : Consumes r₂) :
    Consumes (if c then r₁ else r₂) := by
  split
  · exact h₁
  · exact h₂

theorem unexpectedWith (note : String) : Consumes (unexpectedWith note : Reader α) := by
  intro s v t h
  cases h

theorem expect {k : TokenKind} (hk : k ≠ .endOfInput) : Consumes (expect k) := by
  intro s v t h
  obtain ⟨ahead, x, sp, n⟩ := s
  obtain ⟨rest, rfl, _, rfl⟩ := expect_eq_ok hk h
  exact Nat.lt_succ_self _

theorem ident : Consumes ident := by
  intro s v t h
  obtain ⟨ahead, x, sp, n⟩ := s
  obtain ⟨u, rest, rfl, _, _, rfl⟩ := ident_eq_ok h
  exact Nat.lt_succ_self _

end Consumes

/-! ## Behaving alike -/

/-- The two readers behave alike on the stream and on all that can be left of it. -/
def AgreeFrom (s : TokenStream) (r₁ r₂ : Reader α) : Prop :=
  ∀ t, s.LeadsTo t → r₁.run t = r₂.run t

namespace AgreeFrom

variable {s : TokenStream}

theorem refl (r : Reader α) : AgreeFrom s r r := fun _ _ => rfl

theorem bind {r₁ r₂ : Reader α} {f₁ f₂ : α → Reader β} (hr : AgreeFrom s r₁ r₂)
    (hm : Forward r₁) (hf : ∀ a, AgreeFrom s (f₁ a) (f₂ a)) :
    AgreeFrom s (r₁ >>= f₁) (r₂ >>= f₂) := by
  intro t ht
  have hl := hm t
  rw [EStateM.run_bind, EStateM.run_bind, ← hr t ht]
  cases hx : r₁.run t with
  | ok a u => rw [hx] at hl; exact hf a u (ht.trans hl)
  | error e u => rfl

theorem ite {c : Prop} [Decidable c] {r₁ r₂ u₁ u₂ : Reader α} (h₁ : AgreeFrom s r₁ r₂)
    (h₂ : AgreeFrom s u₁ u₂) : AgreeFrom s (if c then r₁ else u₁) (if c then r₂ else u₂) := by
  split
  · exact h₁
  · exact h₂

theorem collect {goesOn : TokenKind → Bool} {i₁ i₂ : Reader α} (h : AgreeFrom s i₁ i₂)
    (hm : Forward i₁) : ∀ bound, AgreeFrom s (collect goesOn i₁ bound) (collect goesOn i₂ bound)
  | 0 => refl _
  | bound + 1 =>
    bind (refl _) .kind fun _ =>
      ite (bind h hm fun _ => bind (collect h hm bound) (.collect hm bound) fun _ => refl _) (refl _)

theorem many {goesOn : TokenKind → Bool} {i₁ i₂ : Reader α} (h : AgreeFrom s i₁ i₂)
    (hm : Forward i₁) : AgreeFrom s (many goesOn i₁) (many goesOn i₂) :=
  bind (refl _) .remaining fun _ => collect h hm _

theorem commaList {i₁ i₂ : Reader α} (h : AgreeFrom s i₁ i₂) (hm : Forward i₁) :
    AgreeFrom s (commaList i₁) (commaList i₂) :=
  bind h hm fun _ =>
    bind (many (bind (refl _) .advance fun _ => h) (.bind .advance fun _ => hm))
      (.many (.bind .advance fun _ => hm)) fun _ => refl _

end AgreeFrom

end Reader

end BaseLang
