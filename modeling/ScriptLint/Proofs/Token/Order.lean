import Mathlib.Data.List.Chain
import ScriptLint.Token.Stream

/-!
# Tokens in order

Positions in the order of the text, and tokens that stand one behind the other. A lexer gives such
tokens whatever kinds it leaves out (`Lexer.tokenize_ordered`): a token starts no earlier than the
lexer stands, and the lexer stands at its end then.
-/

namespace ScriptLint

/-! ## Positions in order -/

namespace Position

/-- Positions are in the order of the text. -/
instance : LE Position where
  le p q := p.line < q.line ∨ p.line = q.line ∧ p.column ≤ q.column

theorem le_def {p q : Position} :
    p ≤ q ↔ p.line < q.line ∨ p.line = q.line ∧ p.column ≤ q.column := Iff.rfl

instance (p q : Position) : Decidable (p ≤ q) := decidable_of_iff' _ le_def

theorem le_refl (p : Position) : p ≤ p := .inr ⟨rfl, Nat.le_refl _⟩

theorem le_trans {p q r : Position} (hpq : p ≤ q) (hqr : q ≤ r) : p ≤ r := by
  rw [le_def] at hpq hqr ⊢
  omega

theorem le_next (p : Position) (c : Char) (following : Option Char) : p ≤ p.next c following := by
  rw [le_def, next]
  split
  · exact .inl (Nat.lt_succ_self _)
  · exact .inr ⟨rfl, Nat.le_succ _⟩

/-- Further into a text no position comes before. -/
theorem le_advance (p : Position) (count : Nat) (text : List Char) : p ≤ p.advance count text := by
  fun_induction advance p count text with
  | case1 => exact le_refl _
  | case2 => exact le_refl _
  | case3 p count c text ih => exact le_trans (p.le_next c text.head?) ih

theorem not_next_le (p : Position) (c : Char) (following : Option Char) :
    ¬ p.next c following ≤ p := by
  rw [le_def, next]
  split <;> simp

/-- Further into a text every position comes later. -/
theorem not_advance_le (p : Position) {text : List Char} {count count' : Nat} (h : count < count')
    (hlength : count' ≤ text.length) : ¬ p.advance count' text ≤ p.advance count text := by
  induction text generalizing p count count' with
  | nil => exact absurd (Nat.lt_of_lt_of_le h hlength) (Nat.not_lt_zero _)
  | cons c text ih =>
    obtain _ | count' := count'
    · exact absurd h (Nat.not_lt_zero _)
    obtain _ | count := count
    · intro hle
      exact p.not_next_le c text.head? (le_trans (le_advance _ count' text) hle)
    · exact ih _ (Nat.lt_of_succ_lt_succ h) (Nat.le_of_succ_le_succ hlength)

/-- A text is gone through in two parts. -/
theorem advance_append (p : Position) (text rest : List Char) (count : Nat) :
    p.advance (text.length + count) (text ++ rest) =
      (p.advance text.length (text ++ rest)).advance count rest := by
  induction text generalizing p with
  | nil => simp [advance]
  | cons c text ih =>
    rw [List.length_cons, Nat.succ_add, List.cons_append, advance, advance, ih]

end Position

/-- Tokens that stand one behind the other. -/
structure Ordered (ts : List Token) : Prop where
  start_le_stop : ∀ t ∈ ts, t.span.start ≤ t.span.stop
  stop_le_start : ts.IsChain fun t u => t.span.stop ≤ u.span.start

namespace Ordered

variable {ts us : List Token}

/-- Each token ends before all that follow it. -/
theorem pairwise (h : Ordered ts) : ts.Pairwise fun t u => t.span.stop ≤ u.span.start := by
  obtain ⟨hspans, hchain⟩ := h
  induction ts with
  | nil => exact .nil
  | cons t ts ih =>
    have htail := ih (fun u hu => hspans u (List.mem_cons_of_mem _ hu)) hchain.tail
    refine List.pairwise_cons.2 ⟨fun u hu => ?_, htail⟩
    cases ts with
    | nil => cases hu
    | cons v ts =>
      have hnext : t.span.stop ≤ v.span.start := (List.isChain_cons_cons.1 hchain).1
      cases hu with
      | head => exact hnext
      | tail _ hu =>
        have hv := hspans v (List.mem_cons_of_mem _ List.mem_cons_self)
        have hafter := (List.pairwise_cons.1 htail).1 u hu
        exact Position.le_trans (Position.le_trans hnext hv) hafter

/-- Tokens with some of them left out. -/
theorem sublist (h : Ordered ts) (hsub : us.Sublist ts) : Ordered us :=
  ⟨fun t ht => h.start_le_stop t (hsub.subset ht), (h.pairwise.sublist hsub).isChain⟩

/-- The first token starts before the others. -/
theorem head_le {t u : Token} (h : Ordered ts) (ht : ts.head? = some t) (hu : u ∈ ts) :
    t.span.start ≤ u.span.start := by
  cases ts with
  | nil => cases hu
  | cons v ts =>
    cases ht
    cases hu with
    | head => exact Position.le_refl _
    | tail _ hu =>
      exact Position.le_trans (h.start_le_stop t List.mem_cons_self)
        ((List.pairwise_cons.1 h.pairwise).1 u hu)

/-- The last token ends behind the others. -/
theorem le_getLast {t u : Token} (h : Ordered ts) (ht : ts.getLast? = some t) (hu : u ∈ ts) :
    u.span.stop ≤ t.span.stop := by
  obtain ⟨others, rfl⟩ := List.getLast?_eq_some_iff.1 ht
  obtain hu | hu := List.mem_append.1 hu
  · have hafter := (List.pairwise_append.1 h.pairwise).2.2 u hu t (List.mem_singleton.2 rfl)
    exact Position.le_trans hafter
      (h.start_le_stop t (List.mem_append_right _ (List.mem_singleton.2 rfl)))
  · rw [List.mem_singleton.1 hu]
    exact Position.le_refl _

/-- A token before other tokens. -/
theorem cons {t : Token} (hspan : t.span.start ≤ t.span.stop)
    (hafter : ∀ u ∈ ts, t.span.stop ≤ u.span.start) (h : Ordered ts) : Ordered (t :: ts) where
  start_le_stop u hu := by
    cases hu with
    | head => exact hspan
    | tail _ hu => exact h.start_le_stop u hu
  stop_le_start := List.Pairwise.isChain (List.pairwise_cons.2 ⟨hafter, h.pairwise⟩)

end Ordered

/-! ## Tokens of a lexer -/

namespace Lexer

/-- The next token stands ahead of the lexer, and right behind the lexer that is left. -/
theorem next_span {lexer after : Lexer} {token : Token} (h : lexer.next = (some token, after)) :
    lexer.position ≤ token.span.start ∧ token.span.start ≤ token.span.stop ∧
      after.position = token.span.stop := by
  fun_induction next lexer with
  | case1 => cases h
  | case2 lexer segment rest hsome stop =>
    have hstop : lexer.position ≤ stop := lexer.position.le_advance segment.text.length lexer.rest
    cases h
    exact ⟨Position.le_refl _, hstop, rfl⟩
  | case3 lexer segment rest hsome stop hcontent ih =>
    -- the lexer has passed a gap
    have hstop : lexer.position ≤ stop := lexer.position.le_advance segment.text.length lexer.rest
    obtain ⟨hstart, hspan, hafter⟩ := ih h
    exact ⟨Position.le_trans hstop hstart, hspan, hafter⟩

/-- The tokens that remain are in order, and none of them starts before the lexer. -/
theorem tokenize_ordered (lexer : Lexer) :
    Ordered lexer.tokenize.1 ∧ ∀ t ∈ lexer.tokenize.1, lexer.position ≤ t.span.start := by
  fun_induction tokenize lexer with
  | case1 => exact ⟨⟨List.forall_mem_nil _, .nil⟩, List.forall_mem_nil _⟩
  | case2 lexer token after hnext kept tokens finish htokens ih =>
    obtain ⟨hstart, hspan, hafter⟩ := next_span hnext
    rw [htokens] at ih
    obtain ⟨hordered, hahead⟩ := ih
    have hbehind : ∀ t ∈ tokens, token.span.stop ≤ t.span.start := by
      intro t ht
      rw [← hafter]
      exact hahead t ht
    have hall : Ordered (token :: tokens) := .cons hspan hbehind hordered
    have hkept : (kept ++ tokens).Sublist (token :: tokens) := by
      show ((if after.excluded.contains token.kind then [] else [token]) ++ tokens).Sublist _
      split
      · exact List.sublist_cons_self ..
      · exact List.Sublist.refl _
    refine ⟨hall.sublist hkept, fun t ht => Position.le_trans hstart ?_⟩
    exact hall.head_le rfl (hkept.subset ht)

end Lexer

end ScriptLint
