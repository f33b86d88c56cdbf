import ScriptLint.Grammar.Program

/-!
# Runs of parsers

What a parser built from smaller ones does when it succeeds. `bind_eq_ok` takes a successful run
apart, and the other statements say what the readers of one token, the terminator and the two
loops leave behind. The proofs about the grammar use these and never open a reader again.
-/

namespace ScriptLint

namespace Cursor

/-- The kind of the next token. -/
def kind? (c : Cursor) : Option TokenKind := c.rest.head?.map Token.kind

/-- A cursor that knows the kind of its next token has a next token of that kind. -/
theorem exists_token {c : Cursor} {kind : TokenKind} (h : c.kind? = some kind) :
    ∃ t, c.rest.head? = some t ∧ t.kind = kind :=
  Option.map_eq_some_iff.1 h

/-- The kind of a next token that is known. -/
theorem kind?_of_head {c : Cursor} {t : Token} (h : c.rest.head? = some t) :
    c.kind? = some t.kind := by
  rw [kind?, h, Option.map_some]

/-- A next token of one kind is not of another. -/
theorem kind?_ne {c : Cursor} {kind other : TokenKind} (h : c.kind? = some kind)
    (hne : kind ≠ other) : c.kind? ≠ some other := by
  rw [h]
  exact fun heq => hne (Option.some_inj.1 heq)

/-- Whether nothing, or a line break or a brace, takes the place of a `;` at a cursor. -/
def impliesTerminator (c : Cursor) : Bool :=
  c.kind? == some (.punctuator .rightCurly) || c.rest.isEmpty || c.newlineBefore

end Cursor

namespace Parser

variable {α β : Type} {c c' : Cursor}

/-- A run of two parsers in turn is a run of the first and then one of the second. -/
theorem bind_eq_ok {x : Parser α} {f : α → Parser β} {b : β} :
    (x >>= f) c = .ok b c' ↔ ∃ a m, x c = .ok a m ∧ f a m = .ok b c' := by
  show EStateM.bind x f c = _ ↔ _
  unfold EStateM.bind
  cases x c with
  | ok a m =>
    constructor
    · intro h
      exact ⟨a, m, rfl, h⟩
    · rintro ⟨_, _, h, hf⟩
      cases h
      exact hf
  | error e m => simp

/-- A parser that only gives a value gives just this one and stays where it is. -/
theorem pure_eq_ok {a b : α} : (pure a : Parser α) c = .ok b c' ↔ a = b ∧ c = c' := by
  show EStateM.Result.ok a c = _ ↔ _
  simp

theorem unexpected_ne_ok {expected : String} {a : α} : unexpected expected c ≠ .ok a c' := nofun

theorem throw_ne_ok {e : SyntaxError} {a : α} : (throw e : Parser α) c ≠ .ok a c' := nofun

/-- A result is given where a run succeeds. -/
theorem run_eq_ok {parser : Parser α} {a : α} :
    (parser.run c).1 = .ok a ↔ ∃ c', parser c = .ok a c' := by
  rw [Parser.run]
  cases parser c <;> simp

/-! ## Readers of one token -/

theorem here_bind (f : Position → Parser β) : (here >>= f) c = f c.here c := rfl

theorem peek?_bind (f : Option Token → Parser β) : (peek? >>= f) c = f c.rest.head? c := rfl

theorem peekKind?_bind (f : Option TokenKind → Parser β) : (peekKind? >>= f) c = f c.kind? c :=
  rfl

theorem atEnd_bind (f : Bool → Parser β) : (atEnd >>= f) c = f c.rest.isEmpty c := rfl

theorem newlineBefore_bind (f : Bool → Parser β) :
    (newlineBefore >>= f) c = f c.newlineBefore c := rfl

theorem advance_bind (f : Unit → Parser β) : (advance >>= f) c = f () c.advance := rfl

theorem check_bind (kind : TokenKind) (f : Bool → Parser β) :
    (check kind >>= f) c = f (c.kind? == some kind) c := rfl

theorem finish_bind (form : Form) (start : Position) (children : List Node)
    (f : Node → Parser β) :
    (finish form start children >>= f) c =
      f (Node.build form ⟨start, c.lastEnd⟩ children) c := rfl

theorem emptyExpression_bind (f : Node → Parser β) :
    (emptyExpression >>= f) c = f (Node.build .emptyExpression ⟨c.here, c.here⟩ []) c := rfl

/-- A token is taken if it is of the kind, and otherwise nothing happens. -/
theorem accept_eq (kind : TokenKind) :
    accept kind c = if c.kind? = some kind then .ok true c.advance else .ok false c := by
  by_cases h : c.kind? = some kind
  · simp only [accept, check_bind, h, beq_self_eq_true, ↓reduceIte, advance_bind]
    rfl
  · simp only [accept, check_bind, beq_eq_false_iff_ne.2 h, h, Bool.false_eq_true, ↓reduceIte]
    rfl

theorem accept_bind (kind : TokenKind) (f : Bool → Parser β) :
    (accept kind >>= f) c =
      if c.kind? = some kind then f true c.advance else f false c := by
  show EStateM.bind (accept kind) f c = _
  unfold EStateM.bind
  rw [accept_eq]
  by_cases h : c.kind? = some kind
  · rw [if_pos h, if_pos h]
  · rw [if_neg h, if_neg h]

section Branches

variable {kind : TokenKind} {x y : Parser β}

theorem check_pos (h : c.kind? = some kind) :
    (check kind >>= fun b => if b = true then x else y) c = x c := by
  rw [check_bind, h, beq_self_eq_true, if_pos rfl]

theorem check_neg (h : c.kind? ≠ some kind) :
    (check kind >>= fun b => if b = true then x else y) c = y c := by
  rw [check_bind, beq_eq_false_iff_ne.2 h, if_neg Bool.false_ne_true]

theorem accept_pos (h : c.kind? = some kind) :
    (accept kind >>= fun b => if b = true then x else y) c = x c.advance := by
  rw [accept_bind, if_pos h, if_pos rfl]

theorem accept_neg (h : c.kind? ≠ some kind) :
    (accept kind >>= fun b => if b = true then x else y) c = y c := by
  rw [accept_bind, if_neg h, if_neg Bool.false_ne_true]

end Branches

/-- A node ends where the last token that was taken ends. -/
theorem finish_eq_ok {form : Form} {start : Position} {children : List Node} {n : Node} :
    finish form start children c = .ok n c' ↔
      Node.build form ⟨start, c.lastEnd⟩ children = n ∧ c = c' := by
  show EStateM.Result.ok _ c = _ ↔ _
  simp

/-- What is expected is there and has been taken. -/
theorem expect_eq_ok {kind : TokenKind} {expected : String} {u : Unit} :
    expect kind expected c = .ok u c' ↔ c.kind? = some kind ∧ c.advance = c' := by
  rw [expect, accept_bind]
  by_cases h : c.kind? = some kind
  · simp only [h, ↓reduceIte, true_and, pure_eq_ok]
  · simp [h, unexpected_ne_ok]

/-- Either a token of the kind is there and something behind it, or nothing is taken. -/
theorem after?_eq_ok {kind : TokenKind} {item : Parser α} {a? : Option α} :
    after? kind item c = .ok a? c' ↔
      (∃ a, c.kind? = some kind ∧ item c.advance = .ok a c' ∧ a? = some a) ∨
        (c.kind? ≠ some kind ∧ a? = none ∧ c = c') := by
  rw [after?, accept_bind]
  by_cases h : c.kind? = some kind
  · simp only [h, ↓reduceIte, bind_eq_ok, pure_eq_ok, true_and, ne_eq, not_true_eq_false,
      false_and, or_false]
    constructor
    · rintro ⟨a, m, hitem, rfl, rfl⟩
      exact ⟨a, hitem, rfl⟩
    · rintro ⟨a, hitem, rfl⟩
      exact ⟨a, c', hitem, rfl, rfl⟩
  · simp [h, pure_eq_ok, eq_comm]

/-- Either an identifier is there and has been taken, or nothing is taken. -/
theorem name?_eq_ok {name? : Option String} :
    Parser.name? c = .ok name? c' ↔
      (∃ t x, c.rest.head? = some t ∧ t.identifier? = some x ∧ name? = some x ∧
          c.advance = c') ∨
        (c.rest.head?.bind Token.identifier? = none ∧ name? = none ∧ c = c') := by
  rw [Parser.name?, peek?_bind]
  cases hname : c.rest.head?.bind Token.identifier? with
  | none =>
    simp only [pure_eq_ok, true_and, eq_comm (a := (none : Option String))]
    constructor
    · exact .inr
    · rintro (⟨t, x, ht, hx, _⟩ | h)
      · simp [ht, hx] at hname
      · exact h
  | some x =>
    obtain ⟨t, ht, hx⟩ := Option.bind_eq_some_iff.1 hname
    simp only [advance_bind, pure_eq_ok, reduceCtorEq, false_and, or_false]
    constructor
    · rintro ⟨rfl, rfl⟩
      exact ⟨t, x, ht, hx, rfl, rfl⟩
    · rintro ⟨u, y, hu, hy, rfl, rfl⟩
      rw [hu] at ht
      cases ht
      rw [hx] at hy
      cases hy
      exact ⟨rfl, rfl⟩

/-- An identifier is there and has been taken. -/
theorem name_eq_ok {expected x : String} :
    Parser.name expected c = .ok x c' ↔
      ∃ t, c.rest.head? = some t ∧ t.identifier? = some x ∧ c.advance = c' := by
  simp only [Parser.name, bind_eq_ok, name?_eq_ok]
  constructor
  · rintro ⟨_, m, (⟨t, y, ht, hy, rfl, rfl⟩ | ⟨_, rfl, rfl⟩), h⟩
    · simp only [pure_eq_ok] at h
      obtain ⟨rfl, rfl⟩ := h
      exact ⟨t, ht, hy, rfl⟩
    · exact absurd h unexpected_ne_ok
  · rintro ⟨t, ht, hx, rfl⟩
    exact ⟨some x, _, .inl ⟨t, x, ht, hx, rfl, rfl⟩, rfl⟩

theorem impliedTerminator_bind (f : Bool → Parser β) :
    (impliedTerminator >>= f) c = f c.impliesTerminator c := by
  have hrun : impliedTerminator c = .ok c.impliesTerminator c := by
    simp only [impliedTerminator, check_bind, Cursor.impliesTerminator]
    by_cases hcurly : c.kind? = some (.punctuator .rightCurly)
    · simp only [hcurly, beq_self_eq_true, ↓reduceIte, Bool.true_or]
      rfl
    · simp only [beq_eq_false_iff_ne.2 hcurly, Bool.false_eq_true, ↓reduceIte, atEnd_bind,
        Bool.false_or]
      cases c.rest.isEmpty <;> rfl
  show EStateM.bind impliedTerminator f c = _
  unfold EStateM.bind
  rw [hrun]

/-- A statement ends with a `;` that is taken, or where one is implied. -/
theorem terminator_eq_ok {u : Unit} :
    terminator c = .ok u c' ↔
      (c.kind? = some (.punctuator .semicolon) ∧ c.advance = c') ∨
        (c.kind? ≠ some (.punctuator .semicolon) ∧ c.impliesTerminator = true ∧ c = c') := by
  rw [terminator, accept_bind]
  by_cases h : c.kind? = some (.punctuator .semicolon)
  · simp [h, pure_eq_ok]
  · simp only [h, ↓reduceIte, Bool.false_eq_true, impliedTerminator_bind, false_and, ne_eq,
      not_false_eq_true, true_and, false_or]
    by_cases himplied : c.impliesTerminator = true
    · simp [himplied, pure_eq_ok]
    · simp [himplied, unexpected_ne_ok]

/-- Something can be stored into the target, and no token is taken. -/
theorem requireAssignable_eq_ok {target : Node} {u : Unit} :
    requireAssignable target c = .ok u c' ↔ target.isAssignable = true ∧ c = c' := by
  rw [requireAssignable]
  by_cases h : target.isAssignable = true
  · simp [h, pure_eq_ok]
  · simp [h, throw_ne_ok]

/-- The tree is not too tall, and no token is taken. -/
theorem bounded_eq_ok {n m : Node} :
    bounded n c = .ok m c' ↔ n.height ≤ maxHeight ∧ n = m ∧ c = c' := by
  rw [bounded]
  by_cases h : n.height ≤ maxHeight
  · simp [h, pure_eq_ok]
  · simp [h, throw_ne_ok]

/-! ## Loops

A loop has a budget of rounds. Where a run stays within it, the budget leaves no trace: `Collects`
and `Steps` are the runs of the two loops without one. -/

/-- The runs of `item` until it gives none, and what they gave. -/
inductive Collects (item : Parser (Option α)) : Cursor → List α → Cursor → Prop where
  | done {c c' : Cursor} : item c = .ok none c' → Collects item c [] c'
  | more {c m c' : Cursor} {a : α} {as : List α} :
      item c = .ok (some a) m → Collects item m as c' → Collects item c (a :: as) c'

/-- What a loop within a budget collects comes from runs of its item. -/
theorem collectWithin_sound {item : Parser (Option α)} {budget : List Token} {as : List α}
    (h : collectWithin item budget c = .ok as c') : Collects item c as c' := by
  induction budget generalizing c as with
  | nil =>
    rw [collectWithin, bind_eq_ok] at h
    obtain ⟨a?, m, hitem, h⟩ := h
    cases a? with
    | none =>
      obtain ⟨rfl, rfl⟩ := pure_eq_ok.1 h
      exact .done hitem
    | some a => exact absurd h unexpected_ne_ok
  | cons token budget ih =>
    rw [collectWithin, bind_eq_ok] at h
    obtain ⟨a?, m, hitem, h⟩ := h
    cases a? with
    | none =>
      obtain ⟨rfl, rfl⟩ := pure_eq_ok.1 h
      exact .done hitem
    | some a =>
      simp only [bind_eq_ok, pure_eq_ok] at h
      obtain ⟨others, m', hothers, rfl, rfl⟩ := h
      exact .more hitem (ih hothers)

/-- A loop collects what the runs of its item give, if its budget covers them. -/
theorem collectWithin_complete {item : Parser (Option α)} {budget : List Token} {as : List α}
    (h : Collects item c as c') (hbudget : as.length ≤ budget.length) :
    collectWithin item budget c = .ok as c' := by
  induction h generalizing budget with
  | done hitem =>
    -- the last run needs no budget
    rw [collectWithin.eq_def, bind_eq_ok]
    exact ⟨_, _, hitem, rfl⟩
  | more hitem _ ih =>
    cases budget with
    | nil => simp at hbudget
    | cons token budget =>
      rw [collectWithin, bind_eq_ok]
      refine ⟨_, _, hitem, ?_⟩
      simp only [bind_eq_ok, pure_eq_ok]
      exact ⟨_, _, ih (by simpa using hbudget), rfl, rfl⟩

/-- What a loop collects has been collected round by round. -/
theorem collect_sound {item : Parser (Option α)} {as : List α}
    (h : collect item c = .ok as c') : Collects item c as c' :=
  collectWithin_sound h

/-- Rounds that are not more than the tokens ahead are all run. -/
theorem collect_complete {item : Parser (Option α)} {as : List α}
    (h : Collects item c as c') (hbudget : as.length ≤ c.rest.length) :
    collect item c = .ok as c' :=
  collectWithin_complete h hbudget

/-- `Steps step count a c b c'` says that `count` extensions lead from `a` to `b`. -/
inductive Steps (step : α → Parser (Option α)) : Nat → α → Cursor → α → Cursor → Prop where
  | refl {a : α} {c : Cursor} : Steps step 0 a c a c
  | tail {count : Nat} {a b d : α} {c m c' : Cursor} :
      Steps step count a c b m → step b m = .ok (some d) c' → Steps step (count + 1) a c d c'

/-- An extension before other extensions. -/
theorem Steps.head {step : α → Parser (Option α)} {a b d : α} {m : Cursor} {count : Nat}
    (hstep : step a c = .ok (some b) m) (h : Steps step count b m d c') :
    Steps step (count + 1) a c d c' := by
  induction h with
  | refl => exact .tail .refl hstep
  | tail _ hlast ih => exact .tail (ih hstep) hlast

/-- The first of several extensions. -/
theorem Steps.exists_head {step : α → Parser (Option α)} {a d : α} {count : Nat}
    (h : Steps step (count + 1) a c d c') :
    ∃ b m, step a c = .ok (some b) m ∧ Steps step count b m d c' := by
  induction count generalizing d c' with
  | zero =>
    obtain ⟨⟩ | ⟨hrefl, hstep⟩ := h
    cases hrefl
    exact ⟨_, _, hstep, .refl⟩
  | succ count ih =>
    obtain ⟨⟩ | ⟨hsteps, hlast⟩ := h
    obtain ⟨b, m, hstep, hrest⟩ := ih hsteps
    exact ⟨b, m, hstep, .tail hrest hlast⟩

/-- What cannot be extended stays as it is. -/
theorem Steps.eq_of_stuck {step : α → Parser (Option α)} {a b : α} {count : Nat}
    (h : Steps step count a c b c') (hstuck : ∀ d m, step a c ≠ .ok (some d) m) :
    b = a ∧ c' = c := by
  induction h with
  | refl => exact ⟨rfl, rfl⟩
  | tail _ hstep ih =>
    obtain ⟨rfl, rfl⟩ := ih hstuck
    exact absurd hstep (hstuck _ _)

/-- A chain gives what extensions lead to, where no further one follows. -/
theorem chainWithin_sound {step : α → Parser (Option α)} {budget : List Token} {a b : α}
    (h : chainWithin step a budget c = .ok b c') :
    ∃ count m, Steps step count a c b m ∧ step b m = .ok none c' := by
  induction budget generalizing a c with
  | nil =>
    rw [chainWithin, bind_eq_ok] at h
    obtain ⟨b?, m, hstep, h⟩ := h
    cases b? with
    | none =>
      obtain ⟨rfl, rfl⟩ := pure_eq_ok.1 h
      exact ⟨0, c, .refl, hstep⟩
    | some b => exact absurd h unexpected_ne_ok
  | cons token budget ih =>
    rw [chainWithin, bind_eq_ok] at h
    obtain ⟨b?, m, hstep, h⟩ := h
    cases b? with
    | none =>
      obtain ⟨rfl, rfl⟩ := pure_eq_ok.1 h
      exact ⟨0, c, .refl, hstep⟩
    | some b =>
      obtain ⟨count, m', hsteps, hstop⟩ := ih h
      exact ⟨count + 1, m', .head hstep hsteps, hstop⟩

/-- What a chain gives has been made step by step, and no further step applies. -/
theorem chain_sound {step : α → Parser (Option α)} {a b : α} (h : chain step a c = .ok b c') :
    ∃ count m, Steps step count a c b m ∧ step b m = .ok none c' :=
  chainWithin_sound h

/-- A chain follows extensions to the place where none follows, if its budget covers them. -/
theorem chainWithin_complete {step : α → Parser (Option α)} {budget : List Token} {a b : α}
    {count : Nat} {m : Cursor} (h : Steps step count a c b m) (hstop : step b m = .ok none c')
    (hbudget : count ≤ budget.length) : chainWithin step a budget c = .ok b c' := by
  induction count generalizing a c budget with
  | zero =>
    cases h
    rw [chainWithin.eq_def, bind_eq_ok]
    exact ⟨_, _, hstop, rfl⟩
  | succ count ih =>
    -- `Steps` grows at its end, and the loop takes the first extension first
    obtain ⟨d, m', hstep, hrest⟩ := h.exists_head
    cases budget with
    | nil => simp at hbudget
    | cons token budget =>
      rw [chainWithin, bind_eq_ok]
      exact ⟨_, _, hstep, ih hrest (Nat.le_of_succ_le_succ hbudget)⟩

/-- Steps that are not more than the tokens ahead are all run. -/
theorem chain_complete {step : α → Parser (Option α)} {a b : α} {count : Nat} {m : Cursor}
    (h : Steps step count a c b m) (hstop : step b m = .ok none c')
    (hbudget : count ≤ c.rest.length) : chain step a c = .ok b c' :=
  chainWithin_complete h hstop hbudget

end Parser

end ScriptLint
