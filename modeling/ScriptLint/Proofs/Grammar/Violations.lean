import ScriptLint.Proofs.Grammar.Nearsighted

/-!
# Where violations point

A parser that fails stops at an index of its tokens, and the violation points to a place that has to
do with that index (`SyntaxError.InPlace`): an unexpected token is the one at the index, an
unexpected end is the end of the tokens, and any other violation points to the start of a token that
was seen.

A violation that names a place was handed that place by the production that noted it. So it is said
of each production where the node starts that it gives (`Begun`).

Main statement: `first_violation_final`.
-/

namespace ScriptLint

open ScriptLint.Parser ScriptLint.Grammar

/-- One of the first `count` tokens starts at `p`. -/
def StartsBefore (tokens : List Token) (count : Nat) (p : Position) : Prop :=
  ∃ i < count, ∃ t, tokens[i]? = some t ∧ t.span.start = p

/-- A violation points to a place that belongs to the index `k`, where it was found. -/
def SyntaxError.InPlace (tokens : List Token) (k : Nat) : SyntaxError → Prop
  | .unexpectedToken found _ p =>
    ∃ t, tokens[k]? = some t ∧ found = t.display ∧ p = t.span.start
  | .unexpectedEnd _ => k = tokens.length
  | .invalidAssignmentTarget p | .missingCatchOrFinally p => StartsBefore tokens (k + 1) p
  | .nestingTooDeep p => StartsBefore tokens (k + 1) p ∨
    k = tokens.length ∧ ∃ t, tokens.getLast? = some t ∧ p = t.span.stop

/-- A node that was read from the index `i` up to the index `j` has taken tokens and starts with one
of those before `j`. -/
def Begun (tokens : List Token) (i j : Nat) (n : Node) : Prop :=
  i < j ∧ StartsBefore tokens j n.start

/-- `Answers tokens post x i` says of a run of `x` from the index `i`: if it fails, the violation is
in place, and if it gives a value, then at an index that satisfies `post` together with it. -/
def Answers (tokens : List Token) {α : Type} (post : Nat → α → Prop) (x : Parser α) (i : Nat) :
    Prop :=
  i ≤ tokens.length → match x (.atIndex tokens i) with
    | .ok a c => ∃ j, i ≤ j ∧ j ≤ tokens.length ∧ c = .atIndex tokens j ∧ post j a
    | .error e c => ∃ k ≤ tokens.length, c = .atIndex tokens k ∧ e.InPlace tokens k

/-- The violations of `x` are in place. -/
abbrev Errs (tokens : List Token) {α : Type} (x : Parser α) (i : Nat) : Prop :=
  Answers tokens (fun _ _ => True) x i

/-! ## Places of tokens -/

section Places

variable {tokens : List Token} {i j count count' : Nat} {p : Position}

/-- A token among the first ones is among more of them as well. -/
theorem StartsBefore.mono (h : StartsBefore tokens count p) (hcount : count ≤ count') :
    StartsBefore tokens count' p := by
  obtain ⟨i, hi, ht⟩ := h
  exact ⟨i, by omega, ht⟩

/-- A node has begun at any later index as well. -/
theorem Begun.mono {n : Node} (h : Begun tokens i count n) (hcount : count ≤ count') :
    Begun tokens i count' n :=
  ⟨Nat.lt_of_lt_of_le h.1 hcount, h.2.mono hcount⟩

/-- The token ahead of the cursor at an index is the one at that index. -/
theorem Cursor.head?_atIndex : (atIndex tokens i).rest.head? = tokens[i]? := by
  rw [rest_atIndex, List.head?_drop]

/-- The place of a token is the start of the next one. -/
theorem startsBefore_here (hi : i < tokens.length) (hij : i < j) :
    StartsBefore tokens j (Cursor.atIndex tokens i).here := by
  refine ⟨i, hij, tokens[i], List.getElem?_eq_getElem hi, ?_⟩
  rw [Cursor.here, Cursor.head?_atIndex, List.getElem?_eq_getElem hi]
  rfl

/-- Where a kind is seen there is a token. -/
theorem lt_of_kind? {kind : TokenKind} (h : (Cursor.atIndex tokens i).kind? = some kind) :
    i < tokens.length := by
  obtain ⟨t, ht, -⟩ := Cursor.exists_token h
  rw [Cursor.head?_atIndex] at ht
  exact (List.getElem?_eq_some_iff.1 ht).1

/-- Where a token means something there is one. -/
theorem lt_of_bind {α : Type} {meaning : Token → Option α} {a : α}
    (h : tokens[i]?.bind meaning = some a) : i < tokens.length := by
  obtain ⟨t, ht, -⟩ := Option.bind_eq_some_iff.1 h
  exact (List.getElem?_eq_some_iff.1 ht).1

/-- Where the kind of a token means something there is a token. -/
theorem lt_of_bind_kind {α : Type} {meaning : TokenKind → Option α} {a : α}
    (h : (tokens[i]?.map Token.kind).bind meaning = some a) : i < tokens.length := by
  rw [Option.bind_map] at h
  exact lt_of_bind h

/-- Behind all tokens of a list that is not empty the place is the end of the last one. -/
theorem here_atEnd {tokens : List Token} (h : tokens ≠ []) :
    ∃ t, tokens.getLast? = some t ∧ (Cursor.atIndex tokens tokens.length).here = t.span.stop := by
  have hlast := List.getLast?_eq_some_getLast h
  obtain ⟨front, htokens⟩ := List.getLast?_eq_some_iff.1 hlast
  refine ⟨_, hlast, ?_⟩
  rw [Cursor.here, Cursor.head?_atIndex, List.getElem?_eq_none (Nat.le_refl _)]
  generalize tokens.getLast h = t at htokens
  rw [htokens, List.length_append, List.length_singleton, Cursor.atIndex, Cursor.lastEnd,
    List.getElem?_concat_length]
  rfl

end Places

/-! ## Steps -/

namespace Answers

variable {tokens : List Token} {α β : Type} {post post' : Nat → α → Prop} {goal : Nat → β → Prop}
variable {x y : Parser α} {f : α → Parser β} {i j : Nat} {kind : TokenKind}

/-- Only what the parser does at the index matters. -/
theorem congr (hxy : x (.atIndex tokens i) = y (.atIndex tokens i)) (h : Answers tokens post y i) :
    Answers tokens post x i := by
  intro hi
  rw [hxy]
  exact h hi

/-- The condition on the value may be weakened, also with the fact that no run goes back. -/
theorem weaken (h : Answers tokens post x i) (hpost : ∀ j a, i ≤ j → post j a → post' j a) :
    Answers tokens post' x i := by
  intro hi
  have hrun := h hi
  cases hx : x (.atIndex tokens i) with
  | error e c =>
    rw [hx] at hrun
    exact hrun
  | ok a c =>
    rw [hx] at hrun
    obtain ⟨j, hij, hj, rfl, ha⟩ := hrun
    exact ⟨j, hij, hj, rfl, hpost j a hij ha⟩

/-- The violations are in place, whatever is known about the values. -/
theorem errs (h : Answers tokens post x i) : Errs tokens x i := h.weaken fun _ _ _ _ => trivial

/-- A value is given at the index where the parser stands. -/
theorem pure {a : α} (h : post i a) : Answers tokens post (pure a) i :=
  fun hi => ⟨i, Nat.le_refl i, hi, rfl, h⟩

/-- Two parsers one after the other. The second one may use what the first one has told. -/
theorem bind (hx : Answers tokens post x i)
    (hf : ∀ j a, i ≤ j → post j a → Answers tokens goal (f a) j) :
    Answers tokens goal (x >>= f) i := by
  intro hi
  have hrun := hx hi
  show match EStateM.bind x f (.atIndex tokens i) with
    | .ok _ _ => _
    | .error _ _ => _
  unfold EStateM.bind
  cases hx : x (.atIndex tokens i) with
  | error e c =>
    rw [hx] at hrun
    exact hrun
  | ok a c =>
    rw [hx] at hrun
    obtain ⟨j, hij, hj, rfl, ha⟩ := hrun
    have hnext := hf j a hij ha hj
    revert hnext
    dsimp only
    cases f a (.atIndex tokens j) with
    | error e c => exact id
    | ok b c =>
      rintro ⟨k, hjk, hk, hc, hb⟩
      exact ⟨k, Nat.le_trans hij hjk, hk, hc, hb⟩

/-- What is known of a value is not needed. -/
theorem andThen (hx : Answers tokens post x i) (hf : ∀ j a, i ≤ j → Answers tokens goal (f a) j) :
    Answers tokens goal (x >>= f) i :=
  hx.bind fun j a hij _ => hf j a hij

/-- The violation shows the token at the index, or tells that the tokens end there. -/
theorem unexpected {expected : String} :
    Answers tokens post (unexpected expected) i := by
  intro hi
  refine ⟨i, hi, rfl, ?_⟩
  show (Cursor.violation _ expected).InPlace tokens i
  have hrest : (Cursor.atIndex tokens i).rest.head? = tokens[i]? := Cursor.head?_atIndex
  rw [Cursor.violation]
  cases hnext : (Cursor.atIndex tokens i).rest with
  | nil =>
    rw [Cursor.rest_atIndex, List.drop_eq_nil_iff] at hnext
    exact Nat.le_antisymm hi hnext
  | cons t rest =>
    rw [hnext] at hrest
    exact ⟨t, hrest.symm, rfl, rfl⟩

/-- The place that is handed on is that of the index. -/
theorem here {f : Position → Parser β}
    (h : Answers tokens goal (f (Cursor.atIndex tokens i).here) i) :
    Answers tokens goal (Parser.here >>= f) i :=
  h

/-- The next token is taken, if there is one. -/
theorem advance {y : Parser β} (hi : i < tokens.length) (h : Answers tokens goal y (i + 1)) :
    Answers tokens goal (Parser.advance >>= fun _ => y) i := by
  have hadvance : Answers tokens (fun j (_ : Unit) => j = i + 1) Parser.advance i :=
    fun _ => ⟨i + 1, Nat.le_succ i, hi, Cursor.advance_atIndex hi, rfl⟩
  refine hadvance.bind fun j _ _ hj => ?_
  rwa [hj]

/-- Of the two branches the first may use that there is a token. -/
theorem check (hx : i < tokens.length → Answers tokens post x i) (hy : Answers tokens post y i) :
    Answers tokens post (Parser.check kind >>= fun b => if b = true then x else y) i := by
  by_cases h : (Cursor.atIndex tokens i).kind? = some kind
  · exact congr (check_pos h) (hx (lt_of_kind? h))
  · exact congr (check_neg h) hy

/-- In the first branch a token has been taken. -/
theorem accept (hx : i < tokens.length → Answers tokens post x (i + 1))
    (hy : Answers tokens post y i) :
    Answers tokens post (Parser.accept kind >>= fun b => if b = true then x else y) i := by
  by_cases h : (Cursor.atIndex tokens i).kind? = some kind
  · have hi := lt_of_kind? h
    exact congr (y := Parser.advance >>= fun _ => x) (accept_pos h) (advance hi (hx hi))
  · exact congr (accept_neg h) hy

/-- What is expected has been taken, or the violation shows the token in its place. -/
theorem expect {expected : String} :
    Answers tokens (fun j _ => i < j) (Parser.expect kind expected) i :=
  accept (fun _ => pure (Nat.lt_succ_self i)) unexpected

/-- What stands behind a token of the kind has its violations in place if that is so one index
further. -/
theorem after? (h : i < tokens.length → Answers tokens post x (i + 1)) :
    Errs tokens (Parser.after? kind x) i :=
  accept (fun hi => (h hi).andThen fun _ _ _ => pure trivial) (pure trivial)

/-- A choice by what a cursor shows, either way. -/
theorem ask {look : Parser Bool} {b : Bool}
    (hlook : (look >>= fun b => if b = true then x else y) (.atIndex tokens i) =
      (if b = true then x else y) (.atIndex tokens i))
    (hx : Answers tokens post x i) (hy : Answers tokens post y i) :
    Answers tokens post (look >>= fun b => if b = true then x else y) i := by
  refine congr hlook ?_
  split
  · exact hx
  · exact hy

theorem peek? {f : Option Token → Parser β} (h : Answers tokens goal (f tokens[i]?) i) :
    Answers tokens goal (Parser.peek? >>= f) i :=
  congr (by rw [peek?_bind, Cursor.head?_atIndex]) h

/-- The kind that is handed on is that of the token at the index. -/
theorem peekKind? {f : Option TokenKind → Parser β}
    (h : Answers tokens goal (f (tokens[i]?.map Token.kind)) i) :
    Answers tokens goal (Parser.peekKind? >>= f) i :=
  congr (by rw [peekKind?_bind, Cursor.kind?, Cursor.head?_atIndex]) h

/-- A name behind a dot or a key of an object is a token that is taken. -/
theorem property {meaning : Token → Option String} :
    Answers tokens (fun j _ => i < j) (property meaning) i := by
  unfold Grammar.property
  refine peek? ?_
  split
  · next h => exact advance (lt_of_bind h) (pure (Nat.lt_succ_self i))
  · exact unexpected

/-- If there is a name, it has been taken. -/
theorem name? :
    Answers tokens (fun j (name : Option String) => name.isSome = true → i < j) Parser.name? i := by
  unfold Parser.name?
  refine peek? ?_
  split
  · next h => exact advance (lt_of_bind h) (pure fun _ => Nat.lt_succ_self i)
  · exact pure nofun

/-- A name has been taken, or the violation shows the token in its place. -/
theorem name {expected : String} : Answers tokens (fun j _ => i < j) (Parser.name expected) i := by
  unfold Parser.name
  refine name?.bind fun j name _ hname => ?_
  cases name with
  | none => exact unexpected
  | some name => exact pure (hname rfl)

/-- A missing `;` is found at the token before which it should stand. -/
theorem terminator : Errs tokens Parser.terminator i := by
  unfold Parser.terminator
  refine accept (fun _ => pure trivial) ?_
  exact ask (impliedTerminator_bind _) (pure trivial) unexpected

theorem finish {form : Form} {start : Position} {children : List Node} :
    Errs tokens (Parser.finish form start children) i :=
  fun hi => ⟨i, Nat.le_refl i, hi, rfl, trivial⟩

/-- A node from a place that was noted at `i`, behind which tokens were taken. -/
theorem node {form : Form} {children : List Node} (hij : i < j) :
    Answers tokens (Begun tokens i)
      (Parser.finish form (Cursor.atIndex tokens i).here children) j :=
  fun hj => ⟨j, Nat.le_refl j, hj, rfl, hij, startsBefore_here (Nat.lt_of_lt_of_le hij hj) hij⟩

/-- Nothing is taken for an expression that is left out. -/
theorem emptyExpression : Answers tokens (fun j _ => j = i) Parser.emptyExpression i :=
  fun hi => ⟨i, Nat.le_refl i, hi, rfl, rfl⟩

/-- A violation that names a place is in place if the place belongs to the index. -/
theorem throw {e : SyntaxError} (h : e.InPlace tokens i) :
    Answers tokens post (throw e : Parser α) i :=
  fun hi => ⟨i, hi, rfl, h⟩

/-- The start of a node that was read is the start of a token that was seen. -/
theorem requireAssignable {n : Node} (hn : StartsBefore tokens i n.start) :
    Answers tokens (fun j _ => j = i) (Parser.requireAssignable n) i := by
  unfold Parser.requireAssignable
  have hplace : SyntaxError.InPlace tokens i (.invalidAssignmentTarget n.start) :=
    hn.mono (Nat.le_succ i)
  split
  · exact pure rfl
  · exact throw hplace

/-- A tree that is too tall is noted where it starts, so its start has to be that of a token. -/
theorem bounded {n : Node} (hn : StartsBefore tokens i n.start) :
    Answers tokens (fun _ m => m = n) (Parser.bounded n) i := by
  unfold Parser.bounded
  have hplace : SyntaxError.InPlace tokens i (.nestingTooDeep n.start) :=
    .inl (hn.mono (Nat.le_succ i))
  split
  · exact pure rfl
  · exact throw hplace

/-- Where no level is left, the violation is at the next token or behind the last one. -/
theorem tooDeep {post : Nat → Node → Prop} (hne : tokens ≠ []) : Answers tokens post tooDeep i := by
  intro hi
  refine ⟨i, hi, rfl, ?_⟩
  by_cases hlt : i < tokens.length
  · exact .inl (startsBefore_here hlt (Nat.lt_succ_self i))
  · obtain rfl : i = tokens.length := by omega
    exact .inr ⟨rfl, here_atEnd hne⟩

/-- `default` without its colon is noted at `default` itself, which has not been taken. -/
theorem defaultLabel {a : α} {expected : String} :
    Errs tokens (Grammar.defaultLabel >>= fun b =>
      if b = true then Pure.pure a else Parser.unexpected expected) i := by
  by_cases h : (Cursor.atIndex tokens i).kind? = some (.keyword .defaultKw) ∧
      (Cursor.atIndex tokens i).advance.kind? = some (.punctuator .colon)
  · have hi := lt_of_kind? h.1
    have hi' : i + 1 < tokens.length := lt_of_kind? (Cursor.advance_atIndex hi ▸ h.2)
    refine congr (y := Parser.advance >>= fun _ => Parser.advance >>= fun _ => Pure.pure a) ?_ ?_
    · rw [defaultLabel_bind, if_pos h]
      rfl
    · exact advance hi (advance hi' (pure trivial))
  · refine congr (y := Parser.unexpected expected) ?_ unexpected
    rw [defaultLabel_bind, if_neg h]
    rfl

/-! ## Loops -/

/-- A loop that collects, by induction on the rounds that are left to it. -/
theorem collectWithin {item : Parser (Option α)} (h : ∀ j, Errs tokens item j)
    (budget : List Token) (i : Nat) : Errs tokens (Parser.collectWithin item budget) i := by
  induction budget generalizing i with
  | nil =>
    unfold Parser.collectWithin
    refine (h i).andThen fun j a? _ => ?_
    cases a? with
    | none => exact pure trivial
    | some a => exact unexpected
  | cons t budget ih =>
    unfold Parser.collectWithin
    refine (h i).andThen fun j a? _ => ?_
    cases a? with
    | none => exact pure trivial
    | some a => exact (ih j).andThen fun _ _ _ => pure trivial

/-- The violations of a loop are those of its rounds. -/
theorem collect {item : Parser (Option α)} (h : ∀ j, Errs tokens item j) :
    Errs tokens (Parser.collect item) i :=
  congr (y := Parser.collectWithin item _) rfl (collectWithin h _ i)

/-- The violations of a list are those of its items. -/
theorem separated (h : ∀ j, Errs tokens x j) : Errs tokens (Parser.separated x) i := by
  unfold Parser.separated
  refine (h i).andThen fun j first _ => ?_
  exact (collect fun j => after? fun _ => h (j + 1)).andThen fun _ _ _ => pure trivial

/-- A chain of nodes that start where the first one does. -/
theorem chainWithin {step : Node → Parser (Option Node)}
    (h : ∀ j n, Begun tokens i j n →
      Answers tokens (fun k next => ∀ m ∈ next, Begun tokens i k m) (step n) j)
    (budget : List Token) {j : Nat} {n : Node} (hn : Begun tokens i j n) :
    Answers tokens (Begun tokens i) (Parser.chainWithin step n budget) j := by
  induction budget generalizing j n with
  | nil =>
    unfold Parser.chainWithin
    refine (h j n hn).bind fun k next hjk hnext => ?_
    cases next with
    | none => exact pure (hn.mono hjk)
    | some m => exact unexpected
  | cons t budget ih =>
    unfold Parser.chainWithin
    refine (h j n hn).bind fun k next hjk hnext => ?_
    cases next with
    | none => exact pure (hn.mono hjk)
    | some m => exact ih (hnext m rfl)

/-- Every round of a chain is handed a node that has begun where the chain has. -/
theorem chain {step : Node → Parser (Option Node)}
    (h : ∀ j n, Begun tokens i j n →
      Answers tokens (fun k next => ∀ m ∈ next, Begun tokens i k m) (step n) j)
    {n : Node} (hn : Begun tokens i j n) :
    Answers tokens (Begun tokens i) (Parser.chain step n) j :=
  congr (y := Parser.chainWithin step n _) rfl (chainWithin h _ hn)

end Answers

/-! ## Expressions -/

/-- The violations of the productions that open a nesting level are in place. -/
structure AnswersNested (tokens : List Token) (g : Nested) : Prop where
  ending (i : Nat) : Errs tokens g.ending i
  statement (i : Nat) : Errs tokens g.statement i
  block (i : Nat) : Errs tokens g.block i
  assignment (allowIn : Bool) (i : Nat) :
    Answers tokens (Begun tokens i) (g.assignment allowIn) i
  unary (i : Nat) : Answers tokens (Begun tokens i) g.unary i
  construction {i : Nat} (hi : i < tokens.length) :
    Answers tokens (Begun tokens i) g.construction i

namespace Grammar

variable {tokens : List Token} {g : Nested} {i j : Nat}

section Productions

variable (hg : AnswersNested tokens g)
include hg

/-- An expression starts with the first of its parts. -/
theorem expression_answers (allowIn : Bool) (i : Nat) :
    Answers tokens (Begun tokens i) (expression g allowIn) i := by
  unfold expression
  refine .here ?_
  refine (hg.assignment allowIn i).bind fun j first _ hfirst => ?_
  refine .check (fun _ => ?_) (.pure hfirst)
  have hothers : Errs tokens (collect (after? (.punctuator .comma) (g.assignment allowIn))) j :=
    .collect fun k => .after? fun _ => hg.assignment allowIn (k + 1)
  exact hothers.andThen fun k _ hjk => .node (Nat.lt_of_lt_of_le hfirst.1 hjk)

/-- What stands between parentheses starts behind the first of them. -/
theorem parenthesized_answers (i : Nat) :
    Answers tokens (Begun tokens i) (parenthesized g) i := by
  unfold parenthesized
  refine Answers.expect.bind fun j _ _ hij => ?_
  refine (expression_answers hg true j).bind fun k inner _ hinner => ?_
  refine Answers.expect.andThen fun l _ hkl => .pure ?_
  exact ⟨by have := hinner.1; omega, hinner.2.mono hkl⟩

omit hg in
/-- A list between parentheses has its violations in place if its items have. -/
theorem enclosedList_errs {form : Form} {item : Parser Node} (hitem : ∀ j, Errs tokens item j) :
    Errs tokens (enclosedList form item) i := by
  unfold enclosedList
  refine .here (Answers.expect.andThen fun j _ _ => ?_)
  have hclose (k : Nat) (items : List Node) : Errs tokens (do
      expect (.punctuator .rightParen) "')'"
      finish form (Cursor.atIndex tokens i).here items) k :=
    Answers.expect.andThen fun _ _ _ => .finish
  exact .check (fun _ => hclose j []) ((Answers.separated hitem).andThen fun k items _ =>
    hclose k items)

/-- The violations of arguments are those of the assignments in them. -/
theorem arguments_errs : Errs tokens (arguments g) i :=
  enclosedList_errs fun j => (hg.assignment true j).errs

omit hg in
/-- A parameter that is no name is noted at its token. -/
theorem parameters_errs : Errs tokens parameters i :=
  enclosedList_errs fun _ => .here (Answers.name.andThen fun _ _ _ => .finish)

/-- The parameters and the body of a function whose start was noted before `j`. -/
theorem functionOf_answers {form : Form} (hij : i < j) :
    Answers tokens (Begun tokens i) (functionOf g form (Cursor.atIndex tokens i).here) j := by
  unfold functionOf
  refine parameters_errs.andThen fun k _ hjk => ?_
  exact (hg.block k).andThen fun l _ hkl => .node (by omega)

/-- A function starts with its keyword. -/
theorem functionExpression_answers (i : Nat) :
    Answers tokens (Begun tokens i) (functionExpression g) i := by
  unfold functionExpression
  refine .here (Answers.expect.bind fun j _ _ hij => ?_)
  exact Answers.name?.andThen fun k _ hjk => functionOf_answers hg (by omega)

/-- An element of an array may be left out, and then nothing is taken for it. -/
theorem element_errs (i : Nat) : Errs tokens (element g) i := by
  unfold element
  refine .check (fun _ => .pure trivial) (.check (fun hi => ?_) ?_)
  · refine Answers.emptyExpression.bind fun j hole _ hj => ?_
    exact .advance (hj ▸ hi) (.pure trivial)
  · refine (hg.assignment true i).andThen fun j value _ => ?_
    refine .check (fun _ => .pure trivial) ?_
    exact Answers.expect.andThen fun _ _ _ => .pure trivial

/-- A key, a colon and a value, each of which may be missing. -/
theorem member_errs (i : Nat) : Errs tokens (member g) i := by
  unfold member
  refine .check (fun _ => .pure trivial) (.here ?_)
  refine Answers.property.andThen fun j key _ => ?_
  refine Answers.expect.andThen fun j _ _ => ?_
  refine (hg.assignment true j).andThen fun j value _ => ?_
  refine Answers.finish.andThen fun j result _ => ?_
  refine .check (fun _ => .pure trivial) ?_
  exact Answers.expect.andThen fun _ _ _ => .pure trivial

omit hg in
/-- Items between brackets whose opening one is next. -/
theorem bracketed_answers {form : Form} {item : Parser (Option Node)} {closer : TokenKind}
    {expected : String} (hitem : ∀ j, Errs tokens item j) (hi : i < tokens.length) :
    Answers tokens (Begun tokens i) (do
      let start ← here
      advance
      let items ← collect item
      expect closer expected
      finish form start items) i := by
  refine .here (.advance hi ?_)
  refine (Answers.collect hitem).andThen fun j items hij => ?_
  exact Answers.expect.andThen fun k _ hjk => .node (by omega)

/-- A primary expression starts with the token that decides its kind. -/
theorem primary_answers (i : Nat) : Answers tokens (Begun tokens i) (primary g) i := by
  unfold primary
  refine .here (.peek? ?_)
  cases htoken : tokens[i]? with
  | none => exact .unexpected
  | some t =>
    have hi : i < tokens.length := (List.getElem?_eq_some_iff.1 htoken).1
    have hword {form : Form} : Answers tokens (Begun tokens i) (do
        advance
        finish form (Cursor.atIndex tokens i).here []) i :=
      .advance hi (.node (Nat.lt_succ_self i))
    dsimp only
    split
    · exact hword
    split
    · exact Answers.name.bind fun j _ _ hij => .node hij
    · exact hword
    · exact functionExpression_answers hg i
    · exact parenthesized_answers hg i
    · exact bracketed_answers (element_errs hg) hi
    · exact bracketed_answers (member_errs hg) hi
    · exact .unexpected

/-- A member access on an object whose start was noted before `j`. -/
theorem memberAccess_answers {object : Node} (hij : i < j) :
    Answers tokens (Begun tokens i) (memberAccess g (Cursor.atIndex tokens i).here object) j := by
  unfold memberAccess
  refine .accept (fun _ => ?_) ?_
  · refine .here (Answers.property.andThen fun k _ hk => ?_)
    exact Answers.finish.andThen fun l _ hl => .node (by omega)
  · refine Answers.expect.andThen fun k _ hk => ?_
    refine (expression_answers hg true k).andThen fun l _ hl => ?_
    exact Answers.expect.andThen fun m _ hm => .node (by omega)

omit hg in
/-- A link of a chain is bounded. -/
theorem link_answers {x : Parser Node} (h : Answers tokens (Begun tokens i) x j) :
    Answers tokens (fun k next => ∀ m ∈ next, Begun tokens i k m)
      (do return some (← bounded (← x))) j := by
  refine h.bind fun k n _ hn => ?_
  refine (Answers.bounded hn.2).bind fun l m hkl hm => .pure ?_
  rintro _ ⟨⟩
  rw [hm]
  exact hn.mono hkl

/-- An expression with a member access behind it starts where the expression does. -/
theorem memberStep_answers {object : Node} (hij : i < j) :
    Answers tokens (fun k next => ∀ m ∈ next, Begun tokens i k m)
      (memberStep g (Cursor.atIndex tokens i).here object) j := by
  unfold memberStep
  refine .peekKind? ?_
  split
  · exact link_answers (memberAccess_answers hg hij)
  · exact .pure nofun

/-- An expression with a call behind it starts where the expression does. -/
theorem callStep_answers {callee : Node} (hij : i < j) :
    Answers tokens (fun k next => ∀ m ∈ next, Begun tokens i k m)
      (callStep g (Cursor.atIndex tokens i).here callee) j := by
  unfold callStep
  refine .check (fun _ => ?_) (memberStep_answers hg hij)
  refine (arguments_errs hg).andThen fun k list hk => ?_
  exact link_answers (.node (by omega))

/-- A construction starts with the token in the place of `new`. -/
theorem construction_answers (hi : i < tokens.length) :
    Answers tokens (Begun tokens i) (construction g) i := by
  unfold construction
  refine .here (.advance hi (.here ?_))
  have hrest {k : Nat} {head : Node} (hhead : Begun tokens (i + 1) k head) :
      Answers tokens (Begun tokens i) (do
        let callee ← chain (memberStep g (Cursor.atIndex tokens (i + 1)).here) head
        if ← check (.punctuator .leftParen) then
          let list ← arguments g
          finish (.newExpression true) (Cursor.atIndex tokens i).here [callee, list]
        else
          finish (.newExpression false) (Cursor.atIndex tokens i).here [callee]) k := by
    refine (Answers.chain (fun j n hn => memberStep_answers hg hn.1) hhead).bind
      fun l callee _ hcallee => ?_
    have hil : i < l := by have := hcallee.1; omega
    refine .check (fun _ => ?_) (.node hil)
    exact (arguments_errs hg).andThen fun m list hm => .node (by omega)
  refine .check (fun hi' => ?_) ?_
  · exact (hg.construction hi').bind fun k head _ hhead => hrest hhead
  · exact (primary_answers hg (i + 1)).bind fun k head _ hhead => hrest hhead

/-- The chain starts with what is called, so every call in it starts there as well. -/
theorem callChain_answers (i : Nat) : Answers tokens (Begun tokens i) (callChain g) i := by
  unfold callChain
  have hrest {k : Nat} {head : Node} (hhead : Begun tokens i k head) :
      Answers tokens (Begun tokens i) (chain (callStep g (Cursor.atIndex tokens i).here) head) k :=
    .chain (fun j n hn => callStep_answers hg hn.1) hhead
  refine .here (.check (fun hi => ?_) ?_)
  · exact (construction_answers hg hi).bind fun k head _ hhead => hrest hhead
  · exact (primary_answers hg i).bind fun k head _ hhead => hrest hhead

/-- The operand of an update operator is noted where it starts, if nothing can be stored into it. -/
theorem updated_answers (i : Nat) : Answers tokens (Begun tokens i) (updated g) i := by
  unfold updated
  refine .here ((callChain_answers hg i).bind fun j operand _ hoperand => ?_)
  refine .ask rfl (.pure hoperand) (.peekKind? ?_)
  split
  · exact .pure hoperand
  · next operator hoperator =>
    have hj : j < tokens.length := lt_of_bind_kind hoperator
    refine (Answers.requireAssignable hoperand.2).bind fun k _ _ hk => ?_
    have hij := hoperand.1
    exact .advance (hk ▸ hj) (.node (by omega))

/-- An operator before its operand is where the whole starts. -/
theorem unary_answers (i : Nat) : Answers tokens (Begun tokens i) (unary g) i := by
  unfold unary
  refine .here (.peekKind? ?_)
  cases htoken : tokens[i]? with
  | none => exact .unexpected
  | some t =>
    have hi : i < tokens.length := (List.getElem?_eq_some_iff.1 htoken).1
    dsimp only [Option.map_some]
    split
    · refine .advance hi ((hg.unary (i + 1)).bind fun j operand hj hoperand => ?_)
      exact (Answers.requireAssignable hoperand.2).andThen fun k _ hk => .node (by omega)
    split
    · exact .advance hi ((hg.unary (i + 1)).andThen fun j operand hj => .node (by omega))
    · exact updated_answers hg i

omit hg in
/-- If there is an operator to go on with, there is a token. -/
theorem binaryOperator?_answers {allowIn : Bool} {loosest : Nat} :
    Answers tokens (fun j operator => operator.isSome = true → j < tokens.length)
      (binaryOperator? allowIn loosest) i := by
  unfold binaryOperator?
  refine .peekKind? ?_
  split
  · exact .pure nofun
  · next operator hoperator =>
    split
    · exact .pure nofun
    split
    · exact .pure nofun
    · exact .pure fun _ => lt_of_bind_kind hoperator

omit hg in
/-- An expression with a binary operator behind it starts where its left operand does. -/
theorem binaryStep_answers {right : BinaryOperator → Parser Node} {allowIn : Bool} {loosest : Nat}
    {left : Node} (hright : ∀ operator j, Errs tokens (right operator) j) (hij : i < j) :
    Answers tokens (fun k next => ∀ m ∈ next, Begun tokens i k m)
      (binaryStep right allowIn loosest (Cursor.atIndex tokens i).here left) j := by
  unfold binaryStep
  refine binaryOperator?_answers.bind fun k operator hjk hoperator => ?_
  cases operator with
  | none => exact .pure nofun
  | some operator =>
    refine .advance (hoperator rfl) ((hright operator (k + 1)).andThen fun l _ hl => ?_)
    exact link_answers (.node (by omega))

/-- A row of operands starts with the first of them. The induction is on the bound on how deep
operators nest. -/
theorem binary_answers (allowIn : Bool) (levels loosest : Nat) (i : Nat) :
    Answers tokens (Begun tokens i) (binary g allowIn levels loosest) i := by
  induction levels generalizing loosest i with
  | zero => exact unary_answers hg i
  | succ levels ih =>
    unfold binary
    refine .here ((unary_answers hg i).bind fun j head _ hhead => ?_)
    exact .chain (fun k n hn => binaryStep_answers
      (fun operator l => (ih operator.precedence l).errs) hn.1) hhead

/-- A conditional expression starts with its test. -/
theorem conditional_answers (allowIn : Bool) (i : Nat) :
    Answers tokens (Begun tokens i) (conditional g allowIn) i := by
  unfold conditional
  refine .here ((binary_answers hg allowIn _ _ i).bind fun j test _ htest => ?_)
  refine .accept (fun _ => ?_) (.pure htest)
  refine (hg.assignment true (j + 1)).andThen fun k _ hk => ?_
  refine Answers.expect.andThen fun l _ hl => ?_
  have hij := htest.1
  exact (hg.assignment allowIn l).andThen fun m _ hm => .node (by omega)

/-- A target into which nothing can be stored is noted where it starts. -/
theorem assignment_answers (allowIn : Bool) (i : Nat) :
    Answers tokens (Begun tokens i) (assignment g allowIn) i := by
  unfold assignment
  refine .here ((conditional_answers hg allowIn i).bind fun j target _ htarget => .peekKind? ?_)
  split
  · exact .pure htarget
  · next operator hoperator =>
    have hj : j < tokens.length := lt_of_bind_kind hoperator
    have hij := htarget.1
    refine (Answers.requireAssignable htarget.2).bind fun k _ _ hk => .advance (hk ▸ hj) ?_
    exact (hg.assignment allowIn (k + 1)).andThen fun l _ hl => .node (by omega)

/-! ## Statements -/

/-- A declaration needs its keyword and its name, and then has the violations of a function. -/
theorem functionDeclaration_errs (i : Nat) : Errs tokens (functionDeclaration g) i := by
  unfold functionDeclaration
  refine .here (Answers.expect.bind fun j _ _ hij => ?_)
  exact Answers.name.andThen fun k _ hjk => (functionOf_answers hg (by omega)).errs

/-- The next token decides whose violations they are. -/
theorem sourceElement_errs (i : Nat) : Errs tokens (sourceElement g) i := by
  unfold sourceElement
  exact .check (fun _ => functionDeclaration_errs hg i) (hg.statement i)

/-- If the tokens end inside a block, the violation tells so. -/
theorem blockMember_errs (i : Nat) : Errs tokens (blockMember g) i := by
  unfold blockMember
  refine .check (fun _ => .pure trivial) (.ask rfl .unexpected ?_)
  exact (sourceElement_errs hg i).andThen fun _ _ _ => .pure trivial

/-- The violations of a block are those of its members and those of its braces. -/
theorem block_errs (i : Nat) : Errs tokens (block g) i := by
  unfold block
  refine .here (Answers.expect.andThen fun j _ _ => ?_)
  refine (Answers.collect (blockMember_errs hg)).andThen fun j _ _ => ?_
  exact Answers.expect.andThen fun _ _ _ => .finish

/-- The violations of the expression, or a missing `;` behind it. -/
theorem expressionStatement_errs (i : Nat) : Errs tokens (expressionStatement g) i := by
  unfold expressionStatement
  refine .here ((expression_answers hg true i).andThen fun j _ _ => ?_)
  exact (hg.ending j).andThen fun _ _ _ => .finish

/-- The violations of the name and of the value behind `=`. -/
theorem definition_errs (allowIn : Bool) (i : Nat) : Errs tokens (definition g allowIn) i := by
  unfold definition
  refine .here (Answers.name.andThen fun j _ _ => ?_)
  refine (Answers.after? fun _ => hg.assignment allowIn (j + 1)).andThen fun _ _ _ => ?_
  exact .finish

/-- Where no keyword of a declaration stands, its token is noted. -/
theorem declarations_errs (allowIn : Bool) (i : Nat) : Errs tokens (declarations g allowIn) i := by
  unfold declarations
  refine .here (.peekKind? ?_)
  split
  · exact .unexpected
  · next declaration hdeclaration =>
    refine .advance (lt_of_bind_kind hdeclaration) ?_
    exact (Answers.separated (definition_errs hg allowIn)).andThen fun _ _ _ => .finish

/-- The violations of the definitions, or a missing `;` behind them. -/
theorem variableStatement_errs (i : Nat) : Errs tokens (variableStatement g) i := by
  unfold variableStatement
  refine .here ((declarations_errs hg true i).andThen fun j _ _ => ?_)
  exact (hg.ending j).andThen fun _ _ _ => .finish

/-- The violations of the condition and of both branches. -/
theorem ifStatement_errs (hi : i < tokens.length) : Errs tokens (ifStatement g) i := by
  unfold ifStatement
  refine .here (.advance hi ((parenthesized_answers hg (i + 1)).andThen fun j _ _ => ?_))
  refine (hg.statement j).andThen fun k _ _ => ?_
  exact (Answers.after? fun _ => hg.statement (k + 1)).andThen fun _ _ _ => .finish

/-- The violations of the condition and of the statement below it. -/
theorem guarded_errs {form : Form} (hi : i < tokens.length) : Errs tokens (guarded g form) i := by
  unfold guarded
  refine .here (.advance hi ((parenthesized_answers hg (i + 1)).andThen fun j _ _ => ?_))
  exact (hg.statement j).andThen fun _ _ _ => .finish

/-- The `;` at the end may be missing, so only what stands before it is noted. -/
theorem doWhileStatement_errs (hi : i < tokens.length) : Errs tokens (doWhileStatement g) i := by
  unfold doWhileStatement
  refine .here (.advance hi ((hg.statement (i + 1)).andThen fun j _ _ => ?_))
  refine Answers.expect.andThen fun j _ _ => ?_
  refine (parenthesized_answers hg j).andThen fun j _ _ => ?_
  have hskip : Errs tokens (accept (.punctuator .semicolon)) j :=
    .check (fun hj => .advance hj (.pure trivial)) (.pure trivial)
  exact hskip.andThen fun _ _ _ => .finish

/-- The violations behind `in`, in the head and in the body of the loop. -/
theorem forInRest_errs {start : Position} {left : Node} (i : Nat) :
    Errs tokens (forInRest g start left) i := by
  unfold forInRest
  refine (expression_answers hg true i).andThen fun j _ _ => ?_
  refine Answers.expect.andThen fun j _ _ => ?_
  exact (hg.statement j).andThen fun _ _ _ => .finish

/-- A clause may be missing and then has no violations. -/
theorem forClause_errs {closer : TokenKind} (i : Nat) : Errs tokens (forClause g closer) i := by
  unfold forClause
  exact .check (fun _ => Answers.emptyExpression.errs) (expression_answers hg true i).errs

/-- The `;` in the head of a loop are expected as tokens. -/
theorem forRest_errs {start : Position} {init : Node} (i : Nat) :
    Errs tokens (forRest g start init) i := by
  unfold forRest
  refine Answers.expect.andThen fun j _ _ => ?_
  refine (forClause_errs hg j).andThen fun j _ _ => ?_
  refine Answers.expect.andThen fun j _ _ => ?_
  refine (forClause_errs hg j).andThen fun j _ _ => ?_
  refine Answers.expect.andThen fun j _ _ => ?_
  exact (hg.statement j).andThen fun _ _ _ => .finish

/-- What stands before `in` is noted where it starts, if nothing can be stored into it. -/
theorem forStatement_errs (hi : i < tokens.length) : Errs tokens (forStatement g) i := by
  unfold forStatement
  refine .here (.advance hi (Answers.expect.andThen fun j _ _ => ?_))
  refine .check (fun _ => ?_) (.peekKind? ?_)
  · exact Answers.emptyExpression.andThen fun k _ _ => forRest_errs hg k
  split
  · refine (declarations_errs hg false j).andThen fun k _ _ => ?_
    exact .accept (fun _ => forInRest_errs hg (k + 1)) (forRest_errs hg k)
  · refine (expression_answers hg false j).bind fun k init _ hinit => ?_
    refine .check (fun hk => ?_) (forRest_errs hg k)
    refine (Answers.requireAssignable hinit.2).bind fun l _ _ hl => ?_
    exact .advance (hl ▸ hk) (forInRest_errs hg (l + 1))

/-- A label on the next line is none, so the statement ends before it. -/
theorem jump_errs {form : Option String → Form} (hi : i < tokens.length) :
    Errs tokens (jump g form) i := by
  unfold jump label?
  have hlabel : Errs tokens (newlineBefore >>= fun b => if b = true then pure none else name?)
      (i + 1) := .ask rfl (.pure trivial) Answers.name?.errs
  refine .here (.advance hi (hlabel.andThen fun j _ _ => ?_))
  exact (hg.ending j).andThen fun _ _ _ => .finish

/-- The violations of the value, if there is one. -/
theorem returnValue?_errs (i : Nat) : Errs tokens (returnValue? g) i := by
  unfold returnValue?
  refine .check (fun _ => .pure trivial) (.ask (impliedTerminator_bind _) (.pure trivial) ?_)
  exact (expression_answers hg true i).andThen fun _ _ _ => .pure trivial

/-- The violations of the value, or a missing `;` behind it. -/
theorem returnStatement_errs (hi : i < tokens.length) : Errs tokens (returnStatement g) i := by
  unfold returnStatement
  refine .here (.advance hi ((returnValue?_errs hg (i + 1)).andThen fun j _ _ => ?_))
  exact (hg.ending j).andThen fun _ _ _ => .finish

/-- The violations of the expression, or a missing `;` behind it. -/
theorem throwStatement_errs (hi : i < tokens.length) : Errs tokens (throwStatement g) i := by
  unfold throwStatement
  refine .here (.advance hi ((expression_answers hg true (i + 1)).andThen fun j _ _ => ?_))
  exact (hg.ending j).andThen fun _ _ _ => .finish

/-- A missing `;` behind the keyword. -/
theorem debuggerStatement_errs (hi : i < tokens.length) : Errs tokens (debuggerStatement g) i := by
  unfold debuggerStatement
  exact .here (.advance hi ((hg.ending (i + 1)).andThen fun _ _ _ => .finish))

/-- What is neither a case nor `default` is noted at its token. -/
theorem caseTest?_errs (i : Nat) : Errs tokens (caseTest? g) i := by
  unfold caseTest?
  refine .accept (fun _ => ?_) .defaultLabel
  refine (expression_answers hg true (i + 1)).andThen fun j _ _ => ?_
  exact Answers.expect.andThen fun _ _ _ => .pure trivial

/-- A member of a case has the violations of a statement. -/
theorem caseMember_errs (i : Nat) : Errs tokens (caseMember g) i := by
  unfold caseMember
  refine .peekKind? ?_
  split
  case h_5 => exact (sourceElement_errs hg i).andThen fun _ _ _ => .pure trivial
  all_goals exact .pure trivial

/-- The violations of the test and of the members of a case. -/
theorem switchCase_errs (i : Nat) : Errs tokens (switchCase g) i := by
  unfold switchCase
  refine .accept (fun _ => .pure trivial) (.here ((caseTest?_errs hg i).andThen fun j _ _ => ?_))
  refine (Answers.collect (caseMember_errs hg)).andThen fun j _ _ => ?_
  exact Answers.finish.andThen fun _ _ _ => .pure trivial

/-- The violations of the head and of the cases. -/
theorem switchStatement_errs (hi : i < tokens.length) : Errs tokens (switchStatement g) i := by
  unfold switchStatement
  refine .here (.advance hi ((parenthesized_answers hg (i + 1)).andThen fun j _ _ => ?_))
  refine Answers.expect.andThen fun j _ _ => ?_
  exact (Answers.collect (switchCase_errs hg)).andThen fun _ _ _ => .finish

/-- The violations of the handler, if there is one. -/
theorem handler?_errs (i : Nat) : Errs tokens (handler? g) i := by
  unfold handler?
  refine .here (.accept (fun _ => ?_) (.pure trivial))
  refine Answers.expect.andThen fun j _ _ => ?_
  refine Answers.name.andThen fun j _ _ => ?_
  refine Answers.expect.andThen fun j _ _ => ?_
  refine (hg.block j).andThen fun j _ _ => ?_
  exact Answers.finish.andThen fun _ _ _ => .pure trivial

/-- A `try` without handler and finalizer is noted where it starts, which is its first token. -/
theorem tryStatement_errs (hi : i < tokens.length) : Errs tokens (tryStatement g) i := by
  unfold tryStatement
  refine .here (.advance hi ((hg.block (i + 1)).andThen fun j _ hj => ?_))
  refine (handler?_errs hg j).andThen fun k _ hk => ?_
  refine (Answers.after? fun _ => hg.block (k + 1)).andThen fun l _ hl => ?_
  split
  · have hplace : SyntaxError.InPlace tokens l
        (.missingCatchOrFinally (Cursor.atIndex tokens i).here) :=
      startsBefore_here hi (by omega)
    exact .throw hplace
  · exact .finish

omit hg in
/-- A `;` has no violations. -/
theorem emptyStatement_errs (hi : i < tokens.length) : Errs tokens emptyStatement i := by
  unfold emptyStatement
  exact .here (.advance hi .finish)

/-- The next token decides whose violations they are, one case for each kind of statement. -/
theorem statement_errs (i : Nat) : Errs tokens (statement g) i := by
  unfold statement
  refine .peekKind? ?_
  cases htoken : tokens[i]? with
  | none => exact .unexpected
  | some t =>
    have hi : i < tokens.length := (List.getElem?_eq_some_iff.1 htoken).1
    dsimp only [Option.map_some]
    split
    · exact .unexpected
    · exact hg.block i
    · exact emptyStatement_errs hi
    · exact variableStatement_errs hg i
    · exact variableStatement_errs hg i
    · exact variableStatement_errs hg i
    · exact ifStatement_errs hg hi
    · exact guarded_errs hg hi
    · exact doWhileStatement_errs hg hi
    · exact forStatement_errs hg hi
    · exact jump_errs hg hi
    · exact jump_errs hg hi
    · exact returnStatement_errs hg hi
    · exact guarded_errs hg hi
    · exact switchStatement_errs hg hi
    · exact throwStatement_errs hg hi
    · exact tryStatement_errs hg hi
    · exact debuggerStatement_errs hg hi
    · exact functionDeclaration_errs hg i
    · exact expressionStatement_errs hg i

/-! ## Programs -/

/-- The violations of a program are those of its statements. -/
theorem programOf_errs (i : Nat) : Errs tokens (programOf g) i := by
  have hmember (j : Nat) : Errs tokens (programMember g) j := by
    unfold programMember
    refine .ask rfl (.pure trivial) ?_
    exact (sourceElement_errs hg j).andThen fun _ _ _ => .pure trivial
  have hstart : Errs tokens programStart i := fun hi => ⟨i, Nat.le_refl i, hi, rfl, trivial⟩
  unfold programOf
  refine hstart.andThen fun j _ _ => ?_
  exact (Answers.collect hmember).andThen fun _ _ _ => .finish

end Productions

/-- The violations of the grammar are in place at every nesting level. -/
theorem nested_answers (hne : tokens ≠ []) (levels : Nat) :
    AnswersNested tokens (nested levels) := by
  induction levels with
  | zero =>
    exact
      { ending := fun _ => .terminator
        statement := fun _ => .tooDeep hne
        block := fun _ => .tooDeep hne
        assignment := fun _ _ => .tooDeep hne
        unary := fun _ => .tooDeep hne
        construction := fun _ => .tooDeep hne }
  | succ levels ih =>
    exact
      { ending := fun _ => .terminator
        statement := statement_errs ih
        block := block_errs ih
        assignment := assignment_answers ih
        unary := unary_answers ih
        construction := construction_answers ih }

end Grammar

/-! ## Calls -/

/-- The violation of a call is in place. -/
theorem Call.inPlace (call : Call) {tokens : List Token} {e : SyntaxError} {c : Cursor}
    (h : call.parser (.atIndex tokens 0) = .error e c) :
    ∃ k ≤ tokens.length, c = .atIndex tokens k ∧ e.InPlace tokens k := by
  by_cases hne : tokens = []
  · subst hne
    cases call with
    | program =>
      have hprogram := program_atEnd (c := .atIndex [] 0) rfl
      cases hprogram.symm.trans h
    | expression allowIn =>
      have hexpression := topExpression_atEnd (c := .atIndex [] 0) allowIn rfl
      cases hexpression.symm.trans h
      exact ⟨0, Nat.le_refl 0, rfl, rfl⟩
  · have hg := nested_answers hne maxNesting
    have hcall : Errs tokens call.parser 0 := by
      cases call with
      | program => exact programOf_errs hg 0
      | expression allowIn => exact (expression_answers hg allowIn 0).errs
    have hrun := hcall (Nat.zero_le _)
    rwa [h] at hrun

/-- The cursors at two indices differ, since more tokens are left at the first. -/
theorem Cursor.atIndex_inj {tokens : List Token} {i j : Nat} (hi : i ≤ tokens.length)
    (hj : j ≤ tokens.length) (h : atIndex tokens i = atIndex tokens j) : i = j := by
  have hlength := congrArg (fun c => c.rest.length) h
  simp only [rest_atIndex, List.length_drop] at hlength
  omega

/-- The first violation is final and in place. A call of a new parser stops at an index `k` of the
tokens that take part in the grammar. It gives the same and stops there for all tokens that start
with the same `k + 2` tokens. If it fails, then the violation points to the token at `k`, to one
before it, or to the end of the tokens. -/
theorem first_violation_final (call : Call) (tokens : List Token) :
    ∃ k ≤ (significant tokens).length,
      (call.parser.run (.ofTokens tokens)).2 = .atIndex (significant tokens) k ∧
      (∀ others, (significant others).take (k + 2) = (significant tokens).take (k + 2) →
        k ≤ (significant others).length ∧
        call.parser.run (.ofTokens others) =
          ((call.parser.run (.ofTokens tokens)).1, .atIndex (significant others) k)) ∧
      ∀ e, (call.parser.run (.ofTokens tokens)).1 = .error e →
        e.InPlace (significant tokens) k := by
  obtain ⟨k, hk, hstop, hagain⟩ := call.run_of_take (significant tokens)
  refine ⟨k, hk, hstop, fun others => hagain (significant others), fun e he => ?_⟩
  rw [ofTokens_eq, Parser.run] at he
  rw [Parser.run] at hstop
  cases hrun : call.parser (.atIndex (significant tokens) 0) with
  | ok n c =>
    rw [hrun] at he
    cases he
  | error violation c =>
    rw [hrun] at he hstop
    obtain ⟨j, hj, hc, hplace⟩ := call.inPlace hrun
    cases he
    obtain rfl : k = j := Cursor.atIndex_inj hk hj (hstop.symm.trans hc)
    exact hplace

/-- `default` without its colon is seen together with the token behind it. -/
theorem first_violation_final_default :
    let tokens := tokenize "switch (x) \x7b default y \x7d"
    let others := tokenize "switch (x) \x7b default y ]"
    (significant others).take 7 = (significant tokens).take 7 ∧
      ∃ e, (Call.program.parser.run (.ofTokens tokens)).1 = .error e ∧
        e.InPlace (significant tokens) 5 ∧
        (Call.program.parser.run (.ofTokens others)).1 = .error e := by
  intro tokens others
  have htake : (significant others).take 7 = (significant tokens).take 7 := by decide +kernel
  have hfails : (Call.program.parser.run (.ofTokens tokens)).1.isOk = false := by decide +kernel
  have hleft : (Call.program.parser.run (.ofTokens tokens)).2.rest.length = 3 := by decide +kernel
  have hlength : (significant tokens).length = 8 := by decide +kernel
  obtain ⟨k, hk, hstop, hagain, hplace⟩ := first_violation_final .program tokens
  obtain rfl : k = 5 := by
    rw [hstop, Cursor.rest_atIndex, List.length_drop] at hleft
    omega
  cases hrun : (Call.program.parser.run (.ofTokens tokens)).1 with
  | ok n =>
    rw [hrun] at hfails
    cases hfails
  | error e =>
    refine ⟨htake, e, rfl, hplace e hrun, ?_⟩
    rw [(hagain others htake).2, hrun]

end ScriptLint
