import ScriptLint.Proofs.Grammar.Brackets
import ScriptLint.Proofs.Grammar.Progress

/-!
# Where `in` is no operator

In the first clause of a `for` the word `in` ends an expression. So there it must not be taken as an
operator, but where brackets or the marks of a choice keep it from the end of the clause it must.

Main statement: `in_excluded`. What is read without the operator `in` has the word only between
brackets, between the marks of a choice, and as a name behind a dot (`Paired.sheltered`). And if the
word does not come at all, it makes no difference whether it is an operator (`expression_alike`).
-/

namespace ScriptLint

/-! ## The word among the tokens of an expression -/

/-- `Enclosed colons Pair ts i` says that the token with the index `i` lies between two tokens that
are a pair, with brackets and choices complete between them. Colons that belong to no choice may lie
there too if `colons`. -/
def Enclosed (colons : Bool) (Pair : Token → Token → Prop) (ts : List Token) (i : Nat) : Prop :=
  ∃ before left inner right after, ts = before ++ left :: (inner ++ right :: after) ∧
    Pair left right ∧ Paired colons true inner ∧
    before.length < i ∧ i ≤ before.length + inner.length

/-- The token with the index `i` lies between brackets. -/
def InBrackets : List Token → Nat → Prop := Enclosed true Token.ClosedBy

/-- The token with the index `i` lies between the marks of a choice. -/
def InChoice : List Token → Nat → Prop := Enclosed false Token.Chooses

/-- The token with the index `i` directly follows a dot. -/
def BehindDot (ts : List Token) (i : Nat) : Prop :=
  ∃ j dot, i = j + 1 ∧ ts[j]? = some dot ∧ dot.kind = .punctuator .dot

/-- The token with the index `i` does not lie open. -/
def Sheltered (ts : List Token) (i : Nat) : Prop :=
  InBrackets ts i ∨ BehindDot ts i ∨ InChoice ts i

section Shelter

variable {ts inner : List Token} {i : Nat}

/-- A pair that encloses an index does so behind other tokens as well. -/
theorem Enclosed.behind {colons : Bool} {Pair : Token → Token → Prop}
    (h : Enclosed colons Pair ts i) (front : List Token) :
    Enclosed colons Pair (front ++ ts) (front.length + i) := by
  obtain ⟨before, left, inner, right, after, rfl, hpair, hinner, hleft, hright⟩ := h
  refine ⟨front ++ before, left, inner, right, after, (List.append_assoc ..).symm, hpair, hinner,
    ?_, ?_⟩
  · rw [List.length_append]
    omega
  · rw [List.length_append]
    omega

/-- A dot before an index stands there behind other tokens as well. -/
theorem BehindDot.behind (h : BehindDot ts i) (front : List Token) :
    BehindDot (front ++ ts) (front.length + i) := by
  obtain ⟨j, dot, rfl, hdot, hkind⟩ := h
  refine ⟨front.length + j, dot, rfl, ?_, hkind⟩
  rw [List.getElem?_append_right (Nat.le_add_right _ _), Nat.add_sub_cancel_left, hdot]

/-- Tokens in front do not change what a token lies between. -/
theorem Sheltered.behind (h : Sheltered ts i) (front : List Token) :
    Sheltered (front ++ ts) (front.length + i) :=
  h.imp (·.behind front) (·.imp (·.behind front) (·.behind front))

/-- A token between the first token and another one. -/
theorem Enclosed.first {colons : Bool} {Pair : Token → Token → Prop} {left right : Token}
    (hpair : Pair left right) (hinner : Paired colons true inner) (hi : i < inner.length) :
    Enclosed colons Pair (left :: (inner ++ right :: ts)) (i + 1) :=
  ⟨[], left, inner, right, ts, rfl, hpair, hinner, Nat.succ_pos i, by
    rw [List.length_nil]
    omega⟩

/-- The tokens of a pair and those between them, before others. -/
theorem getElem?_pair {left right t : Token}
    (h : (left :: (inner ++ right :: ts))[i]? = some t) :
    t = left ∨ t = right ∨ (∃ j, i = j + 1 ∧ j < inner.length) ∨
      ∃ j, i = (left :: (inner ++ [right])).length + j ∧ ts[j]? = some t := by
  cases i with
  | zero => exact .inl (Option.some_inj.1 h).symm
  | succ i =>
    rw [List.getElem?_cons_succ] at h
    by_cases hlt : i < inner.length
    · exact .inr (.inr (.inl ⟨i, rfl, hlt⟩))
    · rw [List.getElem?_append_right (Nat.not_lt.1 hlt)] at h
      cases hj : i - inner.length with
      | zero =>
        rw [hj] at h
        exact .inr (.inl (Option.some_inj.1 h).symm)
      | succ j =>
        rw [hj] at h
        refine .inr (.inr (.inr ⟨j, ?_, h⟩))
        rw [List.length_cons, List.length_append, List.length_singleton]
        omega

end Shelter

/-- A bracket is not the word `in`. -/
theorem Token.ClosedBy.kind_ne {left right : Token} (h : left.ClosedBy right) :
    left.kind ≠ .keyword .inKw ∧ right.kind ≠ .keyword .inKw := by
  obtain ⟨_, _, -, hleft, hright⟩ := h
  exact ⟨Token.kind_ne_in hleft, Token.kind_ne_in hright⟩

/-- Neither is a question mark or a colon. -/
theorem Token.Chooses.kind_ne {hook colon : Token} (h : hook.Chooses colon) :
    hook.kind ≠ .keyword .inKw ∧ colon.kind ≠ .keyword .inKw :=
  ⟨Token.kind_ne_in h.1, Token.kind_ne_in h.2⟩

/-- The word `in` does not lie open among paired tokens where it must not. -/
theorem Paired.sheltered {colons ins : Bool} {ts : List Token} (h : Paired colons ins ts)
    (hins : ins = false) {i : Nat} {t : Token} (ht : ts[i]? = some t)
    (hkind : t.kind = .keyword .inKw) : Sheltered ts i := by
  induction h generalizing i with
  | nil => cases ht
  | @token _ _ u ts _ hin _ ih =>
    cases i with
    | zero =>
      cases ht
      rw [hin hkind] at hins
      cases hins
    | succ i =>
      rw [Nat.add_comm]
      exact (ih hins ht).behind [u]
  | @member _ _ dot name ts hdot _ _ ih =>
    rcases i with _ | _ | i
    · cases ht
      exact Token.kind_ne_in hdot hkind
    · exact .inr (.inl ⟨0, dot, rfl, rfl, hdot⟩)
    · rw [Nat.add_assoc, Nat.add_comm]
      exact (ih hins ht).behind [dot, name]
  | @colon _ u ts hcolon _ ih =>
    cases i with
    | zero =>
      cases ht
      exact Token.kind_ne_in hcolon hkind
    | succ i =>
      rw [Nat.add_comm]
      exact (ih hins ht).behind [u]
  | @group _ _ left right inner ts hclosed hinner _ _ ih =>
    obtain rfl | rfl | ⟨j, rfl, hj⟩ | ⟨j, rfl, hj⟩ := getElem?_pair ht
    · exact absurd hkind hclosed.kind_ne.1
    · exact absurd hkind hclosed.kind_ne.2
    · exact .inl (.first hclosed hinner hj)
    · have hbehind := (ih hins hj).behind (left :: (inner ++ [right]))
      rwa [List.cons_append, List.append_assoc] at hbehind
  | @choice _ _ hook colon inner ts hchooses hinner _ _ ih =>
    obtain rfl | rfl | ⟨j, rfl, hj⟩ | ⟨j, rfl, hj⟩ := getElem?_pair ht
    · exact absurd hkind hchooses.kind_ne.1
    · exact absurd hkind hchooses.kind_ne.2
    · exact .inr (.inr (.first hchooses hinner hj))
    · have hbehind := (ih hins hj).behind (hook :: (inner ++ [colon]))
      rwa [List.cons_append, List.append_assoc] at hbehind

/-! ## Scripts without the word -/

open ScriptLint.Parser

/-- The word `in` does not come. -/
def Cursor.LacksIn (c : Cursor) : Prop := ∀ t ∈ c.rest, t.kind ≠ .keyword .inKw

/-- A parser adds no tokens to those that come. -/
def Narrows {α : Type} (x : Parser α) : Prop := ∀ c a m, x c = .ok a m → m.rest ⊆ c.rest

/-- Two parsers do the same where `in` does not come. -/
def AlikeWithoutIn {α : Type} (x y : Parser α) : Prop := ∀ c : Cursor, c.LacksIn → x c = y c

section Parsers

variable {α β : Type}

/-- Every production of the grammar leaves only tokens ahead that were ahead before. -/
theorem Narrows.of_uniform {x : Parser α} {takes : Option Token → Bool} {free : Bool}
    {r : Option Token → α → α → Prop}
    (h : ∀ s, Uniform .alone s (takes s) free (r s) fun _ => x) : Narrows x := by
  intro c a m hx
  have honward := (h c.sight).onward rfl
  rw [hx] at honward
  obtain ⟨-, ts, htakes, -⟩ := honward
  rw [htakes.rest]
  exact List.subset_append_right ts m.rest

/-- What only looks around leaves all tokens. -/
theorem Narrows.of_stays {x : Parser α} (h : ∀ c a m, x c = .ok a m → c = m) : Narrows x :=
  fun c a m hx => h c a m hx ▸ List.Subset.refl c.rest

theorem Narrows.here : Narrows here := .of_stays fun _ _ _ h => (EStateM.Result.ok.inj h).2

theorem Narrows.peekKind? : Narrows peekKind? :=
  .of_stays fun _ _ _ h => (EStateM.Result.ok.inj h).2

theorem Narrows.check (kind : TokenKind) : Narrows (check kind) :=
  .of_stays fun _ _ _ h => (EStateM.Result.ok.inj h).2

theorem Narrows.requireAssignable (n : Node) : Narrows (requireAssignable n) :=
  .of_stays fun _ _ _ h => (requireAssignable_eq_ok.1 h).2

/-- A token that is taken is no longer ahead, and no other comes to be. -/
theorem Cursor.rest_advance_subset (c : Cursor) : c.advance.rest ⊆ c.rest := by
  obtain ⟨before, rest⟩ := c
  cases rest with
  | nil => exact List.Subset.refl []
  | cons t rest => exact List.subset_cons_self t rest

theorem Narrows.advance : Narrows advance := by
  intro c a m h
  cases h
  exact c.rest_advance_subset

theorem Narrows.expect {kind : TokenKind} {expected : String} : Narrows (expect kind expected) := by
  intro c a m h
  obtain ⟨-, rfl⟩ := expect_eq_ok.1 h
  exact c.rest_advance_subset

theorem Narrows.accept (kind : TokenKind) : Narrows (accept kind) := by
  intro c a m h
  rw [accept_eq] at h
  split at h
  · cases h
    exact c.rest_advance_subset
  · cases h
    exact List.Subset.refl c.rest

namespace AlikeWithoutIn

theorem refl (x : Parser α) : AlikeWithoutIn x x := fun _ _ => rfl

/-- Parsers that do the same before one that follows. -/
theorem andThen {x y : Parser α} (h : AlikeWithoutIn x y) (f : α → Parser β) :
    AlikeWithoutIn (x >>= f) (y >>= f) := by
  intro c hc
  show EStateM.bind x f c = EStateM.bind y f c
  unfold EStateM.bind
  rw [h c hc]

/-- The second parser runs on tokens that are left by the first, so the word is not among them
either. -/
theorem bind {x y : Parser α} {f g : α → Parser β} (h : AlikeWithoutIn x y) (hx : Narrows x)
    (hf : ∀ a, AlikeWithoutIn (f a) (g a)) : AlikeWithoutIn (x >>= f) (y >>= g) := by
  intro c hc
  have hcongr : (x >>= f) c = (x >>= g) c :=
    bind_congr_run fun a m hrun => hf a m fun t ht => hc t (hx c a m hrun ht)
  rw [hcongr]
  exact h.andThen g c hc

/-- Rounds that are alike make loops that are alike, by induction on the rounds that are left. -/
theorem collect {item item' : Parser (Option α)} (h : AlikeWithoutIn item item')
    (hitem : Narrows item) : AlikeWithoutIn (collect item) (collect item') := by
  have hwithin (budget : List Token) :
      AlikeWithoutIn (collectWithin item budget) (collectWithin item' budget) := by
    induction budget with
    | nil =>
      unfold collectWithin
      exact h.bind hitem fun a? => .refl _
    | cons t budget ih =>
      unfold collectWithin
      refine h.bind hitem fun a? => ?_
      cases a? with
      | none => exact .refl _
      | some a => exact ih.andThen _
  exact fun c hc => hwithin c.rest c hc

/-- Steps that are alike make chains that are alike, by induction on the rounds that are left. -/
theorem chain {step step' : α → Parser (Option α)} (h : ∀ a, AlikeWithoutIn (step a) (step' a))
    (hstep : ∀ a, Narrows (step a)) (a : α) : AlikeWithoutIn (chain step a) (chain step' a) := by
  have hwithin (budget : List Token) (a : α) :
      AlikeWithoutIn (chainWithin step a budget) (chainWithin step' a budget) := by
    induction budget generalizing a with
    | nil =>
      unfold chainWithin
      exact (h a).bind (hstep a) fun b? => .refl _
    | cons t budget ih =>
      unfold chainWithin
      refine (h a).bind (hstep a) fun b? => ?_
      cases b? with
      | none => exact .refl _
      | some b => exact ih b
  exact fun c hc => hwithin c.rest a c hc

/-- What stands behind a token is alike if it is alike on its own. -/
theorem after? {kind : TokenKind} {item item' : Parser α} (h : AlikeWithoutIn item item')
    (hitem : Narrows item) : AlikeWithoutIn (after? kind item) (after? kind item') := by
  refine (refl _).bind (.accept kind) fun found => ?_
  cases found with
  | true => exact h.bind hitem fun a => .refl _
  | false => exact .refl _

end AlikeWithoutIn

end Parsers

/-- Only the word spells the operator `in`. -/
theorem BinaryOperator.kind_of_isIn {kind : TokenKind} (h : ofKind? kind = some .isIn) :
    kind = .keyword .inKw := by
  cases kind with
  | keyword word =>
    revert h
    cases word <;> decide
  | punctuator mark => cases mark <;> cases h
  | _ => cases h

/-- Where the word is not ahead, it does not matter whether it would be allowed. -/
theorem Cursor.LacksIn.operator?_eq {c : Cursor} (h : c.LacksIn) :
    c.operator? false = c.operator? true := by
  rw [Cursor.operator?, Cursor.operator?]
  cases hoperator : c.kind?.bind BinaryOperator.ofKind? with
  | none => rfl
  | some operator =>
    obtain ⟨t, ht, hmeaning⟩ := Cursor.exists_meaning hoperator
    have hne : operator ≠ .isIn := by
      rintro rfl
      exact h t (List.mem_of_head? ht) (BinaryOperator.kind_of_isIn hmeaning)
    rw [Option.filter_some, Option.filter_some]
    simp [hne]

namespace Grammar

variable {levels : Nat}

/-- A round with a binary operator sees the same operator, and its right operand is alike. -/
theorem binaryStep_alike {right right' : BinaryOperator → Parser Node} {loosest : Nat}
    {start : Position} {left : Node}
    (h : ∀ operator, AlikeWithoutIn (right operator) (right' operator)) :
    AlikeWithoutIn (binaryStep right false loosest start left)
      (binaryStep right' true loosest start left) := by
  intro c hc
  rw [binaryStep, binaryOperator?_bind, binaryStep, binaryOperator?_bind, hc.operator?_eq]
  cases (c.operator? true).filter fun operator => loosest < operator.precedence with
  | none => rfl
  | some operator =>
    have hoperand : AlikeWithoutIn (advance >>= fun _ => right operator)
        (advance >>= fun _ => right' operator) :=
      (AlikeWithoutIn.refl advance).bind .advance fun _ => h operator
    have hboth := hoperand.andThen fun operand => do
      let both ← finish (.binaryExpression operator) start [left, operand]
      let result ← bounded both
      return some result
    rw [bind_assoc, bind_assoc] at hboth
    exact hboth c hc

/-- The operands of binary operators are alike, by induction on the bound on how deep they nest. -/
theorem binary_alike (bound loosest : Nat) :
    AlikeWithoutIn (binary (nested levels) false bound loosest)
      (binary (nested levels) true bound loosest) := by
  have hg := nested_alone levels
  induction bound generalizing loosest with
  | zero => exact .refl _
  | succ bound ih =>
    unfold binary
    refine (AlikeWithoutIn.refl _).bind .here fun start => ?_
    refine (AlikeWithoutIn.refl _).bind (.of_uniform (unary_uniform hg)) fun head => ?_
    refine .chain (fun left => binaryStep_alike fun operator => ih operator.precedence)
      (fun left => ?_) head
    exact .of_uniform (binaryStep_uniform (fun operator => binary_uniform hg false bound _)
      (fun _ _ _ => rfl) (.alone rfl))

section Assignments

variable (h : AlikeWithoutIn ((nested levels).assignment false) ((nested levels).assignment true))
include h

/-- Only the test and the part behind the colon are read with the flag. Between the question mark
and the colon the word is always allowed. -/
theorem conditional_alike :
    AlikeWithoutIn (conditional (nested levels) false) (conditional (nested levels) true) := by
  have hg := nested_alone levels
  unfold conditional
  refine (AlikeWithoutIn.refl _).bind .here fun start => ?_
  refine (binary_alike precedences 0).bind (.of_uniform (binary_uniform hg false _ _))
    fun test => ?_
  refine (AlikeWithoutIn.refl _).bind (.accept _) fun found => ?_
  cases found with
  | false => exact .refl _
  | true =>
    refine (AlikeWithoutIn.refl _).bind (.of_uniform (hg.assignment true)) fun consequent => ?_
    exact (AlikeWithoutIn.refl _).bind .expect fun _ => h.andThen _

/-- An assignment is alike if the one on its right side, a level deeper, is. -/
theorem assignment_alike :
    AlikeWithoutIn (assignment (nested levels) false) (assignment (nested levels) true) := by
  have hg := nested_alone levels
  unfold assignment
  refine (AlikeWithoutIn.refl _).bind .here fun start => ?_
  refine (conditional_alike h).bind (.of_uniform (conditional_uniform hg false)) fun target => ?_
  refine (AlikeWithoutIn.refl _).bind .peekKind? fun kind => ?_
  cases kind.bind AssignOperator.ofKind? with
  | none => exact .refl _
  | some operator =>
    refine (AlikeWithoutIn.refl _).bind (.requireAssignable target) fun _ => ?_
    exact (AlikeWithoutIn.refl _).bind .advance fun _ => h.andThen _

/-- An expression is alike if its parts, a level deeper, are. -/
theorem expression_alike :
    AlikeWithoutIn (expression (nested levels) false) (expression (nested levels) true) := by
  have hg := nested_alone levels
  have hnarrows := Narrows.of_uniform (hg.assignment false)
  unfold expression
  refine (AlikeWithoutIn.refl _).bind .here fun start => ?_
  refine h.bind hnarrows fun first => ?_
  refine (AlikeWithoutIn.refl _).bind (.check _) fun isComma => ?_
  cases isComma with
  | false => exact .refl _
  | true =>
    have hfollower := Narrows.of_uniform fun _ =>
      .after? (.punctuator .comma) nofun (hg.assignment false)
    exact (AlikeWithoutIn.collect (h.after? hnarrows) hfollower).andThen _

end Assignments

/-- On every level, an expression without commas is read alike. -/
theorem nested_assignment_alike (levels : Nat) :
    AlikeWithoutIn ((nested levels).assignment false) ((nested levels).assignment true) := by
  induction levels with
  | zero => exact .refl _
  | succ levels ih => exact assignment_alike ih

end Grammar

/-! ## Calls -/

/-- What is read where `in` is no operator has the word only between brackets, directly behind a dot
or between the marks of a choice. And where the word does not come, it makes no difference whether
it is an operator. -/
theorem in_excluded (c : Cursor) (hbare : c.Bare) :
    (∀ n c', Grammar.topExpression false c = .ok n c' →
      ∃ ts, c.Takes ts c' ∧ Paired false true ts ∧
        ∀ i t, ts[i]? = some t → t.kind = .keyword .inKw → ¬ InBrackets ts i →
          BehindDot ts i ∨ InChoice ts i) ∧
    ((∀ t ∈ c.rest, t.kind ≠ .keyword .inKw) →
      (Grammar.topExpression false).run c = (Grammar.topExpression true).run c) := by
  constructor
  · intro n c' h
    obtain ⟨ts, htakes, hts⟩ := (Grammar.topExpression_reads h).spells hbare
    have hpaired : Paired false false ts := hts
    refine ⟨ts, htakes, hpaired.mono id fun _ => rfl, fun i t ht hkind houtside => ?_⟩
    exact (hpaired.sheltered rfl ht hkind).resolve_left houtside
  · intro hlacks
    have halike := Grammar.expression_alike (Grammar.nested_assignment_alike Grammar.maxNesting)
    have hrun : Grammar.topExpression false c = Grammar.topExpression true c := halike c hlacks
    rw [Parser.run, Parser.run, hrun]

/-- The word as a name behind a dot, between the marks of a choice and between brackets, and a
choice without it. -/
theorem in_excluded_choice :
    (∃ n c', Grammar.topExpression false (.ofTokens (tokenize "a.in?b in c:[d in e]")) = .ok n c' ∧
      ∃ ts, (Cursor.ofTokens (tokenize "a.in?b in c:[d in e]")).Takes ts c' ∧
        ∀ i t, ts[i]? = some t → t.kind = .keyword .inKw → ¬ InBrackets ts i →
          BehindDot ts i ∨ InChoice ts i) ∧
    (Grammar.topExpression false).run (.ofTokens (tokenize "a?b:c")) =
      (Grammar.topExpression true).run (.ofTokens (tokenize "a?b:c")) := by
  have hbare (source : String) : (Cursor.ofTokens (tokenize source)).Bare :=
    fun t ht => Lexer.isBare_of_mem_tokenize (List.mem_filter.1 ht).1
  constructor
  · have hok : ((Grammar.topExpression false).run
        (.ofTokens (tokenize "a.in?b in c:[d in e]"))).1.isOk = true := by decide +kernel
    cases hrun : Grammar.topExpression false (.ofTokens (tokenize "a.in?b in c:[d in e]")) with
    | ok n c' =>
      obtain ⟨ts, htakes, -, hin⟩ := (in_excluded _ (hbare _)).1 n c' hrun
      exact ⟨n, c', rfl, ts, htakes, hin⟩
    | error e c' =>
      rw [Parser.run, hrun] at hok
      cases hok
  · exact (in_excluded _ (hbare _)).2 (by decide +kernel)

end ScriptLint
