import ScriptLint.Proofs.Grammar.Depth
import ScriptLint.Proofs.Grammar.StatementUniform

/-!
# Progress

A parser never goes back, and a statement or an expression takes at least one token. Both are read
off the description of the grammar by `Uniform`, which tells what takes a token (`Uniform.onward`).

It follows that the bounds with which the grammar is defined are never reached. A round of a loop
that goes on has taken a token, so the tokens ahead are enough rounds (`Collecting.of_consumes`,
`Chaining.of_consumes`). The right operand of an operator holds only tighter ones, so the number
of precedences bounds how deep operators nest (`binary_eq`).
-/

namespace ScriptLint

open ScriptLint.Parser

/-! ## Runs go on -/

/-- A production on its own. -/
def Setting.alone : Setting Unit := ⟨true, fun _ => terminator⟩

/-- A value on its own only has to be related to itself. -/
theorem Setting.Consistent.alone {α : Type} {r : α → α → Prop} {a : α} (h : r a a) :
    Setting.alone.Consistent r fun _ => a :=
  fun _ _ => ⟨h, fun _ => rfl⟩

/-- What a run from `c` comes to: it stops at `c` or behind it, and behind it if it takes and
succeeds. -/
def Onward {α : Type} (r : α → α → Prop) (takes : Bool) (c : Cursor) :
    EStateM.Result SyntaxError Cursor α → Prop
  | .ok a c' => r a a ∧ ∃ ts, c.Takes ts c' ∧ (takes = true → ts ≠ [])
  | .error _ c' => ∃ ts, c.Takes ts c'

namespace Onward

variable {α β : Type} {r : α → α → Prop} {r' : β → β → Prop} {takes : Bool} {c : Cursor}

/-- What gives a value where it stands. -/
theorem stay {a : α} (h : r a a) : Onward r false c (.ok a c) := ⟨h, [], .nil c, nofun⟩

/-- What fails where it stands. -/
theorem fail {e : SyntaxError} : Onward r takes c (.error e c) := ⟨[], .nil c⟩

/-- What gives a value behind the next token. -/
theorem step {t : Token} (ht : c.rest.head? = some t) {a : α} (h : r a a) :
    Onward r true c (.ok a c.advance) :=
  ⟨h, [t], .single ht, fun _ => List.cons_ne_nil t []⟩

theorem weaken {r' : α → α → Prop} {takes' : Bool} {result : EStateM.Result SyntaxError Cursor α}
    (h : Onward r takes c result) (htakes : takes' = true → takes = true)
    (hr : ∀ a b, r a b → r' a b) : Onward r' takes' c result := by
  cases result with
  | ok a c' =>
    obtain ⟨ha, ts, hts, hne⟩ := h
    exact ⟨hr a a ha, ts, hts, fun htakes' => hne (htakes htakes')⟩
  | error e c' => exact h

theorem untaken {result : EStateM.Result SyntaxError Cursor α} (h : Onward r takes c result) :
    Onward r false c result :=
  h.weaken nofun fun _ _ => id

/-- A run behind tokens that were taken. -/
theorem behind {c' : Cursor} {ts : List Token} {result : EStateM.Result SyntaxError Cursor α}
    (hts : c.Takes ts c') (hne : takes = true → ts ≠ []) (h : Onward r false c' result) :
    Onward r takes c result := by
  cases result with
  | ok a c'' =>
    obtain ⟨ha, us, hus, -⟩ := h
    exact ⟨ha, ts ++ us, hts.append hus, fun htakes => List.append_ne_nil_of_left_ne_nil
      (hne htakes) us⟩
  | error e c'' =>
    obtain ⟨us, hus⟩ := h
    exact ⟨ts ++ us, hts.append hus⟩

/-- Two parsers one after the other go on if each does, and take if the first takes. -/
theorem bind {x : Parser α} {f : α → Parser β} (h : Onward r takes c (x c))
    (hf : ∀ a c', r a a → Onward r' false c' (f a c')) : Onward r' takes c ((x >>= f) c) := by
  show Onward r' takes c (EStateM.bind x f c)
  unfold EStateM.bind
  cases hx : x c with
  | ok a c' =>
    rw [hx] at h
    obtain ⟨ha, ts, hts, hne⟩ := h
    exact behind hts hne (hf a c' ha)
  | error e c' =>
    rw [hx] at h
    exact h

/-- The end of a statement takes a `;` or nothing. -/
theorem terminator : Onward Eq false c (Parser.terminator c) := by
  rw [Parser.terminator, accept_bind]
  by_cases h : c.kind? = some (.punctuator .semicolon)
  · obtain ⟨t, ht, -⟩ := Cursor.exists_token h
    rw [if_pos h]
    exact (step ht rfl).untaken
  · rw [if_neg h, if_neg Bool.false_ne_true, impliedTerminator_bind]
    cases c.impliesTerminator with
    | true => exact stay rfl
    | false => exact fail

/-- A loop takes a token if its first round does. -/
theorem collectWithin {item : Parser (Option α)} {takes : Option Token → Bool}
    (hitem : ∀ c, Onward (Round r (takes c.sight)) (takes c.sight) c (item c))
    (budget : List Token) (c : Cursor) :
    Onward (List.Forall₂ r) (takes c.sight) c (collectWithin item budget c) := by
  induction budget generalizing c with
  | nil =>
    rw [Parser.collectWithin]
    refine (hitem c).bind fun a? m ha => ?_
    cases a? with
    | none => exact stay .nil
    | some a => exact fail
  | cons t budget ih =>
    rw [Parser.collectWithin]
    refine (hitem c).bind fun a? m ha => ?_
    cases a? with
    | none => exact stay .nil
    | some a => exact (ih m).untaken.bind fun as _ has => stay (.cons ha.rel has)

/-- A chain goes on if its steps do, by induction on the rounds that are left. -/
theorem chainWithin {step : α → Parser (Option α)} {takes : Option Token → Bool}
    (hstep : ∀ a c, r a a → Onward (Round r (takes c.sight)) (takes c.sight) c (step a c))
    (budget : List Token) {a : α} (ha : r a a) (c : Cursor) :
    Onward r false c (chainWithin step a budget c) := by
  induction budget generalizing a c with
  | nil =>
    rw [Parser.chainWithin]
    refine (hstep a c ha).untaken.bind fun b? m hb => ?_
    cases b? with
    | none => exact stay ha
    | some b => exact fail
  | cons t budget ih =>
    rw [Parser.chainWithin]
    refine (hstep a c ha).untaken.bind fun b? m hb => ?_
    cases b? with
    | none => exact stay ha
    | some b => exact ih hb.rel m

end Onward

theorem Cursor.exists_head {c : Cursor} {t : Token} (h : c.sight = some t) :
    ∃ u, c.rest.head? = some u := by
  obtain ⟨u, hu, -⟩ := Option.map_eq_some_iff.1 h
  exact ⟨u, hu⟩

/-- A run of a production goes on. -/
theorem Uniform.onward {α : Type} {s : Option Token} {takes free : Bool} {r : α → α → Prop}
    {x : Unit → Parser α} (h : Uniform .alone s takes free r x) :
    ∀ {c : Cursor}, c.sight = s → Onward r takes c (x () c) := by
  induction h with
  | congr hxy _ ih =>
    intro c hs
    rw [hxy () c (.inl hs)]
    exact ih hs
  | weaken _ htakes _ hr ih =>
    intro c hs
    exact (ih hs).weaken htakes hr
  | pure ha =>
    intro c hs
    exact .stay (ha () ()).1
  | bind _ _ _ ih ihf =>
    intro c hs
    exact (ih hs).bind fun a c' ha => (ihf (fun _ => a) (.alone ha) _ rfl).untaken
  | unexpected =>
    intro c hs
    exact .fail
  | throw _ =>
    intro c hs
    exact .fail
  | here _ _ ih =>
    intro c hs
    exact ih (fun _ => c.here) (fun _ _ _ => rfl) hs
  | finish hform hstart hchildren =>
    intro c hs
    exact .stay (.build rfl (hchildren () ()).1)
  | advance =>
    intro c hs
    obtain ⟨u, hu⟩ := Cursor.exists_head hs
    exact .step hu rfl
  | terminated _ _ ih ihf =>
    intro c hs
    refine (ih hs).bind fun a c' ha => ?_
    exact Onward.terminator.bind fun _ c'' _ => (ihf (fun _ => a) (.alone ha) _ rfl)
  | beforeUpdate _ ha _ _ ih =>
    intro c hs
    beta_reduce
    rw [newlineBefore_bind]
    cases c.newlineBefore with
    | true => exact .stay (ha () ()).1
    | false => exact (ih hs).untaken
  | behindKeyword _ ha _ _ ih =>
    intro c hs
    obtain ⟨u, hu⟩ := Cursor.exists_head hs
    beta_reduce
    rw [advance_bind, newlineBefore_bind]
    cases c.advance.newlineBefore with
    | true => exact .step hu (ha () ()).1
    | false => exact .behind (.single hu) (fun _ => List.cons_ne_nil u []) (ih _ rfl)
  | defaultLabel hdefault ha =>
    intro c hs
    beta_reduce
    rw [Grammar.defaultLabel_bind]
    split
    · next hkinds =>
      obtain ⟨u, hu, -⟩ := Cursor.exists_token hkinds.1
      obtain ⟨v, hv, -⟩ := Cursor.exists_token hkinds.2
      exact .behind (.single hu) (fun _ => List.cons_ne_nil u [])
        (Onward.step hv (ha () ()).1).untaken
    · exact .fail
  | collect _ ih =>
    intro c hs
    subst hs
    exact .collectWithin (fun c => ih c.sight rfl) c.rest c
  | chain _ ha ih =>
    intro c hs
    exact .chainWithin (fun a c hr => ih (fun _ => a) (.alone hr) c.sight rfl) c.rest (ha () ()).1 c

/-! ## Loops without a budget -/

namespace Parser

variable {α β : Type} {c : Cursor}

/-- Parsers that go on in the same way from where a first one stops. -/
theorem bind_congr_run {x : Parser α} {f f' : α → Parser β}
    (h : ∀ a m, x c = .ok a m → f a m = f' a m) : (x >>= f) c = (x >>= f') c := by
  show EStateM.bind x f c = EStateM.bind x f' c
  unfold EStateM.bind
  cases hx : x c with
  | ok a m => exact h a m hx
  | error e m => rfl

/-- A round of a loop that goes on has taken a token. -/
def Consumes (item : Parser (Option α)) : Prop :=
  ∀ c a m, item c = .ok (some a) m → m.rest.length < c.rest.length

namespace Consumes

/-- Budgets that cover the tokens ahead are all the same. -/
theorem collectWithin_eq {item : Parser (Option α)} (h : Consumes item)
    {budget budget' : List Token} (hbudget : c.rest.length ≤ budget.length)
    (hbudget' : c.rest.length ≤ budget'.length) :
    collectWithin item budget c = collectWithin item budget' c := by
  induction budget generalizing c budget' with
  | nil =>
    rw [collectWithin.eq_def, collectWithin.eq_def item budget']
    refine bind_congr_run fun a? m hitem => ?_
    cases a? with
    | none => rfl
    | some a =>
      have hlt := Nat.lt_of_lt_of_le (h c a m hitem) hbudget
      exact absurd hlt (Nat.not_lt_zero _)
  | cons t budget ih =>
    rw [collectWithin.eq_def, collectWithin.eq_def item budget']
    refine bind_congr_run fun a? m hitem => ?_
    cases a? with
    | none => rfl
    | some a =>
      have hlt := h c a m hitem
      cases budget' with
      | nil => exact absurd (Nat.lt_of_lt_of_le hlt hbudget') (Nat.not_lt_zero _)
      | cons u budget' =>
        have heq : collectWithin item budget m = collectWithin item budget' m :=
          ih (Nat.le_of_lt_succ (Nat.lt_of_lt_of_le hlt hbudget))
            (Nat.le_of_lt_succ (Nat.lt_of_lt_of_le hlt hbudget'))
        show EStateM.bind _ _ m = EStateM.bind _ _ m
        unfold EStateM.bind
        rw [heq]

end Consumes

/-- A round of a chain that goes on has taken a token, and what it gives has the property `r` if
what it extends has it. -/
def Extends (r : α → Prop) (step : α → Parser (Option α)) : Prop :=
  ∀ a, r a → ∀ c b m, step a c = .ok (some b) m → r b ∧ m.rest.length < c.rest.length

namespace Extends

variable {r : α → Prop} {step : α → Parser (Option α)} {a : α}

/-- Budgets that cover the tokens ahead are all the same. -/
theorem chainWithin_eq (h : Extends r step) (ha : r a) {budget budget' : List Token}
    (hbudget : c.rest.length ≤ budget.length) (hbudget' : c.rest.length ≤ budget'.length) :
    chainWithin step a budget c = chainWithin step a budget' c := by
  induction budget generalizing a c budget' with
  | nil =>
    rw [chainWithin.eq_def, chainWithin.eq_def step a budget']
    refine bind_congr_run fun b? m hstep => ?_
    cases b? with
    | none => rfl
    | some b =>
      have hlt := Nat.lt_of_lt_of_le (h a ha c b m hstep).2 hbudget
      exact absurd hlt (Nat.not_lt_zero _)
  | cons t budget ih =>
    rw [chainWithin.eq_def, chainWithin.eq_def step a budget']
    refine bind_congr_run fun b? m hstep => ?_
    cases b? with
    | none => rfl
    | some b =>
      obtain ⟨hb, hlt⟩ := h a ha c b m hstep
      cases budget' with
      | nil => exact absurd (Nat.lt_of_lt_of_le hlt hbudget') (Nat.not_lt_zero _)
      | cons u budget' =>
        exact ih hb (Nat.le_of_lt_succ (Nat.lt_of_lt_of_le hlt hbudget))
          (Nat.le_of_lt_succ (Nat.lt_of_lt_of_le hlt hbudget'))

/-- A chain does what it would do without a budget. -/
theorem chain_eq (h : Extends r step) (ha : r a) :
    chain step a = (do
      match ← step a with
      | none => return a
      | some b => chain step b) := by
  funext c
  show chainWithin step a c.rest c = _
  have hmore : c.rest.length ≤ (Token.semicolon .origin :: c.rest).length := Nat.le_succ _
  rw [h.chainWithin_eq ha (Nat.le_refl _) hmore, chainWithin]
  refine bind_congr_run fun b? m hstep => ?_
  cases b? with
  | none => rfl
  | some b =>
    obtain ⟨hb, hlt⟩ := h a ha c b m hstep
    exact h.chainWithin_eq hb (Nat.le_of_lt hlt) (Nat.le_refl _)

end Extends

/-- A loop over `item` never uses up its budget: a round that goes on has taken a token, the loop
does what it would do without a budget, and a larger budget makes no difference. -/
structure Collecting (item : Parser (Option α)) : Prop where
  consumes : Consumes item
  unroll : collect item = do
    match ← item with
    | none => return []
    | some a =>
      let others ← collect item
      return a :: others
  enough {budget : List Token} {c : Cursor} : c.rest.length ≤ budget.length →
    collectWithin item budget c = collect item c

/-- The same for a loop that extends a result. -/
structure Chaining (step : α → Parser (Option α)) : Prop where
  consumes (a : α) : Consumes (step a)
  unroll (a : α) : chain step a = do
    match ← step a with
    | none => return a
    | some b => chain step b
  enough {a : α} {budget : List Token} {c : Cursor} : c.rest.length ≤ budget.length →
    chainWithin step a budget c = chain step a c

/-- Rounds that take a token cannot be more than the tokens ahead. -/
theorem Collecting.of_consumes {item : Parser (Option α)} (h : Consumes item) :
    Collecting item where
  consumes := h
  enough hbudget := h.collectWithin_eq hbudget (Nat.le_refl _)
  unroll := by
    funext c
    show collectWithin item c.rest c = _
    -- with one token more in the budget, there is a round to take off
    have hmore : c.rest.length ≤ (Token.semicolon .origin :: c.rest).length := Nat.le_succ _
    rw [h.collectWithin_eq (Nat.le_refl _) hmore, collectWithin]
    refine bind_congr_run fun a? m hitem => ?_
    cases a? with
    | none => rfl
    | some a =>
      have heq : collectWithin item c.rest m = collect item m :=
        h.collectWithin_eq (Nat.le_of_lt (h c a m hitem)) (Nat.le_refl _)
      show EStateM.bind _ _ m = EStateM.bind _ _ m
      unfold EStateM.bind
      rw [heq]

/-- Rounds that end make up a loop. -/
theorem Collecting.collect_eq_ok {item : Parser (Option α)} (h : Collecting item) {c c' : Cursor}
    {as : List α} (hrounds : Collects item c as c') : collect item c = .ok as c' := by
  induction hrounds with
  | done hitem =>
    rw [h.unroll]
    exact bind_eq_ok.2 ⟨none, _, hitem, rfl⟩
  | more hitem _ ih =>
    rw [h.unroll]
    exact bind_eq_ok.2 ⟨some _, _, hitem, bind_eq_ok.2 ⟨_, _, ih, rfl⟩⟩

/-- Steps that take a token cannot be more than the tokens ahead. -/
theorem Chaining.of_consumes {step : α → Parser (Option α)} (h : ∀ a, Consumes (step a)) :
    Chaining step := by
  have hextends : Extends (fun _ => True) step := fun a _ c b m hstep => ⟨trivial, h a c b m hstep⟩
  exact
    { consumes := h
      enough := fun hbudget => hextends.chainWithin_eq trivial hbudget (Nat.le_refl _)
      unroll := fun a => hextends.chain_eq trivial }

/-- A parser never goes back, and takes a token if it succeeds. -/
structure Progresses (x : Parser α) : Prop where
  ok {c c' : Cursor} {a : α} : x c = .ok a c' → ∃ ts, c.Takes ts c' ∧ ts ≠ []
  error {c c' : Cursor} {e : SyntaxError} : x c = .error e c' → ∃ ts, c.Takes ts c'

end Parser

namespace Parser

variable {α : Type} {r : α → α → Prop} {free : Bool}

/-- A production that takes makes progress. -/
theorem Progresses.of_uniform {x : Parser α} (h : ∀ s, Uniform .alone s true free r fun _ => x) :
    x.Progresses where
  ok {c c' a} hx := by
    have honward := (h c.sight).onward rfl
    rw [hx] at honward
    obtain ⟨-, ts, hts, hne⟩ := honward
    exact ⟨ts, hts, hne rfl⟩
  error {c c' e} hx := by
    have honward := (h c.sight).onward rfl
    rw [hx] at honward
    exact honward

/-- A round that gives something has taken a token. -/
theorem Consumes.of_uniform {item : Parser (Option α)} {takes : Option Token → Bool}
    (h : ∀ s, Uniform .alone s (takes s) free (Round r (takes s)) fun _ => item) :
    Consumes item := by
  intro c a m hitem
  have honward := (h c.sight).onward rfl
  rw [hitem] at honward
  obtain ⟨hround, ts, hts, hne⟩ := honward
  have hpos : 0 < ts.length := List.length_pos_iff.2 (hne hround.takes)
  rw [hts.rest, List.length_append]
  omega

/-- A step that gives something has taken a token and keeps what is known of the value. -/
theorem Extends.of_uniform {step : α → Parser (Option α)} {takes : Option Token → Bool}
    (h : ∀ a, r a a → ∀ s,
      Uniform .alone s (takes s) free (Round r (takes s)) fun _ => step a) :
    Extends (fun a => r a a) step := by
  intro a ha c b m hstep
  have honward := (h a ha c.sight).onward rfl
  rw [hstep] at honward
  exact ⟨honward.1.rel, Consumes.of_uniform (h a ha) c b m hstep⟩

end Parser

/-! ## Operators without a bound -/

namespace Grammar

variable {g : Nested} {allowIn : Bool} {loosest : Nat}

/-- A right operand is only read for an operator that binds tightly enough. -/
theorem binaryStep_congr {right right' : BinaryOperator → Parser Node}
    (h : ∀ operator : BinaryOperator, loosest < operator.precedence →
      right operator = right' operator) :
    binaryStep right allowIn loosest = binaryStep right' allowIn loosest := by
  funext start left c
  rw [binaryStep, binaryOperator?_bind, binaryStep, binaryOperator?_bind]
  cases hoperator :
      (c.operator? allowIn).filter fun operator => loosest < operator.precedence with
  | none => rfl
  | some operator =>
    have htight := (Option.filter_eq_some_iff.1 hoperator).2
    dsimp only
    rw [h operator (of_decide_eq_true htight)]

/-- No operator binds tighter than all precedences. -/
theorem chain_binaryStep_tightest {right : BinaryOperator → Parser Node} {start : Position}
    (h : precedences ≤ loosest) :
    chain (binaryStep right allowIn loosest start) = pure := by
  funext head c
  have hnone :
      (c.operator? allowIn).filter (fun operator => loosest < operator.precedence) = none := by
    refine Option.filter_eq_none_iff.2 fun operator _ => ?_
    simpa using Nat.le_trans (precedence_le operator) h
  show chainWithin _ head c.rest c = _
  rw [chainWithin.eq_def]
  show EStateM.bind _ _ c = _
  unfold EStateM.bind
  rw [binaryStep, binaryOperator?_bind, hnone]
  rfl

/-- One more operator below all precedences is never asked for, so the bound may be larger. -/
theorem binary_succ {levels : Nat} (h : precedences ≤ levels + loosest) :
    binary g allowIn (levels + 1) loosest = binary g allowIn levels loosest := by
  induction levels generalizing loosest with
  | zero =>
    rw [binary, binary]
    simp only [chain_binaryStep_tightest (Nat.zero_add loosest ▸ h)]
    funext c
    rw [here_bind, bind_pure]
  | succ levels ih =>
    rw [binary, binary]
    refine bind_congr fun start => bind_congr fun head => ?_
    rw [binaryStep_congr fun operator htight => ih (by omega)]

/-- The operands of binary operators without a bound on how deep operators nest. -/
theorem binary_eq {levels : Nat} (h : precedences ≤ levels + loosest) :
    binary g allowIn levels loosest = (do
      let start ← here
      let head ← unary g
      chain (binaryStep (fun operator => binary g allowIn levels operator.precedence)
        allowIn loosest start) head) := by
  rw [← binary_succ h, binary]

/-! ## The grammar -/

/-- The parsers of statements and of expressions. -/
inductive Production (g : Nested) : Parser Node → Prop where
  | sourceElement : Production g (sourceElement g)
  | functionDeclaration : Production g (functionDeclaration g)
  | statement : Production g (statement g)
  | block : Production g (block g)
  | expression (allowIn : Bool) : Production g (expression g allowIn)
  | assignment (allowIn : Bool) : Production g (assignment g allowIn)
  | conditional (allowIn : Bool) : Production g (conditional g allowIn)
  | binary (allowIn : Bool) (levels loosest : Nat) :
      Production g (binary g allowIn levels loosest)
  | unary : Production g (unary g)
  | updated : Production g (updated g)
  | callChain : Production g (callChain g)
  | construction : Production g (construction g)
  | primary : Production g (primary g)

/-- The rounds of the loops that collect a list. -/
inductive ListRound (g : Nested) : Parser (Option Node) → Prop where
  | program : ListRound g (programMember g)
  | block : ListRound g (blockMember g)
  | switch : ListRound g (switchCase g)
  | caseBody : ListRound g (caseMember g)
  | declarations (allowIn : Bool) :
      ListRound g (after? (.punctuator .comma) (definition g allowIn))
  | parameters : ListRound g (after? (.punctuator .comma) parameter)
  | arguments : ListRound g (after? (.punctuator .comma) (g.assignment true))
  | sequence (allowIn : Bool) : ListRound g (after? (.punctuator .comma) (g.assignment allowIn))
  | array : ListRound g (element g)
  | object : ListRound g (member g)

/-- The rounds of the loops that extend an expression. -/
inductive ChainRound (g : Nested) : (Node → Parser (Option Node)) → Prop where
  | binary (allowIn : Bool) (levels loosest : Nat) (start : Position) :
      ChainRound g (binaryStep (fun operator => binary g allowIn levels operator.precedence)
        allowIn loosest start)
  | calls (start : Position) : ChainRound g (callStep g start)
  | construction (start : Position) : ChainRound g (memberStep g start)

theorem nested_alone (levels : Nat) : UniformNested .alone fun _ => nested levels :=
  nestedWith_uniform .alone levels

/-- Every production of the grammar takes, whatever the next token is. -/
theorem Production.progresses {levels : Nat} {x : Parser Node}
    (h : Production (nested levels) x) : x.Progresses := by
  have hg := nested_alone levels
  cases h with
  | sourceElement => exact .of_uniform (sourceElement_uniform hg)
  | functionDeclaration => exact .of_uniform (functionDeclaration_uniform hg)
  | statement => exact .of_uniform (statement_uniform hg)
  | block => exact .of_uniform (block_uniform hg)
  | expression allowIn => exact .of_uniform (expression_uniform hg allowIn)
  | assignment allowIn => exact .of_uniform (assignment_uniform hg allowIn)
  | conditional allowIn => exact .of_uniform (conditional_uniform hg allowIn)
  | binary allowIn bound loosest => exact .of_uniform (binary_uniform hg allowIn bound loosest)
  | unary => exact .of_uniform (unary_uniform hg)
  | updated => exact .of_uniform (updated_uniform hg)
  | callChain => exact .of_uniform (callChain_uniform hg)
  | construction => exact .of_uniform (construction_uniform hg)
  | primary => exact .of_uniform (primary_uniform hg)

/-- Every round of a loop that collects takes a token or ends the loop. -/
theorem ListRound.consumes {levels : Nat} {item : Parser (Option Node)}
    (h : ListRound (nested levels) item) : Consumes item := by
  have hg := nested_alone levels
  cases h with
  | program => exact .of_uniform (programMember_uniform hg)
  | block => exact .of_uniform (blockMember_uniform hg)
  | switch => exact .of_uniform (switchCase_uniform hg)
  | caseBody => exact .of_uniform (caseMember_uniform hg)
  | declarations allowIn =>
    exact .of_uniform fun _ => .after? (.punctuator .comma) nofun (definition_uniform hg allowIn)
  | parameters => exact .of_uniform fun _ => .after? (.punctuator .comma) nofun parameter_uniform
  | arguments => exact .of_uniform fun _ => .after? (.punctuator .comma) nofun (hg.assignment true)
  | sequence allowIn =>
    exact .of_uniform fun _ => .after? (.punctuator .comma) nofun (hg.assignment allowIn)
  | array => exact .of_uniform (element_uniform hg)
  | object => exact .of_uniform (member_uniform hg)

/-- Every round of a loop that extends takes a token or ends the loop. -/
theorem ChainRound.consumes {levels : Nat} {step : Node → Parser (Option Node)}
    (h : ChainRound (nested levels) step) (n : Node) : Consumes (step n) := by
  have hg := nested_alone levels
  have hplaces (start : Position) : Setting.alone.Places fun _ => start := fun _ _ _ => rfl
  have hn : Setting.alone.Consistent Node.Alike fun _ => n := .alone rfl
  cases h with
  | binary allowIn bound loosest start =>
    exact .of_uniform (binaryStep_uniform (fun operator => binary_uniform hg allowIn bound _)
      (hplaces start) hn)
  | calls start => exact .of_uniform (callStep_uniform hg (hplaces start) hn)
  | construction start => exact .of_uniform (memberStep_uniform hg (hplaces start) hn)

end Grammar

/-! ## Calls -/

open ScriptLint.Grammar

/-- A call never goes back. -/
theorem Call.onward (call : Call) (c : Cursor) :
    Onward Node.Alike false c (call.parser c) := by
  have hg := nested_alone maxNesting
  cases call with
  | program =>
    have hbody := (Uniform.collect (s := c.sight) (programMember_uniform hg)).onward rfl
    exact hbody.untaken.bind fun body _ hbody => .stay (.build rfl hbody)
  | expression allowIn => exact ((expression_uniform hg allowIn c.sight).onward rfl).untaken

/-- The parser always comes to an end. A statement or an expression takes at least one token, and a
parser never goes back. A round of a loop takes a token or ends the loop, operators nest no deeper
than there are precedences, and levels no deeper than `maxNesting`. So nothing that bounds the
grammar's recursion is ever used up: more of it gives the same results. -/
theorem parsing_progresses :
    (∀ levels x, Production (nested levels) x → x.Progresses) ∧
    (∀ levels item, ListRound (nested levels) item → Collecting item) ∧
    (∀ levels step, ChainRound (nested levels) step → Chaining step) ∧
    (∀ levels allowIn bound loosest, precedences ≤ bound + loosest →
      binary (nested levels) allowIn bound loosest = do
        let start ← here
        let head ← unary (nested levels)
        chain (binaryStep (fun operator => binary (nested levels) allowIn bound operator.precedence)
          allowIn loosest start) head) ∧
    ∀ (call : Call) bottom fuel c, maxNesting < fuel →
      ∃ peak ≤ maxNesting,
        call.on (counted bottom fuel) ⟨c, 0, 0⟩ = Gauge.outcome 0 peak (call.parser c) := by
  refine ⟨fun levels x h => h.progresses, fun levels item h => .of_consumes h.consumes,
    fun levels step h => .of_consumes h.consumes,
    fun levels allowIn bound loosest h => binary_eq h, ?_⟩
  intro call bottom fuel c hfuel
  exact call.on_counted_mirrors hfuel c 0 (Nat.zero_le _)

/-- All levels are left, and a script with a call and a construction is parsed. -/
theorem parsing_progresses_outermost :
    let c := Cursor.ofTokens (tokenize "if (a) f(new g);")
    Progresses (expression outermost true) ∧ Progresses (construction outermost) ∧
    Collecting (blockMember outermost) ∧ Chaining (callStep outermost .origin) ∧
    binary outermost true precedences 0 = (do
      let start ← here
      let head ← unary outermost
      chain (binaryStep (fun operator => binary outermost true precedences operator.precedence)
        true 0 start) head) ∧
    ∃ peak ≤ maxNesting, Call.program.on (counted closed 100) ⟨c, 0, 0⟩ =
      Gauge.outcome 0 peak (program c) := by
  intro c
  obtain ⟨hproduction, hlist, hchain, hbinary, hlevels⟩ := parsing_progresses
  exact ⟨hproduction maxNesting _ (.expression true), hproduction maxNesting _ .construction,
    hlist maxNesting _ .block, hchain maxNesting _ (.calls .origin),
    hbinary maxNesting true precedences 0 (by decide), hlevels .program closed 100 c (by decide)⟩

end ScriptLint
