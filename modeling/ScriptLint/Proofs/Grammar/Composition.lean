import ScriptLint.Proofs.Grammar.LastToken
import ScriptLint.Proofs.Grammar.Nearsighted

/-!
# Programs in a row

If a program ends with a `;`, another one may follow it, and both are read as they are alone
(`programs_compose`).

A statement whose last token is a `;` does not look at the tokens behind it, except for an `else`
(`Settled`): what comes before the `;` is read in sight of it, and where an expression could go on,
it has not ended with a `;`. The statements before the last one do not see as far as the next
program, and those of the next program do not see what is behind them.
-/

namespace ScriptLint

open ScriptLint.Parser ScriptLint.Grammar

/-! ## Settled parsers -/

/-- A run from `c` takes a token. If it stops behind a `;`, then it comes to the same wherever it
finds its tokens, whatever follows them, but for an `else`. -/
structure Settled {α : Type} (x : Parser α) (c : Cursor) : Prop where
  nearsighted : Nearsighted x c
  takes (a : α) (c' : Cursor) : x c = .ok a c' → c'.rest.length < c.rest.length
  settles (a : α) (c' : Cursor) : x c = .ok a c' → c.Bare → c'.BehindSemicolon →
    ∀ ts d d', Cursor.Repeats 0 ts c c' d d' → d'.kind? ≠ some (.keyword .elseKw) → x d = .ok a d'

/-- A run from `c` takes nothing, and gives the same behind the same token, but for an `else`. -/
def Stays {α : Type} (x : Parser α) (c : Cursor) : Prop :=
  ∃ a, x c = .ok a c ∧ ∀ d : Cursor, d.previous = c.previous →
    d.kind? ≠ some (.keyword .elseKw) → x d = .ok a d

namespace Nearsighted

variable {α β : Type} {x : Parser α} {f : α → Parser β} {c c' : Cursor} {a : α}

/-- The tokens that a run takes. -/
theorem exists_takes (h : Nearsighted x c) (hrun : x c = .ok a c') : ∃ ts, c.Takes ts c' := by
  obtain ⟨ts, hts, -⟩ := h
  rw [hrun] at hts
  exact ⟨ts, hts⟩

/-- A nearsighted parser never goes back. -/
theorem length_le (h : Nearsighted x c) (hrun : x c = .ok a c') :
    c'.rest.length ≤ c.rest.length := by
  obtain ⟨ts, hts⟩ := h.exists_takes hrun
  rw [hts.rest, List.length_append]
  exact Nat.le_add_left ..

/-- A successful run elsewhere. -/
theorem run_eq (h : Nearsighted x c) (hrun : x c = .ok a c') {ts : List Token} {d d' : Cursor}
    (hd : Cursor.Repeats 1 ts c c' d d') : x d = .ok a d' := by
  obtain ⟨us, hus, hagain⟩ := h
  rw [hrun] at hus hagain
  obtain rfl := hus.unique hd.takes
  exact hagain d d' hd

end Nearsighted

theorem Stays.pure {α : Type} (a : α) (c : Cursor) : Stays (Pure.pure a) c :=
  ⟨a, rfl, fun _ _ _ => rfl⟩

/-- What stays does so also if it is made of two parts that stay. -/
theorem Stays.bind {α β : Type} {x : Parser α} {f : α → Parser β} {c : Cursor} (hx : Stays x c)
    (hf : ∀ a, Stays (f a) c) : Stays (x >>= f) c := by
  obtain ⟨a, hrun, hagain⟩ := hx
  obtain ⟨b, hrun', hagain'⟩ := hf a
  exact ⟨b, bind_eq_ok.2 ⟨a, c, hrun, hrun'⟩, fun d hprevious helse =>
    bind_eq_ok.2 ⟨a, d, hagain d hprevious helse, hagain' d hprevious helse⟩⟩

theorem Stays.finish {form : Form} {start : Position} {children : List Node} {c : Cursor} :
    Stays (finish form start children) c :=
  ⟨_, rfl, fun _ hprevious _ => Nearsighted.finish_congr hprevious⟩

namespace Settled

variable {α β : Type} {x : Parser α} {f : α → Parser β} {c : Cursor}

/-- What never stops behind a `;`. -/
theorem of_not_behind {free : Bool} {r : α → α → Prop}
    (hx : Uniform .alone c.sight true free r fun _ => x)
    (h : ∀ a c', c.Bare → x c = .ok a c' → ¬ c'.BehindSemicolon) : Settled x c where
  nearsighted := hx.nearsighted rfl
  takes a c' hrun := by
    obtain ⟨-, ts, hts, hne⟩ : Onward r true c (.ok a c') := hrun ▸ hx.onward rfl
    rw [hts.rest, List.length_append]
    have hpos := List.length_pos_iff.2 (hne rfl)
    omega
  settles a c' hrun hbare hbehind := absurd hbehind (h a c' hbare hrun)

/-- Before a run that takes a token, a run is in sight of that token. -/
theorem before (hx : Nearsighted x c) (hf : ∀ a m, x c = .ok a m → Settled (f a) m) :
    Settled (x >>= f) c where
  nearsighted := hx.bind fun a m hrun => (hf a m hrun).nearsighted
  takes b c' hrun := by
    obtain ⟨a, m, ha, hb⟩ := bind_eq_ok.1 hrun
    exact Nat.lt_of_lt_of_le ((hf a m ha).takes b c' hb) (hx.length_le ha)
  settles b c' hrun hbare hbehind ts d d' hd helse := by
    obtain ⟨a, m, ha, hb⟩ := bind_eq_ok.1 hrun
    have hsettled := hf a m ha
    obtain ⟨us, hus⟩ := hx.exists_takes ha
    obtain ⟨vs, hvs⟩ := hsettled.nearsighted.exists_takes hb
    obtain rfl := hd.takes.unique (hus.append hvs)
    have hne : vs ≠ [] := by
      rintro rfl
      have hless := hsettled.takes b c' hb
      rw [hvs.eq_of_nil] at hless
      omega
    obtain ⟨m', hfirst, hsecond⟩ := hd.split hus hvs (.inr hne)
    exact bind_eq_ok.2 ⟨a, m', hx.run_eq ha hfirst,
      hsettled.settles b c' hb (hbare.of_takes hus) hbehind vs m' d' hsecond helse⟩

/-- A settled run before one that is settled as well or that stays. -/
theorem bind (hx : Settled x c)
    (hf : ∀ a m, x c = .ok a m → Settled (f a) m ∨ Nearsighted (f a) m ∧ Stays (f a) m) :
    Settled (x >>= f) c := by
  cases hrun : x c with
  | error e m =>
    exact before hx.nearsighted fun a m h => by rw [hrun] at h; cases h
  | ok a m =>
    obtain hsettled | ⟨hnear, b, hstay, hagain⟩ := hf a m hrun
    · refine before hx.nearsighted fun a' m' h => ?_
      cases hrun.symm.trans h
      exact hsettled
    · have hresult {b' : β} {c' : Cursor} (h : (x >>= f) c = .ok b' c') : b' = b ∧ c' = m := by
        obtain ⟨a', m', ha', hb'⟩ := bind_eq_ok.1 h
        cases hrun.symm.trans ha'
        cases hstay.symm.trans hb'
        exact ⟨rfl, rfl⟩
      refine ⟨hx.nearsighted.bind fun a' m' h => ?_, fun b' c' h => ?_, fun b' c' h => ?_⟩
      · cases hrun.symm.trans h
        exact hnear
      · obtain ⟨rfl, rfl⟩ := hresult h
        exact hx.takes a c' hrun
      · obtain ⟨rfl, rfl⟩ := hresult h
        intro hbare hbehind ts d d' hd helse
        have hprevious : d'.previous = c'.previous := by
          rw [hd.again.previous, hd.takes.previous, hd.previous]
        exact bind_eq_ok.2 ⟨a, d', hx.settles a c' hrun hbare hbehind ts d d' hd helse,
          hagain d' hprevious helse⟩

/-- A node is made of what was read. -/
theorem andFinish (hx : Settled x c) {form : α → Form} {start : Position}
    {children : α → List Node} :
    Settled (x >>= fun a => finish (form a) start (children a)) c :=
  hx.bind fun _ _ _ => .inr ⟨.finish, .finish⟩

end Settled

/-! ## The end of a statement -/

/-- What takes a `;` or nothing. -/
structure TakesSemicolon {α : Type} (x : Parser α) : Prop where
  nearsighted (c : Cursor) : Nearsighted x c
  taken : ∃ a, ∀ c : Cursor, c.kind? = some (.punctuator .semicolon) → x c = .ok a c.advance
  untaken {c c' : Cursor} {a : α} : c.kind? ≠ some (.punctuator .semicolon) → x c = .ok a c' →
    c' = c

/-- The end of a statement takes a `;` if one is next, and otherwise no token. -/
theorem takesSemicolon_terminator : TakesSemicolon terminator where
  nearsighted _ := .terminator
  taken := ⟨(), fun c hkind => by rw [terminator_eq, if_pos hkind]⟩
  untaken hkind hrun := by
    rw [terminator_eq, if_neg hkind] at hrun
    split at hrun
    · cases hrun
      rfl
    · cases hrun

theorem Nearsighted.accept (kind : TokenKind) (c : Cursor) : Nearsighted (accept kind) c := by
  by_cases hkind : c.kind? = some kind
  · obtain ⟨t, ht, -⟩ := Cursor.exists_token hkind
    refine .congr (y := Parser.advance >>= fun _ => Pure.pure true) (fun d _ hhead => ?_) ?_
    · rw [accept_eq, if_pos (Cursor.kind?_congr hhead ▸ hkind)]
      rfl
    · exact (Nearsighted.advance ht).bind fun _ _ _ => .pure true
  · refine .congr (fun d _ hhead => ?_) (.pure false)
    rw [accept_eq, Cursor.kind?_congr hhead, if_neg hkind]
    rfl

/-- So does an optional `;`. -/
theorem takesSemicolon_accept : TakesSemicolon (accept (.punctuator .semicolon)) where
  nearsighted := .accept _
  taken := ⟨true, fun c hkind => by rw [accept_eq, if_pos hkind]⟩
  untaken hkind hrun := by
    rw [accept_eq, if_neg hkind] at hrun
    cases hrun
    rfl

namespace Settled

variable {α β : Type} {x : Parser α} {stop : Parser β} {c : Cursor}

/-- What takes one token does not look behind it. -/
theorem token {t : Token} {a : α} (ht : c.rest.head? = some t)
    (hx : ∀ d : Cursor, d.rest.head? = some t → x d = .ok a d.advance) : Settled x c where
  nearsighted := by
    refine .congr (y := Parser.advance >>= fun _ => Pure.pure a) (fun d _ hhead => ?_) ?_
    · rw [hx d (hhead.trans ht)]
      rfl
    · exact (Nearsighted.advance ht).bind fun _ _ _ => .pure a
  takes b c' hrun := by
    cases (hx c ht).symm.trans hrun
    have hlength := Cursor.length_advance ht
    omega
  settles b c' hrun _ _ ts d d' hd _ := by
    cases (hx c ht).symm.trans hrun
    obtain rfl := hd.takes.unique (.single ht)
    rw [hd.again.eq_advance]
    exact hx d (by rw [hd.again.rest]; rfl)

/-- The `;` itself. -/
theorem semicolon (hstop : TakesSemicolon stop) (hkind : c.kind? = some (.punctuator .semicolon)) :
    Settled stop c := by
  obtain ⟨t, ht, htkind⟩ := Cursor.exists_token hkind
  obtain ⟨b, htaken⟩ := hstop.taken
  exact token ht fun d hd => htaken d (by rw [Cursor.kind?_of_head hd, htkind])

/-- What does not stop behind a `;`, with the `;` of its statement. -/
theorem ended (hx : Settled x c) (h : ∀ a m, c.Bare → x c = .ok a m → ¬ m.BehindSemicolon)
    (hstop : TakesSemicolon stop) {form : α → Form} {start : Position} {children : α → List Node} :
    Settled (x >>= fun a => stop >>= fun _ => finish (form a) start (children a)) c := by
  by_cases hsemicolon : ∃ a m, x c = .ok a m ∧ m.kind? = some (.punctuator .semicolon)
  · obtain ⟨a, m, hrun, hkind⟩ := hsemicolon
    refine before hx.nearsighted fun a' m' hrun' => ?_
    cases hrun.symm.trans hrun'
    exact (semicolon hstop hkind).andFinish
  · -- nothing is taken, so the run stops where `x` did
    have hresult {n : Node} {c' : Cursor} (hrun : (x >>= fun a => stop >>= fun _ =>
        finish (form a) start (children a)) c = .ok n c') : ∃ a, x c = .ok a c' := by
      simp only [bind_eq_ok, finish_eq_ok] at hrun
      obtain ⟨a, m, ha, b, m', hb, -, rfl⟩ := hrun
      obtain rfl := hstop.untaken (fun hkind => hsemicolon ⟨a, m, ha, hkind⟩) hb
      exact ⟨a, ha⟩
    refine ⟨hx.nearsighted.bind fun a m _ => ?_, fun n c' hrun => ?_,
      fun n c' hrun hbare hbehind => ?_⟩
    · exact (hstop.nearsighted m).bind fun _ _ _ => .finish
    · obtain ⟨a, ha⟩ := hresult hrun
      exact hx.takes a c' ha
    · obtain ⟨a, ha⟩ := hresult hrun
      exact absurd hbehind (h a c' hbare ha)

end Settled

/-! ## Looking ahead -/

/-- What only looks at the next token and the one before it. -/
theorem Nearsighted.seen {α : Type} {x : Parser α} {see : Cursor → α} {c : Cursor}
    (hx : ∀ d, x d = .ok (see d) d)
    (hsee : ∀ d : Cursor, d.previous = c.previous → d.rest.head? = c.rest.head? → see d = see c) :
    Nearsighted x c := by
  refine .congr (y := Pure.pure (see c)) (fun d hprevious hhead => ?_) (.pure _)
  rw [hx, hsee d hprevious hhead]
  rfl

namespace Settled

variable {α : Type} {x y : Parser α} {c : Cursor}

/-- A look at the place of the next token unsettles nothing. -/
theorem here {f : Position → Parser α} (h : Settled (f c.here) c) : Settled (here >>= f) c := by
  refine before (.seen (fun _ => rfl) fun d hprevious hhead => ?_) fun p m hrun => ?_
  · exact Cursor.here_congr hprevious hhead
  · cases hrun
    exact h

/-- A token that is taken was there before, whatever follows. -/
theorem advance {kind : TokenKind} (hkind : c.kind? = some kind) (h : Settled x c.advance) :
    Settled (advance >>= fun _ => x) c := by
  obtain ⟨t, ht, -⟩ := Cursor.exists_token hkind
  refine before (.advance ht) fun _ m hrun => ?_
  cases hrun
  exact h

/-- A look at the next kind unsettles nothing if what follows the look is settled. -/
theorem peekKind? {f : Option TokenKind → Parser α} (h : Settled (f c.kind?) c) :
    Settled (peekKind? >>= f) c := by
  refine before (.seen (fun _ => rfl) fun d hprevious hhead => ?_) fun kind m hrun => ?_
  · exact Cursor.kind?_congr hhead
  · cases hrun
    exact h

/-- A choice by the next kind is settled if both branches are. -/
theorem check {kind : TokenKind} (hx : c.kind? = some kind → Settled x c)
    (hy : c.kind? ≠ some kind → Settled y c) :
    Settled (check kind >>= fun b => if b = true then x else y) c := by
  have hchoice : Settled (Parser.peekKind? >>= fun next =>
      if (next == some kind) = true then x else y) c := by
    refine peekKind? ?_
    split
    · next h => exact hx (beq_iff_eq.1 h)
    · next h => exact hy fun heq => h (beq_iff_eq.2 heq)
  exact hchoice

/-- A choice by the next kind that takes the token is settled if both branches are. -/
theorem accept {kind : TokenKind} (hx : c.kind? = some kind → Settled x c.advance)
    (hy : c.kind? ≠ some kind → Settled y c) :
    Settled (accept kind >>= fun b => if b = true then x else y) c := by
  refine before (.accept kind c) fun b m hrun => ?_
  rw [accept_eq] at hrun
  split at hrun
  · next hkind =>
    cases hrun
    exact hx hkind
  · next hkind =>
    cases hrun
    exact hy hkind

end Settled

/-! ## Statements -/

namespace Grammar

variable {g : Nested} {levels : Nat} {c c' : Cursor} {n : Node}

section Productions

variable (hs : g.Sound levels)
include hs

/-- No expression ends with a `;`. -/
theorem expression_not_behind {allowIn : Bool} (hbare : c.Bare)
    (h : expression g allowIn c = .ok n c') : ¬ c'.BehindSemicolon :=
  (expression_reads hs h (Cursor.opens_false c)).not_behindSemicolon rfl hbare

/-- No list of definitions ends with a `;`. -/
theorem declarations_not_behind {allowIn : Bool} (hbare : c.Bare)
    (h : declarations g allowIn c = .ok n c') : ¬ c'.BehindSemicolon := by
  obtain ⟨declaration, count, ns, -, hitems⟩ := declarations_read hs h
  refine hitems.not_behindSemicolon ?_ hbare
  rw [List.getLast?_cons, Item.getLast?_separated]
  rfl

omit hs in
/-- What is parenthesized ends with a parenthesis. -/
theorem parenthesized_not_behind (h : parenthesized g c = .ok n c') : ¬ c'.BehindSemicolon := by
  simp only [parenthesized, bind_eq_ok, expect_eq_ok, pure_eq_ok] at h
  obtain ⟨_, _, _, _, _, _, _, _, ⟨hclose, rfl⟩, -, rfl⟩ := h
  exact Cursor.not_behindSemicolon_advance hclose (by decide)

end Productions

section Statements

variable (hg : UniformNested .alone fun _ => g) (hs : g.Sound levels)
variable (hstatement : ∀ c, Settled g.statement c)

include hg in
/-- What ends a statement takes at most a `;`. -/
theorem takesSemicolon_ending : TakesSemicolon g.ending := by
  have hending : g.ending = terminator := hg.ending ()
  rw [hending]
  exact takesSemicolon_terminator

section

include hg hs

/-- An expression that ended with the tokens did not end behind a `;`. -/
theorem expression_settled (allowIn : Bool) (c : Cursor) : Settled (expression g allowIn) c :=
  .of_not_behind (expression_uniform hg allowIn c.sight) fun _ _ hbare =>
    expression_not_behind hs hbare

/-- An expression statement ends with its `;`, so tokens behind it change nothing. -/
theorem expressionStatement_settled (c : Cursor) : Settled (expressionStatement g) c := by
  unfold expressionStatement
  exact .here ((expression_settled hg hs true c).ended
    (fun _ _ hbare => expression_not_behind hs hbare) (takesSemicolon_ending hg))

/-- Definitions end with their `;` in the same way. -/
theorem variableStatement_settled (c : Cursor) : Settled (variableStatement g) c := by
  unfold variableStatement
  have hlist : Settled (declarations g true) c :=
    .of_not_behind (declarations_uniform hg true c.sight) fun _ _ hbare =>
      declarations_not_behind hs hbare
  exact .here (hlist.ended (fun _ _ hbare => declarations_not_behind hs hbare)
    (takesSemicolon_ending hg))

/-- A `throw` ends with its `;` in the same way. -/
theorem throwStatement_settled {kind : TokenKind} (hkind : c.kind? = some kind) :
    Settled (throwStatement g) c := by
  unfold throwStatement
  exact .here (.advance hkind ((expression_settled hg hs true c.advance).ended
    (fun _ _ hbare => expression_not_behind hs hbare) (takesSemicolon_ending hg)))

end

section

include hg hstatement

/-- Behind the `;` of the last branch an `else` could go on, and just that is excluded. -/
theorem ifStatement_settled {kind : TokenKind} (hkind : c.kind? = some kind) :
    Settled (ifStatement g) c := by
  unfold ifStatement
  refine .here (.advance hkind (.before ((parenthesized_uniform hg _).nearsighted rfl) ?_))
  intro test m _
  refine (hstatement m).bind fun consequent m hrun => ?_
  by_cases helse : m.kind? = some (.keyword .elseKw)
  · have halternate : Settled (after? (.keyword .elseKw) g.statement) m := by
      refine .accept (fun _ => ?_) fun hne => absurd helse hne
      exact (hstatement m.advance).bind fun _ _ _ => .inr ⟨.pure _, .pure _ _⟩
    exact .inl halternate.andFinish
  · have hnear : Nearsighted (after? (.keyword .elseKw) g.statement) m :=
      (Uniform.after? (.keyword .elseKw) nofun hg.statement).nearsighted rfl
    have hstays : Stays (after? (.keyword .elseKw) g.statement) m :=
      ⟨none, accept_neg helse, fun d _ hne => accept_neg hne⟩
    exact .inr ⟨hnear.bind fun _ _ _ => .finish, hstays.bind fun _ => .finish⟩

/-- A statement below a condition is settled if it is settled on its own. -/
theorem guarded_settled {form : Form} {kind : TokenKind} (hkind : c.kind? = some kind) :
    Settled (guarded g form) c := by
  unfold guarded
  refine .here (.advance hkind (.before ((parenthesized_uniform hg _).nearsighted rfl) ?_))
  intro head m _
  exact (hstatement m).andFinish

/-- The body of a loop comes last, and it is settled. -/
theorem forInRest_settled {start : Position} {left : Node} (c : Cursor) :
    Settled (forInRest g start left) c := by
  unfold forInRest
  refine .before ((expression_uniform hg true _).nearsighted rfl) fun right m _ => ?_
  refine .before (Uniform.expect.nearsighted rfl) fun _ m _ => ?_
  exact (hstatement m).andFinish

/-- The body of a loop comes last here as well. -/
theorem forRest_settled {start : Position} {init : Node} (c : Cursor) :
    Settled (forRest g start init) c := by
  unfold forRest
  refine .before (Uniform.expect.nearsighted rfl) fun _ m _ => ?_
  refine .before ((forClause_uniform hg _).nearsighted rfl) fun test m _ => ?_
  refine .before (Uniform.expect.nearsighted rfl) fun _ m _ => ?_
  refine .before ((forClause_uniform hg _).nearsighted rfl) fun update m _ => ?_
  refine .before (Uniform.expect.nearsighted rfl) fun _ m _ => ?_
  exact (hstatement m).andFinish

/-- All three kinds of loops end with their body. -/
theorem forStatement_settled {kind : TokenKind} (hkind : c.kind? = some kind) :
    Settled (forStatement g) c := by
  unfold forStatement
  refine .here (.advance hkind (.before (Uniform.expect.nearsighted rfl) fun _ m _ => ?_))
  refine .check (fun _ => ?_) fun _ => .peekKind? ?_
  · exact .here (f := fun p => forRest g _ (Node.build .emptyExpression ⟨p, p⟩ []))
      (forRest_settled hg hstatement m)
  split
  · refine .before ((declarations_uniform hg false _).nearsighted rfl) fun init m _ => ?_
    exact .accept (fun _ => forInRest_settled hg hstatement m.advance) fun _ =>
      forRest_settled hg hstatement m
  · refine .before ((expression_uniform hg false _).nearsighted rfl) fun init m _ => ?_
    refine .check (fun hin => ?_) fun _ => forRest_settled hg hstatement m
    have htarget : Nearsighted (requireAssignable init) m := by
      unfold requireAssignable
      split
      · exact .pure ()
      · exact .throw _
    refine .before htarget fun _ m' hrun => ?_
    obtain ⟨-, rfl⟩ := requireAssignable_eq_ok.1 hrun
    exact .advance hin (forInRest_settled hg hstatement m.advance)

/-- The optional `;` behind a `do` loop is there, so no token is asked for behind it. -/
theorem doWhileStatement_settled {kind : TokenKind} (hkind : c.kind? = some kind) :
    Settled (doWhileStatement g) c := by
  unfold doWhileStatement
  refine .here (.advance hkind (.before (hstatement c.advance).nearsighted fun body m _ => ?_))
  refine .before (Uniform.expect.nearsighted rfl) fun _ m _ => ?_
  have htest : Settled (parenthesized g) m :=
    .of_not_behind (parenthesized_uniform hg _) fun _ _ _ => parenthesized_not_behind
  exact htest.ended (fun _ _ _ => parenthesized_not_behind) takesSemicolon_accept

end

section

include hg

/-- A jump ends with its `;`, with or without a label. -/
theorem jump_settled {form : Option String → Form} {keyword : Keyword}
    (hkind : c.kind? = some (.keyword keyword))
    (hline : (TokenKind.keyword keyword).endsWithLine = true) : Settled (jump g form) c := by
  unfold jump
  obtain ⟨t, hsight, htkind⟩ := Cursor.exists_sight hkind
  have hopen (label : Option String) (m : Cursor) (_ : c.Bare)
      (h : (advance >>= fun _ => label?) c = .ok label m) : ¬ m.BehindSemicolon := by
    have hkeyword := Cursor.not_behindSemicolon_advance hkind (by simp)
    rw [advance_bind, label?, newlineBefore_bind] at h
    split at h
    · obtain ⟨-, rfl⟩ := pure_eq_ok.1 h
      exact hkeyword
    · obtain ⟨u, x, hu, hx, -, rfl⟩ | ⟨-, -, rfl⟩ := name?_eq_ok.1 h
      · rw [Cursor.behindSemicolon_advance hu, Token.kind_of_identifier? hx]
        simp
      · exact hkeyword
  have hlabel : Settled (advance >>= fun _ => label?) c :=
    .of_not_behind (hsight ▸ label?_uniform (htkind ▸ hline)) hopen
  exact .here (hlabel.ended hopen (takesSemicolon_ending hg))

/-- The keyword is followed by its `;`. -/
theorem debuggerStatement_settled (hkind : c.kind? = some (.keyword .debuggerKw)) :
    Settled (debuggerStatement g) c := by
  unfold debuggerStatement
  obtain ⟨t, ht, -⟩ := Cursor.exists_token hkind
  have hkeyword : Settled advance c := .token ht fun _ _ => rfl
  refine .here (hkeyword.ended (fun _ m _ h => ?_) (takesSemicolon_ending hg))
  cases h
  exact Cursor.not_behindSemicolon_advance hkind (by simp)

omit hg in
/-- A `;` on its own is all of the statement. -/
theorem emptyStatement_settled {kind : TokenKind} (hkind : c.kind? = some kind) :
    Settled emptyStatement c := by
  unfold emptyStatement
  obtain ⟨t, ht, -⟩ := Cursor.exists_token hkind
  have hmark : Settled advance c := .token ht fun _ _ => rfl
  exact .here hmark.andFinish

include hs

/-- A `return` ends with its `;`, with or without a value. -/
theorem returnStatement_settled (hkind : c.kind? = some (.keyword .returnKw)) :
    Settled (returnStatement g) c := by
  unfold returnStatement
  obtain ⟨t, hsight, htkind⟩ := Cursor.exists_sight hkind
  have hopen (value : Option Node) (m : Cursor) (hbare : c.Bare)
      (h : (advance >>= fun _ => returnValue? g) c = .ok value m) : ¬ m.BehindSemicolon := by
    have hkeyword := Cursor.not_behindSemicolon_advance hkind (by simp)
    obtain ⟨u, hu, -⟩ := Cursor.exists_token hkind
    rw [advance_bind, returnValue?, check_bind] at h
    split at h
    · obtain ⟨-, rfl⟩ := pure_eq_ok.1 h
      exact hkeyword
    rw [impliedTerminator_bind] at h
    split at h
    · obtain ⟨-, rfl⟩ := pure_eq_ok.1 h
      exact hkeyword
    · obtain ⟨n, m', hn, hpure⟩ := bind_eq_ok.1 h
      obtain ⟨-, rfl⟩ := pure_eq_ok.1 hpure
      exact expression_not_behind hs (hbare.advance hu) hn
  have hvalue : Settled (advance >>= fun _ => returnValue? g) c :=
    .of_not_behind (hsight ▸ returnValue?_uniform hg (by rw [htkind]; rfl)) hopen
  exact .here (hvalue.ended hopen (takesSemicolon_ending hg))

/-- A function ends with a brace. -/
theorem functionDeclaration_settled (c : Cursor) : Settled (functionDeclaration g) c := by
  refine .of_not_behind (functionDeclaration_uniform hg _) fun n c' hbare h => ?_
  have hreads := functionDeclaration_reads hs h .functionDeclaration (fun _ => rfl) fun _ => rfl
  refine hreads.not_behindSemicolon ?_ hbare
  simp only [functionDeclaration, functionOf, here_bind, bind_eq_ok, finish_eq_ok] at h
  obtain ⟨_, _, _, _, _, _, _, _, _, _, _, _, rfl, rfl⟩ := h
  rfl

/-- A `switch` ends with a brace, never with a `;`. -/
theorem switchStatement_settled (hkind : c.kind? = some (.keyword .switchKw)) :
    Settled (switchStatement g) c := by
  obtain ⟨t, hsight, -⟩ := Cursor.exists_sight hkind
  refine .of_not_behind (switchStatement_uniform hg (by rw [hsight]; rfl)) fun n c' hbare h => ?_
  have hreads : Reads Cursor.Implied (levels + 1) (.statement false) c n c' :=
    switchStatement_reads hs h hkind
  refine hreads.not_behindSemicolon ?_ hbare
  simp only [switchStatement, here_bind, advance_bind, bind_eq_ok, finish_eq_ok] at h
  obtain ⟨_, _, _, _, _, _, _, _, _, rfl, rfl⟩ := h
  rfl

/-- A `try` ends with the brace of its last block. -/
theorem tryStatement_settled (hkind : c.kind? = some (.keyword .tryKw)) :
    Settled (tryStatement g) c := by
  obtain ⟨t, hsight, -⟩ := Cursor.exists_sight hkind
  refine .of_not_behind (tryStatement_uniform hg (by rw [hsight]; rfl)) fun n c' hbare h => ?_
  have hreads : Reads Cursor.Implied (levels + 1) (.statement false) c n c' :=
    tryStatement_reads hs h hkind
  refine hreads.not_behindSemicolon ?_ hbare
  simp only [tryStatement, here_bind, advance_bind, bind_eq_ok] at h
  obtain ⟨_, _, _, _, _, _, _, _, _, h⟩ := h
  split at h
  · exact absurd h throw_ne_ok
  · obtain ⟨rfl, rfl⟩ := finish_eq_ok.1 h
    rfl

include hstatement

/-- Every statement that ends with a `;` is settled, one case for each kind. -/
theorem statement_settled (c : Cursor) : Settled (statement g) c := by
  unfold statement
  refine .peekKind? ?_
  split
  · have hfails : Uniform .alone c.sight true false Node.Alike fun _ => unexpected "statement" :=
      .unexpected
    exact .of_not_behind hfails fun _ _ _ => nofun
  · exact .of_not_behind (hg.block _) fun _ _ hbare h =>
      (hs.block h).not_behindSemicolon rfl hbare
  · next hkind => exact emptyStatement_settled hkind
  · exact variableStatement_settled hg hs c
  · exact variableStatement_settled hg hs c
  · exact variableStatement_settled hg hs c
  · next hkind => exact ifStatement_settled hg hstatement hkind
  · next hkind => exact guarded_settled hg hstatement hkind
  · next hkind => exact doWhileStatement_settled hg hstatement hkind
  · next hkind => exact forStatement_settled hg hstatement hkind
  · next hkind => exact jump_settled hg hkind rfl
  · next hkind => exact jump_settled hg hkind rfl
  · next hkind => exact returnStatement_settled hg hs hkind
  · next hkind => exact guarded_settled hg hstatement hkind
  · next hkind => exact switchStatement_settled hg hs hkind
  · next hkind => exact throwStatement_settled hg hs hkind
  · next hkind => exact tryStatement_settled hg hs hkind
  · next hkind => exact debuggerStatement_settled hg hkind
  · exact functionDeclaration_settled hg hs c
  · exact expressionStatement_settled hg hs c

/-- A declaration ends with a brace, and a statement is settled. -/
theorem sourceElement_settled (c : Cursor) : Settled (sourceElement g) c := by
  unfold sourceElement
  exact .check (fun _ => functionDeclaration_settled hg hs c) fun _ => hstatement c

end

end Statements

/-- Statements are settled at every nesting level. -/
theorem nested_settled (levels : Nat) (c : Cursor) : Settled (nested levels).statement c := by
  induction levels generalizing c with
  | zero => exact .of_not_behind ((nested_alone 0).statement c.sight) fun _ _ _ => nofun
  | succ levels ih => exact statement_settled (nested_alone levels) (nested_sound levels) ih c

end Grammar

/-! ## Two programs -/

/-- Tokens behind those that are left. -/
def Cursor.extend (c : Cursor) (tokens : List Token) : Cursor := ⟨c.previous, c.rest ++ tokens⟩

/-- Tokens that are taken are taken as well if more of them follow. -/
theorem Cursor.Takes.extend {c c' : Cursor} {ts : List Token} (h : c.Takes ts c')
    (tokens : List Token) : (c.extend tokens).Takes ts (c'.extend tokens) := by
  refine ⟨?_, h.previous⟩
  show c.rest ++ tokens = ts ++ (c'.rest ++ tokens)
  rw [h.rest, List.append_assoc]

namespace Grammar

variable {c c' m : Cursor} {n : Node} {ns others : List Node} {tokens : List Token}

/-- A member of a program is the same if more tokens follow, either because another member is next
or because a `;` ends it. -/
theorem programMember_extend (hbare : c.Bare) (h : programMember outermost c = .ok (some n) m)
    (hend : m.rest = [] → m.BehindSemicolon)
    (helse : tokens.head?.map Token.kind ≠ some (.keyword .elseKw)) :
    programMember outermost (c.extend tokens) = .ok (some n) (m.extend tokens) := by
  rw [programMember, atEnd_bind] at h
  split at h
  · cases h
  · next hne =>
    have hrun : sourceElement outermost c = .ok n m := by
      simp only [bind_eq_ok, pure_eq_ok] at h
      obtain ⟨_, _, hrun, hsome, rfl⟩ := h
      cases hsome
      exact hrun
    have hsettled : Settled (sourceElement outermost) c :=
      sourceElement_settled (nested_alone maxNesting) (nested_sound maxNesting)
        (nested_settled maxNesting) c
    obtain ⟨ts, hts⟩ := hsettled.nearsighted.exists_takes hrun
    have hextended : sourceElement outermost (c.extend tokens) = .ok n (m.extend tokens) := by
      by_cases hnil : m.rest = []
      · refine hsettled.settles n m hrun hbare (hend hnil) ts _ _
          ⟨hts, hts.extend tokens, rfl, rfl⟩ ?_
        rwa [Cursor.kind?, Cursor.extend, hnil]
      · refine hsettled.nearsighted.run_eq hrun ⟨hts, hts.extend tokens, rfl, ?_⟩
        obtain ⟨t, rest, hcons⟩ := List.exists_cons_of_ne_nil hnil
        rw [Cursor.extend, hcons]
        rfl
    have hnotEnd : (c.extend tokens).rest.isEmpty = false := by
      obtain ⟨t, rest, hcons⟩ : ∃ t rest, c.rest = t :: rest :=
        List.exists_cons_of_ne_nil fun hnil => hne (List.isEmpty_iff.2 hnil)
      rw [Cursor.extend, hcons]
      rfl
    rw [programMember, atEnd_bind, hnotEnd, if_neg Bool.false_ne_true]
    exact bind_eq_ok.2 ⟨n, _, hextended, rfl⟩

/-- The members of a program end where its tokens do. -/
theorem programMembers_eq_of_nil (h : Collects (programMember outermost) c ns c')
    (hnil : c.rest = []) : ns = [] ∧ c' = c := by
  cases h with
  | done hitem =>
    obtain ⟨-, -, rfl⟩ | ⟨_, ⟨⟩, -⟩ := programMember_cases hitem
    exact ⟨rfl, rfl⟩
  | more hitem =>
    obtain ⟨⟨⟩, -⟩ | ⟨_, -, hreads⟩ := programMember_cases hitem
    have hrest := hreads.isEmpty_rest (by decide)
    rw [hnil] at hrest
    cases hrest

/-- The members of a program that ends with a `;` are followed by those of another one. -/
theorem programMembers_extend (h : Collects (programMember outermost) c ns c') (hbare : c.Bare)
    (hend : c'.BehindSemicolon)
    (helse : tokens.head?.map Token.kind ≠ some (.keyword .elseKw))
    (hothers : Collects (programMember outermost) ⟨c'.previous, tokens⟩ others m) :
    Collects (programMember outermost) (c.extend tokens) (ns ++ others) m := by
  induction h with
  | done hitem =>
    obtain ⟨-, hnil, rfl⟩ | ⟨_, ⟨⟩, -⟩ := programMember_cases hitem
    rwa [Cursor.extend, hnil]
  | more hitem hrounds ih =>
    obtain ⟨⟨⟩, -⟩ | ⟨_, -, hreads⟩ := programMember_cases hitem
    obtain ⟨ts, hts, -⟩ := hreads.takes
    refine .more (programMember_extend hbare hitem (fun hnil => ?_) helse)
      (ih (hbare.of_takes hts) hend hothers)
    obtain ⟨-, rfl⟩ := programMembers_eq_of_nil hrounds hnil
    exact hend

/-- The members of a program do not depend on what is behind it. -/
theorem programMembers_behind (h : Collects (programMember outermost) c ns c') {d : Cursor}
    (hrest : d.rest = c.rest) : ∃ d', Collects (programMember outermost) d ns d' := by
  cases h with
  | done hitem =>
    obtain ⟨-, hnil, -⟩ | ⟨_, ⟨⟩, -⟩ := programMember_cases hitem
    refine ⟨d, .done ?_⟩
    rw [programMember, atEnd_bind, hrest, hnil]
    rfl
  | more hitem hrounds =>
    obtain ⟨⟨⟩, -⟩ | ⟨_, -, hreads⟩ := programMember_cases hitem
    have hne : c.rest ≠ [] := List.isEmpty_eq_false_iff.1 (hreads.isEmpty_rest (by decide))
    have hsome : c.sight.isSome = true := by
      rw [← Option.not_isNone, ← c.isEmpty_eq, hreads.isEmpty_rest (by decide)]
      rfl
    have hsame : SameOutcome (programMember outermost c) (programMember outermost d) :=
      (programMember_uniform (nested_alone maxNesting) c.sight).unaffected hsome rfl hrest.symm hne
    rw [hitem] at hsame
    cases hd : programMember outermost d with
    | error e m =>
      rw [hd] at hsame
      cases hsame
    | ok n? m =>
      rw [hd] at hsame
      obtain ⟨rfl, rfl⟩ := hsame
      exact ⟨_, .more hd hrounds⟩

/-- The first token of a program is no `else`. -/
theorem programMembers_kind?_ne (h : Collects (programMember outermost) c ns c') :
    c.kind? ≠ some (.keyword .elseKw) := by
  cases h with
  | done hitem =>
    obtain ⟨-, hnil, -⟩ | ⟨_, ⟨⟩, -⟩ := programMember_cases hitem
    rw [Cursor.kind?, hnil]
    simp
  | more hitem =>
    obtain ⟨⟨⟩, -⟩ | ⟨_, -, hreads⟩ := programMember_cases hitem
    exact hreads.kind?_ne rfl

end Grammar

/-! ## Scripts -/

section Scripts

variable {tokens : List Token} {root : Node} {ns : List Node} {c : Cursor}

/-- The statements of a script are the members of its program, up to the last token. -/
theorem collects_of_parseTokens (h : parseTokens tokens = .ok root) :
    ∃ c, Collects (programMember outermost) (.ofTokens tokens) root.children c ∧
      c.previous = (significant tokens).getLast? := by
  obtain ⟨c, hrun⟩ := run_eq_ok.1 h
  obtain ⟨hreads, hend⟩ := program_reads hrun fun _ => rfl
  obtain ⟨ts, hts, -⟩ := hreads.takes
  have htokens : significant tokens = ts := by
    have hrest := hts.rest
    rwa [hend, List.append_nil] at hrest
  simp only [program, programOf, bind_eq_ok, finish_eq_ok] at hrun
  obtain ⟨start, _, hstart, body, m, hbody, rfl, rfl⟩ := hrun
  cases hstart
  refine ⟨m, collect_sound hbody, ?_⟩
  rw [hts.previous, htokens]
  exact Option.or_none

/-- Members of a program make up a script. -/
theorem parseTokens_of_collects
    (h : Collects (programMember outermost) (.ofTokens tokens) ns c) :
    ∃ root, parseTokens tokens = .ok root ∧ root.form = .program ∧ root.children = ns := by
  have hcollecting : Collecting (programMember outermost) :=
    .of_consumes (.of_uniform (programMember_uniform (nested_alone maxNesting)))
  let start : Position := ((significant tokens).head?.map fun t => t.span.start).getD .origin
  refine ⟨.build .program ⟨start, c.lastEnd⟩ ns, run_eq_ok.2 ⟨c, ?_⟩, rfl, rfl⟩
  rw [program, programOf]
  refine bind_eq_ok.2 ⟨start, .ofTokens tokens, rfl, ?_⟩
  exact bind_eq_ok.2 ⟨ns, c, hcollecting.collect_eq_ok h, rfl⟩

/-- The cursor at two scripts is the one at the first with the second behind it. -/
theorem ofTokens_append (first second : List Token) :
    Cursor.ofTokens (first ++ second) = (Cursor.ofTokens first).extend (significant second) := by
  show (⟨none, significant (first ++ second)⟩ : Cursor) = ⟨none, _⟩
  rw [significant, List.filter_append]
  rfl

end Scripts

/-- A script that ends with a `;` and any other script make up one script, with the statements of
both as they are alone. Its punctuators carry no value, as those of a lexer. -/
theorem programs_compose :
    (∀ lexer : Lexer, ∀ t ∈ lexer.tokenize.1, t.isBare = true) ∧
      ∀ (first second : List Token) (m n : Node), (∀ t ∈ first, t.isBare = true) →
        parseTokens first = .ok m →
        (significant first).getLast?.map Token.kind = some (.punctuator .semicolon) →
        parseTokens second = .ok n →
        ∃ root, parseTokens (first ++ second) = .ok root ∧ root.form = .program ∧
          root.children = m.children ++ n.children := by
  refine ⟨fun lexer t => Lexer.isBare_of_mem_tokenize, fun first second m n hbare hm hlast hn => ?_⟩
  obtain ⟨c, hfirst, hprevious⟩ := collects_of_parseTokens hm
  obtain ⟨_, hsecond, -⟩ := collects_of_parseTokens hn
  have hbare : (Cursor.ofTokens first).Bare := fun t ht => hbare t (List.mem_filter.1 ht).1
  have hend : c.BehindSemicolon := by
    rw [Cursor.BehindSemicolon, hprevious, hlast]
  have helse : (significant second).head?.map Token.kind ≠ some (.keyword .elseKw) :=
    programMembers_kind?_ne hsecond
  obtain ⟨d, hbehind⟩ := programMembers_behind (d := ⟨c.previous, significant second⟩) hsecond rfl
  refine parseTokens_of_collects (c := d) ?_
  rw [ofTokens_append]
  exact programMembers_extend hfirst hbare hend helse hbehind

/-- An `if` without its `else` is followed by parentheses, which call nothing. -/
theorem programs_compose_parentheses :
    let first := tokenize "if (x) do y(); while (z);"
    let second := tokenize "(u)\n++v"
    let identifier (name : String) := Node.build (.identifier name) .nowhere []
    let body : List Node :=
      [.build (.ifStatement false) .nowhere
        [identifier "x",
        .build .doWhileStatement .nowhere
          [.build .expressionStatement .nowhere
            [.build .callExpression .nowhere
              [identifier "y", .build .functionArgumentList .nowhere []]],
          identifier "z"]],
      .build .expressionStatement .nowhere [identifier "u"],
      .build .expressionStatement .nowhere
        [.build (.updateExpression .increment true) .nowhere [identifier "v"]]]
    (significant first).getLast?.map Token.kind = some (.punctuator .semicolon) ∧
      ∃ m n root, parseTokens first = .ok m ∧ parseTokens second = .ok n ∧
        parseTokens (first ++ second) = .ok root ∧ root.children = m.children ++ n.children ∧
        Node.unlocatedAll root.children = body := by
  intro first second identifier body
  have hbare : ∀ t ∈ first, t.isBare = true := by decide +kernel
  have hlast : (significant first).getLast?.map Token.kind = some (.punctuator .semicolon) := by
    decide +kernel
  have hfirst : (parseTokens first).isOk = true := by decide +kernel
  have hsecond : (parseTokens second).isOk = true := by decide +kernel
  obtain ⟨m, hm⟩ := exists_tree hfirst
  obtain ⟨n, hn⟩ := exists_tree hsecond
  obtain ⟨root, hroot, -, hchildren⟩ := programs_compose.2 first second m n hbare hm hlast hn
  obtain ⟨_, hsame, hbody⟩ := exists_tree_of_map
    (show (parseTokens (first ++ second)).map (fun t => Node.unlocatedAll t.children) = .ok body by
      decide +kernel)
  obtain rfl := Except.ok.inj (hroot.symm.trans hsame)
  exact ⟨hlast, m, n, root, hm, hn, hroot, hchildren, hbody⟩

end ScriptLint
