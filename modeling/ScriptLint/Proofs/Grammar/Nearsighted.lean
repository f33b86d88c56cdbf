import ScriptLint.Proofs.Grammar.Sessions

/-!
# How far a parser sees

A parser that succeeds has looked at no more than the token behind those that it took, and one that
fails at no more than the two tokens behind them. So it does the same wherever it finds these tokens
(`Uniform.nearsighted`). The second token counts only for `default`, which is taken together with
its colon.

In particular no token further on can change the result of a call (`Call.run_of_take`).
-/

namespace ScriptLint

open ScriptLint.Parser ScriptLint.Grammar

/-! ## The same tokens in two places -/

/-- `Cursor.Repeats look ts c c' d d'` says that the tokens `ts` lead from `c` to `c'` and from `d`
to `d'`. The token before them is the same, and so are the next `look` tokens behind them. -/
structure Cursor.Repeats (look : Nat) (ts : List Token) (c c' d d' : Cursor) : Prop where
  takes : c.Takes ts c'
  again : d.Takes ts d'
  previous : d.previous = c.previous
  ahead : d'.rest.take look = c'.rest.take look

/-- Who takes nothing stays. -/
theorem Cursor.Takes.eq_of_nil {c c' : Cursor} (h : c.Takes [] c') : c' = c := by
  obtain ⟨previous, rest⟩ := c'
  obtain ⟨hrest, hprevious⟩ := h
  cases hprevious
  cases hrest
  rfl

/-- Who takes one token is behind it. -/
theorem Cursor.Takes.eq_advance {c c' : Cursor} {t : Token} (h : c.Takes [t] c') :
    c' = c.advance := by
  obtain ⟨previous, rest⟩ := c
  obtain ⟨previous', rest'⟩ := c'
  obtain ⟨hrest, hprevious⟩ := h
  cases hrest
  cases hprevious
  rfl

namespace Cursor.Repeats

variable {look : Nat} {ts us : List Token} {c c' d d' m : Cursor}

/-- Tokens that start the same way still do behind the same tokens. -/
theorem take_append {rest rest' : List Token} (h : rest'.take look = rest.take look)
    (us : List Token) : (us ++ rest').take look = (us ++ rest).take look := by
  rw [List.take_append, List.take_append]
  have hless : rest'.take (look - us.length) = rest.take (look - us.length) := by
    have htake := congrArg (List.take (look - us.length)) h
    rwa [List.take_take, List.take_take, Nat.min_eq_left (Nat.sub_le ..)] at htake
  rw [hless]

/-- The tokens that may be looked at are the same in both places. -/
theorem take_rest (h : Repeats look ts c c' d d') : d.rest.take look = c.rest.take look := by
  rw [h.again.rest, h.takes.rest]
  exact take_append h.ahead ts

theorem head?_of_take {rest rest' : List Token} (h : rest'.take look = rest.take look)
    (hlook : 1 ≤ look) : rest'.head? = rest.head? := by
  have htake := congrArg List.head? h
  rwa [List.head?_take, List.head?_take, if_neg (by omega), if_neg (by omega)] at htake

/-- The next token is the same. -/
theorem head? (h : Repeats look ts c c' d d') (hlook : 1 ≤ look) :
    d.rest.head? = c.rest.head? :=
  head?_of_take h.take_rest hlook

/-- Tokens in two parts lead to the same place in the middle, where the next token is the same. -/
theorem split (h : Repeats look (ts ++ us) c c' d d') (hts : c.Takes ts m) (hus : m.Takes us c')
    (hsight : 1 ≤ look ∨ us ≠ []) : ∃ m', Repeats 1 ts c m d m' ∧ Repeats look us m c' m' d' := by
  refine ⟨⟨ts.getLast?.or d.previous, us ++ d'.rest⟩, ⟨hts, ⟨?_, rfl⟩, h.previous, ?_⟩,
    ⟨hus, ⟨rfl, ?_⟩, ?_, h.ahead⟩⟩
  · rw [h.again.rest, List.append_assoc]
  · rw [hus.rest]
    rcases hsight with hlook | hne
    · have hone := congrArg (List.take 1) h.ahead
      rw [List.take_take, List.take_take, Nat.min_eq_left hlook] at hone
      exact take_append hone us
    · obtain ⟨t, us, rfl⟩ := List.exists_cons_of_ne_nil hne
      rfl
  · rw [h.again.previous, List.getLast?_append, Option.or_assoc]
  · rw [hts.previous, h.previous]

end Cursor.Repeats

/-! ## What the next token shows -/

namespace Cursor

variable {c d : Cursor} (hprevious : d.previous = c.previous) (hhead : d.rest.head? = c.rest.head?)

include hhead

theorem kind?_congr : d.kind? = c.kind? := by rw [kind?, kind?, hhead]

theorem sight_congr : d.sight = c.sight := by rw [sight, sight, hhead]

omit hhead in
/-- Two tokens ahead are enough to see the kind of the second. -/
theorem kind?_advance_congr (h : d.rest.take 2 = c.rest.take 2) :
    d.advance.kind? = c.advance.kind? := by
  obtain ⟨_, rest⟩ := c
  obtain ⟨_, rest'⟩ := d
  rcases rest with _ | ⟨t, _ | ⟨u, rest⟩⟩ <;> rcases rest' with _ | ⟨t', _ | ⟨u', rest'⟩⟩ <;>
    simp_all [advance, kind?]

/-- A violation shows the next token. -/
theorem violation_congr (expected : String) : d.violation expected = c.violation expected := by
  obtain ⟨_, rest⟩ := c
  obtain ⟨_, rest'⟩ := d
  cases rest <;> cases rest' <;> simp_all [violation]

include hprevious

/-- The place of the next token, or of the end of the last one. -/
theorem here_congr : d.here = c.here := by rw [here, here, lastEnd, lastEnd, hprevious, hhead]

/-- Whether a line ends before the next token is seen from it and the last one. -/
theorem newlineBefore_congr : d.newlineBefore = c.newlineBefore := by
  obtain ⟨previous, rest⟩ := c
  obtain ⟨previous', rest'⟩ := d
  obtain rfl : previous' = previous := hprevious
  cases rest <;> cases rest' <;> cases previous' <;> simp_all [newlineBefore]

/-- So is whether a `;` is implied. -/
theorem impliesTerminator_congr : d.impliesTerminator = c.impliesTerminator := by
  rw [impliesTerminator, impliesTerminator, kind?_congr hhead, isEmpty_eq, isEmpty_eq,
    sight_congr hhead, newlineBefore_congr hprevious hhead]

end Cursor

/-! ## Nearsighted parsers -/

section Results

variable {α : Type}

/-- Where a run stopped. -/
def stopOf : EStateM.Result SyntaxError Cursor α → Cursor
  | .ok _ c => c
  | .error _ c => c

/-- How many of the tokens behind those that were taken a run may have looked at. -/
def lookOf : EStateM.Result SyntaxError Cursor α → Nat
  | .ok _ _ => 1
  | .error _ _ => 2

/-- The same result at another place. -/
def moveResult (d : Cursor) : EStateM.Result SyntaxError Cursor α →
    EStateM.Result SyntaxError Cursor α
  | .ok a _ => .ok a d
  | .error e _ => .error e d

theorem one_le_lookOf (result : EStateM.Result SyntaxError Cursor α) : 1 ≤ lookOf result := by
  cases result <;> simp [lookOf]

theorem lookOf_le_two (result : EStateM.Result SyntaxError Cursor α) : lookOf result ≤ 2 := by
  cases result <;> simp [lookOf]

end Results

/-- A run from `c` takes tokens, and comes to the same from wherever it finds them with the same
tokens behind them, as far as it looks. -/
def Nearsighted {α : Type} (x : Parser α) (c : Cursor) : Prop :=
  ∃ ts, c.Takes ts (stopOf (x c)) ∧ ∀ d d',
    Cursor.Repeats (lookOf (x c)) ts c (stopOf (x c)) d d' → x d = moveResult d' (x c)

namespace Nearsighted

variable {α β : Type} {x y : Parser α} {f : α → Parser β} {c c' : Cursor}

/-- What does the same as a nearsighted parser before the same token. -/
theorem congr (hxy : ∀ d : Cursor, d.previous = c.previous → d.rest.head? = c.rest.head? →
    x d = y d) (h : Nearsighted y c) : Nearsighted x c := by
  obtain ⟨ts, hts, hagain⟩ := h
  have heq : x c = y c := hxy c rfl rfl
  refine ⟨ts, heq ▸ hts, fun d d' hd => ?_⟩
  rw [heq] at hd ⊢
  rw [hxy d hd.previous (hd.head? (one_le_lookOf _)), hagain d d' hd]

/-- What gives a value or fails where it stands. -/
theorem stay (hstop : stopOf (x c) = c)
    (h : ∀ d : Cursor, d.previous = c.previous →
      d.rest.take (lookOf (x c)) = c.rest.take (lookOf (x c)) → x d = moveResult d (x c)) :
    Nearsighted x c := by
  refine ⟨[], hstop.symm ▸ .nil c, fun d d' hd => ?_⟩
  obtain rfl := hd.again.eq_of_nil
  exact h d' hd.previous hd.take_rest

theorem pure (a : α) : Nearsighted (Pure.pure a) c := stay rfl fun _ _ _ => rfl

theorem throw (e : SyntaxError) : Nearsighted (throw e : Parser α) c := stay rfl fun _ _ _ => rfl

/-- A violation shows the next token. -/
theorem unexpected (expected : String) : Nearsighted (unexpected (α := α) expected) c := by
  refine stay rfl fun d _ hahead => ?_
  have hhead : d.rest.head? = c.rest.head? := Cursor.Repeats.head?_of_take hahead (one_le_lookOf _)
  show EStateM.Result.error (d.violation expected) d = .error (c.violation expected) d
  rw [Cursor.violation_congr hhead]

/-- Of a place, a node keeps where the token before it ends. -/
theorem finish_congr {c d : Cursor} (h : d.previous = c.previous) {form : Form} {start : Position}
    {children : List Node} :
    Parser.finish form start children d =
      .ok (Node.build form ⟨start, c.lastEnd⟩ children) d := by
  show EStateM.Result.ok (Node.build form ⟨start, d.lastEnd⟩ children) d = _
  rw [Cursor.lastEnd, h, Cursor.lastEnd]

theorem finish {form : Form} {start : Position} {children : List Node} :
    Nearsighted (Parser.finish form start children) c :=
  stay rfl fun _ hprevious _ => finish_congr hprevious

/-- To take a token one has to see just that token. -/
theorem advance {t : Token} (ht : c.rest.head? = some t) : Nearsighted Parser.advance c := by
  refine ⟨[t], .single ht, fun d d' hd => ?_⟩
  rw [hd.again.eq_advance]
  rfl

/-- A run behind a run. -/
theorem bind (hx : Nearsighted x c) (hf : ∀ a m, x c = .ok a m → Nearsighted (f a) m) :
    Nearsighted (x >>= f) c := by
  obtain ⟨ts, hts, hagain⟩ := hx
  have hbind (d : Cursor) : (x >>= f) d = EStateM.bind x f d := rfl
  cases hresult : x c with
  | error e m =>
    have hrun : (x >>= f) c = .error e m := by
      rw [hbind, EStateM.bind, hresult]
    rw [hresult] at hts hagain
    refine ⟨ts, hrun ▸ hts, fun d d' hd => ?_⟩
    rw [hrun] at hd ⊢
    rw [hbind, EStateM.bind, hagain d d' hd]
    rfl
  | ok a m =>
    obtain ⟨us, hus, hnext⟩ := hf a m hresult
    have hrun : (x >>= f) c = f a m := by
      rw [hbind, EStateM.bind, hresult]
    rw [hresult] at hts hagain
    refine ⟨ts ++ us, hrun ▸ hts.append hus, fun d d' hd => ?_⟩
    rw [hrun] at hd ⊢
    obtain ⟨m', hfirst, hsecond⟩ := hd.split hts hus (.inl (one_le_lookOf _))
    rw [hbind, EStateM.bind, hagain d m' hfirst]
    exact hnext m' d' hsecond

end Nearsighted

/-! ## Productions -/

namespace Nearsighted

variable {α : Type} {c : Cursor}

/-- The end of a statement is seen from the next token and the last one. -/
theorem terminator : Nearsighted Parser.terminator c := by
  by_cases hkind : c.kind? = some (.punctuator .semicolon)
  · obtain ⟨t, ht, -⟩ := Cursor.exists_token hkind
    refine congr (y := Parser.advance) (fun d _ hhead => ?_) (advance ht)
    rw [terminator_eq, if_pos (Cursor.kind?_congr hhead ▸ hkind)]
    rfl
  · by_cases himplied : c.impliesTerminator = true
    · refine congr (fun d hprevious hhead => ?_) (pure ())
      rw [terminator_eq, Cursor.kind?_congr hhead, if_neg hkind,
        Cursor.impliesTerminator_congr hprevious hhead, if_pos himplied]
      rfl
    · refine congr (fun d hprevious hhead => ?_) (unexpected "';'")
      rw [terminator_eq, Cursor.kind?_congr hhead, if_neg hkind,
        Cursor.impliesTerminator_congr hprevious hhead, if_neg himplied]
      rfl

/-- A choice by whether a line ends before the next token. -/
theorem lineTest {a : α} {x : Parser α} (h : c.newlineBefore = false → Nearsighted x c) :
    Nearsighted (newlineBefore >>= fun b => if b = true then Pure.pure a else x) c := by
  cases hnewline : c.newlineBefore with
  | true =>
    refine congr (fun d hprevious hhead => ?_) (pure a)
    rw [newlineBefore_bind, Cursor.newlineBefore_congr hprevious hhead, hnewline, if_pos rfl]
  | false =>
    refine congr (fun d hprevious hhead => ?_) (h hnewline)
    rw [newlineBefore_bind, Cursor.newlineBefore_congr hprevious hhead, hnewline,
      if_neg Bool.false_ne_true]

/-- A loop is nearsighted if its rounds are. The induction is on the tokens ahead, of which each
round that goes on takes one. -/
theorem collect {item : Parser (Option α)} (hitem : Collecting item)
    (h : ∀ c, Nearsighted item c) (c : Cursor) : Nearsighted (Parser.collect item) c := by
  induction hlength : c.rest.length using Nat.strongRecOn generalizing c with
  | ind length ih =>
    rw [hitem.unroll]
    refine (h c).bind fun a? m hround => ?_
    cases a? with
    | none => exact pure []
    | some a =>
      have hless : m.rest.length < length := hlength ▸ hitem.consumes c a m hround
      exact (ih _ hless m rfl).bind fun others _ _ => pure (a :: others)

/-- A chain of nearsighted steps is nearsighted, since each step takes a token. -/
theorem chain {step : α → Parser (Option α)} {r : α → Prop} (hstep : Extends r step)
    (h : ∀ a, r a → ∀ c, Nearsighted (step a) c) {a : α} (ha : r a) (c : Cursor) :
    Nearsighted (Parser.chain step a) c := by
  induction hlength : c.rest.length using Nat.strongRecOn generalizing a c with
  | ind length ih =>
    rw [hstep.chain_eq ha]
    refine (h a ha c).bind fun b? m hrun => ?_
    cases b? with
    | none => exact pure a
    | some b =>
      obtain ⟨hb, hless⟩ := hstep a ha c b m hrun
      exact ih _ (hlength ▸ hless) hb m rfl

/-- `default` and its colon are looked at together, so a failure has seen two tokens. -/
theorem defaultLabel (a : α) (expected : String) :
    Nearsighted (Grammar.defaultLabel >>= fun b =>
      if b = true then Pure.pure a else Parser.unexpected expected) c := by
  by_cases hkinds : c.kind? = some (.keyword .defaultKw) ∧
      c.advance.kind? = some (.punctuator .colon)
  · obtain ⟨t, ht, htkind⟩ := Cursor.exists_token hkinds.1
    obtain ⟨u, hu, hukind⟩ := Cursor.exists_token hkinds.2
    refine ⟨[t, u], ?_, fun d d' hd => ?_⟩
    · rw [defaultLabel_bind, if_pos hkinds]
      exact .cons ht (.single hu)
    · have hrest : d.rest = t :: u :: d'.rest := hd.again.rest
      have hprevious : d'.previous = some u := hd.again.previous
      have hadvance : d.advance = ⟨some t, u :: d'.rest⟩ := by rw [Cursor.advance, hrest]
      have hdkinds : d.kind? = some (.keyword .defaultKw) ∧
          d.advance.kind? = some (.punctuator .colon) := by
        rw [hadvance, Cursor.kind?, hrest]
        exact ⟨congrArg some htkind, congrArg some hukind⟩
      rw [defaultLabel_bind, defaultLabel_bind, if_pos hkinds, if_pos hdkinds, hadvance]
      show EStateM.Result.ok a ⟨some u, d'.rest⟩ = .ok a d'
      rw [← hprevious]
  · have hrun {d : Cursor} (hd : ¬ (d.kind? = some (.keyword .defaultKw) ∧
        d.advance.kind? = some (.punctuator .colon))) :
        (Grammar.defaultLabel >>= fun b => if b = true then Pure.pure a
          else Parser.unexpected expected) d = .error (d.violation expected) d := by
      rw [defaultLabel_bind, if_neg hd]
      rfl
    refine stay (by rw [hrun hkinds]; rfl) fun d _ hahead => ?_
    rw [hrun hkinds] at hahead ⊢
    have htake : d.rest.take 2 = c.rest.take 2 := hahead
    have hhead : d.rest.head? = c.rest.head? := Cursor.Repeats.head?_of_take htake (by decide)
    rw [hrun (by rwa [Cursor.kind?_congr hhead, Cursor.kind?_advance_congr htake]),
      Cursor.violation_congr hhead]
    rfl

end Nearsighted

/-- Productions are nearsighted. -/
theorem Uniform.nearsighted {α : Type} {s : Option Token} {takes free : Bool} {r : α → α → Prop}
    {x : Unit → Parser α} (h : Uniform .alone s takes free r x) :
    ∀ {c : Cursor}, c.sight = s → Nearsighted (x ()) c := by
  induction h with
  | congr hxy _ ih =>
    intro c hs
    refine .congr (fun d hprevious hhead => ?_) (ih hs)
    exact hxy () d (.inl (Cursor.sight_congr hhead ▸ hs))
  | weaken _ _ _ _ ih =>
    intro c hs
    exact ih hs
  | pure _ =>
    intro c hs
    exact .pure _
  | bind hx _ _ ih ihf =>
    intro c hs
    refine (ih hs).bind fun a m hrun => ?_
    have honward := hx.onward hs
    rw [hrun] at honward
    exact ihf (fun _ => a) (.alone honward.1) _ rfl
  | unexpected =>
    intro c hs
    exact .unexpected _
  | throw _ =>
    intro c hs
    exact .throw _
  | here _ _ ih =>
    intro c hs
    refine .congr (fun d hprevious hhead => ?_) (ih (fun _ => c.here) (fun _ _ _ => rfl) hs)
    beta_reduce
    rw [here_bind, Cursor.here_congr hprevious hhead]
  | finish hform hstart hchildren =>
    intro c hs
    exact .finish
  | advance =>
    intro c hs
    obtain ⟨u, hu⟩ := Cursor.exists_head hs
    exact .advance hu
  | terminated hx _ ih ihf =>
    intro c hs
    refine (ih hs).bind fun a m hrun => ?_
    have honward := hx.onward hs
    rw [hrun] at honward
    exact Nearsighted.terminator.bind fun _ m' _ => ihf (fun _ => a) (.alone honward.1) _ rfl
  | beforeUpdate _ _ _ _ ih =>
    intro c hs
    exact .lineTest fun _ => ih hs
  | behindKeyword _ _ _ _ ih =>
    intro c hs
    obtain ⟨u, hu⟩ := Cursor.exists_head hs
    have hadvance : Nearsighted Parser.advance c := .advance hu
    exact hadvance.bind fun _ m _ => .lineTest fun _ => ih m.sight rfl
  | defaultLabel _ _ =>
    intro c hs
    exact .defaultLabel _ _
  | collect hitem ih =>
    intro c hs
    exact .collect (.of_consumes (.of_uniform hitem)) (fun c => ih c.sight rfl) c
  | chain hstep ha ih =>
    intro c hs
    refine .chain (.of_uniform fun a hr => hstep (fun _ => a) (.alone hr)) (fun a hr c => ?_)
      (ha () ()).1 c
    exact ih (fun _ => a) (.alone hr) c.sight rfl

/-! ## Calls -/

/-- A call of a new parser is nearsighted. -/
theorem Call.nearsighted (call : Call) {c : Cursor} (h : c.previous = none) :
    Nearsighted call.parser c := by
  have hg := nested_alone maxNesting
  cases call with
  | program =>
    refine .congr (fun d hprevious _ => programOf_eq outermost (hprevious.trans h)) ?_
    exact (programFrom_uniform hg c.sight).nearsighted rfl
  | expression allowIn => exact (expression_uniform hg allowIn c.sight).nearsighted rfl

/-- A run that is moved gives the same and stops elsewhere. -/
theorem Parser.run_eq {α : Type} {x : Parser α} {c d d' : Cursor} (h : x d = moveResult d' (x c)) :
    x.run d = ((x.run c).1, d') := by
  rw [Parser.run, h, Parser.run]
  cases x c <;> rfl

/-- A call that stops at an index gives the same for all tokens that start with those before the
index and the two behind it. -/
theorem Call.run_of_take (call : Call) (tokens : List Token) :
    ∃ k ≤ tokens.length, (call.parser.run (.atIndex tokens 0)).2 = .atIndex tokens k ∧
      ∀ others : List Token, others.take (k + 2) = tokens.take (k + 2) →
        k ≤ others.length ∧ call.parser.run (.atIndex others 0) =
          ((call.parser.run (.atIndex tokens 0)).1, .atIndex others k) := by
  have hrun : (call.parser.run (.atIndex tokens 0)).2 =
      stopOf (call.parser (.atIndex tokens 0)) := by
    rw [Parser.run]
    cases call.parser (.atIndex tokens 0) <;> rfl
  obtain ⟨ts, hts, hagain⟩ := call.nearsighted (c := .atIndex tokens 0) rfl
  obtain ⟨hlength, hstop⟩ := hts.eq_atIndex (Nat.zero_le _)
  rw [Nat.zero_add] at hlength hstop
  refine ⟨ts.length, hlength, hrun.trans hstop, fun others hothers => ?_⟩
  have htokens : tokens = ts ++ tokens.drop ts.length := by
    have hrest : tokens = ts ++ (stopOf (call.parser (.atIndex tokens 0))).rest := hts.rest
    rwa [hstop, Cursor.rest_atIndex] at hrest
  have htaken : others.take ts.length = ts := by
    have htake := congrArg (List.take ts.length) hothers
    rw [List.take_take, List.take_take, Nat.min_eq_left (Nat.le_add_right ..)] at htake
    rw [htake, htokens, List.take_left]
  have hahead : (others.drop ts.length).take 2 = (tokens.drop ts.length).take 2 := by
    have hdrop := congrArg (List.drop ts.length) hothers
    rwa [List.drop_take, List.drop_take, Nat.add_sub_cancel_left] at hdrop
  have hmoved :
      (Cursor.atIndex others 0).Takes ts ⟨ts.getLast?.or none, others.drop ts.length⟩ := by
    refine ⟨?_, rfl⟩
    show others = ts ++ others.drop ts.length
    calc others = others.take ts.length ++ others.drop ts.length := (List.take_append_drop ..).symm
      _ = ts ++ others.drop ts.length := by rw [htaken]
  obtain ⟨hindex, hcursor⟩ := hmoved.eq_atIndex (Nat.zero_le _)
  rw [Nat.zero_add] at hindex hcursor
  refine ⟨hindex, Parser.run_eq (hagain _ _ ⟨hts, hcursor ▸ hmoved, rfl, ?_⟩)⟩
  have hlook := congrArg (List.take (lookOf (call.parser (.atIndex tokens 0)))) hahead
  rw [List.take_take, List.take_take, Nat.min_eq_left (lookOf_le_two _)] at hlook
  rwa [hstop, Cursor.rest_atIndex, Cursor.rest_atIndex]

end ScriptLint
