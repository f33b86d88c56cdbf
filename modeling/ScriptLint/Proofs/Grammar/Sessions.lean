import ScriptLint.Proofs.Grammar.Layout
import ScriptLint.Proofs.Grammar.Progress

/-!
# Calls in turn

A parser can be asked again after it has answered, also after a failure, and goes on where it
stopped. What it has in memory between two calls is an index into its tokens and nothing else: no
nesting level is open, and the answer to the next call is that of a new parser of the tokens that
are left (`parser_between_calls`).

The token before the index could matter, since a cursor knows it. It does not, because a production
takes a token before it looks back (`Uniform.unaffected`). Only a program without tokens looks back
to where it ends.
-/

namespace ScriptLint

open ScriptLint.Parser ScriptLint.Grammar

/-! ## What is behind does not matter -/

/-- The place behind the next token does not show what is before that token. -/
theorem Cursor.advance_congr {c d : Cursor} (hrest : c.rest = d.rest) (hne : c.rest ≠ []) :
    c.advance = d.advance := by
  obtain ⟨t, rest, hcons⟩ := List.exists_cons_of_ne_nil hne
  rw [advance, advance, ← hrest, hcons]

/-- Two runs come to the same. If they fail, they may have stopped where they began. -/
def SameOutcome {α : Type} :
    EStateM.Result SyntaxError Cursor α → EStateM.Result SyntaxError Cursor α → Prop
  | .ok a c, .ok b d => a = b ∧ c = d
  | .error e c, .error f d => e = f ∧ c.rest = d.rest
  | _, _ => False

namespace SameOutcome

variable {α β : Type} {c d : Cursor}

theorem refl (result : EStateM.Result SyntaxError Cursor α) : SameOutcome result result := by
  cases result <;> exact ⟨rfl, rfl⟩

/-- Runs that come to the same go on in the same way. -/
theorem bind {x : Parser α} {f : α → Parser β} (h : SameOutcome (x c) (x d)) :
    SameOutcome ((x >>= f) c) ((x >>= f) d) := by
  show SameOutcome (EStateM.bind x f c) (EStateM.bind x f d)
  unfold EStateM.bind
  revert h
  cases x c with
  | ok a c' =>
    cases x d with
    | ok b d' =>
      rintro ⟨rfl, rfl⟩
      exact .refl (f a c')
    | error f d' => exact False.elim
  | error e c' =>
    cases x d with
    | ok b d' => exact False.elim
    | error f d' => exact id

theorem unexpected {expected : String} (hrest : c.rest = d.rest) :
    SameOutcome (unexpected (α := α) expected c) (unexpected expected d) := by
  refine ⟨?_, hrest⟩
  rw [HasCursor.cursor_eq, HasCursor.cursor_eq, Cursor.violation, Cursor.violation, hrest]

theorem collect {item : Parser (Option α)} (h : SameOutcome (item c) (item d))
    (hrest : c.rest = d.rest) : SameOutcome (collect item c) (collect item d) := by
  show SameOutcome (collectWithin item c.rest c) (collectWithin item d.rest d)
  rw [← hrest, collectWithin.eq_def]
  exact h.bind

/-- The results of runs that come to the same. -/
theorem run {x : Parser α} (h : SameOutcome (x c) (x d)) :
    (x.run c).1 = (x.run d).1 ∧ (x.run c).2.rest = (x.run d).2.rest := by
  rw [Parser.run, Parser.run]
  revert h
  cases x c with
  | ok a c' =>
    cases x d with
    | ok b d' =>
      rintro ⟨rfl, rfl⟩
      exact ⟨rfl, rfl⟩
    | error f d' => exact False.elim
  | error e c' =>
    cases x d with
    | ok b d' => exact False.elim
    | error f d' =>
      rintro ⟨rfl, hrest⟩
      exact ⟨rfl, hrest⟩

end SameOutcome

/-- A production that takes a token does not depend on what is behind it. -/
theorem Uniform.unaffected {α : Type} {s : Option Token} {takes free : Bool} {r : α → α → Prop}
    {x : Unit → Parser α} (h : Uniform .alone s takes free r x) :
    ∀ {c d : Cursor}, takes = true → c.sight = s → c.rest = d.rest → c.rest ≠ [] →
      SameOutcome (x () c) (x () d) := by
  induction h with
  | congr hxy _ ih =>
    intro c d htakes hs hrest hne
    have hs' : d.sight = _ := (congrArg (·.head?.map Token.unlocated) hrest).symm.trans hs
    rw [hxy () c (.inl hs), hxy () d (.inl hs')]
    exact ih htakes hs hrest hne
  | weaken _ htakes' _ _ ih =>
    intro c d htakes hs hrest hne
    exact ih (htakes' htakes) hs hrest hne
  | bind _ _ _ ih _ =>
    intro c d htakes hs hrest hne
    exact (ih htakes hs hrest hne).bind
  | unexpected =>
    intro c d htakes hs hrest hne
    exact .unexpected hrest
  | throw _ =>
    intro c d htakes hs hrest hne
    exact ⟨rfl, hrest⟩
  | here _ _ ih =>
    intro c d htakes hs hrest hne
    obtain ⟨t, rest, hcons⟩ := List.exists_cons_of_ne_nil hne
    have hhere : c.here = d.here := by
      rw [Cursor.here, Cursor.here, ← hrest, hcons]
      rfl
    beta_reduce
    rw [here_bind, here_bind, hhere]
    exact ih (fun _ => d.here) (fun _ _ _ => rfl) htakes hs hrest hne
  | advance =>
    intro c d htakes hs hrest hne
    exact ⟨rfl, Cursor.advance_congr hrest hne⟩
  | terminated _ _ ih _ =>
    intro c d htakes hs hrest hne
    exact (ih htakes hs hrest hne).bind
  | behindKeyword _ _ _ _ _ =>
    intro c d htakes hs hrest hne
    beta_reduce
    rw [advance_bind, advance_bind, Cursor.advance_congr hrest hne]
    exact .refl _
  | defaultLabel _ _ =>
    intro c d htakes hs hrest hne
    have hkind : c.kind? = d.kind? := by rw [Cursor.kind?, Cursor.kind?, hrest]
    beta_reduce
    rw [Grammar.defaultLabel_bind, Grammar.defaultLabel_bind, Cursor.advance_congr hrest hne, hkind]
    split
    · exact .refl _
    · exact .unexpected hrest
  | collect _ ih =>
    intro c d htakes hs hrest hne
    exact (ih _ htakes hs hrest hne).collect hrest
  | pure | finish | beforeUpdate | chain =>
    intro c d htakes
    cases htakes

/-! ## Indices -/

namespace Cursor

variable {tokens : List Token} {i : Nat} {c' : Cursor}

/-- Tokens that are taken move an index by their number. -/
theorem Takes.eq_atIndex {ts : List Token} (h : (atIndex tokens i).Takes ts c')
    (hi : i ≤ tokens.length) :
    i + ts.length ≤ tokens.length ∧ c' = atIndex tokens (i + ts.length) := by
  have hdrop : tokens.drop i = ts ++ c'.rest := rest_atIndex.symm.trans h.rest
  have hlength := congrArg List.length hdrop
  rw [List.length_drop, List.length_append] at hlength
  refine ⟨by omega, ?_⟩
  have hrest : c'.rest = tokens.drop (i + ts.length) := by
    rw [← List.drop_drop, hdrop, List.drop_left]
  have hprevious := h.previous
  obtain ⟨previous, rest⟩ := c'
  subst hrest hprevious
  obtain rfl | ⟨us, t, rfl⟩ := List.eq_nil_or_concat ts
  · exact congrArg (Cursor.mk _) rest_atIndex.symm
  · have hlast : tokens[i + us.length]? = some t := by
      rw [← List.getElem?_drop, hdrop]
      simp
    rw [List.length_concat, ← Nat.add_assoc, atIndex, hlast, List.concat_eq_append,
      List.getLast?_concat]
    rfl

end Cursor

/-! ## Calls -/

/-- A parser that has not been asked yet. -/
def Gauge.ofTokens (tokens : List Token) : Gauge := ⟨.ofTokens tokens, 0, 0⟩

/-- The answer to a call and the state it leaves behind, whether it succeeds or fails. -/
def Call.run (call : Call) (s : Gauge) : Except SyntaxError Node × Gauge :=
  match call.counting s with
  | .ok n s => (.ok n, s)
  | .error e s => (.error e, s)

/-- The state after calls in turn. -/
def Gauge.after (s : Gauge) (calls : List Call) : Gauge :=
  calls.foldl (fun s call => (call.run s).2) s

/-- The state of a parser between two calls, where `i` of its tokens are behind it. -/
structure Gauge.Between (tokens : List Token) (i : Nat) (s : Gauge) : Prop where
  depth : s.depth = 0
  peak : s.peak ≤ Grammar.maxNesting
  index : i ≤ tokens.length
  cursor : s.cursor = .atIndex tokens i
  lastEnd_zero : i = 0 → s.cursor.lastEnd = .origin
  lastEnd_pos (t : Token) : i ≠ 0 → tokens[i - 1]? = some t → s.cursor.lastEnd = t.span.stop

namespace Gauge.Between

variable {tokens : List Token} {i peak : Nat} {s : Gauge}

theorem atIndex (hpeak : peak ≤ Grammar.maxNesting) (hi : i ≤ tokens.length) :
    Gauge.Between tokens i ⟨.atIndex tokens i, 0, peak⟩ where
  depth := rfl
  peak := hpeak
  index := hi
  cursor := rfl
  lastEnd_zero h := by rw [h]; rfl
  lastEnd_pos t h ht := by
    obtain ⟨i, rfl⟩ := Nat.exists_eq_add_one_of_ne_zero h
    rw [Nat.add_sub_cancel] at ht
    rw [Cursor.lastEnd, Cursor.atIndex, ht]
    rfl

/-- A parser is between calls before the first one. -/
theorem ofTokens (tokens : List Token) :
    Gauge.Between (significant tokens) 0 (.ofTokens tokens) :=
  atIndex (Nat.zero_le _) (Nat.zero_le _)

/-- A call moves the index and gives what the grammar gives at its place. -/
theorem run (h : s.Between tokens i) (call : Call) :
    ∃ count, (call.run s).2.Between tokens (i + count) ∧
      (call.run s).1 = (call.parser.run (.atIndex tokens i)).1 ∧
      (call.run s).2.cursor = (call.parser.run (.atIndex tokens i)).2 := by
  obtain ⟨cursor, depth, peak⟩ := s
  obtain ⟨rfl, hpeak, hi, rfl, -, -⟩ := h
  obtain ⟨peak', hpeak', hrun⟩ := call.counting_mirrors _ peak hpeak
  have honward := call.onward (.atIndex tokens i)
  rw [Call.run, hrun, Parser.run]
  revert honward
  cases call.parser (.atIndex tokens i) with
  | ok n c' =>
    rintro ⟨-, ts, hts, -⟩
    obtain ⟨hcount, rfl⟩ := hts.eq_atIndex hi
    exact ⟨ts.length, atIndex hpeak' hcount, rfl, rfl⟩
  | error e c' =>
    rintro ⟨ts, hts⟩
    obtain ⟨hcount, rfl⟩ := hts.eq_atIndex hi
    exact ⟨ts.length, atIndex hpeak' hcount, rfl, rfl⟩

/-- Any number of calls leave a parser between calls. -/
theorem after (h : s.Between tokens i) (calls : List Call) :
    ∃ j, i ≤ j ∧ (s.after calls).Between tokens j := by
  induction calls generalizing s i with
  | nil => exact ⟨i, Nat.le_refl i, h⟩
  | cons call calls ih =>
    obtain ⟨count, hrun, -⟩ := h.run call
    obtain ⟨j, hj, hafter⟩ := ih hrun
    exact ⟨j, by omega, hafter⟩

end Gauge.Between

/-! ## A new parser of the tokens that are left -/

/-- The tokens that are left take part in the grammar. -/
theorem significant_drop (tokens : List Token) (i : Nat) :
    significant ((significant tokens).drop i) = (significant tokens).drop i :=
  List.filter_eq_self.2 fun _ ht => (List.mem_filter.1 (List.mem_of_mem_drop ht)).2

/-- Before a token a call does not depend on what is behind. -/
theorem Call.unaffected (call : Call) {c d : Cursor} (hrest : c.rest = d.rest) (hne : c.rest ≠ []) :
    SameOutcome (call.parser c) (call.parser d) := by
  have hg := nested_alone maxNesting
  have hsome : c.sight.isSome = true := by
    obtain ⟨t, rest, hcons⟩ := List.exists_cons_of_ne_nil hne
    rw [Cursor.sight, hcons]
    rfl
  cases call with
  | program =>
    show SameOutcome (programOf outermost c) (programOf outermost d)
    rw [programOf_eq_of_ne_nil _ hne, programOf_eq_of_ne_nil _ (hrest ▸ hne)]
    exact (programFrom_uniform hg c.sight).unaffected hsome rfl hrest hne
  | expression allowIn =>
    exact (expression_uniform hg allowIn c.sight).unaffected rfl rfl hrest hne

/-- At the end of the tokens there is no expression. -/
theorem topExpression_atEnd {c : Cursor} (allowIn : Bool) (h : c.rest = []) :
    Grammar.topExpression allowIn c = .error (.unexpectedEnd "expression") c := by
  obtain ⟨previous, rest⟩ := c
  cases h
  rfl

/-- At the end of the tokens there is a program without statements, which ends where the last token
ends. -/
theorem program_atEnd {c : Cursor} (h : c.rest = []) :
    Grammar.program c = .ok (.build .program ⟨.origin, c.lastEnd⟩ []) c := by
  obtain ⟨previous, rest⟩ := c
  cases h
  have hbody : collect (Grammar.programMember Grammar.outermost) ⟨previous, []⟩ =
      .ok [] ⟨previous, []⟩ := by
    show collectWithin _ [] _ = _
    rw [collectWithin]
    rfl
  show EStateM.bind (collect _) _ _ = _
  unfold EStateM.bind
  rw [hbody]
  rfl

/-- A call gives the same wherever the same tokens are ahead, but for the program without tokens. -/
theorem Call.run_congr (call : Call) {c d : Cursor} (hrest : c.rest = d.rest) :
    (call.parser.run c).2.rest = (call.parser.run d).2.rest ∧
      (call.parser.run c).1 = if call = .program ∧ c.rest = []
        then .ok (.build .program ⟨.origin, c.lastEnd⟩ []) else (call.parser.run d).1 := by
  by_cases hnil : c.rest = []
  · cases call with
    | program =>
      rw [Call.parser, Parser.run, Parser.run, program_atEnd hnil, program_atEnd (hrest ▸ hnil),
        if_pos ⟨rfl, hnil⟩]
      exact ⟨hrest, rfl⟩
    | expression allowIn =>
      rw [Call.parser, Parser.run, Parser.run, topExpression_atEnd allowIn hnil,
        topExpression_atEnd allowIn (hrest ▸ hnil), if_neg (by simp)]
      exact ⟨hrest, rfl⟩
  · obtain ⟨hresult, hstop⟩ := (call.unaffected hrest hnil).run
    rw [if_neg fun h => hnil h.2]
    exact ⟨hstop, hresult⟩

/-- Between calls a parser has only its index in memory. After any calls, also ones that failed, no
nesting level is open, the parser stands at an index of its tokens, and it knows the end of the
token before. The next call moves the index on and gives what it gives to a new parser of the tokens
that are left, except that a program without tokens ends where the last token ends. -/
theorem parser_between_calls (tokens : List Token) (calls : List Call) (call : Call) :
    let s := (Gauge.ofTokens tokens).after calls
    ∃ i count, s.Between (significant tokens) i ∧
      (call.run s).2.Between (significant tokens) (i + count) ∧
      let fresh := call.run (.ofTokens ((significant tokens).drop i))
      fresh.2.Between ((significant tokens).drop i) count ∧
      (call.run s).1 = if call = .program ∧ i = (significant tokens).length
        then .ok (.build .program ⟨.origin, s.cursor.lastEnd⟩ []) else fresh.1 := by
  intro s
  obtain ⟨i, -, hs⟩ : ∃ i, 0 ≤ i ∧ s.Between (significant tokens) i :=
    (Gauge.Between.ofTokens tokens).after calls
  have hfresh := Gauge.Between.ofTokens ((significant tokens).drop i)
  rw [significant_drop] at hfresh
  obtain ⟨count, hrun, hresult, hcursor⟩ := hs.run call
  obtain ⟨count', hrun', hresult', hcursor'⟩ := hfresh.run call
  obtain ⟨hstop, hsame⟩ := call.run_congr (c := .atIndex (significant tokens) i)
    (d := .atIndex ((significant tokens).drop i) 0) Cursor.rest_atIndex
  -- both parsers stop before the same tokens, so they have taken equally many
  have hcount : count' = count := by
    have hlength := congrArg List.length hstop
    rw [← hcursor, ← hcursor', hrun.cursor, hrun'.cursor, Cursor.rest_atIndex, Cursor.rest_atIndex,
      List.length_drop, List.length_drop, List.length_drop] at hlength
    have hindex := hrun.index
    have hindex' := hrun'.index
    rw [List.length_drop] at hindex'
    omega
  have hend :
      (Cursor.atIndex (significant tokens) i).rest = [] ↔ i = (significant tokens).length := by
    rw [Cursor.rest_atIndex, List.drop_eq_nil_iff]
    exact ⟨Nat.le_antisymm hs.index, Nat.le_of_eq ∘ Eq.symm⟩
  rw [Nat.zero_add, hcount] at hrun'
  refine ⟨i, count, hs, hrun, hrun', ?_⟩
  rw [hresult, hsame, hresult', hs.cursor]
  simp only [hend]

end ScriptLint
