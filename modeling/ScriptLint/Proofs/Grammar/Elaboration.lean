import ScriptLint.Proofs.Grammar.StatementUniform
import ScriptLint.Proofs.Grammar.Yield

/-!
# Semicolons that are left out

A `;` may be left out before a line break, before `}` and at the end of a script. This module shows
that such a script is short for one with each `;`. The two runs differ in the tokens that they see:
behind a statement the second one sees a `;` where the first one sees the next token. `Follows` says
what a parser may see behind what it takes, and `Elaborated` carries both runs through the grammar,
by induction over the steps of a uniform family. `exists_terminators` is the result for scripts.

Where a `;` is left out is observed by forbidding it: `terminatorWithin` is the end of a statement
with a veto at some places, and a parser never tries another way after a veto.
-/

namespace ScriptLint

open ScriptLint.Parser

/-- The end of a statement, where a `;` may be left out at some places only. -/
def Parser.terminatorWithin (allowed : Cursor → Bool) : Parser Unit := fun c =>
  if c.kind? = some (.punctuator .semicolon) ∨ allowed c = true then terminator c
  else unexpected "';'" c

theorem Parser.terminatorWithin_eq_ok {allowed : Cursor → Bool} {c c' : Cursor} {u : Unit} :
    terminatorWithin allowed c = .ok u c' ↔
      (c.kind? = some (.punctuator .semicolon) ∧ c.advance = c') ∨
        (c.kind? ≠ some (.punctuator .semicolon) ∧ c.impliesTerminator = true ∧
          allowed c = true ∧ c = c') := by
  rw [terminatorWithin]
  by_cases h : c.kind? = some (.punctuator .semicolon)
  · simp [h, terminator_eq_ok]
  · by_cases hallowed : allowed c = true
    · simp [h, hallowed, terminator_eq_ok]
    · simp [h, hallowed, unexpected_ne_ok]

/-- `Supplies c points tokens c'` says that `tokens` are the tokens from `c` to `c'`, with a `;` put
in at each of the `points`, right behind the token before it. -/
inductive Supplies : Cursor → List Cursor → List Token → Cursor → Prop where
  | nil {c : Cursor} : Supplies c [] [] c
  | take {previous : Option Token} {t : Token} {rest tokens : List Token} {points : List Cursor}
      {c' : Cursor} :
      Supplies ⟨some t, rest⟩ points tokens c' →
      Supplies ⟨previous, t :: rest⟩ points (t :: tokens) c'
  | supply {previous : Option Token} {t : Token} {rest tokens : List Token}
      {points : List Cursor} {c' : Cursor} :
      Supplies ⟨some t, rest⟩ points tokens c' →
      Supplies ⟨previous, t :: rest⟩ (⟨some t, rest⟩ :: points)
        (t :: .semicolon t.span.stop :: tokens) c'

namespace Supplies

variable {c m c' : Cursor} {points points' : List Cursor} {tokens tokens' : List Token}

theorem append (h : Supplies c points tokens m) (h' : Supplies m points' tokens' c') :
    Supplies c (points ++ points') (tokens ++ tokens') c' := by
  induction h with
  | nil => exact h'
  | take _ ih => exact .take (ih h')
  | supply _ ih => exact .supply (ih h')

theorem of_nil (h : Supplies c points [] c') : points = [] ∧ c' = c := by
  cases h
  exact ⟨rfl, rfl⟩

/-- Where tokens are taken, the first of them is the next token. -/
theorem head?_eq (h : Supplies c points tokens c') (hne : tokens ≠ []) :
    tokens.head? = c.rest.head? := by
  cases h with
  | nil => exact absurd rfl hne
  | take => rfl
  | supply => rfl

theorem length_le (h : Supplies c points tokens c') : c'.rest.length ≤ c.rest.length := by
  induction h with
  | nil => exact Nat.le_refl _
  | take _ ih => exact Nat.le_succ_of_le ih
  | supply _ ih => exact Nat.le_succ_of_le ih

theorem length_lt (h : Supplies c points tokens c') (hne : tokens ≠ []) :
    c'.rest.length < c.rest.length := by
  cases h with
  | nil => exact absurd rfl hne
  | take h => exact Nat.lt_succ_of_le h.length_le
  | supply h => exact Nat.lt_succ_of_le h.length_le

/-- There is a token before a place that was reached by taking one. -/
theorem previous_isSome (h : Supplies c points tokens c') (hc : c.previous.isSome = true) :
    c'.previous.isSome = true := by
  induction h with
  | nil => exact hc
  | take _ ih => exact ih rfl
  | supply _ ih => exact ih rfl

theorem last_isSome (h : Supplies c points tokens c') (hne : tokens ≠ []) :
    c'.previous.isSome = true := by
  cases h with
  | nil => exact absurd rfl hne
  | take h => exact h.previous_isSome rfl
  | supply h => exact h.previous_isSome rfl

/-- A point is not behind the place that is reached. -/
theorem le_of_mem (h : Supplies c points tokens c') {p : Cursor} (hp : p ∈ points) :
    c'.rest.length ≤ p.rest.length := by
  induction h with
  | nil => cases hp
  | take _ ih => exact ih hp
  | supply h ih =>
    obtain rfl | hp := List.mem_cons.1 hp
    · exact h.length_le
    · exact ih hp

/-- A `;` is put in at the place that was reached, unless one has been put there. -/
theorem supplyLast (h : Supplies c points tokens c') (hne : tokens ≠ []) (hfresh : c' ∉ points) :
    Supplies c (points ++ [c']) (tokens ++ [.semicolon c'.lastEnd]) c' := by
  induction h with
  | nil => exact absurd rfl hne
  | @take _ t rest tokens points c' h ih =>
    by_cases hnil : tokens = []
    · subst hnil
      obtain ⟨rfl, rfl⟩ := h.of_nil
      exact .supply .nil
    · exact .take (ih hnil hfresh)
  | @supply _ t rest tokens points c' h ih =>
    by_cases hnil : tokens = []
    · subst hnil
      obtain ⟨rfl, rfl⟩ := h.of_nil
      exact absurd (List.mem_singleton.2 rfl) hfresh
    · exact .supply (ih hnil fun hmem => hfresh (List.mem_cons_of_mem _ hmem))

end Supplies

/-! ## Runs with and without the `;` -/

/-- Where the token before a place ends. -/
def Cursor.stop? (c : Cursor) : Option Position := c.previous.map fun t => t.span.stop

theorem Cursor.lastEnd_eq (c : Cursor) : c.lastEnd = c.stop?.getD .origin := rfl

theorem Cursor.here_eq {c d : Cursor} (hstop : d.stop? = c.stop?)
    (hhead : d.rest.head? = c.rest.head?) : d.here = c.here := by
  rw [here, here, hhead, d.lastEnd_eq, c.lastEnd_eq, hstop]

theorem Cursor.newlineBefore_eq (c : Cursor) :
    c.newlineBefore =
      (c.stop?.any fun p => c.rest.head?.any fun t => p.line < t.span.start.line) := by
  obtain ⟨_ | t, _ | ⟨u, rest⟩⟩ := c <;> simp [newlineBefore, stop?]

/-- The setting of runs that differ in where a `;` may be left out. -/
def Setting.elaboration : Setting (Cursor → Bool) := ⟨true, terminatorWithin⟩

/-- Where places matter, a family has one value. -/
theorem Setting.Consistent.exists_eq {α : Type} {r : α → α → Prop} {a : (Cursor → Bool) → α}
    (h : Setting.elaboration.Consistent r a) (allowed : Cursor → Bool) : ∃ b, a = fun _ => b :=
  ⟨a allowed, funext fun i => (h i allowed).2 rfl⟩

/-- Nothing may be left out. -/
def strict : Cursor → Bool := fun _ => false

/-- What may follow a place after `;` have been put in: the next token or, behind what is free, one
that was put in. -/
def Follows (free : Bool) (c : Cursor) (follow : List Token) : Prop :=
  follow.head? = c.rest.head? ∨
    (free = true ∧ follow.head? = some (.semicolon c.lastEnd))

/-- `Elaborated x free c a c' points tokens` says that the parsers `x` go from `c` to `c'` and give
`a` exactly if a `;` may be left out at the `points`, and that they do the same on `tokens`, where
these are put in and none is left out. -/
structure Elaborated {α : Type} (x : (Cursor → Bool) → Parser α) (free : Bool) (c : Cursor) (a : α)
    (c' : Cursor) (points : List Cursor) (tokens : List Token) : Prop where
  supplies : Supplies c points tokens c'
  fresh : free = true → c' ∉ points
  omits {allowed : Cursor → Bool} {b : α} {m : Cursor} :
    x allowed c = .ok b m ↔ (∀ p ∈ points, allowed p = true) ∧ a = b ∧ c' = m
  runs {d : Cursor} {follow : List Token} : d.stop? = c.stop? → d.rest = tokens ++ follow →
    Follows free c' follow →
    ∃ d' : Cursor, d'.stop? = c'.stop? ∧ d'.rest = follow ∧ x strict d = .ok a d'

namespace Elaborated

variable {α β : Type} {x y : (Cursor → Bool) → Parser α} {f : (Cursor → Bool) → α → Parser β}
variable {free free' : Bool} {c m c' d : Cursor} {a : α} {b : β} {points points' : List Cursor}
variable {tokens tokens' follow : List Token}

/-- A parser that takes nothing and gives what it gives at any place. -/
theorem of_pure (hx : ∀ allowed (d : Cursor), d.stop? = c.stop? → x allowed d = .ok a d) :
    Elaborated x free c a c [] [] where
  supplies := .nil
  fresh _ := List.not_mem_nil
  omits := by
    intro allowed b m
    rw [hx allowed c rfl]
    simp
  runs {d} _ hstop hrest _ := ⟨d, hstop, hrest, hx strict d hstop⟩

/-- What follows the first of two runs is what the second one takes, or what follows that. -/
theorem follows_append (h : Supplies m points' tokens' c') (hfollow : Follows free' c' follow)
    (hfree : free = true ∨ tokens' ≠ [] ∨ free' = false) :
    Follows free m (tokens' ++ follow) := by
  by_cases hnil : tokens' = []
  · subst hnil
    obtain ⟨rfl, rfl⟩ := h.of_nil
    obtain hsame | ⟨rfl, hput⟩ := hfollow
    · exact .inl hsame
    · exact .inr ⟨by simpa using hfree, hput⟩
  · refine .inl ?_
    rw [List.head?_append_of_ne_nil _ hnil, h.head?_eq hnil]

theorem bind (hx : Elaborated x free c a m points tokens)
    (hf : Elaborated (fun allowed => f allowed a) free' m b c' points' tokens')
    (hfree : free = true ∨ tokens' ≠ [] ∨ free' = false) :
    Elaborated (fun allowed => x allowed >>= f allowed) free' c b c' (points ++ points')
      (tokens ++ tokens') where
  supplies := hx.supplies.append hf.supplies
  fresh := by
    intro hfree' hmem
    obtain hmem | hmem := List.mem_append.1 hmem
    · by_cases hnil : tokens' = []
      · subst hnil
        obtain ⟨-, rfl⟩ := hf.supplies.of_nil
        exact hx.fresh (by simpa [hfree'] using hfree) hmem
      · exact absurd (hx.supplies.le_of_mem hmem) (Nat.not_le.2 (hf.supplies.length_lt hnil))
    · exact hf.fresh hfree' hmem
  omits := by
    intro allowed b' m'
    simp only [bind_eq_ok, hx.omits, List.mem_append]
    constructor
    · rintro ⟨_, _, ⟨hpoints, rfl, rfl⟩, h⟩
      obtain ⟨hpoints', hb, hm⟩ := hf.omits.1 h
      exact ⟨fun p hp => hp.elim (hpoints p) (hpoints' p), hb, hm⟩
    · rintro ⟨hpoints, hb, hm⟩
      exact ⟨a, m, ⟨fun p hp => hpoints p (.inl hp), rfl, rfl⟩,
        hf.omits.2 ⟨fun p hp => hpoints p (.inr hp), hb, hm⟩⟩
  runs := by
    intro d follow hstop hrest hfollow
    rw [List.append_assoc] at hrest
    obtain ⟨e, hstop', hrest', hrun⟩ :=
      hx.runs hstop hrest (follows_append hf.supplies hfollow hfree)
    obtain ⟨d', hstop'', hrest'', hrun'⟩ := hf.runs hstop' hrest' hfollow
    exact ⟨d', hstop'', hrest'', bind_eq_ok.2 ⟨a, e, hrun, hrun'⟩⟩

/-- The next token in the script with each `;`: the one without or, before what takes nothing and is
free, a `;` that was put in. -/
theorem head?_cases (h : Supplies c points tokens c') (hfollow : Follows free c' follow)
    (hrest : d.rest = tokens ++ follow) :
    d.rest.head? = c.rest.head? ∨
      (tokens = [] ∧ free = true ∧ d.sight = some (.semicolon .origin)) := by
  by_cases hnil : tokens = []
  · subst hnil
    obtain ⟨rfl, rfl⟩ := h.of_nil
    rw [List.nil_append] at hrest
    obtain hsame | ⟨hfree, hput⟩ := hfollow
    · exact .inl (hrest ▸ hsame)
    · refine .inr ⟨rfl, hfree, ?_⟩
      rw [Cursor.sight, hrest, hput]
      rfl
  · rw [hrest, List.head?_append_of_ne_nil _ hnil, h.head?_eq hnil]
    exact .inl rfl

theorem congr (h : Elaborated y free c a c' points tokens) {takes : Bool}
    (htakes : takes = true → tokens ≠ [])
    (hxy : ∀ allowed (d : Cursor), d.sight = c.sight ∨
      (takes = false ∧ free = true ∧ d.sight = some (.semicolon .origin)) →
      x allowed d = y allowed d) : Elaborated x free c a c' points tokens where
  supplies := h.supplies
  fresh := h.fresh
  omits := by
    intro allowed b m
    rw [hxy allowed c (.inl rfl)]
    exact h.omits
  runs := by
    intro d follow hstop hrest hfollow
    have hsight : d.sight = c.sight ∨
        (takes = false ∧ free = true ∧ d.sight = some (.semicolon .origin)) := by
      obtain hhead | ⟨hnil, hput⟩ := head?_cases h.supplies hfollow hrest
      · exact .inl (congrArg (Option.map Token.unlocated) hhead)
      · exact .inr ⟨Bool.eq_false_iff.2 fun htrue => htakes htrue hnil, hput⟩
    rw [hxy strict d hsight]
    exact h.runs hstop hrest hfollow

variable (free') in
theorem weaken (h : Elaborated x free c a c' points tokens) (hfree : free' = true → free = true) :
    Elaborated x free' c a c' points tokens where
  supplies := h.supplies
  fresh hfree' := h.fresh (hfree hfree')
  omits := h.omits
  runs hstop hrest hfollow :=
    h.runs hstop hrest (hfollow.imp id fun hput => ⟨hfree hput.1, hput.2⟩)

variable (free) in
/-- A parser that takes a token wherever it is next. -/
theorem of_token {t : Token} (hhead : c.rest.head? = some t)
    (hx : ∀ allowed (d : Cursor), d.rest.head? = some t → x allowed d = .ok a d.advance) :
    Elaborated x free c a c.advance [] [t] := by
  obtain ⟨previous, rest⟩ := c
  obtain ⟨tail, rfl⟩ := List.head?_eq_some_iff.1 hhead
  refine ⟨.take .nil, fun _ => List.not_mem_nil, ?_, ?_⟩
  · intro allowed b m
    rw [hx allowed _ hhead]
    simp
  · intro d follow _ hrest _
    have hadvance : d.advance = ⟨some t, follow⟩ := by
      rw [Cursor.advance, hrest]
      rfl
    refine ⟨d.advance, ?_, ?_, hx strict d (by rw [hrest]; rfl)⟩
    · rw [hadvance]
      rfl
    · rw [hadvance]

variable (free) in
/-- One token is taken. -/
theorem of_advance {t : Token} (hs : c.sight = some t) :
    ∃ u, Elaborated (fun _ => advance) free c () c.advance [] [u] := by
  obtain ⟨u, hu, -⟩ := Option.map_eq_some_iff.1 hs
  exact ⟨u, of_token free hu fun _ _ _ => rfl⟩

/-- A place is noted. -/
theorem here {f : (Cursor → Bool) → Position → Parser α}
    (h : Elaborated (fun allowed => f allowed c.here) free c a c' points tokens)
    (hne : tokens ≠ [] ∨ free = false) :
    Elaborated (fun allowed => Parser.here >>= f allowed) free c a c' points tokens where
  supplies := h.supplies
  fresh := h.fresh
  omits := h.omits
  runs := by
    intro d follow hstop hrest hfollow
    have hhead : d.rest.head? = c.rest.head? := by
      obtain hhead | ⟨hnil, hfree, -⟩ := head?_cases h.supplies hfollow hrest
      · exact hhead
      · simp [hnil, hfree] at hne
    show ∃ d' : Cursor, _ ∧ _ ∧ f strict d.here d = _
    rw [Cursor.here_eq hstop hhead]
    exact h.runs hstop hrest hfollow

section Newline

variable {a' : α}
variable (hsemicolon : ∀ allowed (d : Cursor), d.sight = some (.semicolon .origin) →
  x allowed d = .ok a' d)
include hsemicolon

/-- A line break ends what could go on. A `;` in its place ends it too. -/
theorem of_newline (hnewline : c.newlineBefore = true) :
    Elaborated (fun allowed => newlineBefore >>= fun b =>
      if b = true then Pure.pure a' else x allowed) true c a' c [] [] where
  supplies := .nil
  fresh _ := List.not_mem_nil
  omits := by
    intro allowed b m
    rw [newlineBefore_bind, hnewline, if_pos rfl, pure_eq_ok]
    simp
  runs := by
    intro d follow hstop hrest hfollow
    refine ⟨d, hstop, hrest, ?_⟩
    rw [newlineBefore_bind]
    cases hd : d.newlineBefore with
    | true => rfl
    | false =>
      obtain hhead | ⟨-, -, hput⟩ := head?_cases .nil hfollow hrest
      · rw [d.newlineBefore_eq, hstop, hhead, ← c.newlineBefore_eq, hnewline] at hd
        cases hd
      · exact hsemicolon strict d hput

/-- Without a line break the parser goes on. -/
theorem of_sameLine (hnewline : c.newlineBefore = false)
    (h : Elaborated x true c a c' points tokens) :
    Elaborated (fun allowed => newlineBefore >>= fun b =>
      if b = true then Pure.pure a' else x allowed) true c a c' points tokens where
  supplies := h.supplies
  fresh := h.fresh
  omits := by
    intro allowed b m
    rw [newlineBefore_bind, hnewline, if_neg Bool.false_ne_true]
    exact h.omits
  runs := by
    intro d follow hstop hrest hfollow
    obtain ⟨d', hstop', hrest', hrun⟩ := h.runs hstop hrest hfollow
    refine ⟨d', hstop', hrest', ?_⟩
    rw [newlineBefore_bind]
    cases hd : d.newlineBefore with
    | false => exact hrun
    | true =>
      obtain hhead | ⟨-, -, hput⟩ := head?_cases h.supplies hfollow hrest
      · rw [d.newlineBefore_eq, hstop, hhead, ← c.newlineBefore_eq, hnewline] at hd
        cases hd
      · rw [hsemicolon strict d hput] at hrun
        exact hrun

/-- A parser that only goes on without a line break. -/
theorem of_lineTest {Q : α → Prop} {allowed : Cursor → Bool} (ha : Q a')
    (hx : x allowed c = .ok a c' → Q a ∧ ∃ points tokens,
      Elaborated x true c a c' points tokens)
    (hrun : (newlineBefore >>= fun b => if b = true then Pure.pure a' else x allowed) c =
      .ok a c') :
    Q a ∧ ∃ points tokens, Elaborated (fun allowed => newlineBefore >>= fun b =>
      if b = true then Pure.pure a' else x allowed) true c a c' points tokens := by
  rw [newlineBefore_bind] at hrun
  cases hnewline : c.newlineBefore with
  | true =>
    rw [hnewline, if_pos rfl] at hrun
    obtain ⟨rfl, rfl⟩ := pure_eq_ok.1 hrun
    exact ⟨ha, [], [], of_newline hsemicolon hnewline⟩
  | false =>
    rw [hnewline, if_neg Bool.false_ne_true] at hrun
    obtain ⟨hb, points, tokens, h⟩ := hx hrun
    exact ⟨hb, points, tokens, of_sameLine hsemicolon hnewline h⟩

end Newline

/-- `default` and the colon behind it are taken together. -/
theorem of_defaultLabel {expected : String} {a' : α}
    (hrun : (Grammar.defaultLabel >>= fun b =>
      if b = true then Pure.pure a' else Parser.unexpected expected) c = .ok a c') :
    a = a' ∧ ∃ tokens, tokens ≠ [] ∧ Elaborated (fun _ => Grammar.defaultLabel >>= fun b =>
      if b = true then Pure.pure a' else Parser.unexpected expected) free c a c' [] tokens := by
  rw [Grammar.defaultLabel_bind] at hrun
  split at hrun
  · next hlabel =>
    obtain ⟨rfl, rfl⟩ := pure_eq_ok.1 hrun
    obtain ⟨previous, _ | ⟨t, _ | ⟨u, rest⟩⟩⟩ := c
    · cases hlabel.1
    · cases hlabel.2
    · refine ⟨rfl, [t, u], nofun, ⟨.take (.take .nil), fun _ => List.not_mem_nil, ?_, ?_⟩⟩
      · intro allowed b m
        rw [Grammar.defaultLabel_bind, if_pos hlabel, if_pos rfl, pure_eq_ok]
        simp [Cursor.advance]
      · intro d follow _ hrest _
        have hlabel' : d.kind? = some (.keyword .defaultKw) ∧
            d.advance.kind? = some (.punctuator .colon) := by
          simpa [Cursor.kind?, Cursor.advance, hrest] using hlabel
        refine ⟨d.advance.advance, ?_, ?_, ?_⟩
        · simp [Cursor.advance, hrest, Cursor.stop?]
        · simp [Cursor.advance, hrest]
        · rw [Grammar.defaultLabel_bind, if_pos hlabel', if_pos rfl]
          rfl
  · exact absurd hrun unexpected_ne_ok

variable (free) in
/-- A `;` that is there is taken. -/
theorem of_semicolon (hkind : c.kind? = some (.punctuator .semicolon)) :
    ∃ t, Elaborated (fun allowed => terminatorWithin allowed) free c () c.advance [] [t] := by
  obtain ⟨t, ht, hsemicolon⟩ := Option.map_eq_some_iff.1 hkind
  refine ⟨t, of_token free ht fun allowed d hd => terminatorWithin_eq_ok.2 (.inl ⟨?_, rfl⟩)⟩
  rw [Cursor.kind?, hd, Option.map_some, hsemicolon]

/-- A `;` that is left out is put in. -/
theorem of_implied (hx : Elaborated x true c a m points tokens) (hne : tokens ≠ [])
    (hkind : m.kind? ≠ some (.punctuator .semicolon)) (himplied : m.impliesTerminator = true) :
    Elaborated (fun allowed => x allowed >>= fun a => terminatorWithin allowed >>= fun _ =>
      Pure.pure a) false c a m (points ++ [m]) (tokens ++ [.semicolon m.lastEnd]) where
  supplies := hx.supplies.supplyLast hne (hx.fresh rfl)
  fresh := nofun
  omits := by
    intro allowed b m'
    simp only [bind_eq_ok, hx.omits, terminatorWithin_eq_ok, pure_eq_ok, List.mem_append,
      List.mem_singleton]
    constructor
    · rintro ⟨_, _, ⟨hpoints, rfl, rfl⟩, _, _, h, rfl, rfl⟩
      obtain ⟨h, -⟩ | ⟨-, -, hallowed, rfl⟩ := h
      · exact absurd h hkind
      · refine ⟨?_, rfl, rfl⟩
        rintro p (hp | rfl)
        · exact hpoints p hp
        · exact hallowed
    · rintro ⟨hpoints, rfl, rfl⟩
      exact ⟨a, m, ⟨fun p hp => hpoints p (.inl hp), rfl, rfl⟩, (), m,
        .inr ⟨hkind, himplied, hpoints m (.inr rfl), rfl⟩, rfl, rfl⟩
  runs := by
    intro d follow hstop hrest _
    rw [List.append_assoc] at hrest
    obtain ⟨e, _, hrest', hrun⟩ := hx.runs hstop hrest (.inr ⟨rfl, rfl⟩)
    have hlast : m.stop? = some m.lastEnd := by
      have hsome := hx.supplies.last_isSome hne
      obtain ⟨_ | t, rest⟩ := m
      · cases hsome
      · rfl
    have hkind' : e.kind? = some (.punctuator .semicolon) := by
      rw [Cursor.kind?, hrest']
      rfl
    refine ⟨e.advance, ?_, ?_, bind_eq_ok.2 ⟨a, e, hrun, bind_eq_ok.2 ⟨(), e.advance,
      terminatorWithin_eq_ok.2 (.inl ⟨hkind', rfl⟩), rfl⟩⟩⟩
    · rw [Cursor.advance, hrest', hlast]
      rfl
    · rw [Cursor.advance, hrest']
      rfl

/-- The end of a statement, where the `;` is there or is put in. -/
theorem terminated (hx : Elaborated x true c a m points tokens) (hne : tokens ≠ []) {u : Unit}
    {allowed : Cursor → Bool} (hending : terminatorWithin allowed m = .ok u c') :
    ∃ points' tokens', tokens' ≠ [] ∧
      Elaborated (fun allowed => x allowed >>= fun a => terminatorWithin allowed >>= fun _ =>
        Pure.pure a) false c a c' points' tokens' := by
  obtain ⟨hkind, rfl⟩ | ⟨hkind, himplied, -, rfl⟩ := terminatorWithin_eq_ok.1 hending
  · obtain ⟨t, hend⟩ := of_semicolon false hkind
    have hpure : Elaborated (fun _ => Pure.pure a) false m.advance a m.advance [] [] :=
      of_pure fun _ _ _ => rfl
    exact ⟨_, _, by simp [hne], hx.bind (hend.bind hpure (.inr (.inr rfl))) (.inl rfl)⟩
  · exact ⟨_, _, by simp, of_implied hx hne hkind himplied⟩

/-! ## Loops -/

/-- A loop whose budget is the tokens ahead, if it needs no more of them than it takes. -/
theorem of_budget {loop : (Cursor → Bool) → List Token → Parser α} {count : Nat}
    (hrest : count ≤ c.rest.length) (htokens : count ≤ tokens.length)
    (h : ∀ budget : List Token, count ≤ budget.length →
      Elaborated (fun allowed => loop allowed budget) free c a c' points tokens) :
    Elaborated (fun allowed c => loop allowed c.rest c) free c a c' points tokens where
  supplies := (h c.rest hrest).supplies
  fresh := (h c.rest hrest).fresh
  omits := (h c.rest hrest).omits
  runs := by
    intro d follow hstop hd hfollow
    have hbudget : count ≤ d.rest.length := by
      rw [hd, List.length_append]
      omega
    exact (h d.rest hbudget).runs hstop hd hfollow

theorem of_collects {item : (Cursor → Bool) → Parser (Option α)} {allowed : Cursor → Bool}
    {r : α → α → Prop} {takes : Option Token → Bool}
    (hitem : ∀ {c a? c'}, item allowed c = .ok a? c' → Round r (takes c.sight) a? a? ∧
      ∃ points tokens, (takes c.sight = true → tokens ≠ []) ∧
        Elaborated item free c a? c' points tokens)
    {as : List α} (h : Collects (item allowed) c as c') :
    List.Forall₂ r as as ∧ ∃ points tokens, (takes c.sight = true → tokens ≠ []) ∧
      as.length ≤ c.rest.length ∧ as.length ≤ tokens.length ∧
      ∀ budget : List Token, as.length ≤ budget.length →
        Elaborated (fun allowed => collectWithin (item allowed) budget) free c as c' points
          tokens := by
  have hfree : free = true ∨ free = false := by cases free <;> simp
  induction h with
  | @done c c' hrun =>
    obtain ⟨-, points, tokens, htakes, hround⟩ := hitem hrun
    refine ⟨.nil, points ++ [], tokens ++ [], by simpa using htakes, Nat.zero_le _,
      Nat.zero_le _, fun budget _ => ?_⟩
    have hstop : Elaborated (fun _ => Pure.pure ([] : List α)) free c' [] c' [] [] :=
      of_pure fun _ _ _ => rfl
    unfold collectWithin
    exact hround.bind hstop (hfree.imp id .inr)
  | @more c m c' a as hrun _ ih =>
    obtain ⟨hrel, points, tokens, htakes, hround⟩ := hitem hrun
    obtain ⟨has, points', tokens', -, hlength, hbudget, hloop⟩ := ih
    have hne := htakes hrel.takes
    have hlt := hround.supplies.length_lt hne
    have hpos := List.length_pos_iff.2 hne
    refine ⟨.cons hrel.rel has, points ++ (points' ++ []), tokens ++ (tokens' ++ []),
      fun _ => List.append_ne_nil_of_left_ne_nil hne _, ?_, ?_, fun budget h => ?_⟩
    · rw [List.length_cons]
      omega
    · simp only [List.length_cons, List.length_append, List.length_nil]
      omega
    · obtain _ | ⟨_, budget⟩ := budget
      · cases h
      · unfold collectWithin
        have hcons : Elaborated (fun _ => Pure.pure (a :: as)) free c' (a :: as) c' [] [] :=
          of_pure fun _ _ _ => rfl
        have hrest := (hloop budget (Nat.le_of_succ_le_succ h)).bind
          (f := fun _ others => Pure.pure (a :: others)) hcons (hfree.imp id .inr)
        exact hround.bind hrest (hfree.imp id .inr)

theorem of_steps {step : (Cursor → Bool) → α → Parser (Option α)} {allowed : Cursor → Bool}
    {r : α → α → Prop} {takes : Option Token → Bool}
    (hstep : ∀ {c a a? c'}, r a a → step allowed a c = .ok a? c' →
      Round r (takes c.sight) a? a? ∧ ∃ points tokens, (takes c.sight = true → tokens ≠ []) ∧
        Elaborated (fun allowed => step allowed a) free c a? c' points tokens)
    {count : Nat} {b : α} (ha : r a a) (h : Steps (step allowed) count a c b m)
    (hstop : step allowed b m = .ok none c') :
    r b b ∧ ∃ points tokens, count ≤ c.rest.length ∧ count ≤ tokens.length ∧
      ∀ budget : List Token, count ≤ budget.length →
        Elaborated (fun allowed => chainWithin (step allowed) a budget) free c b c' points
          tokens := by
  have hfree : free = true ∨ free = false := by cases free <;> simp
  induction count generalizing a c with
  | zero =>
    cases h
    obtain ⟨-, points, tokens, -, hround⟩ := hstep ha hstop
    refine ⟨ha, points ++ [], tokens ++ [], Nat.zero_le _, Nat.zero_le _, fun budget _ => ?_⟩
    have hdone : Elaborated (fun _ => Pure.pure b) free c' b c' [] [] :=
      of_pure fun _ _ _ => rfl
    unfold chainWithin
    exact hround.bind hdone (hfree.imp id .inr)
  | succ count ih =>
    -- `Steps` grows at its end, and the loop takes the first extension first
    obtain ⟨a', m', hrun, hrest⟩ := h.exists_head
    obtain ⟨hrel, points, tokens, htakes, hround⟩ := hstep ha hrun
    obtain ⟨hb, points', tokens', hlength, hbudget, hloop⟩ := ih hrel.rel hrest
    have hne := htakes hrel.takes
    have hlt := hround.supplies.length_lt hne
    have hpos := List.length_pos_iff.2 hne
    refine ⟨hb, points ++ points', tokens ++ tokens', by omega, ?_, fun budget h => ?_⟩
    · rw [List.length_append]
      omega
    · obtain _ | ⟨_, budget⟩ := budget
      · cases h
      · unfold chainWithin
        exact hround.bind (hloop budget (Nat.le_of_succ_le_succ h)) (hfree.imp id .inr)

end Elaborated

/-- A uniform family does with each `;` what it does without, and leaves out a `;` at the points
only. -/
theorem Uniform.elaborate {α : Type} {s : Option Token} {takes free : Bool} {r : α → α → Prop}
    {x : (Cursor → Bool) → Parser α} (h : Uniform .elaboration s takes free r x) :
    ∀ {allowed : Cursor → Bool} {c : Cursor} {a : α} {c' : Cursor}, c.sight = s →
      x allowed c = .ok a c' → r a a ∧ ∃ points tokens, (takes = true → tokens ≠ []) ∧
        Elaborated x free c a c' points tokens := by
  induction h with
  | @congr α s takes free r x y hxy _ ih =>
    intro allowed c a c' hs hrun
    rw [hxy allowed c (.inl hs)] at hrun
    obtain ⟨ha, points, tokens, htakes, h⟩ := ih hs hrun
    subst hs
    exact ⟨ha, points, tokens, htakes, h.congr htakes hxy⟩
  | weaken _ htakes' hfree hr ih =>
    intro allowed c a c' hs hrun
    obtain ⟨ha, points, tokens, htakes, h⟩ := ih hs hrun
    exact ⟨hr _ _ ha, points, tokens, fun h => htakes (htakes' h), h.weaken _ hfree⟩
  | pure ha =>
    intro allowed c b c' hs hrun
    obtain ⟨rfl, rfl⟩ := pure_eq_ok.1 hrun
    refine ⟨(ha _ _).1, [], [], nofun, .of_pure fun allowed' d _ => ?_⟩
    rw [(ha allowed allowed').2 rfl]
    rfl
  | bind _ hfree _ ih ihf =>
    intro allowed c b c' hs hrun
    obtain ⟨a, m, hx, hf⟩ := bind_eq_ok.1 hrun
    obtain ⟨ha, points, tokens, htakes, hx⟩ := ih hs hx
    obtain ⟨hb, points', tokens', htakes', hf⟩ :=
      ihf (fun _ => a) (fun _ _ => ⟨ha, fun _ => rfl⟩) _ rfl hf
    refine ⟨hb, _, _, fun h => ?_, hx.bind hf (hfree.imp id (Or.imp htakes' id))⟩
    exact List.append_ne_nil_of_left_ne_nil (htakes h) _
  | unexpected =>
    intro allowed c b c' hs hrun
    exact absurd hrun unexpected_ne_ok
  | throw he =>
    intro allowed c b c' hs hrun
    exact absurd hrun throw_ne_ok
  | here hne _ ih =>
    intro allowed c b c' hs hrun
    obtain ⟨ha, points, tokens, htakes, h⟩ := ih (fun _ => c.here) (fun _ _ _ => rfl) hs hrun
    exact ⟨ha, points, tokens, htakes, h.here (hne.imp htakes id)⟩
  | finish hform hstart hchildren =>
    intro allowed c b c' hs hrun
    obtain ⟨rfl, rfl⟩ := finish_eq_ok.1 hrun
    refine ⟨.build rfl (hchildren _ _).1, [], [], nofun, .of_pure fun allowed' d hstop => ?_⟩
    rw [(hform allowed allowed').2 rfl, hstart rfl allowed allowed',
      (hchildren allowed allowed').2 rfl, c.lastEnd_eq, ← hstop]
    rfl
  | advance =>
    intro allowed c b c' hs hrun
    obtain ⟨rfl⟩ : c.advance = c' := by cases hrun; rfl
    obtain ⟨u, h⟩ := Elaborated.of_advance true hs
    exact ⟨rfl, [], [u], nofun, h⟩
  | terminated _ _ ih ihf =>
    intro allowed c b c' hs hrun
    obtain ⟨a, m, hx, hrun⟩ := bind_eq_ok.1 hrun
    obtain ⟨_, m', hending, hf⟩ := bind_eq_ok.1 hrun
    obtain ⟨ha, points, tokens, htakes, hx⟩ := ih hs hx
    obtain ⟨points', tokens', hne, hended⟩ := hx.terminated (htakes rfl) hending
    obtain ⟨hb, points'', tokens'', -, hf⟩ :=
      ihf (fun _ => a) (fun _ _ => ⟨ha, fun _ => rfl⟩) _ rfl hf
    have hwhole := hended.bind (hf.weaken false nofun) (.inr (.inr rfl))
    simp only [bind_assoc, pure_bind] at hwhole
    exact ⟨hb, _, _, fun _ => List.append_ne_nil_of_left_ne_nil hne _, hwhole⟩
  | @beforeUpdate _ _ r _ _ _ ha hsemicolon _ ih =>
    intro allowed c b c' hs hrun
    obtain ⟨a, rfl⟩ := ha.exists_eq allowed
    obtain ⟨hb, points, tokens, h⟩ := Elaborated.of_lineTest (Q := fun b => r b b) hsemicolon
      (ha allowed allowed).1 (fun hx => (ih hs hx).imp id fun ⟨points, tokens, _, h⟩ =>
        ⟨points, tokens, h⟩) hrun
    exact ⟨hb, points, tokens, nofun, h⟩
  | @behindKeyword _ _ r _ _ _ ha hsemicolon _ ih =>
    intro allowed c b c' hs hrun
    obtain ⟨a, rfl⟩ := ha.exists_eq allowed
    obtain ⟨_, m, hadvance, hrun⟩ := bind_eq_ok.1 hrun
    obtain ⟨rfl⟩ : c.advance = m := by cases hadvance; rfl
    obtain ⟨u, htake⟩ := Elaborated.of_advance true hs
    obtain ⟨hb, points, tokens, h⟩ := Elaborated.of_lineTest (Q := fun b => r b b) hsemicolon
      (ha allowed allowed).1 (fun hx => (ih _ rfl hx).imp id fun ⟨points, tokens, _, h⟩ =>
        ⟨points, tokens, h⟩) hrun
    exact ⟨hb, _, _, fun _ => List.cons_ne_nil _ _, htake.bind h (.inl rfl)⟩
  | defaultLabel _ ha =>
    intro allowed c b c' hs hrun
    obtain ⟨a, rfl⟩ := ha.exists_eq allowed
    obtain ⟨rfl, tokens, hne, h⟩ := Elaborated.of_defaultLabel hrun
    exact ⟨(ha allowed allowed).1, [], tokens, fun _ => hne, h⟩
  | collect _ ih =>
    intro allowed c as c' hs hrun
    obtain ⟨has, points, tokens, htakes, hrest, htokens, h⟩ :=
      Elaborated.of_collects (fun h => ih _ rfl h) (collect_sound hrun)
    exact ⟨has, points, tokens, hs ▸ htakes, .of_budget hrest htokens h⟩
  | chain _ ha ih =>
    intro allowed c b c' hs hrun
    obtain ⟨a, rfl⟩ := ha.exists_eq allowed
    obtain ⟨count, m, hsteps, hstop⟩ := chain_sound hrun
    obtain ⟨hb, points, tokens, hrest, htokens, h⟩ := Elaborated.of_steps
      (fun {_ a _ _} ha h => ih (fun _ => a) (fun _ _ => ⟨ha, fun _ => rfl⟩) _ rfl h)
      (ha allowed allowed).1 hsteps hstop
    exact ⟨hb, points, tokens, nofun, .of_budget hrest htokens h⟩

/-! ## Scripts with each `;` -/

/-- The tokens with a `;` put in at the points, right behind the token before each of them. -/
def withTerminators (points : List Cursor) : List Token → List Token
  | [] => []
  | t :: tokens =>
    if ⟨some t, significant tokens⟩ ∈ points then
      t :: .semicolon t.span.stop :: withTerminators points tokens
    else
      t :: withTerminators points tokens

theorem significant_cons_of_trivia {t : Token} (h : t.isTrivia = true) (tokens : List Token) :
    significant (t :: tokens) = significant tokens :=
  List.filter_cons_of_neg (by simp [h])

theorem significant_cons {t : Token} (h : t.isTrivia = false) (tokens : List Token) :
    significant (t :: tokens) = t :: significant tokens :=
  List.filter_cons_of_pos (by simp [h])

theorem significant_significant (tokens : List Token) :
    significant (significant tokens) = significant tokens := by
  simp [significant]

/-- A point that is not ahead of the tokens puts nothing into them. -/
theorem withTerminators_cons_of_le {p : Cursor} {points : List Cursor} {tokens : List Token}
    (h : tokens.length ≤ p.rest.length) :
    withTerminators (p :: points) tokens = withTerminators points tokens := by
  induction tokens with
  | nil => rfl
  | cons t tokens ih =>
    have hne : (⟨some t, significant tokens⟩ : Cursor) ≠ p := by
      rintro rfl
      exact absurd (List.length_filter_le _ tokens) (Nat.not_le.2 h)
    rw [withTerminators, withTerminators, ih (Nat.le_of_succ_le h)]
    simp only [List.mem_cons, hne, false_or]

section Points

variable {points : List Cursor}
variable (hpoints : ∀ p ∈ points, ∃ t, p.previous = some t ∧ t.isTrivia = false)
include hpoints

theorem withTerminators_cons_of_trivia {t : Token} (h : t.isTrivia = true) (tokens : List Token) :
    withTerminators points (t :: tokens) = t :: withTerminators points tokens := by
  refine if_neg fun hmem => ?_
  obtain ⟨u, hu, htrivia⟩ := hpoints _ hmem
  cases hu
  rw [h] at htrivia
  cases htrivia

theorem significant_withTerminators (tokens : List Token) :
    significant (withTerminators points tokens) = withTerminators points (significant tokens) := by
  induction tokens with
  | nil => rfl
  | cons t tokens ih =>
    cases htrivia : t.isTrivia with
    | true =>
      rw [withTerminators_cons_of_trivia hpoints htrivia, significant_cons_of_trivia htrivia,
        significant_cons_of_trivia htrivia, ih]
    | false =>
      rw [significant_cons htrivia, withTerminators, withTerminators, significant_significant]
      split
      · rw [significant_cons htrivia, significant_cons rfl, ih]
      · rw [significant_cons htrivia, ih]

theorem length_withTerminators (tokens : List Token) :
    (withTerminators points tokens).length + (significant tokens).length =
      tokens.length + (withTerminators points (significant tokens)).length := by
  induction tokens with
  | nil => rfl
  | cons t tokens ih =>
    cases htrivia : t.isTrivia with
    | true =>
      rw [withTerminators_cons_of_trivia hpoints htrivia, significant_cons_of_trivia htrivia]
      simp only [List.length_cons]
      omega
    | false =>
      rw [significant_cons htrivia, withTerminators, withTerminators, significant_significant]
      split <;> simp only [List.length_cons] <;> omega

end Points

namespace Supplies

variable {c c' : Cursor} {points : List Cursor} {tokens : List Token}

theorem lt_of_mem (h : Supplies c points tokens c') {p : Cursor} (hp : p ∈ points) :
    p.rest.length < c.rest.length := by
  induction h with
  | nil => cases hp
  | take _ ih => exact Nat.lt_succ_of_lt (ih hp)
  | supply _ ih =>
    obtain rfl | hp := List.mem_cons.1 hp
    · exact Nat.lt_succ_self _
    · exact Nat.lt_succ_of_lt (ih hp)

/-- The token before a point is one of those that were taken. -/
theorem exists_previous (h : Supplies c points tokens c') {p : Cursor} (hp : p ∈ points) :
    ∃ t ∈ c.rest, p.previous = some t := by
  induction h with
  | nil => cases hp
  | take _ ih =>
    obtain ⟨t, ht, hprevious⟩ := ih hp
    exact ⟨t, List.mem_cons_of_mem _ ht, hprevious⟩
  | supply _ ih =>
    obtain rfl | hp := List.mem_cons.1 hp
    · exact ⟨_, List.mem_cons_self, rfl⟩
    · obtain ⟨t, ht, hprevious⟩ := ih hp
      exact ⟨t, List.mem_cons_of_mem _ ht, hprevious⟩

theorem length_eq (h : Supplies c points tokens c') :
    tokens.length + c'.rest.length = c.rest.length + points.length := by
  induction h with
  | nil => exact Nat.add_comm _ _
  | take _ ih =>
    simp only [List.length_cons] at ih ⊢
    omega
  | supply _ ih =>
    simp only [List.length_cons] at ih ⊢
    omega

theorem tokens_eq (h : Supplies c points tokens c') (hend : c'.rest = [])
    (hrest : ∀ t ∈ c.rest, t.isTrivia = false) : tokens = withTerminators points c.rest := by
  have hsignificant {t : Token} {rest : List Token}
      (h : ∀ u ∈ t :: rest, u.isTrivia = false) : significant rest = rest :=
    List.filter_eq_self.2 fun u hu => by simp [h u (List.mem_cons_of_mem _ hu)]
  induction h with
  | nil => rw [hend, withTerminators]
  | @take _ t rest tokens points c' h ih =>
    have hnot : (⟨some t, rest⟩ : Cursor) ∉ points := fun hmem =>
      absurd (h.lt_of_mem hmem) (Nat.lt_irrefl _)
    rw [withTerminators, hsignificant hrest, if_neg hnot,
      ih hend fun u hu => hrest u (List.mem_cons_of_mem _ hu)]
  | @supply _ t rest tokens points c' h ih =>
    rw [withTerminators, hsignificant hrest, if_pos List.mem_cons_self,
      withTerminators_cons_of_le (Nat.le_refl _),
      ih hend fun u hu => hrest u (List.mem_cons_of_mem _ hu)]

end Supplies

/-- A program of a script in which a `;` may be left out at some places only. -/
def Grammar.programWithin (allowed : Cursor → Bool) : Parser Node :=
  programOf (nestedWith (terminatorWithin allowed) maxNesting)

/-- `OmitsAt tokens points root` says that the `points` are where a script with the tree `root`
leaves out a `;`: it is read if it may do so there, and only then. -/
structure OmitsAt (tokens : List Token) (points : List Cursor) (root : Node) : Prop where
  enough {allowed : Cursor → Bool} : (∀ p ∈ points, allowed p = true) →
    ((Grammar.programWithin allowed).run (.ofTokens tokens)).1 = .ok root
  needed {allowed : Cursor → Bool} {n : Node} :
    ((Grammar.programWithin allowed).run (.ofTokens tokens)).1 = .ok n →
    ∀ p ∈ points, allowed p = true

theorem Grammar.programWithin_eq : programWithin (fun _ => true) = program := by
  have hterminator : terminatorWithin (fun _ => true) = terminator := by
    funext c
    rw [terminatorWithin, if_pos (.inr rfl)]
  rw [programWithin, hterminator]
  rfl

/-- A program that is read is read with each `;` as well. -/
theorem Grammar.program_elaborated {allowed : Cursor → Bool} {c c' : Cursor} {root : Node}
    (hc : c.previous = none) (h : programWithin allowed c = .ok root c') :
    ∃ points tokens, Elaborated programWithin false c root c' points tokens := by
  have hfrom (allowed : Cursor → Bool) {d : Cursor} (hd : d.stop? = c.stop?) :
      programWithin allowed d =
        programFrom (nestedWith (terminatorWithin allowed) maxNesting) d := by
    refine programOf_eq _ (Option.map_eq_none_iff.1 (hd.trans ?_))
    rw [Cursor.stop?, hc, Option.map_none]
  rw [hfrom allowed rfl] at h
  obtain ⟨-, points, tokens, -, helaborated⟩ := (programFrom_uniform
    (nestedWith_uniform .elaboration maxNesting) c.sight).elaborate rfl h
  refine ⟨points, tokens, helaborated.supplies, helaborated.fresh, ?_, ?_⟩
  · intro allowed b m
    rw [hfrom allowed rfl]
    exact helaborated.omits
  · intro d follow hstop hrest hfollow
    rw [hfrom strict hstop]
    exact helaborated.runs hstop hrest hfollow

/-- A program takes all tokens, wherever a `;` may be left out. -/
theorem Elaborated.rest_eq_nil {tokens supplied : List Token} {root : Node} {c' : Cursor}
    {points : List Cursor} {free : Bool}
    (h : Elaborated Grammar.programWithin free (.ofTokens tokens) root c' points supplied) :
    c'.rest = [] := by
  have hrun : Grammar.programWithin (fun _ => true) (.ofTokens tokens) = .ok root c' :=
    h.omits.2 ⟨fun _ _ => rfl, rfl, rfl⟩
  rw [Grammar.programWithin_eq] at hrun
  exact (Grammar.program_reads hrun fun _ => rfl).2

/-- A script that is read leaves out a `;` at some points, and is read with these put in. -/
theorem exists_omitsAt {allowed : Cursor → Bool} {tokens : List Token} {root : Node}
    (h : ((Grammar.programWithin allowed).run (.ofTokens tokens)).1 = .ok root) :
    ∃ points, (∀ p ∈ points, allowed p = true) ∧ OmitsAt tokens points root ∧
      (withTerminators points tokens).length = tokens.length + points.length ∧
      ((Grammar.programWithin strict).run (.ofTokens (withTerminators points tokens))).1 =
        .ok root := by
  obtain ⟨c', hrun⟩ := run_eq_ok.1 h
  obtain ⟨points, supplied, hprogram⟩ := Grammar.program_elaborated rfl hrun
  have hend := hprogram.rest_eq_nil
  have hkept : ∀ t ∈ significant tokens, t.isTrivia = false := fun t ht => by
    simpa using List.of_mem_filter ht
  have hpoints : ∀ p ∈ points, ∃ t, p.previous = some t ∧ t.isTrivia = false := by
    intro p hp
    obtain ⟨t, ht, hprevious⟩ := hprogram.supplies.exists_previous hp
    exact ⟨t, hprevious, hkept t ht⟩
  have hsupplied : supplied = withTerminators points (significant tokens) :=
    hprogram.supplies.tokens_eq hend hkept
  refine ⟨points, (hprogram.omits.1 hrun).1, ⟨?_, ?_⟩, ?_, ?_⟩
  · intro allowed' hallowed
    exact run_eq_ok.2 ⟨c', hprogram.omits.2 ⟨hallowed, rfl, rfl⟩⟩
  · intro allowed' n hn
    obtain ⟨m, hm⟩ := run_eq_ok.1 hn
    exact (hprogram.omits.1 hm).1
  · have hlength : supplied.length + c'.rest.length = (significant tokens).length + points.length :=
      hprogram.supplies.length_eq
    have hall := length_withTerminators hpoints tokens
    rw [hend, hsupplied, List.length_nil] at hlength
    omega
  · obtain ⟨d', -, -, hstrict⟩ := hprogram.runs (d := ⟨none, supplied⟩) rfl
      (List.append_nil _).symm (.inl (by rw [hend]))
    have htokens : Cursor.ofTokens (withTerminators points tokens) = ⟨none, supplied⟩ := by
      rw [hsupplied, ← significant_withTerminators hpoints]
      rfl
    rw [htokens]
    exact run_eq_ok.2 ⟨d', hstrict⟩

/-- A script that leaves out a `;` is short for one that does not. With a `;` put in at the points
where one is left out, right behind the token before, it has the same tree, down to the places, and
there is no point left where one is left out. -/
theorem exists_terminators {tokens : List Token} {root : Node} (h : parseTokens tokens = .ok root) :
    ∃ points, OmitsAt tokens points root ∧
      (withTerminators points tokens).length = tokens.length + points.length ∧
      parseTokens (withTerminators points tokens) = .ok root ∧
      OmitsAt (withTerminators points tokens) [] root := by
  rw [parseTokens, ← Grammar.programWithin_eq] at h
  obtain ⟨points, -, homits, hlength, hstrict⟩ := exists_omitsAt h
  obtain ⟨points', hnone, homits', -, -⟩ := exists_omitsAt hstrict
  -- the run with each `;` leaves out none
  obtain rfl : points' = [] := List.eq_nil_iff_forall_not_mem.2 fun p hp =>
    absurd (hnone p hp) Bool.false_ne_true
  refine ⟨points, homits, hlength, ?_, homits'⟩
  rw [parseTokens, ← Grammar.programWithin_eq]
  exact homits'.enough (by simp)

theorem exists_terminators_break :
    ∃ root, parseTokens (tokenize "while (a) b = c // d\nreturn") = .ok root ∧
      ∃ points, OmitsAt (tokenize "while (a) b = c // d\nreturn") points root ∧
        (withTerminators points (tokenize "while (a) b = c // d\nreturn")).length =
          (tokenize "while (a) b = c // d\nreturn").length + points.length ∧
        parseTokens (withTerminators points (tokenize "while (a) b = c // d\nreturn")) =
          .ok root ∧
        OmitsAt (withTerminators points (tokenize "while (a) b = c // d\nreturn")) [] root := by
  obtain ⟨root, hroot⟩ := exists_tree
    (show (parseTokens (tokenize "while (a) b = c // d\nreturn")).isOk = true by decide +kernel)
  exact ⟨root, hroot, exists_terminators hroot⟩

end ScriptLint
