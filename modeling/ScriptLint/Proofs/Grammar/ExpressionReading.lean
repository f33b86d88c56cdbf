import ScriptLint.Proofs.Grammar.Reading

/-!
# Expressions are read by the rules

Every production of expressions that gives a node has read it by the rules (`expression_reads`,
`assignment_reads` and the others), if that is so of the productions with one nesting level less.
The loops keep an invariant. A binary loop holds an operand whose rank is at least that of the next
operator, and a loop of calls holds anything but a construction without arguments, which is only
read where no loop goes on.
-/

namespace ScriptLint

open Cursor (Implied)

/-- Whether what follows a cursor may open a statement, if it has to. -/
def Cursor.Opens (c : Cursor) (opening : Bool) : Prop :=
  opening = true →
    c.kind? ≠ some (.punctuator .leftCurly) ∧ c.kind? ≠ some (.keyword .functionKw)

theorem Cursor.opens_false (c : Cursor) : c.Opens false := nofun

/-- Whether the next token extends a chain of calls and member accesses. -/
def Cursor.extendsChain (c : Cursor) : Prop :=
  c.kind? = some (.punctuator .leftParen) ∨ c.kind? = some (.punctuator .dot) ∨
    c.kind? = some (.punctuator .leftBracket)

/-- The binary operator that is next, where `in` may be none. -/
def Cursor.operator? (c : Cursor) (allowIn : Bool) : Option BinaryOperator :=
  (c.kind?.bind BinaryOperator.ofKind?).filter fun operator => allowIn || operator != .isIn

/-- What the kind of the next token means is meant by a token. -/
theorem Cursor.exists_meaning {α : Type} {c : Cursor} {meaning : TokenKind → Option α} {a : α}
    (h : c.kind?.bind meaning = some a) : ∃ t, c.rest.head? = some t ∧ meaning t.kind = some a := by
  obtain ⟨kind, hkind, hmeaning⟩ := Option.bind_eq_some_iff.1 h
  obtain ⟨t, ht, rfl⟩ := Cursor.exists_token hkind
  exact ⟨t, ht, hmeaning⟩

/-- A construction with `new` was read. One without arguments is followed by nothing that could
extend it. -/
def Constructs (implied : Cursor → Prop) (levels : Nat) (c : Cursor) (n : Node) (c' : Cursor) :
    Prop :=
  ∃ hasArguments items children, Construction hasArguments items ∧
    ReadsItems implied levels items c children c' ∧
    n = Node.build (.newExpression hasArguments) ⟨c.here, c'.lastEnd⟩ children ∧
    (hasArguments = false → ¬ c'.extendsChain)

/-- The left operand of a binary loop can stand to the left of every operator that may come. -/
def LeftOperand (levels : Nat) (allowIn opening : Bool) (loosest : Nat) (start : Cursor)
    (left : Node) (c : Cursor) : Prop :=
  ∃ precedence, loosest < precedence ∧ precedence ≤ 11 ∧
    Reads Implied levels (.expression (.plain (2 + precedence) allowIn opening)) start left c ∧
    ∀ operator, c.operator? allowIn = some operator → operator.precedence ≤ precedence

/-- The productions that open a nesting level read by the rules within `levels` levels. -/
structure Nested.Sound (g : Nested) (levels : Nat) : Prop where
  ending {c c' : Cursor} {u : Unit} : g.ending c = .ok u c' → Parser.terminator c = .ok u c'
  statement {closed : Bool} {c c' : Cursor} {n : Node} : g.statement c = .ok n c' →
    (closed = true → c'.kind? = some (.keyword .elseKw)) →
    Reads Implied levels (.statement closed) c n c'
  block {c c' : Cursor} {n : Node} : g.block c = .ok n c' → Reads Implied levels .block c n c'
  assignment {allowIn opening : Bool} {c c' : Cursor} {n : Node} :
    g.assignment allowIn c = .ok n c' → c.Opens opening →
    Reads Implied levels (.expression (.item allowIn opening)) c n c'
  unary {target : Bool} {c c' : Cursor} {n : Node} : g.unary c = .ok n c' →
    (target = true → n.isAssignable = true) →
    Reads Implied levels (.expression (.operand target)) c n c'
  construction {c c' : Cursor} {n : Node} : g.construction c = .ok n c' →
    c.kind? = some (.keyword .newKw) →
    ∃ inner, levels = inner + 1 ∧ Constructs Implied inner c n c'

namespace Slot

variable {form : Form} {rank : Nat} {allowIn opening : Bool}

/-- What binds at least as tightly as an operator before its operand is no use of `in`. -/
theorem plain_admits (hrank : rank ≤ form.rank) (htight : 13 ≤ form.rank)
    (hopening : opening = true → form.startsLikeStatement = false) :
    (plain rank allowIn opening).admits form = true := by
  have hin : form ≠ .binaryExpression .isIn := by
    rintro rfl
    exact absurd htight (by decide)
  exact admits_iff.2 ⟨hrank, .inr hin, hopening, rfl⟩

theorem plain_charge (hform : form ≠ .newExpression true) :
    (plain rank allowIn opening).charge form = 0 := by
  simp [Slot.charge, plain, hform]

/-- The object of a member access in a chain stands where the access does. -/
theorem plain_object (hrank : 16 ≤ rank) :
    (plain rank allowIn opening).object = plain rank allowIn opening := by
  show plain (max 16 rank) allowIn opening = _
  rw [Nat.max_eq_right hrank]

end Slot

/-- A form that can be stored into is a name or a member access. -/
theorem Form.le_rank_of_isAssignable {form : Form} (h : form.isAssignable = true) :
    15 ≤ form.rank := by
  cases form with
  | identifier _ => exact Nat.le_add_left 15 2
  | memberExpression _ => exact Nat.le_add_left 15 2
  | _ => cases h

variable {levels k rank : Nat} {c m c' : Cursor} {n : Node} {ns : List Node}
  {allowIn opening : Bool}

/-- A node over the pieces of its phrase. -/
theorem Reads.node {place : Place} {form : Form} {items : List Item}
    (hphrase : Phrase place form items) (hadmits : place.admits form = true)
    (hlevels : levels + place.charge form = k) (hlink : form.isLink = false)
    (hitems : ReadsItems Implied levels items c ns c') :
    Reads Implied k place c (Node.build form ⟨c.here, c'.lastEnd⟩ ns) c' := by
  subst hlevels
  refine .plain hadmits hphrase hitems ?_
  intro hcontra
  rw [hlink] at hcontra
  cases hcontra

/-- An expression other than a binary one, a call, a member access or a construction. -/
theorem Reads.operand {form : Form} {items : List Item}
    (hphrase : Phrase (.expression (.plain rank allowIn opening)) form items)
    (hrank : rank ≤ form.rank) (htight : 13 ≤ form.rank)
    (hopening : opening = true → form.startsLikeStatement = false)
    (hnew : form ≠ .newExpression true) (hlink : form.isLink = false)
    (hitems : ReadsItems Implied levels items c ns c') :
    Reads Implied levels (.expression (.plain rank allowIn opening)) c
      (Node.build form ⟨c.here, c'.lastEnd⟩ ns) c' :=
  .node hphrase (Slot.plain_admits hrank htight hopening)
    (congrArg (levels + ·) (Slot.plain_charge hnew)) hlink hitems

/-- A link of a chain, whose height was checked. -/
theorem Reads.link {form : Form} {items : List Item}
    (hphrase : Phrase (.expression (.plain rank allowIn opening)) form items)
    (hadmits : (Slot.plain rank allowIn opening).admits form = true)
    (hnew : form ≠ .newExpression true)
    (hheight : (Node.build form ⟨c.here, c'.lastEnd⟩ ns).height ≤ Parser.maxHeight)
    (hitems : ReadsItems Implied levels items c ns c') :
    Reads Implied levels (.expression (.plain rank allowIn opening)) c
      (Node.build form ⟨c.here, c'.lastEnd⟩ ns) c' := by
  have hplace : (Place.expression (.plain rank allowIn opening)).admits form = true := hadmits
  have hcharge : (Place.expression (.plain rank allowIn opening)).charge form = 0 :=
    Slot.plain_charge hnew
  have hread := Reads.plain hplace hphrase hitems fun _ => hheight
  rwa [hcharge] at hread

/-- An expression can stand where a lower rank would do. -/
theorem Reads.lower {rank' : Nat}
    (h : Reads Implied levels (.expression (.plain rank allowIn opening)) c n c') (hpos : 0 < rank)
    (hle : rank' ≤ rank) (hrank : rank ≤ 16) :
    Reads Implied levels (.expression (.plain rank' allowIn opening)) c n c' := by
  have hadmits : (Slot.plain rank allowIn opening).admits n.form = true →
      (Slot.plain rank' allowIn opening).admits n.form = true ∧ n.form.rank ≠ 0 := by
    intro h
    obtain ⟨hform, hrest⟩ := Slot.admits_iff.1 h
    exact ⟨Slot.admits_iff.2 ⟨Nat.le_trans hle hform, hrest⟩,
      Nat.ne_of_gt (Nat.lt_of_lt_of_le hpos hform)⟩
  obtain ⟨_, rfl, hread⟩ := h.reslot hadmits rfl hrank (Nat.le_trans hle hrank) rfl rfl
  exact hread

/-- An expression without commas takes a level where it stands on its own. -/
theorem Reads.item (h : Reads Implied levels (.expression (.plain 1 allowIn opening)) c n c') :
    Reads Implied (levels + 1) (.expression (.item allowIn opening)) c n c' := by
  have hadmits : (Slot.plain 1 allowIn opening).admits n.form = true →
      (Slot.item allowIn opening).admits n.form = true ∧ n.form.rank ≠ 0 := by
    intro h
    exact ⟨h, Nat.ne_of_gt (Slot.admits_iff.1 h).1⟩
  obtain ⟨_, rfl, hread⟩ :=
    h.reslot hadmits rfl (Nat.le_add_left 1 15) (Nat.le_add_left 1 15) rfl rfl
  exact hread

/-- An operand takes a level behind its operator. -/
theorem Reads.behindOperator {target : Bool}
    (h : Reads Implied levels (.expression (.plain 13 true false)) c n c')
    (htarget : target = true → n.isAssignable = true) :
    Reads Implied (levels + 1) (.expression (.operand target)) c n c' := by
  have hserves : (Slot.operand target).serves n.form = true := by
    cases target with
    | false => rfl
    | true => exact htarget rfl
  have hadmits : (Slot.plain 13 true false).admits n.form = true →
      (Slot.operand target).admits n.form = true ∧ n.form.rank ≠ 0 := by
    intro h
    obtain ⟨hrank, hin, hopening, _⟩ := Slot.admits_iff.1 h
    exact ⟨Slot.admits_iff.2 ⟨hrank, hin, hopening, hserves⟩,
      Nat.ne_of_gt (Nat.lt_of_lt_of_le (Nat.zero_lt_succ 12) hrank)⟩
  obtain ⟨_, rfl, hread⟩ :=
    h.reslot hadmits hserves (by decide) (Nat.le_add_left 13 3) rfl rfl
  exact hread

/-- A construction is an expression up to the rank of its form, if not under `new`. -/
theorem Constructs.reads (h : Constructs Implied levels c n c') (hrank : rank ≤ n.form.rank)
    (hcallee : rank ≤ 16) :
    Reads Implied levels (.expression (.plain rank allowIn opening)) c n c' := by
  obtain ⟨hasArguments, items, children, hphrase, hitems, rfl, _⟩ := h
  have htight : 13 ≤ (Form.newExpression hasArguments).rank := by
    cases hasArguments <;> decide
  have hne : (Form.newExpression hasArguments).rank ≠ 0 := by omega
  refine .node (.new _ hphrase) (Slot.plain_admits hrank htight fun _ => rfl) ?_ rfl hitems
  show levels + (Slot.plain rank allowIn opening).charge _ = levels
  rw [Slot.charge_eq hcallee hne]
  rfl

namespace Grammar

open ScriptLint.Parser

variable {g : Nested}

/-! ## Lists -/

/-- Items behind commas. -/
theorem followers_read {place : Place} {item : Parser Node}
    (hitem : ∀ {c n c'}, item c = .ok n c' → Reads Implied levels place c n c')
    (h : Collects (after? (.punctuator .comma) item) c ns c') :
    ReadsItems Implied levels (Item.followers place ns.length) c ns c' := by
  induction h with
  | done h =>
    obtain ⟨_, _, _, hsome⟩ | ⟨_, _, rfl⟩ := after?_eq_ok.1 h
    · cases hsome
    · exact .nil
  | more h _ ih =>
    obtain ⟨a, hcomma, ha, hsome⟩ | ⟨_, hnone, _⟩ := after?_eq_ok.1 h
    · cases hsome
      exact .mark hcomma (.part (hitem ha) ih)
    · cases hnone

/-- Items with commas between them. -/
theorem separated_read {place : Place} {item : Parser Node}
    (hitem : ∀ {c n c'}, item c = .ok n c' → Reads Implied levels place c n c')
    (h : separated item c = .ok ns c') :
    ∃ count, ns.length = count + 1 ∧
      ReadsItems Implied levels (Item.separated place (count + 1)) c ns c' := by
  simp only [separated, bind_eq_ok, pure_eq_ok] at h
  obtain ⟨first, m, hfirst, others, m', hothers, rfl, rfl⟩ := h
  exact ⟨others.length, rfl, .part (hitem hfirst) (followers_read hitem (collect_sound hothers))⟩

/-- Items in parentheses. -/
theorem enclosedList_reads {place : Place} {form : Form} {item : Parser Node}
    (hitem : ∀ {c n c'}, item c = .ok n c' → Reads Implied levels place c n c')
    (h : enclosedList form item c = .ok n c') :
    ∃ ns, n = Node.build form ⟨c.here, c'.lastEnd⟩ ns ∧
      ReadsItems Implied levels
        (.mark .leftParen :: (Item.separated place ns.length ++ [.mark .rightParen])) c ns c' := by
  simp only [enclosedList, here_bind, check_bind, bind_eq_ok, expect_eq_ok] at h
  obtain ⟨_, _, ⟨hopen, rfl⟩, h⟩ := h
  have hlist : ∃ items m,
      ReadsItems Implied levels (Item.separated place items.length) c.advance items m ∧
      (do expect (.punctuator .rightParen) "')'"; finish form c.here items) m = .ok n c' := by
    split at h
    · exact ⟨[], _, .nil, h⟩
    · obtain ⟨items, m, hitems, h⟩ := bind_eq_ok.1 h
      obtain ⟨count, hcount, hread⟩ := separated_read hitem hitems
      rw [← hcount] at hread
      exact ⟨items, m, hread, h⟩
  obtain ⟨items, m, hread, h⟩ := hlist
  simp only [bind_eq_ok, expect_eq_ok, finish_eq_ok] at h
  obtain ⟨_, _, ⟨hclose, rfl⟩, rfl, rfl⟩ := h
  exact ⟨items, rfl, .mark hopen (hread.append_words (.mark hclose .nil))⟩

theorem parameter_reads (h : parameter c = .ok n c') : Reads Implied levels .parameter c n c' := by
  simp only [parameter, here_bind, bind_eq_ok, name_eq_ok, finish_eq_ok] at h
  obtain ⟨x, m, ⟨t, ht, hx, rfl⟩, rfl, rfl⟩ := h
  exact .node (.parameter x) rfl rfl rfl (.word ht hx .nil)

theorem parameters_read (h : parameters c = .ok n c') :
    Reads Implied levels .parameters c n c' := by
  have hitem : ∀ {c n c'}, parameter c = .ok n c' → Reads Implied levels .parameter c n c' :=
    fun h => parameter_reads h
  obtain ⟨ns, rfl, hitems⟩ := enclosedList_reads hitem h
  exact .node (.parameters ns.length) rfl rfl rfl hitems

theorem property_eq_ok {meaning : Token → Option String} {x : String} :
    property meaning c = .ok x c' ↔
      ∃ t, c.rest.head? = some t ∧ meaning t = some x ∧ c.advance = c' := by
  rw [property, peek?_bind]
  cases hmeaning : c.rest.head?.bind meaning with
  | none =>
    constructor
    · intro h
      exact absurd h unexpected_ne_ok
    · rintro ⟨t, ht, hx, _⟩
      simp [ht, hx] at hmeaning
  | some y =>
    obtain ⟨t, ht, hy⟩ := Option.bind_eq_some_iff.1 hmeaning
    simp only [advance_bind, pure_eq_ok]
    constructor
    · rintro ⟨rfl, rfl⟩
      exact ⟨t, ht, hy, rfl⟩
    · rintro ⟨u, hu, hx, rfl⟩
      rw [hu] at ht
      cases ht
      rw [hy] at hx
      cases hx
      exact ⟨rfl, rfl⟩

section Productions

variable (hg : g.Sound levels)
include hg

theorem arguments_read (h : arguments g c = .ok n c') : Reads Implied levels .arguments c n c' := by
  obtain ⟨ns, rfl, hitems⟩ :=
    enclosedList_reads (fun h => hg.assignment h (Cursor.opens_false _)) h
  exact .node (.arguments ns.length) rfl rfl rfl hitems

/-- One or more expressions with commas between them. -/
theorem expression_reads (h : expression g allowIn c = .ok n c') (hopens : c.Opens opening) :
    Reads Implied levels (.expression (.whole allowIn opening)) c n c' := by
  simp only [expression, here_bind, bind_eq_ok, check_bind] at h
  obtain ⟨first, m, hfirst, h⟩ := h
  have hfirst := hg.assignment hfirst hopens
  split at h
  · next hcomma =>
    simp only [bind_eq_ok, finish_eq_ok] at h
    obtain ⟨others, m', hothers, rfl, rfl⟩ := h
    have hothers := collect_sound hothers
    -- the comma that was seen leads to a second expression
    have hcount : ∃ count, others.length = count + 1 := by
      cases hothers with
      | done hnone =>
        obtain ⟨_, _, _, hsome⟩ | ⟨hne, _⟩ := after?_eq_ok.1 hnone
        · cases hsome
        · exact absurd (eq_of_beq hcomma) hne
      | more => exact ⟨_, rfl⟩
    obtain ⟨count, hcount⟩ := hcount
    have hitems := followers_read (fun h => hg.assignment h (Cursor.opens_false _)) hothers
    rw [hcount] at hitems
    refine .node (.sequence _ count) ?_ rfl rfl (.part hfirst hitems)
    simp [Place.admits, Slot.admits, Slot.whole, Slot.serves, Form.startsLikeStatement]
  · obtain ⟨rfl, rfl⟩ := pure_eq_ok.1 h
    exact hfirst.whole

/-- An expression in parentheses. -/
theorem parenthesized_reads (h : parenthesized g c = .ok n c') :
    ∃ m, c.kind? = some (.punctuator .leftParen) ∧ Reads Implied levels .top c.advance n m ∧
      m.kind? = some (.punctuator .rightParen) ∧ m.advance = c' := by
  simp only [parenthesized, bind_eq_ok, expect_eq_ok, pure_eq_ok] at h
  obtain ⟨_, _, ⟨hopen, rfl⟩, inner, m, hinner, _, _, ⟨hclose, rfl⟩, rfl, rfl⟩ := h
  exact ⟨m, hopen, expression_reads hg hinner (Cursor.opens_false _), hclose, rfl⟩

/-- An expression in parentheses that belong to the phrase around it. -/
theorem guard_reads (h : parenthesized g c = .ok n c') :
    ReadsItems Implied levels Item.guard c [n] c' := by
  obtain ⟨m, hopen, hinner, hclose, rfl⟩ := parenthesized_reads hg h
  exact .mark hopen (.part hinner (.mark hclose .nil))

/-- The parameters and the body of a function. -/
theorem functionOf_reads {form : Form} {start : Position}
    (h : functionOf g form start c = .ok n c') :
    ∃ ns, n = Node.build form ⟨start, c'.lastEnd⟩ ns ∧
      ReadsItems Implied levels [.part .parameters, .part .block] c ns c' := by
  simp only [functionOf, bind_eq_ok, finish_eq_ok] at h
  obtain ⟨list, m, hlist, body, m', hbody, rfl, rfl⟩ := h
  exact ⟨_, rfl, .part (parameters_read hlist) (.single (hg.block hbody))⟩

/-- A function inside an expression. -/
theorem functionExpression_reads (h : functionExpression g c = .ok n c')
    (hrank : rank ≤ 17) (hopening : opening = false) :
    Reads Implied levels (.expression (.plain rank allowIn opening)) c n c' := by
  simp only [functionExpression, here_bind, bind_eq_ok, expect_eq_ok] at h
  obtain ⟨_, _, ⟨hfunction, rfl⟩, name, m, hname, h⟩ := h
  obtain ⟨ns, rfl, hitems⟩ := functionOf_reads hg h
  have hwords : ReadsItems Implied levels (name.toList.map (.word <| .name ·) ++
      [.part .parameters, .part .block]) c.advance ns c' := by
    obtain ⟨t, x, ht, hx, rfl, rfl⟩ | ⟨_, rfl, rfl⟩ := name?_eq_ok.1 hname
    · exact .word ht hx hitems
    · exact hitems
  exact .operand (.function _ name) hrank (Nat.le_add_left 13 4) (by simp [hopening]) nofun rfl
    (.keyword hfunction hwords)

/-! ## Literals of arrays and objects -/

/-- What an element of an array can be. -/
theorem element_cases {n? : Option Node} (h : element g c = .ok n? c') :
    (n? = none ∧ c.kind? = some (.punctuator .rightBracket) ∧ c = c') ∨
    (n? = some (Node.build .emptyExpression ⟨c.here, c.here⟩ []) ∧
      c.kind? = some (.punctuator .comma) ∧ c.advance = c') ∨
    ∃ value m, n? = some value ∧ Reads Implied levels (.item true) c value m ∧
      ((m.kind? = some (.punctuator .rightBracket) ∧ m = c') ∨
        (m.kind? = some (.punctuator .comma) ∧ m.advance = c')) := by
  rw [element, check_bind] at h
  split at h
  · next hclose =>
    obtain ⟨rfl, rfl⟩ := pure_eq_ok.1 h
    exact .inl ⟨rfl, eq_of_beq hclose, rfl⟩
  rw [check_bind] at h
  split at h
  · next hcomma =>
    obtain ⟨rfl, rfl⟩ := pure_eq_ok.1 h
    exact .inr (.inl ⟨rfl, eq_of_beq hcomma, rfl⟩)
  simp only [bind_eq_ok, check_bind] at h
  obtain ⟨value, m, hvalue, h⟩ := h
  have hvalue := hg.assignment hvalue (Cursor.opens_false _)
  refine .inr (.inr ⟨value, m, ?_⟩)
  split at h
  · next hclose =>
    obtain ⟨rfl, rfl⟩ := pure_eq_ok.1 h
    exact ⟨rfl, hvalue, .inl ⟨eq_of_beq hclose, rfl⟩⟩
  · simp only [bind_eq_ok, expect_eq_ok, pure_eq_ok] at h
    obtain ⟨_, _, ⟨hcomma, rfl⟩, rfl, rfl⟩ := h
    exact ⟨rfl, hvalue, .inr ⟨hcomma, rfl⟩⟩

/-- The elements of an array up to its bracket. -/
theorem elements_read (h : Collects (element g) c ns c') :
    c'.kind? = some (.punctuator .rightBracket) ∧
      ∃ items, Elements items ∧ ReadsItems Implied levels items c ns c' := by
  induction h with
  | done h =>
    obtain ⟨_, hclose, rfl⟩ | ⟨hsome, _⟩ | ⟨_, _, hsome, _⟩ := element_cases hg h
    · exact ⟨hclose, [], .nil, .nil⟩
    · cases hsome
    · cases hsome
  | more h hrest ih =>
    obtain ⟨hnone, _⟩ | ⟨hsome, hcomma, rfl⟩ | ⟨value, m, hsome, hvalue, hend⟩ :=
      element_cases hg h
    · cases hnone
    · cases hsome
      obtain ⟨hclose, items, helements, hitems⟩ := ih
      exact ⟨hclose, _, .hole helements, .hole hcomma hitems⟩
    · cases hsome
      obtain ⟨hbracket, rfl⟩ | ⟨hcomma, rfl⟩ := hend
      -- nothing is collected once the bracket is next
      · obtain ⟨hclose, items, helements, hitems⟩ := ih
        cases hrest with
        | done h' =>
          obtain ⟨_, _, rfl⟩ | ⟨hsome, _⟩ | ⟨_, _, hsome, _⟩ := element_cases hg h'
          · exact ⟨hclose, _, .last, .single hvalue⟩
          · cases hsome
          · cases hsome
        | more h' _ =>
          simp only [element, check_bind, hbracket, beq_self_eq_true, ↓reduceIte, pure_eq_ok] at h'
          cases h'.1
      · obtain ⟨hclose, items, helements, hitems⟩ := ih
        exact ⟨hclose, _, .value helements, .part hvalue (.mark hcomma hitems)⟩

/-- What a member of an object can be. -/
theorem member_cases {n? : Option Node} (h : member g c = .ok n? c') :
    (n? = none ∧ c.kind? = some (.punctuator .rightCurly) ∧ c = c') ∨
    ∃ property m, n? = some property ∧ Reads Implied levels .property c property m ∧
      ((m.kind? = some (.punctuator .rightCurly) ∧ m = c') ∨
        (m.kind? = some (.punctuator .comma) ∧ m.advance = c')) := by
  rw [member, check_bind] at h
  split at h
  · next hclose =>
    obtain ⟨rfl, rfl⟩ := pure_eq_ok.1 h
    exact .inl ⟨rfl, eq_of_beq hclose, rfl⟩
  next hcurly =>
  simp only [here_bind, bind_eq_ok, property_eq_ok, expect_eq_ok, finish_bind, check_bind] at h
  obtain ⟨key, _, ⟨t, ht, hkey, rfl⟩, _, _, ⟨hcolon, rfl⟩, value, m, hvalue, h⟩ := h
  rw [Cursor.kind?_of_head ht, beq_iff_eq, Option.some_inj] at hcurly
  have hproperty : Reads Implied levels .property c
      (Node.build (.property key) ⟨c.here, m.lastEnd⟩ [value]) m :=
    .node (.property key) rfl rfl rfl
      (.word ht ⟨hkey, hcurly⟩ (.mark hcolon
        (.single (hg.assignment hvalue (Cursor.opens_false _)))))
  refine .inr ⟨_, m, ?_, hproperty, ?_⟩
  all_goals split at h
  · exact (pure_eq_ok.1 h).1.symm
  · simp only [bind_eq_ok, pure_eq_ok] at h
    obtain ⟨_, _, _, rfl, _⟩ := h
    rfl
  · next hclose => exact .inl ⟨eq_of_beq hclose, (pure_eq_ok.1 h).2⟩
  · simp only [bind_eq_ok, expect_eq_ok, pure_eq_ok] at h
    obtain ⟨_, _, ⟨hcomma, rfl⟩, _, rfl⟩ := h
    exact .inr ⟨hcomma, rfl⟩

/-- The members of an object up to its brace. -/
theorem members_read (h : Collects (member g) c ns c') :
    c'.kind? = some (.punctuator .rightCurly) ∧
      ∃ ending, Trailing ns.length ending ∧
        ReadsItems Implied levels (Item.separated .property ns.length ++ ending) c ns c' := by
  induction h with
  | done h =>
    obtain ⟨_, hclose, rfl⟩ | ⟨_, _, hsome, _⟩ := member_cases hg h
    · exact ⟨hclose, [], .nothing, .nil⟩
    · cases hsome
  | @more c _ c' _ others h hrest ih =>
    obtain ⟨hnone, _⟩ | ⟨property, m, hsome, hproperty, hend⟩ := member_cases hg h
    · cases hnone
    cases hsome
    obtain ⟨hclose, ending, htrailing, hitems⟩ := ih
    obtain ⟨hcurly, rfl⟩ | ⟨hcomma, rfl⟩ := hend
    -- nothing is collected once the brace is next
    · cases hrest with
      | done h' =>
        obtain ⟨_, _, rfl⟩ | ⟨_, _, hsome, _⟩ := member_cases hg h'
        · exact ⟨hclose, [], .nothing, .single hproperty⟩
        · cases hsome
      | more h' _ =>
        simp only [member, check_bind, hcurly, beq_self_eq_true, ↓reduceIte, pure_eq_ok] at h'
        cases h'.1
    · refine ⟨hclose, ?_⟩
      cases others with
      | nil =>
        cases htrailing
        exact ⟨_, .comma, .part hproperty (.mark hcomma hitems)⟩
      | cons other others =>
        refine ⟨ending, ?_, .part hproperty (.mark hcomma hitems)⟩
        cases htrailing with
        | nothing => exact .nothing
        | comma => exact .comma

/-- An array literal. -/
theorem arrayLiteral_reads (h : arrayLiteral g c = .ok n c')
    (hkind : c.kind? = some (.punctuator .leftBracket)) (hrank : rank ≤ 17) :
    Reads Implied levels (.expression (.plain rank allowIn opening)) c n c' := by
  simp only [arrayLiteral, here_bind, advance_bind, bind_eq_ok, expect_eq_ok, finish_eq_ok] at h
  obtain ⟨ns, m, hns, _, _, ⟨hclose, rfl⟩, rfl, rfl⟩ := h
  obtain ⟨_, items, helements, hitems⟩ := elements_read hg (collect_sound hns)
  exact .operand (.array _ helements) hrank (by decide) (fun _ => rfl) nofun rfl
    (.mark hkind (hitems.append_words (.mark hclose .nil)))

/-- An object literal. -/
theorem objectLiteral_reads (h : objectLiteral g c = .ok n c')
    (hkind : c.kind? = some (.punctuator .leftCurly)) (hrank : rank ≤ 17)
    (hopening : opening = false) :
    Reads Implied levels (.expression (.plain rank allowIn opening)) c n c' := by
  simp only [objectLiteral, here_bind, advance_bind, bind_eq_ok, expect_eq_ok, finish_eq_ok] at h
  obtain ⟨ns, m, hns, _, _, ⟨hclose, rfl⟩, rfl, rfl⟩ := h
  obtain ⟨_, ending, htrailing, hitems⟩ := members_read hg (collect_sound hns)
  have hall := hitems.append_words (.mark hclose .nil)
  rw [List.append_assoc] at hall
  exact .operand (.object _ ns.length htrailing) hrank (by decide) (by simp [hopening]) nofun
    rfl (.mark hkind hall)

/-! ## Calls, member accesses and constructions -/

/-- An expression that starts no chain of its own. -/
theorem primary_reads (h : primary g c = .ok n c') (hopens : c.Opens opening)
    (hrank : rank ≤ 17) :
    Reads Implied levels (.expression (.plain rank allowIn opening)) c n c' := by
  simp only [primary, here_bind, peek?_bind] at h
  cases hhead : c.rest.head? with
  | none =>
    rw [hhead] at h
    exact absurd h unexpected_ne_ok
  | some t =>
    simp only [hhead] at h
    have hkind := Cursor.kind?_of_head hhead
    cases hliteral : t.literal? with
    | some value =>
      simp only [hliteral, advance_bind, finish_eq_ok] at h
      obtain ⟨rfl, rfl⟩ := h
      exact .operand (.literal _ value) hrank (Nat.le_add_left 13 4) (fun _ => rfl) nofun rfl
        (.word hhead hliteral .nil)
    | none =>
      simp only [hliteral] at h
      generalize hk : t.kind = kind at h hkind
      split at h
      · simp only [bind_eq_ok, name_eq_ok, finish_eq_ok] at h
        obtain ⟨x, _, ⟨u, hu, hx, rfl⟩, rfl, rfl⟩ := h
        exact .operand (.identifier _ x) hrank (Nat.le_add_left 13 4) (fun _ => rfl) nofun rfl
          (.word hu hx .nil)
      · simp only [advance_bind, finish_eq_ok] at h
        obtain ⟨rfl, rfl⟩ := h
        exact .operand (.this _) hrank (by decide) (fun _ => rfl) nofun rfl
          (.word hhead hk .nil)
      · refine functionExpression_reads hg h hrank (Bool.eq_false_iff.2 fun hopening => ?_)
        exact (hopens hopening).2 hkind
      · obtain ⟨m, hopen, hinner, hclose, rfl⟩ := parenthesized_reads hg h
        show Reads Implied (levels + (Slot.plain rank allowIn opening).nests.toNat) _ _ _ _
        exact .enclosed rfl hopen hinner hclose
      · exact arrayLiteral_reads hg h hkind hrank
      · refine objectLiteral_reads hg h hkind hrank (Bool.eq_false_iff.2 fun hopening => ?_)
        exact (hopens hopening).1 hkind
      · exact absurd h unexpected_ne_ok

/-- A name behind a dot or an expression in brackets, behind what was read from `start` on. -/
theorem memberAccess_reads {start : Cursor} {object : Node}
    (h : memberAccess g start.here object c = .ok n c')
    {s : Slot} (hobject : Reads Implied levels (.expression s.object) start object c) :
    ∃ computed items ns, Phrase (.expression s) (.memberExpression computed) items ∧
      ReadsItems Implied levels items start ns c' ∧
      n = Node.build (.memberExpression computed) ⟨start.here, c'.lastEnd⟩ ns := by
  rw [memberAccess, accept_bind] at h
  split at h
  · next hdot =>
    simp only [↓reduceIte, here_bind, bind_eq_ok, property_eq_ok, finish_bind, finish_eq_ok] at h
    obtain ⟨x, _, ⟨t, ht, hx, rfl⟩, rfl, rfl⟩ := h
    -- the name becomes a literal, a node of its own at a place of its own
    have hkey : Reads Implied levels .key c.advance _ c.advance.advance :=
      .node (.key x) rfl rfl rfl (.word ht hx .nil)
    exact ⟨false, _, _, .member s, .part hobject (.mark hdot (.single hkey)), rfl⟩
  · simp only [Bool.false_eq_true, ↓reduceIte, bind_eq_ok, expect_eq_ok, finish_eq_ok] at h
    obtain ⟨_, _, ⟨hopen, rfl⟩, key, m, hkey, _, _, ⟨hclose, rfl⟩, rfl, rfl⟩ := h
    have hkey := expression_reads hg hkey (Cursor.opens_false _)
    exact ⟨true, _, _, .computedMember s,
      .part hobject (.mark hopen (.part hkey (.mark hclose .nil))), rfl⟩

/-- A chain grows by a member access. -/
theorem memberStep_reads {start : Cursor} {object : Node}
    (h : memberStep g start.here object c = .ok (some n) c') (hrank : 16 ≤ rank)
    (hrank' : rank ≤ 17)
    (hobject : Reads Implied levels (.expression (.plain rank allowIn opening)) start object c) :
    Reads Implied levels (.expression (.plain rank allowIn opening)) start n c' := by
  rw [memberStep, peekKind?_bind] at h
  split at h
  · simp only [bind_eq_ok, bounded_eq_ok, pure_eq_ok] at h
    obtain ⟨access, m, haccess, _, _, ⟨hheight, rfl, rfl⟩, hsome, rfl⟩ := h
    cases hsome
    rw [← Slot.plain_object hrank] at hobject
    obtain ⟨computed, items, ns, hphrase, hitems, rfl⟩ := memberAccess_reads hg haccess hobject
    exact .link hphrase (Slot.plain_admits hrank' (Nat.le_add_left 13 4) fun _ => rfl) nofun
      hheight hitems
  · cases (pure_eq_ok.1 h).1

omit hg in
/-- A chain of member accesses that does not grow stays where it is. -/
theorem memberStep_none {start : Position} {object : Node}
    (h : memberStep g start object c = .ok none c') :
    c = c' ∧ c.kind? ≠ some (.punctuator .dot) ∧ c.kind? ≠ some (.punctuator .leftBracket) := by
  rw [memberStep, peekKind?_bind] at h
  split at h
  · simp only [bind_eq_ok, pure_eq_ok] at h
    obtain ⟨_, _, _, _, _, _, hsome, _⟩ := h
    cases hsome
  · next hkind =>
    exact ⟨(pure_eq_ok.1 h).2, fun hdot => hkind (.inl hdot), fun hopen => hkind (.inr hopen)⟩

omit hg in
/-- A chain of member accesses grows only where a token extends it. -/
theorem memberStep_some {start : Position} {object : Node}
    (h : memberStep g start object c = .ok (some n) c') : c.extendsChain := by
  rw [memberStep, peekKind?_bind] at h
  split at h
  · next hkind => exact .inr hkind
  · cases (pure_eq_ok.1 h).1

/-- A chain grows by a call or a member access. -/
theorem callStep_reads {start : Cursor} {callee : Node}
    (h : callStep g start.here callee c = .ok (some n) c')
    (hcallee : Reads Implied levels (.expression (.plain 16 allowIn opening)) start callee c) :
    Reads Implied levels (.expression (.plain 16 allowIn opening)) start n c' := by
  rw [callStep, check_bind] at h
  split at h
  · simp only [bind_eq_ok, finish_bind, bounded_eq_ok, pure_eq_ok] at h
    obtain ⟨list, m, hlist, _, _, ⟨hheight, rfl, rfl⟩, hsome, rfl⟩ := h
    cases hsome
    exact .link (.call _) (Slot.plain_admits (by decide) (by decide) fun _ => rfl) nofun hheight
      (.part hcallee (.single (arguments_read hg hlist)))
  · exact memberStep_reads hg h (by decide) (by decide) hcallee

omit hg in
/-- A chain that does not grow stays where it is. -/
theorem callStep_none {start : Position} {callee : Node}
    (h : callStep g start callee c = .ok none c') : c = c' ∧ ¬ c.extendsChain := by
  rw [callStep, check_bind] at h
  split at h
  · simp only [bind_eq_ok, pure_eq_ok] at h
    obtain ⟨_, _, _, _, _, _, _, _, _, hsome, _⟩ := h
    cases hsome
  · next hparen =>
    obtain ⟨rfl, hdot, hopen⟩ := memberStep_none h
    refine ⟨rfl, ?_⟩
    rintro (h | h | h)
    · exact hparen (beq_iff_eq.2 h)
    · exact hdot h
    · exact hopen h

omit hg in
/-- A chain grows only where a token extends it. -/
theorem callStep_some {start : Position} {callee : Node}
    (h : callStep g start callee c = .ok (some n) c') : c.extendsChain := by
  rw [callStep, check_bind] at h
  split at h
  · next hparen => exact .inl (eq_of_beq hparen)
  · exact memberStep_some h

/-- Member accesses behind what is constructed or called. -/
theorem memberChain_reads {start : Cursor} {head callee : Node} {count : Nat}
    (h : Steps (memberStep g start.here) count head c callee m) (hrank : 16 ≤ rank)
    (hrank' : rank ≤ 17)
    (hhead : Reads Implied levels (.expression (.plain rank allowIn opening)) start head c) :
    Reads Implied levels (.expression (.plain rank allowIn opening)) start callee m := by
  induction h with
  | refl => exact hhead
  | tail _ hstep ih => exact memberStep_reads hg hstep hrank hrank' (ih hhead)

/-- What stands right behind `new`: an expression whose members may be accessed, or another
construction, which nothing can extend. -/
theorem constructionHead_reads {head : Node} (h : g.construction c = .ok head m)
    (hkind : c.kind? = some (.keyword .newKw)) :
    Reads Implied levels (.expression .constructed) c head m ∨
      (Reads Implied levels .construction c head m ∧ ¬ m.extendsChain) := by
  obtain ⟨inner, rfl, hasArguments, items, ns, hphrase, hitems, rfl, hbare⟩ :=
    hg.construction h hkind
  cases hasArguments with
  | true => exact .inl (.node (.new _ hphrase) rfl rfl rfl hitems)
  | false => exact .inr ⟨.node (.construction hphrase) rfl rfl rfl hitems, hbare rfl⟩

/-- The part of a construction behind its head. -/
theorem constructionRest_reads {head : Node} {start : Cursor}
    (h : (do
      let callee ← chain (memberStep g start.advance.here) head
      if ← check (.punctuator .leftParen) then
        let list ← arguments g
        finish (.newExpression true) start.here [callee, list]
      else
        finish (.newExpression false) start.here [callee]) c = .ok n c')
    (hkind : start.kind? = some (.keyword .newKw))
    (hhead : Reads Implied levels (.expression .constructed) start.advance head c ∨
      (Reads Implied levels .construction start.advance head c ∧ ¬ c.extendsChain)) :
    Constructs Implied levels start n c' := by
  simp only [bind_eq_ok, check_bind] at h
  obtain ⟨callee, m, hchain, h⟩ := h
  obtain ⟨count, m', hsteps, hstop⟩ := chain_sound hchain
  obtain ⟨rfl, hdot, hbracket⟩ := memberStep_none hstop
  obtain hhead | ⟨hhead, hstays⟩ := hhead
  · have hcallee := memberChain_reads hg hsteps (by decide) (by decide) hhead
    split at h
    · simp only [bind_eq_ok, finish_eq_ok] at h
      obtain ⟨list, m'', hlist, rfl, rfl⟩ := h
      exact ⟨true, _, _, .arguments,
        .keyword hkind (.part hcallee (.single (arguments_read hg hlist))), rfl, nofun⟩
    · next hparen =>
      obtain ⟨rfl, rfl⟩ := finish_eq_ok.1 h
      refine ⟨false, _, _, .bare, .keyword hkind (.single hcallee), rfl, fun _ => ?_⟩
      rintro (h | h | h)
      · exact hparen (beq_iff_eq.2 h)
      · exact hdot h
      · exact hbracket h
  -- the inner construction ends where nothing extends it, so the outer one ends there too
  · obtain ⟨rfl, rfl⟩ := hsteps.eq_of_stuck fun _ _ hstep => hstays (memberStep_some hstep)
    have hparen : (m'.kind? == some (.punctuator .leftParen)) = false :=
      beq_eq_false_iff_ne.2 fun h => hstays (.inl h)
    simp only [hparen, Bool.false_eq_true, ↓reduceIte, finish_eq_ok] at h
    obtain ⟨rfl, rfl⟩ := h
    exact ⟨false, _, _, .nested, .keyword hkind (.single hhead), rfl, fun _ => hstays⟩

/-- A construction with `new`. -/
theorem construction_reads (h : construction g c = .ok n c')
    (hkind : c.kind? = some (.keyword .newKw)) : Constructs Implied levels c n c' := by
  simp only [construction, here_bind, advance_bind, check_bind] at h
  split at h
  · next hnew =>
    obtain ⟨head, m, hhead, h⟩ := bind_eq_ok.1 h
    exact constructionRest_reads hg h hkind
      (constructionHead_reads hg hhead (eq_of_beq hnew))
  · obtain ⟨head, m, hhead, h⟩ := bind_eq_ok.1 h
    exact constructionRest_reads hg h hkind
      (.inl (primary_reads hg hhead (Cursor.opens_false _) (by decide)))

/-- Calls and member accesses behind the head of a chain. -/
theorem calls_read {start : Cursor} {head : Node} {count : Nat}
    (h : Steps (callStep g start.here) count head c n m)
    (hhead : Reads Implied levels (.expression (.plain 16 allowIn opening)) start head c) :
    Reads Implied levels (.expression (.plain 16 allowIn opening)) start n m := by
  induction h with
  | refl => exact hhead
  | tail _ hstep ih => exact callStep_reads hg hstep (ih hhead)

/-- A construction or a primary expression with calls and member accesses. -/
theorem callChain_reads (h : callChain g c = .ok n c') (hopens : c.Opens opening) :
    Reads Implied levels (.expression (.plain 15 allowIn opening)) c n c' := by
  rw [callChain, here_bind, check_bind] at h
  split at h
  · next hnew =>
    obtain ⟨head, m, hhead, h⟩ := bind_eq_ok.1 h
    have hhead := construction_reads hg hhead (eq_of_beq hnew)
    obtain ⟨count, m', hsteps, hstop⟩ := chain_sound h
    obtain ⟨rfl, _⟩ := callStep_none hstop
    obtain ⟨hasArguments, items, ns, hphrase, hitems, rfl, hbare⟩ := id hhead
    cases hasArguments with
    | true =>
      have hcalls : Reads Implied levels (.expression (.plain 16 allowIn opening)) c n m' :=
        calls_read hg hsteps (hhead.reads (Nat.le_succ 16) (Nat.le_refl 16))
      exact hcalls.lower (by decide) (by decide) (by decide)
    | false =>
      -- a construction without arguments has taken all that could extend it
      obtain ⟨rfl, rfl⟩ := hsteps.eq_of_stuck fun _ _ hstep => hbare rfl (callStep_some hstep)
      exact hhead.reads (Nat.le_refl 15) (by decide)
  · obtain ⟨head, m, hhead, h⟩ := bind_eq_ok.1 h
    obtain ⟨count, m', hsteps, hstop⟩ := chain_sound h
    obtain ⟨rfl, _⟩ := callStep_none hstop
    have hcalls : Reads Implied levels (.expression (.plain 16 allowIn opening)) c n m' :=
      calls_read hg hsteps (primary_reads hg hhead hopens (by decide))
    exact hcalls.lower (by decide) (by decide) (by decide)

/-! ## Operators -/

omit hg in
/-- What can be stored into needs no parentheses to the left of a store. -/
theorem stored_reads {s : Slot}
    (h : Reads Implied levels (.expression (.plain rank s.allowIn s.opening)) c n c')
    (hrank : rank ≤ 16) (hassignable : n.isAssignable = true) :
    Reads Implied levels (.expression s.stored) c n c' := by
  have hserves : s.stored.serves n.form = true := hassignable
  have hadmits : (Slot.plain rank s.allowIn s.opening).admits n.form = true →
      s.stored.admits n.form = true ∧ n.form.rank ≠ 0 := by
    intro h
    obtain ⟨_, hin, hopening, _⟩ := Slot.admits_iff.1 h
    have hform := Form.le_rank_of_isAssignable hassignable
    exact ⟨Slot.admits_iff.2 ⟨hform, hin, hopening, hserves⟩, by omega⟩
  obtain ⟨_, rfl, hread⟩ := h.reslot hadmits hserves hrank (Nat.le_succ 15) rfl rfl
  exact hread

/-- A chain of calls with an update operator behind it. -/
theorem updated_reads (h : updated g c = .ok n c') (hopens : c.Opens opening) :
    Reads Implied levels (.expression (.plain 13 allowIn opening)) c n c' := by
  simp only [updated, here_bind, bind_eq_ok, newlineBefore_bind] at h
  obtain ⟨operand, m, hoperand, h⟩ := h
  have hoperand : Reads Implied levels (.expression (.plain 15 allowIn opening)) c operand m :=
    callChain_reads hg hoperand hopens
  split at h
  · obtain ⟨rfl, rfl⟩ := pure_eq_ok.1 h
    exact hoperand.lower (by decide) (by decide) (by decide)
  next hline =>
    rw [peekKind?_bind] at h
    cases hoperator : m.kind?.bind UpdateOperator.ofKind? with
    | none =>
      rw [hoperator] at h
      obtain ⟨rfl, rfl⟩ := pure_eq_ok.1 h
      exact hoperand.lower (by decide) (by decide) (by decide)
    | some operator =>
      simp only [hoperator, bind_eq_ok, requireAssignable_eq_ok, advance_bind, finish_eq_ok] at h
      obtain ⟨_, _, ⟨hassignable, rfl⟩, rfl, rfl⟩ := h
      obtain ⟨t, ht, hmeaning⟩ := Cursor.exists_meaning hoperator
      exact .operand (.updated _ operator) (Nat.le_succ 13) (Nat.le_succ 13) (fun _ => rfl) nofun
        rfl
        (.part (stored_reads hoperand (by decide) hassignable)
          (.sameLine (Bool.eq_false_iff.2 hline) (.word ht hmeaning .nil)))

/-- An operand with the operators before it. -/
theorem unary_reads (h : unary g c = .ok n c') (hopens : c.Opens opening) :
    Reads Implied levels (.expression (.plain 13 allowIn opening)) c n c' := by
  rw [unary, here_bind, peekKind?_bind] at h
  cases hkind : c.kind? with
  | none =>
    rw [hkind] at h
    exact absurd h unexpected_ne_ok
  | some kind =>
    obtain ⟨t, ht, rfl⟩ := Cursor.exists_token hkind
    simp only [hkind] at h
    cases hupdate : UpdateOperator.ofKind? t.kind with
    | some operator =>
      simp only [hupdate, advance_bind, bind_eq_ok, requireAssignable_eq_ok, finish_eq_ok] at h
      obtain ⟨operand, m, hoperand, _, _, ⟨hassignable, rfl⟩, rfl, rfl⟩ := h
      exact .operand (.update _ operator) (Nat.le_refl 13) (Nat.le_refl 13) (fun _ => rfl) nofun rfl
        (.word ht hupdate (.single (hg.unary hoperand fun _ => hassignable)))
    | none =>
      simp only [hupdate] at h
      cases hunary : UnaryOperator.ofKind? t.kind with
      | some operator =>
        simp only [hunary, advance_bind, bind_eq_ok, finish_eq_ok] at h
        obtain ⟨operand, m, hoperand, rfl, rfl⟩ := h
        exact .operand (.unary _ operator) (Nat.le_refl 13) (Nat.le_refl 13) (fun _ => rfl) nofun
          rfl
          (.word ht hunary (.single (hg.unary hoperand nofun)))
      | none =>
        simp only [hunary] at h
        exact updated_reads hg h hopens

omit hg in
/-- The next operator counts if it binds tighter than `loosest`. -/
theorem binaryOperator?_bind {β : Type} {loosest : Nat} (f : Option BinaryOperator → Parser β) :
    (binaryOperator? allowIn loosest >>= f) c =
      f ((c.operator? allowIn).filter fun operator => loosest < operator.precedence) c := by
  have hrun : binaryOperator? allowIn loosest c =
      .ok ((c.operator? allowIn).filter fun operator => loosest < operator.precedence) c := by
    rw [binaryOperator?, peekKind?_bind, Cursor.operator?]
    cases c.kind?.bind BinaryOperator.ofKind? with
    | none => rfl
    | some operator =>
      by_cases hin : operator = .isIn ∧ allowIn = false
      · obtain ⟨rfl, rfl⟩ := hin
        rfl
      · have hallowed : (allowIn || operator != .isIn) = true := by
          cases allowIn <;> simp_all
        simp only [hin, ↓reduceIte, Option.filter_some, hallowed]
        by_cases hloose : operator.precedence ≤ loosest
        · simp only [hloose, ↓reduceIte, Nat.not_lt.2 hloose, decide_false, Bool.false_eq_true]
          rfl
        · simp only [hloose, ↓reduceIte, Nat.lt_of_not_le hloose, decide_true]
          rfl
  show EStateM.bind (binaryOperator? allowIn loosest) f c = _
  unfold EStateM.bind
  rw [hrun]

omit hg in
/-- The next operator is spelled by a token, and it is `in` only where that is an operator. -/
theorem operator?_eq_some {operator : BinaryOperator} (h : c.operator? allowIn = some operator) :
    (∃ t, c.rest.head? = some t ∧ BinaryOperator.ofKind? t.kind = some operator) ∧
      (allowIn = true ∨ operator ≠ .isIn) := by
  rw [Cursor.operator?, Option.filter_eq_some_iff] at h
  obtain ⟨hmeaning, hallowed⟩ := h
  exact ⟨Cursor.exists_meaning hmeaning, by simpa using hallowed⟩

omit hg in
theorem precedence_le (operator : BinaryOperator) : operator.precedence ≤ precedences := by
  cases operator <;> decide

omit hg in
/-- A binary loop grows by an operator and what is read behind it. -/
theorem binaryStep_reads {right : BinaryOperator → Parser Node} {loosest : Nat} {start : Cursor}
    {left : Node}
    (hright : ∀ {operator c n c'}, right operator c = .ok n c' → loosest < operator.precedence →
      Reads Implied levels (.expression (.plain (3 + operator.precedence) allowIn false)) c n c' ∧
        ∀ next, c'.operator? allowIn = some next → next.precedence ≤ operator.precedence)
    (h : binaryStep right allowIn loosest start.here left c = .ok (some n) c')
    (hleft : LeftOperand levels allowIn opening loosest start left c) :
    LeftOperand levels allowIn opening loosest start n c' := by
  obtain ⟨precedence, htight, hbound, hleft, hnext⟩ := hleft
  rw [binaryStep, binaryOperator?_bind] at h
  cases hoperator :
      (c.operator? allowIn).filter fun operator => loosest < operator.precedence with
  | none =>
    rw [hoperator] at h
    cases (pure_eq_ok.1 h).1
  | some operator =>
    simp only [hoperator, advance_bind, bind_eq_ok, finish_bind, bounded_eq_ok, pure_eq_ok] at h
    obtain ⟨operand, m, hoperand, _, _, ⟨hheight, rfl, rfl⟩, hsome, rfl⟩ := h
    cases hsome
    obtain ⟨hoperator, hloosest⟩ := Option.filter_eq_some_iff.1 hoperator
    obtain ⟨⟨t, ht, hmeaning⟩, hallowed⟩ := operator?_eq_some hoperator
    obtain ⟨hoperand, hstop⟩ := hright hoperand (of_decide_eq_true hloosest)
    have hle := hnext operator hoperator
    have hmost := precedence_le operator
    refine ⟨operator.precedence, of_decide_eq_true hloosest, Nat.le_succ_of_le hmost, ?_, hstop⟩
    have hadmits : (Slot.plain (2 + operator.precedence) allowIn opening).admits
        (.binaryExpression operator) = true :=
      Slot.admits_iff.2 ⟨Nat.le_refl _, hallowed.imp_right fun hne => by simpa using hne,
        fun _ => rfl, rfl⟩
    have hfirst : Reads Implied levels
        (.expression (.plain (2 + operator.precedence) allowIn opening)) start left c :=
      hleft.lower (by omega) (by omega) (by omega)
    exact .link (.binary _ operator) hadmits nofun hheight
      (.part hfirst (.word ht hmeaning (.single hoperand)))

omit hg in
/-- A binary loop stops before an operator that is too loose. -/
theorem binaryStep_none {right : BinaryOperator → Parser Node} {loosest : Nat} {start : Position}
    {left : Node} (h : binaryStep right allowIn loosest start left c = .ok none c') :
    c = c' ∧ ∀ operator, c.operator? allowIn = some operator → operator.precedence ≤ loosest := by
  rw [binaryStep, binaryOperator?_bind] at h
  cases hoperator :
      (c.operator? allowIn).filter fun operator => loosest < operator.precedence with
  | none =>
    rw [hoperator] at h
    refine ⟨(pure_eq_ok.1 h).2, fun operator hnext => ?_⟩
    rw [hnext] at hoperator
    simpa using hoperator
  | some operator =>
    simp only [hoperator, advance_bind, bind_eq_ok, pure_eq_ok] at h
    obtain ⟨_, _, _, _, _, _, _, _, _, hsome, _⟩ := h
    cases hsome

omit hg in
/-- What a binary loop has read after any number of operators. -/
theorem binarySteps_read {right : BinaryOperator → Parser Node} {loosest count : Nat}
    {start : Cursor} {left : Node}
    (hright : ∀ {operator c n c'}, right operator c = .ok n c' → loosest < operator.precedence →
      Reads Implied levels (.expression (.plain (3 + operator.precedence) allowIn false)) c n c' ∧
        ∀ next, c'.operator? allowIn = some next → next.precedence ≤ operator.precedence)
    (h : Steps (binaryStep right allowIn loosest start.here) count left c n c')
    (hleft : LeftOperand levels allowIn opening loosest start left c) :
    LeftOperand levels allowIn opening loosest start n c' := by
  induction h with
  | refl => exact hleft
  | tail _ hstep ih => exact binaryStep_reads hright hstep (ih hleft)

/-- Operands with binary operators between them, up to an operator that is too loose. -/
theorem binary_reads {depth loosest : Nat} (h : binary g allowIn depth loosest c = .ok n c')
    (hdepth : precedences ≤ depth + loosest) (hloosest : loosest ≤ precedences)
    (hopens : c.Opens opening) :
    Reads Implied levels (.expression (.plain (3 + loosest) allowIn opening)) c n c' ∧
      ∀ next, c'.operator? allowIn = some next → next.precedence ≤ loosest := by
  induction depth generalizing loosest c n c' opening with
  | zero =>
    obtain rfl : loosest = precedences := by omega
    exact ⟨unary_reads hg h hopens, fun next _ => precedence_le next⟩
  | succ depth ih =>
    simp only [binary, here_bind, bind_eq_ok] at h
    obtain ⟨head, m, hhead, h⟩ := h
    obtain ⟨count, m', hsteps, hstop⟩ := chain_sound h
    obtain ⟨rfl, hnext⟩ := binaryStep_none hstop
    have hhead : LeftOperand levels allowIn opening loosest c head m :=
      ⟨11, Nat.lt_succ_of_le hloosest, Nat.le_refl 11, unary_reads hg hhead hopens,
        fun next _ => Nat.le_succ_of_le (precedence_le next)⟩
    have hright : ∀ {operator : BinaryOperator} {c n c'},
        binary g allowIn depth operator.precedence c = .ok n c' →
        loosest < operator.precedence →
        Reads Implied levels (.expression (.plain (3 + operator.precedence) allowIn false)) c n c' ∧
          ∀ next, c'.operator? allowIn = some next → next.precedence ≤ operator.precedence :=
      fun h htight => ih h (by omega) (precedence_le _) (Cursor.opens_false _)
    obtain ⟨precedence, htight, hbound, hread, _⟩ := binarySteps_read hright hsteps hhead
    exact ⟨hread.lower (by omega) (by omega) (by omega), hnext⟩

/-- A choice between two expressions, or an expression without one. -/
theorem conditional_reads (h : conditional g allowIn c = .ok n c') (hopens : c.Opens opening) :
    Reads Implied levels (.expression (.plain 2 allowIn opening)) c n c' := by
  simp only [conditional, here_bind, bind_eq_ok, accept_bind] at h
  obtain ⟨test, m, htest, h⟩ := h
  have htest : Reads Implied levels (.expression (.plain 3 allowIn opening)) c test m :=
    (binary_reads hg htest (by decide) (by decide) hopens).1
  split at h
  · next hhook =>
    simp only [↓reduceIte, bind_eq_ok, expect_eq_ok, finish_eq_ok] at h
    obtain ⟨consequent, m', hconsequent, _, _, ⟨hcolon, rfl⟩, alternate, m'', halternate, rfl,
      rfl⟩ := h
    have hconsequent := hg.assignment hconsequent (Cursor.opens_false _)
    have halternate := hg.assignment halternate (Cursor.opens_false _)
    refine .node (.conditional _) ?_ rfl rfl
      (.part htest (.mark hhook (.part hconsequent (.mark hcolon (.single halternate)))))
    exact Slot.admits_iff.2 ⟨Nat.le_refl 2, .inr nofun, fun _ => rfl, rfl⟩
  · simp only [Bool.false_eq_true, ↓reduceIte, pure_eq_ok] at h
    obtain ⟨rfl, rfl⟩ := h
    exact htest.lower (by decide) (by decide) (by decide)

/-- An assignment, or an expression without one. -/
theorem assignment_reads (h : assignment g allowIn c = .ok n c') (hopens : c.Opens opening) :
    Reads Implied levels (.expression (.plain 1 allowIn opening)) c n c' := by
  simp only [assignment, here_bind, bind_eq_ok, peekKind?_bind] at h
  obtain ⟨target, m, htarget, h⟩ := h
  have htarget : Reads Implied levels (.expression (.plain 2 allowIn opening)) c target m :=
    conditional_reads hg htarget hopens
  cases hoperator : m.kind?.bind AssignOperator.ofKind? with
  | none =>
    rw [hoperator] at h
    obtain ⟨rfl, rfl⟩ := pure_eq_ok.1 h
    exact htarget.lower (by decide) (by decide) (by decide)
  | some operator =>
    simp only [hoperator, bind_eq_ok, requireAssignable_eq_ok, advance_bind, finish_eq_ok] at h
    obtain ⟨_, _, ⟨hassignable, rfl⟩, value, m', hvalue, rfl, rfl⟩ := h
    obtain ⟨t, ht, hmeaning⟩ := Cursor.exists_meaning hoperator
    have hvalue := hg.assignment hvalue (Cursor.opens_false _)
    refine .node (.assignment _ operator) ?_ rfl rfl
      (.part (stored_reads htarget (by decide) hassignable) (.word ht hmeaning (.single hvalue)))
    exact Slot.admits_iff.2 ⟨Nat.le_refl 1, .inr nofun, fun _ => rfl, rfl⟩

end Productions

end Grammar

end ScriptLint
