import ScriptLint.Proofs.Grammar.Follow
import ScriptLint.Proofs.Tree.Preorder

/-!
# Expressions that follow the rules are read

The converse of `ScriptLint.Proofs.Grammar.ExpressionReading` for scripts that write every
terminator out: where tokens are written by the rules as a node, and the token behind them joins
them to nothing, the production of the node succeeds with that node and stops there, if that is so
of the productions with one nesting level less.

The loops follow the left spine of a node. What stands at the bottom of the spine is the head that
the production reads first, and every node above it is one round of the loop (`binarySpine`,
`callSpine`, `memberSpine`).
-/

namespace ScriptLint

/-- Nothing takes the place of a `;`. -/
def Cursor.Never (_ : Cursor) : Prop := False

/-- What follows a statement belongs to no part of it. An `else` may follow only a closed one. -/
def Cursor.Closes (c : Cursor) (closed : Bool) : Prop :=
  c.kind? ≠ some (.keyword .finallyKw) ∧ (closed = false → c.kind? ≠ some (.keyword .elseKw))

open Cursor (Never)

/-- The productions that open a nesting level read all that the rules allow within `levels`
levels. -/
structure Nested.Complete (g : Nested) (levels : Nat) : Prop where
  ending {c : Cursor} : c.kind? = some (.punctuator .semicolon) → g.ending c = .ok () c.advance
  statement {closed : Bool} {c c' : Cursor} {n : Node} :
    Reads Never levels (.statement closed) c n c' → c'.Closes closed → g.statement c = .ok n c'
  block {c c' : Cursor} {n : Node} : Reads Never levels .block c n c' → g.block c = .ok n c'
  assignment {allowIn opening : Bool} {c c' : Cursor} {n : Node} :
    Reads Never levels (.expression (.item allowIn opening)) c n c' → c'.Ends allowIn 1 →
    g.assignment allowIn c = .ok n c'
  unary {target allowIn : Bool} {c c' : Cursor} {n : Node} :
    Reads Never levels (.expression (.operand target)) c n c' → c'.Ends allowIn 14 →
    g.unary c = .ok n c'
  construction {inner : Nat} {c c' : Cursor} {n : Node} : levels = inner + 1 →
    Constructs Never inner c n c' → g.construction c = .ok n c'

/-- The forms of a rank that is not shared with others. -/
theorem Form.of_rank (form : Form) :
    match form.rank with
    | 0 => form = .sequenceExpression
    | 1 => ∃ operator, form = .assignmentExpression operator
    | 2 => form = .conditionalExpression
    | 13 => (∃ operator, form = .unaryExpression operator) ∨
        ∃ operator, form = .updateExpression operator true
    | 14 => ∃ operator, form = .updateExpression operator false
    | 15 => form = .newExpression false
    | 16 => form = .callExpression
    | _ => True := by
  cases form with
  | sequenceExpression | conditionalExpression | callExpression => rfl
  | assignmentExpression operator => exact ⟨operator, rfl⟩
  | binaryExpression operator => cases operator <;> trivial
  | unaryExpression operator => exact .inl ⟨operator, rfl⟩
  | updateExpression operator leading =>
    cases leading with
    | true => exact .inr ⟨operator, rfl⟩
    | false => exact ⟨operator, rfl⟩
  | newExpression hasArguments =>
    cases hasArguments with
    | true => trivial
    | false => rfl
  | _ => trivial

/-- The forms of the ranks between those of choices and of operators before their operand. -/
theorem Form.eq_binary_of_rank {form : Form} (htight : 3 ≤ form.rank) (hloose : form.rank < 13) :
    ∃ operator, form = .binaryExpression operator := by
  cases form with
  | binaryExpression operator => exact ⟨operator, rfl⟩
  | updateExpression operator leading => cases leading <;> simp [Form.rank] at hloose
  | newExpression hasArguments => cases hasArguments <;> simp [Form.rank] at hloose
  | _ => simp [Form.rank] at htight hloose

/-- An expression can stand where the next rank is asked for, unless it has no parentheses and is
of the very rank. -/
theorem Reads.raise {implied : Cursor → Prop} {levels rank : Nat} {c c' : Cursor} {n : Node}
    {allowIn opening : Bool}
    (h : Reads implied levels (.expression (.plain rank allowIn opening)) c n c')
    (hpos : 0 < rank) (hrank : rank ≤ 15) :
    Reads implied levels (.expression (.plain (rank + 1) allowIn opening)) c n c' ∨
      ∃ form, form.rank = rank ∧
        ReadsBare implied levels (.plain rank allowIn opening) c form n c' := by
  obtain ⟨inner, rfl, hread⟩ | ⟨inner, form, rfl, hform, hbare⟩ :=
    h.reslot_or (.plain (rank + 1) allowIn opening) rfl (Nat.le_succ_of_le hrank)
      (Nat.succ_le_succ hrank) rfl rfl
  · exact .inl hread
  · obtain ⟨items, ns, hadmits, _⟩ := id hbare
    obtain ⟨hle, hin, hopening, _⟩ := Slot.admits_iff.1 hadmits
    have hle : rank ≤ form.rank := hle
    have hexact : form.rank = rank := by
      by_cases hlt : rank + 1 ≤ form.rank
      · have hzero := hform (Slot.admits_iff.2 ⟨hlt, hin, hopening, rfl⟩)
        omega
      · omega
    have hcharge : (Slot.plain rank allowIn opening).charge form = 0 :=
      Slot.charge_eq (Nat.le_succ_of_le hrank) (by omega)
    rw [hcharge]
    exact .inr ⟨form, hexact, hbare⟩

/-- An expression fits the purpose of its slot. -/
theorem Reads.serves {implied : Cursor → Prop} {levels : Nat} {c c' : Cursor} {n : Node} {s : Slot}
    (h : Reads implied levels (.expression s) c n c') : s.serves n.form = true := by
  cases h with
  | plain hadmits _ _ _ => exact (Slot.admits_iff.1 hadmits).2.2.2
  | enclosed hserves _ _ _ => exact hserves
  | through hthrough _ => cases hthrough

/-- What something is stored into can stand where any expression of its rank can. -/
theorem Reads.of_stored {implied : Cursor → Prop} {levels rank : Nat} {c c' : Cursor} {n : Node}
    {s : Slot} (h : Reads implied levels (.expression s.stored) c n c') (hrank : rank ≤ 15) :
    Reads implied levels (.expression (.plain rank s.allowIn s.opening)) c n c' := by
  have hadmits : s.stored.admits n.form = true →
      (Slot.plain rank s.allowIn s.opening).admits n.form = true ∧ n.form.rank ≠ 0 := by
    intro h
    obtain ⟨hle, hin, hopening, _⟩ := Slot.admits_iff.1 h
    have hle : 15 ≤ n.form.rank := hle
    exact ⟨Slot.admits_iff.2 ⟨Nat.le_trans hrank hle, hin, hopening, rfl⟩, by omega⟩
  obtain ⟨_, rfl, hread⟩ :=
    h.reslot hadmits rfl (Nat.le_succ 15) (Nat.le_succ_of_le hrank) rfl rfl
  exact hread

theorem Construction.kind?_eq {implied : Cursor → Prop} {levels : Nat} {c c' : Cursor}
    {hasArguments : Bool} {items : List Item} {ns : List Node}
    (h : Construction hasArguments items) (hitems : ReadsItems implied levels items c ns c') :
    c.kind? = some (.keyword .newKw) := by
  cases h <;> exact (ReadsItems.keyword_iff.1 hitems).1

/-- Whether an expression of the form is neither made of others nor a construction. -/
def Form.isPrimary : Form → Bool
  | .functionExpression _ | .arrayExpression | .objectExpression | .thisExpression
  | .identifier _ | .literal _ => true
  | _ => false

namespace Grammar

open ScriptLint.Parser

variable {g : Nested} {levels count : Nat} {c m c' : Cursor} {n : Node} {ns : List Node}
  {place : Place} {allowIn opening : Bool}

/-! ## Lists -/

/-- Behind an item of a list stands a comma or what stands behind the list. -/
theorem ends_of_followers (h : ReadsItems Never levels (Item.followers place count) m ns c')
    (hend : c'.Ends allowIn 0) : m.Ends allowIn 1 := by
  cases count with
  | zero =>
    obtain ⟨_, rfl⟩ := ReadsItems.nil_iff.1 h
    exact hend.mono (Nat.zero_le 1)
  | succ count =>
    obtain ⟨hcomma, _⟩ := ReadsItems.mark_iff.1 h
    exact .of_some hcomma rfl Nat.zero_lt_one

/-- Items behind commas. -/
theorem followers_complete {item : Parser Node}
    (hitem : ∀ {c n c'}, Reads Never levels place c n c' → c'.Ends allowIn 1 → item c = .ok n c')
    (h : ReadsItems Never levels (Item.followers place count) c ns c')
    (hend : c'.Ends allowIn 0) : Collects (after? (.punctuator .comma) item) c ns c' := by
  induction count generalizing c ns with
  | zero =>
    obtain ⟨rfl, rfl⟩ := ReadsItems.nil_iff.1 h
    exact .done (after?_eq_ok.2 (.inr ⟨hend.ne_comma, rfl, rfl⟩))
  | succ count ih =>
    simp only [Item.followers, ReadsItems.mark_iff, ReadsItems.part_iff] at h
    obtain ⟨hcomma, n, others, m, rfl, hn, hothers⟩ := h
    have hn := hitem hn (ends_of_followers hothers hend)
    exact .more (after?_eq_ok.2 (.inl ⟨n, hcomma, hn, rfl⟩)) (ih hothers)

/-- The tokens ahead are a budget for the items behind commas. -/
theorem followers_length (h : ReadsItems Never levels (Item.followers place count) c ns c')
    (hplace : place.isInner = true) : ns.length ≤ c.rest.length :=
  Nat.le_of_add_right_le (h.length_le (Item.isInner_followers hplace count))

/-- Items with commas between them. -/
theorem separated_complete {item : Parser Node}
    (h : ReadsItems Never levels (Item.separated place (count + 1)) c ns c')
    (hplace : place.isInner = true)
    (hitem : ∀ {c n c'}, Reads Never levels place c n c' → c'.Ends allowIn 1 → item c = .ok n c')
    (hend : c'.Ends allowIn 0) : separated item c = .ok ns c' := by
  obtain ⟨first, others, m, rfl, hfirst, hothers⟩ := ReadsItems.part_iff.1 h
  have hfirst := hitem hfirst (ends_of_followers hothers hend)
  have hcollect := collect_complete (followers_complete hitem hothers hend)
    (followers_length hothers hplace)
  simp only [separated, bind_eq_ok, pure_eq_ok]
  exact ⟨first, m, hfirst, others, c', hcollect, rfl, rfl⟩

/-- Items in parentheses. -/
theorem enclosedList_complete {form : Form} {item : Parser Node}
    (h : ReadsItems Never levels
      (.mark .leftParen :: (Item.separated place count ++ [.mark .rightParen])) c ns c')
    (hplace : place.isInner = true)
    (hstarts : place.startsWith (.punctuator .rightParen) = false)
    (hitem : ∀ {c n c'}, Reads Never levels place c n c' → c'.Ends allowIn 1 →
      item c = .ok n c') :
    enclosedList form item c = .ok (Node.build form ⟨c.here, c'.lastEnd⟩ ns) c' := by
  simp only [ReadsItems.mark_iff, ReadsItems.append_iff, ReadsItems.nil_iff] at h
  obtain ⟨hopen, items, _, m, rfl, hitems, hclose, rfl, rfl⟩ := h
  rw [enclosedList, here_bind, List.append_nil]
  refine bind_eq_ok.2 ⟨(), _, expect_eq_ok.2 ⟨hopen, rfl⟩, ?_⟩
  have hend : m.Ends allowIn 0 := .of_none hclose rfl
  cases count with
  | zero =>
    obtain ⟨rfl, rfl⟩ := ReadsItems.nil_iff.1 hitems
    rw [check_pos hclose]
    exact bind_eq_ok.2 ⟨[], _, rfl, bind_eq_ok.2 ⟨(), _, expect_eq_ok.2 ⟨hclose, rfl⟩, rfl⟩⟩
  | succ count =>
    obtain ⟨_, _, _, rfl, hfirst, _⟩ := ReadsItems.part_iff.1 hitems
    have hlist := separated_complete hitems hplace hitem hend
    rw [check_neg (hfirst.kind?_ne hstarts)]
    exact bind_eq_ok.2 ⟨_, m, hlist, bind_eq_ok.2 ⟨(), _, expect_eq_ok.2 ⟨hclose, rfl⟩, rfl⟩⟩

theorem parameter_complete (h : Reads Never levels .parameter c n c') :
    parameter c = .ok n c' := by
  cases h with
  | plain _ hphrase hitems _ =>
    cases hphrase with
    | parameter x =>
      simp only [ReadsItems.word_iff, ReadsItems.nil_iff] at hitems
      obtain ⟨t, ht, hx, rfl, rfl⟩ := hitems
      simp only [parameter, here_bind, bind_eq_ok, name_eq_ok]
      exact ⟨x, _, ⟨t, ht, hx, rfl⟩, rfl⟩
  | through hthrough _ => cases hthrough

theorem parameters_complete (h : Reads Never levels .parameters c n c') :
    parameters c = .ok n c' := by
  cases h with
  | plain _ hphrase hitems _ =>
    cases hphrase with
    | parameters count =>
      exact enclosedList_complete hitems rfl rfl
        fun h (_ : Cursor.Ends _ true 1) => parameter_complete h
  | through hthrough _ => cases hthrough

section Productions

variable (hg : g.Complete levels)
include hg

theorem arguments_complete (h : Reads Never levels .arguments c n c') :
    arguments g c = .ok n c' := by
  cases h with
  | plain _ hphrase hitems _ =>
    cases hphrase with
    | arguments count =>
      exact enclosedList_complete hitems rfl rfl fun h hend => hg.assignment h hend
  | through hthrough _ => cases hthrough

/-- One or more expressions with commas between them. -/
theorem expression_complete
    (h : Reads Never levels (.expression (.whole allowIn opening)) c n c')
    (hend : c'.Ends allowIn 0) : expression g allowIn c = .ok n c' := by
  rw [expression, here_bind]
  obtain ⟨inner, rfl, hitem⟩ | ⟨inner, form, hlevels, hform, items, ns, hadmits, hphrase, hitems,
      rfl, _⟩ :=
    h.reslot_or (.item allowIn opening) rfl (Nat.zero_le 16) (Nat.le_add_left 1 15) rfl rfl
  · refine bind_eq_ok.2 ⟨n, c', hg.assignment hitem (hend.mono (Nat.zero_le 1)), ?_⟩
    rw [check_neg hend.ne_comma]
    rfl
  -- an expression that is no item of a list is a list itself
  have hrank : form.rank = 0 := by
    obtain ⟨_, hin, hopening, _⟩ := Slot.admits_iff.1 hadmits
    by_cases hzero : form.rank = 0
    · exact hzero
    · exact hform (Slot.admits_iff.2 ⟨Nat.one_le_iff_ne_zero.2 hzero, hin, hopening, rfl⟩)
  have hsequence := form.of_rank
  rw [hrank] at hsequence
  obtain rfl : form = .sequenceExpression := hsequence
  obtain rfl : levels = inner := hlevels
  cases hphrase with
  | sequence _ count =>
    obtain ⟨first, others, m, rfl, hfirst, hothers⟩ := ReadsItems.part_iff.1 hitems
    obtain ⟨hcomma, _⟩ := ReadsItems.mark_iff.1 hothers
    have hfirst := hg.assignment hfirst (ends_of_followers hothers hend)
    have hcollects := followers_complete (fun h hend => hg.assignment h hend) hothers hend
    have hcollect := collect_complete hcollects (followers_length hothers rfl)
    refine bind_eq_ok.2 ⟨first, m, hfirst, ?_⟩
    rw [check_pos hcomma]
    exact bind_eq_ok.2 ⟨others, c', hcollect, rfl⟩

/-- An expression in parentheses. -/
theorem parenthesized_complete (hopen : c.kind? = some (.punctuator .leftParen))
    (h : Reads Never levels .top c.advance n m)
    (hclose : m.kind? = some (.punctuator .rightParen)) :
    parenthesized g c = .ok n m.advance := by
  have hend : m.Ends true 0 := .of_none hclose rfl
  simp only [parenthesized, bind_eq_ok, expect_eq_ok, pure_eq_ok]
  exact ⟨(), _, ⟨hopen, rfl⟩, n, m, expression_complete hg h hend, (), _, ⟨hclose, rfl⟩, rfl, rfl⟩

/-- An expression in parentheses that belong to the phrase around it. -/
theorem guard_complete {items : List Item}
    (h : ReadsItems Never levels (Item.guard ++ items) c ns c') :
    ∃ n others m, ns = n :: others ∧ parenthesized g c = .ok n m ∧
      ReadsItems Never levels items m others c' := by
  simp only [Item.guard, List.cons_append, List.nil_append, ReadsItems.mark_iff,
    ReadsItems.part_iff] at h
  obtain ⟨hopen, n, others, m, rfl, hn, hclose, hitems⟩ := h
  exact ⟨n, others, m.advance, rfl, parenthesized_complete hg hopen hn hclose, hitems⟩

/-- The parameters and the body of a function. -/
theorem functionOf_complete {form : Form} {start : Position}
    (h : ReadsItems Never levels [.part .parameters, .part .block] c ns c') :
    functionOf g form start c = .ok (Node.build form ⟨start, c'.lastEnd⟩ ns) c' := by
  simp only [ReadsItems.part_iff, ReadsItems.nil_iff] at h
  obtain ⟨list, _, m, rfl, hlist, body, _, _, rfl, hbody, rfl, rfl⟩ := h
  simp only [functionOf, bind_eq_ok]
  exact ⟨list, m, parameters_complete hlist, body, _, hg.block hbody, rfl⟩

/-- A function inside an expression. -/
theorem functionExpression_complete {name : Option String}
    (h : ReadsItems Never levels (.keyword .functionKw :: (name.toList.map (.word <| .name ·) ++
      [.part .parameters, .part .block])) c ns c') :
    functionExpression g c =
      .ok (Node.build (.functionExpression name) ⟨c.here, c'.lastEnd⟩ ns) c' := by
  obtain ⟨hfunction, h⟩ := ReadsItems.keyword_iff.1 h
  simp only [functionExpression, here_bind, bind_eq_ok, expect_eq_ok]
  refine ⟨(), _, ⟨hfunction, rfl⟩, name, ?_⟩
  cases name with
  | none =>
    obtain ⟨list, _, _, _, hlist, _⟩ := ReadsItems.part_iff.1 h
    obtain ⟨kind, hkind, hstarts⟩ := hlist.starts (by simp)
    rw [eq_of_beq hstarts] at hkind
    obtain ⟨t, ht, hparen⟩ := Cursor.exists_token hkind
    have hname : c.advance.rest.head?.bind Token.identifier? = none := by
      rw [ht, Option.bind_some, Token.identifier?, hparen]
    exact ⟨_, name?_eq_ok.2 (.inr ⟨hname, rfl, rfl⟩), functionOf_complete hg h⟩
  | some x =>
    obtain ⟨t, ht, hx, h⟩ := ReadsItems.word_iff.1 h
    exact ⟨_, name?_eq_ok.2 (.inl ⟨t, x, ht, hx, rfl, rfl⟩), functionOf_complete hg h⟩

/-! ## Literals of arrays and objects -/

/-- The elements of an array up to its bracket. -/
theorem elements_complete {items : List Item} (helements : Elements items)
    (h : ReadsItems Never levels items c ns c')
    (hclose : c'.kind? = some (.punctuator .rightBracket)) : Collects (element g) c ns c' := by
  have hdone : Collects (element g) c' [] c' := by
    refine .done ?_
    rw [element, check_pos hclose]
    rfl
  induction helements generalizing c ns with
  | nil =>
    obtain ⟨rfl, rfl⟩ := ReadsItems.nil_iff.1 h
    exact hdone
  | hole _ ih =>
    obtain ⟨others, rfl, hcomma, hothers⟩ := ReadsItems.hole_iff.1 h
    refine .more ?_ (ih hothers)
    rw [element, check_neg (Cursor.kind?_ne hcomma (by decide)), check_pos hcomma]
    rfl
  | last =>
    obtain ⟨value, _, _, rfl, hvalue, hrest⟩ := ReadsItems.part_iff.1 h
    obtain ⟨rfl, rfl⟩ := ReadsItems.nil_iff.1 hrest
    have hbracket : c.kind? ≠ some (.punctuator .rightBracket) := hvalue.kind?_ne rfl
    have hcomma : c.kind? ≠ some (.punctuator .comma) := hvalue.kind?_ne rfl
    have hvalue := hg.assignment hvalue (.of_none hclose rfl)
    refine .more ?_ hdone
    rw [element, check_neg hbracket, check_neg hcomma]
    refine bind_eq_ok.2 ⟨value, _, hvalue, ?_⟩
    rw [check_pos hclose]
    rfl
  | value _ ih =>
    obtain ⟨value, _, m, rfl, hvalue, hrest⟩ := ReadsItems.part_iff.1 h
    obtain ⟨hnext, hrest⟩ := ReadsItems.mark_iff.1 hrest
    have hbracket : c.kind? ≠ some (.punctuator .rightBracket) := hvalue.kind?_ne rfl
    have hcomma : c.kind? ≠ some (.punctuator .comma) := hvalue.kind?_ne rfl
    have hvalue := hg.assignment hvalue (.of_some hnext rfl Nat.zero_lt_one)
    refine .more ?_ (ih hrest)
    rw [element, check_neg hbracket, check_neg hcomma]
    refine bind_eq_ok.2 ⟨value, m, hvalue, ?_⟩
    rw [check_neg (Cursor.kind?_ne hnext (by decide))]
    exact bind_eq_ok.2 ⟨(), _, expect_eq_ok.2 ⟨hnext, rfl⟩, rfl⟩

/-- An array literal. -/
theorem arrayLiteral_complete {elements : List Item} (helements : Elements elements)
    (h : ReadsItems Never levels (.mark .leftBracket :: (elements ++ [.mark .rightBracket]))
      c ns c') :
    arrayLiteral g c = .ok (Node.build .arrayExpression ⟨c.here, c'.lastEnd⟩ ns) c' := by
  simp only [ReadsItems.mark_iff, ReadsItems.append_iff, ReadsItems.nil_iff] at h
  obtain ⟨hopen, items, _, m, rfl, hitems, hclose, rfl, rfl⟩ := h
  have hlength := hitems.length_le helements.isInner
  have hcollect := collect_complete (elements_complete hg helements hitems hclose) (by omega)
  simp only [arrayLiteral, here_bind, advance_bind, bind_eq_ok, expect_eq_ok, List.append_nil]
  exact ⟨items, m, hcollect, (), _, ⟨hclose, rfl⟩, rfl⟩

/-- A key of an object literal and its value, up to the brace or behind the comma. -/
theorem member_complete (h : Reads Never levels .property c n m)
    (hend : (m.kind? = some (.punctuator .rightCurly) ∧ m = c') ∨
      (m.kind? = some (.punctuator .comma) ∧ m.advance = c')) :
    member g c = .ok (some n) c' := by
  cases h with
  | through hthrough _ => cases hthrough
  | plain _ hphrase hitems _ =>
    cases hphrase with
    | property key =>
      simp only [ReadsItems.word_iff, ReadsItems.mark_iff, ReadsItems.part_iff,
        ReadsItems.nil_iff] at hitems
      obtain ⟨t, ht, ⟨hkey, hcurly⟩, hcolon, value, _, m, rfl, hvalue, rfl, rfl⟩ := hitems
      have hnext : m.Ends true 1 := by
        obtain ⟨hclose, _⟩ | ⟨hcomma, _⟩ := hend
        · exact .of_none hclose rfl
        · exact .of_some hcomma rfl Nat.zero_lt_one
      have hvalue := hg.assignment hvalue hnext
      rw [member, check_neg (Cursor.kind?_ne (Cursor.kind?_of_head ht) hcurly), here_bind]
      refine bind_eq_ok.2 ⟨key, _, property_eq_ok.2 ⟨t, ht, hkey, rfl⟩, ?_⟩
      refine bind_eq_ok.2 ⟨(), _, expect_eq_ok.2 ⟨hcolon, rfl⟩, ?_⟩
      refine bind_eq_ok.2 ⟨value, m, hvalue, ?_⟩
      rw [finish_bind]
      obtain ⟨hclose, rfl⟩ | ⟨hcomma, rfl⟩ := hend
      · rw [check_pos hclose]
        rfl
      · rw [check_neg (Cursor.kind?_ne hcomma (by decide))]
        exact bind_eq_ok.2 ⟨(), _, expect_eq_ok.2 ⟨hcomma, rfl⟩, rfl⟩

/-- The members of an object from the first one to its brace. -/
theorem members_complete {ending : List Item} {total : Nat} (htrailing : Trailing total ending)
    (h : Reads Never levels .property c n m)
    (hothers : ReadsItems Never levels (Item.followers .property count ++ ending) m ns c')
    (hclose : c'.kind? = some (.punctuator .rightCurly)) :
    Collects (member g) c (n :: ns) c' := by
  have hdone : Collects (member g) c' [] c' := by
    refine .done ?_
    rw [member, check_pos hclose]
    rfl
  induction count generalizing c n m ns with
  | zero =>
    cases htrailing with
    | nothing =>
      obtain ⟨rfl, rfl⟩ := ReadsItems.nil_iff.1 hothers
      exact .more (member_complete hg h (.inl ⟨hclose, rfl⟩)) hdone
    | comma =>
      obtain ⟨hcomma, hothers⟩ := ReadsItems.mark_iff.1 hothers
      obtain ⟨rfl, rfl⟩ := ReadsItems.nil_iff.1 hothers
      exact .more (member_complete hg h (.inr ⟨hcomma, rfl⟩)) hdone
  | succ count ih =>
    simp only [Item.followers, List.cons_append, ReadsItems.mark_iff, ReadsItems.part_iff]
      at hothers
    obtain ⟨hcomma, next, others, m', rfl, hnext, hothers⟩ := hothers
    exact .more (member_complete hg h (.inr ⟨hcomma, rfl⟩)) (ih hnext hothers)

/-- An object literal. -/
theorem objectLiteral_complete {ending : List Item} (htrailing : Trailing count ending)
    (h : ReadsItems Never levels (.mark .leftCurly ::
      (Item.separated .property count ++ (ending ++ [.mark .rightCurly]))) c ns c') :
    objectLiteral g c = .ok (Node.build .objectExpression ⟨c.here, c'.lastEnd⟩ ns) c' := by
  obtain ⟨hopen, h⟩ := ReadsItems.mark_iff.1 h
  rw [← List.append_assoc] at h
  obtain ⟨members, _, m, rfl, hmembers, hlast⟩ := ReadsItems.append_iff.1 h
  obtain ⟨hclose, hlast⟩ := ReadsItems.mark_iff.1 hlast
  obtain ⟨rfl, rfl⟩ := ReadsItems.nil_iff.1 hlast
  have hcollects : Collects (member g) c.advance members m := by
    cases count with
    | zero =>
      cases htrailing
      obtain ⟨rfl, rfl⟩ := ReadsItems.nil_iff.1 hmembers
      refine .done ?_
      rw [member, check_pos hclose]
      rfl
    | succ count =>
      obtain ⟨first, others, m', rfl, hfirst, hothers⟩ := ReadsItems.part_iff.1 hmembers
      exact members_complete hg htrailing hfirst hothers hclose
  have hlength : members.length ≤ c.advance.rest.length := by
    refine Nat.le_of_add_right_le (hmembers.length_le ?_)
    rw [List.all_append, Item.isInner_separated rfl]
    cases htrailing <;> rfl
  simp only [objectLiteral, here_bind, advance_bind, bind_eq_ok, expect_eq_ok, List.append_nil]
  exact ⟨members, m, collect_complete hcollects hlength, (), _, ⟨hclose, rfl⟩, rfl⟩

/-! ## Calls, member accesses and constructions -/

omit hg in
/-- A keyword or a punctuator is no literal. -/
theorem exists_spelled {kind : TokenKind} (h : c.kind? = some kind)
    (hspelled : kind.spelling?.isSome = true) :
    ∃ t, c.rest.head? = some t ∧ t.kind = kind ∧ t.literal? = none := by
  obtain ⟨t, ht, rfl⟩ := Cursor.exists_token h
  refine ⟨t, ht, rfl, ?_⟩
  cases hkind : t.kind with
  | keyword | punctuator => simp [Token.literal?, hkind]
  | _ =>
    rw [hkind] at hspelled
    cases hspelled

/-- An expression in parentheses starts a chain. -/
theorem primary_of_enclosed (hopen : c.kind? = some (.punctuator .leftParen))
    (h : Reads Never levels .top c.advance n m)
    (hclose : m.kind? = some (.punctuator .rightParen)) :
    primary g c = .ok n m.advance := by
  obtain ⟨t, ht, hkind, hliteral⟩ := exists_spelled hopen rfl
  simp only [primary, here_bind, peek?_bind, ht, hliteral, hkind]
  exact parenthesized_complete hg hopen h hclose

/-- An expression that is neither made of others nor a construction starts a chain. -/
theorem primary_complete {s : Slot} {form : Form} {items : List Item}
    (hphrase : Phrase (.expression s) form items) (h : ReadsItems Never levels items c ns c')
    (hform : form.isPrimary = true) :
    primary g c = .ok (Node.build form ⟨c.here, c'.lastEnd⟩ ns) c' := by
  cases hphrase with
  | function _ name =>
    obtain ⟨hfunction, _⟩ := ReadsItems.keyword_iff.1 h
    obtain ⟨t, ht, hkind, hliteral⟩ := exists_spelled hfunction rfl
    simp only [primary, here_bind, peek?_bind, ht, hliteral, hkind]
    exact functionExpression_complete hg h
  | array _ helements =>
    obtain ⟨hopen, _⟩ := ReadsItems.mark_iff.1 h
    obtain ⟨t, ht, hkind, hliteral⟩ := exists_spelled hopen rfl
    simp only [primary, here_bind, peek?_bind, ht, hliteral, hkind]
    exact arrayLiteral_complete hg helements h
  | object _ count htrailing =>
    obtain ⟨hopen, _⟩ := ReadsItems.mark_iff.1 h
    obtain ⟨t, ht, hkind, hliteral⟩ := exists_spelled hopen rfl
    simp only [primary, here_bind, peek?_bind, ht, hliteral, hkind]
    exact objectLiteral_complete hg htrailing h
  | this =>
    obtain ⟨hthis, h⟩ := ReadsItems.keyword_iff.1 h
    obtain ⟨rfl, rfl⟩ := ReadsItems.nil_iff.1 h
    obtain ⟨t, ht, hkind, hliteral⟩ := exists_spelled hthis rfl
    simp only [primary, here_bind, peek?_bind, ht, hliteral, hkind]
    rfl
  | identifier _ name =>
    obtain ⟨t, ht, hname, h⟩ := ReadsItems.word_iff.1 h
    obtain ⟨rfl, rfl⟩ := ReadsItems.nil_iff.1 h
    have hkind := Token.kind_of_identifier? hname
    have hliteral : t.literal? = none := by simp [Token.literal?, hkind]
    simp only [primary, here_bind, peek?_bind, ht, hliteral, hkind]
    exact bind_eq_ok.2 ⟨name, _, name_eq_ok.2 ⟨t, ht, hname, rfl⟩, rfl⟩
  | literal _ value =>
    obtain ⟨t, ht, hvalue, h⟩ := ReadsItems.word_iff.1 h
    obtain ⟨rfl, rfl⟩ := ReadsItems.nil_iff.1 h
    simp only [primary, here_bind, peek?_bind, ht, show t.literal? = some value from hvalue]
    rfl
  | _ => cases hform

omit hg in
/-- No construction is read as a primary expression. -/
theorem kind?_ne_new_of_primary (h : primary g c = .ok n c') :
    c.kind? ≠ some (.keyword .newKw) := by
  intro hnew
  obtain ⟨t, ht, hkind, hliteral⟩ := exists_spelled hnew rfl
  simp only [primary, here_bind, peek?_bind, ht, hliteral, hkind] at h
  exact unexpected_ne_ok h

/-- A name behind a dot or an expression in brackets, behind what was read from `start` on. -/
theorem memberAccess_complete {s : Slot} {computed : Bool} {items : List Item} {start : Cursor}
    (hphrase : Phrase (.expression s) (.memberExpression computed) items)
    (h : ReadsItems Never levels items start ns c') :
    ∃ object others m, ns = object :: others ∧
      Reads Never levels (.expression s.object) start object m ∧
      (m.kind? = some (.punctuator .dot) ∨ m.kind? = some (.punctuator .leftBracket)) ∧
      c'.rest.length < m.rest.length ∧
      memberAccess g start.here object m =
        .ok (Node.build (.memberExpression computed) ⟨start.here, c'.lastEnd⟩ ns) c' := by
  cases hphrase with
  | member =>
    simp only [ReadsItems.part_iff, ReadsItems.mark_iff, ReadsItems.nil_iff] at h
    obtain ⟨object, _, m, rfl, hobject, hdot, key, _, _, rfl, hkey, rfl, rfl⟩ := h
    cases hkey with
    | through hthrough _ => cases hthrough
    | plain _ hphrase hitems _ =>
      cases hphrase with
      | key x =>
        simp only [ReadsItems.word_iff, ReadsItems.nil_iff] at hitems
        obtain ⟨t, ht, hx, rfl, rfl⟩ := hitems
        obtain ⟨_, hmark, _⟩ := Cursor.exists_token hdot
        have hlength := Cursor.length_advance hmark
        have hlength' := Cursor.length_advance ht
        refine ⟨object, _, m, rfl, hobject, .inl hdot, by omega, ?_⟩
        rw [memberAccess, accept_pos hdot, here_bind]
        refine bind_eq_ok.2 ⟨x, _, property_eq_ok.2 ⟨t, ht, hx, rfl⟩, ?_⟩
        rw [finish_bind]
        rfl
  | computedMember =>
    simp only [ReadsItems.part_iff, ReadsItems.mark_iff, ReadsItems.nil_iff] at h
    obtain ⟨object, _, m, rfl, hobject, hopen, key, _, m', rfl, hkey, hclose, rfl, rfl⟩ := h
    obtain ⟨_, hmark, _⟩ := Cursor.exists_token hopen
    obtain ⟨_, hmark', _⟩ := Cursor.exists_token hclose
    have hlength := Cursor.length_advance hmark
    have hlength' := Cursor.length_advance hmark'
    have hlength'' := hkey.length_lt (by simp [Place.top])
    refine ⟨object, _, m, rfl, hobject, .inr hopen, by omega, ?_⟩
    have hkey := expression_complete hg hkey (.of_none hclose rfl)
    rw [memberAccess, accept_neg (Cursor.kind?_ne hopen (by decide))]
    refine bind_eq_ok.2 ⟨(), _, expect_eq_ok.2 ⟨hopen, rfl⟩, ?_⟩
    refine bind_eq_ok.2 ⟨key, m', hkey, ?_⟩
    exact bind_eq_ok.2 ⟨(), _, expect_eq_ok.2 ⟨hclose, rfl⟩, rfl⟩

omit hg in
/-- A member access extends a chain, unless the tree gets too tall. -/
theorem memberStep_of_memberAccess {start : Position} {object : Node}
    (h : memberAccess g start object c = .ok n c')
    (hkind : c.kind? = some (.punctuator .dot) ∨ c.kind? = some (.punctuator .leftBracket))
    (hheight : n.height ≤ maxHeight) : memberStep g start object c = .ok (some n) c' := by
  rw [memberStep, peekKind?_bind, if_pos hkind]
  refine bind_eq_ok.2 ⟨n, c', h, ?_⟩
  exact bind_eq_ok.2 ⟨n, c', bounded_eq_ok.2 ⟨hheight, rfl, rfl⟩, rfl⟩

end Productions

/-- What a chain was read as: its head and the steps from there. -/
def Spine (g : Nested) (construct : Parser Node) (step : Node → Parser (Option Node))
    (c : Cursor) (n : Node) (c' : Cursor) : Prop :=
  ∃ head m count,
    ((c.kind? = some (.keyword .newKw) ∧ construct c = .ok head m) ∨
      (c.kind? ≠ some (.keyword .newKw) ∧ primary g c = .ok head m)) ∧
    Steps step count head m n c' ∧ count + c'.rest.length ≤ m.rest.length

namespace Spine

variable {construct : Parser Node} {step : Node → Parser (Option Node)}

theorem of_primary (h : primary g c = .ok n c') : Spine g construct step c n c' :=
  ⟨n, c', 0, .inr ⟨kind?_ne_new_of_primary h, h⟩, .refl, by omega⟩

theorem of_construct (hnew : c.kind? = some (.keyword .newKw)) (h : construct c = .ok n c') :
    Spine g construct step c n c' :=
  ⟨n, c', 0, .inl ⟨hnew, h⟩, .refl, by omega⟩

theorem extend {object : Node} (h : Spine g construct step c object m)
    (hstep : step object m = .ok (some n) c') (hlength : c'.rest.length < m.rest.length) :
    Spine g construct step c n c' := by
  obtain ⟨head, m', count, hhead, hsteps, hcount⟩ := h
  exact ⟨head, m', count + 1, hhead, .tail hsteps hstep, by omega⟩

/-- A production that reads a chain follows its spine. -/
theorem run {β : Type} {k : Node → Parser β} {b : β} (h : Spine g construct step c n m)
    (hstop : step n m = .ok none m)
    (hk : ∀ {head m'}, chain step head m' = .ok n m → k head m' = .ok b c') :
    (check (.keyword .newKw) >>= fun new =>
      if new = true then construct >>= k else primary g >>= k) c = .ok b c' := by
  obtain ⟨head, m', count, hhead, hsteps, hcount⟩ := h
  have hrest := hk (chain_complete hsteps hstop (by omega))
  obtain ⟨hnew, hhead⟩ | ⟨hnew, hhead⟩ := hhead
  · rw [check_pos hnew]
    exact bind_eq_ok.2 ⟨head, m', hhead, hrest⟩
  · rw [check_neg hnew]
    exact bind_eq_ok.2 ⟨head, m', hhead, hrest⟩

end Spine

/-- A chain of member accesses ends where none follows. -/
theorem memberStep_stop {start : Position} {object : Node}
    (hdot : c.kind? ≠ some (.punctuator .dot))
    (hbracket : c.kind? ≠ some (.punctuator .leftBracket)) :
    memberStep g start object c = .ok none c := by
  rw [memberStep, peekKind?_bind, if_neg (not_or.2 ⟨hdot, hbracket⟩)]
  rfl

/-- A chain ends where nothing extends it. -/
theorem callStep_stop {start : Position} {callee : Node} (h : ¬ c.extendsChain) :
    callStep g start callee c = .ok none c := by
  rw [callStep, check_neg fun hparen => h (.inl hparen)]
  exact memberStep_stop (fun hdot => h (.inr (.inl hdot)))
    fun hbracket => h (.inr (.inr hbracket))

section Productions

variable (hg : g.Complete levels)
include hg

/-- A call extends the chain that starts at `start`, unless the tree gets too tall. -/
theorem callStep_of_arguments {start : Position} {callee list : Node}
    (h : Reads Never levels .arguments c list c')
    (hheight : (Node.build .callExpression ⟨start, c'.lastEnd⟩ [callee, list]).height ≤
      maxHeight) :
    callStep g start callee c =
      .ok (some (Node.build .callExpression ⟨start, c'.lastEnd⟩ [callee, list])) c' := by
  have hopen : c.kind? = some (.punctuator .leftParen) := by
    obtain ⟨kind, hkind, hstarts⟩ := h.starts nofun
    rwa [eq_of_beq hstarts] at hkind
  rw [callStep, check_pos hopen]
  refine bind_eq_ok.2 ⟨list, c', arguments_complete hg h, ?_⟩
  rw [finish_bind]
  exact bind_eq_ok.2 ⟨_, _, bounded_eq_ok.2 ⟨hheight, rfl, rfl⟩, rfl⟩

/-- Expressions that bind as tightly as calls are chains. -/
theorem spine_of_reads {construct : Parser Node} {step : Node → Parser (Option Node)} {rank : Nat}
    (hrank : 16 ≤ rank)
    (hconstruct : ∀ {inner n m},
      levels = inner + (Slot.plain rank allowIn opening).charge (.newExpression true) →
      Constructs Never inner c n m → construct c = .ok n m)
    (hstep : ∀ {callee n m m'}, callStep g c.here callee m = .ok (some n) m' →
      rank = 16 ∨ m.kind? ≠ some (.punctuator .leftParen) → step callee m = .ok (some n) m')
    (h : Reads Never levels (.expression (.plain rank allowIn opening)) c n c') :
    Spine g construct step c n c' := by
  -- the object of a link is a child of its node, so the height of the node goes down the spine
  induction hsize : n.height using Nat.strongRecOn generalizing n c' with
  | _ size ih =>
  obtain ⟨inner, form, hlevels, items, ns, hadmits, hphrase, hitems, rfl, hlink⟩ |
      ⟨inner, m, rfl, hopen, hinner, hclose, rfl⟩ := h.bare_or_enclosed
  · have hform := (Slot.admits_iff.1 hadmits).1
    have hinner : form ≠ .newExpression true → levels = inner := fun hne => by
      rw [hlevels, Slot.plain_charge hne, Nat.add_zero]
    have hprimary : form.isPrimary = true →
        Spine g construct step c (Node.build form ⟨c.here, c'.lastEnd⟩ ns) c' := by
      intro hprimary
      obtain rfl := hinner (by rintro rfl; cases hprimary)
      exact .of_primary (primary_complete hg hphrase hitems hprimary)
    have hmember : ∀ computed, form = .memberExpression computed →
        Spine g construct step c (Node.build form ⟨c.here, c'.lastEnd⟩ ns) c' := by
      rintro computed rfl
      obtain rfl := hinner (by simp)
      obtain ⟨object, others, m, rfl, hobject, hkind, hlength, haccess⟩ :=
        memberAccess_complete hg hphrase hitems
      rw [Slot.plain_object hrank] at hobject
      have hspine := ih _ (hsize ▸ Node.height_lt_build List.mem_cons_self) hobject rfl
      have hparen : m.kind? ≠ some (.punctuator .leftParen) := by
        obtain hdot | hbracket := hkind
        · exact Cursor.kind?_ne hdot (by decide)
        · exact Cursor.kind?_ne hbracket (by decide)
      refine hspine.extend (hstep ?_ (.inr hparen)) hlength
      rw [callStep, check_neg hparen]
      exact memberStep_of_memberAccess haccess hkind (hlink rfl)
    cases hphrase with
    | call =>
      obtain rfl := hinner (by simp)
      obtain rfl : rank = 16 := Nat.le_antisymm hform hrank
      simp only [ReadsItems.part_iff, ReadsItems.nil_iff] at hitems
      obtain ⟨callee, _, m, rfl, hcallee, list, _, _, rfl, hlist, rfl, rfl⟩ := hitems
      have hspine := ih _ (hsize ▸ Node.height_lt_build List.mem_cons_self) hcallee rfl
      exact hspine.extend (hstep (callStep_of_arguments hg hlist (hlink rfl)) (.inl rfl))
        (hlist.length_lt (by simp))
    | member => exact hmember false rfl
    | computedMember => exact hmember true rfl
    | @new _ hasArguments items hconstruction =>
      cases hasArguments with
      | false => exact absurd (Nat.le_trans hrank hform) (by decide)
      | true =>
        -- under `new` the construction takes a level of its own, which `hlevels` accounts for
        exact .of_construct (hconstruction.kind?_eq hitems)
          (hconstruct hlevels ⟨true, items, ns, hconstruction, hitems, rfl, by simp⟩)
    | function | array | object | this | identifier | literal => exact hprimary rfl
    | binary _ operator =>
      have hprecedence : operator.precedence ≤ 10 := precedence_le operator
      have htight : 16 ≤ 2 + operator.precedence := Nat.le_trans hrank hform
      omega
    | _ => exact absurd (Nat.le_trans hrank hform) (by simp [Form.rank])
  · exact .of_primary (primary_of_enclosed hg hopen hinner hclose)

/-- What is constructed is a chain of member accesses. -/
theorem memberSpine (h : Reads Never levels (.expression .constructed) c n c') :
    Spine g g.construction (memberStep g c.here) c n c' := by
  refine spine_of_reads hg (Nat.le_succ 16) (fun hlevels h => hg.construction hlevels h) ?_ h
  intro callee n m m' hstep hparen
  obtain hcontra | hparen := hparen
  · cases hcontra
  · rwa [callStep, check_neg hparen] at hstep

/-- Another construction right behind `new` is a chain without steps. -/
theorem nestedSpine {step : Node → Parser (Option Node)}
    (h : Reads Never levels .construction c n c') (hstays : ¬ c'.extendsChain) :
    Spine g g.construction step c n c' := by
  cases h with
  | through hthrough _ => cases hthrough
  | @plain inner _ _ items _ _ ns _ hphrase hitems _ =>
    cases hphrase with
    | construction hconstruction =>
      exact .of_construct (hconstruction.kind?_eq hitems)
        (hg.construction rfl ⟨false, items, ns, hconstruction, hitems, rfl, fun _ => hstays⟩)

omit hg in
/-- A construction without arguments ends where what is constructed does. -/
theorem construction_of_spine {callee : Node}
    (h : Spine g g.construction (memberStep g c.advance.here) c.advance callee m)
    (hstays : ¬ m.extendsChain) :
    construction g c =
      .ok (Node.build (.newExpression false) ⟨c.here, m.lastEnd⟩ [callee]) m := by
  have hstop : memberStep g c.advance.here callee m = .ok none m :=
    memberStep_stop (fun h => hstays (.inr (.inl h))) fun h => hstays (.inr (.inr h))
  rw [construction, here_bind, advance_bind, here_bind]
  refine h.run hstop fun hchain => ?_
  refine bind_eq_ok.2 ⟨callee, m, hchain, ?_⟩
  rw [check_neg fun h => hstays (.inl h)]
  rfl

/-- A construction with `new`. -/
theorem construction_complete (h : Constructs Never levels c n c') :
    construction g c = .ok n c' := by
  obtain ⟨hasArguments, items, ns, hconstruction, hitems, rfl, hbare⟩ := h
  cases hconstruction with
  | arguments =>
    simp only [ReadsItems.keyword_iff, ReadsItems.part_iff, ReadsItems.nil_iff] at hitems
    obtain ⟨_, callee, _, m, rfl, hcallee, list, _, _, rfl, hlist, rfl, rfl⟩ := hitems
    have hopen : m.kind? = some (.punctuator .leftParen) := by
      obtain ⟨kind, hkind, hstarts⟩ := hlist.starts nofun
      rwa [eq_of_beq hstarts] at hkind
    have hstop : memberStep g c.advance.here callee m = .ok none m :=
      memberStep_stop (Cursor.kind?_ne hopen (by decide)) (Cursor.kind?_ne hopen (by decide))
    rw [construction, here_bind, advance_bind, here_bind]
    refine (memberSpine hg hcallee).run hstop fun hchain => ?_
    refine bind_eq_ok.2 ⟨callee, m, hchain, ?_⟩
    rw [check_pos hopen]
    exact bind_eq_ok.2 ⟨list, _, arguments_complete hg hlist, rfl⟩
  | bare =>
    simp only [ReadsItems.keyword_iff, ReadsItems.part_iff, ReadsItems.nil_iff] at hitems
    obtain ⟨_, callee, _, m, rfl, hcallee, rfl, rfl⟩ := hitems
    exact construction_of_spine (memberSpine hg hcallee) (hbare rfl)
  | nested =>
    simp only [ReadsItems.keyword_iff, ReadsItems.part_iff, ReadsItems.nil_iff] at hitems
    obtain ⟨_, callee, _, m, rfl, hcallee, rfl, rfl⟩ := hitems
    exact construction_of_spine (nestedSpine hg hcallee (hbare rfl)) (hbare rfl)

/-- A construction or a primary expression with calls and member accesses. -/
theorem callChain_complete
    (h : Reads Never levels (.expression (.plain 15 allowIn opening)) c n c')
    (hstays : ¬ c'.extendsChain) : callChain g c = .ok n c' := by
  rw [callChain, here_bind]
  have hspine : Spine g (construction g) (callStep g c.here) c n c' := by
    obtain htight | ⟨form, hform, items, ns, _, hphrase, hitems, rfl, _⟩ :=
      h.raise (by decide) (Nat.le_refl 15)
    · refine spine_of_reads hg (Nat.le_refl 16) (fun hlevels h => ?_) (fun hstep _ => hstep) htight
      obtain rfl := hlevels
      exact construction_complete hg h
    · have hnew := form.of_rank
      rw [hform] at hnew
      obtain rfl : form = .newExpression false := hnew
      cases hphrase with
      | new _ hconstruction =>
        exact .of_construct (hconstruction.kind?_eq hitems) (construction_complete hg
          ⟨false, items, ns, hconstruction, hitems, rfl, fun _ => hstays⟩)
  exact hspine.run (callStep_stop hstays) id

/-! ## Operators -/

/-- A chain of calls with an update operator behind it. -/
theorem updated_complete {allowIn' : Bool}
    (h : Reads Never levels (.expression (.plain 14 allowIn opening)) c n c')
    (hend : c'.Ends allowIn' 14) : updated g c = .ok n c' := by
  rw [updated, here_bind]
  obtain htight | ⟨form, hform, items, ns, _, hphrase, hitems, rfl, _⟩ :=
    h.raise (by decide) (Nat.le_succ 14)
  · have hchain := callChain_complete hg htight (hend.mono (Nat.le_add_left 14 2)).not_extendsChain
    refine bind_eq_ok.2 ⟨n, c', hchain, ?_⟩
    rw [newlineBefore_bind]
    -- an update operator on the next line is not one of this expression
    cases c'.newlineBefore with
    | true => rfl
    | false =>
      simp only [Bool.false_eq_true, ↓reduceIte, peekKind?_bind, hend.update]
      rfl
  · have hupdate := form.of_rank
    rw [hform] at hupdate
    obtain ⟨operator, rfl⟩ : ∃ operator, form = .updateExpression operator false := hupdate
    cases hphrase with
    | updated =>
      simp only [ReadsItems.part_iff, ReadsItems.sameLine_iff, ReadsItems.word_iff,
        ReadsItems.nil_iff] at hitems
      obtain ⟨operand, _, m, rfl, hoperand, hline, t, ht, hoperator, rfl, rfl⟩ := hitems
      have hassignable : operand.isAssignable = true := hoperand.serves
      have hkind := Cursor.kind?_of_head ht
      have hstays : m.Ends true 16 :=
        .of_some hkind (TokenKind.joinRank?_update hoperator) (by decide)
      have hchain := callChain_complete hg (hoperand.of_stored (Nat.le_refl 15))
        hstays.not_extendsChain
      refine bind_eq_ok.2 ⟨operand, m, hchain, ?_⟩
      rw [newlineBefore_bind, hline, if_neg Bool.false_ne_true, peekKind?_bind, hkind]
      simp only [Option.bind_some,
        show UpdateOperator.ofKind? t.kind = some operator from hoperator]
      exact bind_eq_ok.2 ⟨(), m, requireAssignable_eq_ok.2 ⟨hassignable, rfl⟩, rfl⟩

/-- An operand with the operators before it. -/
theorem unary_complete {allowIn' : Bool}
    (h : Reads Never levels (.expression (.plain 13 allowIn opening)) c n c')
    (hend : c'.Ends allowIn' 14) : unary g c = .ok n c' := by
  rw [unary, here_bind, peekKind?_bind]
  obtain htight | ⟨form, hform, items, ns, _, hphrase, hitems, rfl, _⟩ :=
    h.raise (by decide) (Nat.le_add_left 13 2)
  · -- what binds more tightly than these operators starts with none of them
    obtain ⟨kind, hkind, hstarts⟩ := htight.starts (by simp)
    have hchain : kind.startsChain = true :=
      (Place.startsWith_expression_iff.1 hstarts).2.1 (Nat.le_refl 14)
    rw [hkind]
    simp only [UpdateOperator.ofKind?_of_startsChain hchain,
      UnaryOperator.ofKind?_of_startsChain hchain]
    exact updated_complete hg htight hend
  · have hoperator := form.of_rank
    rw [hform] at hoperator
    obtain ⟨operator, rfl⟩ | ⟨operator, rfl⟩ :
      (∃ operator, form = .unaryExpression operator) ∨
        ∃ operator, form = .updateExpression operator true := hoperator
    · cases hphrase with
      | unary =>
        simp only [ReadsItems.word_iff, ReadsItems.part_iff, ReadsItems.nil_iff] at hitems
        obtain ⟨t, ht, hoperator, operand, _, m, rfl, hoperand, rfl, rfl⟩ := hitems
        have hoperator : UnaryOperator.ofKind? t.kind = some operator := hoperator
        rw [Cursor.kind?_of_head ht]
        simp only [UpdateOperator.ofKind?_of_unary hoperator, hoperator]
        rw [advance_bind]
        exact bind_eq_ok.2 ⟨operand, m, hg.unary hoperand hend, rfl⟩
    · cases hphrase with
      | update =>
        simp only [ReadsItems.word_iff, ReadsItems.part_iff, ReadsItems.nil_iff] at hitems
        obtain ⟨t, ht, hoperator, operand, _, m, rfl, hoperand, rfl, rfl⟩ := hitems
        have hoperator : UpdateOperator.ofKind? t.kind = some operator := hoperator
        have hassignable : operand.isAssignable = true := hoperand.serves
        rw [Cursor.kind?_of_head ht]
        simp only [hoperator]
        rw [advance_bind]
        refine bind_eq_ok.2 ⟨operand, m, hg.unary hoperand hend, ?_⟩
        exact bind_eq_ok.2 ⟨(), m, requireAssignable_eq_ok.2 ⟨hassignable, rfl⟩, rfl⟩

omit hg in
/-- An operator and its right operand extend a binary expression, unless the tree gets too tall. -/
theorem binaryStep_complete {right : BinaryOperator → Parser Node} {loosest : Nat}
    {start : Position} {left operand : Node} {operator : BinaryOperator}
    (hoperator : c.operator? allowIn = some operator) (htight : loosest < operator.precedence)
    (hoperand : right operator c.advance = .ok operand c')
    (hheight :
      (Node.build (.binaryExpression operator) ⟨start, c'.lastEnd⟩ [left, operand]).height ≤
        maxHeight) :
    binaryStep right allowIn loosest start left c =
      .ok (some (Node.build (.binaryExpression operator) ⟨start, c'.lastEnd⟩ [left, operand]))
        c' := by
  rw [binaryStep, binaryOperator?_bind, hoperator]
  simp only [Option.filter_some, htight, decide_true, ↓reduceIte]
  rw [advance_bind]
  refine bind_eq_ok.2 ⟨operand, c', hoperand, ?_⟩
  rw [finish_bind]
  exact bind_eq_ok.2 ⟨_, _, bounded_eq_ok.2 ⟨hheight, rfl, rfl⟩, rfl⟩

omit hg in
/-- A binary loop stops where only looser operators follow. -/
theorem binaryStep_stop {right : BinaryOperator → Parser Node} {loosest : Nat} {start : Position}
    {left : Node} (hend : c.Ends allowIn (3 + loosest)) :
    binaryStep right allowIn loosest start left c = .ok none c := by
  have hnone : ((c.operator? allowIn).filter fun operator => loosest < operator.precedence) =
      none := by
    rw [Option.filter_eq_none_iff]
    intro operator hoperator
    have hloose := hend.operator hoperator
    simp only [decide_eq_true_eq]
    omega
  rw [binaryStep, binaryOperator?_bind, hnone]
  rfl

/-- A binary expression is an operand and the steps of a loop. -/
theorem binarySpine {right : BinaryOperator → Parser Node} {loosest rank : Nat}
    (hright : ∀ {operator c n c'},
      Reads Never levels (.expression (.plain (3 + operator.precedence) allowIn false)) c n c' →
      c'.Ends allowIn (3 + operator.precedence) → loosest < operator.precedence →
      right operator c = .ok n c')
    (h : Reads Never levels (.expression (.plain rank allowIn opening)) c n c')
    (hloosest : 3 + loosest ≤ rank) (hrank : rank ≤ 13) (hend : c'.Ends allowIn (rank + 1)) :
    ∃ head m count, unary g c = .ok head m ∧
      Steps (binaryStep right allowIn loosest c.here) count head m n c' ∧
      count + c'.rest.length ≤ m.rest.length := by
  -- down the left operands; the slot of each asks for the rank of its operator, so the rank varies
  induction hsize : n.height using Nat.strongRecOn generalizing n c' rank with
  | _ size ih =>
  obtain ⟨inner, rfl, hunary⟩ | ⟨inner, form, hlevels, hform, items, ns, hadmits, hphrase, hitems,
      rfl, hlink⟩ :=
    h.reslot_or (.plain 13 allowIn opening) rfl (Nat.le_trans hrank (Nat.le_add_left 13 3))
      (Nat.le_add_left 13 3) rfl rfl
  · have hhead := unary_complete hg hunary (hend.mono (Nat.succ_le_succ hrank))
    exact ⟨n, c', 0, hhead, .refl, by omega⟩
  obtain ⟨hle, hin, hopening, _⟩ := Slot.admits_iff.1 hadmits
  have hle : rank ≤ form.rank := hle
  have hloose : form.rank < 13 := by
    by_cases htight : 13 ≤ form.rank
    · have hzero := hform (Slot.admits_iff.2 ⟨htight, hin, hopening, rfl⟩)
      omega
    · omega
  obtain ⟨operator, rfl⟩ := Form.eq_binary_of_rank (by omega) hloose
  have hle : rank ≤ 2 + operator.precedence := hle
  have hcharge : (Slot.plain rank allowIn opening).charge (.binaryExpression operator) = 0 :=
    Slot.plain_charge (by simp)
  obtain rfl : levels = inner := by rw [hlevels, hcharge, Nat.add_zero]
  cases hphrase with
  | binary =>
    simp only [ReadsItems.part_iff, ReadsItems.word_iff, ReadsItems.nil_iff] at hitems
    obtain ⟨left, _, m, rfl, hleft, t, ht, hmeaning, operand, _, _, rfl, hoperand, rfl, rfl⟩ :=
      hitems
    have hmeaning : BinaryOperator.ofKind? t.kind = some operator := hmeaning
    have hkind := Cursor.kind?_of_head ht
    have hprecedence : operator.precedence ≤ 10 := precedence_le operator
    have hallowed : allowIn = true ∨ operator ≠ .isIn :=
      hin.imp_right fun hne => by simpa using hne
    have hoperator : m.operator? allowIn = some operator := by
      rw [Cursor.operator?, hkind, Option.bind_some, hmeaning, Option.filter_some, if_pos]
      simpa using hallowed
    -- the operator ends its left operand, which binds at least as tightly
    have hleftEnds : m.Ends allowIn (2 + operator.precedence + 1) :=
      .of_some hkind (TokenKind.joinRank?_binary hmeaning hallowed) (Nat.lt_succ_self _)
    obtain ⟨head, m', count, hhead, hsteps, hcount⟩ :=
      ih _ (hsize ▸ Node.height_lt_build List.mem_cons_self) hleft (by omega) (by omega)
        hleftEnds rfl
    have hlength := Cursor.length_advance ht
    have hlength' := hoperand.length_lt (by simp)
    have htight : loosest < operator.precedence := by omega
    have hoperand := hright hoperand (hend.mono (by omega)) htight
    have hstep := binaryStep_complete hoperator htight hoperand (hlink rfl)
    exact ⟨head, m', count + 1, hhead, .tail hsteps hstep, by omega⟩

/-- Operands with binary operators between them, up to an operator that is too loose. -/
theorem binary_complete {depth loosest : Nat}
    (h : Reads Never levels (.expression (.plain (3 + loosest) allowIn opening)) c n c')
    (hdepth : precedences ≤ depth + loosest) (hloosest : loosest ≤ precedences)
    (hend : c'.Ends allowIn (3 + loosest)) : binary g allowIn depth loosest c = .ok n c' := by
  have hten : precedences = 10 := rfl
  induction depth generalizing loosest opening c n c' with
  | zero =>
    -- no operator is tighter than the tightest, so this is an operand
    obtain rfl : loosest = precedences := by omega
    exact unary_complete hg h (hend.mono (Nat.le_succ 13))
  | succ depth ih =>
    have hright : ∀ {operator : BinaryOperator} {c n c'},
        Reads Never levels (.expression (.plain (3 + operator.precedence) allowIn false)) c n c' →
        c'.Ends allowIn (3 + operator.precedence) → loosest < operator.precedence →
        binary g allowIn depth operator.precedence c = .ok n c' :=
      fun h hend htight => ih h (by omega) (precedence_le _) hend
    obtain ⟨head, m, count, hhead, hsteps, hcount⟩ :=
      binarySpine hg hright h (Nat.le_refl _) (by omega) (hend.mono (Nat.le_succ _))
    rw [binary, here_bind]
    refine bind_eq_ok.2 ⟨head, m, hhead, ?_⟩
    exact chain_complete hsteps (binaryStep_stop hend) (by omega)

/-- A binary expression where no choice follows. -/
theorem conditional_of_binary
    (h : Reads Never levels (.expression (.plain 3 allowIn opening)) c n c')
    (hend : c'.Ends allowIn 2) : conditional g allowIn c = .ok n c' := by
  have htest := binary_complete hg h (Nat.le_refl 10) (Nat.zero_le 10)
    (hend.mono (Nat.le_succ 2))
  rw [conditional, here_bind]
  refine bind_eq_ok.2 ⟨n, c', htest, ?_⟩
  rw [accept_neg hend.ne_hook]
  rfl

/-- A choice between two expressions, or an expression without one. -/
theorem conditional_complete
    (h : Reads Never levels (.expression (.plain 2 allowIn opening)) c n c')
    (hend : c'.Ends allowIn 1) : conditional g allowIn c = .ok n c' := by
  obtain htight | ⟨form, hform, items, ns, _, hphrase, hitems, rfl, _⟩ :=
    h.raise (by decide) (by decide)
  · exact conditional_of_binary hg htight (hend.mono (Nat.le_succ 1))
  · have hchoice := form.of_rank
    rw [hform] at hchoice
    obtain rfl : form = .conditionalExpression := hchoice
    cases hphrase with
    | conditional =>
      simp only [ReadsItems.part_iff, ReadsItems.mark_iff, ReadsItems.nil_iff] at hitems
      obtain ⟨test, _, m, rfl, htest, hhook, consequent, _, m', rfl, hconsequent, hcolon, alternate,
        _, _, rfl, halternate, rfl, rfl⟩ := hitems
      have htest : Reads Never levels (.expression (.plain (3 + 0) allowIn opening)) c test m :=
        htest
      have htest := binary_complete hg htest (Nat.le_refl 10) (Nat.zero_le 10)
        (.of_some hhook rfl (Nat.lt_succ_self 2))
      have hconsequent := hg.assignment hconsequent (.of_none hcolon rfl)
      have halternate := hg.assignment halternate hend
      rw [conditional, here_bind]
      refine bind_eq_ok.2 ⟨test, m, htest, ?_⟩
      rw [accept_pos hhook]
      refine bind_eq_ok.2 ⟨consequent, m', hconsequent, ?_⟩
      refine bind_eq_ok.2 ⟨(), _, expect_eq_ok.2 ⟨hcolon, rfl⟩, ?_⟩
      exact bind_eq_ok.2 ⟨alternate, _, halternate, rfl⟩

/-- An assignment, or an expression without one. -/
theorem assignment_complete
    (h : Reads Never levels (.expression (.plain 1 allowIn opening)) c n c')
    (hend : c'.Ends allowIn 1) : assignment g allowIn c = .ok n c' := by
  rw [assignment, here_bind]
  obtain htight | ⟨form, hform, items, ns, _, hphrase, hitems, rfl, _⟩ :=
    h.raise (by decide) (by decide)
  · refine bind_eq_ok.2 ⟨n, c', conditional_complete hg htight hend, ?_⟩
    simp only [peekKind?_bind, hend.assign]
    rfl
  · have hassign := form.of_rank
    rw [hform] at hassign
    obtain ⟨operator, rfl⟩ : ∃ operator, form = .assignmentExpression operator := hassign
    cases hphrase with
    | assignment =>
      simp only [ReadsItems.part_iff, ReadsItems.word_iff, ReadsItems.nil_iff] at hitems
      obtain ⟨target, _, m, rfl, htarget, t, ht, hoperator, value, _, _, rfl, hvalue, rfl, rfl⟩ :=
        hitems
      have hoperator : AssignOperator.ofKind? t.kind = some operator := hoperator
      have hassignable : target.isAssignable = true := htarget.serves
      have hkind := Cursor.kind?_of_head ht
      have hnext : m.Ends allowIn 2 :=
        .of_some hkind (TokenKind.joinRank?_assign hoperator) (Nat.lt_succ_self 1)
      have htarget := conditional_of_binary hg (htarget.of_stored (by decide)) hnext
      refine bind_eq_ok.2 ⟨target, m, htarget, ?_⟩
      simp only [peekKind?_bind, hkind, Option.bind_some, hoperator]
      refine bind_eq_ok.2 ⟨(), m, requireAssignable_eq_ok.2 ⟨hassignable, rfl⟩, ?_⟩
      rw [advance_bind]
      exact bind_eq_ok.2 ⟨value, _, hg.assignment hvalue hend, rfl⟩

end Productions

end Grammar

end ScriptLint
