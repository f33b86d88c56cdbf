import ScriptLint.Proofs.Grammar.ExpressionReading

/-!
# What stands before and behind a phrase

A parser decides by the next token. It takes a token for the continuation of what it has read
wherever it can, so what was read ends where it should only if the token behind it joins it to
nothing (`Cursor.Ends`). It tells phrases apart by their first tokens, so those must be known
(`Reads.starts`).
-/

namespace ScriptLint

/-! ## Behind an expression -/

/-- The rank of the expression that a token makes of what stands before it and what follows. -/
def TokenKind.joinRank? (allowIn : Bool) (kind : TokenKind) : Option Nat :=
  match BinaryOperator.ofKind? kind, AssignOperator.ofKind? kind, UpdateOperator.ofKind? kind with
  | some operator, _, _ =>
    -- in the head of a loop `in` belongs to the loop
    if allowIn || operator != .isIn then some (2 + operator.precedence) else none
  | _, some _, _ => some 1
  | _, _, some _ => some 14
  | _, _, _ =>
    match kind with
    | .punctuator .comma => some 0
    | .punctuator .hook => some 2
    | .punctuator .leftParen | .punctuator .dot | .punctuator .leftBracket => some 16
    | _ => none

namespace TokenKind

variable {kind : TokenKind} {allowIn : Bool}

/-- A binary operator joins with what stands before it as tightly as its precedence tells. -/
theorem joinRank?_binary {operator : BinaryOperator}
    (h : BinaryOperator.ofKind? kind = some operator)
    (hallowed : allowIn = true ∨ operator ≠ .isIn) :
    kind.joinRank? allowIn = some (2 + operator.precedence) := by
  have hcond : (allowIn || operator != .isIn) = true := by simpa using hallowed
  simp only [joinRank?, h, hcond, ↓reduceIte]

/-- An assignment operator joins with what stands before it. -/
theorem joinRank?_assign {operator : AssignOperator}
    (h : AssignOperator.ofKind? kind = some operator) : kind.joinRank? allowIn = some 1 := by
  unfold AssignOperator.ofKind? at h
  split at h
  case h_13 => cases h
  all_goals rfl

/-- An update operator joins with what stands before it. -/
theorem joinRank?_update {operator : UpdateOperator}
    (h : UpdateOperator.ofKind? kind = some operator) : kind.joinRank? allowIn = some 14 := by
  unfold UpdateOperator.ofKind? at h
  split at h
  case h_3 => cases h
  all_goals rfl

end TokenKind

/-- The next token, if it joins what stands before it to anything, makes an expression of it whose
rank is less than `rank`. -/
def Cursor.Ends (c : Cursor) (allowIn : Bool) (rank : Nat) : Prop :=
  ∀ kind join, c.kind? = some kind → kind.joinRank? allowIn = some join → join < rank

namespace Cursor.Ends

variable {c : Cursor} {kind : TokenKind} {allowIn : Bool} {rank rank' : Nat}

/-- What ends a loose expression ends a tighter one as well. -/
theorem mono (h : c.Ends allowIn rank) (hle : rank ≤ rank') : c.Ends allowIn rank' :=
  fun kind join hkind hjoin => Nat.lt_of_lt_of_le (h kind join hkind hjoin) hle

/-- A token that joins nothing ends everything. -/
theorem of_none (hkind : c.kind? = some kind) (hjoin : kind.joinRank? allowIn = none) :
    c.Ends allowIn rank := by
  intro kind' join hkind' hjoin'
  rw [hkind, Option.some_inj] at hkind'
  rw [← hkind', hjoin] at hjoin'
  cases hjoin'

/-- A token ends what is tighter than what it makes. -/
theorem of_some {join : Nat} (hkind : c.kind? = some kind)
    (hjoin : kind.joinRank? allowIn = some join) (hlt : join < rank) : c.Ends allowIn rank := by
  intro kind' join' hkind' hjoin'
  rw [hkind, Option.some_inj] at hkind'
  rw [← hkind', hjoin, Option.some_inj] at hjoin'
  exact hjoin' ▸ hlt

/-- An expression that has ended is not followed by a comma. -/
theorem ne_comma (h : c.Ends allowIn 0) : c.kind? ≠ some (.punctuator .comma) :=
  fun hkind => Nat.not_lt_zero _ (h _ _ hkind rfl)

/-- A test that has ended is not followed by a question mark. -/
theorem ne_hook (h : c.Ends allowIn 2) : c.kind? ≠ some (.punctuator .hook) :=
  fun hkind => Nat.lt_irrefl 2 (h _ _ hkind rfl)

/-- A target that has ended is not followed by an assignment operator. -/
theorem assign (h : c.Ends allowIn 1) : c.kind?.bind AssignOperator.ofKind? = none := by
  refine Option.eq_none_iff_forall_ne_some.2 fun operator hoperator => ?_
  obtain ⟨kind, hkind, hmeaning⟩ := Option.bind_eq_some_iff.1 hoperator
  exact Nat.lt_irrefl 1 (h kind 1 hkind (TokenKind.joinRank?_assign hmeaning))

/-- An operand that has ended is not followed by an update operator. -/
theorem update (h : c.Ends allowIn 14) : c.kind?.bind UpdateOperator.ofKind? = none := by
  refine Option.eq_none_iff_forall_ne_some.2 fun operator hoperator => ?_
  obtain ⟨kind, hkind, hmeaning⟩ := Option.bind_eq_some_iff.1 hoperator
  exact Nat.lt_irrefl 14 (h kind 14 hkind (TokenKind.joinRank?_update hmeaning))

/-- Only looser operators follow. -/
theorem operator (h : c.Ends allowIn rank) {operator : BinaryOperator}
    (hoperator : c.operator? allowIn = some operator) : 2 + operator.precedence < rank := by
  obtain ⟨⟨t, ht, hmeaning⟩, hallowed⟩ := Grammar.operator?_eq_some hoperator
  exact h t.kind _ (Cursor.kind?_of_head ht) (TokenKind.joinRank?_binary hmeaning hallowed)

/-- A chain that has ended is not followed by a call or a member access. -/
theorem not_extendsChain (h : c.Ends allowIn 16) : ¬ c.extendsChain := by
  rintro (hkind | hkind | hkind)
  · exact Nat.lt_irrefl 16 (h _ _ hkind rfl)
  · exact Nat.lt_irrefl 16 (h _ _ hkind rfl)
  · exact Nat.lt_irrefl 16 (h _ _ hkind rfl)

end Cursor.Ends

/-! ## The first token -/

namespace TokenKind

/-- Whether an expression without operators can start with the token. -/
def startsChain : TokenKind → Bool
  | .identifier | .numeric | .string | .boolean | .null | .undefined
  | .keyword .thisKw | .keyword .functionKw | .keyword .newKw
  | .punctuator .leftParen | .punctuator .leftBracket | .punctuator .leftCurly => true
  | _ => false

/-- Whether an expression can start with the token. -/
def startsExpression (kind : TokenKind) : Bool :=
  kind.startsChain || (UpdateOperator.ofKind? kind).isSome || (UnaryOperator.ofKind? kind).isSome

/-- Whether a statement or a function declaration can start with the token. -/
def startsStatement (kind : TokenKind) : Bool :=
  match kind with
  | .punctuator .semicolon
  | .keyword .varKw | .keyword .letKw | .keyword .constKw | .keyword .ifKw | .keyword .whileKw
  | .keyword .doKw | .keyword .forKw | .keyword .continueKw | .keyword .breakKw
  | .keyword .returnKw | .keyword .withKw | .keyword .switchKw | .keyword .throwKw
  | .keyword .tryKw | .keyword .debuggerKw => true
  | _ => kind.startsExpression

/-- Whether the token stands at the start of a statement for something else than an expression. -/
def startsBlockOrFunction (kind : TokenKind) : Bool :=
  kind == .punctuator .leftCurly || kind == .keyword .functionKw

end TokenKind

/-- Whether what stands at a place can start with a token, as far as the parser looks at it. -/
def Place.startsWith : Place → TokenKind → Bool
  | .element, kind | .statement _, kind => kind.startsStatement
  | .block, kind => kind == .punctuator .leftCurly
  | .parameters, kind | .arguments, kind => kind == .punctuator .leftParen
  | .parameter, kind => kind == .identifier
  | .declarations, kind => (DeclarationKind.ofKind? kind).isSome
  | .expression s, kind =>
    kind.startsExpression && (s.rank < 14 || kind.startsChain) &&
      !(s.opening && kind.startsBlockOrFunction)
  | _, _ => true

section Starts

variable {place inner : Place} {kind : TokenKind} {s s' : Slot} {t : Token}

/-- An expression can start a statement. -/
theorem TokenKind.startsStatement_of_startsExpression (h : kind.startsExpression = true) :
    kind.startsStatement = true := by
  unfold TokenKind.startsStatement
  split
  case h_17 => exact h
  all_goals rfl

/-- What an expression can start with, by its rank and by whether a statement starts with it. -/
theorem Place.startsWith_expression_iff :
    (Place.expression s).startsWith kind = true ↔
      kind.startsExpression = true ∧ (14 ≤ s.rank → kind.startsChain = true) ∧
        (s.opening = true → kind.startsBlockOrFunction = false) := by
  cases ho : s.opening <;> cases hc : kind.startsChain <;>
    simp [Place.startsWith, ho, hc, TokenKind.startsExpression, and_assoc]

/-- The first part of an expression starts as the expression does. -/
theorem Place.startsWith_first (h : (Place.expression s).startsWith kind = true)
    (hrank : 14 ≤ s'.rank → 14 ≤ s.rank) (hopening : s'.opening = s.opening) :
    (Place.expression s').startsWith kind = true := by
  obtain ⟨hexpression, hchain, hblock⟩ := Place.startsWith_expression_iff.1 h
  refine Place.startsWith_expression_iff.2 ⟨hexpression, fun hs' => hchain (hrank hs'), ?_⟩
  rw [hopening]
  exact hblock

/-- What an operand starts with can start an expression. -/
theorem Place.startsWith_of_startsChain (h : kind.startsChain = true)
    (hopening : s.opening = true → kind.startsBlockOrFunction = false) :
    (Place.expression s).startsWith kind = true := by
  refine Place.startsWith_expression_iff.2 ⟨?_, fun _ => h, hopening⟩
  rw [TokenKind.startsExpression, h, Bool.true_or, Bool.true_or]

theorem Token.kind_of_identifier? {x : String} (h : t.identifier? = some x) :
    t.kind = .identifier := by
  unfold Token.identifier? at h
  split at h
  · next hkind _ => exact hkind
  · cases h

/-- A chain does not start with an update operator. -/
theorem UpdateOperator.ofKind?_of_startsChain (h : kind.startsChain = true) :
    UpdateOperator.ofKind? kind = none := by
  unfold TokenKind.startsChain at h
  split at h
  case h_13 => cases h
  all_goals rfl

/-- A chain does not start with a unary operator. -/
theorem UnaryOperator.ofKind?_of_startsChain (h : kind.startsChain = true) :
    UnaryOperator.ofKind? kind = none := by
  unfold TokenKind.startsChain at h
  split at h
  case h_13 => cases h
  all_goals rfl

/-- No unary operator is an update operator. -/
theorem UpdateOperator.ofKind?_of_unary {operator : UnaryOperator}
    (h : UnaryOperator.ofKind? kind = some operator) : UpdateOperator.ofKind? kind = none := by
  unfold UnaryOperator.ofKind? at h
  split at h
  case h_8 => cases h
  all_goals rfl

/-- What can be the first piece of the rule of a place. -/
def Item.StartsAt (place : Place) : Item → Prop
  | .word w => ∀ t, w.Matches t → place.startsWith t.kind = true
  | .part inner =>
    inner ≠ .program ∧ ∀ kind, inner.startsWith kind = true → place.startsWith kind = true
  | _ => False

/-- Whether pieces start with one that can be the first at a place. -/
def Item.LeadAt (place : Place) (items : List Item) : Prop :=
  items.head?.elim False (Item.StartsAt place)

theorem Item.startsAt_keyword {keyword : Keyword}
    (h : place.startsWith (.keyword keyword) = true) : (Item.keyword keyword).StartsAt place := by
  intro t ht
  rw [ht]
  exact h

theorem Item.startsAt_mark {mark : Punctuator}
    (h : place.startsWith (.punctuator mark) = true) : (Item.mark mark).StartsAt place := by
  intro t ht
  rw [ht]
  exact h

theorem Item.startsAt_name {x : String} (h : place.startsWith .identifier = true) :
    (Item.word (.name x)).StartsAt place := by
  intro t ht
  rw [Token.kind_of_identifier? ht]
  exact h

/-- The first part of an expression. -/
theorem Item.startsAt_first (hrank : s.rank < 14 ∨ 14 ≤ s'.rank)
    (hopening : s.opening = s'.opening) :
    (Item.part (.expression s')).StartsAt (.expression s) :=
  ⟨nofun, fun _ h => Place.startsWith_first h (by omega) hopening⟩

/-- A declaration can start a statement. -/
theorem TokenKind.startsStatement_of_declaration {declaration : DeclarationKind}
    (h : DeclarationKind.ofKind? kind = some declaration) : kind.startsStatement = true := by
  unfold DeclarationKind.ofKind? at h
  split at h
  case h_4 => cases h
  all_goals rfl

/-- A literal starts a chain, and it is neither a block nor a function. -/
theorem Token.startsChain_of_literal? {value : LiteralValue} (h : t.literal? = some value) :
    t.kind.startsChain = true ∧ t.kind.startsBlockOrFunction = false := by
  obtain ⟨kind, value, span⟩ := t
  simp only [Token.literal?] at h
  split at h
  case h_6 => cases h
  all_goals exact ⟨rfl, rfl⟩

/-- An update operator starts an expression. -/
theorem TokenKind.startsExpression_of_update {operator : UpdateOperator}
    (h : UpdateOperator.ofKind? kind = some operator) :
    kind.startsExpression = true ∧ kind.startsBlockOrFunction = false := by
  unfold UpdateOperator.ofKind? at h
  split at h
  case h_3 => cases h
  all_goals exact ⟨rfl, rfl⟩

/-- A unary operator starts an expression. -/
theorem TokenKind.startsExpression_of_unary {operator : UnaryOperator}
    (h : UnaryOperator.ofKind? kind = some operator) :
    kind.startsExpression = true ∧ kind.startsBlockOrFunction = false := by
  unfold UnaryOperator.ofKind? at h
  split at h
  case h_8 => cases h
  all_goals exact ⟨rfl, rfl⟩

/-- An expression starts with a word that can stand first in its slot, or with a part that can. -/
theorem Phrase.starts_expression {form : Form} {items : List Item}
    (h : Phrase (.expression s) form items) (hadmits : s.admits form = true) :
    Item.LeadAt (.expression s) items := by
  obtain ⟨hrank, _, hopening, _⟩ := Slot.admits_iff.1 hadmits
  -- a loose form is admitted by loose slots only, and the first part of a tight one is tight
  cases h with
  | sequence =>
    exact Item.startsAt_first (.inl (Nat.lt_of_le_of_lt hrank (by decide))) rfl
  | assignment => exact Item.startsAt_first (.inr (Nat.le_succ 14)) rfl
  | conditional =>
    exact Item.startsAt_first (.inl (Nat.lt_of_le_of_lt hrank (by decide))) rfl
  | binary _ operator =>
    have hprecedence : operator.precedence ≤ 10 := Grammar.precedence_le operator
    have hloose : s.rank < 14 := by
      calc s.rank ≤ 2 + operator.precedence := hrank
        _ < 14 := by omega
    exact Item.startsAt_first (.inl hloose) rfl
  | unary =>
    -- a slot of rank 14 or more, which asks for a chain, does not admit the form
    intro t ht
    obtain ⟨hstarts, hblock⟩ := TokenKind.startsExpression_of_unary ht
    refine Place.startsWith_expression_iff.2 ⟨hstarts, fun htight => ?_, fun _ => hblock⟩
    exact absurd (Nat.le_trans htight hrank) (Nat.not_succ_le_self 13)
  | update =>
    intro t ht
    obtain ⟨hstarts, hblock⟩ := TokenKind.startsExpression_of_update ht
    refine Place.startsWith_expression_iff.2 ⟨hstarts, fun htight => ?_, fun _ => hblock⟩
    exact absurd (Nat.le_trans htight hrank) (Nat.not_succ_le_self 13)
  | updated => exact Item.startsAt_first (.inr (Nat.le_succ 14)) rfl
  | new _ h =>
    have hnew : (Item.keyword .newKw).StartsAt (.expression s) :=
      Item.startsAt_keyword (Place.startsWith_of_startsChain rfl fun _ => rfl)
    cases h <;> exact hnew
  | call => exact Item.startsAt_first (.inr (Nat.le_add_left 14 2)) rfl
  | member | computedMember =>
    have hobject : 14 ≤ s.object.rank :=
      Nat.le_trans (Nat.le_add_left 14 2) (Nat.le_max_left 16 s.rank)
    exact Item.startsAt_first (.inr hobject) rfl
  | function =>
    -- where a statement starts the slot does not admit it without parentheses
    refine Item.startsAt_keyword (Place.startsWith_of_startsChain rfl fun h => ?_)
    cases hopening h
  | array => exact Item.startsAt_mark (Place.startsWith_of_startsChain rfl fun _ => rfl)
  | object =>
    refine Item.startsAt_mark (Place.startsWith_of_startsChain rfl fun h => ?_)
    cases hopening h
  | this =>
    exact Item.startsAt_keyword (Place.startsWith_of_startsChain rfl fun _ => rfl)
  | identifier =>
    exact Item.startsAt_name (Place.startsWith_of_startsChain rfl fun _ => rfl)
  | literal =>
    intro t ht
    obtain ⟨hstarts, hblock⟩ := Token.startsChain_of_literal? ht
    exact Place.startsWith_of_startsChain hstarts fun _ => hblock

/-- A rule starts with a word that can stand first at its place, or with a part that can. -/
theorem Phrase.starts {form : Form} {items : List Item} (h : Phrase place form items)
    (hadmits : place.admits form = true) (hplace : place ≠ .program) :
    Item.LeadAt place items := by
  by_cases hs : ∃ s, place = .expression s
  · obtain ⟨s, rfl⟩ := hs
    exact h.starts_expression hadmits
  cases h with
  | program => exact absurd rfl hplace
  | expressionStatement =>
    refine ⟨nofun, fun kind hkind => ?_⟩
    exact TokenKind.startsStatement_of_startsExpression
      (Place.startsWith_expression_iff.1 hkind).1
  | variableStatement =>
    exact fun _ ht => TokenKind.startsStatement_of_declaration ht
  | declarations => exact fun _ ht => Option.isSome_iff_exists.2 ⟨_, ht⟩
  | compoundStatement | emptyStatement | parameters | arguments =>
    exact Item.startsAt_mark rfl
  | definition | initialized | parameter => exact Item.startsAt_name rfl
  | property | key => exact fun _ _ => rfl
  | construction h => cases h <;> exact Item.startsAt_keyword rfl
  | sequence | assignment | conditional | binary | unary | update | updated | new | call
  | member | computedMember | function | array | object | this | identifier | literal =>
    exact absurd ⟨_, rfl⟩ hs
  | _ => exact Item.startsAt_keyword rfl

/-- What stands for a place starts as the place does. -/
theorem Place.Through.starts {cost : Nat} (h : place.Through inner cost) :
    (Item.part inner).StartsAt place := by
  cases h with
  | element => exact ⟨by simp, fun _ h => h⟩
  | block =>
    refine ⟨by simp, fun kind h => ?_⟩
    rw [eq_of_beq h]
    rfl

mutual
/-- What was read starts with a token that can start it. -/
theorem Reads.starts {implied : Cursor → Prop} {levels : Nat} {place : Place} {c c' : Cursor}
    {n : Node} :
    Reads implied levels place c n c' → place ≠ .program →
      ∃ kind, c.kind? = some kind ∧ place.startsWith kind = true
  | .plain hadmits hphrase hitems _, hplace => by
    exact hitems.starts (hphrase.starts hadmits hplace)
  | .enclosed _ hopen _ _, _ =>
    ⟨_, hopen, Place.startsWith_of_startsChain rfl fun _ => rfl⟩
  | .through hthrough hinner, _ => by
    obtain ⟨kind, hkind, hstarts⟩ := hinner.starts hthrough.starts.1
    exact ⟨kind, hkind, hthrough.starts.2 kind hstarts⟩

/-- Items that were read start with a token with which their place can start. -/
theorem ReadsItems.starts {implied : Cursor → Prop} {levels : Nat} {place : Place}
    {items : List Item} {c c' : Cursor} {ns : List Node} :
    ReadsItems implied levels items c ns c' → Item.LeadAt place items →
      ∃ kind, c.kind? = some kind ∧ place.startsWith kind = true
  | .nil, hstarts => hstarts.elim
  | .word ht hw _, hstarts => ⟨_, Cursor.kind?_of_head ht, hstarts _ hw⟩
  | .part hn _, hstarts => by
    obtain ⟨kind, hkind, hinner⟩ := hn.starts hstarts.1
    exact ⟨kind, hkind, hstarts.2 kind hinner⟩
  | .hole _ _, hstarts => hstarts.elim
  | .semicolon _ _, hstarts => hstarts.elim
  | .implied _ _ _, hstarts => hstarts.elim
  | .ended _ _, hstarts => hstarts.elim
  | .unended _ _, hstarts => hstarts.elim
  | .sameLine _ _, hstarts => hstarts.elim
end

/-- What was read does not start with a token that cannot start it. -/
theorem Reads.kind?_ne {implied : Cursor → Prop} {levels : Nat} {c c' : Cursor} {n : Node}
    (h : Reads implied levels place c n c') (hkind : place.startsWith kind = false) :
    c.kind? ≠ some kind := by
  have hplace : place ≠ .program := by
    rintro rfl
    cases hkind
  obtain ⟨kind', hkind', hstarts⟩ := h.starts hplace
  intro hcontra
  rw [hkind', Option.some_inj] at hcontra
  rw [hcontra, hkind] at hstarts
  cases hstarts

end Starts

end ScriptLint
