import Mathlib.Data.List.Induction
import ScriptLint.Proofs.Grammar.Progress
import ScriptLint.Proofs.Grammar.StatementComplete
import ScriptLint.Proofs.Tree.Unlocated

/-!
# Operands and binary operators

A row of operands with binary operators between them can be grouped in many ways. In exactly one of
them an operator never stands to the left below a tighter one, nor to the right below one that is
as tight or tighter (`OperatorTree.Climbs`). The parser builds this tree, and it refuses a row
exactly if the tree is too tall (`climbing_builds_tree`).

The tree of a row is unique because its root has to be the last of the loosest operators. The loop
of the parser grows a tree along its left edge: what it has built before the last operator of the
edge is the left part of the tree (`reads_spine`).
-/

namespace ScriptLint

open ScriptLint.Parser ScriptLint.Grammar
open Cursor (Never)

/-! ## Rows and trees -/

/-- The form of the node that a token makes on its own: a literal, a name or `this`. -/
def Token.operand? (t : Token) : Option Form :=
  if t.kind = .keyword .thisKw then some .thisExpression
  else (t.literal?.map Form.literal).or (t.identifier?.map Form.identifier)

/-- A token that is an operand on its own. -/
structure Operand where
  token : Token
  form : Form
  stands : token.operand? = some form

/-- A token that is a binary operator. -/
structure OperatorToken where
  token : Token
  operator : BinaryOperator
  means : BinaryOperator.ofKind? token.kind = some operator

namespace OperatorToken

def precedence (o : OperatorToken) : Nat := o.operator.precedence

theorem precedence_le (o : OperatorToken) : o.precedence ≤ precedences :=
  Grammar.precedence_le o.operator

end OperatorToken

/-- Operands with binary operators between them. -/
@[ext] structure OperandRow where
  first : Operand
  others : List (OperatorToken × Operand)

/-- The tokens of a row, from the left. -/
def OperandRow.tokens (row : OperandRow) : List Token :=
  row.first.token :: row.others.flatMap fun (operator, operand) => [operator.token, operand.token]

/-- Operands grouped by binary operators. -/
inductive OperatorTree where
  | operand (x : Operand)
  | binary (left : OperatorTree) (operator : OperatorToken) (right : OperatorTree)

namespace OperatorTree

/-- The operands and operators of a tree in order. -/
def row : OperatorTree → OperandRow
  | .operand x => ⟨x, []⟩
  | .binary left operator right =>
    ⟨left.row.first, left.row.others ++ (operator, right.row.first) :: right.row.others⟩

def tokens (tree : OperatorTree) : List Token := tree.row.tokens

/-- The precedence at the root. An operand holds together more tightly than all operators do. -/
def precedence : OperatorTree → Nat
  | .operand _ => precedences + 1
  | .binary _ operator _ => operator.precedence

/-- Below an operator stand to the left those that are at least as tight, and to the right those
that are tighter. -/
def Climbs : OperatorTree → Prop
  | .operand _ => True
  | .binary left operator right =>
    left.Climbs ∧ right.Climbs ∧
      operator.precedence ≤ left.precedence ∧ operator.precedence < right.precedence

def height : OperatorTree → Nat
  | .operand _ => 1
  | .binary left _ right => 1 + max left.height right.height

/-- The syntax tree, without places. -/
def toNode : OperatorTree → Node
  | .operand x => .build x.form .nowhere []
  | .binary left operator right =>
    .build (.binaryExpression operator.operator) .nowhere [left.toNode, right.toNode]

/-- A tree of operators is as tall as its node. -/
theorem height_toNode (tree : OperatorTree) : tree.toNode.height = tree.height := by
  induction tree with
  | operand x => rfl
  | binary left operator right ihleft ihright =>
    simp [toNode, Node.build, height, ihleft, ihright]

theorem precedence_pos (tree : OperatorTree) : 0 < tree.precedence := by
  cases tree with
  | operand x => exact Nat.succ_pos _
  | binary left operator right =>
    show 0 < operator.operator.precedence
    cases operator.operator <;> decide

/-- The operator stands between the tokens of its two sides. -/
theorem tokens_binary (left : OperatorTree) (operator : OperatorToken) (right : OperatorTree) :
    (binary left operator right).tokens = left.tokens ++ operator.token :: right.tokens := by
  simp [tokens, row, OperandRow.tokens]

/-! ## The tree of a row -/

/-- No operator of a tree is looser than its root. -/
theorem Climbs.precedence_le {tree : OperatorTree} (h : tree.Climbs)
    {entry : OperatorToken × Operand} (hentry : entry ∈ tree.row.others) :
    tree.precedence ≤ entry.1.precedence := by
  induction tree with
  | operand x => cases hentry
  | binary left operator right ihleft ihright =>
    obtain ⟨hleft, hright, hle, hlt⟩ := h
    simp only [row, List.mem_append, List.mem_cons] at hentry
    obtain hentry | rfl | hentry := hentry
    · exact Nat.le_trans hle (ihleft hleft hentry)
    · exact Nat.le_refl _
    · exact Nat.le_of_lt (Nat.lt_of_lt_of_le hlt (ihright hright hentry))

/-- Two trees of one row have their roots at the same place, since all operators behind the root are
tighter and none before it is looser. -/
theorem row_split {left left' right right' : OperatorTree} {operator operator' : OperatorToken}
    (h : (binary left operator right).Climbs) (h' : (binary left' operator' right').Climbs)
    (hothers : (binary left operator right).row.others =
      (binary left' operator' right').row.others)
    {between : List (OperatorToken × Operand)}
    (hbetween : left'.row.others = left.row.others ++ between) : between = [] := by
  obtain ⟨-, hright, -, hlt⟩ := h
  obtain ⟨hleft', -, hle', -⟩ := h'
  simp only [row, hbetween, List.append_assoc, List.append_cancel_left_eq] at hothers
  cases between with
  | nil => rfl
  | cons entry between =>
    obtain ⟨rfl, hbehind⟩ := List.cons.inj hothers
    have hmem : (operator, right.row.first) ∈ left'.row.others := by simp [hbetween]
    have hmem' : (operator', right'.row.first) ∈ right.row.others := by simp [hbehind]
    have hroot : left'.precedence ≤ operator.precedence := hleft'.precedence_le hmem
    have hroot' : right.precedence ≤ operator'.precedence := hright.precedence_le hmem'
    omega

/-- A row has at most one tree. -/
theorem Climbs.eq_of_row {tree tree' : OperatorTree} (h : tree.Climbs) (h' : tree'.Climbs)
    (hrow : tree.row = tree'.row) : tree = tree' := by
  induction tree generalizing tree' with
  | operand x =>
    cases tree' with
    | operand x' => rw [(OperandRow.mk.inj hrow).1]
    | binary left' operator' right' =>
      have hothers := (OperandRow.mk.inj hrow).2
      simp at hothers
  | binary left operator right ihleft ihright =>
    cases tree' with
    | operand x' =>
      have hothers := (OperandRow.mk.inj hrow).2
      simp at hothers
    | binary left' operator' right' =>
      obtain ⟨hfirst, hothers⟩ := OperandRow.mk.inj hrow
      have hsame : left.row.others = left'.row.others := by
        obtain ⟨between, hbetween, -⟩ | ⟨between, hbetween, -⟩ :=
          List.append_eq_append_iff.1 hothers
        · rw [hbetween, row_split h h' hothers hbetween, List.append_nil]
        · rw [hbetween, row_split h' h hothers.symm hbetween, List.append_nil]
      rw [hsame, List.append_cancel_left_eq] at hothers
      obtain ⟨hentry, hbehind⟩ := List.cons.inj hothers
      obtain ⟨rfl, hnext⟩ := Prod.mk.inj hentry
      rw [ihleft h.1 h'.1 (OperandRow.ext hfirst hsame),
        ihright h.2.1 h'.2.1 (OperandRow.ext hnext hbehind)]

/-- A tree with one more operator and its right operand behind it. -/
def extend (tree : OperatorTree) (operator : OperatorToken) (x : Operand) : OperatorTree :=
  match tree with
  | .operand _ => .binary tree operator (.operand x)
  | .binary left root right =>
    if root.precedence < operator.precedence then .binary left root (right.extend operator x)
    else .binary tree operator (.operand x)

/-- The operator and its operand are put behind the row. -/
theorem row_extend (tree : OperatorTree) (operator : OperatorToken) (x : Operand) :
    (tree.extend operator x).row = ⟨tree.row.first, tree.row.others ++ [(operator, x)]⟩ := by
  induction tree with
  | operand y => rfl
  | binary left root right _ ihright =>
    rw [extend]
    split
    · simp [row, ihright]
    · rfl

/-- The new operator is at the root or stays below it. -/
theorem le_precedence_extend (tree : OperatorTree) (operator : OperatorToken) (x : Operand) :
    min tree.precedence operator.precedence ≤ (tree.extend operator x).precedence := by
  cases tree with
  | operand y => exact Nat.min_le_right _ _
  | binary left root right =>
    rw [extend]
    split
    · exact Nat.min_le_left _ _
    · exact Nat.min_le_right _ _

/-- The rule stays kept, since the operator goes down the right side past all looser ones. -/
theorem Climbs.extend {tree : OperatorTree} (h : tree.Climbs) (operator : OperatorToken)
    (x : Operand) : (tree.extend operator x).Climbs := by
  have htight : operator.precedence < (OperatorTree.operand x).precedence :=
    Nat.lt_succ_of_le operator.precedence_le
  induction tree with
  | operand y => exact ⟨trivial, trivial, Nat.le_of_lt htight, htight⟩
  | binary left root right _ ihright =>
    rw [OperatorTree.extend]
    split
    · next hlt =>
      obtain ⟨hleft, hright, hle, hroot⟩ := h
      refine ⟨hleft, ihright hright, hle, Nat.lt_of_lt_of_le ?_ (le_precedence_extend _ _ _)⟩
      exact Nat.lt_min.2 ⟨hroot, hlt⟩
    · next hle => exact ⟨h, trivial, Nat.le_of_not_lt hle, htight⟩

/-- A row has a tree: the operators and operands are added one after the other. -/
theorem exists_climbs (row : OperandRow) : ∃ tree : OperatorTree, tree.Climbs ∧ tree.row = row := by
  obtain ⟨first, others⟩ := row
  induction others using List.reverseRecOn with
  | nil => exact ⟨.operand first, trivial, rfl⟩
  | append_singleton others entry ih =>
    obtain ⟨tree, hclimbs, hrow⟩ := ih
    exact ⟨tree.extend entry.1 entry.2, hclimbs.extend _ _, by rw [row_extend, hrow]⟩

end OperatorTree

/-! ## Reading a row -/

/-- Where no token is left, everything ends. -/
theorem Cursor.Ends.of_end {c : Cursor} (h : c.rest = []) (allowIn : Bool) (rank : Nat) :
    c.Ends allowIn rank := by
  intro kind join hkind _
  rw [Cursor.kind?, h] at hkind
  cases hkind

/-- An operator ends what holds together at least as tightly as it does. -/
theorem OperatorToken.ends {c : Cursor} {o : OperatorToken} {rest : List Token} {precedence : Nat}
    (hrest : c.rest = o.token :: rest) (h : o.precedence ≤ precedence) :
    c.Ends true (3 + precedence) := by
  have hkind : c.kind? = some o.token.kind := by rw [Cursor.kind?, hrest]; rfl
  refine .of_some hkind (TokenKind.joinRank?_binary o.means (.inl rfl)) ?_
  show 2 + o.precedence < 3 + precedence
  omega

/-- An operand is read as a node of its form. -/
theorem Operand.reads {c : Cursor} {x : Operand} (h : c.rest.head? = some x.token)
    (levels : Nat) :
    Reads Never levels (.expression (.plain 13 true false)) c
      (.build x.form ⟨c.here, c.advance.lastEnd⟩ []) c.advance := by
  obtain ⟨t, form, hform⟩ := x
  show Reads Never (levels + 0) _ c _ _
  unfold Token.operand? at hform
  split at hform
  · next hthis =>
    cases hform
    exact .plain (by rfl) (.this (.plain 13 true false)) (.word h hthis .nil) nofun
  · obtain hliteral | ⟨-, hidentifier⟩ := Option.or_eq_some_iff.1 hform
    · obtain ⟨value, hvalue, rfl⟩ := Option.map_eq_some_iff.1 hliteral
      exact .plain (by rfl) (.literal (.plain 13 true false) value) (.word h hvalue .nil) nofun
    · obtain ⟨name, hname, rfl⟩ := Option.map_eq_some_iff.1 hidentifier
      exact .plain (by rfl) (.identifier (.plain 13 true false) name) (.word h hname .nil) nofun

namespace Parser

variable {α β : Type} {c m : Cursor} {e : SyntaxError}

theorem bind_of_ok {x : Parser α} {f : α → Parser β} {a : α} (h : x c = .ok a m) :
    (x >>= f) c = f a m := by
  show EStateM.bind x f c = _
  unfold EStateM.bind
  rw [h]

theorem bind_of_error {x : Parser α} {f : α → Parser β} (h : x c = .error e m) :
    (x >>= f) c = .error e m := by
  show EStateM.bind x f c = _
  unfold EStateM.bind
  rw [h]

/-- A tree that is too tall is noted where it starts. -/
theorem bounded_eq_error {n : Node} (h : maxHeight < n.height) :
    bounded n c = .error (.nestingTooDeep n.start) c := by
  rw [bounded, if_neg (Nat.not_le_of_lt h)]
  rfl

namespace Chaining

variable {step : α → Parser (Option α)} {a b : α}

/-- A chain ends with the first step that does not apply. -/
theorem chain_of_none (h : Chaining step) (hstep : step a c = .ok none m) :
    chain step a c = .ok a m := by
  rw [h.unroll]
  exact bind_of_ok hstep

/-- A chain goes on from what its first step gives. -/
theorem chain_of_some (h : Chaining step) (hstep : step a c = .ok (some b) m) :
    chain step a c = chain step b m := by
  rw [h.unroll]
  exact bind_of_ok hstep

/-- A chain fails with its first step. -/
theorem chain_of_error (h : Chaining step) (hstep : step a c = .error e m) :
    chain step a c = .error e m := by
  rw [h.unroll]
  exact bind_of_error hstep

end Chaining

end Parser

namespace Grammar

variable {levels depth loosest : Nat} {start : Position} {rest : List Token} {c : Cursor}
  {tree : OperatorTree}

/-- A round of the loop over the operators that are tighter than `loosest`. -/
def operatorRound (levels depth loosest : Nat) (start : Position) (left : Node) :
    Parser (Option Node) :=
  binaryStep (fun operator => binary (nested levels) true depth operator.precedence)
    true loosest start left

theorem operatorRound_chaining : Chaining (operatorRound levels depth loosest start) :=
  .of_consumes (ChainRound.binary true depth loosest start).consumes

/-- What a parser makes of the tokens of a tree that stand before `rest`. It goes on with the tree,
or fails if the tree is too tall. -/
structure Builds (tree : OperatorTree) (rest : List Token) (next : Node → Parser Node)
    (result : EStateM.Result SyntaxError Cursor Node) : Prop where
  built : tree.height ≤ maxHeight →
    ∃ n c, n.Alike tree.toNode ∧ c.rest = rest ∧ result = next n c
  tall : maxHeight < tree.height → ∃ position c, result = .error (.nestingTooDeep position) c

/-- Where the loop stops behind a tree, the tree is what was read. -/
theorem Builds.stop {result : EStateM.Result SyntaxError Cursor Node}
    (h : Builds tree rest (chain (operatorRound levels depth loosest start)) result)
    (hend : Cursor.Ends ⟨none, rest⟩ true (3 + loosest)) : Builds tree rest pure result where
  built hheight := by
    obtain ⟨n, m, halike, hm, hresult⟩ := h.built hheight
    subst hm
    exact ⟨n, m, halike, rfl,
      hresult.trans (operatorRound_chaining.chain_of_none (binaryStep_stop hend))⟩
  tall := h.tall

/-- A round behind the left part of a tree reads its operator and its right part. -/
theorem operatorRound_builds {left right : OperatorTree} {operator : OperatorToken} {n : Node}
    (hloosest : loosest < operator.precedence) (hn : n.Alike left.toNode)
    (hc : c.rest.head? = some operator.token)
    (hright : Builds right rest pure
      (binary (nested levels) true depth operator.precedence c.advance)) :
    Builds (.binary left operator right) rest (chain (operatorRound levels depth loosest start))
      (chain (operatorRound levels depth loosest start) n c) := by
  have hround : operatorRound levels depth loosest start n c = (do
        let right ← binary (nested levels) true depth operator.precedence
        let both ← finish (.binaryExpression operator.operator) start [n, right]
        let result ← bounded both
        return some result : Parser (Option Node)) c.advance := by
    have hoperator : c.operator? true = some operator.operator := by
      rw [Cursor.operator?, Cursor.kind?_of_head hc, Option.bind_some, operator.means]
      rfl
    have htight : loosest < operator.operator.precedence := hloosest
    rw [operatorRound, binaryStep, binaryOperator?_bind, hoperator]
    simp only [Option.filter_some, htight, decide_true, ↓reduceIte]
    rw [advance_bind]
    rfl
  by_cases htall : maxHeight < right.height
  · obtain ⟨position, m, herror⟩ := hright.tall htall
    refine ⟨fun hheight => ?_, fun _ => ⟨position, m, ?_⟩⟩
    · simp only [OperatorTree.height] at hheight
      omega
    · exact operatorRound_chaining.chain_of_error (hround.trans (bind_of_error herror))
  · obtain ⟨operand, m, hoperand, hm, hok⟩ := hright.built (Nat.le_of_not_lt htall)
    have halike : (Node.build (.binaryExpression operator.operator) ⟨start, m.lastEnd⟩
        [n, operand]).Alike (OperatorTree.binary left operator right).toNode :=
      .build rfl (.cons hn (.cons hoperand .nil))
    have hheight := halike.height.trans (OperatorTree.height_toNode _)
    rw [bind_of_ok hok, finish_bind] at hround
    refine ⟨fun hle => ?_, fun hlt => ?_⟩
    · rw [← hheight] at hle
      rw [bind_of_ok (bounded_eq_ok.2 ⟨hle, rfl, rfl⟩)] at hround
      exact ⟨_, m, halike, hm, operatorRound_chaining.chain_of_some hround⟩
    · rw [← hheight] at hlt
      rw [bind_of_error (bounded_eq_error hlt)] at hround
      exact ⟨_, m, operatorRound_chaining.chain_of_error hround⟩

/-- The loop goes on with what it has built of the tokens of a tree, which stand along the left edge
of what it builds in the end. -/
theorem reads_spine (hclimbs : tree.Climbs) (hloosest : loosest < tree.precedence)
    (hdepth : precedences ≤ depth + loosest) (hrest : c.rest = tree.tokens ++ rest)
    (hend : Cursor.Ends ⟨none, rest⟩ true (3 + tree.precedence)) (start : Position) :
    Builds tree rest (chain (operatorRound levels depth loosest start))
      ((unary (nested levels) >>= chain (operatorRound levels depth loosest start)) c) := by
  induction tree generalizing loosest rest c start with
  | operand x =>
    obtain ⟨previous, _⟩ := c
    cases hrest
    have hread := unary_complete (nested_complete levels)
      (Operand.reads (c := ⟨previous, x.token :: rest⟩) rfl levels) hend
    exact ⟨fun _ => ⟨_, _, .build rfl .nil, rfl, bind_of_ok hread⟩,
      fun htall => absurd htall (Nat.not_lt_of_le (by decide : 1 ≤ maxHeight))⟩
  | binary left operator right ihleft ihright =>
    obtain ⟨hleft, hright, hle, hlt⟩ := hclimbs
    have hlower : loosest < operator.precedence := hloosest
    rw [OperatorTree.tokens_binary, List.append_assoc, List.cons_append] at hrest
    have hbuilds := ihleft hleft (Nat.lt_of_lt_of_le hlower hle) hdepth hrest
      (OperatorToken.ends rfl hle) start
    by_cases htall : maxHeight < left.height
    · refine ⟨fun hheight => ?_, fun _ => hbuilds.tall htall⟩
      simp only [OperatorTree.height] at hheight
      omega
    · obtain ⟨n, m, hn, hm, hresult⟩ := hbuilds.built (Nat.le_of_not_lt htall)
      rw [hresult]
      refine operatorRound_builds hlower hn (by rw [hm]; rfl) ?_
      -- the right part ends before `rest`, whose operator is not tighter than this one
      have hdeep : precedences ≤ depth + operator.precedence := by omega
      have hbehind : m.advance.rest = right.tokens ++ rest := by rw [Cursor.advance, hm]
      have hends : Cursor.Ends ⟨none, rest⟩ true (3 + right.precedence) :=
        hend.mono (Nat.add_le_add_left (Nat.le_of_lt hlt) 3)
      rw [binary_eq hdeep, here_bind]
      exact (ihright hright hlt hdeep hbehind hends m.advance.here).stop hend

/-- What is read with the binary operators is an expression, if the tokens end behind it. -/
theorem expression_of_binary {levels : Nat} {n : Node} {m : Cursor} (hm : m.rest = [])
    (h : binary (nested levels) true precedences 0 c = .ok n m) :
    expression (nested (levels + 1)) true c = .ok n m := by
  have hkind : m.kind? = none := by rw [Cursor.kind?, hm]; rfl
  have hne (kind : TokenKind) : m.kind? ≠ some kind := by simp [hkind]
  have hconditional : conditional (nested levels) true c = .ok n m := by
    rw [conditional, here_bind, bind_of_ok h, accept_neg (hne _)]
    rfl
  have hassignment : (nested (levels + 1)).assignment true c = .ok n m := by
    show assignment (nested levels) true c = _
    rw [assignment, here_bind, bind_of_ok hconditional, peekKind?_bind, hkind]
    rfl
  rw [expression, here_bind, bind_of_ok hassignment, check_neg (hne _)]
  rfl

/-- Where the binary operators are not read, neither is the expression. -/
theorem expression_of_binary_error {levels : Nat} {e : SyntaxError} {m : Cursor}
    (h : binary (nested levels) true precedences 0 c = .error e m) :
    expression (nested (levels + 1)) true c = .error e m := by
  have hconditional : conditional (nested levels) true c = .error e m := by
    rw [conditional, here_bind]
    exact bind_of_error h
  have hassignment : (nested (levels + 1)).assignment true c = .error e m := by
    show assignment (nested levels) true c = _
    rw [assignment, here_bind]
    exact bind_of_error hconditional
  rw [expression, here_bind]
  exact bind_of_error hassignment

/-- A row where the tokens end is read as its tree, however many levels there are. -/
theorem expression_builds (hclimbs : tree.Climbs) (levels : Nat) (previous : Option Token) :
    Builds tree [] pure (expression (nested (levels + 1)) true ⟨previous, tree.tokens⟩) := by
  have hbinary : Builds tree [] pure
      (binary (nested levels) true precedences 0 ⟨previous, tree.tokens⟩) := by
    rw [binary_eq (Nat.le_refl _), here_bind]
    exact (reads_spine hclimbs tree.precedence_pos (Nat.le_refl _) (List.append_nil _).symm
      (.of_end rfl _ _) _).stop (.of_end rfl _ _)
  refine ⟨fun hlow => ?_, fun htall => ?_⟩
  · obtain ⟨n, m, hn, hm, hok⟩ := hbinary.built hlow
    exact ⟨n, m, hn, hm, expression_of_binary hm hok⟩
  · obtain ⟨position, m, herror⟩ := hbinary.tall htall
    exact ⟨position, m, expression_of_binary_error herror⟩

/-- On its own a row is read with at least one level left, since `maxNesting` is not zero. -/
theorem topExpression_builds (hclimbs : tree.Climbs) (previous : Option Token) :
    Builds tree [] pure (topExpression true ⟨previous, tree.tokens⟩) := by
  obtain ⟨levels, hlevels⟩ := Nat.exists_eq_succ_of_ne_zero (by decide : maxNesting ≠ 0)
  rw [topExpression, outermost, hlevels]
  exact expression_builds hclimbs levels previous

end Grammar

/-- A row of operands with binary operators between them has exactly one tree in which an operator
never stands to the left below a tighter one nor to the right below one that is at least as tight.
Where the tokens end behind the row, the parser reads it as this tree if the tree is low enough, and
otherwise says that it is too tall. -/
theorem climbing_builds_tree (row : OperandRow) :
    ∃ tree : OperatorTree, tree.Climbs ∧ tree.row = row ∧
      (∀ other : OperatorTree, other.Climbs → other.row = row → other = tree) ∧
      ∀ previous,
        (tree.height ≤ maxHeight → ∃ n c, n.Alike tree.toNode ∧ c.rest = [] ∧
          (topExpression true).run ⟨previous, row.tokens⟩ = (.ok n, c)) ∧
        (maxHeight < tree.height → ∃ position c,
          (topExpression true).run ⟨previous, row.tokens⟩ =
            (.error (.nestingTooDeep position), c)) := by
  obtain ⟨tree, hclimbs, rfl⟩ := OperatorTree.exists_climbs row
  refine ⟨tree, hclimbs, rfl, fun other hother hrow => hother.eq_of_row hclimbs hrow, ?_⟩
  intro previous
  have hbuilds := topExpression_builds hclimbs previous
  refine ⟨fun hlow => ?_, fun htall => ?_⟩
  · obtain ⟨n, c, hn, hc, hok⟩ := hbuilds.built hlow
    exact ⟨n, c, hn, hc, by rw [Parser.run, ← OperatorTree.tokens, hok]; rfl⟩
  · obtain ⟨position, c, herror⟩ := hbuilds.tall htall
    exact ⟨position, c, by rw [Parser.run, ← OperatorTree.tokens, herror]⟩

/-- The row `a - b - c * d` is read as `(a - b) - (c * d)`. -/
theorem climbing_builds_tree_difference :
    let x (name : String) : Operand :=
      ⟨.nowhere .identifier (.identifier name), .identifier name, rfl⟩
    let minus : OperatorToken := ⟨.nowhere (.punctuator .minus) .none, .subtract, rfl⟩
    let times : OperatorToken := ⟨.nowhere (.punctuator .mul) .none, .multiply, rfl⟩
    let row : OperandRow := ⟨x "a", [(minus, x "b"), (minus, x "c"), (times, x "d")]⟩
    let tree : OperatorTree :=
      .binary (.binary (.operand (x "a")) minus (.operand (x "b"))) minus
        (.binary (.operand (x "c")) times (.operand (x "d")))
    ∃ n c, n.Alike tree.toNode ∧ c.rest = [] ∧
      (topExpression true).run ⟨none, row.tokens⟩ = (.ok n, c) := by
  intro x minus times row tree
  obtain ⟨_, -, -, hunique, hread⟩ := climbing_builds_tree row
  have hclimbs : tree.Climbs := by
    simp [tree, OperatorTree.Climbs, OperatorTree.precedence, OperatorToken.precedence, minus,
      times, BinaryOperator.precedence, precedences]
  obtain rfl := hunique tree hclimbs rfl
  exact (hread none).1 (by decide)

end ScriptLint
