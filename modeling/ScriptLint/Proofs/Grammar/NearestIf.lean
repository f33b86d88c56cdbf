import ScriptLint.Proofs.Grammar.Depth
import ScriptLint.Proofs.Grammar.Derived

/-!
# An `else` belongs to the nearest `if`

A statement that ends in an `if` without an `else` is open: an `else` behind it would have been its
own. The rules keep such statements away from an `else` by the place before it, which is closed, and
from a closed place the rule hands on to the statement at the end, whatever stands around it
(`Phrase.last_closed`). So no statement at a closed place is open, however deep the `if` lies
(`Reads.not_endsOpen`).

Main statement: `else_of_nearest_if`.
-/

namespace ScriptLint

/-! ## Open statements -/

/-- Whether the last child of a statement of the form is a statement at its end: the alternate of an
`if`, or the body of a loop or a `with`. -/
def Form.endsInStatement : Form → Bool
  | .ifStatement true | .whileStatement | .forStatement | .forInStatement | .withStatement => true
  | _ => false

/-- `n.EndsOpen` says that a statement ends in an `if` that has no `else`. -/
inductive Node.EndsOpen : Node → Prop where
  | bare {n : Node} : n.form = .ifStatement false → n.EndsOpen
  | last {n last : Node} :
      n.form.endsInStatement = true → n.children.getLast? = some last → last.EndsOpen → n.EndsOpen

/-! ## Closed places -/

/-- What is written at a closed place closes the statement at its end. -/
theorem Phrase.last_closed {form : Form} {items : List Item}
    (h : Phrase (.statement true) form items) (hform : form.endsInStatement = true) :
    ∃ front, items = front ++ [.part (.statement true)] := by
  cases h with
  | ifElseStatement => exact ⟨[_, _, _, _, _, _], rfl⟩
  | whileStatement | withStatement => exact ⟨[_, _, _, _], rfl⟩
  | @forStatement _ init test update =>
    refine ⟨.keyword .forKw :: .mark .leftParen :: (init ++ (test ++ update)), ?_⟩
    simp only [List.cons_append, List.append_assoc]
  | forInStatement => exact ⟨[_, _, _, _, _, _], rfl⟩
  | _ => cases hform

theorem ReadsItems.getLast?_part {implied : Cursor → Prop} {levels : Nat} {front : List Item}
    {place : Place} {c c' : Cursor} {ns : List Node}
    (h : ReadsItems implied levels (front ++ [.part place]) c ns c') :
    ∃ n m, ns.getLast? = some n ∧ Reads implied levels place m n c' := by
  obtain ⟨first, others, m, rfl, -, hlast⟩ := ReadsItems.append_iff.1 h
  obtain ⟨n, _, _, rfl, hn, hnil⟩ := ReadsItems.part_iff.1 hlast
  obtain ⟨rfl, rfl⟩ := ReadsItems.nil_iff.1 hnil
  exact ⟨n, m, by rw [List.getLast?_append, List.getLast?_singleton, Option.some_or], hn⟩

/-- No statement at a closed place is open. -/
theorem Reads.not_endsOpen {levels : Nat} {c c' : Cursor} {n : Node}
    (h : Reads Cursor.Implied levels (.statement true) c n c') : ¬ n.EndsOpen := by
  intro hopen
  -- down to the `if` that is open, every statement at the end stands at a closed place
  induction hopen generalizing levels c c' with
  | bare hform =>
    cases h with
    | plain _ hphrase _ _ =>
      obtain rfl := hform
      cases hphrase
    | through hthrough hinner =>
      cases hthrough
      rw [hinner.form_eq rfl] at hform
      cases hform
  | last hform hlast _ ih =>
    cases h with
    | plain _ hphrase hitems _ =>
      obtain ⟨front, rfl⟩ := hphrase.last_closed hform
      obtain ⟨n, m, hn, hread⟩ := hitems.getLast?_part
      obtain rfl : n = _ := Option.some_inj.1 (hn.symm.trans hlast)
      exact ih hread
    | through hthrough hinner =>
      cases hthrough
      rw [hinner.form_eq rfl] at hform
      cases hform

/-! ## Trees of calls -/

/-- What stands before an `else` was read at a closed place. -/
theorem Node.Derived.not_endsOpen {n : Node} (h : n.Derived) (hform : n.form = .ifStatement true) :
    ∃ test consequent alternate, n.children = [test, consequent, alternate] ∧
      ¬ consequent.EndsOpen := by
  obtain ⟨form, span, height, children⟩ := n
  obtain rfl : form = .ifStatement true := hform
  cases h with
  | hole hempty _ => cases hempty
  | phrase hphrase hitems =>
    cases hphrase with
    | ifElseStatement closed =>
      obtain ⟨-, hitems⟩ := ReadsItems.keyword_iff.1 hitems
      obtain ⟨-, hitems⟩ := ReadsItems.mark_iff.1 hitems
      obtain ⟨test, _, _, rfl, -, hitems⟩ := ReadsItems.part_iff.1 hitems
      obtain ⟨-, hitems⟩ := ReadsItems.mark_iff.1 hitems
      obtain ⟨consequent, _, _, rfl, hconsequent, hitems⟩ := ReadsItems.part_iff.1 hitems
      obtain ⟨-, hitems⟩ := ReadsItems.keyword_iff.1 hitems
      obtain ⟨alternate, _, _, rfl, -, hitems⟩ := ReadsItems.part_iff.1 hitems
      obtain ⟨rfl, -⟩ := ReadsItems.nil_iff.1 hitems
      exact ⟨test, consequent, alternate, rfl, hconsequent.not_endsOpen⟩

theorem Call.derived (call : Call) {c c' : Cursor} {root : Node}
    (h : call.parser c = .ok root c') : root.Everywhere Node.Derived := by
  cases call with
  | program => exact (Grammar.program_derived h).2
  | expression => exact (Grammar.topExpression_reads h).derived

/-- An `else` belongs to the nearest `if`: whatever tokens a tree is read from, the statement
before an `else` never ends in an `if` that could have had it. -/
theorem else_of_nearest_if (call : Call) (c : Cursor) {root : Node}
    (h : (call.parser.run c).1 = .ok root) :
    root.Everywhere fun n => n.form = .ifStatement true →
      ∃ test consequent alternate, n.children = [test, consequent, alternate] ∧
        ¬ consequent.EndsOpen := by
  obtain ⟨c', hrun⟩ := Parser.run_eq_ok.1 h
  exact (call.derived hrun).imp fun n hn => hn.not_endsOpen

/-- An `else` behind two nested `if`s, the inner one at the end of a loop. -/
theorem else_of_nearest_if_loop :
    ∃ root, (Call.program.parser.run (.ofTokens (tokenize "if(a)for(;;)if(b);else;"))).1 =
        .ok root ∧
      root.Everywhere fun n => n.form = .ifStatement true →
        ∃ test consequent alternate, n.children = [test, consequent, alternate] ∧
          ¬ consequent.EndsOpen := by
  obtain ⟨root, hroot⟩ := exists_tree
    (show (parseTokens (tokenize "if(a)for(;;)if(b);else;")).isOk = true by decide +kernel)
  exact ⟨root, hroot, else_of_nearest_if .program _ hroot⟩

end ScriptLint
