import ScriptLint.Proofs.Grammar.Depth
import ScriptLint.Proofs.Grammar.Derived

/-!
# How tall trees get

A node keeps its height. Every node of a script keeps the right one (`Node.Measured`), and no tree
of a script is taller than a fixed bound (`height_bounded`).

Binary operators, calls and member accesses are no taller than `maxHeight`, since the parser checks
them when it builds them. Other nodes are not checked, but at most four of them stand on top of each
other on one nesting level. So a node that is read within `levels` levels is at most
`maxHeight + 4 * levels` tall, up to the `slack` of its place (`Reads.height_le`). How much of the
slack the parts of a form need is its `demand`.
-/

namespace ScriptLint

open ScriptLint.Parser

/-! ## Stored heights -/

mutual
/-- The height of a tree. -/
def Node.measure : Node → Nat
  | ⟨_, _, _, children⟩ => 1 + tallest children

/-- The height of the tallest of some trees. -/
def tallest : List Node → Nat
  | [] => 0
  | n :: ns => max n.measure (tallest ns)
end

/-- A node was built over its children, and within the bound if it is a link of a chain. -/
structure Node.Measured (n : Node) : Prop where
  built : n = .build n.form n.span n.children
  link : n.form.isLink = true → n.height ≤ maxHeight

mutual
/-- A node that was read keeps its height, and a link is not too tall. -/
theorem Reads.measured {levels : Nat} {place : Place} {c c' : Cursor} {n : Node} :
    Reads Cursor.Implied levels place c n c' → n.Everywhere Node.Measured
  | .plain _ _ hitems hlink => .intro ⟨rfl, hlink⟩ hitems.measured
  | .enclosed _ _ hinner _ => hinner.measured
  | .through _ hinner => hinner.measured

/-- So do the nodes of items that were read. -/
theorem ReadsItems.measured {levels : Nat} {items : List Item} {c c' : Cursor} {ns : List Node} :
    ReadsItems Cursor.Implied levels items c ns c' → ∀ n ∈ ns, n.Everywhere Node.Measured
  | .nil => List.forall_mem_nil _
  | .part hn hitems => List.forall_mem_cons.2 ⟨hn.measured, hitems.measured⟩
  | .hole _ hitems =>
    List.forall_mem_cons.2 ⟨.intro ⟨rfl, nofun⟩ (List.forall_mem_nil _), hitems.measured⟩
  | .word _ _ hitems | .semicolon _ hitems | .implied _ _ hitems | .ended _ hitems
  | .unended _ hitems | .sameLine _ hitems => hitems.measured
end

/-- The height of the tallest child, measured or stored. -/
theorem tallest_eq {ns : List Node} (h : ∀ n ∈ ns, n.height = n.measure) :
    tallest ns = ns.foldr (fun child tallest => max child.height tallest) 0 := by
  induction ns with
  | nil => rw [tallest, List.foldr_nil]
  | cons n ns ih =>
    obtain ⟨hn, hns⟩ := List.forall_mem_cons.1 h
    rw [tallest, ih hns, List.foldr_cons, hn]

/-- In a tree whose nodes were built over their children, all heights are right. -/
theorem Node.Everywhere.height_eq {n : Node} (h : n.Everywhere Node.Measured) :
    n.height = n.measure := by
  induction h with
  | @intro n hn _ ih =>
    -- the height that a node is built with is one more than the heights its children keep
    rw [hn.built]
    show 1 + _ = Node.measure ⟨_, _, _, n.children⟩
    rw [Node.measure, tallest_eq ih]

/-- If every node stores its height by its children, every node stores its measure. -/
theorem Node.Everywhere.heights_eq {n : Node} (h : n.Everywhere Node.Measured) :
    n.Everywhere fun n => n.height = n.measure := by
  induction h with
  | intro hn hchildren ih => exact .intro (Node.Everywhere.intro hn hchildren).height_eq ih

/-! ## Bounds -/

/-- A node is one taller than its tallest child. -/
theorem Node.height_build_le {form : Form} {span : Span} {children : List Node} {bound : Nat}
    (hbound : 0 < bound) (h : ∀ child ∈ children, child.height < bound) :
    (Node.build form span children).height ≤ bound := by
  have htallest : children.foldr (fun child tallest => max child.height tallest) 0 < bound := by
    induction children with
    | nil => exact hbound
    | cons child children ih =>
      obtain ⟨hchild, hchildren⟩ := List.forall_mem_cons.1 h
      exact Nat.max_lt.2 ⟨hchild, ih hchildren⟩
  show 1 + _ ≤ bound
  omega

/-- How much taller than by levels alone an expression can be that is read on the level around it,
by the rank that it must have. -/
def rankSlack (rank : Nat) : Nat :=
  if rank ≤ 2 then 4 else if rank ≤ 16 then 3 else 2

/-- How much taller than by levels alone an expression can be. Where it takes a level of its own,
that is nothing, but a sequence stands above its members. -/
def Slot.slack (s : Slot) : Nat :=
  if s.nests then if s.rank = 0 then 1 else 0
  else if s.target then 2
  else rankSlack s.rank

/-- How much taller than by levels alone a node can be. -/
def Place.slack : Place → Nat
  | .program | .switchCase => 3
  | .element | .declarations => 2
  | .definition _ | .parameters | .arguments | .handler | .property => 1
  | .statement _ | .block | .parameter | .key | .construction => 0
  | .expression s => s.slack

/-- How much taller a node can be than by levels alone because of a piece of its rule. -/
def Item.demand : Item → Nat
  | .part place => place.slack + 1
  | _ => 0

/-- How much taller a node can be than by the levels of its parts alone. -/
def Form.demand : Form → Nat
  | .formalParameter _ | .identifier _ | .literal _ | .thisExpression => 0
  | .catchClause _ | .variableDefinition _ _ | .formalParameterList | .functionArgumentList
  | .property _ | .sequenceExpression | .unaryExpression _ | .updateExpression _ true
  | .arrayExpression => 1
  | .variableDefinitionList _ | .functionDeclaration _ | .functionExpression _
  | .objectExpression => 2
  | .program | .switchCase _ | .assignmentExpression _ | .updateExpression _ false
  | .newExpression _ => 3
  | _ => 4

/-- No piece of a rule demands more than `bound`. -/
def Item.Within (bound : Nat) (items : List Item) : Prop := ∀ item ∈ items, item.demand ≤ bound

instance (bound : Nat) (items : List Item) : Decidable (Item.Within bound items) :=
  inferInstanceAs (Decidable (∀ item ∈ items, item.demand ≤ bound))

namespace Item.Within

variable {bound : Nat} {item : Item} {items others : List Item} {place : Place}

theorem cons (h : item.demand ≤ bound) (hitems : Within bound items) :
    Within bound (item :: items) :=
  List.forall_mem_cons.2 ⟨h, hitems⟩

theorem append (hitems : Within bound items) (hothers : Within bound others) :
    Within bound (items ++ others) :=
  List.forall_mem_append.2 ⟨hitems, hothers⟩

/-- A word has no height. -/
theorem word {w : Word} (hitems : Within bound items) : Within bound (.word w :: items) :=
  cons (Nat.zero_le bound) hitems

theorem nil : Within bound [] := List.forall_mem_nil _

theorem parts (h : place.slack < bound) (count : Nat) : Within bound (Item.parts place count) :=
  fun _ hitem => List.eq_of_mem_replicate hitem ▸ h

theorem followers (h : place.slack < bound) (count : Nat) :
    Within bound (Item.followers place count) := by
  induction count with
  | zero => exact nil
  | succ count ih => exact word (cons h ih)

theorem separated (h : place.slack < bound) (count : Nat) :
    Within bound (Item.separated place count) := by
  cases count with
  | zero => exact nil
  | succ count => exact cons h (followers h count)

/-- The elements of an array demand one level each. -/
theorem elements (h : Elements items) : Within 1 items := by
  induction h with
  | nil => exact nil
  | hole _ ih => exact cons (Nat.zero_le 1) ih
  | last => decide
  | value _ ih => exact cons (Nat.le_refl 1) (word ih)

/-- A clause that may be missing demands what its places do. -/
theorem clause {mark : Punctuator} {places : List Place} (h : Clause mark places items)
    (hplaces : ∀ place ∈ places, place.slack < bound) : Within bound items := by
  cases h with
  | hole => exact cons (Nat.zero_le bound) nil
  | part hplace => exact cons (hplaces _ hplace) (word nil)

end Item.Within

/-- The demand of a form covers its parts. -/
theorem Phrase.within {place : Place} {form : Form} {items : List Item}
    (h : Phrase place form items) (hlink : form.isLink = false) :
    Item.Within form.demand items := by
  cases h with
  | program count => exact .parts (by decide) count
  | compoundStatement count => exact .word (.append (.parts (by decide) count) (.word .nil))
  | variableStatement _ _ count =>
    exact .word (.append (.separated (Nat.lt_succ_self 1) _) (.cons (Nat.zero_le _) .nil))
  | forStatement _ hinit htest hupdate =>
    refine .word (.word (.append (.clause hinit (by decide)) ?_))
    refine .append (.clause htest (by decide)) (.append (.clause hupdate (by decide)) ?_)
    exact of_decide_eq_true rfl
  | forInStatement _ hleft =>
    -- the left side is a declaration or a target, and both leave room
    have hslack : ∀ left ∈ [Place.declarations, .expression .loopTarget], left.slack < 4 := by
      decide
    exact .word (.word (.cons (hslack _ hleft) (of_decide_eq_true rfl)))
  | continueStatement _ label | breakStatement _ label =>
    cases label <;> exact of_decide_eq_true rfl
  | switchStatement _ count =>
    refine .word (.append (of_decide_eq_true rfl) (.word ?_))
    exact .append (.parts (by decide) count) (.word .nil)
  | tryStatement _ hasHandler hasFinalizer _ =>
    cases hasHandler <;> cases hasFinalizer <;> exact of_decide_eq_true rfl
  | switchCase count => exact .word (.cons (by decide) (.word (.parts (by decide) count)))
  | switchDefault count => exact .word (.word (.parts (by decide) count))
  | declarations _ count => exact .word (.separated (Nat.lt_succ_self 1) _)
  | parameters count | arguments count =>
    exact .word (.append (.separated (by decide) count) (.word .nil))
  | construction h | new _ h => cases h <;> exact of_decide_eq_true rfl
  | sequence _ count => exact .cons (Nat.le_refl 1) (.followers (Nat.lt_succ_self 0) _)
  | function _ name => cases name <;> exact of_decide_eq_true rfl
  | array _ helements => exact .word (.append (.elements helements) (.word .nil))
  | object _ count hending =>
    refine .word (.append (.separated (by decide) count) ?_)
    cases hending <;> exact of_decide_eq_true rfl
  | binary | call | member | computedMember => cases hlink
  | _ => exact of_decide_eq_true rfl

/-- Where looser expressions can stand, there is more slack. -/
theorem rankSlack_anti {rank rank' : Nat} (h : rank ≤ rank') :
    rankSlack rank' ≤ rankSlack rank := by
  unfold rankSlack
  split_ifs <;> omega

theorem rankSlack_le (rank : Nat) : rankSlack rank ≤ 4 := rankSlack_anti (Nat.zero_le rank)

/-- An expression is given what it demands by its rank. -/
theorem Slot.le_slack {s : Slot} {demand : Nat} (htarget : s.target = false)
    (hdemand : demand ≤ rankSlack s.rank) : demand ≤ s.slack + 4 * s.nests.toNat := by
  rw [slack, htarget]
  cases s.nests with
  | true => exact Nat.le_add_left_of_le (Nat.le_trans hdemand (rankSlack_le s.rank))
  | false => exact hdemand

/-- What opens a level is charged for it. -/
theorem Slot.nests_le_charge (s : Slot) {form : Form} (h : form ≠ .sequenceExpression) :
    s.nests.toNat ≤ s.charge form := by
  rw [charge, if_neg fun hsequence => h hsequence.2]
  exact Nat.le_add_right _ _

namespace Slot

variable {s : Slot} {form : Form}

/-- Only what can be stored into stands where something is stored into. -/
theorem target_eq_false (hadmits : s.admits form = true) (h : form.isAssignable = false) :
    s.target = false := by
  have hserves := (Slot.admits_iff.1 hadmits).2.2.2
  simpa [serves, h] using hserves

/-- What a form demands fits into its slot and what is charged for it. -/
theorem demand_le (hadmits : s.admits form = true) (hassignable : form.isAssignable = false)
    (hsequence : form ≠ .sequenceExpression) (hdemand : form.demand ≤ rankSlack form.rank) :
    form.demand ≤ s.slack + 4 * s.charge form := by
  have hrank := (Slot.admits_iff.1 hadmits).1
  have hslack := s.le_slack (target_eq_false hadmits hassignable)
    (Nat.le_trans hdemand (rankSlack_anti hrank))
  have hcharge := s.nests_le_charge hsequence
  omega

/-- A sequence takes no level for itself. -/
theorem demand_sequence_le (hadmits : s.admits .sequenceExpression = true) :
    Form.sequenceExpression.demand ≤ s.slack + 4 * s.charge .sequenceExpression := by
  have hrank : s.rank = 0 := Nat.le_zero.1 (Slot.admits_iff.1 hadmits).1
  rw [charge, if_pos ⟨hrank, rfl⟩, slack, hrank, target_eq_false hadmits rfl]
  cases s.nests <;> decide

/-- A construction with arguments takes a level where its rank does not give enough slack. -/
theorem demand_new_le (hadmits : s.admits (.newExpression true) = true) :
    (Form.newExpression true).demand ≤ s.slack + 4 * s.charge (.newExpression true) := by
  have hrank : s.rank ≤ 17 := (Slot.admits_iff.1 hadmits).1
  show 3 ≤ _
  by_cases htight : s.rank = 17
  · rw [charge, if_neg (by simp), if_pos ⟨htight, rfl⟩]
    omega
  · have hslack := s.le_slack (target_eq_false hadmits rfl)
      (rankSlack_anti (by omega : s.rank ≤ 16))
    have hcharge : s.nests.toNat ≤ s.charge (.newExpression true) :=
      s.nests_le_charge (by simp)
    have hthree : rankSlack 16 = 3 := rfl
    omega

end Slot

/-- A node is given what it demands where it stands. -/
theorem Phrase.demand_le {place : Place} {form : Form} {items : List Item}
    (h : Phrase place form items) (hadmits : place.admits form = true)
    (hlink : form.isLink = false) : form.demand ≤ place.slack + 4 * place.charge form := by
  cases h with
  | sequence => exact Slot.demand_sequence_le hadmits
  | @new _ hasArguments _ _ =>
    cases hasArguments with
    | true => exact Slot.demand_new_le hadmits
    | false => exact Slot.demand_le hadmits rfl (by simp) (Nat.le_of_ble_eq_true rfl)
  | identifier | literal | this => exact Nat.zero_le _
  | assignment | conditional | unary | update | updated | function | array | object =>
    exact Slot.demand_le hadmits rfl (by simp) (Nat.le_of_ble_eq_true rfl)
  | binary | call | member | computedMember => cases hlink
  | _ => exact Nat.le_of_ble_eq_true rfl

/-- What stands in parentheses fits wherever an expression does. -/
theorem Slot.top_slack_le (s : Slot) : Slot.top.slack ≤ s.slack + 4 * s.nests.toNat := by
  show 1 ≤ _
  have hrank : 2 ≤ rankSlack s.rank := by
    unfold rankSlack
    split_ifs <;> omega
  rw [slack]
  cases s.nests with
  | true => exact Nat.le_add_left_of_le (by decide)
  | false =>
    cases s.target with
    | true => exact Nat.le_of_ble_eq_true rfl
    | false => exact Nat.le_of_succ_le hrank

/-- What stands for a place needs no more than the place and what is charged. -/
theorem Place.Through.slack_le {place inner : Place} {cost : Nat}
    (h : place.Through inner cost) : inner.slack ≤ place.slack + 4 * cost := by
  cases h <;> exact Nat.zero_le _

theorem one_lt_maxHeight : 1 < maxHeight := by decide

/-- A node is as tall as its place allows if its parts are as tall as its form allows. -/
theorem Phrase.height_build_le {place : Place} {form : Form} {items : List Item} {span : Span}
    {children : List Node} {levels : Nat} (h : Phrase place form items)
    (hadmits : place.admits form = true)
    (hlink : form.isLink = true → (Node.build form span children).height ≤ maxHeight)
    (hchildren : form.isLink = false →
      ∀ child ∈ children, child.height < maxHeight + form.demand + 4 * levels) :
    (Node.build form span children).height ≤
      maxHeight + place.slack + 4 * (levels + place.charge form) := by
  cases hform : form.isLink with
  | true => exact Nat.le_trans (hlink hform) (by omega)
  | false =>
    have hdemand := h.demand_le hadmits hform
    have hpos := one_lt_maxHeight
    have hheight : (Node.build form span children).height ≤
        maxHeight + form.demand + 4 * levels :=
      Node.height_build_le (by omega) (hchildren hform)
    omega

mutual
/-- A node is taller than `maxHeight` by no more than its place and the levels allow. -/
theorem Reads.height_le {levels : Nat} {place : Place} {c c' : Cursor} {n : Node} :
    Reads Cursor.Implied levels place c n c' → n.height ≤ maxHeight + place.slack + 4 * levels
  | .plain hadmits hphrase hitems hlink =>
    hphrase.height_build_le hadmits hlink fun hform => hitems.height_lt (hphrase.within hform)
  | .enclosed (s := s) _ _ hinner _ => by
    have hheight : _ ≤ maxHeight + Slot.top.slack + _ := hinner.height_le
    have hslack := s.top_slack_le
    show _ ≤ maxHeight + s.slack + _
    omega
  | .through hthrough hinner => by
    have hheight := hinner.height_le
    have hslack := hthrough.slack_le
    omega

/-- The nodes of items within a bound are lower than the bound and the levels allow. -/
theorem ReadsItems.height_lt {levels bound : Nat} {items : List Item} {c c' : Cursor}
    {ns : List Node} : ReadsItems Cursor.Implied levels items c ns c' → Item.Within bound items →
      ∀ n ∈ ns, n.height < maxHeight + bound + 4 * levels
  | .nil, _ => List.forall_mem_nil _
  | .part hn hitems, h => by
    obtain ⟨hpart, hothers⟩ := List.forall_mem_cons.1 h
    refine List.forall_mem_cons.2 ⟨?_, hitems.height_lt hothers⟩
    have hheight := hn.height_le
    have hpart : _ + 1 ≤ bound := hpart
    omega
  | .hole _ hitems, h => by
    refine List.forall_mem_cons.2 ⟨?_, hitems.height_lt (List.forall_mem_cons.1 h).2⟩
    have hone := one_lt_maxHeight
    show 1 < _
    omega
  | .word _ _ hitems, h | .semicolon _ hitems, h | .implied _ _ hitems, h | .ended _ hitems, h
  | .unended _ hitems, h | .sameLine _ hitems, h =>
    hitems.height_lt (List.forall_mem_cons.1 h).2
end

/-! ## Trees of calls -/

/-- The tree of a program is measured, and bounded by what stands above the statements. -/
theorem Grammar.program_height {c c' : Cursor} {root : Node} (h : program c = .ok root c') :
    root.Everywhere Node.Measured ∧ root.height ≤ maxHeight + 3 + 4 * maxNesting := by
  obtain ⟨start, body, rfl, hitems⟩ := program_parts h
  have hbody := hitems.height_lt (.parts (Nat.lt_succ_self 2) body.length)
  have hpos := one_lt_maxHeight
  exact ⟨.intro ⟨rfl, nofun⟩ hitems.measured, Node.height_build_le (by omega) hbody⟩

/-- The height of an expression on its own. -/
theorem Grammar.topExpression_height {allowIn : Bool} {c c' : Cursor} {root : Node}
    (h : topExpression allowIn c = .ok root c') :
    root.Everywhere Node.Measured ∧ root.height ≤ maxHeight + 1 + 4 * maxNesting := by
  have hread := topExpression_reads h
  exact ⟨hread.measured, hread.height_le⟩

/-- The height of what a call gives. -/
theorem Call.height_le (call : Call) {c c' : Cursor} {root : Node}
    (h : call.parser c = .ok root c') :
    root.Everywhere Node.Measured ∧ root.height ≤ maxHeight + 3 + 4 * Grammar.maxNesting := by
  cases call with
  | program => exact Grammar.program_height h
  | expression allowIn =>
    obtain ⟨hmeasured, hheight⟩ := Grammar.topExpression_height h
    exact ⟨hmeasured, by omega⟩

/-- Trees have a bounded height. In the tree of a call every node keeps its height, binary
operators, calls and member accesses are at most `maxHeight` tall, and the whole is taller by at
most five for each nesting level. While the call runs, no more than `maxNesting` levels are open. -/
theorem height_bounded (call : Call) (c : Cursor) :
    (∀ root, (call.parser.run c).1 = .ok root →
      root.Everywhere (fun n => n.height = n.measure) ∧
      root.Everywhere (fun n => n.form.isLink = true → n.height ≤ maxHeight) ∧
      root.height ≤ maxHeight + 5 * Grammar.maxNesting) ∧
    ∃ peak ≤ Grammar.maxNesting,
      call.counting ⟨c, 0, 0⟩ = Gauge.outcome 0 peak (call.parser c) := by
  refine ⟨fun root hroot => ?_, call.counting_mirrors c 0 (Nat.zero_le _)⟩
  obtain ⟨c', hrun⟩ := run_eq_ok.1 hroot
  obtain ⟨hmeasured, hheight⟩ := call.height_le hrun
  refine ⟨hmeasured.heights_eq, hmeasured.imp fun _ hn => hn.link, Nat.le_trans hheight ?_⟩
  have hnesting : 3 ≤ Grammar.maxNesting := by decide
  omega

/-- A sum that is called. -/
theorem height_bounded_call :
    ∃ root, (Call.program.parser.run (.ofTokens (tokenize "(a + b)()"))).1 = .ok root ∧
      root.Everywhere (fun n => n.height = n.measure) ∧ root.height ≤ 1344 := by
  obtain ⟨root, hroot⟩ := exists_tree
    (show (parseTokens (tokenize "(a + b)()")).isOk = true by decide +kernel)
  obtain ⟨hmeasured, -, hheight⟩ := (height_bounded .program _).1 root hroot
  exact ⟨root, hroot, hmeasured, hheight⟩

end ScriptLint
