import Mathlib.Data.List.Forall2
import ScriptLint.Proofs.Grammar.Reading
import ScriptLint.Proofs.Print.Canonical

/-!
# The nesting levels of a canonical script

`Fits levels place n` says that a tree, printed at a place, is written by the rules of the grammar
within a number of nesting levels. Whatever was read fits (`Reads.fits`), although the printer moves
parentheses: it pushes them inwards, to the expression that needs them, and there they take a level.
That level is there, because the parentheses further out took one too. The argument is the same for
all forms. A slot that asks for more parentheses costs a tree at most one level (`tighten`), a slot
that asks for fewer costs none (`loosen`), and parentheses pay for the one level (`enclose`).
-/

namespace ScriptLint

/-- Whether a piece of a rule is a child of the node. -/
def Item.isNode : Item → Bool
  | .part _ | .hole _ => true
  | _ => false

section IsNode

variable (place : Place) (word : Word) (mark : Punctuator) (keyword : Keyword)

@[simp]
theorem Item.isNode_part : (Item.part place).isNode = true := rfl

@[simp]
theorem Item.isNode_word : (Item.word word).isNode = false := rfl

@[simp]
theorem Item.isNode_mark : (Item.mark mark).isNode = false := rfl

@[simp]
theorem Item.isNode_keyword : (Item.keyword keyword).isNode = false := rfl

@[simp]
theorem Item.isNode_terminator : Item.terminator.isNode = false := rfl

end IsNode

/-- A node is as the parser builds it. -/
structure Node.Built (n : Node) : Prop where
  eq_build : n = .build n.form n.span n.children
  height_le : n.form.isLink = true → n.height ≤ Parser.maxHeight

mutual
/-- `Fits levels place n` says that the node `n` can be printed at a place within `levels` nesting
levels. -/
inductive Fits : Nat → Place → Node → Prop where
  | plain {levels : Nat} {place : Place} {n : Node} :
      place.admits n.form = true → Phrase place n.form (n.rule place) →
      FitsItems levels (n.rule place) n.children → n.Built →
      Fits (levels + place.charge n.form) place n
  | enclosed {levels : Nat} {s : Slot} {n : Node} :
      s.admits n.form = false → s.serves n.form = true → Fits levels .top n →
      Fits (levels + s.nests.toNat) (.expression s) n
  | through {levels cost : Nat} {place inner : Place} {n : Node} :
      place.Through inner cost → Fits levels inner n → Fits (levels + cost) place n

/-- `FitsItems levels items ns` says that the nodes `ns` can be printed as the parts of a rule. -/
inductive FitsItems : Nat → List Item → List Node → Prop where
  | nil {levels : Nat} : FitsItems levels [] []
  | word {levels : Nat} {item : Item} {items : List Item} {ns : List Node} :
      item.isNode = false → FitsItems levels items ns → FitsItems levels (item :: items) ns
  | part {levels : Nat} {place : Place} {items : List Item} {n : Node} {ns : List Node} :
      Fits levels place n → FitsItems levels items ns →
      FitsItems levels (.part place :: items) (n :: ns)
  | hole {levels : Nat} {mark : Punctuator} {span : Span} {items : List Item} {ns : List Node} :
      FitsItems levels items ns →
      FitsItems levels (.hole mark :: items) (.build .emptyExpression span [] :: ns)
end

variable {levels levels' : Nat} {n : Node} {ns others : List Node} {items after : List Item}

mutual
/-- A tree does not need all the levels there are. -/
theorem Fits.mono {levels levels' : Nat} {place : Place} {n : Node} :
    Fits levels place n → levels ≤ levels' → Fits levels' place n
  | .plain hadmits hphrase hitems hbuilt, hle => by
    obtain ⟨more, rfl⟩ := Nat.exists_eq_add_of_le hle
    rw [Nat.add_right_comm]
    exact .plain hadmits hphrase (hitems.mono (Nat.le_add_right _ more)) hbuilt
  | .enclosed hadmits hserves hinner, hle => by
    obtain ⟨more, rfl⟩ := Nat.exists_eq_add_of_le hle
    rw [Nat.add_right_comm]
    exact .enclosed hadmits hserves (hinner.mono (Nat.le_add_right _ more))
  | .through hthrough hinner, hle => by
    obtain ⟨more, rfl⟩ := Nat.exists_eq_add_of_le hle
    rw [Nat.add_right_comm]
    exact .through hthrough (hinner.mono (Nat.le_add_right _ more))

/-- With more levels no fewer nodes fit. -/
theorem FitsItems.mono {levels levels' : Nat} {items : List Item} {ns : List Node} :
    FitsItems levels items ns → levels ≤ levels' → FitsItems levels' items ns
  | .nil, _ => .nil
  | .word hitem hitems, hle => .word hitem (hitems.mono hle)
  | .part hn hitems, hle => .part (hn.mono hle) (hitems.mono hle)
  | .hole hitems, hle => .hole (hitems.mono hle)
end

namespace FitsItems

theorem nil_iff : FitsItems levels [] ns ↔ ns = [] := by
  constructor
  · rintro ⟨⟩
    rfl
  · rintro rfl
    exact .nil

/-- A token needs no node. -/
theorem word_iff {item : Item} (hitem : item.isNode = false) :
    FitsItems levels (item :: items) ns ↔ FitsItems levels items ns := by
  constructor
  · intro h
    cases h with
    | word _ hrest => exact hrest
    | part => cases hitem
    | hole => cases hitem
  · exact .word hitem

/-- A part needs one node, which fits its place. -/
theorem part_iff {place : Place} :
    FitsItems levels (.part place :: items) ns ↔
      ∃ n others, ns = n :: others ∧ Fits levels place n ∧ FitsItems levels items others := by
  constructor
  · intro h
    cases h with
    | word hitem => cases hitem
    | part hn hrest => exact ⟨_, _, rfl, hn, hrest⟩
  · rintro ⟨n, others, rfl, hn, hrest⟩
    exact .part hn hrest

/-- A hole needs an empty expression. -/
theorem hole_iff {mark : Punctuator} :
    FitsItems levels (.hole mark :: items) ns ↔
      ∃ span others, ns = .build .emptyExpression span [] :: others ∧
        FitsItems levels items others := by
  constructor
  · intro h
    cases h with
    | word hitem => cases hitem
    | hole hrest => exact ⟨_, _, rfl, hrest⟩
  · rintro ⟨span, others, rfl, hrest⟩
    exact .hole hrest

/-- Pieces behind other pieces. -/
theorem append (h : FitsItems levels items ns) (hafter : FitsItems levels after others) :
    FitsItems levels (items ++ after) (ns ++ others) := by
  induction items generalizing ns with
  | nil =>
    cases h
    exact hafter
  | cons item items ih =>
    cases h with
    | word hitem hrest => exact .word hitem (ih hrest)
    | part hn hrest => exact .part hn (ih hrest)
    | hole hrest => exact .hole (ih hrest)

/-- Nodes that fit items fall apart as the items do. -/
theorem of_append (h : FitsItems levels (items ++ after) ns) :
    ∃ first others, ns = first ++ others ∧ FitsItems levels items first ∧
      FitsItems levels after others := by
  induction items generalizing ns with
  | nil => exact ⟨[], ns, rfl, .nil, h⟩
  | cons item items ih =>
    cases h with
    | word hitem hrest =>
      obtain ⟨first, others, rfl, hfirst, hothers⟩ := ih hrest
      exact ⟨first, others, rfl, .word hitem hfirst, hothers⟩
    | part hn hrest =>
      obtain ⟨first, others, rfl, hfirst, hothers⟩ := ih hrest
      exact ⟨_ :: first, others, rfl, .part hn hfirst, hothers⟩
    | hole hrest =>
      obtain ⟨first, others, rfl, hfirst, hothers⟩ := ih hrest
      exact ⟨_ :: first, others, rfl, .hole hfirst, hothers⟩

/-- A rule has as many nodes as the node has children. -/
theorem countP_eq (h : FitsItems levels items ns) : items.countP Item.isNode = ns.length := by
  induction items generalizing ns with
  | nil =>
    cases h
    rfl
  | cons item items ih =>
    cases h with
    | word hitem hrest =>
      rw [List.countP_cons_of_neg (by simp [hitem])]
      exact ih hrest
    | part hn hrest =>
      rw [List.countP_cons_of_pos rfl, List.length_cons, ih hrest]
    | hole hrest =>
      rw [List.countP_cons_of_pos rfl, List.length_cons, ih hrest]

end FitsItems

/-! ## Tighter slots -/

/-- There are eighteen ranks. -/
theorem Form.rank_le (form : Form) : form.rank ≤ 17 := by
  cases form with
  | binaryExpression operator => cases operator <;> decide
  | updateExpression _ before => cases before <;> exact Nat.le_of_ble_eq_true rfl
  | newExpression hasArguments => cases hasArguments <;> decide
  | _ => exact Nat.le_of_ble_eq_true rfl

namespace Slot

variable {s s' : Slot} {form : Form}

/-- `s.Narrows s'` says that the parts of an expression in `s'` need parentheses where the parts of
the same expression in `s` do. -/
structure Narrows (s s' : Slot) : Prop where
  rank : s.rank ≤ s'.rank
  bound : s'.rank ≤ 17
  allowIn : s'.allowIn = true → s.allowIn = true
  opening : s.opening = true → s'.opening = true

/-- `s.Tightens s'` says that `s` and `s'` are the slots of the same part under two slots, of which
the second asks for more parentheses. Only the first part of a chain can get another rank, where the
chain is one under `new`. -/
structure Tightens (s s' : Slot) : Prop where
  rank : s'.rank = s.rank ∨ s.rank = 16 ∧ s'.rank = 17
  allowIn : s'.allowIn = true → s.allowIn = true
  opening : s.opening = true → s'.opening = true
  target : s'.target = s.target
  nests : s'.nests = s.nests
  isInner : (Place.expression s).isInner = true

/-- Between brackets nothing needs parentheses. -/
theorem top_admits (form : Form) : Slot.top.admits form = true :=
  admits_iff.2 ⟨Nat.zero_le _, .inl rfl, nofun, rfl⟩

theorem rank_le_of_admits (h : s.admits form = true) : s.rank ≤ 17 :=
  Nat.le_trans (admits_iff.1 h).1 form.rank_le

/-- Every slot is at least as narrow as the one between brackets. -/
theorem top_narrows (h : s.rank ≤ 17) : Slot.top.Narrows s :=
  ⟨Nat.zero_le _, h, fun _ => rfl, nofun⟩

theorem plain_isInner {rank : Nat} {allowIn opening : Bool} (h : 0 < rank) :
    (Place.expression (plain rank allowIn opening)).isInner = true := by
  simp only [Place.isInner, plain, Bool.or_false, bne_iff_ne]
  omega

namespace Tightens

/-- A slot that only tightens narrows, up to the last rank. -/
theorem narrows (h : s.Tightens s') (hbound : s'.rank ≤ 17) : s.Narrows s' := by
  refine ⟨?_, hbound, h.allowIn, h.opening⟩
  have hrank := h.rank
  omega

theorem serves_eq (h : s.Tightens s') : s'.serves form = s.serves form := by
  rw [Slot.serves, Slot.serves, h.target]

/-- What a slot admits is admitted by a looser one. -/
theorem admits (h : s.Tightens s') (hadmits : s'.admits form = true) : s.admits form = true := by
  obtain ⟨hrank, hin, hopening, hserves⟩ := admits_iff.1 hadmits
  have hrank' := h.rank
  refine admits_iff.2 ⟨by omega, hin.imp_left h.allowIn, fun h' => hopening (h.opening h'), ?_⟩
  rw [← h.serves_eq]
  exact hserves

end Tightens

namespace Narrows

variable (h : s.Narrows s')
include h

theorem item : (Slot.item s.allowIn false).Tightens (.item s'.allowIn false) :=
  ⟨.inl rfl, h.allowIn, id, rfl, rfl, rfl⟩

theorem opening_item :
    (Slot.item s.allowIn s.opening).Tightens (.item s'.allowIn s'.opening) :=
  ⟨.inl rfl, h.allowIn, h.opening, rfl, rfl, rfl⟩

theorem stored : s.stored.Tightens s'.stored :=
  ⟨.inl rfl, h.allowIn, h.opening, rfl, rfl, rfl⟩

theorem first {rank : Nat} (hrank : 0 < rank) : (s.first rank).Tightens (s'.first rank) :=
  ⟨.inl rfl, h.allowIn, h.opening, rfl, rfl, plain_isInner hrank⟩

theorem later {rank : Nat} (hrank : 0 < rank) : (s.later rank).Tightens (s'.later rank) :=
  ⟨.inl rfl, h.allowIn, id, rfl, rfl, plain_isInner hrank⟩

theorem object : s.object.Tightens s'.object := by
  refine ⟨?_, h.allowIn, h.opening, rfl, rfl, plain_isInner (by omega)⟩
  have hrank := h.rank
  have hbound := h.bound
  show max 16 s'.rank = max 16 s.rank ∨ max 16 s.rank = 16 ∧ max 16 s'.rank = 17
  omega

end Narrows

end Slot

/-- Two pieces are the same, or they are parts in related slots. -/
inductive Item.Related (R : Slot → Slot → Prop) : Item → Item → Prop where
  | same (item : Item) : Related R item item
  | slot {s s' : Slot} : R s s' → Related R (.part (.expression s)) (.part (.expression s'))

theorem Item.related_refl {R : Slot → Slot → Prop} (items : List Item) :
    List.Forall₂ (Item.Related R) items items :=
  List.forall₂_same.2 fun item _ => .same item

/-- Followers in related slots are related. -/
theorem Item.related_followers {R : Slot → Slot → Prop} {s s' : Slot} (h : R s s') (count : Nat) :
    List.Forall₂ (Item.Related R) (Item.followers (.expression s) count)
      (Item.followers (.expression s') count) := by
  induction count with
  | zero => exact .nil
  | succ count ih => exact .cons (.same _) (.cons (.slot h) ih)

theorem Item.related_flip {R : Slot → Slot → Prop}
    (h : List.Forall₂ (Item.Related R) items after) :
    List.Forall₂ (Item.Related (flip R)) after items := by
  induction h with
  | nil => exact .nil
  | cons hitem _ ih =>
    cases hitem with
    | same => exact .cons (.same _) ih
    | slot h => exact .cons (.slot h) ih

/-- In a narrower slot an expression is printed alike, but with narrower slots for its parts. -/
theorem Phrase.canonical_narrows {s s' : Slot} {form : Form}
    (h : Phrase (.expression s) form items) (hnarrows : s.Narrows s') (parts : List Form) :
    List.Forall₂ (Item.Related Slot.Tightens) (Place.canonical (.expression s) parts form)
      (Place.canonical (.expression s') parts form) := by
  cases h with
  | sequence => exact .cons (.slot hnarrows.opening_item) (Item.related_followers hnarrows.item _)
  | assignment =>
    exact .cons (.slot hnarrows.stored) (.cons (.same _) (.cons (.slot hnarrows.item) .nil))
  | conditional =>
    refine .cons (.slot (hnarrows.first (by decide))) ?_
    exact .cons (.same _) (.cons (.same _) (.cons (.same _) (.cons (.slot hnarrows.item) .nil)))
  | binary =>
    refine .cons (.slot (hnarrows.first (by omega))) ?_
    exact .cons (.same _) (.cons (.slot (hnarrows.later (by omega))) .nil)
  | updated => exact .cons (.slot hnarrows.stored) (Item.related_refl _)
  | call => exact .cons (.slot (hnarrows.first (by decide))) (Item.related_refl _)
  | member | computedMember => exact .cons (.slot hnarrows.object) (Item.related_refl _)
  | @new _ hasArguments => cases hasArguments <;> exact Item.related_refl _
  | _ => exact Item.related_refl _

/-! ## Canonical phrases -/

@[simp]
theorem Item.countP_guard : Item.guard.countP Item.isNode = 1 := rfl

/-- Parts in a row need a node each. -/
@[simp]
theorem Item.countP_parts (place : Place) (count : Nat) :
    (Item.parts place count).countP Item.isNode = count := by
  simp [Item.parts, List.countP_replicate, Item.isNode]

/-- Followers of a list need a node each. -/
@[simp]
theorem Item.countP_followers (place : Place) (count : Nat) :
    (Item.followers place count).countP Item.isNode = count := by
  induction count with
  | zero => rfl
  | succ count ih =>
    rw [Item.followers, List.countP_cons_of_neg (by decide), List.countP_cons_of_pos rfl, ih]

/-- The members of a list need a node each, and its commas none. -/
@[simp]
theorem Item.countP_separated (place : Place) (count : Nat) :
    (Item.separated place count).countP Item.isNode = count := by
  cases count with
  | zero => rfl
  | succ count => rw [Item.separated, List.countP_cons_of_pos rfl, Item.countP_followers]

/-- If an expression of a form with some parts can be written at all, then as it is printed. -/
theorem Phrase.canonical_expression {s : Slot} {form : Form}
    (h : Phrase (.expression s) form items) {parts : List Form}
    (hparts : items.countP Item.isNode = parts.length) (s' : Slot) :
    Phrase (.expression s') form (Place.canonical (.expression s') parts form) := by
  cases h with
  | sequence _ count =>
    have hcount : parts.length - 1 = count + 1 := by
      rw [← hparts, List.countP_cons_of_pos rfl, Item.countP_followers]
      rfl
    show Phrase _ _ (_ :: Item.followers _ (parts.length - 1))
    rw [hcount]
    exact .sequence s' count
  | assignment _ operator => exact .assignment s' operator
  | conditional => exact .conditional s'
  | binary _ operator => exact .binary s' operator
  | unary _ operator => exact .unary s' operator
  | update _ operator => exact .update s' operator
  | updated _ operator => exact .updated s' operator
  | @new _ hasArguments _ _ =>
    cases hasArguments with
    | true => exact .new s' .arguments
    | false => exact .new s' .bare
  | call => exact .call s'
  | member => exact .member s'
  | computedMember => exact .computedMember s'
  | function _ name => exact .function s' name
  | array => exact .array s' (.canonical parts)
  | object => exact .object s' parts.length .nothing
  | this => exact .this s'
  | identifier _ name => exact .identifier s' name
  | literal _ value => exact .literal s' value

/-! ## Changing the slot of a tree -/

/-- An expression can be printed in a slot with no parentheses around it. -/
structure FitsBare (levels : Nat) (s : Slot) (n : Node) : Prop where
  phrase : Phrase (.expression s) n.form (n.rule (.expression s))
  items : FitsItems levels (n.rule (.expression s)) n.children
  built : n.Built

section Slots

variable {s s' : Slot}

/-- An expression is printed without parentheses or with them, as its slot asks. -/
theorem Fits.expression_iff :
    Fits levels (.expression s) n ↔
      (s.admits n.form = true ∧ ∃ inner, levels = inner + s.charge n.form ∧ FitsBare inner s n) ∨
      (s.admits n.form = false ∧ s.serves n.form = true ∧
        ∃ inner, levels = inner + s.nests.toNat ∧ Fits inner .top n) := by
  constructor
  · intro h
    cases h with
    | plain hadmits hphrase hitems hbuilt =>
      exact .inl ⟨hadmits, _, rfl, hphrase, hitems, hbuilt⟩
    | enclosed hadmits hserves hinner => exact .inr ⟨hadmits, hserves, _, rfl, hinner⟩
    | through hthrough => cases hthrough
  · rintro (⟨hadmits, inner, rfl, hbare⟩ | ⟨hadmits, hserves, inner, rfl, hinner⟩)
    · show Fits (inner + (Place.expression s).charge n.form) _ _
      exact .plain hadmits hbare.phrase hbare.items hbare.built
    · exact .enclosed hadmits hserves hinner

/-- Between brackets an expression is printed without parentheses. -/
theorem Fits.top_iff :
    Fits levels .top n ↔
      ∃ inner, levels = inner + Slot.top.charge n.form ∧ FitsBare inner .top n := by
  refine Fits.expression_iff.trans ?_
  simp [Slot.top_admits]

/-- An expression that its slot admits, within any levels that are enough for it. -/
theorem Fits.of_bare {inner : Nat} (hbare : FitsBare inner s n) (hadmits : s.admits n.form = true)
    (hle : inner + s.charge n.form ≤ levels) : Fits levels (.expression s) n :=
  Fits.mono (Fits.expression_iff.2 (.inl ⟨hadmits, inner, rfl, hbare⟩)) hle

/-- An expression in parentheses, within any levels that are enough for it. -/
theorem Fits.of_top {inner : Nat} (htop : Fits inner .top n) (hadmits : s.admits n.form = false)
    (hserves : s.serves n.form = true) (hle : inner + s.nests.toNat ≤ levels) :
    Fits levels (.expression s) n :=
  Fits.mono (.enclosed hadmits hserves htop) hle

/-- What parentheses cost: the slot between brackets takes the place of the slot around them. -/
theorem Slot.top_charge {form : Form} (hadmits : s.admits form = true)
    (hinner : (Place.expression s).isInner = true) :
    Slot.top.charge form + s.nests.toNat = s.charge form + 1 ∨
      form = .newExpression true ∧ Slot.top.charge form + s.nests.toNat = s.charge form := by
  by_cases hsequence : form = .sequenceExpression
  · subst hsequence
    have hrank : s.rank = 0 := Nat.le_zero.1 (Slot.admits_iff.1 hadmits).1
    have hnests : s.nests = true := by simpa [Place.isInner, hrank] using hinner
    simp [Slot.charge, Slot.top, Slot.whole, hrank, hnests]
  · by_cases hnew : s.rank = 17 ∧ form = .newExpression true
    -- under `new` a construction takes a level with or without parentheses
    · refine .inr ⟨hnew.2, ?_⟩
      simp [Slot.charge, Slot.top, Slot.whole, hnew, Nat.add_comm]
    · refine .inl ?_
      simp [Slot.charge, Slot.top, Slot.whole, hnew, hsequence, Nat.add_comm]

/-- A looser slot charges no more, and a tighter one only for a construction with arguments. -/
theorem Slot.Tightens.charge_le (h : s.Tightens s') (form : Form) :
    s.charge form ≤ s'.charge form ∧
      (s'.charge form ≤ s.charge form ∨
        form = .newExpression true ∧ s'.charge form ≤ s.charge form + 1) := by
  obtain hrank | ⟨hrank, hrank'⟩ := h.rank
  · have hcharge : s'.charge form = s.charge form := by
      rw [Slot.charge, Slot.charge, hrank, h.nests]
    omega
  · by_cases hnew : form = .newExpression true
    · simp [Slot.charge, hrank, hrank', hnew, h.nests]
    · simp [Slot.charge, hrank, hrank', hnew, h.nests]

/-- `n.Flexible` says what it costs the tree `n` to change its slot. -/
structure Node.Flexible (n : Node) : Prop where
  /-- What stands between parentheses can stand without them, if the slot does not ask for them. -/
  enclose {levels : Nat} {s : Slot} : (Place.expression s).isInner = true →
    s.serves n.form = true → Fits levels .top n → Fits (levels + s.nests.toNat) (.expression s) n
  /-- A tighter slot takes one more level. -/
  tighten {levels : Nat} {s s' : Slot} : s.Tightens s' →
    Fits levels (.expression s) n → Fits (levels + 1) (.expression s') n
  /-- A looser slot takes no more levels. -/
  loosen {levels : Nat} {s s' : Slot} : s.Tightens s' →
    Fits levels (.expression s') n → Fits levels (.expression s) n

/-- Nodes that can change their slots are parts of a rule with other slots. -/
theorem FitsItems.related {R : Slot → Slot → Prop} (h : FitsItems levels items ns)
    (hle : levels ≤ levels') (hitems : List.Forall₂ (Item.Related R) items after)
    (hns : ∀ n ∈ ns, ∀ {s s'}, R s s' → Fits levels (.expression s) n →
      Fits levels' (.expression s') n) : FitsItems levels' after ns := by
  induction hitems generalizing ns with
  | nil =>
    cases h
    exact .nil
  | cons hitem _ ih =>
    cases h with
    | word hword hrest =>
      cases hitem with
      | same => exact .word hword (ih hrest hns)
      | slot => cases hword
    | part hn hrest =>
      have hrest := ih hrest fun m hm => hns m (List.mem_cons_of_mem _ hm)
      cases hitem with
      | same => exact .part (hn.mono hle) hrest
      | slot hslot => exact .part (hns _ List.mem_cons_self hslot hn) hrest
    | hole hrest =>
      cases hitem with
      | same => exact .hole (ih hrest fun m hm => hns m (List.mem_cons_of_mem _ hm))

namespace FitsBare

/-- An expression that can be printed in one slot without parentheses is written by the rules in
every other slot. -/
theorem phrase_of (h : FitsBare levels s n) (s' : Slot) :
    Phrase (.expression s') n.form (n.rule (.expression s')) :=
  h.phrase.canonical_expression (h.items.countP_eq.trans (List.length_map _).symm) s'

/-- The parts of an expression in a narrower slot take one more level. -/
theorem tighten (h : FitsBare levels s n) (hnarrows : s.Narrows s')
    (hchildren : ∀ child ∈ n.children, child.Flexible) : FitsBare (levels + 1) s' n where
  phrase := h.phrase_of s'
  items := h.items.related (Nat.le_succ _) (h.phrase.canonical_narrows hnarrows _)
    fun child hmem _ _ => (hchildren child hmem).tighten
  built := h.built

/-- The parts of an expression in a wider slot take no more levels. -/
theorem loosen (h : FitsBare levels s' n) (hnarrows : s.Narrows s')
    (hchildren : ∀ child ∈ n.children, child.Flexible) : FitsBare levels s n where
  phrase := h.phrase_of s
  items := h.items.related (Nat.le_refl _)
    (Item.related_flip ((h.phrase_of s).canonical_narrows hnarrows _))
    fun child hmem _ _ => (hchildren child hmem).loosen
  built := h.built

/-- What `new` constructs with arguments is printed alike in all slots. -/
theorem of_new (h : FitsBare levels s n) (hnew : n.form = .newExpression true) (s' : Slot) :
    FitsBare levels s' n where
  phrase := h.phrase_of s'
  items := by
    have hrule : n.rule (.expression s') = n.rule (.expression s) := by
      rw [Node.rule, Node.rule, hnew]
      rfl
    rw [hrule]
    exact h.items
  built := h.built

end FitsBare

section Children

variable (hchildren : ∀ child ∈ n.children, child.Flexible)
include hchildren

/-- Parentheses can be dropped where the slot does not ask for them. The level that they took is
there for the parts, which may need parentheses now. -/
theorem Fits.enclose (hinner : (Place.expression s).isInner = true)
    (hserves : s.serves n.form = true) (h : Fits levels .top n) :
    Fits (levels + s.nests.toNat) (.expression s) n := by
  cases hadmits : s.admits n.form with
  | false => exact .enclosed hadmits hserves h
  | true =>
    obtain ⟨inner, rfl, hbare⟩ := Fits.top_iff.1 h
    obtain hcharge | ⟨hnew, hcharge⟩ := Slot.top_charge hadmits hinner
    · have hnarrows := Slot.top_narrows (Slot.rank_le_of_admits hadmits)
      exact .of_bare (hbare.tighten hnarrows hchildren) hadmits (by omega)
    -- no level becomes free here, but the parts of a construction ask for none
    · exact .of_bare (hbare.of_new hnew s) hadmits (by omega)

/-- In a looser slot an expression loses its parentheses, or its parts do, or nothing happens. -/
theorem Fits.loosen (htightens : s.Tightens s') (h : Fits levels (.expression s') n) :
    Fits levels (.expression s) n := by
  obtain ⟨hadmits, inner, rfl, hbare⟩ | ⟨_, hserves, inner, rfl, htop⟩ := Fits.expression_iff.1 h
  · have hnarrows := htightens.narrows (Slot.rank_le_of_admits hadmits)
    have hcharge := (htightens.charge_le n.form).1
    exact .of_bare (hbare.loosen hnarrows hchildren) (htightens.admits hadmits) (by omega)
  · rw [htightens.nests]
    rw [htightens.serves_eq] at hserves
    exact Fits.enclose hchildren htightens.isInner hserves htop

/-- In a tighter slot an expression gets parentheses, or its parts do, or nothing happens. -/
theorem Fits.tighten (htightens : s.Tightens s') (h : Fits levels (.expression s) n) :
    Fits (levels + 1) (.expression s') n := by
  obtain ⟨hadmits, inner, rfl, hbare⟩ | ⟨hadmits, hserves, inner, rfl, htop⟩ :=
    Fits.expression_iff.1 h
  · cases hadmits' : s'.admits n.form with
    | true =>
      have hnarrows := htightens.narrows (Slot.rank_le_of_admits hadmits')
      obtain hcharge | ⟨hnew, hcharge⟩ := (htightens.charge_le n.form).2
      · exact .of_bare (hbare.tighten hnarrows hchildren) hadmits' (by omega)
      · exact .of_bare (hbare.of_new hnew s') hadmits' (by omega)
    | false =>
      -- the new parentheses take a level, and between them the parts need no others
      have hnarrows := Slot.top_narrows (Slot.rank_le_of_admits hadmits)
      have htop := Fits.top_iff.2 ⟨inner, rfl, hbare.loosen hnarrows hchildren⟩
      have hserves : s'.serves n.form = true := by
        rw [htightens.serves_eq]
        exact (Slot.admits_iff.1 hadmits).2.2.2
      refine .of_top htop hadmits' hserves ?_
      rw [htightens.nests]
      obtain hcharge | ⟨_, hcharge⟩ := Slot.top_charge hadmits htightens.isInner <;> omega
  · have hadmits' : s'.admits n.form = false := by
      rw [Bool.eq_false_iff] at hadmits ⊢
      exact fun h' => hadmits (htightens.admits h')
    rw [← htightens.serves_eq] at hserves
    refine .of_top htop hadmits' hserves ?_
    rw [htightens.nests]
    exact Nat.le_succ _

end Children

end Slots

mutual
/-- Every tree can change its slot at these costs. -/
theorem Node.flexible : (n : Node) → n.Flexible
  | ⟨_, _, _, children⟩ =>
    have hchildren := flexible_of_mem children
    ⟨Fits.enclose hchildren, Fits.tighten hchildren, Fits.loosen hchildren⟩

/-- All nodes of a list may change their slots. -/
theorem Node.flexible_of_mem : (ns : List Node) → ∀ n ∈ ns, n.Flexible
  | [], _, hmem => nomatch hmem
  | n :: ns, m, hmem => by
    have hn := n.flexible
    have hns := flexible_of_mem ns
    obtain rfl | hmem := List.mem_cons.1 hmem
    · exact hn
    · exact hns m hmem
end

/-! ## What was read -/

section Canonical

variable {place : Place} {s : Slot} {form : Form}

/-- An expression is neither left out nor a list of definitions. -/
theorem Phrase.form_ne (h : Phrase (.expression s) form items) :
    form ≠ .emptyExpression ∧ ∀ declaration, form ≠ .variableDefinitionList declaration := by
  cases h <;> exact ⟨nofun, nofun⟩

/-- Definitions stand behind a keyword. -/
theorem Phrase.exists_declaration (h : Phrase .declarations form items) :
    ∃ declaration, form = .variableDefinitionList declaration := by
  cases h with
  | declarations declaration => exact ⟨declaration, rfl⟩

/-- Right behind `new` another construction has no arguments. -/
theorem Phrase.form_of_construction (h : Phrase .construction form items) :
    form = .newExpression false := by
  cases h with
  | construction => rfl

theorem Phrase.form_of_block (h : Phrase .block form items) : form = .compoundStatement := by
  cases h with
  | compoundStatement => rfl

/-- What stands in a slot is an expression. -/
theorem Fits.exists_phrase (h : Fits levels (.expression s) n) :
    ∃ s' items, Phrase (.expression s') n.form items := by
  obtain ⟨_, _, _, hbare⟩ | ⟨_, _, _, _, htop⟩ := Fits.expression_iff.1 h
  · exact ⟨_, _, hbare.phrase⟩
  · obtain ⟨_, _, hbare⟩ := Fits.top_iff.1 htop
    exact ⟨_, _, hbare.phrase⟩

/-- What stands in a slot is not left out and declares nothing. -/
theorem Fits.form_ne (h : Fits levels (.expression s) n) :
    n.form ≠ .emptyExpression ∧ ∀ declaration, n.form ≠ .variableDefinitionList declaration := by
  obtain ⟨s', items, hphrase⟩ := h.exists_phrase
  exact hphrase.form_ne

/-- What stands in the head of a loop as a declaration declares something. -/
theorem Fits.exists_declaration (h : Fits levels .declarations n) :
    ∃ declaration, n.form = .variableDefinitionList declaration := by
  cases h with
  | plain _ hphrase => exact hphrase.exists_declaration
  | through hthrough => cases hthrough

/-- What stands at the start of the head of a loop is not left out, and tells where it stands. -/
theorem Fits.loopHead_eq (h : Fits levels place n)
    (hplace : place ∈ [.declarations, .expression s]) :
    n.form ≠ .emptyExpression ∧ Place.loopHead s n.form = place := by
  obtain rfl | hplace := List.mem_cons.1 hplace
  · obtain ⟨declaration, hform⟩ := h.exists_declaration
    rw [hform]
    exact ⟨nofun, rfl⟩
  · obtain rfl := List.mem_singleton.1 hplace
    obtain ⟨hempty, hdeclaration⟩ := h.form_ne
    refine ⟨hempty, ?_⟩
    unfold Place.loopHead
    split
    next declaration hform => exact absurd hform (hdeclaration declaration)
    next => rfl

/-- A construction right behind `new` can stand there in parentheses. -/
theorem Fits.of_construction (h : Fits levels .construction n) :
    Fits levels (.expression .constructed) n := by
  cases h with
  | @plain inner _ _ _ hphrase hitems hbuilt =>
    have hform := hphrase.form_of_construction
    have hrule : n.rule .construction = n.rule .top := by
      rw [Node.rule, Node.rule, hform]
      rfl
    rw [hrule] at hitems
    have hbare : FitsBare inner .top n := by
      refine ⟨?_, hitems, hbuilt⟩
      rw [Node.rule, hform]
      exact .new _ .bare
    have hadmits : Slot.constructed.admits n.form = false := by
      rw [hform]
      rfl
    have hcharge : Slot.top.charge n.form = 1 := by
      rw [hform]
      rfl
    have htop := Fits.top_iff.2 ⟨inner, rfl, hbare⟩
    rw [hcharge] at htop
    exact .enclosed hadmits rfl htop
  | through hthrough => cases hthrough

end Canonical

/-- The elements of an array can be printed as such. -/
theorem Elements.fits (h : Elements items) (hitems : FitsItems levels items ns) :
    FitsItems levels (Item.elements (ns.map Node.form)) ns := by
  induction h generalizing ns with
  | nil =>
    cases hitems
    exact .nil
  | hole _ ih =>
    obtain ⟨span, others, rfl, hrest⟩ := FitsItems.hole_iff.1 hitems
    exact .hole (ih hrest)
  | last =>
    obtain ⟨n, others, rfl, hn, hrest⟩ := FitsItems.part_iff.1 hitems
    obtain rfl := FitsItems.nil_iff.1 hrest
    rw [List.map_cons, Item.elements_cons hn.form_ne.1]
    exact .part hn .nil
  | value _ ih =>
    obtain ⟨n, others, rfl, hn, hrest⟩ := FitsItems.part_iff.1 hitems
    have hothers := ih ((FitsItems.word_iff rfl).1 hrest)
    rw [List.map_cons, Item.elements_cons hn.form_ne.1]
    refine .part hn ?_
    split
    next hnil =>
      rw [List.map_eq_nil_iff] at hnil
      rw [hnil]
      exact .nil
    next => exact .word rfl hothers

theorem Fits.top_eq (place : Place) (hplace : place ∈ [Place.top]) (n : Node)
    (h : Fits levels place n) : n.form ≠ .emptyExpression ∧ Place.top = place := by
  obtain rfl := List.mem_singleton.1 hplace
  exact ⟨h.form_ne.1, rfl⟩

/-- A clause in the head of a loop can be printed as such. -/
theorem Clause.fits {mark : Punctuator} {places : List Place} (h : Clause mark places items)
    (place : Form → Place) (hitems : FitsItems levels items ns)
    (hplaces : ∀ p ∈ places, ∀ n, Fits levels p n → n.form ≠ .emptyExpression ∧ place n.form = p) :
    ∃ n, ns = [n] ∧ Clause mark places (Item.clause mark (place n.form) n.form) ∧
      FitsItems levels (Item.clause mark (place n.form) n.form) [n] := by
  cases h with
  | hole =>
    obtain ⟨span, others, rfl, hrest⟩ := FitsItems.hole_iff.1 hitems
    obtain rfl := FitsItems.nil_iff.1 hrest
    exact ⟨_, rfl, .hole, .hole .nil⟩
  | part hplace =>
    obtain ⟨n, others, rfl, hn, hrest⟩ := FitsItems.part_iff.1 hitems
    obtain rfl := FitsItems.nil_iff.1 ((FitsItems.word_iff rfl).1 hrest)
    obtain ⟨hne, hplace'⟩ := hplaces _ hplace n hn
    refine ⟨n, rfl, ?_⟩
    rw [Item.clause_of_ne hne, hplace']
    exact ⟨.part hplace, .part hn (.word rfl .nil)⟩

/-- A construction can be printed as such. -/
theorem Construction.fits {hasArguments : Bool} {place : Place} {parts : List Form}
    (h : Construction hasArguments items) (hitems : FitsItems levels items ns) :
    FitsItems levels (place.canonical parts (.newExpression hasArguments)) ns := by
  cases h with
  | arguments | bare => exact hitems
  | nested =>
    obtain ⟨n, others, rfl, hn, hrest⟩ := FitsItems.part_iff.1 ((FitsItems.word_iff rfl).1 hitems)
    exact .word rfl (.part hn.of_construction hrest)

/-- What is written by a rule can be printed by its canonical form. -/
theorem Phrase.canonicalize {place : Place} {form : Form} (h : Phrase place form items)
    (hitems : FitsItems levels items ns) :
    Phrase place form (place.canonical (ns.map Node.form) form) ∧
      FitsItems levels (place.canonical (ns.map Node.form) form) ns := by
  have hcount := hitems.countP_eq
  have hparts := hcount.trans (List.length_map Node.form).symm
  have hphrase := h
  -- most rules are canonical once their counts are those of the children; the others have
  -- clauses, elements or commas that can be written in more than one way
  cases h with
  | program count | compoundStatement count | switchDefault count =>
    have hlength : (ns.map Node.form).length = count := by
      simpa [List.countP_cons] using hcount.symm
    rw [Place.canonical, hlength]
    exact ⟨hphrase, hitems⟩
  | switchStatement _ count | switchCase count =>
    have hlength : (ns.map Node.form).length - 1 = count := by
      simp [← hcount, List.countP_cons, Nat.add_comm]
    rw [Place.canonical, hlength]
    exact ⟨hphrase, hitems⟩
  | variableStatement _ _ count | declarations _ count =>
    have hlength : (ns.map Node.form).length = count + 1 := by
      simpa [List.countP_cons] using hcount.symm
    simp only [Place.canonical, hlength]
    exact ⟨hphrase, hitems⟩
  | parameters count | arguments count =>
    have hlength : (ns.map Node.form).length = count := by
      simpa [List.countP_cons] using hcount.symm
    rw [Place.canonical, hlength]
    exact ⟨hphrase, hitems⟩
  | forStatement closed hstart htest hupdate =>
    have hclauses := (FitsItems.word_iff rfl).1 ((FitsItems.word_iff rfl).1 hitems)
    obtain ⟨_, _, rfl, hstart', hclauses⟩ := hclauses.of_append
    obtain ⟨_, _, rfl, htest', hclauses⟩ := hclauses.of_append
    obtain ⟨_, _, rfl, hupdate', hclauses⟩ := hclauses.of_append
    obtain ⟨body, _, rfl, hbody, hnil⟩ := FitsItems.part_iff.1 hclauses
    obtain rfl := FitsItems.nil_iff.1 hnil
    obtain ⟨start, rfl, hstart, hstart'⟩ := hstart.fits (.loopHead (.whole false false)) hstart'
      fun _ hplace _ hn => hn.loopHead_eq hplace
    obtain ⟨test, rfl, htest, htest'⟩ := htest.fits (fun _ => .top) htest' Fits.top_eq
    obtain ⟨update, rfl, hupdate, hupdate'⟩ := hupdate.fits (fun _ => .top) hupdate' Fits.top_eq
    refine ⟨.forStatement closed hstart htest hupdate, .word rfl (.word rfl ?_)⟩
    exact hstart'.append (htest'.append (hupdate'.append (.part hbody .nil)))
  | forInStatement closed hleft =>
    obtain ⟨left, others, rfl, hleft', hrest⟩ :=
      FitsItems.part_iff.1 ((FitsItems.word_iff rfl).1 ((FitsItems.word_iff rfl).1 hitems))
    obtain ⟨_, rfl⟩ := hleft'.loopHead_eq hleft
    exact ⟨hphrase, hitems⟩
  | construction hnew => exact ⟨.construction .bare, hnew.fits hitems⟩
  | sequence _ count =>
    have hlength : (ns.map Node.form).length - 1 = count + 1 := by
      simp [← hcount, List.countP_cons]
    rw [Place.canonical, hlength]
    exact ⟨hphrase, hitems⟩
  | new s hnew => exact ⟨hphrase.canonical_expression hparts s, hnew.fits hitems⟩
  | array s helements =>
    obtain ⟨elements, rest, rfl, helements', hrest⟩ := ((FitsItems.word_iff rfl).1 hitems).of_append
    obtain rfl := FitsItems.nil_iff.1 ((FitsItems.word_iff rfl).1 hrest)
    rw [List.append_nil]
    refine ⟨.array s (.canonical _), .word rfl ?_⟩
    have happend := (helements.fits helements').append hrest
    rwa [List.append_nil] at happend
  | object s count htrailing =>
    obtain ⟨members, rest, rfl, hmembers, hrest⟩ := ((FitsItems.word_iff rfl).1 hitems).of_append
    obtain rfl : rest = [] := by
      cases htrailing with
      | nothing => exact FitsItems.nil_iff.1 ((FitsItems.word_iff rfl).1 hrest)
      | comma =>
        exact FitsItems.nil_iff.1 ((FitsItems.word_iff rfl).1 ((FitsItems.word_iff rfl).1 hrest))
    have hlength : (members.map Node.form).length = count := by
      rw [List.length_map, ← hmembers.countP_eq, Item.countP_separated]
    rw [List.append_nil, Place.canonical, hlength]
    have hclose : FitsItems levels [.mark .rightCurly] [] := .word rfl .nil
    have happend := hmembers.append hclose
    rw [List.append_nil] at happend
    exact ⟨.object s count .nothing, .word rfl happend⟩
  | literal _ value => cases value <;> exact ⟨hphrase, hitems⟩
  | _ => exact ⟨hphrase, hitems⟩

/-- A node that is written by a rule can be printed. -/
theorem Fits.of_build {place : Place} {form : Form} {span : Span} {children : List Node}
    (hadmits : place.admits form = true) (hphrase : Phrase place form items)
    (hitems : FitsItems levels items children)
    (hlink : form.isLink = true → (Node.build form span children).height ≤ Parser.maxHeight) :
    Fits (levels + place.charge form) place (.build form span children) := by
  obtain ⟨hphrase, hitems⟩ := hphrase.canonicalize hitems
  have hbuilt : (Node.build form span children).Built := ⟨rfl, hlink⟩
  show Fits (levels + place.charge (Node.build form span children).form) place _
  exact .plain hadmits hphrase hitems hbuilt

mutual
/-- Whatever was read at a place can be printed there, within the levels that were there. -/
theorem Reads.fits {implied : Cursor → Prop} {levels : Nat} {place : Place} {c c' : Cursor}
    {n : Node} :
    Reads implied levels place c n c' → (place.isInner = true ∨ place = .program) →
      Fits levels place n
  | .plain hadmits hphrase hitems hlink, _ =>
    .of_build hadmits hphrase (hitems.fits hphrase.isInner) hlink
  | .enclosed (n := n) hserves _ hinner _, hplace =>
    -- the parentheses that were read need not be those that are printed
    n.flexible.enclose (hplace.resolve_right nofun) hserves (hinner.fits (.inl rfl))
  | .through hthrough hinner, _ =>
    .through hthrough (hinner.fits (.inl (by cases hthrough <;> rfl)))

/-- Items that were read fit, and so they can be printed. -/
theorem ReadsItems.fits {implied : Cursor → Prop} {levels : Nat} {items : List Item}
    {c c' : Cursor} {ns : List Node} :
    ReadsItems implied levels items c ns c' → items.all Item.isInner = true →
      FitsItems levels items ns
  | .nil, _ => .nil
  | .word _ _ hitems, hinner => .word rfl (hitems.fits hinner)
  | .part hn hitems, hinner => by
    rw [List.all_cons, Bool.and_eq_true] at hinner
    exact .part (hn.fits (.inl hinner.1)) (hitems.fits hinner.2)
  | .hole _ hitems, hinner => .hole (hitems.fits hinner)
  | .semicolon _ hitems, hinner => .word rfl (hitems.fits hinner)
  | .implied _ _ hitems, hinner => .word rfl (hitems.fits hinner)
  | .ended _ hitems, hinner => .word rfl (hitems.fits hinner)
  | .unended _ hitems, hinner => .word rfl (hitems.fits hinner)
  | .sameLine _ hitems, hinner => .word rfl (hitems.fits hinner)
end

end ScriptLint
