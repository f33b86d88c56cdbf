import ScriptLint.Proofs.Grammar.LastToken

/-!
# Brackets and choices

The tokens of a phrase, seen as text with brackets. `Paired colons ins ts` says that every bracket
among `ts` is closed by one of its kind, and that every hook has its colon. It also says what lies
open, outside brackets and choices: colons of no choice only if `colons`, and the word `in` only if
`ins`, unless it is a name behind a dot.

The rules have their brackets in pairs (`Phrase.paired`), so the tokens of a reading have them too
(`Reads.spells`). Where `in` is no operator, or where only operators stand that bind tighter, a rule
has no place for it but between brackets, between the marks of a choice and behind a dot
(`Slot.exposes`).

A bracket could still be a name behind a dot if it carried a name. So punctuators must carry no
value.
-/

namespace ScriptLint

/-! ## Paired tokens -/

namespace Punctuator

/-- The bracket that closes a bracket. -/
def closer? : Punctuator → Option Punctuator
  | .leftParen => some .rightParen
  | .leftBracket => some .rightBracket
  | .leftCurly => some .rightCurly
  | _ => none

/-- Whether a punctuator is no bracket and no mark of a choice. -/
def isLone : Punctuator → Bool
  | .leftParen | .rightParen | .leftBracket | .rightBracket | .leftCurly | .rightCurly | .hook
  | .colon => false
  | _ => true

end Punctuator

/-- Whether a token of the kind is no bracket and no mark of a choice. -/
def TokenKind.isLone : TokenKind → Bool
  | .punctuator mark => mark.isLone
  | _ => true

namespace Token

/-- `left.ClosedBy right` says that a bracket is closed by one of its kind. -/
def ClosedBy (left right : Token) : Prop :=
  ∃ opening closing, Punctuator.closer? opening = some closing ∧
    left.kind = .punctuator opening ∧ right.kind = .punctuator closing

/-- The marks of a choice. -/
def Chooses (hook colon : Token) : Prop :=
  hook.kind = .punctuator .hook ∧ colon.kind = .punctuator .colon

end Token

/-- `Paired colons ins ts` says that brackets and choices are complete among `ts`. Outside of them
there are colons only if `colons`, and `in` only if `ins` or behind a dot. -/
inductive Paired : (colons ins : Bool) → List Token → Prop where
  | nil {colons ins : Bool} : Paired colons ins []
  | token {colons ins : Bool} {t : Token} {ts : List Token} :
      t.kind.isLone = true → (t.kind = .keyword .inKw → ins = true) → Paired colons ins ts →
      Paired colons ins (t :: ts)
  | member {colons ins : Bool} {dot name : Token} {ts : List Token} :
      dot.kind = .punctuator .dot → name.kind.isLone = true → Paired colons ins ts →
      Paired colons ins (dot :: name :: ts)
  | colon {ins : Bool} {t : Token} {ts : List Token} :
      t.kind = .punctuator .colon → Paired true ins ts → Paired true ins (t :: ts)
  | group {colons ins : Bool} {left right : Token} {inner ts : List Token} :
      left.ClosedBy right → Paired true true inner → Paired colons ins ts →
      Paired colons ins (left :: (inner ++ right :: ts))
  | choice {colons ins : Bool} {hook colon : Token} {inner ts : List Token} :
      hook.Chooses colon → Paired false true inner → Paired colons ins ts →
      Paired colons ins (hook :: (inner ++ colon :: ts))

namespace Paired

variable {colons ins : Bool} {ts us : List Token}

/-- What is paired without colons or `in` is so where they are allowed as well. -/
theorem mono {colons' ins' : Bool} (h : Paired colons ins ts)
    (hcolons : colons = true → colons' = true) (hins : ins = true → ins' = true) :
    Paired colons' ins' ts := by
  induction h with
  | nil => exact .nil
  | token ht hin _ ih => exact .token ht (fun h => hins (hin h)) (ih hcolons hins)
  | member hdot hname _ ih => exact .member hdot hname (ih hcolons hins)
  | colon ht _ ih =>
    obtain rfl := hcolons rfl
    exact .colon ht (ih hcolons hins)
  | group hclosed hinner _ _ ih => exact .group hclosed hinner (ih hcolons hins)
  | choice hchooses hinner _ _ ih => exact .choice hchooses hinner (ih hcolons hins)

/-- Paired tokens may be put one behind the other. -/
theorem append (h : Paired colons ins ts) (hus : Paired colons ins us) :
    Paired colons ins (ts ++ us) := by
  induction h with
  | nil => exact hus
  | token ht hin _ ih => exact .token ht hin (ih hus)
  | member hdot hname _ ih => exact .member hdot hname (ih hus)
  | colon ht _ ih => exact .colon ht (ih hus)
  | group hclosed hinner _ _ ih =>
    rw [List.cons_append, List.append_assoc]
    exact .group hclosed hinner (ih hus)
  | choice hchooses hinner _ _ ih =>
    rw [List.cons_append, List.append_assoc]
    exact .choice hchooses hinner (ih hus)

/-- Tokens between brackets. -/
theorem enclosed {left right : Token} (hclosed : left.ClosedBy right) (h : Paired true true ts) :
    Paired colons ins (left :: (ts ++ [right])) :=
  .group hclosed h .nil

end Paired

/-! ## Tokens of phrases -/

/-- Whether `in` can lie open in a slot: it is an operator there, and no operator that binds tighter
is asked for. -/
def Slot.exposes (s : Slot) : Bool := s.allowIn && decide (s.rank ≤ 9)

namespace Place

/-- Whether `in` can lie open in what stands at a place. -/
def exposes : Place → Bool
  | .expression s => s.exposes
  | .block | .parameters | .parameter | .arguments | .construction => false
  | _ => true

/-- Whether a colon lies open in what stands at a place. -/
def hasColon : Place → Bool
  | .switchCase | .property => true
  | _ => false

/-- What is said of the tokens at a place. A name behind a dot is one token, and it may be `in`. -/
def Spells (place : Place) (ts : List Token) : Prop :=
  if place = .key then ∃ t, ts = [t] ∧ t.kind.isLone = true
  else Paired place.hasColon place.exposes ts

end Place

/-- Whether a piece of a rule is no more than a `;`, if it has a token at all. -/
def Item.isOptional : Item → Bool
  | .terminator | .option | .sameLine => true
  | _ => false

/-- `Spelled P items ts` says that the tokens `ts` are the pieces of a rule, one after the other, if
`P` says which tokens the parts may be. -/
inductive Spelled (P : Place → List Token → Prop) : List Item → List Token → Prop where
  | nil : Spelled P [] []
  | word {w : Word} {items : List Item} {t : Token} {ts : List Token} :
      w.Matches t → t.isBare = true → Spelled P items ts → Spelled P (.word w :: items) (t :: ts)
  | part {place : Place} {items : List Item} {ts us : List Token} :
      P place ts → Spelled P items us → Spelled P (.part place :: items) (ts ++ us)
  | hole {mark : Punctuator} {items : List Item} {t : Token} {ts : List Token} :
      t.kind = .punctuator mark → Spelled P items ts → Spelled P (.hole mark :: items) (t :: ts)
  | semicolon {item : Item} {items : List Item} {t : Token} {ts : List Token} :
      item.isOptional = true → t.kind = .punctuator .semicolon → Spelled P items ts →
      Spelled P (item :: items) (t :: ts)
  | nothing {item : Item} {items : List Item} {ts : List Token} :
      item.isOptional = true → Spelled P items ts → Spelled P (item :: items) ts

/-- The tokens of items fall apart as the items do. -/
theorem Spelled.of_append {P : Place → List Token → Prop} {items others : List Item}
    {ts : List Token} (h : Spelled P (items ++ others) ts) :
    ∃ us vs, ts = us ++ vs ∧ Spelled P items us ∧ Spelled P others vs := by
  induction items generalizing ts with
  | nil => exact ⟨[], ts, rfl, .nil, h⟩
  | cons item items ih =>
    cases h with
    | word hw hbare hrest =>
      obtain ⟨us, vs, rfl, hus, hvs⟩ := ih hrest
      exact ⟨_ :: us, vs, rfl, .word hw hbare hus, hvs⟩
    | part hpart hrest =>
      obtain ⟨us, vs, rfl, hus, hvs⟩ := ih hrest
      exact ⟨_ ++ us, vs, (List.append_assoc ..).symm, .part hpart hus, hvs⟩
    | hole hmark hrest =>
      obtain ⟨us, vs, rfl, hus, hvs⟩ := ih hrest
      exact ⟨_ :: us, vs, rfl, .hole hmark hus, hvs⟩
    | semicolon hitem hmark hrest =>
      obtain ⟨us, vs, rfl, hus, hvs⟩ := ih hrest
      exact ⟨_ :: us, vs, rfl, .semicolon hitem hmark hus, hvs⟩
    | nothing hitem hrest =>
      obtain ⟨us, vs, rfl, hus, hvs⟩ := ih hrest
      exact ⟨us, vs, rfl, .nothing hitem hus, hvs⟩

/-! ## Paired pieces -/

/-- Whether a word of a rule is no bracket and no mark of a choice. -/
def Word.isLone : Word → Bool
  | .mark m => m.isLone
  | _ => true

/-- Whether a token that a rule asks for can be `in`. -/
def Word.admitsIn : Word → Bool
  | .keyword .inKw | .key _ | .member _ | .binary .isIn => true
  | _ => false

/-- Whether a word can lie open among paired pieces. -/
def Word.fits (ins : Bool) (w : Word) : Bool := w.isLone && (!w.admitsIn || ins)

/-- Whether a part at a place can lie open among paired pieces. -/
def Place.fits (colons ins : Bool) (place : Place) : Bool :=
  place != .key && (!place.hasColon || colons) && (!place.exposes || ins)

/-- The punctuator that a piece of a rule is or is followed by. -/
def Item.mark? : Item → Option Punctuator
  | .word (.mark m) | .hole m => some m
  | _ => none

/-- What `Paired` says of tokens, said of the pieces of a rule. -/
inductive Item.Paired : (colons ins : Bool) → List Item → Prop where
  | nil {colons ins : Bool} : Item.Paired colons ins []
  | word {colons ins : Bool} {w : Word} {items : List Item} :
      w.fits ins = true → Item.Paired colons ins items → Item.Paired colons ins (.word w :: items)
  | part {colons ins : Bool} {place : Place} {items : List Item} :
      place.fits colons ins = true → Item.Paired colons ins items →
      Item.Paired colons ins (.part place :: items)
  | hole {colons ins : Bool} {mark : Punctuator} {items : List Item} :
      mark.isLone = true → Item.Paired colons ins items →
      Item.Paired colons ins (.hole mark :: items)
  | optional {colons ins : Bool} {item : Item} {items : List Item} :
      item.isOptional = true → Item.Paired colons ins items →
      Item.Paired colons ins (item :: items)
  | member {colons ins : Bool} {items : List Item} :
      Item.Paired colons ins items → Item.Paired colons ins (.mark .dot :: .part .key :: items)
  | colon {ins : Bool} {items : List Item} :
      Item.Paired true ins items → Item.Paired true ins (.mark .colon :: items)
  | group {colons ins : Bool} {opening closing : Punctuator} {last : Item} (inner : List Item)
      {items : List Item} :
      opening.closer? = some closing → last.mark? = some closing → Item.Paired true true inner →
      Item.Paired colons ins items →
      Item.Paired colons ins (.mark opening :: (inner ++ last :: items))
  | choice {colons ins : Bool} (inner : List Item) {items : List Item} :
      Item.Paired false true inner → Item.Paired colons ins items →
      Item.Paired colons ins (.mark .hook :: (inner ++ .mark .colon :: items))

/-- A place fits if it is no key and has colons and `in` only where they are allowed. -/
theorem Place.fits_iff {colons ins : Bool} {place : Place} :
    place.fits colons ins = true ↔ place ≠ .key ∧ (place.hasColon = true → colons = true) ∧
      (place.exposes = true → ins = true) := by
  cases hcolon : place.hasColon <;> cases hexposes : place.exposes <;>
    simp [Place.fits, hcolon, hexposes, and_assoc]

/-- A word fits if it is no bracket and is `in` only where that is allowed. -/
theorem Word.fits_iff {ins : Bool} {w : Word} :
    w.fits ins = true ↔ w.isLone = true ∧ (w.admitsIn = true → ins = true) := by
  cases hin : w.admitsIn <;> simp [Word.fits, hin]

/-- A bare token that carries a name is no punctuator. -/
theorem Token.isLone_of_value {t : Token} (hbare : t.isBare = true) (hvalue : t.value ≠ .none) :
    t.kind.isLone = true := by
  cases hkind : t.kind with
  | punctuator mark => exact absurd (Token.isBare_iff.1 hbare mark hkind) hvalue
  | _ => rfl

/-- What names a property has a value, so it is no bracket. -/
theorem Token.value_ne_of_propertyName? {t : Token} {name : String}
    (h : t.propertyName? = some name) : t.value ≠ .none := by
  intro hvalue
  rw [Token.propertyName?, hvalue] at h
  cases h

/-- A bare token that is what a rule asks for is a bracket or a mark of a choice only if that is
what the rule asks for. -/
theorem Word.Matches.isLone {w : Word} {t : Token} (h : w.Matches t) (hbare : t.isBare = true)
    (hw : w.isLone = true) : t.kind.isLone = true := by
  cases w with
  | mark m =>
    rw [show t.kind = .punctuator m from h]
    exact hw
  | keyword k =>
    rw [show t.kind = .keyword k from h]
    rfl
  | name x =>
    rw [Token.kind_of_identifier? h]
    rfl
  | literal value =>
    cases hkind : t.kind with
    | punctuator mark =>
      rw [Word.Matches, Token.literal?, hkind] at h
      cases h
    | _ => rfl
  | key x =>
    refine Token.isLone_of_value hbare fun hvalue => ?_
    have hkey := h.1
    rw [Token.propertyKey?, Token.propertyName?, hvalue] at hkey
    cases hkey
  | member x => exact Token.isLone_of_value hbare (Token.value_ne_of_propertyName? h)
  | declaration | binary | assign | unary | update =>
    cases hkind : t.kind with
    | punctuator mark =>
      rw [Word.Matches, hkind] at h
      cases hmark : mark.isLone with
      | true => exact hmark
      | false => cases mark <;> cases hmark <;> cases h
    | _ => rfl

/-- A token is `in` only where the rule leaves room for it. -/
theorem Word.Matches.admitsIn {w : Word} {t : Token} (h : w.Matches t)
    (ht : t.kind = .keyword .inKw) : w.admitsIn = true := by
  cases w with
  | name =>
    rw [Token.kind_of_identifier? h] at ht
    cases ht
  | literal =>
    rw [Word.Matches, Token.literal?, ht] at h
    cases h
  | key | member => rfl
  | mark | keyword | declaration | binary | assign | unary | update =>
    rw [Word.Matches, ht] at h
    cases h <;> rfl

theorem Token.isLone_semicolon {t : Token} (h : t.kind = .punctuator .semicolon) :
    t.kind.isLone = true := by
  rw [h]
  rfl

theorem Token.kind_ne_in {t : Token} {mark : Punctuator} {P : Prop}
    (h : t.kind = .punctuator mark) : t.kind = .keyword .inKw → P := by
  rw [h]
  nofun

/-- A piece of a rule that has its own punctuator, and the tokens behind it. -/
theorem Spelled.of_mark? {P : Place → List Token → Prop} {item : Item} {items : List Item}
    {mark : Punctuator} {ts : List Token} (h : Spelled P (item :: items) ts)
    (hmark : item.mark? = some mark) :
    ∃ t us, ts = t :: us ∧ t.kind = .punctuator mark ∧ Spelled P items us := by
  cases h with
  | @word w _ t us hw _ hrest =>
    cases w <;> cases hmark
    exact ⟨t, us, rfl, hw, hrest⟩
  | hole ht hrest =>
    cases hmark
    exact ⟨_, _, rfl, ht, hrest⟩
  | part => cases hmark
  | semicolon hitem | nothing hitem => cases item <;> cases hitem <;> cases hmark

/-- The tokens of paired pieces are paired. -/
theorem Item.Paired.tokens {colons ins : Bool} {items : List Item} {ts : List Token}
    (h : Item.Paired colons ins items) (hts : Spelled Place.Spells items ts) :
    ScriptLint.Paired colons ins ts := by
  induction h generalizing ts with
  | nil =>
    cases hts
    exact .nil
  | word hw _ ih =>
    obtain ⟨hw, hin⟩ := Word.fits_iff.1 hw
    cases hts with
    | word hmatches hbare hrest =>
      exact .token (hmatches.isLone hbare hw) (fun ht => hin (hmatches.admitsIn ht)) (ih hrest)
    | semicolon hitem | nothing hitem => cases hitem
  | part hplace _ ih =>
    obtain ⟨hkey, hcolon, hexposes⟩ := Place.fits_iff.1 hplace
    cases hts with
    | part hpart hrest =>
      rw [Place.Spells, if_neg hkey] at hpart
      exact (hpart.mono hcolon hexposes).append (ih hrest)
    | semicolon hitem | nothing hitem => cases hitem
  | hole hmark _ ih =>
    obtain ⟨t, us, rfl, ht, hrest⟩ := hts.of_mark? rfl
    exact .token (ht ▸ hmark) (Token.kind_ne_in ht) (ih hrest)
  | optional hitem _ ih =>
    cases hts with
    | semicolon _ ht hrest =>
      exact .token (Token.isLone_semicolon ht) (Token.kind_ne_in ht) (ih hrest)
    | nothing _ hrest => exact ih hrest
    | word | part | hole => cases hitem
  | member _ ih =>
    obtain ⟨dot, _, rfl, hdot, hrest⟩ := hts.of_mark? rfl
    cases hrest with
    | part hname hrest =>
      rw [Place.Spells, if_pos rfl] at hname
      obtain ⟨name, rfl, hlone⟩ := hname
      exact .member hdot hlone (ih hrest)
    | semicolon hitem | nothing hitem => cases hitem
  | colon _ ih =>
    obtain ⟨t, us, rfl, ht, hrest⟩ := hts.of_mark? rfl
    exact .colon ht (ih hrest)
  | group _ hcloser hlast _ _ ihinner ih =>
    obtain ⟨left, _, rfl, hleft, hrest⟩ := hts.of_mark? rfl
    obtain ⟨inner, _, rfl, hinner, hrest⟩ := hrest.of_append
    obtain ⟨right, us, rfl, hright, hrest⟩ := hrest.of_mark? hlast
    exact .group ⟨_, _, hcloser, hleft, hright⟩ (ihinner hinner) (ih hrest)
  | choice _ _ _ ihinner ih =>
    obtain ⟨hook, _, rfl, hhook, hrest⟩ := hts.of_mark? rfl
    obtain ⟨inner, _, rfl, hinner, hrest⟩ := hrest.of_append
    obtain ⟨colon, us, rfl, hcolon, hrest⟩ := hrest.of_mark? rfl
    exact .choice ⟨hhook, hcolon⟩ (ihinner hinner) (ih hrest)

/-! ## The rules -/

namespace Item.Paired

variable {colons ins : Bool} {items others : List Item} {place : Place}

/-- Paired items may be put one behind the other. -/
theorem append (h : Item.Paired colons ins items) (hothers : Item.Paired colons ins others) :
    Item.Paired colons ins (items ++ others) := by
  induction h with
  | nil => exact hothers
  | word hw _ ih => exact .word hw (ih hothers)
  | part hplace _ ih => exact .part hplace (ih hothers)
  | hole hmark _ ih => exact .hole hmark (ih hothers)
  | optional hitem _ ih => exact .optional hitem (ih hothers)
  | member _ ih => exact .member (ih hothers)
  | colon _ ih => exact .colon (ih hothers)
  | group inner hcloser hlast hinner _ _ ih =>
    rw [List.cons_append, List.append_assoc]
    exact .group inner hcloser hlast hinner (ih hothers)
  | choice inner hinner _ _ ih =>
    rw [List.cons_append, List.append_assoc]
    exact .choice inner hinner (ih hothers)

/-- Parts in a row are paired if their place fits. -/
theorem parts (h : place.fits colons ins = true) (count : Nat) :
    Item.Paired colons ins (Item.parts place count) := by
  induction count with
  | zero => exact .nil
  | succ count ih => exact .part h ih

/-- Followers of a list are paired if their place fits. -/
theorem followers (h : place.fits colons ins = true) (count : Nat) :
    Item.Paired colons ins (Item.followers place count) := by
  induction count with
  | zero => exact .nil
  | succ count ih => exact .word rfl (.part h ih)

/-- A list with commas is paired if the place of its members fits. -/
theorem separated (h : place.fits colons ins = true) (count : Nat) :
    Item.Paired colons ins (Item.separated place count) := by
  cases count with
  | zero => exact .nil
  | succ count => exact .part h (followers h count)

/-- The elements of an array are paired. -/
theorem elements (h : Elements items) : Item.Paired true true items := by
  induction h with
  | nil => exact .nil
  | hole _ ih => exact .hole rfl ih
  | last => exact .part rfl .nil
  | value _ ih => exact .part rfl (.word rfl ih)

/-- A comma at the end changes nothing. -/
theorem trailing {count : Nat} (h : Trailing count items) : Item.Paired true true items := by
  cases h with
  | nothing => exact .nil
  | comma => exact .word rfl .nil

/-- A clause that ends with a `;`. -/
theorem clause {places : List Place} (h : Clause .semicolon places items)
    (hplaces : ∀ place ∈ places, place.fits true true = true) : Item.Paired true true items := by
  cases h with
  | hole => exact .hole rfl .nil
  | part hplace => exact .part (hplaces _ hplace) (.word rfl .nil)

/-- An expression in parentheses that belong to the rule. -/
theorem guard (h : Item.Paired colons ins items) :
    Item.Paired colons ins (Item.guard ++ items) :=
  .group [.part .top] rfl rfl (.part rfl .nil) h

theorem jump (label : Option String) : Item.Paired colons ins (Item.jump label) := by
  cases label with
  | none => exact .optional rfl .nil
  | some label => exact .optional rfl (.word rfl (.optional rfl .nil))

/-- A construction is paired, with or without arguments. -/
theorem construction {hasArguments : Bool} (h : Construction hasArguments items) :
    Item.Paired colons ins items := by
  cases h with
  | arguments => exact .word rfl (.part rfl (.part rfl .nil))
  | bare => exact .word rfl (.part rfl .nil)
  | nested => exact .word rfl (.part rfl .nil)

end Item.Paired

namespace Slot

variable {s s' : Slot}

/-- A slot exposes `in` if it allows it and is loose enough for it. -/
theorem exposes_iff : s.exposes = true ↔ s.allowIn = true ∧ s.rank ≤ 9 := by
  rw [exposes, Bool.and_eq_true, decide_eq_true_iff]

/-- `in` lies open in a part only where it does in the whole. -/
theorem fits_of_exposes {colons : Bool} (h : s'.exposes = true → s.exposes = true) :
    (Place.expression s').fits colons s.exposes = true :=
  Place.fits_iff.2 ⟨by simp, by simp [Place.hasColon], h⟩

/-- A part that no looser operator belongs to fits everywhere. -/
theorem fits_of_lt {colons ins : Bool} (h : 9 < s.rank) :
    (Place.expression s).fits colons ins = true :=
  Place.fits_iff.2 ⟨by simp, by simp [Place.hasColon], fun hexposes =>
    absurd (exposes_iff.1 hexposes).2 (Nat.not_le.2 h)⟩

/-- What a member access is applied to is too tight for `in`. -/
theorem lt_rank_object (s : Slot) : 9 < s.object.rank :=
  Nat.lt_of_lt_of_le (by decide) (Nat.le_max_left 16 s.rank)

/-- A part where `in` is an operator if it is one in the whole. -/
theorem fits_of_le {colons : Bool} (hin : s'.allowIn = s.allowIn) (hrank : s.rank ≤ s'.rank) :
    (Place.expression s').fits colons s.exposes = true :=
  fits_of_exposes fun h => exposes_iff.2
    ⟨hin ▸ (exposes_iff.1 h).1, Nat.le_trans hrank (exposes_iff.1 h).2⟩

/-- A part without commas of an expression that binds loosely. -/
theorem fits_item {colons opening : Bool} (hrank : s.rank ≤ 9) :
    (Place.expression (.item s.allowIn opening)).fits colons s.exposes = true :=
  fits_of_exposes fun h => exposes_iff.2 ⟨(exposes_iff.1 h).1, hrank⟩

end Slot

/-- The rules have brackets and choices in pairs. -/
theorem Phrase.paired {place : Place} {form : Form} {items : List Item}
    (h : Phrase place form items) (hadmits : place.admits form = true) (hplace : place ≠ .key) :
    Item.Paired place.hasColon place.exposes items := by
  cases h with
  | program count => exact .parts rfl count
  | emptyStatement => exact .word rfl .nil
  | compoundStatement count => exact .group _ rfl rfl (.parts rfl count) .nil
  | expressionStatement => exact .part rfl (.optional rfl .nil)
  | variableStatement _ _ count =>
    exact .word rfl (.append (.separated rfl (count + 1)) (.optional rfl .nil))
  | ifStatement => exact .word rfl (.guard (.part rfl .nil))
  | ifElseStatement => exact .word rfl (.guard (.part rfl (.word rfl (.part rfl .nil))))
  | whileStatement | withStatement => exact .word rfl (.guard (.part rfl .nil))
  | doWhileStatement => exact .word rfl (.part rfl (.word rfl (.guard (.optional rfl .nil))))
  | @forStatement _ init test _ hinit htest hupdate =>
    have hclauses : Item.Paired true true (init ++ test) :=
      .append (.clause hinit (by decide)) (.clause htest (by decide))
    rw [← List.append_assoc init]
    -- the last clause is left out or not, and the parenthesis closes the head either way
    cases hupdate with
    | hole => exact .word rfl (.group (init ++ test) rfl rfl hclauses (.part rfl .nil))
    | part hupdate =>
      obtain rfl := List.mem_singleton.1 hupdate
      rw [List.cons_append, List.append_cons]
      exact .word rfl (.group _ rfl rfl (.append hclauses (.part rfl .nil)) (.part rfl .nil))
  | @forInStatement _ left hleft =>
    have hleft : left.fits true true = true := by
      have hplaces : ∀ left ∈ [Place.declarations, .expression .loopTarget],
          left.fits true true = true := by decide
      exact hplaces left hleft
    exact .word rfl (.group [.part left, .keyword .inKw, .part .top] rfl rfl
      (.part hleft (.word rfl (.part rfl .nil))) (.part rfl .nil))
  | continueStatement _ label | breakStatement _ label => exact .word rfl (.jump label)
  | returnStatement | debuggerStatement => exact .word rfl (.optional rfl .nil)
  | returnValueStatement => exact .word rfl (.optional rfl (.part rfl (.optional rfl .nil)))
  | throwStatement => exact .word rfl (.part rfl (.optional rfl .nil))
  | switchStatement _ count =>
    exact .word rfl (.guard (.group _ rfl rfl (.parts rfl count) .nil))
  | tryStatement _ hasHandler hasFinalizer =>
    refine .word rfl (.part rfl (.append ?_ ?_))
    · cases hasHandler with
      | true => exact .part rfl .nil
      | false => exact .nil
    · cases hasFinalizer with
      | true => exact .word rfl (.part rfl .nil)
      | false => exact .nil
  | functionStatement | functionDeclaration =>
    exact .word rfl (.word rfl (.part rfl (.part rfl .nil)))
  | switchCase count => exact .word rfl (.part rfl (.colon (.parts rfl count)))
  | switchDefault count => exact .word rfl (.colon (.parts rfl count))
  | catchClause parameter =>
    exact .word rfl (.group [.word (.name parameter)] rfl rfl (.word rfl .nil) (.part rfl .nil))
  | declarations _ count => exact .word rfl (.separated rfl (count + 1))
  | definition => exact .word rfl .nil
  | initialized allowIn =>
    have hfits : (Place.item allowIn).fits false true = true := by cases allowIn <;> rfl
    exact .word rfl (.word rfl (.part hfits .nil))
  | parameters count | arguments count => exact .group _ rfl rfl (.separated rfl count) .nil
  | parameter => exact .word rfl .nil
  | property => exact .word rfl (.colon (.part rfl .nil))
  | key => exact absurd rfl hplace
  | construction h | new _ h => exact .construction h
  | sequence s count =>
    have hrank : s.rank ≤ 9 := Nat.le_trans (Slot.admits_iff.1 hadmits).1 (Nat.zero_le 9)
    exact .part (Slot.fits_item hrank) (.followers (Slot.fits_item hrank) (count + 1))
  | assignment s operator =>
    have hrank : s.rank ≤ 9 := Nat.le_trans (Slot.admits_iff.1 hadmits).1 (by decide : 1 ≤ 9)
    exact .part (Slot.fits_of_lt (by decide : 9 < 15))
      (.word rfl (.part (Slot.fits_item hrank) .nil))
  | conditional s =>
    have hrank : s.rank ≤ 2 := (Slot.admits_iff.1 hadmits).1
    exact .part (Slot.fits_of_le rfl (Nat.le_succ_of_le hrank))
      (.choice [.part (.item true)] (.part rfl .nil)
        (.part (Slot.fits_item (Nat.le_trans hrank (by decide))) .nil))
  | binary s operator =>
    obtain ⟨hrank, hin, -⟩ := Slot.admits_iff.1 hadmits
    have hrank : s.rank ≤ 2 + operator.precedence := hrank
    have hword : (Word.binary operator).fits s.exposes = true := by
      refine Word.fits_iff.2 ⟨rfl, fun hoperator => ?_⟩
      obtain rfl : operator = .isIn := by
        cases operator with
        | isIn => rfl
        | _ => cases hoperator
      exact Slot.exposes_iff.2 ⟨hin.resolve_right (by simp), hrank⟩
    have hright : s.rank ≤ 3 + operator.precedence := by omega
    exact .part (Slot.fits_of_le rfl hrank)
      (.word hword (.part (Slot.fits_of_le rfl hright) .nil))
  | unary | update => exact .word rfl (.part (Slot.fits_of_lt (by decide : 9 < 13)) .nil)
  | updated =>
    exact .part (Slot.fits_of_lt (by decide : 9 < 15)) (.optional rfl (.word rfl .nil))
  | call => exact .part (Slot.fits_of_lt (by decide : 9 < 16)) (.part rfl .nil)
  | member s => exact .part (Slot.fits_of_lt s.lt_rank_object) (.member .nil)
  | computedMember s =>
    exact .part (Slot.fits_of_lt s.lt_rank_object)
      (.group [.part .top] rfl rfl (.part rfl .nil) .nil)
  | function _ name =>
    cases name with
    | none => exact .word rfl (.part rfl (.part rfl .nil))
    | some name => exact .word rfl (.word rfl (.part rfl (.part rfl .nil)))
  | array _ helements => exact .group _ rfl rfl (.elements helements) .nil
  | object _ count hending =>
    rw [← List.append_assoc]
    exact .group _ rfl rfl (.append (.separated rfl count) (.trailing hending)) .nil
  | this | identifier | literal => exact .word rfl .nil

/-! ## Readings -/

/-- The tokens of a phrase are as its place says, if those of its parts are. -/
theorem Phrase.spells {place : Place} {form : Form} {items : List Item} {ts : List Token}
    (h : Phrase place form items) (hadmits : place.admits form = true)
    (hts : Spelled Place.Spells items ts) : place.Spells ts := by
  by_cases hplace : place = .key
  · subst hplace
    rw [Place.Spells, if_pos rfl]
    cases h with
    | key name =>
      cases hts with
      | word hw hbare hnil =>
        cases hnil
        exact ⟨_, rfl, hw.isLone hbare rfl⟩
      | semicolon hitem | nothing hitem => cases hitem
  · rw [Place.Spells, if_neg hplace]
    exact (h.paired hadmits hplace).tokens hts

/-- What stands for a place is spelled like the place. -/
theorem Place.Through.spells {place inner : Place} {cost : Nat} {ts : List Token}
    (h : place.Through inner cost) (hts : inner.Spells ts) : place.Spells ts := by
  cases h with
  | element => exact hts
  | block closed =>
    have hpaired : Paired false false ts := hts
    exact hpaired.mono id fun _ => rfl

mutual
/-- The tokens of a reading have their brackets and choices in pairs. -/
theorem Reads.spells {implied : Cursor → Prop} {levels : Nat} {place : Place} {c c' : Cursor}
    {n : Node} :
    Reads implied levels place c n c' → c.Bare → ∃ ts, c.Takes ts c' ∧ place.Spells ts
  | .plain hadmits hphrase hitems _, hbare => by
    obtain ⟨ts, htakes, hts⟩ := hitems.spelled hbare
    exact ⟨ts, htakes, hphrase.spells hadmits hts⟩
  | .enclosed _ hopen hinner hclose, hbare => by
    obtain ⟨left, hleft, hleftKind⟩ := Cursor.exists_token hopen
    obtain ⟨right, hright, hrightKind⟩ := Cursor.exists_token hclose
    obtain ⟨ts, htakes, hts⟩ := hinner.spells (hbare.advance hleft)
    have hpaired : Paired false true ts := hts
    refine ⟨_, .cons hleft (htakes.append (.single hright)), ?_⟩
    exact Paired.enclosed ⟨.leftParen, .rightParen, rfl, hleftKind, hrightKind⟩
      (hpaired.mono (fun _ => rfl) id)
  | .through hthrough hinner, hbare => by
    obtain ⟨ts, htakes, hts⟩ := hinner.spells hbare
    exact ⟨ts, htakes, hthrough.spells hts⟩

/-- Items that were read took tokens that spell them. -/
theorem ReadsItems.spelled {implied : Cursor → Prop} {levels : Nat} {items : List Item}
    {c c' : Cursor} {ns : List Node} :
    ReadsItems implied levels items c ns c' → c.Bare →
      ∃ ts, c.Takes ts c' ∧ Spelled Place.Spells items ts
  | .nil, _ => ⟨[], .nil _, .nil⟩
  | .word ht hw hitems, hbare => by
    obtain ⟨ts, htakes, hts⟩ := hitems.spelled (hbare.advance ht)
    exact ⟨_, .cons ht htakes, .word hw (hbare _ (List.mem_of_head? ht)) hts⟩
  | .part hn hitems, hbare => by
    obtain ⟨ts, htakes, hts⟩ := hn.spells hbare
    obtain ⟨us, htakes', hus⟩ := hitems.spelled (hbare.of_takes htakes)
    exact ⟨_, htakes.append htakes', .part hts hus⟩
  | .hole hmark hitems, hbare => by
    obtain ⟨t, ht, hkind⟩ := Cursor.exists_token hmark
    obtain ⟨ts, htakes, hts⟩ := hitems.spelled (hbare.advance ht)
    exact ⟨_, .cons ht htakes, .hole hkind hts⟩
  | .semicolon hmark hitems, hbare | .ended hmark hitems, hbare => by
    obtain ⟨t, ht, hkind⟩ := Cursor.exists_token hmark
    obtain ⟨ts, htakes, hts⟩ := hitems.spelled (hbare.advance ht)
    exact ⟨_, .cons ht htakes, .semicolon rfl hkind hts⟩
  | .implied _ _ hitems, hbare | .unended _ hitems, hbare | .sameLine _ hitems, hbare => by
    obtain ⟨ts, htakes, hts⟩ := hitems.spelled hbare
    exact ⟨ts, htakes, .nothing rfl hts⟩
end

end ScriptLint
