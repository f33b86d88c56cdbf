import ScriptLint.Proofs.Grammar.Phrase
import ScriptLint.Proofs.Grammar.Run

/-!
# Readings of tokens

`Reads implied levels place c n c'` says that the tokens between two cursors are written by the
rules as a node at a place, within a number of nesting levels. The node is the one that the parser
builds for them: it spans the tokens of its rule and its height is one more than that of its tallest
child.

The parser gives nothing but such nodes (`Grammar.program_reads`), so what holds of every reading
holds of every tree of a script.
-/

namespace ScriptLint

/-- The nesting levels that a form takes in a slot where it needs no parentheses. -/
def Slot.charge (s : Slot) (form : Form) : Nat :=
  if s.rank = 0 ∧ form = .sequenceExpression then 0
  else s.nests.toNat + if s.rank = 17 ∧ form = .newExpression true then 1 else 0

namespace Place

/-- The nesting levels that a form takes at a place where it needs no parentheses. -/
def charge : Place → Form → Nat
  | .statement _, _ => 1
  | .block, _ => 1
  | .construction, _ => 1
  | .expression s, form => s.charge form
  | _, _ => 0

/-- `p.Through q levels` says that what stands at `q` can stand at `p`, some levels deeper. -/
inductive Through : Place → Place → Nat → Prop where
  | element : Through .element (.statement false) 0
  | block (closed : Bool) : Through (.statement closed) .block 1

end Place

/-- Where the parser does without a terminator. -/
def Cursor.Implied (c : Cursor) : Prop := c.impliesTerminator = true

mutual
/-- `Reads implied levels place c n c'` says that the tokens from `c` to `c'` are read as the node
`n` at a place, within `levels` nesting levels. A terminator may be left out where `implied`
holds. -/
inductive Reads (implied : Cursor → Prop) : Nat → Place → Cursor → Node → Cursor → Prop where
  | plain {levels : Nat} {place : Place} {form : Form} {items : List Item} {c c' : Cursor}
      {children : List Node} :
      place.admits form = true → Phrase place form items →
      ReadsItems implied levels items c children c' →
      (form.isLink = true →
        (Node.build form ⟨c.here, c'.lastEnd⟩ children).height ≤ Parser.maxHeight) →
      Reads implied (levels + place.charge form) place c
        (Node.build form ⟨c.here, c'.lastEnd⟩ children) c'
  | enclosed {levels : Nat} {s : Slot} {c m : Cursor} {n : Node} :
      s.serves n.form = true → c.kind? = some (.punctuator .leftParen) →
      Reads implied levels .top c.advance n m → m.kind? = some (.punctuator .rightParen) →
      Reads implied (levels + s.nests.toNat) (.expression s) c n m.advance
  | through {levels cost : Nat} {place inner : Place} {c c' : Cursor} {n : Node} :
      place.Through inner cost → Reads implied levels inner c n c' →
      Reads implied (levels + cost) place c n c'

/-- `ReadsItems implied levels items c ns c'` says that the tokens from `c` to `c'` are read as the
pieces of a rule, whose parts are the nodes `ns`. -/
inductive ReadsItems (implied : Cursor → Prop) :
    Nat → List Item → Cursor → List Node → Cursor → Prop where
  | nil {levels : Nat} {c : Cursor} : ReadsItems implied levels [] c [] c
  | word {levels : Nat} {word : Word} {items : List Item} {c c' : Cursor} {t : Token}
      {ns : List Node} :
      c.rest.head? = some t → word.Matches t → ReadsItems implied levels items c.advance ns c' →
      ReadsItems implied levels (.word word :: items) c ns c'
  | part {levels : Nat} {place : Place} {items : List Item} {c m c' : Cursor} {n : Node}
      {ns : List Node} :
      Reads implied levels place c n m → ReadsItems implied levels items m ns c' →
      ReadsItems implied levels (.part place :: items) c (n :: ns) c'
  | hole {levels : Nat} {mark : Punctuator} {items : List Item} {c c' : Cursor}
      {ns : List Node} :
      c.kind? = some (.punctuator mark) → ReadsItems implied levels items c.advance ns c' →
      ReadsItems implied levels (.hole mark :: items) c
        (Node.build .emptyExpression ⟨c.here, c.here⟩ [] :: ns) c'
  | semicolon {levels : Nat} {items : List Item} {c c' : Cursor} {ns : List Node} :
      c.kind? = some (.punctuator .semicolon) → ReadsItems implied levels items c.advance ns c' →
      ReadsItems implied levels (.terminator :: items) c ns c'
  | implied {levels : Nat} {items : List Item} {c c' : Cursor} {ns : List Node} :
      c.kind? ≠ some (.punctuator .semicolon) → implied c →
      ReadsItems implied levels items c ns c' →
      ReadsItems implied levels (.terminator :: items) c ns c'
  | ended {levels : Nat} {items : List Item} {c c' : Cursor} {ns : List Node} :
      c.kind? = some (.punctuator .semicolon) → ReadsItems implied levels items c.advance ns c' →
      ReadsItems implied levels (.option :: items) c ns c'
  | unended {levels : Nat} {items : List Item} {c c' : Cursor} {ns : List Node} :
      c.kind? ≠ some (.punctuator .semicolon) → ReadsItems implied levels items c ns c' →
      ReadsItems implied levels (.option :: items) c ns c'
  | sameLine {levels : Nat} {items : List Item} {c c' : Cursor} {ns : List Node} :
      c.newlineBefore = false → ReadsItems implied levels items c ns c' →
      ReadsItems implied levels (.sameLine :: items) c ns c'
end

variable {implied : Cursor → Prop} {levels : Nat} {c m c' : Cursor} {n : Node}
  {ns others : List Node}

/-! ## The tokens of a reading -/

namespace Cursor

/-- `c.Takes ts c'` says that `c'` is the place behind the tokens `ts`, which come next at `c`. -/
structure Takes (c : Cursor) (ts : List Token) (c' : Cursor) : Prop where
  rest : c.rest = ts ++ c'.rest
  previous : c'.previous = ts.getLast?.or c.previous

theorem Takes.nil (c : Cursor) : c.Takes [] c := ⟨rfl, rfl⟩

/-- A token before others. -/
theorem Takes.cons {t : Token} {ts : List Token} (ht : c.rest.head? = some t)
    (h : c.advance.Takes ts c') : c.Takes (t :: ts) c' := by
  obtain ⟨before, rest⟩ := c
  cases rest with
  | nil => cases ht
  | cons u rest =>
    cases ht
    refine ⟨congrArg (t :: ·) h.rest, ?_⟩
    rw [h.previous, List.getLast?_cons]
    cases ts.getLast? <;> rfl

theorem Takes.single {t : Token} (ht : c.rest.head? = some t) : c.Takes [t] c.advance :=
  .cons ht (.nil _)

/-- Tokens behind other tokens. -/
theorem Takes.append {ts us : List Token} (h : c.Takes ts m) (hus : m.Takes us c') :
    c.Takes (ts ++ us) c' := by
  refine ⟨by rw [h.rest, hus.rest, List.append_assoc], ?_⟩
  rw [hus.previous, h.previous, List.getLast?_append, Option.or_assoc]

/-- The tokens between two cursors. -/
theorem Takes.unique {ts us : List Token} (h : c.Takes ts c') (hus : c.Takes us c') : ts = us :=
  List.append_cancel_right (h.rest.symm.trans hus.rest)

end Cursor

/-- Whether a piece of a rule has at least one token. -/
def Item.takesToken : Item → Bool
  | .word _ | .hole _ => true
  | .part place => place != .program
  | .terminator | .option | .sameLine => false

/-- Whether what stands at a place can be a part of something else: it is no program, and only where
it takes a nesting level an expression may have commas. -/
def Place.isInner : Place → Bool
  | .program => false
  | .expression s => s.rank != 0 || s.nests
  | _ => true

/-- Whether a piece of a rule, if it is a part, stands at a place of parts. -/
def Item.isInner : Item → Bool
  | .part place => place.isInner
  | _ => true

section Parts

variable {place : Place} {items : List Item}

theorem Item.isInner_followers (h : place.isInner = true) (count : Nat) :
    (Item.followers place count).all Item.isInner = true := by
  induction count with
  | zero => rfl
  | succ count ih => simp [Item.followers, Item.isInner, Item.mark, h, ih]

theorem Item.isInner_separated (h : place.isInner = true) (count : Nat) :
    (Item.separated place count).all Item.isInner = true := by
  cases count with
  | zero => rfl
  | succ count => simp [Item.separated, Item.isInner, Item.isInner_followers h, h]

theorem Item.isInner_parts (h : place.isInner = true) (count : Nat) :
    (Item.parts place count).all Item.isInner = true := by
  simp [Item.parts, Item.isInner, h]

theorem Clause.isInner {mark : Punctuator} {places : List Place} (h : Clause mark places items)
    (hplaces : ∀ place ∈ places, place.isInner = true) : items.all Item.isInner = true := by
  cases h with
  | hole => rfl
  | part hplace => simp [Item.isInner, Item.mark, hplaces _ hplace]

theorem Elements.isInner (h : Elements items) : items.all Item.isInner = true := by
  induction h with
  | nil => rfl
  | hole _ ih => simp [Item.isInner, ih]
  | last => rfl
  | value _ ih => simp [Item.isInner, Item.mark, Place.item, Place.isInner, Slot.item, ih]

end Parts

namespace Phrase

variable {place : Place} {form : Form} {items : List Item}

/-- Everything but a program starts with a token. -/
theorem exists_first (h : Phrase place form items) (hplace : place ≠ .program) :
    ∃ first others, items = first :: others ∧ first.takesToken = true := by
  cases h with
  | program => exact absurd rfl hplace
  | construction h => cases h <;> exact ⟨_, _, rfl, rfl⟩
  | new _ h => cases h <;> exact ⟨_, _, rfl, rfl⟩
  | _ => exact ⟨_, _, rfl, rfl⟩

/-- The parts of a rule stand at places of parts. -/
theorem isInner (h : Phrase place form items) : items.all Item.isInner = true := by
  cases h with
  | program count | switchCase count | switchDefault count => exact Item.isInner_parts rfl count
  | compoundStatement count =>
    rw [List.all_cons, List.all_append, Item.isInner_parts rfl]
    rfl
  | switchStatement _ count =>
    rw [List.all_cons, List.all_append, List.all_cons, List.all_append, Item.isInner_parts rfl]
    rfl
  | variableStatement | parameters | arguments =>
    rw [List.all_cons, List.all_append, Item.isInner_separated]
    · rfl
    · rfl
  | declarations _ count =>
    show (Item.separated (.definition false) (count + 1)).all Item.isInner = true
    exact Item.isInner_separated rfl _
  | forStatement _ hinit htest hupdate =>
    have hinit := hinit.isInner (by decide)
    have htest := htest.isInner (by decide)
    have hupdate := hupdate.isInner (by decide)
    simp [Item.mark, Item.keyword, Item.isInner, hinit, htest, hupdate, Place.isInner]
  | forInStatement _ hleft =>
    obtain rfl | rfl : _ = Place.declarations ∨ _ = Place.expression .loopTarget := by
      simpa using hleft
    · rfl
    · rfl
  | continueStatement _ label | breakStatement _ label => cases label <;> rfl
  | tryStatement _ hasHandler hasFinalizer => cases hasHandler <;> cases hasFinalizer <;> rfl
  | construction h => cases h <;> rfl
  | sequence s count =>
    simp [Item.isInner_followers, Item.isInner, Place.isInner, Place.item, Slot.item]
  | new _ h => cases h <;> rfl
  | binary | member | computedMember =>
    simp [Item.isInner, Place.isInner, Item.mark, Slot.object, Slot.first, Slot.later, Slot.plain,
      Place.top, Slot.top, Slot.whole]
  | function _ name => cases name <;> rfl
  | array _ h => simp [Item.mark, Item.isInner, h.isInner]
  | object _ count hending =>
    rw [List.all_cons, List.all_append, Item.isInner_separated rfl]
    cases hending <;> rfl
  | _ => rfl

/-- No part of a script is a program. -/
theorem program_notMem (h : Phrase place form items) : .part .program ∉ items := by
  intro hmem
  cases List.all_eq_true.1 h.isInner _ hmem

end Phrase

mutual
/-- A reading takes tokens, and at least one if it is not that of a program. -/
theorem Reads.takes {levels : Nat} {place : Place} {c c' : Cursor} {n : Node} :
    Reads implied levels place c n c' → ∃ ts, c.Takes ts c' ∧ (place ≠ .program → ts ≠ [])
  | .plain _ hphrase hitems _ => by
    obtain ⟨ts, htakes, hne⟩ := hitems.takes
    refine ⟨ts, htakes, fun hplace => ?_⟩
    obtain ⟨first, others, rfl, hfirst⟩ := hphrase.exists_first hplace
    exact hne hfirst
  | .enclosed _ hopen hinner hclose => by
    obtain ⟨ts, htakes, _⟩ := hinner.takes
    obtain ⟨left, hleft, _⟩ := Cursor.exists_token hopen
    obtain ⟨right, hright, _⟩ := Cursor.exists_token hclose
    exact ⟨_, .cons hleft (htakes.append (.single hright)), fun _ => List.cons_ne_nil _ _⟩
  | .through hthrough hinner => by
    obtain ⟨ts, htakes, hne⟩ := hinner.takes
    exact ⟨ts, htakes, fun _ => hne (by cases hthrough <;> nofun)⟩

/-- The pieces of a rule take tokens, and at least one if the first piece does. -/
theorem ReadsItems.takes {levels : Nat} {items : List Item} {c c' : Cursor} {ns : List Node} :
    ReadsItems implied levels items c ns c' →
      ∃ ts, c.Takes ts c' ∧ (items.head?.any Item.takesToken = true → ts ≠ [])
  | .nil => ⟨[], .nil _, nofun⟩
  | .word ht _ hitems => by
    obtain ⟨ts, htakes, _⟩ := hitems.takes
    exact ⟨_, .cons ht htakes, fun _ => List.cons_ne_nil _ _⟩
  | .part hn hitems => by
    -- a part other than a program has a token of its own
    obtain ⟨ts, htakes, hne⟩ := hn.takes
    obtain ⟨us, htakes', _⟩ := hitems.takes
    refine ⟨_, htakes.append htakes', fun hplace => ?_⟩
    have hne := hne (bne_iff_ne.1 hplace)
    simp [hne]
  | .hole hmark hitems => by
    obtain ⟨ts, htakes, _⟩ := hitems.takes
    obtain ⟨t, ht, _⟩ := Cursor.exists_token hmark
    exact ⟨_, .cons ht htakes, fun _ => List.cons_ne_nil _ _⟩
  | .semicolon hmark hitems => by
    obtain ⟨ts, htakes, _⟩ := hitems.takes
    obtain ⟨t, ht, _⟩ := Cursor.exists_token hmark
    exact ⟨_, .cons ht htakes, fun _ => List.cons_ne_nil _ _⟩
  | .implied _ _ hitems => by
    obtain ⟨ts, htakes, _⟩ := hitems.takes
    exact ⟨ts, htakes, nofun⟩
  | .ended hmark hitems => by
    obtain ⟨ts, htakes, _⟩ := hitems.takes
    obtain ⟨t, ht, _⟩ := Cursor.exists_token hmark
    exact ⟨_, .cons ht htakes, fun _ => List.cons_ne_nil _ _⟩
  | .unended _ hitems => by
    obtain ⟨ts, htakes, _⟩ := hitems.takes
    exact ⟨ts, htakes, nofun⟩
  | .sameLine _ hitems => by
    obtain ⟨ts, htakes, _⟩ := hitems.takes
    exact ⟨ts, htakes, nofun⟩
end

/-- Taking a token leaves one token less. -/
theorem Cursor.length_advance {t : Token} (ht : c.rest.head? = some t) :
    c.advance.rest.length + 1 = c.rest.length := by
  rw [(Cursor.Takes.single ht).rest, List.length_append, List.length_singleton, Nat.add_comm]

/-- A reading leaves fewer tokens. -/
theorem Reads.length_lt {place : Place} (h : Reads implied levels place c n c')
    (hplace : place ≠ .program) : c'.rest.length < c.rest.length := by
  obtain ⟨ts, htakes, hne⟩ := h.takes
  have hpos := List.length_pos_iff.2 (hne hplace)
  rw [htakes.rest, List.length_append]
  omega

/-- A reading starts where tokens are left. -/
theorem Reads.isEmpty_rest {place : Place} (h : Reads implied levels place c n c')
    (hplace : place ≠ .program) : c.rest.isEmpty = false := by
  have hlength := h.length_lt hplace
  rw [List.isEmpty_eq_false_iff]
  intro hnil
  simp [hnil] at hlength

/-- Every node of a rule takes a token. -/
theorem ReadsItems.length_le {items : List Item} (h : ReadsItems implied levels items c ns c')
    (hitems : items.all Item.isInner = true) :
    ns.length + c'.rest.length ≤ c.rest.length := by
  induction items generalizing c ns with
  | nil =>
    cases h
    simp
  | cons item items ih =>
    rw [List.all_cons, Bool.and_eq_true] at hitems
    obtain ⟨hitem, hitems'⟩ := hitems
    cases h with
    | word ht _ hrest =>
      have hadvance := Cursor.length_advance ht
      have hlength := ih hrest hitems'
      omega
    | @part _ place _ _ _ _ n _ hn hrest =>
      have hplace : place ≠ .program := by
        rintro rfl
        cases hitem
      have hlt := hn.length_lt hplace
      have hlength := ih hrest hitems'
      rw [List.length_cons]
      omega
    | hole hmark hrest =>
      obtain ⟨t, ht, _⟩ := Cursor.exists_token hmark
      have hadvance := Cursor.length_advance ht
      have hlength := ih hrest hitems'
      rw [List.length_cons]
      omega
    | semicolon hmark hrest | ended hmark hrest =>
      obtain ⟨t, ht, _⟩ := Cursor.exists_token hmark
      have hadvance := Cursor.length_advance ht
      have hlength := ih hrest hitems'
      omega
    | implied _ _ hrest | unended _ hrest | sameLine _ hrest => exact ih hrest hitems'

mutual
/-- A reading does not need all the levels there are. -/
theorem Reads.mono {levels levels' : Nat} {place : Place} {c c' : Cursor} {n : Node} :
    Reads implied levels place c n c' → levels ≤ levels' → Reads implied levels' place c n c'
  | .plain hadmits hphrase hitems hlink, hle => by
    obtain ⟨more, rfl⟩ := Nat.exists_eq_add_of_le hle
    rw [Nat.add_right_comm]
    exact .plain hadmits hphrase (hitems.mono (Nat.le_add_right _ more)) hlink
  | .enclosed hserves hopen hinner hclose, hle => by
    obtain ⟨more, rfl⟩ := Nat.exists_eq_add_of_le hle
    rw [Nat.add_right_comm]
    exact .enclosed hserves hopen (hinner.mono (Nat.le_add_right _ more)) hclose
  | .through hthrough hinner, hle => by
    obtain ⟨more, rfl⟩ := Nat.exists_eq_add_of_le hle
    rw [Nat.add_right_comm]
    exact .through hthrough (hinner.mono (Nat.le_add_right _ more))

theorem ReadsItems.mono {levels levels' : Nat} {items : List Item} {c c' : Cursor}
    {ns : List Node} :
    ReadsItems implied levels items c ns c' → levels ≤ levels' →
      ReadsItems implied levels' items c ns c'
  | .nil, _ => .nil
  | .word ht hw hitems, hle => .word ht hw (hitems.mono hle)
  | .part hn hitems, hle => .part (hn.mono hle) (hitems.mono hle)
  | .hole hmark hitems, hle => .hole hmark (hitems.mono hle)
  | .semicolon hmark hitems, hle => .semicolon hmark (hitems.mono hle)
  | .implied hkind himplied hitems, hle => .implied hkind himplied (hitems.mono hle)
  | .ended hkind hitems, hle => .ended hkind (hitems.mono hle)
  | .unended hkind hitems, hle => .unended hkind (hitems.mono hle)
  | .sameLine hline hitems, hle => .sameLine hline (hitems.mono hle)
end

namespace ReadsItems

/-- Pieces behind other pieces. -/
theorem append {items after : List Item} (h : ReadsItems implied levels items c ns m)
    (hafter : ReadsItems implied levels after m others c') :
    ReadsItems implied levels (items ++ after) c (ns ++ others) c' := by
  induction items generalizing c ns with
  | nil =>
    cases h
    exact hafter
  | cons item items ih =>
    cases h with
    | word ht hw hrest => exact .word ht hw (ih hrest)
    | part hn hrest => exact .part hn (ih hrest)
    | hole hmark hrest => exact .hole hmark (ih hrest)
    | semicolon hkind hrest => exact .semicolon hkind (ih hrest)
    | implied hkind himplied hrest => exact .implied hkind himplied (ih hrest)
    | ended hkind hrest => exact .ended hkind (ih hrest)
    | unended hkind hrest => exact .unended hkind (ih hrest)
    | sameLine hline hrest => exact .sameLine hline (ih hrest)

/-- Pieces without parts behind other pieces. -/
theorem append_words {items after : List Item} (h : ReadsItems implied levels items c ns m)
    (hafter : ReadsItems implied levels after m [] c') :
    ReadsItems implied levels (items ++ after) c ns c' := by
  have happend := h.append hafter
  rwa [List.append_nil] at happend

/-- A punctuator that the rule names. -/
theorem mark {mark : Punctuator} {items : List Item}
    (hkind : c.kind? = some (.punctuator mark))
    (h : ReadsItems implied levels items c.advance ns c') :
    ReadsItems implied levels (.mark mark :: items) c ns c' := by
  obtain ⟨t, ht, hk⟩ := Cursor.exists_token hkind
  exact .word ht hk h

/-- A reserved word that the rule names. -/
theorem keyword {keyword : Keyword} {items : List Item}
    (hkind : c.kind? = some (.keyword keyword))
    (h : ReadsItems implied levels items c.advance ns c') :
    ReadsItems implied levels (.keyword keyword :: items) c ns c' := by
  obtain ⟨t, ht, hk⟩ := Cursor.exists_token hkind
  exact .word ht hk h

/-- A node alone. -/
theorem single {place : Place} (h : Reads implied levels place c n c') :
    ReadsItems implied levels [.part place] c [n] c' :=
  .part h .nil

/-- The `;` behind a statement, or nothing where it is implied. -/
theorem terminator {u : Unit} (h : Parser.terminator c = .ok u c') :
    ReadsItems Cursor.Implied levels [.terminator] c [] c' := by
  obtain ⟨hkind, rfl⟩ | ⟨hkind, himplied, rfl⟩ := Parser.terminator_eq_ok.1 h
  · exact .semicolon hkind .nil
  · exact .implied hkind himplied .nil

/-! How pieces were read, one piece at a time. -/

theorem nil_iff : ReadsItems implied levels [] c ns c' ↔ ns = [] ∧ c = c' := by
  constructor
  · rintro ⟨⟩
    exact ⟨rfl, rfl⟩
  · rintro ⟨rfl, rfl⟩
    exact .nil

theorem word_iff {word : Word} {items : List Item} :
    ReadsItems implied levels (.word word :: items) c ns c' ↔
      ∃ t, c.rest.head? = some t ∧ word.Matches t ∧
        ReadsItems implied levels items c.advance ns c' := by
  constructor
  · intro h
    cases h with
    | word ht hw hrest => exact ⟨_, ht, hw, hrest⟩
  · rintro ⟨t, ht, hw, hrest⟩
    exact .word ht hw hrest

theorem mark_iff {mark : Punctuator} {items : List Item} :
    ReadsItems implied levels (.mark mark :: items) c ns c' ↔
      c.kind? = some (.punctuator mark) ∧ ReadsItems implied levels items c.advance ns c' := by
  constructor
  · intro h
    obtain ⟨t, ht, hw, hrest⟩ := word_iff.1 h
    exact ⟨hw ▸ Cursor.kind?_of_head ht, hrest⟩
  · rintro ⟨hkind, hrest⟩
    exact .mark hkind hrest

theorem keyword_iff {keyword : Keyword} {items : List Item} :
    ReadsItems implied levels (.keyword keyword :: items) c ns c' ↔
      c.kind? = some (.keyword keyword) ∧ ReadsItems implied levels items c.advance ns c' := by
  constructor
  · intro h
    obtain ⟨t, ht, hw, hrest⟩ := word_iff.1 h
    exact ⟨hw ▸ Cursor.kind?_of_head ht, hrest⟩
  · rintro ⟨hkind, hrest⟩
    exact .keyword hkind hrest

theorem part_iff {place : Place} {items : List Item} :
    ReadsItems implied levels (.part place :: items) c ns c' ↔
      ∃ n others m, ns = n :: others ∧ Reads implied levels place c n m ∧
        ReadsItems implied levels items m others c' := by
  constructor
  · intro h
    cases h with
    | part hn hrest => exact ⟨_, _, _, rfl, hn, hrest⟩
  · rintro ⟨n, others, m, rfl, hn, hrest⟩
    exact .part hn hrest

theorem hole_iff {mark : Punctuator} {items : List Item} :
    ReadsItems implied levels (.hole mark :: items) c ns c' ↔
      ∃ others, ns = Node.build .emptyExpression ⟨c.here, c.here⟩ [] :: others ∧
        c.kind? = some (.punctuator mark) ∧
        ReadsItems implied levels items c.advance others c' := by
  constructor
  · intro h
    cases h with
    | hole hkind hrest => exact ⟨_, rfl, hkind, hrest⟩
  · rintro ⟨others, rfl, hkind, hrest⟩
    exact .hole hkind hrest

theorem sameLine_iff {items : List Item} :
    ReadsItems implied levels (.sameLine :: items) c ns c' ↔
      c.newlineBefore = false ∧ ReadsItems implied levels items c ns c' := by
  constructor
  · intro h
    cases h with
    | sameLine hline hrest => exact ⟨hline, hrest⟩
  · rintro ⟨hline, hrest⟩
    exact .sameLine hline hrest

theorem append_iff {items after : List Item} :
    ReadsItems implied levels (items ++ after) c ns c' ↔
      ∃ first others m, ns = first ++ others ∧ ReadsItems implied levels items c first m ∧
        ReadsItems implied levels after m others c' := by
  constructor
  · intro h
    induction items generalizing c ns with
    | nil => exact ⟨[], ns, c, rfl, .nil, h⟩
    | cons item items ih =>
      cases h with
      | word ht hw hrest =>
        obtain ⟨first, others, m, rfl, hfirst, hothers⟩ := ih hrest
        exact ⟨first, others, m, rfl, .word ht hw hfirst, hothers⟩
      | part hn hrest =>
        obtain ⟨first, others, m, rfl, hfirst, hothers⟩ := ih hrest
        exact ⟨_ :: first, others, m, rfl, .part hn hfirst, hothers⟩
      | hole hmark hrest =>
        obtain ⟨first, others, m, rfl, hfirst, hothers⟩ := ih hrest
        exact ⟨_ :: first, others, m, rfl, .hole hmark hfirst, hothers⟩
      | semicolon hkind hrest =>
        obtain ⟨first, others, m, rfl, hfirst, hothers⟩ := ih hrest
        exact ⟨first, others, m, rfl, .semicolon hkind hfirst, hothers⟩
      | implied hkind himplied hrest =>
        obtain ⟨first, others, m, rfl, hfirst, hothers⟩ := ih hrest
        exact ⟨first, others, m, rfl, .implied hkind himplied hfirst, hothers⟩
      | ended hkind hrest =>
        obtain ⟨first, others, m, rfl, hfirst, hothers⟩ := ih hrest
        exact ⟨first, others, m, rfl, .ended hkind hfirst, hothers⟩
      | unended hkind hrest =>
        obtain ⟨first, others, m, rfl, hfirst, hothers⟩ := ih hrest
        exact ⟨first, others, m, rfl, .unended hkind hfirst, hothers⟩
      | sameLine hline hrest =>
        obtain ⟨first, others, m, rfl, hfirst, hothers⟩ := ih hrest
        exact ⟨first, others, m, rfl, .sameLine hline hfirst, hothers⟩
  · rintro ⟨first, others, m, rfl, hfirst, hothers⟩
    exact hfirst.append hothers

end ReadsItems

/-! ## Changing the slot -/

section Slots

variable {s s' : Slot}

theorem Slot.admits_iff {form : Form} :
    s.admits form = true ↔
      s.rank ≤ form.rank ∧ (s.allowIn = true ∨ form ≠ .binaryExpression .isIn) ∧
        (s.opening = true → form.startsLikeStatement = false) ∧ s.serves form = true := by
  cases ho : s.opening <;> simp [Slot.admits, ho, and_assoc]

/-- The phrases of an expression depend on its slot only through the slots of its parts. -/
theorem Phrase.reslot {form : Form} {items : List Item} (h : Phrase (.expression s) form items)
    (hin : s'.allowIn = s.allowIn) (hopening : s'.opening = s.opening)
    (hobject : s'.object = s.object) : Phrase (.expression s') form items := by
  have hfirst : s.first = s'.first := by
    funext rank
    rw [Slot.first, Slot.first, hin, hopening]
  have hlater : s.later = s'.later := by
    funext rank
    rw [Slot.later, Slot.later, hin]
  have hstored : s.stored = s'.stored := by
    rw [Slot.stored, Slot.stored, hin, hopening]
  cases h with
  | sequence _ count =>
    rw [← hin, ← hopening]
    exact .sequence s' count
  | assignment _ operator =>
    rw [← hin, hstored]
    exact .assignment s' operator
  | conditional =>
    rw [← hin, hfirst]
    exact .conditional s'
  | binary _ operator =>
    rw [hfirst, hlater]
    exact .binary s' operator
  | unary _ operator => exact .unary s' operator
  | update _ operator => exact .update s' operator
  | updated _ operator =>
    rw [hstored]
    exact .updated s' operator
  | new _ h => exact .new s' h
  | call =>
    rw [hfirst]
    exact .call s'
  | member =>
    rw [← hobject]
    exact .member s'
  | computedMember =>
    rw [← hobject]
    exact .computedMember s'
  | function _ name => exact .function s' name
  | array _ h => exact .array s' h
  | object _ count h => exact .object s' count h
  | this => exact .this s'
  | identifier _ name => exact .identifier s' name
  | literal _ value => exact .literal s' value

/-- A form that is no sequence takes the level of its slot, except for a construction under
`new`. -/
theorem Slot.charge_eq {form : Form} (hrank : s.rank ≤ 16) (hform : form.rank ≠ 0) :
    s.charge form = s.nests.toNat := by
  have hne : form ≠ .sequenceExpression := by
    rintro rfl
    exact hform rfl
  have h17 : s.rank ≠ 17 := by omega
  simp [Slot.charge, hne, h17]

/-- An expression is read in a slot with no parentheses around it. -/
def ReadsBare (implied : Cursor → Prop) (levels : Nat) (s : Slot) (c : Cursor) (form : Form)
    (n : Node) (c' : Cursor) : Prop :=
  ∃ items ns, s.admits form = true ∧ Phrase (.expression s) form items ∧
    ReadsItems implied levels items c ns c' ∧ n = Node.build form ⟨c.here, c'.lastEnd⟩ ns ∧
    (form.isLink = true → n.height ≤ Parser.maxHeight)

/-- An expression is read in parentheses or without them. -/
theorem Reads.bare_or_enclosed (h : Reads implied levels (.expression s) c n c') :
    (∃ inner form, levels = inner + s.charge form ∧ ReadsBare implied inner s c form n c') ∨
      ∃ inner m, levels = inner + s.nests.toNat ∧ c.kind? = some (.punctuator .leftParen) ∧
        Reads implied inner .top c.advance n m ∧ m.kind? = some (.punctuator .rightParen) ∧
        m.advance = c' := by
  cases h with
  | @plain inner _ form items _ _ ns hform hphrase hitems hlink =>
    exact .inl ⟨inner, form, rfl, items, ns, hform, hphrase, hitems, rfl, hlink⟩
  | @enclosed inner _ _ m _ _ hopen hinner hclose =>
    exact .inr ⟨inner, m, rfl, hopen, hinner, hclose, rfl⟩
  | through hthrough _ => cases hthrough

/-- An expression that was read in one slot was read in another as well, up to the levels of the
slots, unless it stands there without parentheses and the other slot asks for them. -/
theorem Reads.reslot_or (h : Reads implied levels (.expression s) c n c') (s' : Slot)
    (hserves : s'.serves n.form = true) (hrank : s.rank ≤ 16) (hrank' : s'.rank ≤ 16)
    (hin : s'.allowIn = s.allowIn) (hopening : s'.opening = s.opening) :
    (∃ inner, levels = inner + s.nests.toNat ∧
      Reads implied (inner + s'.nests.toNat) (.expression s') c n c') ∨
    ∃ inner form, levels = inner + s.charge form ∧ (s'.admits form = true → form.rank = 0) ∧
      ReadsBare implied inner s c form n c' := by
  cases h with
  | @plain inner _ form items _ _ ns hform hphrase hitems hlink =>
    -- a sequence is set apart because it takes its level in some slots and not in others
    by_cases hbare : s'.admits form = true → form.rank = 0
    · exact .inr ⟨inner, form, rfl, hbare, items, ns, hform, hphrase, hitems, rfl, hlink⟩
    obtain ⟨hform', hne⟩ := Classical.not_imp.1 hbare
    have hobject : s'.object = s.object := by
      rw [Slot.object, Slot.object, Slot.first, Slot.first, hin, hopening,
        Nat.max_eq_left hrank, Nat.max_eq_left hrank']
    have hcharge : (Place.expression s).charge form = s.nests.toNat := Slot.charge_eq hrank hne
    have hcharge' : (Place.expression s').charge form = s'.nests.toNat :=
      Slot.charge_eq hrank' hne
    refine .inl ⟨inner, by rw [hcharge], ?_⟩
    rw [← hcharge']
    exact .plain hform' (hphrase.reslot hin hopening hobject) hitems hlink
  | enclosed _ hopen hinner hclose => exact .inl ⟨_, rfl, .enclosed hserves hopen hinner hclose⟩
  | through hthrough _ => cases hthrough

/-- An expression that was read in one slot was read in another as well, if the other one admits
it. The two readings differ by the levels of the slots. -/
theorem Reads.reslot (h : Reads implied levels (.expression s) c n c')
    (hadmits : s.admits n.form = true → s'.admits n.form = true ∧ n.form.rank ≠ 0)
    (hserves : s'.serves n.form = true) (hrank : s.rank ≤ 16) (hrank' : s'.rank ≤ 16)
    (hin : s'.allowIn = s.allowIn) (hopening : s'.opening = s.opening) :
    ∃ inner, levels = inner + s.nests.toNat ∧
      Reads implied (inner + s'.nests.toNat) (.expression s') c n c' := by
  obtain hread | ⟨inner, form, _, hbare, items, ns, hform, _, _, rfl, _⟩ :=
    h.reslot_or s' hserves hrank hrank' hin hopening
  · exact hread
  · obtain ⟨hform', hne⟩ := hadmits hform
    exact absurd (hbare hform') hne

/-- An expression without commas is an expression. -/
theorem Reads.whole {allowIn opening : Bool}
    (h : Reads implied levels (.expression (.item allowIn opening)) c n c') :
    Reads implied levels (.expression (.whole allowIn opening)) c n c' := by
  have hadmits : (Slot.item allowIn opening).admits n.form = true →
      (Slot.whole allowIn opening).admits n.form = true ∧ n.form.rank ≠ 0 := by
    intro h
    obtain ⟨hrank, hin, hopening, _⟩ := Slot.admits_iff.1 h
    exact ⟨Slot.admits_iff.2 ⟨Nat.zero_le _, hin, hopening, rfl⟩, Nat.ne_of_gt hrank⟩
  obtain ⟨_, rfl, hwhole⟩ := h.reslot hadmits rfl (Nat.le_add_left 1 15) (Nat.zero_le 16) rfl rfl
  exact hwhole

end Slots

end ScriptLint
