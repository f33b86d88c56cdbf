import ScriptLint.Proofs.Grammar.Follow
import ScriptLint.Proofs.Grammar.StatementReading
import ScriptLint.Proofs.Token.Partition

/-!
# The last token

Which phrases can end with a `;`. Only statements can, and of these not the ones that end with a
brace (`Reads.not_behindSemicolon`). Everything else ends with another mark, with a word or with a
part that does.

A `;` could still be the name behind a dot if it carried a name. So punctuators must carry no value,
which those of a lexer do not (`Lexer.isBare_of_mem_tokenize`).
-/

namespace ScriptLint

/-- A punctuator carries no value. -/
def Token.isBare (t : Token) : Bool :=
  match t.kind with
  | .punctuator _ => t.value == .none
  | _ => true

/-- A token is bare if it is no punctuator with a value. -/
theorem Token.isBare_iff {t : Token} :
    t.isBare = true ↔ ∀ mark, t.kind = .punctuator mark → t.value = .none := by
  unfold Token.isBare
  split
  · next mark hkind =>
    rw [beq_iff_eq]
    exact ⟨fun hvalue _ _ => hvalue, fun h => h mark hkind⟩
  · next hkind => exact ⟨fun _ mark h => absurd h (hkind mark), fun _ => rfl⟩

/-- A lexer gives punctuators no value. -/
theorem Lexer.isBare_of_mem_tokenize {lexer : Lexer} {t : Token} (h : t ∈ lexer.tokenize.1) :
    t.isBare = true := by
  rw [Lexer.tokenize_eq] at h
  obtain ⟨piece, hpiece, hmade⟩ := List.mem_filterMap.1 (List.mem_filter.1 h).1
  have hfaithful := (pieces_faithful lexer.position lexer.rest piece hpiece).2
  rw [Piece.Faithful, Sum.getLeft?_eq_some_iff.1 hmade] at hfaithful
  refine Token.isBare_iff.2 fun mark hkind => ?_
  have hspells : t.kind.Spells piece.text t.value := hfaithful
  rw [hkind] at hspells
  exact hspells.1

/-- The token before the place is a `;`. -/
def Cursor.BehindSemicolon (c : Cursor) : Prop :=
  c.previous.map Token.kind = some (.punctuator .semicolon)

/-- Whether what stands at a place never ends with a `;`. -/
def Place.lacksSemicolon : Place → Bool
  | .program | .element | .statement _ | .switchCase => false
  | _ => true

/-- Whether a statement of the form never ends with a `;`. -/
def Form.lacksSemicolon : Form → Bool
  | .compoundStatement | .switchStatement | .tryStatement _ _ | .functionDeclaration _ => true
  | _ => false

/-- Whether a piece of a rule takes tokens of which the last is no `;`. -/
def Item.lacksSemicolon : Item → Bool
  | .word w => w != .mark .semicolon
  | .part place => place.lacksSemicolon
  | _ => false

/-! ## The last piece of a rule -/

/-- The last follower of a list is one of its members. -/
theorem Item.getLast?_followers (place : Place) (count : Nat) :
    (Item.followers place (count + 1)).getLast? = some (.part place) := by
  induction count with
  | zero => rfl
  | succ count ih =>
    rw [Item.followers, List.getLast?_cons_cons]
    show (Item.part place :: Item.followers place (count + 1)).getLast? = _
    rw [List.getLast?_cons, ih]
    rfl

/-- A list that is not empty ends with one of its members. -/
theorem Item.getLast?_separated (place : Place) (count : Nat) :
    (Item.separated place (count + 1)).getLast? = some (.part place) := by
  cases count with
  | zero => rfl
  | succ count =>
    rw [Item.separated, List.getLast?_cons, Item.getLast?_followers]
    rfl

/-- The last piece of a phrase that does not end with a `;`. -/
theorem Phrase.lacksSemicolon {place : Place} {form : Form} {items : List Item}
    (h : Phrase place form items) (hlacks : (place.lacksSemicolon || form.lacksSemicolon) = true) :
    items.getLast?.any Item.lacksSemicolon = true := by
  cases h with
  | compoundStatement | parameters | arguments | array | object | switchStatement =>
    simp [List.getLast?_cons, List.getLast?_append, Item.lacksSemicolon, Item.mark]
  | declarations | sequence =>
    simp [List.getLast?_cons, Item.getLast?_separated, Item.getLast?_followers, Item.lacksSemicolon,
      Place.lacksSemicolon, Place.item]
  | tryStatement _ hasHandler hasFinalizer =>
    cases hasHandler <;> cases hasFinalizer <;> rfl
  | construction h | new _ h => cases h <;> rfl
  | function _ name => cases name <;> rfl
  | _ => first | rfl | cases hlacks

/-! ## The last token of a reading -/

/-- A bare token that is what a rule asks for is a `;` only if that is what the rule asks for. -/
theorem Word.Matches.kind_ne {w : Word} {t : Token} (h : w.Matches t) (hbare : t.isBare = true)
    (hlacks : (Item.word w).lacksSemicolon = true) : t.kind ≠ .punctuator .semicolon := by
  intro hkind
  have hvalue : t.value = .none := Token.isBare_iff.1 hbare .semicolon hkind
  cases w with
  | mark m =>
    rw [Word.Matches, hkind] at h
    cases h
    cases hlacks
  | keyword k =>
    rw [Word.Matches, hkind] at h
    cases h
  | name x =>
    rw [Token.kind_of_identifier? h] at hkind
    cases hkind
  | literal value =>
    rw [Word.Matches, Token.literal?, hkind] at h
    cases h
  | key x =>
    have hkey := h.1
    rw [Token.propertyKey?, Token.propertyName?, hvalue] at hkey
    cases hkey
  | member x =>
    rw [Word.Matches, Token.propertyName?, hvalue] at h
    cases h
  | declaration | binary | assign | unary | update =>
    rw [Word.Matches, hkind] at h
    cases h

namespace Cursor

/-- The punctuators that come carry no value. -/
def Bare (c : Cursor) : Prop := ∀ t ∈ c.rest, t.isBare = true

variable {c c' : Cursor} {ts : List Token} {t : Token}

/-- The tokens that are left are bare if all are. -/
theorem Bare.of_takes (h : c.Bare) (htakes : c.Takes ts c') : c'.Bare := by
  intro t ht
  refine h t ?_
  rw [htakes.rest]
  exact List.mem_append_right ts ht

theorem Bare.advance (h : c.Bare) (ht : c.rest.head? = some t) : c.advance.Bare :=
  h.of_takes (.single ht)

/-- Behind a token the last one is that token. -/
theorem behindSemicolon_advance (ht : c.rest.head? = some t) :
    c.advance.BehindSemicolon ↔ t.kind = .punctuator .semicolon := by
  have hprevious := (Takes.single ht).previous
  rw [BehindSemicolon, hprevious]
  exact Option.some_inj

/-- Behind a token of another kind is not behind a `;`. -/
theorem not_behindSemicolon_advance {kind : TokenKind} (h : c.kind? = some kind)
    (hne : kind ≠ .punctuator .semicolon) : ¬ c.advance.BehindSemicolon := by
  obtain ⟨t, ht, rfl⟩ := exists_token h
  rwa [behindSemicolon_advance ht]

end Cursor

/-- The last of some pieces is the first one if there are no others. -/
theorem Item.last_cases {item : Item} {items : List Item}
    (h : (item :: items).getLast?.any Item.lacksSemicolon = true) :
    (items = [] ∧ item.lacksSemicolon = true) ∨
      items.getLast?.any Item.lacksSemicolon = true := by
  cases items with
  | nil => exact .inl ⟨rfl, h⟩
  | cons next others =>
    rw [List.getLast?_cons_cons] at h
    exact .inr h

mutual
/-- Only statements are read up to a `;`. -/
theorem Reads.not_behindSemicolon {implied : Cursor → Prop} {levels : Nat} {place : Place}
    {c c' : Cursor} {n : Node} :
    Reads implied levels place c n c' → (place.lacksSemicolon || n.form.lacksSemicolon) = true →
      c.Bare → ¬ c'.BehindSemicolon
  | .plain _ hphrase hitems _, hlacks, hbare =>
    hitems.not_behindSemicolon (hphrase.lacksSemicolon hlacks) hbare
  | .enclosed _ _ _ hclose, _, _ => Cursor.not_behindSemicolon_advance hclose (by decide)
  | .through hthrough hinner, hlacks, hbare => by
    refine hinner.not_behindSemicolon ?_ hbare
    cases hthrough with
    | element => exact hlacks
    | block => rfl

/-- Items whose last one does not end with a `;` do not. -/
theorem ReadsItems.not_behindSemicolon {implied : Cursor → Prop} {levels : Nat} {items : List Item}
    {c c' : Cursor} {ns : List Node} :
    ReadsItems implied levels items c ns c' → items.getLast?.any Item.lacksSemicolon = true →
      c.Bare → ¬ c'.BehindSemicolon
  | .nil, hlast, _ => nomatch hlast
  | .word ht hw hitems, hlast, hbare => by
    obtain ⟨rfl, hlacks⟩ | hlast := Item.last_cases hlast
    · cases hitems
      rw [Cursor.behindSemicolon_advance ht]
      exact hw.kind_ne (hbare _ (List.mem_of_head? ht)) hlacks
    · exact hitems.not_behindSemicolon hlast (hbare.advance ht)
  | .part hn hitems, hlast, hbare => by
    have hpart := fun hlacks => hn.not_behindSemicolon hlacks hbare
    obtain ⟨rfl, hlacks⟩ | hlast := Item.last_cases hlast
    · cases hitems
      exact hpart (Bool.or_eq_true_iff.2 (.inl hlacks))
    · obtain ⟨ts, htakes, -⟩ := hn.takes
      exact hitems.not_behindSemicolon hlast (hbare.of_takes htakes)
  | .hole hmark hitems, hlast, hbare | .semicolon hmark hitems, hlast, hbare
  | .ended hmark hitems, hlast, hbare => by
    obtain ⟨-, ⟨⟩⟩ | hlast := Item.last_cases hlast
    obtain ⟨t, ht, -⟩ := Cursor.exists_token hmark
    exact hitems.not_behindSemicolon hlast (hbare.advance ht)
  | .implied _ _ hitems, hlast, hbare | .unended _ hitems, hlast, hbare
  | .sameLine _ hitems, hlast, hbare => by
    obtain ⟨-, ⟨⟩⟩ | hlast := Item.last_cases hlast
    exact hitems.not_behindSemicolon hlast hbare
end

end ScriptLint
