import ScriptLint.Proofs.Grammar.StatementReading
import ScriptLint.Proofs.Tree.Unlocated

/-!
# Parsers that do the same

A production may be run on one script and on another, or with one rule for the end of a statement
and with another. To compare such runs once for the whole grammar, the grammar is described here by
what its productions look at. `Uniform` holds of a family of parsers that are built alike from the
steps of the grammar: they look at the next token but not at its place, they take it, they note
places without looking into them, they test for a line break at two places only, and they end
statements. A comparison of runs is then an induction over these steps and does not name a
production.

Two things are kept track of, because a `;` that is put into a script must not be seen too early. A
parser *takes* if it begins with the next token. It is *free* if a `;` in front of what follows it
would have been as good.
-/

namespace ScriptLint

/-- The tokens that take part in the grammar. -/
def significant (tokens : List Token) : List Token := tokens.filter fun t => !t.isTrivia

/-- The next token without its place. -/
def Cursor.sight (c : Cursor) : Option Token := c.rest.head?.map Token.unlocated

theorem Cursor.kind?_eq (c : Cursor) : c.kind? = c.sight.map Token.kind := by
  rw [sight, Option.map_map, Token.kind_comp_unlocated, kind?]

theorem Cursor.exists_sight {c : Cursor} {kind : TokenKind} (h : c.kind? = some kind) :
    ∃ t, c.sight = some t ∧ t.kind = kind :=
  Option.map_eq_some_iff.1 (c.kind?_eq ▸ h)

theorem Cursor.isEmpty_eq (c : Cursor) : c.rest.isEmpty = c.sight.isNone := by
  rw [sight]
  cases c.rest <;> rfl

/-- What a token means is not in its place, so it is seen from where the token is not. -/
theorem Cursor.sight_bind (c : Cursor) {α : Type} {meaning : Token → Option α}
    (hmeaning : ∀ t : Token, meaning t.unlocated = meaning t) :
    c.sight.bind meaning = c.rest.head?.bind meaning := by
  rw [sight]
  cases c.rest.head? with
  | none => rfl
  | some t => exact hmeaning t

theorem Parser.name?_eq (c : Cursor) :
    Parser.name? c = match c.sight.bind Token.identifier? with
      | some x => .ok (some x) c.advance
      | none => .ok none c := by
  rw [name?, peek?_bind, c.sight_bind (fun _ => rfl)]
  cases c.rest.head?.bind Token.identifier? <;> rfl

theorem isSome_of_kind {s : Option Token} {kind : TokenKind} (h : s.map Token.kind = some kind) :
    s.isSome = true := by
  rw [← Option.isSome_map, h]
  rfl

/-- A `;` without width. -/
def Token.semicolon (p : Position) : Token := ⟨.punctuator .semicolon, .none, ⟨p, p⟩⟩

/-- Behind `return`, `break` and `continue` a line break ends the statement. -/
def TokenKind.endsWithLine : TokenKind → Bool
  | .keyword .returnKw | .keyword .breakKw | .keyword .continueKw => true
  | _ => false

/-- Before `++` and `--` a line break ends the operand. -/
def TokenKind.isUpdate (kind : TokenKind) : Bool := (UpdateOperator.ofKind? kind).isSome

/-- What a round of a loop gives: related values, and none if the round does not take. -/
def Round {α : Type} (r : α → α → Prop) (takes : Bool) (a b : Option α) : Prop :=
  Option.Rel r a b ∧ (takes = false → a = none)

namespace Round

variable {α : Type} {r : α → α → Prop} {t : Bool} {a b : α}

/-- A round that gives something takes. -/
theorem takes (h : Round r t (some a) (some b)) : t = true := by
  cases t with
  | true => rfl
  | false => cases h.2 rfl

theorem rel (h : Round r t (some a) (some b)) : r a b := by
  cases h.1
  assumption

end Round

/-- What runs may differ in: whether places matter for the comparison of trees, and how statements
end. -/
structure Setting (I : Type) where
  located : Bool
  ending : I → Parser Unit

namespace Setting

variable {I : Type} (S : Setting I)

/-- A family of values of which any two are related. If places matter, they are the same value. -/
def Consistent {α : Type} (r : α → α → Prop) (a : I → α) : Prop :=
  ∀ i j, r (a i) (a j) ∧ (S.located = true → a i = a j)

/-- A family of places, which are the same if places matter. -/
def Places (p : I → Position) : Prop := S.located = true → ∀ i j, p i = p j

end Setting

open ScriptLint.Parser in
/-- `Uniform S s takes free r x` says that the parsers of the family `x` are built alike where `s`
is the next token, and that what they give is related by `r`. -/
inductive Uniform {I : Type} (S : Setting I) : {α : Type} → (s : Option Token) →
    (takes free : Bool) → (r : α → α → Prop) → (x : I → Parser α) → Prop where
  /-- What does the same as a uniform family, also where a `;` has been put in. -/
  | congr {α : Type} {s : Option Token} {takes free : Bool} {r : α → α → Prop}
      {x y : I → Parser α} :
      (∀ i (c : Cursor), c.sight = s ∨
        (takes = false ∧ free = true ∧ c.sight = some (.semicolon .origin)) → x i c = y i c) →
      Uniform S s takes free r y → Uniform S s takes free r x
  | weaken {α : Type} {s : Option Token} {takes takes' free free' : Bool} {r r' : α → α → Prop}
      {x : I → Parser α} :
      Uniform S s takes free r x → (takes' = true → takes = true) →
      (free' = true → free = true) → (∀ a b, r a b → r' a b) → Uniform S s takes' free' r' x
  | pure {α : Type} {s : Option Token} {r : α → α → Prop} {a : I → α} :
      S.Consistent r a → Uniform S s false true r fun i => pure (a i)
  | bind {α β : Type} {s : Option Token} {takes takes' free free' : Bool} {r : α → α → Prop}
      {r' : β → β → Prop} {x : I → Parser α} {f : I → α → Parser β} :
      Uniform S s takes free r x → (free = true ∨ takes' = true ∨ free' = false) →
      (∀ a, S.Consistent r a → ∀ s', Uniform S s' takes' free' r' fun i => f i (a i)) →
      Uniform S s takes free' r' fun i => x i >>= f i
  | unexpected {α : Type} {s : Option Token} {takes free : Bool} {r : α → α → Prop}
      {expected : String} : Uniform S s takes free r fun _ => unexpected expected
  | throw {α : Type} {s : Option Token} {takes free : Bool} {r : α → α → Prop}
      {e : I → SyntaxError} : (∀ i j, (e i).unlocated = (e j).unlocated) →
      Uniform S s takes free r fun i => throw (e i)
  | here {α : Type} {s : Option Token} {takes free : Bool} {r : α → α → Prop}
      {f : I → Position → Parser α} : (takes = true ∨ free = false) →
      (∀ p, S.Places p → Uniform S s takes free r fun i => f i (p i)) →
      Uniform S s takes free r fun i => here >>= f i
  | finish {s : Option Token} {form : I → Form} {start : I → Position}
      {children : I → List Node} : S.Consistent Eq form → S.Places start →
      S.Consistent (List.Forall₂ Node.Alike) children →
      Uniform S s false true Node.Alike fun i => finish (form i) (start i) (children i)
  | advance {t : Token} : Uniform S (some t) true true Eq fun _ => advance
  /-- A statement up to its end, and what is made of it. -/
  | terminated {α β : Type} {s : Option Token} {r : α → α → Prop} {r' : β → β → Prop}
      {x : I → Parser α} {f : I → α → Parser β} :
      Uniform S s true true r x →
      (∀ a, S.Consistent r a → ∀ s', Uniform S s' false true r' fun i => f i (a i)) →
      Uniform S s true false r' fun i => x i >>= fun a => S.ending i >>= fun _ => f i a
  /-- An update operator is taken only on the line of its operand. -/
  | beforeUpdate {α : Type} {t : Token} {r : α → α → Prop} {a : I → α} {x : I → Parser α} :
      t.kind.isUpdate = true → S.Consistent r a →
      (∀ i (c : Cursor), c.sight = some (.semicolon .origin) → x i c = .ok (a i) c) →
      Uniform S (some t) true true r x →
      Uniform S (some t) false true r fun i =>
        newlineBefore >>= fun b => if b = true then pure (a i) else x i
  /-- What belongs to a keyword that ends with its line is taken only on that line. -/
  | behindKeyword {α : Type} {t : Token} {r : α → α → Prop} {a : I → α} {x : I → Parser α} :
      t.kind.endsWithLine = true → S.Consistent r a →
      (∀ i (c : Cursor), c.sight = some (.semicolon .origin) → x i c = .ok (a i) c) →
      (∀ s', Uniform S s' false true r x) →
      Uniform S (some t) true true r fun i =>
        advance >>= fun _ => newlineBefore >>= fun b => if b = true then pure (a i) else x i
  /-- `default` is taken together with the colon behind it. -/
  | defaultLabel {α : Type} {t : Token} {r : α → α → Prop} {a : I → α} {expected : String} :
      t.kind = .keyword .defaultKw → S.Consistent r a →
      Uniform S (some t) true true r fun i => Grammar.defaultLabel >>= fun b =>
        if b = true then pure (a i) else unexpected expected
  | collect {α : Type} {s : Option Token} {free : Bool} {r : α → α → Prop}
      {takes : Option Token → Bool} {item : I → Parser (Option α)} :
      (∀ s', Uniform S s' (takes s') free (Round r (takes s')) item) →
      Uniform S s (takes s) free (List.Forall₂ r) fun i => collect (item i)
  | chain {α : Type} {s : Option Token} {free : Bool} {r : α → α → Prop}
      {takes : Option Token → Bool} {step : I → α → Parser (Option α)} {a : I → α} :
      (∀ b, S.Consistent r b → ∀ s', Uniform S s' (takes s') free (Round r (takes s'))
        fun i => step i (b i)) → S.Consistent r a →
      Uniform S s false free r fun i => chain (step i) (a i)

/-! ## Consistent families -/

namespace Setting.Consistent

variable {I : Type} {S : Setting I} {α β γ : Type} {r : α → α → Prop} {r' : β → β → Prop}
variable {q : γ → γ → Prop}

/-- A family of one value. -/
theorem const (a : α) : S.Consistent Eq fun _ : I => a := fun _ _ => ⟨rfl, fun _ => rfl⟩

/-- A function that keeps relations is applied to a family. -/
theorem map {a : I → α} (h : S.Consistent r a) {f : α → β}
    (hf : ∀ a b, r a b → r' (f a) (f b)) : S.Consistent r' fun i => f (a i) :=
  fun i j => ⟨hf _ _ (h i j).1, fun hlocated => congrArg f ((h i j).2 hlocated)⟩

theorem map₂ {a : I → α} {b : I → β} (ha : S.Consistent r a) (hb : S.Consistent r' b)
    {f : α → β → γ} (hf : ∀ a a' b b', r a a' → r' b b' → q (f a b) (f a' b')) :
    S.Consistent q fun i => f (a i) (b i) :=
  fun i j => ⟨hf _ _ _ _ (ha i j).1 (hb i j).1, fun hlocated =>
    congrArg₂ f ((ha i j).2 hlocated) ((hb i j).2 hlocated)⟩

/-- What is computed from equal values is equal. -/
theorem compute {a : I → α} (h : S.Consistent Eq a) (f : α → β) :
    S.Consistent Eq fun i => f (a i) :=
  h.map fun _ _ => congrArg f

theorem nil : S.Consistent (List.Forall₂ r) fun _ : I => ([] : List α) :=
  fun _ _ => ⟨.nil, fun _ => rfl⟩

theorem cons {a : I → α} {as : I → List α} (h : S.Consistent r a)
    (hs : S.Consistent (List.Forall₂ r) as) :
    S.Consistent (List.Forall₂ r) fun i => a i :: as i :=
  h.map₂ hs fun _ _ _ _ => .cons

theorem append {as bs : I → List α} (has : S.Consistent (List.Forall₂ r) as)
    (hbs : S.Consistent (List.Forall₂ r) bs) :
    S.Consistent (List.Forall₂ r) fun i => as i ++ bs i :=
  has.map₂ hbs fun _ _ _ _ h h' => List.rel_append h h'

theorem none {takes : Bool} : S.Consistent (Round r takes) fun _ : I => (none : Option α) :=
  fun _ _ => ⟨⟨.none, fun _ => rfl⟩, fun _ => rfl⟩

theorem some {a : I → α} (h : S.Consistent r a) :
    S.Consistent (Round r true) fun i => some (a i) :=
  h.map fun _ _ hab => ⟨.some hab, nofun⟩

theorem toList {a? : I → Option α} {takes : Bool} (h : S.Consistent (Round r takes) a?) :
    S.Consistent (List.Forall₂ r) fun i => (a? i).toList := by
  refine h.map fun a b hab => ?_
  cases hab.1 with
  | none => exact .nil
  | some hrel => exact .cons hrel .nil

theorem isSome {a? : I → Option α} {takes : Bool} (h : S.Consistent (Round r takes) a?) :
    S.Consistent Eq fun i => (a? i).isSome := by
  refine h.map fun a b hab => ?_
  cases hab.1 <;> rfl

section Node

variable {n : I → Node} (h : S.Consistent Node.Alike n)
include h

theorem form : S.Consistent Eq fun i => (n i).form := h.map fun _ _ hmn => hmn.form

theorem children : S.Consistent (List.Forall₂ Node.Alike) fun i => (n i).children :=
  h.map fun _ _ hmn => hmn.children

end Node

end Setting.Consistent

/-! ## Steps of the grammar -/

namespace Uniform

variable {I : Type} {S : Setting I} {α β : Type} {s : Option Token} {takes takes' free free' : Bool}
variable {r : α → α → Prop} {r' : β → β → Prop} {x y : I → Parser α} {kind : TokenKind}

/-- What takes may also be said not to. -/
theorem untaken (h : Uniform S s takes free r x) : Uniform S s false free r x :=
  h.weaken nofun id fun _ _ => id

/-- What is free may also be said not to be. -/
theorem unfree (h : Uniform S s takes free r x) : Uniform S s takes false r x :=
  h.weaken id nofun fun _ _ => id

/-- A value that is given whatever is next. -/
theorem giving {a : I → α} (ha : S.Consistent r a) :
    Uniform S s false free r fun i => Pure.pure (a i) :=
  (Uniform.pure ha).weaken id (fun _ => rfl) fun _ _ => id

/-- Behind what is free anything may follow. -/
theorem andThen {f : I → α → Parser β} (takes' : Bool) (hx : Uniform S s takes true r x)
    (hf : ∀ a, S.Consistent r a → ∀ s', Uniform S s' takes' free r' fun i => f i (a i)) :
    Uniform S s takes free r' fun i => x i >>= f i :=
  .bind hx (.inl rfl) hf

/-- Behind what is not free a token must be taken. -/
theorem andTake {f : I → α → Parser β} (hx : Uniform S s takes free' r x)
    (hf : ∀ a, S.Consistent r a → ∀ s', Uniform S s' true free r' fun i => f i (a i)) :
    Uniform S s takes free r' fun i => x i >>= f i :=
  .bind hx (.inr (.inl rfl)) hf

/-- If the whole is not free, its parts need not be. -/
theorem andClose {f : I → α → Parser β} (takes' : Bool) (hx : Uniform S s takes free r x)
    (hf : ∀ a, S.Consistent r a → ∀ s', Uniform S s' takes' false r' fun i => f i (a i)) :
    Uniform S s takes false r' fun i => x i >>= f i :=
  .bind hx (.inr (.inr rfl)) hf

/-- The next token is taken, and then `x` runs. -/
theorem taking (takes : Bool) (hs : s.isSome = true) (h : ∀ s', Uniform S s' takes free r x) :
    Uniform S s true free r fun i => Parser.advance >>= fun _ => x i := by
  obtain ⟨t, rfl⟩ := Option.isSome_iff_exists.1 hs
  exact andThen (f := fun i _ => x i) takes .advance fun _ _ => h

/-- What a parser gives is put into another form. -/
theorem mapping {f : I → α → β} (h : Uniform S s takes free r x)
    (hf : ∀ a, S.Consistent r a → S.Consistent r' fun i => f i (a i)) :
    Uniform S s takes free r' fun i => x i >>= fun a => Pure.pure (f i a) := by
  have hfree : free = true ∨ false = true ∨ free = false := by cases free <;> simp
  exact .bind h hfree fun a ha _ => giving (hf a ha)

/-- A look at the next token. Before what may take nothing and is free, a `;` must look the same. -/
theorem looking {γ : Type} {look : Parser γ} {f : I → γ → Parser α} (see : Option Token → γ)
    (hlook : ∀ i c, (look >>= f i) c = f i (see c.sight) c)
    (hfree : takes = false → free = true → ∀ i, f i (see (some (.semicolon .origin))) = f i (see s))
    (h : Uniform S s takes free r fun i => f i (see s)) :
    Uniform S s takes free r fun i => look >>= f i := by
  refine .congr (fun i c hc => ?_) h
  rw [hlook]
  obtain hs | ⟨htakes, hfree', hs⟩ := hc
  · rw [hs]
  · rw [hs, hfree htakes hfree']

/-- The kind of the next token decides how to go on. -/
theorem peekKind? {f : I → Option TokenKind → Parser α} (hfree : takes = true ∨ free = false)
    (h : Uniform S s takes free r fun i => f i (s.map Token.kind)) :
    Uniform S s takes free r fun i => Parser.peekKind? >>= f i := by
  refine looking (fun s => s.map Token.kind) (fun i c => ?_) ?_ h
  · rw [Parser.peekKind?_bind, c.kind?_eq]
  · intro htakes hfree'
    simp [htakes, hfree'] at hfree

/-- A choice by the kind of the next token. If `x` is free, it must take that token. -/
theorem choice {p : Option TokenKind → Prop} [DecidablePred p]
    (hsemicolon : p (some (.punctuator .semicolon)) → takes = true ∨ free = false)
    (hx : p (s.map Token.kind) → Uniform S s (takes || free) free r x)
    (hy : ¬ p (s.map Token.kind) → Uniform S s takes free r y) :
    Uniform S s takes free r fun i =>
      Parser.peekKind? >>= fun kind => if p kind then x i else y i := by
  by_cases hs : p (s.map Token.kind)
  · have hchoice : Uniform S s (takes || free) free r fun i =>
        Parser.peekKind? >>= fun kind => if p kind then x i else y i := by
      refine peekKind? (by cases takes <;> cases free <;> simp) ?_
      simpa only [if_pos hs] using hx hs
    exact hchoice.weaken (by simp +contextual) id fun _ _ => id
  · refine looking (fun s => s.map Token.kind) (fun i c => ?_) ?_ ?_
    · rw [Parser.peekKind?_bind, c.kind?_eq]
    · intro htakes hfree i
      have hne : ¬ p (some (.punctuator .semicolon)) := fun h => by
        simpa [htakes, hfree] using hsemicolon h
      exact (if_neg hne).trans (if_neg hs).symm
    · simpa only [if_neg hs] using hy hs

theorem check (hkind : kind = .punctuator .semicolon → takes = true ∨ free = false)
    (hx : s.map Token.kind = some kind → Uniform S s (takes || free) free r x)
    (hy : s.map Token.kind ≠ some kind → Uniform S s takes free r y) :
    Uniform S s takes free r fun i =>
      Parser.check kind >>= fun b => if b = true then x i else y i := by
  have hchoice : Uniform S s takes free r fun i =>
      Parser.peekKind? >>= fun next => if (next == some kind) = true then x i else y i :=
    choice (fun h => hkind (Option.some.inj (beq_iff_eq.1 h)).symm) (fun h => hx (beq_iff_eq.1 h))
      fun h => hy fun heq => h (beq_iff_eq.2 heq)
  exact .congr (fun _ _ _ => rfl) hchoice

/-- The next token decides how to go on, but not by its place. -/
theorem peek? {f : I → Option Token → Parser α}
    (hf : ∀ i (t : Token), f i (some t.unlocated) = f i (some t))
    (h : Uniform S s true free r fun i => f i s) :
    Uniform S s true free r fun i => Parser.peek? >>= f i := by
  refine .congr (fun i c hc => ?_) h
  obtain rfl | ⟨⟨⟩, -⟩ := hc
  rw [Parser.peek?_bind, Cursor.sight]
  cases c.rest.head? with
  | none => rfl
  | some t => rw [Option.map_some, hf]

/-- A choice in which the token that decides it is taken. -/
theorem accept (takes' : Bool) (hkind : kind = .punctuator .semicolon → takes = true ∨ free = false)
    (hx : s.map Token.kind = some kind → ∀ s', Uniform S s' takes' free r x)
    (hy : s.map Token.kind ≠ some kind → Uniform S s takes free r y) :
    Uniform S s takes free r fun i =>
      Parser.accept kind >>= fun b => if b = true then x i else y i := by
  by_cases hs : s.map Token.kind = some kind
  · have htaken : Uniform S s true free r fun i =>
        Parser.accept kind >>= fun b => if b = true then x i else y i := by
      refine .congr (fun i c hc => ?_) (taking takes' (isSome_of_kind hs) (hx hs))
      obtain hc | ⟨⟨⟩, -⟩ := hc
      rw [Parser.accept_pos (by rw [c.kind?_eq, hc, hs])]
      rfl
    exact htaken.weaken (fun _ => rfl) id fun _ _ => id
  · refine .congr (fun i c hc => ?_) (hy hs)
    refine Parser.accept_neg ?_
    rw [c.kind?_eq]
    obtain hc | ⟨htakes, hfree, hc⟩ := hc
    · rwa [hc]
    · rw [hc]
      intro heq
      simpa [htakes, hfree] using hkind (Option.some.inj heq).symm

/-- A token that may be taken, with no difference to what follows. -/
theorem skipping (h : ∀ s', Uniform S s' false false r x) :
    Uniform S s false false r fun i => Parser.accept kind >>= fun _ => x i := by
  have hchoice : Uniform S s false false r fun i =>
      Parser.accept kind >>= fun b => if b = true then x i else x i :=
    accept false (fun _ => .inr rfl) (fun _ => h) fun _ => h s
  simpa only [ite_self] using hchoice

/-- The end of the tokens decides how to go on. -/
theorem atEnd (hfree : takes = true ∨ free = false) (hx : s = none → Uniform S s takes free r x)
    (hy : s ≠ none → Uniform S s takes free r y) :
    Uniform S s takes free r fun i => Parser.atEnd >>= fun b => if b = true then x i else y i := by
  refine looking (fun s => s.isNone) (fun i c => ?_) ?_ ?_
  · rw [Parser.atEnd_bind, c.isEmpty_eq]
  · intro htakes hfree'
    simp [htakes, hfree'] at hfree
  · cases s with
    | none => exact hx rfl
    | some t => exact hy nofun

theorem expect {expected : String} :
    Uniform S s true true Eq fun _ => Parser.expect kind expected :=
  accept false (fun _ => .inl rfl) (fun _ _ => .pure (.const ())) fun _ => .unexpected

/-- A parser that takes the next token for a meaning that is not in its place. -/
theorem meaning (meaning : Token → Option α) (expected : String)
    (hmeaning : ∀ t : Token, meaning t.unlocated = meaning t)
    (hx : ∀ i c, x i c = match c.rest.head?.bind meaning with
      | some a => .ok a c.advance
      | none => Parser.unexpected expected c) :
    Uniform S s true true Eq x := by
  cases hs : s.bind meaning with
  | none =>
    refine .congr (y := fun _ => Parser.unexpected expected) (fun i c hc => ?_) .unexpected
    obtain rfl | ⟨⟨⟩, -⟩ := hc
    rw [hx, ← c.sight_bind hmeaning, hs]
  | some a =>
    obtain ⟨t, rfl, -⟩ := Option.bind_eq_some_iff.1 hs
    refine .congr (fun i c hc => ?_) (taking false rfl fun _ => .pure (.const a))
    obtain hc | ⟨⟨⟩, -⟩ := hc
    rw [hx, ← c.sight_bind hmeaning, hc, hs]
    rfl

theorem property {meaning : Token → Option String}
    (hmeaning : ∀ t : Token, meaning t.unlocated = meaning t) :
    Uniform S s true true Eq fun _ => Grammar.property meaning := by
  refine Uniform.meaning meaning "property name" hmeaning fun i c => ?_
  rw [Grammar.property, Parser.peek?_bind]
  cases c.rest.head?.bind meaning <;> rfl

theorem name {expected : String} : Uniform S s true true Eq fun _ => Parser.name expected := by
  refine Uniform.meaning Token.identifier? expected (fun _ => rfl) fun i c => ?_
  rw [Parser.name, Parser.name?]
  show EStateM.bind _ _ c = _
  unfold EStateM.bind
  rw [Parser.peek?_bind]
  cases c.rest.head?.bind Token.identifier? <;> rfl

theorem name? : Uniform S s false true Eq fun _ => Parser.name? := by
  cases hs : s.bind Token.identifier? with
  | none =>
    refine .congr (fun i c hc => ?_) (.pure (.const none))
    obtain hc | ⟨-, -, hc⟩ := hc
    · rw [Parser.name?_eq, hc, hs]
      rfl
    · rw [Parser.name?_eq, hc]
      rfl
  | some x =>
    obtain ⟨t, rfl, -⟩ := Option.bind_eq_some_iff.1 hs
    refine untaken (.congr (fun i c hc => ?_) (taking false rfl fun _ => .pure (.const (some x))))
    obtain hc | ⟨⟨⟩, -⟩ := hc
    rw [Parser.name?_eq, hc, hs]
    rfl

/-- A round of a loop that stops at a token of some kind. -/
theorem upTo {x : I → Parser (Option α)} {stop : TokenKind}
    (hstop : s.map Token.kind = some stop → Uniform S s false free (Round r false) x)
    (hgo : s.map Token.kind ≠ some stop → Uniform S s true free (Round r true) x) :
    Uniform S s (s.map Token.kind != some stop) free (Round r (s.map Token.kind != some stop))
      x := by
  by_cases hs : s.map Token.kind = some stop
  · rw [hs, bne_self_eq_false]
    exact hstop hs
  · rw [bne_iff_ne.2 hs]
    exact hgo hs

/-- An item behind a token of some kind. -/
theorem after? (kind : TokenKind) (hkind : kind ≠ .punctuator .semicolon)
    (h : ∀ s', Uniform S s' takes free r x) :
    Uniform S s (s.map Token.kind == some kind) free (Round r (s.map Token.kind == some kind))
      fun i => Parser.after? kind (x i) := by
  refine accept takes (fun heq => absurd heq hkind) (fun hs s' => ?_) fun hs => ?_
  · rw [hs, beq_self_eq_true]
    exact mapping (h s') fun a ha => ha.some
  · rw [beq_eq_false_iff_ne.2 hs]
    exact giving .none

theorem separated (h : ∀ s', Uniform S s' true true r x) :
    Uniform S s true true (List.Forall₂ r) fun i => Parser.separated (x i) := by
  refine andThen false (h s) fun first hfirst s' => ?_
  have hothers : Uniform S s' false true (List.Forall₂ r) fun i =>
      Parser.collect (Parser.after? (.punctuator .comma) (x i)) :=
    (collect fun _ => after? (.punctuator .comma) nofun h).untaken
  exact mapping hothers fun others hothers => hfirst.cons hothers

/-- A choice that comes out the same for the whole family. -/
theorem branch {p : I → Prop} [DecidablePred p] (hp : ∀ i j, p i ↔ p j)
    (hx : Uniform S s takes free r x) (hy : Uniform S s takes free r y) :
    Uniform S s takes free r fun i => if p i then x i else y i := by
  by_cases hall : ∀ i, p i
  · refine .congr (fun i c _ => ?_) hx
    rw [if_pos (hall i)]
  · obtain ⟨j, hj⟩ := not_forall.1 hall
    refine .congr (fun i c _ => ?_) hy
    rw [if_neg fun hi => hj ((hp i j).1 hi)]

/-- Trees that are alike can all be stored into, or none of them can. -/
theorem requireAssignable {n : I → Node} (hn : S.Consistent Node.Alike n)
    (h : Uniform S s takes free r x) :
    Uniform S s takes free r fun i => Parser.requireAssignable (n i) >>= fun _ => x i := by
  have hbranch : Uniform S s takes free r fun i => if (n i).isAssignable = true then x i
      else throwThe SyntaxError (.invalidAssignmentTarget (n i).start) := by
    refine branch (fun i j => ?_) h (.throw fun _ _ => rfl)
    rw [Node.isAssignable, (hn i j).1.form, Node.isAssignable]
  refine .congr (fun i c _ => ?_) hbranch
  rw [Parser.requireAssignable]
  split <;> rfl

/-- Trees that are alike are equally tall. -/
theorem bounded {n : I → Node} {f : I → Node → Parser α} (hn : S.Consistent Node.Alike n)
    (h : Uniform S s takes free r fun i => f i (n i)) :
    Uniform S s takes free r fun i => Parser.bounded (n i) >>= f i := by
  have hbranch : Uniform S s takes free r fun i => if (n i).height ≤ Parser.maxHeight then f i (n i)
      else throwThe SyntaxError (.nestingTooDeep (n i).start) := by
    refine branch (fun i j => ?_) h (.throw fun _ _ => rfl)
    rw [(hn i j).1.height]
  refine .congr (fun i c _ => ?_) hbranch
  rw [Parser.bounded]
  split <;> rfl

theorem emptyExpression {f : I → Node → Parser α} (hfree : takes = true ∨ free = false)
    (h : ∀ n, S.Consistent Node.Alike n → Uniform S s takes free r fun i => f i (n i)) :
    Uniform S s takes free r fun i => Parser.emptyExpression >>= f i := by
  have hhere : Uniform S s takes free r fun i => Parser.here >>= fun p =>
      f i (Node.build .emptyExpression ⟨p, p⟩ []) := by
    refine .here hfree fun p hp => h _ fun i j => ⟨.build rfl .nil, fun hlocated => ?_⟩
    rw [hp hlocated i j]
  exact .congr (fun _ _ _ => rfl) hhere

theorem tooDeep {r : Node → Node → Prop} :
    Uniform S s true free r fun _ => Grammar.tooDeep := by
  have hfail : Uniform S s true free r fun _ =>
      Parser.here >>= fun p => throwThe SyntaxError (.nestingTooDeep p) :=
    .here (.inl rfl) fun p _ => .throw fun _ _ => rfl
  exact .congr (fun _ _ _ => rfl) hfail

end Uniform

end ScriptLint
