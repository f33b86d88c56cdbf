import ScriptLint.Proofs.Grammar.Uniform

/-!
# Two runs side by side

Runs of the same production on two scripts whose tokens are the same but for their places. A
`Comparison` says which places of the two scripts belong together and what is asked of the second
run where the scripts differ. `Comparison.Lawful` is what a comparison must keep in step: the next
token, the line break where the grammar tests for one, and the end of a statement. From these a
uniform family has runs that agree (`Uniform.agree`).
-/

namespace ScriptLint

open ScriptLint.Parser

/-- A value of a first run and one of a second. -/
def pair {α : Type} (a b : α) : Bool → α := fun second => bif second then b else a

namespace Setting

/-- The setting of two runs that are compared without places. -/
def sideBySide : Setting Bool := ⟨false, fun _ => terminator⟩

variable {α : Type} {r : α → α → Prop}

/-- Where places do not matter, values only have to be related. -/
theorem consistent_of_rel {a : Bool → α} (h : ∀ i j, r (a i) (a j)) : sideBySide.Consistent r a :=
  fun i j => ⟨h i j, fun hlocated => absurd hlocated Bool.false_ne_true⟩

/-- Two values are consistent if they are related, also each to itself. -/
theorem consistent_pair {a b : α} :
    sideBySide.Consistent r (pair a b) ↔ (r a a ∧ r a b) ∧ r b a ∧ r b b := by
  simp [Consistent, pair, sideBySide]

/-- The two members of a family of two. -/
theorem Consistent.pair {a : Bool → α} (h : sideBySide.Consistent r a) :
    sideBySide.Consistent r (pair (a false) (a true)) :=
  consistent_pair.2 ⟨⟨(h _ _).1, (h _ _).1⟩, (h _ _).1, (h _ _).1⟩

end Setting

open Setting

/-- How two runs are compared. -/
structure Comparison where
  /-- Places at which the runs stand at the same time. -/
  related : Cursor → Cursor → Prop
  /-- Whether the second run is only asked for if the first one succeeds. -/
  lenient : Prop
  /-- What may stop the second run alone. -/
  excused : SyntaxError → Prop

namespace Comparison

variable (C : Comparison) {α β : Type}

/-- What two runs come to under a comparison. -/
def Agree (r : α → α → Prop) :
    EStateM.Result SyntaxError Cursor α → EStateM.Result SyntaxError Cursor α → Prop
  | .ok a c, .ok b d => sideBySide.Consistent r (pair a b) ∧ C.related c d
  | .ok _ _, .error e _ => C.lenient ∧ C.excused e
  | .error _ _, .ok _ _ => C.lenient
  | .error e c, .error f d => C.lenient ∨ (e.unlocated = f.unlocated ∧ C.related c d)

variable {C} {r : α → α → Prop} {r' : β → β → Prop}

/-- Agreement in a relation is agreement in any weaker one. -/
theorem Agree.mono {r' : α → α → Prop} {x y : EStateM.Result SyntaxError Cursor α}
    (h : C.Agree r x y) (hr : ∀ a b, r a b → r' a b) : C.Agree r' x y := by
  cases x <;> cases y
  case ok.ok => exact ⟨consistent_of_rel fun i j => hr _ _ (h.1 i j).1, h.2⟩
  all_goals exact h

/-- Two runs that agree go on to agree if what follows does. -/
theorem Agree.bind {x y : Parser α} {f g : α → Parser β} {c d : Cursor}
    (h : C.Agree r (x c) (y d))
    (hf : ∀ a b c' d', sideBySide.Consistent r (pair a b) → C.related c' d' →
      C.Agree r' (f a c') (g b d')) :
    C.Agree r' ((x >>= f) c) ((y >>= g) d) := by
  show C.Agree r' (EStateM.bind x f c) (EStateM.bind y g d)
  unfold EStateM.bind
  revert h
  cases x c with
  | ok a c' =>
    cases y d with
    | ok b d' =>
      intro h
      exact hf a b c' d' h.1 h.2
    | error e d' =>
      -- the first run may still fail, but then nothing is asked of the second
      intro h
      show C.Agree r' (f a c') (.error e d')
      cases f a c' with
      | ok => exact h
      | error => exact .inl h.1
  | error e c' =>
    cases y d with
    | ok b d' =>
      intro h
      show C.Agree r' (.error e c') (g b d')
      cases g b d' with
      | ok => exact h
      | error => exact .inl h
    | error f d' => exact id

/-- What a comparison must keep in step. -/
structure Lawful (C : Comparison) : Prop where
  length {c d : Cursor} : C.related c d → c.rest.length = d.rest.length
  sight {c d : Cursor} : C.related c d → c.sight = d.sight
  advance {c d : Cursor} : C.related c d → C.related c.advance d.advance
  beforeUpdate {c d : Cursor} {t : Token} : C.related c d → c.sight = some t →
    t.kind.isUpdate = true → c.newlineBefore = d.newlineBefore
  behindKeyword {c d : Cursor} {t : Token} : C.related c d → c.sight = some t →
    t.kind.endsWithLine = true → c.advance.newlineBefore = d.advance.newlineBefore
  ending {c d : Cursor} : C.related c d → C.Agree Eq (terminator c) (terminator d)

variable {c d : Cursor}

/-- Related cursors see the same kind. -/
theorem Lawful.kind? (hC : C.Lawful) (h : C.related c d) : c.kind? = d.kind? := by
  rw [c.kind?_eq, d.kind?_eq, hC.sight h]

/-- A violation shows the token that is seen, and apart from its place it is the same for both. -/
theorem violation_unlocated (h : c.sight = d.sight) (expected : String) :
    (c.violation expected).unlocated = (d.violation expected).unlocated := by
  obtain ⟨p, rest⟩ := c
  obtain ⟨q, rest'⟩ := d
  cases rest with
  | nil =>
    cases rest' with
    | nil => rfl
    | cons => simp [Cursor.sight] at h
  | cons t _ =>
    cases rest' with
    | nil => simp [Cursor.sight] at h
    | cons u _ =>
      have htu : t.unlocated = u.unlocated := by simpa [Cursor.sight] using h
      have hdisplay : t.unlocated.display = u.unlocated.display := congrArg Token.display htu
      simp only [Cursor.violation, SyntaxError.unlocated]
      exact congrArg (SyntaxError.unexpectedToken · expected .origin) hdisplay

/-- At related cursors the same token is unexpected. -/
theorem Lawful.unexpected (hC : C.Lawful) (h : C.related c d) (expected : String) :
    C.Agree r (unexpected expected c) (unexpected expected d) :=
  .inr ⟨violation_unlocated (hC.sight h) expected, h⟩

/-! ## Loops -/

/-- Rounds that agree both stop, or both go on with what they gave. -/
theorem round_cases {takes : Bool} {a b : Option α}
    (h : sideBySide.Consistent (Round r takes) (pair a b)) :
    (a = none ∧ b = none) ∨
      ∃ a' b', a = some a' ∧ b = some b' ∧ sideBySide.Consistent r (pair a' b') := by
  obtain ⟨⟨haa, hab⟩, hba, hbb⟩ := consistent_pair.1 h
  cases a with
  | none =>
    cases b with
    | none => exact .inl ⟨rfl, rfl⟩
    | some b => cases hab.1
  | some a =>
    cases b with
    | none => cases hab.1
    | some b =>
      exact .inr ⟨a, b, rfl, rfl, consistent_pair.2 ⟨⟨haa.rel, hab.rel⟩, hba.rel, hbb.rel⟩⟩

theorem agree_stop (h : C.related c d) :
    C.Agree (List.Forall₂ r) (.ok [] c) (.ok [] d) :=
  ⟨Consistent.pair (a := fun _ => []) (consistent_of_rel fun _ _ => .nil), h⟩

/-- Loops whose rounds agree do so, by induction on the rounds that are left to both. -/
theorem collectWithin_agree (hC : C.Lawful) {item item' : Parser (Option α)}
    {takes : Option Token → Bool}
    (hitem : ∀ c d, C.related c d → C.Agree (Round r (takes c.sight)) (item c) (item' d))
    {budget budget' : List Token} (hbudget : budget.length = budget'.length)
    (h : C.related c d) :
    C.Agree (List.Forall₂ r) (collectWithin item budget c) (collectWithin item' budget' d) := by
  induction budget generalizing c d budget' with
  | nil =>
    obtain rfl := List.length_eq_zero_iff.1 hbudget.symm
    rw [collectWithin, collectWithin]
    refine (hitem c d h).bind fun a b c' d' hround h' => ?_
    obtain ⟨rfl, rfl⟩ | ⟨a, b, rfl, rfl, -⟩ := round_cases hround
    · exact agree_stop h'
    · exact hC.unexpected h' _
  | cons t budget ih =>
    cases budget' with
    | nil => simp at hbudget
    | cons u budget' =>
      rw [collectWithin, collectWithin]
      refine (hitem c d h).bind fun a b c' d' hround h' => ?_
      obtain ⟨rfl, rfl⟩ | ⟨a, b, rfl, rfl, hab⟩ := round_cases hround
      · exact agree_stop h'
      · refine (ih (Nat.succ.inj hbudget) h').bind fun as bs c'' d'' hlist h'' => ?_
        have hcons : sideBySide.Consistent (List.Forall₂ r) fun i => pair a b i :: pair as bs i :=
          consistent_of_rel fun i j => .cons (hab i j).1 (hlist i j).1
        exact ⟨hcons.pair, h''⟩

/-- Chains whose steps agree do so, by induction on the rounds that are left to both. -/
theorem chainWithin_agree (hC : C.Lawful) {step step' : α → Parser (Option α)}
    {takes : Option Token → Bool}
    (hstep : ∀ a b, sideBySide.Consistent r (pair a b) → ∀ c d, C.related c d →
      C.Agree (Round r (takes c.sight)) (step a c) (step' b d))
    {budget budget' : List Token} (hbudget : budget.length = budget'.length) {a b : α}
    (hab : sideBySide.Consistent r (pair a b)) (h : C.related c d) :
    C.Agree r (chainWithin step a budget c) (chainWithin step' b budget' d) := by
  induction budget generalizing a b c d budget' with
  | nil =>
    obtain rfl := List.length_eq_zero_iff.1 hbudget.symm
    rw [chainWithin, chainWithin]
    refine (hstep a b hab c d h).bind fun a' b' c' d' hround h' => ?_
    obtain ⟨rfl, rfl⟩ | ⟨a', b', rfl, rfl, -⟩ := round_cases hround
    · exact ⟨hab, h'⟩
    · exact hC.unexpected h' _
  | cons t budget ih =>
    cases budget' with
    | nil => simp at hbudget
    | cons u budget' =>
      rw [chainWithin, chainWithin]
      refine (hstep a b hab c d h).bind fun a' b' c' d' hround h' => ?_
      obtain ⟨rfl, rfl⟩ | ⟨a', b', rfl, rfl, hab'⟩ := round_cases hround
      · exact ⟨hab, h'⟩
      · exact ih (Nat.succ.inj hbudget) hab' h'

end Comparison

/-- A uniform family does the same in two runs that a comparison keeps in step. -/
theorem Uniform.agree {C : Comparison} (hC : C.Lawful) {α : Type} {s : Option Token}
    {takes free : Bool} {r : α → α → Prop} {x : Bool → Parser α}
    (h : Uniform .sideBySide s takes free r x) :
    ∀ {c d : Cursor}, c.sight = s → C.related c d → C.Agree r (x false c) (x true d) := by
  induction h with
  | congr hxy _ ih =>
    intro c d hs hrel
    rw [hxy false c (.inl hs), hxy true d (.inl (hC.sight hrel ▸ hs))]
    exact ih hs hrel
  | weaken _ _ _ hr ih =>
    intro c d hs hrel
    exact (ih hs hrel).mono hr
  | pure ha =>
    intro c d hs hrel
    exact ⟨ha.pair, hrel⟩
  | bind _ _ _ ih ihf =>
    intro c d hs hrel
    exact (ih hs hrel).bind fun a b c' d' hab hrel' => ihf (pair a b) hab _ rfl hrel'
  | unexpected =>
    intro c d hs hrel
    exact hC.unexpected hrel _
  | throw he =>
    intro c d hs hrel
    exact .inr ⟨he false true, hrel⟩
  | here _ _ ih =>
    intro c d hs hrel
    exact ih (pair c.here d.here) (fun hlocated => absurd hlocated Bool.false_ne_true) hs hrel
  | finish hform hstart hchildren =>
    intro c d hs hrel
    exact ⟨Consistent.pair (a := fun i => Node.build _ ⟨_, (pair c d i).lastEnd⟩ _)
      (consistent_of_rel fun i j => .build (hform i j).1 (hchildren i j).1), hrel⟩
  | advance =>
    intro c d hs hrel
    exact ⟨consistent_of_rel fun _ _ => rfl, hC.advance hrel⟩
  | terminated _ _ ih ihf =>
    intro c d hs hrel
    refine (ih hs hrel).bind fun a b c' d' hab hrel' => ?_
    exact (hC.ending hrel').bind fun _ _ c'' d'' _ hrel'' => ihf (pair a b) hab _ rfl hrel''
  | beforeUpdate hupdate ha _ _ ih =>
    intro c d hs hrel
    beta_reduce
    rw [newlineBefore_bind, newlineBefore_bind, hC.beforeUpdate hrel hs hupdate]
    cases d.newlineBefore with
    | true => exact ⟨ha.pair, hrel⟩
    | false => exact ih hs hrel
  | behindKeyword hkeyword ha _ _ ih =>
    intro c d hs hrel
    have hrel' := hC.advance hrel
    beta_reduce
    rw [advance_bind, newlineBefore_bind, advance_bind, newlineBefore_bind,
      hC.behindKeyword hrel hs hkeyword]
    cases d.advance.newlineBefore with
    | true => exact ⟨ha.pair, hrel'⟩
    | false => exact ih _ rfl hrel'
  | defaultLabel _ ha =>
    intro c d hs hrel
    beta_reduce
    rw [Grammar.defaultLabel_bind, Grammar.defaultLabel_bind, hC.kind? hrel,
      hC.kind? (hC.advance hrel)]
    split
    · exact ⟨ha.pair, hC.advance (hC.advance hrel)⟩
    · exact hC.unexpected hrel _
  | collect _ ih =>
    intro c d hs hrel
    exact C.collectWithin_agree hC (fun c d => ih c.sight rfl) (hC.length hrel) hrel
  | chain _ ha ih =>
    intro c d hs hrel
    exact C.chainWithin_agree hC (fun a b hab c d => ih (pair a b) hab c.sight rfl)
      (hC.length hrel) ha.pair hrel

end ScriptLint
