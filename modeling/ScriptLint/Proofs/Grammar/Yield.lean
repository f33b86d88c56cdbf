import ScriptLint.Proofs.Grammar.StatementReading

/-!
# The yield of a tree

`Yields place n c ts c'` says that the tokens `ts` spell the node `n` at a place. Nothing but the
forms of the tree counts, not its spans. A node emits the words of its phrase and the yields of its
children in the order of the phrase. What is left open is

* how many parentheses stand around an expression, where one that has none must be of a rank that
  its slot admits;
* a comma behind the last member of an array or an object;
* a `;` where a brace, the end of the script or a line break implies it, or behind a loop with its
  test at the end;
* which token spells a key or a name behind a dot.

The cursors `c` and `c'` are the places before and behind the tokens. They count only for the line
breaks that a rule asks about.

Main statement: the tokens of a script that parses, each of them once and in order, are a yield of
its tree (`parseTokens_yields`).
-/

namespace ScriptLint

mutual
/-- `Yields place n c ts c'` says that the tokens `ts` between two cursors spell `n` at a place. -/
inductive Yields : Place → Node → Cursor → List Token → Cursor → Prop where
  | plain {place : Place} {n : Node} {items : List Item} {c c' : Cursor} {ts : List Token} :
      place.admits n.form = true → Phrase place n.form items →
      YieldsItems items n.children c ts c' → Yields place n c ts c'
  | enclosed {s : Slot} {n : Node} {c m : Cursor} {left right : Token} {ts : List Token} :
      s.serves n.form = true → c.rest.head? = some left → left.kind = .punctuator .leftParen →
      Yields .top n c.advance ts m → m.rest.head? = some right →
      right.kind = .punctuator .rightParen →
      Yields (.expression s) n c (left :: (ts ++ [right])) m.advance
  | through {place inner : Place} {cost : Nat} {n : Node} {c c' : Cursor} {ts : List Token} :
      place.Through inner cost → Yields inner n c ts c' → Yields place n c ts c'

/-- `YieldsItems items ns c ts c'` says that the tokens `ts` between two cursors spell the pieces of
a rule, whose parts are the nodes `ns`. -/
inductive YieldsItems : List Item → List Node → Cursor → List Token → Cursor → Prop where
  | nil {c : Cursor} : YieldsItems [] [] c [] c
  | word {word : Word} {items : List Item} {ns : List Node} {c c' : Cursor} {t : Token}
      {ts : List Token} :
      c.rest.head? = some t → word.Matches t → YieldsItems items ns c.advance ts c' →
      YieldsItems (.word word :: items) ns c (t :: ts) c'
  | part {place : Place} {items : List Item} {n : Node} {ns : List Node} {c m c' : Cursor}
      {ts us : List Token} :
      Yields place n c ts m → YieldsItems items ns m us c' →
      YieldsItems (.part place :: items) (n :: ns) c (ts ++ us) c'
  | hole {mark : Punctuator} {items : List Item} {n : Node} {ns : List Node} {c c' : Cursor}
      {t : Token} {ts : List Token} :
      n.form = .emptyExpression → n.children = [] → c.rest.head? = some t →
      t.kind = .punctuator mark → YieldsItems items ns c.advance ts c' →
      YieldsItems (.hole mark :: items) (n :: ns) c (t :: ts) c'
  | semicolon {items : List Item} {ns : List Node} {c c' : Cursor} {t : Token}
      {ts : List Token} :
      c.rest.head? = some t → t.kind = .punctuator .semicolon →
      YieldsItems items ns c.advance ts c' →
      YieldsItems (.terminator :: items) ns c (t :: ts) c'
  | implied {items : List Item} {ns : List Node} {c c' : Cursor} {ts : List Token} :
      c.kind? ≠ some (.punctuator .semicolon) → c.impliesTerminator = true →
      YieldsItems items ns c ts c' →
      YieldsItems (.terminator :: items) ns c ts c'
  | ended {items : List Item} {ns : List Node} {c c' : Cursor} {t : Token} {ts : List Token} :
      c.rest.head? = some t → t.kind = .punctuator .semicolon →
      YieldsItems items ns c.advance ts c' → YieldsItems (.option :: items) ns c (t :: ts) c'
  | unended {items : List Item} {ns : List Node} {c c' : Cursor} {ts : List Token} :
      c.kind? ≠ some (.punctuator .semicolon) → YieldsItems items ns c ts c' →
      YieldsItems (.option :: items) ns c ts c'
  | sameLine {items : List Item} {ns : List Node} {c c' : Cursor} {ts : List Token} :
      c.newlineBefore = false → YieldsItems items ns c ts c' →
      YieldsItems (.sameLine :: items) ns c ts c'
end

mutual
/-- The tokens of a reading are a yield of its node. -/
theorem Reads.yields {levels : Nat} {place : Place} {c c' : Cursor} {n : Node} :
    Reads Cursor.Implied levels place c n c' → ∃ ts, c.Takes ts c' ∧ Yields place n c ts c'
  | .plain hadmits hphrase hitems _ => by
    obtain ⟨ts, htakes, hts⟩ := hitems.yields
    exact ⟨ts, htakes, .plain hadmits hphrase hts⟩
  | .enclosed hserves hopen hinner hclose => by
    obtain ⟨ts, htakes, hts⟩ := hinner.yields
    obtain ⟨left, hleft, hleftKind⟩ := Cursor.exists_token hopen
    obtain ⟨right, hright, hrightKind⟩ := Cursor.exists_token hclose
    exact ⟨_, .cons hleft (htakes.append (.single hright)),
      .enclosed hserves hleft hleftKind hts hright hrightKind⟩
  | .through hthrough hinner => by
    obtain ⟨ts, htakes, hts⟩ := hinner.yields
    exact ⟨ts, htakes, .through hthrough hts⟩

/-- The tokens of the pieces of a rule are a yield of their nodes. -/
theorem ReadsItems.yields {levels : Nat} {items : List Item} {c c' : Cursor} {ns : List Node} :
    ReadsItems Cursor.Implied levels items c ns c' →
      ∃ ts, c.Takes ts c' ∧ YieldsItems items ns c ts c'
  | .nil => ⟨[], .nil _, .nil⟩
  | .word ht hword hitems => by
    obtain ⟨ts, htakes, hts⟩ := hitems.yields
    exact ⟨_, .cons ht htakes, .word ht hword hts⟩
  | .part hn hitems => by
    obtain ⟨ts, htakes, hts⟩ := hn.yields
    obtain ⟨us, htakes', hus⟩ := hitems.yields
    exact ⟨_, htakes.append htakes', .part hts hus⟩
  | .hole hmark hitems => by
    obtain ⟨ts, htakes, hts⟩ := hitems.yields
    obtain ⟨t, ht, hkind⟩ := Cursor.exists_token hmark
    exact ⟨_, .cons ht htakes, .hole rfl rfl ht hkind hts⟩
  | .semicolon hmark hitems => by
    obtain ⟨ts, htakes, hts⟩ := hitems.yields
    obtain ⟨t, ht, hkind⟩ := Cursor.exists_token hmark
    exact ⟨_, .cons ht htakes, .semicolon ht hkind hts⟩
  | .implied hkind himplied hitems => by
    obtain ⟨ts, htakes, hts⟩ := hitems.yields
    exact ⟨ts, htakes, .implied hkind himplied hts⟩
  | .ended hmark hitems => by
    obtain ⟨ts, htakes, hts⟩ := hitems.yields
    obtain ⟨t, ht, hkind⟩ := Cursor.exists_token hmark
    exact ⟨_, .cons ht htakes, .ended ht hkind hts⟩
  | .unended hkind hitems => by
    obtain ⟨ts, htakes, hts⟩ := hitems.yields
    exact ⟨ts, htakes, .unended hkind hts⟩
  | .sameLine hline hitems => by
    obtain ⟨ts, htakes, hts⟩ := hitems.yields
    exact ⟨ts, htakes, .sameLine hline hts⟩
end

theorem exists_tree {tokens : List Token} (h : (parseTokens tokens).isOk = true) :
    ∃ root, parseTokens tokens = .ok root := by
  cases hparse : parseTokens tokens with
  | ok root => exact ⟨root, rfl⟩
  | error e =>
    rw [hparse] at h
    cases h

/-- If something can be computed from a tree, there is the tree. -/
theorem exists_tree_of_map {α : Type} {f : Node → α} {tokens : List Token} {a : α}
    (h : (parseTokens tokens).map f = .ok a) :
    ∃ root, parseTokens tokens = .ok root ∧ f root = a := by
  cases hparse : parseTokens tokens with
  | ok root =>
    rw [hparse] at h
    exact ⟨root, rfl, Except.ok.inj h⟩
  | error e =>
    rw [hparse] at h
    cases h

/-- A list of tokens that parses was read as a program, to the last token. -/
theorem program_reads_of_parseTokens {tokens : List Token} {root : Node}
    (h : parseTokens tokens = .ok root) :
    ∃ last,
      Reads Cursor.Implied Grammar.maxNesting .program (.ofTokens tokens) root ⟨last, []⟩ := by
  unfold parseTokens Parser.run at h
  cases hrun : Grammar.program (.ofTokens tokens) with
  | ok n c' =>
    rw [hrun] at h
    cases h
    obtain ⟨hread, hrest⟩ := Grammar.program_reads hrun fun _ => rfl
    obtain ⟨last, rest⟩ := c'
    cases hrest
    exact ⟨last, hread⟩
  | error e c' =>
    rw [hrun] at h
    cases h

/-- The tokens of a script that parses, without white space and comments, are a yield of its tree:
none of them is lost, doubled or moved. -/
theorem parseTokens_yields {tokens : List Token} {root : Node}
    (h : parseTokens tokens = .ok root) :
    ∃ last, Yields .program root (.ofTokens tokens) (tokens.filter fun t => !t.isTrivia)
      ⟨last, []⟩ := by
  obtain ⟨last, hread⟩ := program_reads_of_parseTokens h
  obtain ⟨ts, htakes, hts⟩ := hread.yields
  -- no token is left behind the program, so the program has them all
  have htokens : tokens.filter (fun t => !t.isTrivia) = ts :=
    htakes.rest.trans (List.append_nil ts)
  rw [htokens]
  exact ⟨last, hts⟩

/-- A tree that is yielded with parentheses, a word as a name behind a dot, a comma behind the last
element, and two terminators of which one is implied. -/
theorem parseTokens_yields_array :
    ∃ root last, parseTokens (tokenize "if (a) x = [(y, z).if++,]; else return\n") = .ok root ∧
      Yields .program root (.ofTokens (tokenize "if (a) x = [(y, z).if++,]; else return\n"))
        ((tokenize "if (a) x = [(y, z).if++,]; else return\n").filter fun t => !t.isTrivia)
        ⟨last, []⟩ := by
  obtain ⟨root, hroot⟩ := exists_tree
    (show (parseTokens (tokenize "if (a) x = [(y, z).if++,]; else return\n")).isOk = true by
      decide +kernel)
  obtain ⟨last, hyields⟩ := parseTokens_yields hroot
  exact ⟨root, last, hroot, hyields⟩

end ScriptLint
