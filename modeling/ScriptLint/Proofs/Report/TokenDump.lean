import ScriptLint.Command.Run
import ScriptLint.Proofs.Json.Writer
import ScriptLint.Proofs.Token.Partition

/-!
# A token dump determines the tokens

In a dump the value of a token has no mark of its kind: names, keywords and texts are all strings,
and the values that say nothing are all `null`, as is an infinite number. The value is recovered
all the same, because a lexer gives each kind of token one form of value (`Token.Lexed`) and no
number other than infinity that is lost in the text (`Numeral.value_isRounded`). So a token is
determined by its JSON value (`Token.eq_of_settle_toJson`), and a list of them by its text
(`dumpTokens_determines`).
-/

namespace ScriptLint

/-! ## Tokens of a lexer -/

/-- A token that a lexer may have made: some text spells its kind and value together. -/
def Token.Lexed (t : Token) : Prop := ∃ text, t.kind.Spells text t.value

/-- The tokens of a script have kinds and values as a lexer gives them. -/
theorem lexed_of_mem_tokenize {source : String} {t : Token} (h : t ∈ tokenize source) :
    t.Lexed := by
  rw [tokenize, Lexer.tokenize_eq] at h
  obtain ⟨piece, hpiece, htoken⟩ := List.mem_filterMap.1 (List.mem_of_mem_filter h)
  have hfaithful := (pieces_faithful _ _ piece hpiece).2
  rw [Piece.token?, Sum.getLeft?_eq_some_iff] at htoken
  rw [Piece.Faithful, htoken] at hfaithful
  exact ⟨piece.text, hfaithful⟩

/-- A numeral denotes a finite number or infinity. -/
theorem Numeral.value_isRounded (n : Numeral) : n.value.IsRounded := by
  cases n with
  | radix base mark digits =>
    rw [Numeral.value]
    split
    · exact Binary64.ofQuotient_isRounded _ _
    · exact .inr rfl
  | decimal whole fraction exponent => exact Binary64.ofScientific_isRounded _ _

/-! ## The parts of a token -/

/-- Different keywords are spelled differently. -/
theorem Keyword.word_injective {k l : Keyword} (h : k.word = l.word) : k = l := by
  have hfound (k : Keyword) : Keyword.ofWord? k.word = some k := by
    cases k <;> decide +kernel
  exact Option.some.inj ((hfound k).symm.trans (h ▸ hfound l))

/-- Different punctuators have different labels. -/
theorem Punctuator.label_injective {p q : Punctuator} (h : p.label = q.label) : p = q := by
  have hfound (p : Punctuator) : Punctuator.all.find? (·.label == p.label) = some p := by
    cases p <;> decide +kernel
  exact Option.some.inj ((hfound p).symm.trans (h ▸ hfound q))

/-- Different places are printed differently. -/
theorem Position.toJson_injective {p q : Position} (h : p.toJson = q.toJson) : p = q := by
  obtain ⟨line, column⟩ := p
  obtain ⟨line', column'⟩ := q
  simpa [Position.toJson] using h

/-- Different kinds are printed differently. -/
theorem TokenKind.toJson_injective {k l : TokenKind} (h : k.toJson = l.toJson) : k = l := by
  cases k with
  | keyword word =>
    cases l with
    | keyword word' =>
      have hword : word.word = word'.word := by simpa [TokenKind.toJson] using h
      rw [Keyword.word_injective hword]
    | _ => simp [TokenKind.toJson] at h
  | punctuator mark =>
    cases l with
    | punctuator mark' =>
      have hlabel : mark.label = mark'.label := by simpa [TokenKind.toJson] using h
      rw [Punctuator.label_injective hlabel]
    | _ => simp [TokenKind.toJson] at h
  | _ => cases l <;> simp_all [TokenKind.toJson]

/-- A number is lost in the text only if it is infinite. -/
theorem Binary64.eq_of_settle {x y : Binary64} (hx : x.IsRounded) (hy : y.IsRounded)
    (h : (Json.real x).settle = (Json.real y).settle) : x = y := by
  have hinfinity : infinity.isFinite = false := by decide
  obtain hx | rfl := hx
  · obtain hy | rfl := hy
    · simpa [Json.settle, hx, hy] using h
    · simp [Json.settle, hx, hinfinity] at h
  · obtain hy | rfl := hy
    · simp [Json.settle, hy, hinfinity] at h
    · rfl

/-- Two values of one kind are equal if they are written the same. -/
theorem TokenKind.Spells.value_eq {k : TokenKind} {text text' : List Char} {v w : TokenValue}
    (hv : k.Spells text v) (hw : k.Spells text' w) (h : v.toJson.settle = w.toJson.settle) :
    v = w := by
  cases k with
  | space | lineBreak | comment | identifier =>
    rw [TokenKind.Spells] at hv hw
    subst hv hw
    simpa [TokenValue.toJson, Json.settle] using h
  | keyword word =>
    obtain ⟨rfl, -⟩ := hv
    obtain ⟨rfl, -⟩ := hw
    simpa [TokenValue.toJson, Json.settle] using h
  | string =>
    obtain ⟨_, _, -, rfl, -⟩ := hv
    obtain ⟨_, _, -, rfl, -⟩ := hw
    simpa [TokenValue.toJson, Json.settle] using h
  | boolean =>
    obtain ⟨_, rfl, -⟩ := hv
    obtain ⟨_, rfl, -⟩ := hw
    simpa [TokenValue.toJson, Json.settle] using h
  | numeric =>
    obtain ⟨n, rfl, -⟩ := hv
    obtain ⟨m, rfl, -⟩ := hw
    rw [Binary64.eq_of_settle n.value_isRounded m.value_isRounded h]
  | punctuator | null | undefined => rw [hv.1, hw.1]

/-! ## Tokens and lists of them -/

theorem Position.settle_toJson (p : Position) : p.toJson.settle = p.toJson := by
  simp [Position.toJson, Json.settle, Json.settleFields]

theorem TokenKind.settle_toJson (k : TokenKind) : k.toJson.settle = k.toJson := by
  cases k <;> simp [TokenKind.toJson, Json.settle, Json.settleFields]

/-- A token of a lexer is determined by what stands for it in a dump. -/
theorem Token.eq_of_settle_toJson {t u : Token} (ht : t.Lexed) (hu : u.Lexed)
    (h : t.toJson.settle = u.toJson.settle) : t = u := by
  obtain ⟨kind, value, start, stop⟩ := t
  obtain ⟨kind', value', start', stop'⟩ := u
  simp only [Token.toJson, Json.settle, Json.settleFields, TokenKind.settle_toJson,
    Position.settle_toJson, Json.object.injEq, List.cons.injEq, Prod.mk.injEq, true_and,
    and_true] at h
  obtain ⟨hkind, hvalue, hstart, hstop⟩ := h
  obtain rfl := TokenKind.toJson_injective hkind
  obtain ⟨_, hspells⟩ := ht
  obtain ⟨_, hspells'⟩ := hu
  obtain rfl : value = value' := hspells.value_eq hspells' hvalue
  rw [Position.toJson_injective hstart, Position.toJson_injective hstop]

/-- Lists of tokens that are printed alike are the same. -/
theorem eq_of_map_settle_toJson {ts us : List Token} (hts : ∀ t ∈ ts, t.Lexed)
    (hus : ∀ u ∈ us, u.Lexed)
    (h : (ts.map Token.toJson).map Json.settle = (us.map Token.toJson).map Json.settle) :
    ts = us := by
  induction ts generalizing us with
  | nil =>
    cases us with
    | nil => rfl
    | cons u us => simp at h
  | cons t ts ih =>
    cases us with
    | nil => simp at h
    | cons u us =>
      simp only [List.map_cons, List.cons.injEq] at h
      rw [Token.eq_of_settle_toJson (hts t (by simp)) (hus u (by simp)) h.1,
        ih (fun t ht => hts t (by simp [ht])) (fun u hu => hus u (by simp [hu])) h.2]

/-- Two scripts with the same token dump have the same tokens: their kinds, values, starts and
ends agree. The dumps may be compared across layouts. -/
theorem dumpTokens_determines {layout layout' : JsonLayout} {source other : String}
    (h : Command.dumpTokens layout source = Command.dumpTokens layout' other) :
    tokenize source = tokenize other := by
  have hsource := Json.padded_render layout (.array ((tokenize source).map Token.toJson))
  have hother := Json.padded_render layout' (.array ((tokenize other).map Token.toJson))
  rw [show Json.render layout _ = Json.render layout' _ from h] at hsource
  have hvalue := hsource.unique hother
  rw [Json.settle, Json.settle, Json.array.injEq, Json.settleItems_eq_map,
    Json.settleItems_eq_map] at hvalue
  exact eq_of_map_settle_toJson (fun _ => lexed_of_mem_tokenize) (fun _ => lexed_of_mem_tokenize)
    hvalue

/-- The kind of quotes is not part of a token. -/
theorem dumpTokens_determines_quotes :
    Command.dumpTokens .indented "'a'" = Command.dumpTokens .indented "\"a\"" ∧
      tokenize "'a'" = tokenize "\"a\"" := by
  have h : Command.dumpTokens .indented "'a'" = Command.dumpTokens .indented "\"a\"" := by
    decide +kernel
  exact ⟨h, dumpTokens_determines h⟩

end ScriptLint
