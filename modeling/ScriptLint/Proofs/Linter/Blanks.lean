import ScriptLint.Linter
import ScriptLint.Proofs.Grammar.LineBreaks
import ScriptLint.Proofs.Token.Blanked

/-!
# Comments and gaps count as blanks

A script whose comments and gaps are blanked out has neither of them. The grammar sees the same
tokens in it, at the same places, so it has the same tree or the same violation, and a linter says
the same about it, except that it has no gaps to report (`analyze_blankOut`).
-/

namespace ScriptLint

/-- White space and gaps give the parser no token. -/
theorem Piece.significant?_eq_none {p : Piece} (h : p.isWhite = true ∨ p.isVoid = true) :
    p.significant? = none := by
  obtain ⟨text, ⟨kind, value, span⟩ | gap⟩ := p
  · cases kind with
    | space => rfl
    | lineBreak => rfl
    | comment => rfl
    | _ => simp [isWhite, isVoid] at h
  · rfl

/-- White space and what was left out do not matter to the grammar. -/
theorem filterMap_significant? (ps : List Piece) (keep : Piece → Bool)
    (h : ∀ p, keep p = false → p.isWhite = true ∨ p.isVoid = true) :
    (ps.filter keep).filterMap Piece.significant? = ps.filterMap Piece.significant? := by
  rw [List.filterMap_filter]
  congr 1
  funext p
  cases hkeep : keep p with
  | true => rfl
  | false => exact (Piece.significant?_eq_none (h p hkeep)).symm

/-- A script that is blanked out shows the pieces that it had, without white space and gaps. -/
theorem shown_blankOut (source : String) :
    shown .origin (blankOut source).toList =
      (pieces .origin source.toList).filter fun p => !p.isWhite && !p.isVoid := by
  rw [blankOut, String.toList_ofList, shown_blankFrom]

/-- The grammar sees the same tokens in a script that was blanked out. -/
theorem significant_blankOut (source : String) :
    significant (tokenize (blankOut source)) = significant (tokenize source) := by
  have hwhite := filterMap_significant? (pieces .origin (blankOut source).toList)
    (fun p => !p.isWhite) fun p hp => .inl (by simpa using hp)
  have hword := filterMap_significant? (pieces .origin source.toList)
    (fun p => !p.isWhite && !p.isVoid) fun p hp => by
      rw [Bool.and_eq_false_iff] at hp
      simpa using hp
  rw [significant_tokenize, significant_tokenize, ← hwhite, ← hword, ← shown_blankOut, shown]

/-- A script that was blanked out has no comments and no gaps. -/
theorem not_isVoid_blankOut {source : String} {p : Piece}
    (h : p ∈ pieces .origin (blankOut source).toList) : p.isVoid = false := by
  cases hwhite : p.isWhite with
  | true =>
    obtain ⟨text, ⟨kind, value, span⟩ | gap⟩ := p
    · cases kind with
      | comment => cases hwhite
      | _ => rfl
    · cases hwhite
  | false =>
    have hshown : p ∈ shown .origin (blankOut source).toList :=
      List.mem_filter.2 ⟨h, by rw [hwhite]; rfl⟩
    rw [shown_blankOut] at hshown
    have hkept := (List.mem_filter.1 hshown).2
    simp only [Bool.and_eq_true, Bool.not_eq_true'] at hkept
    exact hkept.2

/-- A script that is blanked out has no gaps. -/
theorem gapsOf_blankOut (source : String) : gapsOf (blankOut source) = [] := by
  rw [gapsOf_eq, List.filterMap_eq_nil_iff]
  intro p hp
  have hvoid := not_isVoid_blankOut hp
  obtain ⟨text, token | gap⟩ := p
  · rfl
  · cases hvoid

/-- Nor has it comments. -/
theorem kind_ne_comment_of_mem {source : String} {t : Token} (h : t ∈ tokenize (blankOut source)) :
    t.kind ≠ .comment := by
  rw [tokenize, Lexer.tokenize_eq] at h
  obtain ⟨p, hp, htoken⟩ := List.mem_filterMap.1 (List.mem_filter.1 h).1
  have hvoid := not_isVoid_blankOut hp
  obtain ⟨text, token | gap⟩ := p
  · cases htoken
    intro hkind
    simp [Piece.isVoid, hkind] at hvoid
  · cases htoken

/-- The parser sees only the significant tokens. -/
theorem parseTokens_congr {ts us : List Token} (h : significant ts = significant us) :
    parseTokens ts = parseTokens us := by
  have hstart : Cursor.ofTokens ts = .ofTokens us := by
    rw [ofTokens_eq, ofTokens_eq, h]
  rw [parseTokens, parseTokens, hstart]

/-- A script that is blanked out has the same tree, at the same places. -/
theorem parse_blankOut (source : String) : parse (blankOut source) = parse source :=
  parseTokens_congr (significant_blankOut source)

/-- A report is the failure to parse, or the entry about gaps before those of the rules. -/
theorem Linter.analyze_eq (linter : Linter) (source : String) :
    linter.analyze source =
      match parse source with
      | .error e => [.failure e.message]
      | .ok root =>
        (gapReport? (gapsOf source)).toList ++ runRules root (.ofTree root) linter.rules := rfl

/-- A script with blanks in the place of its comments and gaps has none of them, and is otherwise
the same to the grammar and to every linter, which says the same about it but for the gaps. -/
theorem analyze_blankOut (linter : Linter) (source : String) :
    (∃ ps, CutInto source ps ∧ (blankOut source).toList = ps.flatMap Piece.blanked) ∧
      (∀ t ∈ tokenize (blankOut source), t.kind ≠ .comment) ∧ gapsOf (blankOut source) = [] ∧
      significant (tokenize (blankOut source)) = significant (tokenize source) ∧
      parse (blankOut source) = parse source ∧
      linter.analyze source =
        (if (parse source).isOk = true ∧ gapsOf source ≠ [] then
          [.findings Linter.gapChecker ((gapsOf source).map Linter.gapMessage)] else []) ++
        linter.analyze (blankOut source) := by
  refine ⟨exists_cutInto source, fun t ht => kind_ne_comment_of_mem ht, gapsOf_blankOut source,
    significant_blankOut source, parse_blankOut source, ?_⟩
  rw [linter.analyze_eq, linter.analyze_eq, parse_blankOut, gapsOf_blankOut]
  cases parse source with
  | error e => rfl
  | ok root =>
    cases gapsOf source with
    | nil => rfl
    | cons gap gaps => rfl

end ScriptLint
