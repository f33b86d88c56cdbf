import ScriptLint.Proofs.Grammar.Yield
import ScriptLint.Proofs.Token.Order

/-!
# Where nodes stand

The spans of a tree against those of its tokens. If the tokens stand one behind the other, then the
span of every node runs from the start of one of its tokens to the end of another, it takes in the
spans of the children, and those stand one behind the other as well (`Node.Located`).

The spans come out of the rules alone: a node spans the tokens of its phrase, and a part has some of
these tokens to itself. Only an expression that is left out has none. It stands before the mark
behind it.

Main statement: `nodes_located`.
-/

namespace ScriptLint

/-! ## Nodes everywhere in a tree -/

/-- `n.Everywhere P` says that `P` holds of all nodes of the tree `n`. -/
inductive Node.Everywhere (P : Node → Prop) : Node → Prop where
  | intro {n : Node} : P n → (∀ child ∈ n.children, child.Everywhere P) → n.Everywhere P

/-- What is said of the place of a node, given the tokens of the script. -/
structure Node.Located (tokens : List Token) (n : Node) : Prop where
  start_le_stop : n.span.start ≤ n.span.stop
  /-- The children stand inside the node. -/
  inside : ∀ child ∈ n.children,
    n.span.start ≤ child.span.start ∧ child.span.stop ≤ n.span.stop
  /-- The children stand one behind the other. -/
  ordered : n.children.Pairwise fun child next => child.span.stop ≤ next.span.start
  /-- A node that has tokens starts and ends with one. -/
  atTokens : n.form ≠ .emptyExpression → (n.form = .program → n.children ≠ []) →
    (∃ t ∈ tokens, t.span.start = n.span.start) ∧ ∃ t ∈ tokens, t.span.stop = n.span.stop

/-! ## Spans of readings -/

/-- A span lies among the tokens `ts`. -/
structure Span.Within (ts : List Token) (span : Span) : Prop where
  start_le_stop : span.start ≤ span.stop
  le_start : ∃ t ∈ ts, t.span.start ≤ span.start
  stop_le : ∃ t ∈ ts, span.stop ≤ t.span.stop

theorem Span.Within.mono {ts us : List Token} {span : Span} (h : span.Within ts)
    (hsub : ts ⊆ us) : span.Within us := by
  obtain ⟨hspan, ⟨t, ht, hstart⟩, ⟨u, hu, hstop⟩⟩ := h
  exact ⟨hspan, ⟨t, hsub ht, hstart⟩, ⟨u, hsub hu, hstop⟩⟩

/-- What is said of the parts of a phrase whose tokens are `ts`. -/
structure Siblings (tokens ts : List Token) (ns : List Node) : Prop where
  within : ∀ n ∈ ns, n.span.Within ts
  ordered : ns.Pairwise fun child next => child.span.stop ≤ next.span.start
  located : ∀ n ∈ ns, n.Everywhere (·.Located tokens)

namespace Siblings

variable {tokens ts us : List Token} {n : Node} {ns : List Node}

theorem nil : Siblings tokens ts [] := ⟨nofun, .nil, nofun⟩

theorem mono (h : Siblings tokens ts ns) (hsub : ts ⊆ us) : Siblings tokens us ns :=
  ⟨fun n hn => (h.within n hn).mono hsub, h.ordered, h.located⟩

/-- A part before other parts. -/
theorem cons (hordered : Ordered (ts ++ us)) (hwithin : n.span.Within ts)
    (hlocated : n.Everywhere (·.Located tokens)) (h : Siblings tokens us ns) :
    Siblings tokens (ts ++ us) (n :: ns) := by
  refine ⟨?_, ?_, ?_⟩
  · intro m hm
    cases hm with
    | head => exact hwithin.mono (List.subset_append_left ..)
    | tail _ hm => exact (h.within m hm).mono (List.subset_append_right ..)
  · refine List.pairwise_cons.2 ⟨fun m hm => ?_, h.ordered⟩
    -- a token of the first part lies before one of the later part
    obtain ⟨t, ht, hstop⟩ := hwithin.stop_le
    obtain ⟨u, hu, hstart⟩ := (h.within m hm).le_start
    have htu := (List.pairwise_append.1 hordered.pairwise).2.2 t ht u hu
    exact Position.le_trans (Position.le_trans hstop htu) hstart
  · intro m hm
    cases hm with
    | head => exact hlocated
    | tail _ hm => exact h.located m hm

/-- Parts behind a token of their phrase. -/
theorem behind {t : Token} (h : Ordered ts → ts ⊆ tokens → Siblings tokens ts ns)
    (hordered : Ordered (t :: ts)) (hsub : t :: ts ⊆ tokens) : Siblings tokens (t :: ts) ns := by
  have htail := List.sublist_cons_self t ts
  exact (h (hordered.sublist htail) (List.Subset.trans htail.subset hsub)).mono htail.subset

end Siblings

/-- A node over its parts spans the tokens of its phrase. -/
theorem Siblings.build {tokens ts : List Token} {ns : List Node} {c c' : Cursor} (form : Form)
    (h : Siblings tokens ts ns) (htakes : c.Takes ts c') (hne : ts ≠ []) (hordered : Ordered ts)
    (hsub : ts ⊆ tokens) :
    (Node.build form ⟨c.here, c'.lastEnd⟩ ns).Everywhere (·.Located tokens) ∧
      Span.Within ts ⟨c.here, c'.lastEnd⟩ := by
  obtain ⟨first, hfirst⟩ : ∃ t, ts.head? = some t := ⟨_, List.head?_eq_some_head hne⟩
  obtain ⟨last, hlast⟩ : ∃ t, ts.getLast? = some t := ⟨_, List.getLast?_eq_some_getLast hne⟩
  have hfirstMem := List.mem_of_head? hfirst
  have hlastMem := List.mem_of_getLast? hlast
  have hhere : c.here = first.span.start := by
    rw [Cursor.here, htakes.rest, List.head?_append, hfirst]
    rfl
  have hlastEnd : c'.lastEnd = last.span.stop := by
    rw [Cursor.lastEnd, htakes.previous, hlast]
    rfl
  have hspan : first.span.start ≤ last.span.stop :=
    Position.le_trans (hordered.head_le hfirst hlastMem) (hordered.start_le_stop last hlastMem)
  rw [hhere, hlastEnd]
  refine ⟨.intro ⟨hspan, ?_, h.ordered, fun _ _ => ?_⟩ h.located, hspan, ?_, ?_⟩
  · intro child hchild
    obtain ⟨_, ⟨t, ht, hstart⟩, ⟨u, hu, hstop⟩⟩ := h.within child hchild
    exact ⟨Position.le_trans (hordered.head_le hfirst ht) hstart,
      Position.le_trans hstop (hordered.le_getLast hlast hu)⟩
  · exact ⟨⟨first, hsub hfirstMem, rfl⟩, ⟨last, hsub hlastMem, rfl⟩⟩
  · exact ⟨first, hfirstMem, Position.le_refl _⟩
  · exact ⟨last, hlastMem, Position.le_refl _⟩

/-- An expression that is left out stands before the mark behind it. -/
theorem hole_located {tokens : List Token} {c : Cursor} {t : Token} (ht : c.rest.head? = some t)
    (hspan : t.span.start ≤ t.span.stop) :
    (Node.build .emptyExpression ⟨c.here, c.here⟩ []).Everywhere (·.Located tokens) ∧
      Span.Within [t] ⟨c.here, c.here⟩ := by
  have hhere : c.here = t.span.start := by
    rw [Cursor.here, ht]
    rfl
  rw [hhere]
  refine ⟨.intro ⟨Position.le_refl _, List.forall_mem_nil _, .nil, fun hform => absurd rfl hform⟩
    (List.forall_mem_nil _), Position.le_refl _, ?_, ?_⟩
  · exact ⟨t, List.mem_singleton.2 rfl, Position.le_refl _⟩
  · exact ⟨t, List.mem_singleton.2 rfl, hspan⟩

mutual
/-- The span of a node other than a program is that of its tokens. -/
theorem Reads.located {levels : Nat} {place : Place} {c c' : Cursor} {n : Node}
    {ts tokens : List Token} :
    Reads Cursor.Implied levels place c n c' → place ≠ .program → c.Takes ts c' → Ordered ts →
      ts ⊆ tokens → n.Everywhere (·.Located tokens) ∧ n.span.Within ts
  | .plain hadmits hphrase hitems hlink, hplace, htakes, hordered, hsub => by
    obtain ⟨us, hus, hne⟩ := (Reads.plain hadmits hphrase hitems hlink).takes
    obtain rfl := hus.unique htakes
    have hparts := hitems.located hphrase.program_notMem htakes hordered hsub
    exact hparts.build _ htakes (hne hplace) hordered hsub
  | .enclosed _ hopen hinner hclose, _, htakes, hordered, hsub => by
    -- the node spans what stands between the parentheses, which is less than was taken
    obtain ⟨left, hleft, _⟩ := Cursor.exists_token hopen
    obtain ⟨right, hright, _⟩ := Cursor.exists_token hclose
    obtain ⟨us, hus, _⟩ := hinner.takes
    obtain rfl := htakes.unique (.cons hleft (hus.append (.single hright)))
    have hbetween : us.Sublist (left :: (us ++ [right])) :=
      .cons _ (List.sublist_append_left ..)
    obtain ⟨hlocated, hwithin⟩ := hinner.located nofun hus (hordered.sublist hbetween)
      (List.Subset.trans hbetween.subset hsub)
    exact ⟨hlocated, hwithin.mono hbetween.subset⟩
  | .through hthrough hinner, _, htakes, hordered, hsub =>
    hinner.located (by cases hthrough <;> nofun) htakes hordered hsub

/-- The parts of a phrase stand one behind the other among its tokens. -/
theorem ReadsItems.located {levels : Nat} {items : List Item} {c c' : Cursor} {ns : List Node}
    {ts tokens : List Token} :
    ReadsItems Cursor.Implied levels items c ns c' → .part .program ∉ items → c.Takes ts c' →
      Ordered ts → ts ⊆ tokens → Siblings tokens ts ns
  | .nil, _, _, _, _ => .nil
  | .word ht _ hitems, hprogram, htakes, hordered, hsub => by
    obtain ⟨us, hus, _⟩ := hitems.takes
    obtain rfl := htakes.unique (.cons ht hus)
    exact .behind (hitems.located (fun h => hprogram (.tail _ h)) hus) hordered hsub
  | .part hn hitems, hprogram, htakes, hordered, hsub => by
    obtain ⟨us, hus, _⟩ := hn.takes
    obtain ⟨vs, hvs, _⟩ := hitems.takes
    obtain rfl := htakes.unique (hus.append hvs)
    have hleft := List.sublist_append_left us vs
    have hright := List.sublist_append_right us vs
    obtain ⟨hlocated, hwithin⟩ := hn.located (fun hplace => hprogram (hplace ▸ .head _)) hus
      (hordered.sublist hleft) (List.Subset.trans hleft.subset hsub)
    have hothers := hitems.located (fun h => hprogram (.tail _ h)) hvs (hordered.sublist hright)
      (List.Subset.trans hright.subset hsub)
    exact .cons hordered hwithin hlocated hothers
  | .hole hmark hitems, hprogram, htakes, hordered, hsub => by
    -- the part has no tokens, so the mark behind it stands in for them
    obtain ⟨t, ht, _⟩ := Cursor.exists_token hmark
    obtain ⟨us, hus, _⟩ := hitems.takes
    obtain rfl := htakes.unique (.cons ht hus)
    have htail := List.sublist_append_right [t] us
    obtain ⟨hlocated, hwithin⟩ := hole_located ht (hordered.start_le_stop t List.mem_cons_self)
    have hothers := hitems.located (fun h => hprogram (.tail _ h)) hus (hordered.sublist htail)
      (List.Subset.trans htail.subset hsub)
    exact .cons hordered hwithin hlocated hothers
  | .semicolon hmark hitems, hprogram, htakes, hordered, hsub => by
    obtain ⟨t, ht, _⟩ := Cursor.exists_token hmark
    obtain ⟨us, hus, _⟩ := hitems.takes
    obtain rfl := htakes.unique (.cons ht hus)
    exact .behind (hitems.located (fun h => hprogram (.tail _ h)) hus) hordered hsub
  | .ended hmark hitems, hprogram, htakes, hordered, hsub => by
    obtain ⟨t, ht, _⟩ := Cursor.exists_token hmark
    obtain ⟨us, hus, _⟩ := hitems.takes
    obtain rfl := htakes.unique (.cons ht hus)
    exact .behind (hitems.located (fun h => hprogram (.tail _ h)) hus) hordered hsub
  | .implied _ _ hitems, hprogram, htakes, hordered, hsub =>
    hitems.located (fun h => hprogram (.tail _ h)) htakes hordered hsub
  | .unended _ hitems, hprogram, htakes, hordered, hsub =>
    hitems.located (fun h => hprogram (.tail _ h)) htakes hordered hsub
  | .sameLine _ hitems, hprogram, htakes, hordered, hsub =>
    hitems.located (fun h => hprogram (.tail _ h)) htakes hordered hsub
end

/-- A program that takes all tokens spans them. -/
theorem program_located {levels : Nat} {c c' : Cursor} {n : Node}
    (h : Reads Cursor.Implied levels .program c n c') (hrest : c'.rest = [])
    (hordered : Ordered c.rest) :
    n.Everywhere (·.Located c.rest) := by
  cases h with
  | @plain _ _ form _ _ _ children _ hphrase hitems _ =>
    have hform : form = .program := by
      cases hphrase
      rfl
    obtain ⟨ts, htakes, _⟩ := hitems.takes
    obtain rfl : ts = c.rest := by
      rw [htakes.rest, hrest, List.append_nil]
    have hparts := hitems.located hphrase.program_notMem htakes hordered (List.Subset.refl _)
    by_cases hne : c.rest = []
    -- an empty program has no children, and starts and ends where the last token did
    · have hspan : c.here = c'.lastEnd := by
        rw [Cursor.here, Cursor.lastEnd, Cursor.lastEnd, htakes.previous, hne]
        rfl
      have hchildren : ∀ child, child ∉ children := by
        intro child hchild
        obtain ⟨t, ht, _⟩ := (hparts.within child hchild).le_start
        rw [hne] at ht
        cases ht
      obtain rfl : children = [] := List.eq_nil_iff_forall_not_mem.2 hchildren
      rw [← hspan]
      refine .intro ⟨Position.le_refl _, List.forall_mem_nil _, .nil, fun _ hprogram => ?_⟩
        (List.forall_mem_nil _)
      exact absurd rfl (hprogram hform)
    · exact (hparts.build _ htakes hne hordered (List.Subset.refl _)).1
  | through hthrough _ => cases hthrough

/-- The tokens of a lexer are in order. Where tokens are, the nodes of a script stand where their
tokens do: each spans its children, which are in order, and starts and ends with a token. The same
holds of a program or an expression that is read from anywhere in the tokens. -/
theorem nodes_located :
    (∀ lexer : Lexer, Ordered lexer.tokenize.1) ∧
    ∀ tokens, Ordered tokens →
      (∀ root, parseTokens tokens = .ok root →
        root.Everywhere (·.Located (tokens.filter fun t => !t.isTrivia))) ∧
      ∀ c : Cursor, c.rest <:+ tokens.filter (fun t => !t.isTrivia) →
        (∀ root c', c.rest ≠ [] → Grammar.program c = .ok root c' →
          root.Everywhere (·.Located c.rest)) ∧
        ∀ allowIn n c', Grammar.topExpression allowIn c = .ok n c' →
          ∃ ts, c.Takes ts c' ∧ n.Everywhere (·.Located ts) := by
  refine ⟨fun lexer => lexer.tokenize_ordered.1, fun tokens hordered => ?_⟩
  have hfiltered : Ordered (tokens.filter fun t => !t.isTrivia) :=
    hordered.sublist List.filter_sublist
  refine ⟨fun root hroot => ?_, fun c hsuffix => ⟨fun root c' hne hroot => ?_, ?_⟩⟩
  · obtain ⟨last, hread⟩ := program_reads_of_parseTokens hroot
    exact program_located hread rfl hfiltered
  · obtain ⟨hread, hrest⟩ := Grammar.program_reads hroot fun hnil => absurd hnil hne
    exact program_located hread hrest (hfiltered.sublist hsuffix.sublist)
  · intro allowIn n c' hn
    have hread := Grammar.topExpression_reads hn
    obtain ⟨ts, htakes, _⟩ := hread.takes
    have hsub : ts.Sublist (tokens.filter fun t => !t.isTrivia) := by
      refine .trans ?_ hsuffix.sublist
      rw [htakes.rest]
      exact List.sublist_append_left ..
    obtain ⟨hlocated, _⟩ :=
      hread.located nofun htakes (hfiltered.sublist hsub) (List.Subset.refl ts)
    exact ⟨ts, htakes, hlocated⟩

/-- A script with parentheses that leave no trace, a hole in an array, clauses that are left out and
a terminator. -/
theorem nodes_located_loop :
    Ordered (tokenize "for (;;) x = [, (y)];") ∧
      ∃ root, parseTokens (tokenize "for (;;) x = [, (y)];") = .ok root ∧
        root.Everywhere
          (·.Located ((tokenize "for (;;) x = [, (y)];").filter fun t => !t.isTrivia)) := by
  have hordered : Ordered (tokenize "for (;;) x = [, (y)];") :=
    ⟨by decide +kernel, by decide +kernel⟩
  obtain ⟨root, hroot⟩ := exists_tree
    (show (parseTokens (tokenize "for (;;) x = [, (y)];")).isOk = true by decide +kernel)
  exact ⟨hordered, root, hroot, (nodes_located.2 _ hordered).1 root hroot⟩

end ScriptLint
