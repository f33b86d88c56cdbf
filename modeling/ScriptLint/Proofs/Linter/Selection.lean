import ScriptLint.Proofs.Linter.Blanks
import ScriptLint.Proofs.Pattern.Literal

/-!
# Settings select rules

Settings name rules that are left out and may give a pattern for names. They are refused if a name
is not that of a built-in rule, or else if the engine refuses the pattern. A linter that settings
ask for says what the linter with all rules and the same pattern says, without the entries of the
rules that are left out (`ofSettings_selects`). All of this holds with every engine.

The rules do not get in each other's way because an entry is made by one rule and carries its name,
so that to leave out rules and to delete their entries is the same (`runRules_filter`).
-/

namespace ScriptLint

/-- The name of a built-in rule. -/
def PatternEngine.IsRuleName (engine : PatternEngine) (name : String) : Prop :=
  ∃ rule ∈ Rule.builtin engine, rule.name = name

/-- Whether an entry comes from one of the rules with the given names. -/
def Report.isFrom (names : List String) (report : Report) : Bool :=
  report.checker?.any names.contains

namespace Settings

variable (engine : PatternEngine) (settings : Settings)

/-- All rules that are left out exist. -/
def Known : Prop := ∀ name ∈ settings.disabledRules, engine.IsRuleName name

/-- `name` is the first of the rules that are left out and do not exist. -/
def FirstUnknown (name : String) : Prop :=
  ∃ before after, settings.disabledRules = before ++ name :: after ∧
    (∀ other ∈ before, engine.IsRuleName other) ∧ ¬ engine.IsRuleName name

/-- The engine takes the pattern for names, if there is one. -/
def Compiles : Prop :=
  ∀ source, settings.namePattern = some source → ∃ isMatch, engine.compile source = .ok isMatch

/-- The engine refuses the pattern for names. -/
def Refused (source reason : String) : Prop :=
  settings.namePattern = some source ∧ engine.compile source = .error reason

/-- The same pattern, with no rule left out. -/
def enablingAll : Settings := { settings with disabledRules := [] }

/-- `settings.Tunes engine rules` says that `rules` are all built-in rules, where the rule about
names has the pattern of the settings if they give one. -/
inductive Tunes : List Rule → Prop where
  | default : settings.namePattern = none → Tunes (Rule.builtin engine)
  | given {source : String} {isMatch : String → Bool} :
      settings.namePattern = some source → engine.compile source = .ok isMatch →
      Tunes ((Rule.builtin engine).map fun rule =>
        if rule.name = Rule.namingName then .naming ⟨source, isMatch⟩ else rule)

end Settings

/-! ## Rules and their entries -/

section Names

variable {engine : PatternEngine} {name : String}

theorem Rule.any_name_iff :
    ((Rule.builtin engine).any fun rule => rule.name == name) = true ↔ engine.IsRuleName name := by
  simp only [List.any_eq_true, beq_iff_eq, PatternEngine.IsRuleName]

/-- Gaps are not reported under the name of a rule. -/
theorem not_isRuleName_gapChecker : ¬ engine.IsRuleName Linter.gapChecker := by
  rintro ⟨rule, hrule, hname⟩
  simp only [Rule.builtin, List.mem_append, List.mem_cons, List.not_mem_nil, or_false,
    List.mem_map] at hrule
  have hnaming : Rule.namingName ≠ Linter.gapChecker := by decide
  obtain ((rfl | rfl | rfl) | ⟨pattern, -, rfl⟩) | rfl := hrule
  case inl.inr => exact hnaming hname
  all_goals exact absurd hname (by decide)

end Names

/-- An entry bears the name of the rule that made it. -/
theorem Rule.checker?_reportAt? {rule : Rule} {symbols : Symbols} {visit : Visit} {report : Report}
    (h : rule.reportAt? symbols visit = some report) : report.checker? = some rule.name := by
  unfold reportAt? at h
  split at h
  · split at h
    · cases h
    · cases h
      rfl
  · cases h

/-- Rules that are chosen by their names, and entries that are chosen by the name they carry, at one
node. -/
theorem filterMap_filter_checker {p : Report → Bool} {keep : String → Bool}
    (h : ∀ report name, report.checker? = some name → p report = keep name) (rules : List Rule)
    (symbols : Symbols) (visit : Visit) :
    (rules.filter fun rule => keep rule.name).filterMap (·.reportAt? symbols visit) =
      (rules.filterMap (·.reportAt? symbols visit)).filter p := by
  rw [List.filterMap_filter, List.filter_filterMap]
  congr 1
  funext rule
  cases hreport : rule.reportAt? symbols visit with
  | none => simp
  | some report =>
    rw [Option.filter_some, h report rule.name (Rule.checker?_reportAt? hreport)]

/-- To choose rules by name is to choose their entries. -/
theorem runRules_filter (p : Report → Bool) (keep : String → Bool)
    (h : ∀ report name, report.checker? = some name → p report = keep name) (root : Node)
    (symbols : Symbols) (rules : List Rule) :
    runRules root symbols (rules.filter fun rule => keep rule.name) =
      (runRules root symbols rules).filter p := by
  rw [runRules, runRules, List.filter_flatMap]
  congr 1
  funext visit
  exact filterMap_filter_checker h rules symbols visit

theorem Report.isFrom_of_checker? {names : List String} {report : Report} {name : String}
    (h : report.checker? = some name) : report.isFrom names = names.contains name := by
  rw [isFrom, h, Option.any_some]

/-- The entry about gaps is kept unless gaps are left out by name. -/
theorem filter_gapReport? {names : List String} (h : Linter.gapChecker ∉ names) (gaps : List Gap) :
    ((Linter.gapReport? gaps).toList.filter fun report => !report.isFrom names) =
      (Linter.gapReport? gaps).toList := by
  refine List.filter_eq_self.2 fun report hreport => ?_
  cases gaps with
  | nil => cases hreport
  | cons gap gaps =>
    obtain rfl := List.mem_singleton.1 hreport
    simpa [Report.isFrom, Report.checker?] using h

/-- A linter without some rules says what the linter with all of them says, without the entries of
these rules. -/
theorem Linter.analyze_filter (rules : List Rule) {names : List String}
    (h : gapChecker ∉ names) (source : String) :
    analyze ⟨rules.filter fun rule => !names.contains rule.name⟩ source =
      (analyze ⟨rules⟩ source).filter fun report => !report.isFrom names := by
  rw [analyze_eq, analyze_eq]
  cases parse source with
  | error e => rfl
  | ok root =>
    dsimp only
    have hrules := runRules_filter (fun report => !report.isFrom names)
      (fun name => !names.contains name)
      (fun report name hname => by rw [Report.isFrom_of_checker? hname]) root (.ofTree root) rules
    rw [List.filter_append, filter_gapReport? h, hrules]

/-! ## What settings ask for -/

namespace Linter

variable {engine : PatternEngine} {settings : Settings}

/-- Among rules with different names the first of a name is the only one. -/
theorem replaceFirst_eq_map (new : Rule) {rules : List Rule} (h : (rules.map Rule.name).Nodup) :
    replaceFirst new rules = rules.map fun rule => if rule.name = new.name then new else rule := by
  induction rules with
  | nil => rfl
  | cons rule rules ih =>
    obtain ⟨hnew, hrules⟩ := List.nodup_cons.1 h
    rw [replaceFirst, List.map_cons]
    split
    · next hname =>
      have hother : ∀ other ∈ rules, (if other.name = new.name then new else other) = other :=
        fun other hmem => if_neg fun heq =>
          hnew (List.mem_map.2 ⟨other, hmem, heq.trans hname.symm⟩)
      rw [List.map_congr_left hother, List.map_id']
    · rw [ih hrules]

/-- A rule that takes the place of those of its name can do so before rules are left out. -/
theorem map_replace_filter (new : Rule) (keep : String → Bool) (rules : List Rule) :
    ((rules.filter fun rule => keep rule.name).map fun rule =>
        if rule.name = new.name then new else rule) =
      (rules.map fun rule => if rule.name = new.name then new else rule).filter
        fun rule => keep rule.name := by
  rw [List.filter_map]
  congr 2
  funext rule
  dsimp only [Function.comp]
  split
  · next hname => rw [hname]
  · rfl

/-- No two built-in rules have the same name, with any engine. -/
theorem nodup_builtin (engine : PatternEngine) : ((Rule.builtin engine).map Rule.name).Nodup := by
  rw [Rule.builtin]
  cases engine.pattern Rule.defaultNamePattern with
  | error reason =>
    show ["Unknown identifier", "Unused identifier", "Wrong number of arguments",
      "Return outside function"].Nodup
    decide
  | ok pattern =>
    show ["Unknown identifier", "Unused identifier", "Wrong number of arguments", Rule.namingName,
      "Return outside function"].Nodup
    decide

/-- The rules that settings choose, given the rules with the pattern that they ask for. -/
theorem applyPattern_filter {source : String} {isMatch : String → Bool} (keep : String → Bool)
    (h : engine.compile source = .ok isMatch) :
    applyPattern engine ((Rule.builtin engine).filter fun rule => keep rule.name) (some source) =
      .ok (((Rule.builtin engine).map fun rule =>
        if rule.name = Rule.namingName then .naming ⟨source, isMatch⟩ else rule).filter
          fun rule => keep rule.name) := by
  have hnodup := (nodup_builtin engine).sublist
    (List.filter_sublist (p := fun rule : Rule => keep rule.name).map Rule.name)
  rw [applyPattern, PatternEngine.pattern, h]
  dsimp only [Except.map]
  rw [replaceFirst_eq_map _ hnodup]
  exact congrArg Except.ok (map_replace_filter (.naming ⟨source, isMatch⟩) keep _)

/-- If all names are known, the other rules stay. -/
theorem selectRules_of_known (h : settings.Known engine) :
    selectRules (Rule.builtin engine) settings.disabledRules =
      .ok ((Rule.builtin engine).filter fun rule =>
        !settings.disabledRules.contains rule.name) := by
  have hnone : (settings.disabledRules.find? fun name =>
      !(Rule.builtin engine).any (·.name == name)) = none := by
    refine List.find?_eq_none.2 fun name hname => ?_
    rw [Rule.any_name_iff.2 (h name hname)]
    exact Bool.false_ne_true
  rw [selectRules, hnone]

/-- The first name that is not known is what the selection fails with. -/
theorem selectRules_of_firstUnknown {name : String} (h : settings.FirstUnknown engine name) :
    selectRules (Rule.builtin engine) settings.disabledRules = .error (.unknownRule name) := by
  obtain ⟨before, after, hlist, hbefore, hname⟩ := h
  have hfound : (settings.disabledRules.find? fun name =>
      !(Rule.builtin engine).any (·.name == name)) = some name := by
    refine List.find?_eq_some_iff_append.2 ⟨?_, before, after, hlist, fun other hother => ?_⟩
    · rw [Bool.not_eq_true', ← Bool.not_eq_true, Rule.any_name_iff]
      exact hname
    · rw [Rule.any_name_iff.2 (hbefore other hother)]
      rfl
  rw [selectRules, hfound]

/-- Rules that are left out all exist, or there is a first one that does not. -/
theorem known_or_firstUnknown (engine : PatternEngine) (settings : Settings) :
    settings.Known engine ∨ ∃ name, settings.FirstUnknown engine name := by
  cases hfind : settings.disabledRules.find? fun name =>
      !(Rule.builtin engine).any (·.name == name) with
  | none =>
    refine .inl fun name hname => Rule.any_name_iff.1 ?_
    simpa using List.find?_eq_none.1 hfind name hname
  | some name =>
    obtain ⟨hunknown, before, after, hlist, hbefore⟩ := List.find?_eq_some_iff_append.1 hfind
    refine .inr ⟨name, before, after, hlist, fun other hother => ?_, fun hname => ?_⟩
    · refine Rule.any_name_iff.1 ?_
      simpa using hbefore other hother
    · rw [Rule.any_name_iff.2 hname] at hunknown
      cases hunknown

/-- An unknown rule is reported before the pattern is looked at. -/
theorem ofSettings_of_firstUnknown {name : String} (h : settings.FirstUnknown engine name) :
    ofSettings engine settings = .error (.unknownRule name) := by
  rw [ofSettings, selectRules_of_firstUnknown h]
  rfl

/-- If all names are known, only the pattern can fail. -/
theorem ofSettings_of_known (h : settings.Known engine) :
    ofSettings engine settings =
      (applyPattern engine ((Rule.builtin engine).filter fun rule =>
        !settings.disabledRules.contains rule.name) settings.namePattern).map Linter.mk := by
  rw [ofSettings, selectRules_of_known h]
  rfl

/-- Settings with the same pattern choose from the same rules. -/
theorem exists_rules (h : settings.Compiles engine) :
    ∃ rules, settings.Tunes engine rules ∧
      ∀ other : Settings, other.namePattern = settings.namePattern → other.Known engine →
        ofSettings engine other =
          .ok ⟨rules.filter fun rule => !other.disabledRules.contains rule.name⟩ := by
  cases hsource : settings.namePattern with
  | none =>
    refine ⟨_, .default hsource, fun other hother hknown => ?_⟩
    rw [ofSettings_of_known hknown, hother]
    rfl
  | some source =>
    obtain ⟨isMatch, hcompile⟩ := h source hsource
    refine ⟨_, .given hsource hcompile, fun other hother hknown => ?_⟩
    rw [ofSettings_of_known hknown, hother,
      applyPattern_filter (fun name => !other.disabledRules.contains name) hcompile]
    rfl

/-- A pattern that is refused is reported where all rules exist, also if its rule is left out. -/
theorem ofSettings_of_refused {source reason : String} (h : settings.Known engine)
    (hrefused : settings.Refused engine source reason) :
    ofSettings engine settings = .error (.invalidPattern source reason) := by
  obtain ⟨hsource, hcompile⟩ := hrefused
  rw [ofSettings_of_known h, hsource, applyPattern, PatternEngine.pattern, hcompile]
  rfl

/-- The engine compiles the pattern or tells a reason. -/
theorem compiles_or_refused (engine : PatternEngine) (settings : Settings) :
    settings.Compiles engine ∨ ∃ source reason, settings.Refused engine source reason := by
  cases hsource : settings.namePattern with
  | none => exact .inl fun source h => by rw [hsource] at h; cases h
  | some source =>
    cases hcompile : engine.compile source with
    | error reason => exact .inr ⟨source, reason, hsource, hcompile⟩
    | ok isMatch =>
      refine .inl fun other hother => ⟨isMatch, ?_⟩
      rw [hsource] at hother
      cases hother
      exact hcompile

/-- There is a linter just if all names are known and the pattern compiles. -/
theorem ofSettings_eq_ok_iff (engine : PatternEngine) (settings : Settings) :
    (∃ linter, ofSettings engine settings = .ok linter) ↔
      settings.Known engine ∧ settings.Compiles engine := by
  constructor
  · rintro ⟨linter, hok⟩
    have hknown : settings.Known engine := by
      refine (known_or_firstUnknown engine settings).resolve_right ?_
      rintro ⟨name, hname⟩
      rw [ofSettings_of_firstUnknown hname] at hok
      cases hok
    refine ⟨hknown, (compiles_or_refused engine settings).resolve_right ?_⟩
    rintro ⟨source, reason, hrefused⟩
    rw [ofSettings_of_refused hknown hrefused] at hok
    cases hok
  · rintro ⟨hknown, hcompiles⟩
    obtain ⟨rules, -, hrules⟩ := exists_rules hcompiles
    exact ⟨_, hrules settings rfl hknown⟩

/-- An unknown name is told before a pattern that does not compile. -/
theorem ofSettings_eq_error_iff (engine : PatternEngine) (settings : Settings)
    (e : SettingsError) :
    ofSettings engine settings = .error e ↔
      (∃ name, settings.FirstUnknown engine name ∧ e = .unknownRule name) ∨
      (settings.Known engine ∧ ∃ source reason, settings.Refused engine source reason ∧
        e = .invalidPattern source reason) := by
  constructor
  · intro herror
    obtain hknown | ⟨name, hname⟩ := known_or_firstUnknown engine settings
    · obtain hcompiles | ⟨source, reason, hrefused⟩ := compiles_or_refused engine settings
      · obtain ⟨linter, hok⟩ := (ofSettings_eq_ok_iff engine settings).2 ⟨hknown, hcompiles⟩
        rw [hok] at herror
        cases herror
      · rw [ofSettings_of_refused hknown hrefused] at herror
        exact .inr ⟨hknown, source, reason, hrefused, (Except.error.inj herror).symm⟩
    · rw [ofSettings_of_firstUnknown hname] at herror
      exact .inl ⟨name, hname, (Except.error.inj herror).symm⟩
  · rintro (⟨name, hname, rfl⟩ | ⟨hknown, source, reason, hrefused, rfl⟩)
    · exact ofSettings_of_firstUnknown hname
    · exact ofSettings_of_refused hknown hrefused

end Linter

/-- Rules that are left out are the same in any order and however often they are named. -/
theorem filter_disabled_congr (rules : List Rule) {names others : List String}
    (h : ∀ name, name ∈ others ↔ name ∈ names) :
    (rules.filter fun rule => !others.contains rule.name) =
      rules.filter fun rule => !names.contains rule.name := by
  refine List.filter_congr fun rule _ => ?_
  rw [List.contains_eq_mem, List.contains_eq_mem, decide_eq_decide.2 (h rule.name)]

/-- Settings are taken exactly if all rules that they leave out exist and the engine takes their
pattern. They are refused for the first rule that does not exist, or else for the pattern. A linter
that settings ask for says about every script what the linter with all rules and the same pattern
says, without the entries of the rules that are left out, of which gaps are none. That linter has
the built-in rules, and its rule about names has the pattern of the settings. The order of the rules
that are left out does not matter, nor how often they are named. -/
theorem ofSettings_selects (engine : PatternEngine) (settings : Settings) :
    ((∃ linter, Linter.ofSettings engine settings = .ok linter) ↔
      settings.Known engine ∧ settings.Compiles engine) ∧
    (∀ e, Linter.ofSettings engine settings = .error e ↔
      (∃ name, settings.FirstUnknown engine name ∧ e = .unknownRule name) ∨
      (settings.Known engine ∧ ∃ source reason, settings.Refused engine source reason ∧
        e = .invalidPattern source reason)) ∧
    ∀ linter, Linter.ofSettings engine settings = .ok linter →
      Linter.gapChecker ∉ settings.disabledRules ∧
      (∃ full, Linter.ofSettings engine settings.enablingAll = .ok full ∧
        settings.Tunes engine full.rules ∧
        ∀ source, linter.analyze source =
          (full.analyze source).filter fun report => !report.isFrom settings.disabledRules) ∧
      ∀ names : List String, (∀ name, name ∈ names ↔ name ∈ settings.disabledRules) →
        Linter.ofSettings engine { settings with disabledRules := names } = .ok linter := by
  refine ⟨Linter.ofSettings_eq_ok_iff engine settings,
    Linter.ofSettings_eq_error_iff engine settings, ?_⟩
  intro linter hok
  obtain ⟨hknown, hcompiles⟩ := (Linter.ofSettings_eq_ok_iff engine settings).1 ⟨linter, hok⟩
  obtain ⟨rules, htunes, hrules⟩ := Linter.exists_rules hcompiles
  have hlinter : linter = ⟨rules.filter fun rule =>
      !settings.disabledRules.contains rule.name⟩ :=
    Except.ok.inj (hok.symm.trans (hrules settings rfl hknown))
  have hgap : Linter.gapChecker ∉ settings.disabledRules :=
    fun hmem => not_isRuleName_gapChecker (hknown _ hmem)
  refine ⟨hgap, ⟨⟨rules⟩, ?_, htunes, fun source => ?_⟩, fun names hnames => ?_⟩
  · have hall : (rules.filter fun rule =>
        !settings.enablingAll.disabledRules.contains rule.name) = rules :=
      List.filter_eq_self.2 fun _ _ => rfl
    rw [hrules settings.enablingAll rfl (List.forall_mem_nil _), hall]
  · rw [hlinter, Linter.analyze_filter rules hgap]
  · have hother : Settings.Known engine { settings with disabledRules := names } :=
      fun name hname => hknown name ((hnames name).1 hname)
    rw [hrules { settings with disabledRules := names } rfl hother, hlinter,
      filter_disabled_congr rules hnames]

/-- Two rules are left out, one of them twice and in another order, and the names that are reported
have another pattern. -/
theorem ofSettings_selects_twice :
    let settings : Settings :=
      ⟨["Unused identifier", "No funny names", "Unused identifier"], some "tmp"⟩
    ∃ linter full, Linter.ofSettings Regex.engine settings = .ok linter ∧
      Linter.ofSettings Regex.engine settings.enablingAll = .ok full ∧
      settings.Tunes Regex.engine full.rules ∧
      (∀ source, linter.analyze source =
        (full.analyze source).filter fun report => !report.isFrom settings.disabledRules) ∧
      Linter.ofSettings Regex.engine ⟨["No funny names", "Unused identifier"], some "tmp"⟩ =
        .ok linter := by
  intro settings
  obtain ⟨hok, -, hselects⟩ := ofSettings_selects Regex.engine settings
  have hknown : settings.Known Regex.engine := by
    have hall : settings.disabledRules.all fun name =>
        (Rule.builtin Regex.engine).any fun rule => rule.name == name := by decide +kernel
    exact fun name hname => Rule.any_name_iff.1 (List.all_eq_true.1 hall name hname)
  have hcompiles : settings.Compiles Regex.engine := by
    rintro _ ⟨⟩
    obtain ⟨regex, hregex⟩ := Option.isSome_iff_exists.1
      (show (Regex.parse? "tmp").isSome = true by decide +kernel)
    exact ⟨_, Regex.engine_compile hregex⟩
  obtain ⟨linter, hlinter⟩ := hok.2 ⟨hknown, hcompiles⟩
  obtain ⟨-, ⟨full, hfull, htunes, hanalyze⟩, hnames⟩ := hselects linter hlinter
  exact ⟨linter, full, hlinter, hfull, htunes, hanalyze, hnames _ (by simp [settings])⟩

end ScriptLint
