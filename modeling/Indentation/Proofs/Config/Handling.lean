import Indentation.Command.Run
import Indentation.Proofs.Lint.Findings

/-!
# How findings are handled

The overlay says how the findings of a rule are handled.  A rule that the table puts on keeps the mode
that the overlay gives it, however often its options are replaced.  A rule that comes in with its
options is not looked up in the overlay.
-/

namespace Indentation

namespace Configuration

def ruleNames (c : Configuration) : List String := c.rules.map ConfiguredRule.name

/-- Replace the options of some rules, one after the other. -/
def overrideAll (c : Configuration) (steps : List (String × List Json)) : Configuration :=
  steps.foldl (fun c (name, options) => c.override name options) c

/-- The rules of a table that are in a configuration have the modes of the overlay, and all others are
fixed. -/
structure Handles (o : Overlay) (table : List String) (c : Configuration) : Prop where
  names : ∀ name ∈ table, name ∈ c.ruleNames
  mode : ∀ r ∈ c.rules, r.mode = if r.name ∈ table then o.ruleMode r.name else .fix

/-! ## One replacement -/

theorem mem_map_name_replaceOptions {name other : String} {options : List Json}
    {rules : List ConfiguredRule} :
    other ∈ (replaceOptions name options rules).map ConfiguredRule.name ↔
      other = name ∨ other ∈ rules.map ConfiguredRule.name := by
  induction rules with
  | nil => simp [replaceOptions]
  | cons r rules ih =>
    rw [replaceOptions]
    split
    · next heq =>
      subst heq
      simp only [List.map_cons, List.mem_cons]
      rw [or_self_left]
    · simp only [List.map_cons, List.mem_cons, ih]
      rw [or_left_comm]

/-- A replacement leaves the mode of a rule as it is.  It comes in only if its name is new. -/
theorem exists_of_mem_replaceOptions {name : String} {options : List Json}
    {rules : List ConfiguredRule} {r : ConfiguredRule} (h : r ∈ replaceOptions name options rules) :
    (∃ before ∈ rules, before.name = r.name ∧ before.mode = r.mode) ∨
      (r = ⟨name, options, .fix⟩ ∧ name ∉ rules.map ConfiguredRule.name) := by
  induction rules with
  | nil => exact .inr ⟨List.mem_singleton.1 h, List.not_mem_nil⟩
  | cons first rules ih =>
    rw [replaceOptions] at h
    split at h
    · rcases List.mem_cons.1 h with rfl | hrest
      · exact .inl ⟨first, List.mem_cons_self, rfl, rfl⟩
      · exact .inl ⟨r, List.mem_cons_of_mem first hrest, rfl, rfl⟩
    · next hne =>
      rcases List.mem_cons.1 h with rfl | hrest
      · exact .inl ⟨r, List.mem_cons_self, rfl, rfl⟩
      · refine (ih hrest).imp ?_ ?_
        · rintro ⟨before, hbefore, hsame⟩
          exact ⟨before, List.mem_cons_of_mem first hbefore, hsame⟩
        · rintro ⟨hnew, hnot⟩
          exact ⟨hnew, List.not_mem_cons_of_ne_of_not_mem (Ne.symm hne) hnot⟩

variable {o : Overlay} {table : List String} {c : Configuration}

theorem Handles.override (h : Handles o table c) (name : String) (options : List Json) :
    Handles o table (c.override name options) where
  names := fun other hother => mem_map_name_replaceOptions.2 (.inr (h.names other hother))
  mode := fun r hr => by
    rcases exists_of_mem_replaceOptions hr with ⟨before, hbefore, hname, hmode⟩ | ⟨rfl, hnew⟩
    · rw [← hmode, ← hname]
      exact h.mode before hbefore
    · exact (if_neg fun hin => hnew (h.names name hin)).symm

theorem Handles.overrideAll (h : Handles o table c) (steps : List (String × List Json)) :
    Handles o table (c.overrideAll steps) := by
  induction steps generalizing c with
  | nil => exact h
  | cons step steps ih => exact ih (h.override step.1 step.2)

/-- The unit on the command line replaces the options of one rule. -/
theorem Handles.withUnit (h : Handles o table c) (unit : Option Json) :
    Handles o table (Command.withUnit unit c) := by
  cases unit with
  | none => exact h
  | some unit => exact h.override IndentRule.name _

/-! ## The configuration of a table and an overlay -/

theorem mode_of_mem_rulesOf {entries : Option RuleTable} {rules : List ConfiguredRule}
    (h : rulesOf o entries = .ok rules) {r : ConfiguredRule} (hr : r ∈ rules) :
    r.mode = o.ruleMode r.name := by
  cases entries with
  | none =>
    obtain rfl : [ruleOf o defaultRule []] = rules := by simpa [rulesOf] using h
    obtain rfl := List.mem_singleton.1 hr
    rfl
  | some t =>
    rw [rulesOf] at h
    obtain ⟨es, -, h⟩ := bind_eq_ok_iff.1 h
    obtain rfl := Except.ok.inj h
    obtain ⟨e, -, rfl⟩ := List.mem_map.1 hr
    rfl

/-- A table of good entries makes a configuration, and so does no table. -/
theorem exists_of {entries : Option RuleTable} (overlay : Option Overlay)
    (hgood : ∀ t ∈ entries, ∀ e ∈ t.entries, ∃ entry, RuleEntry.read e.1 e.2 = .ok entry) :
    ∃ c, Configuration.of entries overlay = .ok c ∧
      rulesOf (overlay.getD .none) entries = .ok c.rules := by
  obtain ⟨rules, hrules⟩ : ∃ rules, rulesOf (overlay.getD .none) entries = .ok rules := by
    cases entries with
    | none => exact ⟨_, rfl⟩
    | some t =>
      obtain ⟨es, hes, -⟩ : ∃ es, t.rules = .ok es ∧ List.Forall₂ (fun _ _ => True) t.entries es :=
        exists_mapM_ok fun e he => by
          obtain ⟨entry, hentry⟩ := hgood t rfl e he
          exact ⟨entry, hentry, trivial⟩
      rw [rulesOf, hes]
      exact ⟨_, rfl⟩
  rw [Configuration.of, hrules]
  exact ⟨_, rfl, rfl⟩

theorem handles_of (h : rulesOf o entries = .ok c.rules) : Handles o c.ruleNames c where
  names := fun _ hname => hname
  mode := fun r hr => by
    have hin : r.name ∈ c.ruleNames := List.mem_map_of_mem hr
    rw [if_pos hin, mode_of_mem_rulesOf h hr]

end Configuration

/-! ## The linter of a configuration -/

/-- The rules that are made carry the names that they are made for. -/
def Registry.KeepsNames (registry : Registry) : Prop :=
  ∀ name options rule, registry.make? name options = some (.ok rule) → rule.name = name

theorem Registry.keepsNames_standard : Registry.standard.KeepsNames := by
  intro name options rule h
  simp only [make?, maker?, standard, List.lookup_cons, List.lookup_nil] at h
  by_cases hname : name = IndentRule.name
  · subst hname
    rw [BEq.rfl, Option.map_some, Option.some.injEq, IndentRule.read] at h
    cases hread : IndentOptions.read options with
    | error e => simp [hread, Except.map] at h
    | ok o =>
      obtain rfl : IndentRule.rule o = rule := by simpa [hread, Except.map] using h
      rfl
  · simp [beq_false_of_ne hname] at h

namespace Linter

variable {registry : Registry} {c : Configuration} {l : Linter}

theorem eq_of_activate {r : ConfiguredRule} {active : ActiveRule}
    (h : activate registry r = .ok (some active)) :
    registry.make? r.name r.options = some (.ok active.rule) ∧ active.keepsFixes = r.keepsFixes := by
  rw [activate] at h
  split at h
  · simp at h
  · next rule hmake =>
    obtain rfl : ActiveRule.mk rule r.keepsFixes = active := by simpa using h
    exact ⟨hmake, rfl⟩
  · cases h

/-- A rule that runs is in the configuration and not disabled there. -/
theorem exists_of_mem_ofConfiguration (h : ofConfiguration registry c = .ok l) {active : ActiveRule}
    (hactive : active ∈ l.rules) :
    ∃ r ∈ c.rules, r.mode ≠ .disabled ∧ registry.make? r.name r.options = some (.ok active.rule) ∧
      (active.keepsFixes = true ↔ r.mode = .fix) := by
  rw [ofConfiguration] at h
  obtain ⟨actives, hall, h⟩ := bind_eq_ok_iff.1 h
  obtain rfl := Except.ok.inj h
  obtain ⟨_, hmem, rfl⟩ := List.mem_filterMap.1 hactive
  obtain ⟨r, hr, hactivate⟩ := exists_of_mem_mapM hall hmem
  obtain ⟨hr, henabled⟩ := List.mem_filter.1 hr
  obtain ⟨hmake, hkeeps⟩ := eq_of_activate hactivate
  refine ⟨r, hr, by simpa [ConfiguredRule.isEnabled] using henabled, hmake, ?_⟩
  rw [hkeeps, ConfiguredRule.keepsFixes, decide_eq_true_eq]

/-- Each finding is of a rule that runs, and comes with a fix only if the fixes of that rule are kept. -/
theorem exists_of_mem_lint {parse : Parser} {round : Nat} {source : Text} {found : List Finding}
    (h : l.lint parse round source = .ok found) {f : Finding} (hf : f ∈ found) :
    ∃ active ∈ l.rules, f.rule = active.rule.name ∧
      (active.keepsFixes = false → f.violation.fix = none) := by
  rw [lint] at h
  split at h
  · cases h
  · next tree _ =>
    cases hclean : tree.tainted with
    | true => simp [lintTree, hclean] at h
    | false =>
      cases hd : Document.of source tree with
      | error cause => simp [lintTree, hclean, hd, LintError.orFault, bind, Except.bind] at h
      | ok d =>
        obtain ⟨active, hactive, -, -, v, -, rfl⟩ := exists_eq_of_mem_lintTree hclean hd h hf
        refine ⟨active, hactive, rfl, fun hkeeps => ?_⟩
        rw [if_neg (by simp [hkeeps])]

end Linter

namespace Configuration

/-- However often options are replaced, also by the unit of the command line, each rule that the table
puts on, or that runs without a table, has the mode of the overlay.  Such a rule does not run if it is
disabled, and if it is only to report then nothing that it finds has a fix.  A rule that comes in with
its options is fixed. -/
theorem exists_handled (entries : Option RuleTable) (overlay : Option Overlay)
    (hgood : ∀ t ∈ entries, ∀ e ∈ t.entries, ∃ entry, RuleEntry.read e.1 e.2 = .ok entry) :
    ∃ c, Configuration.of entries overlay = .ok c ∧
      ∀ (steps : List (String × List Json)) (unit : Option Json),
        let o := overlay.getD .none
        let c' := Command.withUnit unit (c.overrideAll steps)
        (∀ r ∈ c'.rules, r.mode = if r.name ∈ c.ruleNames then o.ruleMode r.name else .fix) ∧
        ∀ registry l, registry.KeepsNames → Linter.ofConfiguration registry c' = .ok l →
          (∀ active ∈ l.rules, active.rule.name ∈ c.ruleNames →
            o.ruleMode active.rule.name ≠ .disabled ∧
              (active.keepsFixes = true ↔ o.ruleMode active.rule.name = .fix)) ∧
          ∀ parse round source found, l.lint parse round source = .ok found →
            ∀ f ∈ found, f.rule ∈ c.ruleNames →
              o.ruleMode f.rule ≠ .disabled ∧ (o.ruleMode f.rule = .check → f.violation.fix = none) := by
  obtain ⟨c, hc, hrules⟩ := exists_of overlay hgood
  refine ⟨c, hc, fun steps unit => ?_⟩
  have hhandles := ((handles_of hrules).overrideAll steps).withUnit unit
  refine ⟨hhandles.mode, fun registry l hnames hl => ?_⟩
  have hactive : ∀ active ∈ l.rules, active.rule.name ∈ c.ruleNames →
      (overlay.getD .none).ruleMode active.rule.name ≠ .disabled ∧
        (active.keepsFixes = true ↔ (overlay.getD .none).ruleMode active.rule.name = .fix) := by
    intro active hactive hin
    obtain ⟨r, hr, henabled, hmake, hkeeps⟩ := Linter.exists_of_mem_ofConfiguration hl hactive
    rw [hnames _ _ _ hmake] at hin ⊢
    have hmode := hhandles.mode r hr
    rw [if_pos hin] at hmode
    rw [← hmode]
    exact ⟨henabled, hkeeps⟩
  refine ⟨hactive, fun parse round source found hfound f hf hin => ?_⟩
  obtain ⟨active, hmem, hrule, hfix⟩ := Linter.exists_of_mem_lint hfound hf
  rw [hrule] at hin ⊢
  obtain ⟨henabled, hkeeps⟩ := hactive active hmem hin
  refine ⟨henabled, fun hcheck => hfix (Bool.eq_false_iff.2 fun htrue => ?_)⟩
  rw [hkeeps.1 htrue] at hcheck
  cases hcheck

/-! ## A small configuration -/

/-- The rule is on, with a width. -/
def sampleTable : RuleTable := ⟨[(IndentRule.name, .arr [.str "error", .int 2])]⟩

/-- The rule is only to report. -/
def sampleOverlay : Overlay := { Overlay.none with modes := [(IndentRule.name, .check)] }

def sampleConfiguration : Configuration :=
  ⟨[⟨IndentRule.name, [.int 2], .check⟩], false, ["js", "mjs", "cjs", "jsx"], []⟩

/-- The rule runs with the unit of the command line, and only reports. -/
def sampleLinter : Linter := ⟨[⟨IndentRule.rule .standard, false⟩]⟩

theorem of_sampleTable :
    Configuration.of (some sampleTable) (some sampleOverlay) = .ok sampleConfiguration := rfl

theorem ofConfiguration_sampleConfiguration :
    Linter.ofConfiguration .standard (Command.withUnit (some (.int 4)) sampleConfiguration) =
      .ok sampleLinter := rfl

theorem exists_handled_sampleTable :
    ∃ found, sampleLinter.lint (fun _ _ => some IndentRule.sampleTree) 0 IndentRule.sampleText =
      .ok found ∧ ∀ f ∈ found, f.violation.fix = none := by
  obtain ⟨c, hc, hhandled⟩ := exists_handled (some sampleTable) (some sampleOverlay) fun t ht e he => by
    obtain rfl : sampleTable = t := by simpa using ht
    obtain rfl := List.mem_singleton.1 he
    exact ⟨⟨IndentRule.name, .error, [.int 2]⟩, rfl⟩
  obtain rfl := Except.ok.inj (of_sampleTable.symm.trans hc)
  obtain ⟨-, hlinter⟩ := hhandled [] (some (.int 4))
  obtain ⟨-, hfindings⟩ :=
    hlinter .standard _ Registry.keepsNames_standard ofConfiguration_sampleConfiguration
  have hindents : sampleLinter.Indents := fun active hactive => by
    rw [List.mem_singleton.1 hactive]
    exact ⟨.standard, rfl⟩
  obtain ⟨d, hd, -⟩ := IndentRule.exists_check_sampleTree
  obtain ⟨found, hfound⟩ := Linter.exists_lintTree rfl IndentRule.fits_sampleTree hd
    (IndentRule.inOrder_sampleTree d.stream) hindents
  have hlint : sampleLinter.lint (fun _ _ => some IndentRule.sampleTree) 0 IndentRule.sampleText =
    .ok found := hfound
  refine ⟨found, hlint, fun f hf => ?_⟩
  obtain ⟨active, hactive, hrule, -⟩ := Linter.exists_of_mem_lint hlint hf
  obtain rfl : active = ⟨IndentRule.rule .standard, false⟩ := List.mem_singleton.1 hactive
  replace hrule : f.rule = IndentRule.name := hrule
  exact (hfindings _ 0 _ found hlint f hf (by rw [hrule]; decide)).2 (by rw [hrule]; decide)

end Configuration

end Indentation
