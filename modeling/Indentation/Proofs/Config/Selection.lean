import Indentation.Proofs.Config.Handling
import Indentation.Proofs.Config.Table
import Mathlib.Data.List.Sort

/-!
# Which rules run

A linter is set up from a table, an overlay and a registry.  First every entry of the table is read,
also those that are off.  Then the rules that run are made, and those are the ones that are on, not
disabled and known.  Both passes go through the entries in the order of their names, so the fault that is
reported is the one with the least name.  Names are ordered by their characters, which is the order
of their bytes in UTF-8.

What comes out is settled by which entries are malformed and which rules run with which options.  Two
tables that agree on these give the same.
-/

namespace Indentation

section FirstFault

variable {α β κ ε : Type} {f : α → Except ε β} {x : α} {xs : List α}

theorem mapM_cons_error {e : ε} (hx : f x = .error e) : (x :: xs).mapM f = .error e := by
  rw [List.mapM_cons, hx]
  rfl

theorem mapM_cons_ok {y : β} (hx : f x = .ok y) : (x :: xs).mapM f = (xs.mapM f).map (y :: ·) := by
  rw [List.mapM_cons, hx]
  cases xs.mapM f <;> rfl

/-- The fault of a list whose keys ascend is the one with the least key. -/
theorem exists_least_of_mapM_error [LinearOrder κ] {key : α → κ}
    (hsorted : xs.Pairwise fun x y => key x < key y) {e : ε} (h : xs.mapM f = .error e) :
    ∃ x ∈ xs, f x = .error e ∧ ∀ y ∈ xs, ∀ e', f y = .error e' → key x ≤ key y := by
  induction xs with
  | nil => cases h
  | cons x xs ih =>
    obtain ⟨hleast, hrest⟩ := List.pairwise_cons.1 hsorted
    cases hx : f x with
    | error first =>
      obtain rfl : first = e := Except.error.inj ((mapM_cons_error hx).symm.trans h)
      refine ⟨x, List.mem_cons_self, hx, fun y hy _ _ => ?_⟩
      rcases List.mem_cons.1 hy with rfl | hy
      · exact le_rfl
      · exact (hleast y hy).le
    | ok z =>
      rw [mapM_cons_ok hx] at h
      cases hall : xs.mapM f with
      | ok zs => simp [hall, Except.map] at h
      | error e' =>
        obtain rfl : e' = e := by simpa [hall, Except.map] using h
        obtain ⟨y, hy, hfail, hmin⟩ := ih hrest hall
        refine ⟨y, List.mem_cons_of_mem x hy, hfail, fun w hw e hw' => ?_⟩
        rcases List.mem_cons.1 hw with rfl | hw
        · rw [hx] at hw'
          cases hw'
        · exact hmin w hw e hw'

theorem exists_of_forall₂ {R : α → β → Prop} {ys : List β} (h : List.Forall₂ R xs ys) (hx : x ∈ xs) :
    ∃ y ∈ ys, R x y := by
  induction h with
  | nil => cases hx
  | cons hR _ ih =>
    rcases List.mem_cons.1 hx with rfl | hx
    · exact ⟨_, List.mem_cons_self, hR⟩
    · obtain ⟨y, hy, hR⟩ := ih hx
      exact ⟨y, List.mem_cons_of_mem _ hy, hR⟩

theorem pairwise_of_forall₂ {R : α → β → Prop} {P : α → α → Prop} {Q : β → β → Prop} {ys : List β}
    (h : List.Forall₂ R xs ys) (hxs : xs.Pairwise P)
    (hQ : ∀ x x' y y', P x x' → R x y → R x' y' → Q y y') : ys.Pairwise Q := by
  induction h with
  | nil => exact .nil
  | cons hR hRs ih =>
    obtain ⟨hfirst, hrest⟩ := List.pairwise_cons.1 hxs
    refine List.pairwise_cons.2 ⟨fun y' hy' => ?_, ih hrest⟩
    obtain ⟨x', hx', hR'⟩ := exists_of_forall₂ hRs.flip hy'
    exact hQ _ x' _ y' (hfirst x' hx') hR hR'

theorem map_eq_of_forall₂ {R : α → β → Prop} {g : α → κ} {g' : β → κ} {ys : List β}
    (h : List.Forall₂ R xs ys) (hg : ∀ x y, R x y → g' y = g x) : ys.map g' = xs.map g := by
  induction h with
  | nil => rfl
  | cons hR _ ih => rw [List.map_cons, List.map_cons, hg _ _ hR, ih]

end FirstFault

/-! ## Tables -/

namespace RuleTable

variable {t t' : RuleTable} {registry : Registry} {o : Overlay}

/-- What stands for a table that is not there: one rule, without options. -/
def standard : RuleTable := ⟨[(Configuration.defaultRule, .str "error")]⟩

theorem sorted_standard : standard.Sorted := List.pairwise_singleton _ _

/-- An entry cannot be read, whether its rule is on or off. -/
def Malformed (t : RuleTable) (name : String) (cause : EntryError) : Prop :=
  ∃ value, (name, value) ∈ t.entries ∧ RuleEntry.read name value = .error cause

/-- An entry that puts its rule on with some options. -/
def PutsOn (t : RuleTable) (name : String) (options : List Json) : Prop :=
  ∃ value severity, (name, value) ∈ t.entries ∧
    RuleEntry.read name value = .ok ⟨name, severity, options⟩ ∧ severity ≠ .off

theorem Sorted.eq_of_mem (h : t.Sorted) {name : String} {value value' : Json}
    (hvalue : (name, value) ∈ t.entries) (hvalue' : (name, value') ∈ t.entries) : value = value' := by
  have hnodup : (t.entries.map Prod.fst).Nodup := List.pairwise_map.2 (h.imp fun hlt => hlt.ne)
  exact (Prod.mk.inj (List.inj_on_of_nodup_map hnodup hvalue hvalue' rfl)).2

theorem Malformed.unique (h : t.Sorted) {name : String} {cause cause' : EntryError}
    (hcause : t.Malformed name cause) (hcause' : t.Malformed name cause') : cause = cause' := by
  obtain ⟨value, hvalue, hread⟩ := hcause
  obtain ⟨value', hvalue', hread'⟩ := hcause'
  obtain rfl := h.eq_of_mem hvalue hvalue'
  exact Except.error.inj (hread.symm.trans hread')

theorem PutsOn.unique (h : t.Sorted) {name : String} {options options' : List Json}
    (hon : t.PutsOn name options) (hon' : t.PutsOn name options') : options = options' := by
  obtain ⟨value, severity, hvalue, hread, -⟩ := hon
  obtain ⟨value', severity', hvalue', hread', -⟩ := hon'
  obtain rfl := h.eq_of_mem hvalue hvalue'
  exact (RuleEntry.mk.inj (Except.ok.inj (hread.symm.trans hread'))).2.2

theorem name_of_read {name : String} {value : Json} {e : RuleEntry}
    (h : RuleEntry.read name value = .ok e) : e.name = name := by
  have hof {severity : Json} {options : List Json}
      (h : RuleEntry.ofSeverity name severity options = .ok e) : e.name = name := by
    rw [RuleEntry.ofSeverity] at h
    split at h
    · obtain rfl := Except.ok.inj h
      rfl
    · cases h
  rw [RuleEntry.read.eq_def] at h
  split at h
  · cases h
  · exact hof h
  · exact hof h

/-- If a table can be read at all then no entry of it is malformed. -/
theorem not_malformed_of_rules {es : List RuleEntry} (h : t.rules = .ok es) (name : String)
    (cause : EntryError) : ¬t.Malformed name cause := by
  rintro ⟨value, hvalue, hread⟩
  obtain ⟨e, -, he⟩ := exists_of_forall₂ (forall₂_of_mapM h) hvalue
  exact nomatch hread.symm.trans he

theorem names_of_rules {es : List RuleEntry} (h : t.rules = .ok es) :
    es.map RuleEntry.name = t.entries.map Prod.fst :=
  map_eq_of_forall₂ (forall₂_of_mapM h) fun _ _ hread => name_of_read hread

theorem putsOn_iff_of_rules {es : List RuleEntry} (h : t.rules = .ok es) {name : String}
    {options : List Json} :
    t.PutsOn name options ↔ ∃ e ∈ es.filter RuleEntry.isEnabled, e.name = name ∧ e.options = options := by
  constructor
  · rintro ⟨value, severity, hvalue, hread, hon⟩
    obtain ⟨e, he, hreads⟩ := exists_of_forall₂ (forall₂_of_mapM h) hvalue
    obtain rfl : e = ⟨name, severity, options⟩ := Except.ok.inj (hreads.symm.trans hread)
    exact ⟨_, List.mem_filter.2 ⟨he, decide_eq_true hon⟩, rfl, rfl⟩
  · rintro ⟨e, he, rfl, rfl⟩
    obtain ⟨he, hon⟩ := List.mem_filter.1 he
    obtain ⟨⟨name, value⟩, hvalue, hread⟩ := exists_of_mem_mapM h he
    obtain rfl : e.name = name := name_of_read hread
    exact ⟨value, e.severity, hvalue, hread, of_decide_eq_true hon⟩

end RuleTable

/-! ## What runs -/

/-- A rule runs with some options: it is on, not disabled, and known. -/
structure Runs (registry : Registry) (t : RuleTable) (o : Overlay) (name : String)
    (options : List Json) : Prop where
  on : t.PutsOn name options
  enabled : o.ruleMode name ≠ .disabled
  known : registry.knows name = true

/-- A rule runs, but its options are no good. -/
def Unmakable (registry : Registry) (t : RuleTable) (o : Overlay) (name : String)
    (cause : OptionsError) : Prop :=
  ∃ options, Runs registry t o name options ∧ registry.make? name options = some (.error cause)

theorem Unmakable.unique {registry : Registry} {t : RuleTable} {o : Overlay} (ht : t.Sorted)
    {name : String} {cause cause' : OptionsError} (h : Unmakable registry t o name cause)
    (h' : Unmakable registry t o name cause') : cause = cause' := by
  obtain ⟨options, hruns, hmake⟩ := h
  obtain ⟨options', hruns', hmake'⟩ := h'
  obtain rfl := hruns.on.unique ht hruns'.on
  exact Except.error.inj (Option.some.inj (hmake.symm.trans hmake'))

/-- The first of the faults, by name. -/
structure IsFirst {γ : Type} (fault : String → γ → Prop) (name : String) (cause : γ) : Prop where
  holds : fault name cause
  least : ∀ other cause', fault other cause' → name ≤ other

theorem IsFirst.name_eq {γ : Type} {fault : String → γ → Prop} {name name' : String} {cause cause' : γ}
    (h : IsFirst fault name cause) (h' : IsFirst fault name' cause') : name = name' :=
  le_antisymm (h.least _ _ h'.holds) (h'.least _ _ h.holds)

/-- The rules of a linter are those that run, each once and in the order of their names, made from their
own options. -/
structure Linter.Selected (registry : Registry) (t : RuleTable) (o : Overlay) (l : Linter) : Prop where
  ascending : l.rules.Pairwise fun active later => active.rule.name < later.rule.name
  mem_ruleNames : ∀ name, name ∈ l.ruleNames ↔ ∃ options, Runs registry t o name options
  mem_rules : ∀ active, active ∈ l.rules ↔ ∃ options, Runs registry t o active.rule.name options ∧
    registry.make? active.rule.name options = some (.ok active.rule) ∧
    active.keepsFixes = decide (o.ruleMode active.rule.name = .fix)

/-- Why there is no linter: an entry of the table, or the options of a rule. -/
inductive SetupError where
  | entry (cause : EntryError)
  | lint (cause : LintError)

namespace Linter

/-- The linter that a table and an overlay ask for. -/
def setUp (registry : Registry) (table : Option RuleTable) (overlay : Option Overlay) :
    Except SetupError Linter :=
  match Configuration.of table overlay with
  | .error cause => .error (.entry cause)
  | .ok c =>
    match ofConfiguration registry c with
    | .error cause => .error (.lint cause)
    | .ok l => .ok l

/-- What setting up comes to. -/
inductive Outcome (registry : Registry) (t : RuleTable) (o : Overlay) : Except SetupError Linter → Prop
  | malformed (name : String) {cause : EntryError} (first : IsFirst t.Malformed name cause) :
      Outcome registry t o (.error (.entry cause))
  | unmakable {name : String} {cause : OptionsError}
      (readable : ∀ name cause, ¬t.Malformed name cause)
      (first : IsFirst (Unmakable registry t o) name cause) :
      Outcome registry t o (.error (.lint (.options name cause)))
  | linter {l : Linter} (readable : ∀ name cause, ¬t.Malformed name cause)
      (makable : ∀ name cause, ¬Unmakable registry t o name cause)
      (selected : Selected registry t o l) : Outcome registry t o (.ok l)

end Linter

/-! ## The rules of a configuration -/

namespace Configuration

variable {registry : Registry} {t : RuleTable} {o : Overlay} {c : Configuration}

/-- The rules that are not disabled are those that a table puts on and an overlay does not disable, in the
order of their names. -/
structure Offers (t : RuleTable) (o : Overlay) (c : Configuration) : Prop where
  ascending : c.enabledRules.Pairwise fun r later => r.name < later.name
  mem : ∀ r, r ∈ c.enabledRules ↔
    t.PutsOn r.name r.options ∧ o.ruleMode r.name ≠ .disabled ∧ r.mode = o.ruleMode r.name

theorem exists_offers (ht : t.Sorted) {es : List RuleEntry} (hes : t.rules = .ok es)
    (overlay : Option Overlay) :
    ∃ c, Configuration.of (some t) overlay = .ok c ∧ c.Offers t (overlay.getD .none) := by
  refine ⟨_, by rw [Configuration.of, rulesOf, hes]; rfl, ?_, fun r => ?_⟩
  · have hnames : (es.map RuleEntry.name).Pairwise (· < ·) := by
      rw [RuleTable.names_of_rules hes]
      exact List.pairwise_map.2 ht
    exact .filter _ (List.pairwise_map.2 ((List.pairwise_map.1 hnames).filter _))
  · rw [enabledRules, List.mem_filter, List.mem_map, RuleTable.putsOn_iff_of_rules hes]
    constructor
    · rintro ⟨⟨e, he, rfl⟩, henabled⟩
      exact ⟨⟨e, he, rfl, rfl⟩, of_decide_eq_true henabled, rfl⟩
    · obtain ⟨name, options, mode⟩ := r
      rintro ⟨⟨e, he, rfl, rfl⟩, henabled, hmode⟩
      obtain rfl : mode = (overlay.getD .none).ruleMode e.name := hmode
      exact ⟨⟨e, he, rfl⟩, decide_eq_true henabled⟩

theorem Offers.runs_iff (hc : c.Offers t o) {name : String} {options : List Json} :
    Runs registry t o name options ↔
      ∃ r ∈ c.enabledRules, r.name = name ∧ r.options = options ∧ registry.knows name = true := by
  constructor
  · rintro ⟨hon, henabled, hknown⟩
    exact ⟨⟨name, options, o.ruleMode name⟩, (hc.mem _).2 ⟨hon, henabled, rfl⟩, rfl, rfl, hknown⟩
  · rintro ⟨r, hr, rfl, rfl, hknown⟩
    obtain ⟨hon, henabled, -⟩ := (hc.mem r).1 hr
    exact ⟨hon, henabled, hknown⟩

end Configuration

theorem Registry.knows_of_make? {registry : Registry} {name : String} {options : List Json}
    {made : Except OptionsError Rule} (h : registry.make? name options = some made) :
    registry.knows name = true := by
  obtain ⟨maker, hmaker, -⟩ := Option.map_eq_some_iff.1 h
  rw [knows, hmaker]
  rfl

theorem Registry.exists_make? {registry : Registry} {name : String} (h : registry.knows name = true)
    (options : List Json) : ∃ made, registry.make? name options = some made := by
  obtain ⟨maker, hmaker⟩ := Option.isSome_iff_exists.1 h
  exact ⟨maker options, by rw [make?, hmaker]; rfl⟩

namespace Linter

variable {registry : Registry} {t : RuleTable} {o : Overlay} {c : Configuration}

/-! ## The linter of a configuration -/

theorem exists_of_activate_error {r : ConfiguredRule} {e : LintError}
    (h : activate registry r = .error e) :
    ∃ cause, e = .options r.name cause ∧ registry.make? r.name r.options = some (.error cause) := by
  rw [activate] at h
  split at h
  · cases h
  · cases h
  · next cause hmake =>
    obtain rfl := Except.error.inj h
    exact ⟨cause, rfl, hmake⟩

theorem activate_of_error {r : ConfiguredRule} {cause : OptionsError}
    (h : registry.make? r.name r.options = some (.error cause)) :
    activate registry r = .error (.options r.name cause) := by
  rw [activate, h]

theorem activate_of_ok {r : ConfiguredRule} {rule : Rule}
    (h : registry.make? r.name r.options = some (.ok rule)) :
    activate registry r = .ok (some ⟨rule, r.keepsFixes⟩) := by
  rw [activate, h]

theorem isFirst_of_ofConfiguration (hc : c.Offers t o) {e : LintError}
    (h : ofConfiguration registry c = .error e) :
    ∃ name cause, e = .options name cause ∧ IsFirst (Unmakable registry t o) name cause := by
  have hall : c.enabledRules.mapM (activate registry) = .error e := by
    rw [ofConfiguration] at h
    rcases bind_eq_error_iff.1 h with h | ⟨actives, -, h⟩
    · exact h
    · cases h
  obtain ⟨r, hr, hfail, hleast⟩ := exists_least_of_mapM_error hc.ascending hall
  obtain ⟨cause, rfl, hmake⟩ := exists_of_activate_error hfail
  refine ⟨r.name, cause, rfl, ?_, ?_⟩
  · exact ⟨r.options, hc.runs_iff.2 ⟨r, hr, rfl, rfl, Registry.knows_of_make? hmake⟩, hmake⟩
  · rintro other cause' ⟨options, hruns, hmake'⟩
    obtain ⟨r', hr', rfl, rfl, -⟩ := hc.runs_iff.1 hruns
    exact hleast r' hr' _ (activate_of_error hmake')

section

variable {actives : List (Option ActiveRule)}
  (hall : c.enabledRules.mapM (activate registry) = .ok actives)
include hall

/-- Where every rule is made, none that runs refuses its options. -/
theorem not_unmakable_of_mapM (hc : c.Offers t o) (name : String) (cause : OptionsError) :
    ¬Unmakable registry t o name cause := by
  rintro ⟨options, hruns, hmake⟩
  obtain ⟨r, hr, rfl, rfl, -⟩ := hc.runs_iff.1 hruns
  obtain ⟨_, -, hactivate⟩ := exists_of_forall₂ (forall₂_of_mapM hall) hr
  cases (activate_of_error hmake).symm.trans hactivate

/-- What is made are the rules that run, with their options. -/
theorem mem_filterMap_of_mapM (hnames : registry.KeepsNames) (hc : c.Offers t o) (active : ActiveRule) :
    active ∈ actives.filterMap id ↔ ∃ options, Runs registry t o active.rule.name options ∧
      registry.make? active.rule.name options = some (.ok active.rule) ∧
      active.keepsFixes = decide (o.ruleMode active.rule.name = .fix) := by
  rw [List.mem_filterMap]
  constructor
  · rintro ⟨_, hactive, rfl⟩
    obtain ⟨r, hr, hactivate⟩ := exists_of_mem_mapM hall hactive
    obtain ⟨hmake, hkeeps⟩ := eq_of_activate hactivate
    rw [hnames _ _ _ hmake]
    refine ⟨r.options, hc.runs_iff.2 ⟨r, hr, rfl, rfl, Registry.knows_of_make? hmake⟩, hmake, ?_⟩
    rw [hkeeps, ConfiguredRule.keepsFixes, ((hc.mem r).1 hr).2.2]
  · rintro ⟨options, hruns, hmake, hkeeps⟩
    obtain ⟨r, hr, hname, rfl, -⟩ := hc.runs_iff.1 hruns
    rw [← hname] at hmake hkeeps
    obtain ⟨_, hactive, hactivate⟩ := exists_of_forall₂ (forall₂_of_mapM hall) hr
    obtain rfl := Except.ok.inj ((activate_of_ok hmake).symm.trans hactivate)
    refine ⟨_, hactive, ?_⟩
    rw [ConfiguredRule.keepsFixes, ((hc.mem r).1 hr).2.2, ← hkeeps]
    rfl

theorem pairwise_filterMap_of_mapM (hnames : registry.KeepsNames) (hc : c.Offers t o) :
    (actives.filterMap id).Pairwise fun active later => active.rule.name < later.rule.name := by
  refine List.pairwise_filterMap.2 (pairwise_of_forall₂ (forall₂_of_mapM hall) hc.ascending ?_)
  rintro r r' _ _ hlt hr hr' active rfl active' rfl
  rw [hnames _ _ _ (eq_of_activate hr).1, hnames _ _ _ (eq_of_activate hr').1]
  exact hlt

end

theorem selected_of_ofConfiguration (hnames : registry.KeepsNames) (hc : c.Offers t o) {l : Linter}
    (h : ofConfiguration registry c = .ok l) :
    (∀ name cause, ¬Unmakable registry t o name cause) ∧ Selected registry t o l := by
  obtain ⟨actives, hall, rfl⟩ :
      ∃ actives, c.enabledRules.mapM (activate registry) = .ok actives ∧ l = ⟨actives.filterMap id⟩ := by
    rw [ofConfiguration] at h
    obtain ⟨actives, hall, h⟩ := bind_eq_ok_iff.1 h
    exact ⟨actives, hall, (Except.ok.inj h).symm⟩
  have hmem := mem_filterMap_of_mapM hall hnames hc
  have hmakable := not_unmakable_of_mapM hall hc
  refine ⟨hmakable, pairwise_filterMap_of_mapM hall hnames hc, fun name => ?_, hmem⟩
  rw [ruleNames, List.mem_map]
  constructor
  · rintro ⟨active, hactive, rfl⟩
    obtain ⟨options, hruns, -⟩ := (hmem active).1 hactive
    exact ⟨options, hruns⟩
  · rintro ⟨options, hruns⟩
    obtain ⟨made, hmake⟩ := Registry.exists_make? hruns.known options
    cases made with
    | error cause => exact absurd ⟨options, hruns, hmake⟩ (hmakable name cause)
    | ok rule =>
      obtain rfl := hnames _ _ _ hmake
      exact ⟨⟨rule, decide (o.ruleMode rule.name = .fix)⟩, (hmem _).2 ⟨options, hruns, hmake, rfl⟩, rfl⟩

/-! ## What setting up comes to -/

theorem setUp_none (registry : Registry) (overlay : Option Overlay) :
    setUp registry none overlay = setUp registry (some .standard) overlay := rfl

theorem outcome_setUp (hnames : registry.KeepsNames) (ht : t.Sorted) (overlay : Option Overlay) :
    Outcome registry t (overlay.getD .none) (setUp registry (some t) overlay) := by
  cases hes : t.rules with
  | error cause =>
    obtain ⟨⟨name, value⟩, hvalue, hread, hleast⟩ := exists_least_of_mapM_error ht hes
    have hset : setUp registry (some t) overlay = .error (.entry cause) := by
      rw [setUp, Configuration.of, Configuration.rulesOf, hes]
      rfl
    rw [hset]
    refine .malformed name ⟨⟨value, hvalue, hread⟩, ?_⟩
    rintro other cause' ⟨value', hvalue', hread'⟩
    exact hleast ⟨other, value'⟩ hvalue' cause' hread'
  | ok es =>
    have hreadable := RuleTable.not_malformed_of_rules hes
    obtain ⟨c, hof, hc⟩ := Configuration.exists_offers ht hes overlay
    rw [setUp, hof]
    cases hl : ofConfiguration registry c with
    | error e =>
      obtain ⟨name, cause, rfl, hfirst⟩ := isFirst_of_ofConfiguration hc hl
      simp only [hl]
      exact .unmakable hreadable hfirst
    | ok l =>
      obtain ⟨hmakable, hselected⟩ := selected_of_ofConfiguration hnames hc hl
      simp only [hl]
      exact .linter hreadable hmakable hselected

/-- The outcome is settled by which entries are malformed and which rules run with which options. -/
theorem Outcome.congr {t' : RuleTable} {r : Except SetupError Linter}
    (hmalformed : ∀ name cause, t.Malformed name cause ↔ t'.Malformed name cause)
    (hruns : ∀ name options, Runs registry t o name options ↔ Runs registry t' o name options)
    (h : Outcome registry t o r) : Outcome registry t' o r := by
  have hmalformed : t.Malformed = t'.Malformed := funext₂ fun _ _ => propext (hmalformed _ _)
  have hruns : Runs registry t o = Runs registry t' o := funext₂ fun _ _ => propext (hruns _ _)
  have hunmakable : Unmakable registry t o = Unmakable registry t' o := by
    unfold Unmakable
    rw [hruns]
  cases h with
  | malformed name hfirst => exact .malformed name (hmalformed ▸ hfirst)
  | unmakable hreadable hfirst => exact .unmakable (hmalformed ▸ hreadable) (hunmakable ▸ hfirst)
  | linter hreadable hmakable hselected =>
    refine .linter (hmalformed ▸ hreadable) (hunmakable ▸ hmakable) ⟨hselected.ascending, ?_, ?_⟩
    · exact hruns ▸ hselected.mem_ruleNames
    · exact hruns ▸ hselected.mem_rules

theorem Selected.unique {l l' : Linter} (h : Selected registry t o l) (h' : Selected registry t o l') :
    l = l' := by
  obtain ⟨rules⟩ := l
  obtain ⟨rules'⟩ := l'
  let before (active later : ActiveRule) : Prop := active.rule.name < later.rule.name
  have : Std.Antisymm before := ⟨fun _ _ hlt hgt => absurd hgt hlt.asymm⟩
  have : Std.Irrefl before := ⟨fun active => lt_irrefl active.rule.name⟩
  exact congrArg Linter.mk (h.ascending.eq_of_mem_iff h'.ascending fun active =>
    (h.mem_rules active).trans (h'.mem_rules active).symm)

theorem Outcome.unique (ht : t.Sorted) {r r' : Except SetupError Linter}
    (h : Outcome registry t o r) (h' : Outcome registry t o r') : r = r' := by
  cases h with
  | malformed name hfirst =>
    cases h' with
    | malformed name' hfirst' =>
      obtain rfl := hfirst.name_eq hfirst'
      rw [hfirst.holds.unique ht hfirst'.holds]
    | unmakable hreadable => exact absurd hfirst.holds (hreadable _ _)
    | linter hreadable => exact absurd hfirst.holds (hreadable _ _)
  | unmakable hreadable hfirst =>
    cases h' with
    | malformed _ hfirst' => exact absurd hfirst'.holds (hreadable _ _)
    | unmakable _ hfirst' =>
      obtain rfl := hfirst.name_eq hfirst'
      rw [hfirst.holds.unique ht hfirst'.holds]
    | linter _ hmakable => exact absurd hfirst.holds (hmakable _ _)
  | linter hreadable hmakable hselected =>
    cases h' with
    | malformed _ hfirst' => exact absurd hfirst'.holds (hreadable _ _)
    | unmakable _ hfirst' => exact absurd hfirst'.holds (hmakable _ _)
    | linter _ _ hselected' => rw [hselected.unique hselected']

end Linter

/-! ## Options that do not count -/

/-- Entries that differ at most in options that do not count, since the rule is off, disabled or not
known. -/
inductive EntriesAlike (registry : Registry) (o : Overlay) : String × Json → String × Json → Prop
  | same (e : String × Json) : EntriesAlike registry o e e
  | idle {name : String} {value value' : Json} {severity : Severity} {options options' : List Json}
      (read : RuleEntry.read name value = .ok ⟨name, severity, options⟩)
      (read' : RuleEntry.read name value' = .ok ⟨name, severity, options'⟩)
      (off : severity = .off ∨ o.ruleMode name = .disabled ∨ registry.knows name = false) :
      EntriesAlike registry o (name, value) (name, value')

namespace RuleTable

variable {registry : Registry} {o : Overlay} {t t' : RuleTable}

/-- Tables that differ at most in options that do not count. -/
def Alike (registry : Registry) (o : Overlay) (t t' : RuleTable) : Prop :=
  List.Forall₂ (EntriesAlike registry o) t.entries t'.entries

theorem Alike.symm (h : t.Alike registry o t') : t'.Alike registry o t := by
  refine (h.imp fun e e' he => ?_).flip
  cases he with
  | same => exact .same e
  | idle read read' off => exact .idle read' read off

theorem Alike.malformed (h : t.Alike registry o t') {name : String} {cause : EntryError}
    (hcause : t.Malformed name cause) : t'.Malformed name cause := by
  obtain ⟨value, hvalue, hread⟩ := hcause
  obtain ⟨e', he', halike⟩ := exists_of_forall₂ h hvalue
  cases halike with
  | same => exact ⟨value, he', hread⟩
  | idle read => exact nomatch hread.symm.trans read

theorem Alike.runs (h : t.Alike registry o t') {name : String} {options : List Json}
    (hruns : Runs registry t o name options) : Runs registry t' o name options := by
  obtain ⟨⟨value, severity, hvalue, hread, hon⟩, henabled, hknown⟩ := hruns
  obtain ⟨e', he', halike⟩ := exists_of_forall₂ h hvalue
  cases halike with
  | same => exact ⟨⟨value, severity, he', hread, hon⟩, henabled, hknown⟩
  | idle read _ off =>
    obtain ⟨-, rfl, -⟩ := RuleEntry.mk.inj (Except.ok.inj (hread.symm.trans read))
    rcases off with hoff | hdisabled | hunknown
    · exact absurd hoff hon
    · exact absurd hdisabled henabled
    · rw [hknown] at hunknown
      cases hunknown

end RuleTable

namespace Linter

theorem setUp_eq_of_alike {registry : Registry} (hnames : registry.KeepsNames) {t t' : RuleTable}
    (ht : t.Sorted) (ht' : t'.Sorted) (overlay : Option Overlay)
    (h : t.Alike registry (overlay.getD .none) t') :
    setUp registry (some t) overlay = setUp registry (some t') overlay := by
  have houtcome := (outcome_setUp hnames ht overlay).congr
    (fun _ _ => ⟨h.malformed, h.symm.malformed⟩) fun _ _ => ⟨h.runs, h.symm.runs⟩
  exact houtcome.unique ht' (outcome_setUp hnames ht' overlay)

/-- Setting up a linter ends at the first malformed entry, whether its rule is on or off.  Without one it
ends at the first rule that is on, not disabled and known and whose options are no good.  Without one of
these either, the rules of the linter are those that are on, not disabled and known, in the order of their
names, each made from its own options and with its fixes if they are wanted.  Options of other
rules make no difference. -/
theorem setUp_selects (registry : Registry) (hnames : registry.KeepsNames) (table : Option RuleTable)
    (overlay : Option Overlay) (hsorted : ∀ t ∈ table, t.Sorted) :
    let t := table.getD .standard
    let o := overlay.getD .none
    ((∃ cause, setUp registry table overlay = .error (.entry cause)) ↔ ∃ name cause, t.Malformed name cause) ∧
    (∀ cause, setUp registry table overlay = .error (.entry cause) →
      ∃ name, IsFirst t.Malformed name cause) ∧
    ((∃ cause, setUp registry table overlay = .error (.lint cause)) ↔
      (¬∃ name cause, t.Malformed name cause) ∧ ∃ name cause, Unmakable registry t o name cause) ∧
    (∀ cause, setUp registry table overlay = .error (.lint cause) →
      ∃ name why, cause = .options name why ∧ IsFirst (Unmakable registry t o) name why) ∧
    ((∃ l, setUp registry table overlay = .ok l) ↔
      (¬∃ name cause, t.Malformed name cause) ∧ ¬∃ name cause, Unmakable registry t o name cause) ∧
    (∀ l, setUp registry table overlay = .ok l → Selected registry t o l) ∧
    ∀ t' : RuleTable, t'.Sorted → t.Alike registry o t' →
      setUp registry (some t') overlay = setUp registry table overlay := by
  intro t o
  have ht : t.Sorted := by
    cases table with
    | none => exact RuleTable.sorted_standard
    | some t => exact hsorted t rfl
  have hset : setUp registry table overlay = setUp registry (some t) overlay := by
    cases table with
    | none => exact setUp_none registry overlay
    | some t => rfl
  rw [hset]
  have halike (t' : RuleTable) (ht' : t'.Sorted) (h : t.Alike registry o t') :=
    (setUp_eq_of_alike hnames ht ht' overlay h).symm
  have houtcome := outcome_setUp hnames ht overlay
  generalize setUp registry (some t) overlay = r at houtcome halike ⊢
  cases houtcome with
  | malformed name hfirst =>
    have hsome : ∃ name cause, t.Malformed name cause := ⟨name, _, hfirst.holds⟩
    refine ⟨⟨fun _ => hsome, fun _ => ⟨_, rfl⟩⟩, ?_, ⟨nofun, fun h => absurd hsome h.1⟩, nofun,
      ⟨nofun, fun h => absurd hsome h.1⟩, nofun, halike⟩
    rintro _ ⟨⟩
    exact ⟨name, hfirst⟩
  | unmakable hreadable hfirst =>
    have hnone : ¬∃ name cause, t.Malformed name cause := fun ⟨name, cause, h⟩ => hreadable name cause h
    have hsome : ∃ name cause, Unmakable registry t o name cause := ⟨_, _, hfirst.holds⟩
    refine ⟨⟨nofun, fun h => absurd h hnone⟩, nofun, ⟨fun _ => ⟨hnone, hsome⟩, fun _ => ⟨_, rfl⟩⟩, ?_,
      ⟨nofun, fun h => absurd hsome h.2⟩, nofun, halike⟩
    rintro _ ⟨⟩
    exact ⟨_, _, rfl, hfirst⟩
  | linter hreadable hmakable hselected =>
    have hnone : ¬∃ name cause, t.Malformed name cause := fun ⟨name, cause, h⟩ => hreadable name cause h
    have hgood : ¬∃ name cause, Unmakable registry t o name cause :=
      fun ⟨name, cause, h⟩ => hmakable name cause h
    refine ⟨⟨nofun, fun h => absurd h hnone⟩, nofun, ⟨nofun, fun h => absurd h.2 hgood⟩, nofun,
      ⟨fun _ => ⟨hnone, hgood⟩, fun _ => ⟨_, rfl⟩⟩, ?_, halike⟩
    rintro _ ⟨⟩
    exact hselected

/-- One rule runs, one is off, and one is not known. -/
def mixedTable : RuleTable :=
  ⟨[(IndentRule.name, .arr [.str "error", .int 2]), ("quotes", .arr [.int 0, .null]), ("semi", .str "warn")]⟩

theorem setUp_selects_mixedTable :
    ∃ l, setUp .standard (some mixedTable) (some Configuration.sampleOverlay) = .ok l ∧
      l.ruleNames = [IndentRule.name] ∧ Selected .standard mixedTable Configuration.sampleOverlay l := by
  have hsorted : ∀ t ∈ some mixedTable, t.Sorted := fun t ht => by
    obtain rfl := Option.some.inj ht
    unfold RuleTable.Sorted Json.Ascends mixedTable
    decide
  obtain ⟨-, -, -, -, -, hselected, -⟩ := setUp_selects .standard Registry.keepsNames_standard
    (some mixedTable) (some Configuration.sampleOverlay) hsorted
  exact ⟨⟨[⟨IndentRule.rule { IndentOptions.standard with unit := 2 }, false⟩]⟩, rfl, rfl, hselected _ rfl⟩

end Linter

end Indentation
