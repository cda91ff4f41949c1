import Indentation.Directive.Suppression
import Indentation.Proofs.Token.Cut
import Mathlib.Data.List.Induction
import Mathlib.Data.List.Pairwise

/-!
# Directives in force

A directive switches a rule off or on by its own name or together with every rule, and the two ways are
kept apart.  A rule is off at an offset if the last switch of one of them up to there has put it off, or
if a directive for the line has.  The last directive about the rule decides this, as long as none that
switches the rule on in one way finds it off in the other way.
-/

namespace Indentation

namespace Directive

/-- What a directive does to a rule by one of its names: put it off, put it on, or nothing. -/
def switch? (key : Text) (d : Directive) : Option Bool :=
  match d.action with
  | .disable => if key ∈ d.rules then some true else none
  | .enable => if d.rules = [everyRule] ∨ key ∈ d.rules then some false else none
  | .disableLine | .disableNextLine => none

/-- A directive is about the rules that it lists, and about every rule if it lists none. -/
def isAbout (rule : Text) (d : Directive) : Bool :=
  d.rules.contains rule || d.rules.contains everyRule

/-- The line that a directive in a comment at an offset is for. -/
def lineFor (lines : Lines) (start : Nat) (d : Directive) : Nat :=
  match d.action with
  | .disableNextLine => lines.lineOf start + 1
  | _ => lines.lineOf start

theorem one_le_lineFor (source : Text) (start : Nat) (d : Directive) :
    1 ≤ d.lineFor (.of source) start := by
  have := Lines.one_le_lineOf source start
  rw [lineFor]
  split <;> omega

end Directive

namespace Suppression

open Directive

/-- The directives of a text and where their comments start, in the order of the text. -/
def directives (s : TokenStream) : List (Nat × Directive) :=
  s.commentIds.filterMap fun id =>
    (ofComment? (s.token id).kind (s.token id).text).map ((s.token id).start, ·)

/-- Whether the last switch of a name up to an offset has put it off. -/
def inForce (key : Text) (offset : Nat) (ds : List (Nat × Directive)) : Bool :=
  ((ds.filterMap fun e => if e.1 ≤ offset then e.2.switch? key else none).getLast?).getD false

/-- What the last directive about a rule up to an offset does, those for single lines apart. -/
def lastAction? (rule : Text) (offset : Nat) (ds : List (Nat × Directive)) : Option Action :=
  ((ds.filter fun e => e.1 ≤ offset && !isForLine e.2.action && e.2.isAbout rule).getLast?).map
    fun e => e.2.action

/-- A directive for a line makes a region for each rule that it lists. -/
def MakesRegion (source : Text) (e : Nat × Directive) (r : Region) : Prop :=
  isForLine e.2.action = true ∧ r.rule ∈ e.2.rules ∧
    r.start = (Lines.of source).lineStart source (e.2.lineFor (.of source) e.1) ∧
    r.stop = (Lines.of source).lineEnd source (e.2.lineFor (.of source) e.1) + 1

theorem MakesRegion.contains_iff {source : Text} {e : Nat × Directive} {r : Region}
    (h : MakesRegion source e r) {p : Nat} :
    r.contains p = true ↔ (Lines.of source).lineStart source (e.2.lineFor (.of source) e.1) ≤ p ∧
      p ≤ (Lines.of source).lineEnd source (e.2.lineFor (.of source) e.1) := by
  obtain ⟨-, -, hstart, hstop⟩ := h
  rw [Region.contains, Bool.and_eq_true, decide_eq_true_eq, decide_eq_true_eq, hstart, hstop,
    Nat.lt_succ_iff]

theorem MakesRegion.stop_le {source : Text} {e : Nat × Directive} {r : Region}
    (h : MakesRegion source e r) : r.stop ≤ Text.size source + 1 := by
  obtain ⟨-, -, -, hstop⟩ := h
  rw [hstop]
  exact Nat.succ_le_succ (Lines.lineEnd_le_size (one_le_lineFor source e.1 e.2))

/-- Whether a directive for the line of an offset is about a rule. -/
def OnLine (source : Text) (ds : List (Nat × Directive)) (rule : Text) (offset : Nat) : Prop :=
  ∃ e ∈ ds, isForLine e.2.action = true ∧ e.2.isAbout rule = true ∧
    (Lines.of source).lineStart source (e.2.lineFor (.of source) e.1) ≤ offset ∧
    offset ≤ (Lines.of source).lineEnd source (e.2.lineFor (.of source) e.1)

/-- If the last directive about a rule up to an offset puts it on, then it does not find the rule off
in the way that it says nothing of. -/
def EnablesFully (rule : Text) (offset : Nat) (ds : List (Nat × Directive)) : Prop :=
  ∀ earlier e later, ds = earlier ++ e :: later → lastAction? rule offset later = none →
    e.1 ≤ offset → e.2.action = .enable → e.2.isAbout rule = true → e.2.rules ≠ [everyRule] →
      (rule ∉ e.2.rules → inForce rule offset earlier = false) ∧
      (everyRule ∉ e.2.rules → inForce everyRule offset earlier = false)

/-! ## One directive -/

namespace State

/-- Names are put off one at a time. -/
def Distinct (st : State) : Prop := st.since.Pairwise fun e e' => e.1 ≠ e'.1

theorem lookup_disable (q : Nat) (st : State) (name key : Text) :
    (st.disable q name).since.lookup key =
      if key = name then some ((st.since.lookup key).getD q) else st.since.lookup key := by
  rw [disable]
  cases h : st.since.lookup name with
  | some start =>
    simp only [Option.isSome_some, if_true]
    split
    · next heq => rw [heq, h, Option.getD_some]
    · rfl
  | none =>
    simp only [Option.isSome_none, Bool.false_eq_true, if_false, List.lookup_append,
      List.lookup_cons, List.lookup_nil]
    by_cases hkey : key = name
    · simp [hkey, h]
    · simp [hkey, beq_false_of_ne hkey]

theorem lookup_filter_ne (since : List (Text × Nat)) (name key : Text) :
    (since.filter fun e => e.1 ≠ name).lookup key =
      if key = name then none else since.lookup key := by
  induction since with
  | nil => simp
  | cons e since ih =>
    obtain ⟨other, start⟩ := e
    by_cases hother : other = name
    · rw [List.filter_cons_of_neg (by simpa using hother), ih, List.lookup_cons]
      by_cases hkey : key = name
      · rw [if_pos hkey, if_pos hkey]
      · rw [if_neg hkey, if_neg hkey, beq_false_of_ne (hother ▸ hkey)]
    · rw [List.filter_cons_of_pos (by simpa using hother), List.lookup_cons, List.lookup_cons, ih]
      by_cases hkey : key = name
      · rw [if_pos hkey, if_pos hkey, beq_false_of_ne fun heq => hother (heq.symm.trans hkey)]
      · rw [if_neg hkey, if_neg hkey]

theorem lookup_enable (q : Nat) (st : State) (name key : Text) :
    (st.enable q name).since.lookup key = if key = name then none else st.since.lookup key := by
  rw [enable]
  cases h : st.since.lookup name with
  | none =>
    simp only
    split
    · next heq => rw [heq, h]
    · rfl
  | some start => exact lookup_filter_ne st.since name key

theorem mem_regions_enable {q : Nat} {st : State} {name : Text} {r : Region} :
    r ∈ (st.enable q name).regions ↔
      r ∈ st.regions ∨ r.rule = name ∧ st.since.lookup name = some r.start ∧ r.stop = q := by
  obtain ⟨rule, start, stop⟩ := r
  rw [enable]
  cases h : st.since.lookup name with
  | none => simp
  | some start' =>
    simp only [List.mem_append, List.mem_singleton, Region.mk.injEq, Option.some.injEq]
    rw [eq_comm (a := start)]

theorem lookup_foldl_disable (q : Nat) (names : List Text) (st : State) (key : Text) :
    (names.foldl (disable q) st).since.lookup key =
      if key ∈ names then some ((st.since.lookup key).getD q) else st.since.lookup key := by
  induction names generalizing st with
  | nil => simp
  | cons name names ih =>
    rw [List.foldl_cons, ih, lookup_disable]
    by_cases hkey : key = name <;> by_cases hmem : key ∈ names <;> simp [hkey, hmem]

theorem regions_foldl_disable (q : Nat) (names : List Text) (st : State) :
    (names.foldl (disable q) st).regions = st.regions := by
  induction names generalizing st with
  | nil => rfl
  | cons name names ih =>
    rw [List.foldl_cons, ih, disable]
    split <;> rfl

theorem lookup_foldl_enable (q : Nat) (names : List Text) (st : State) (key : Text) :
    (names.foldl (enable q) st).since.lookup key =
      if key ∈ names then none else st.since.lookup key := by
  induction names generalizing st with
  | nil => simp
  | cons name names ih =>
    rw [List.foldl_cons, ih, lookup_enable]
    by_cases hkey : key = name <;> by_cases hmem : key ∈ names <;> simp [hkey, hmem]

theorem mem_regions_foldl_enable {q : Nat} {names : List Text} {st : State} {r : Region} :
    r ∈ (names.foldl (enable q) st).regions ↔
      r ∈ st.regions ∨ r.rule ∈ names ∧ st.since.lookup r.rule = some r.start ∧ r.stop = q := by
  induction names generalizing st with
  | nil => simp
  | cons name names ih =>
    rw [List.foldl_cons, ih, mem_regions_enable, lookup_enable, List.mem_cons]
    by_cases hname : r.rule = name
    · simp [hname]
    · simp [hname]

theorem foldl_suppress (start stop : Nat) (names : List Text) (st : State) :
    names.foldl (suppress start stop) st =
      { st with regions := st.regions ++ names.map fun name => ⟨name, start, stop⟩ } := by
  induction names generalizing st with
  | nil => simp
  | cons name names ih =>
    rw [List.foldl_cons, ih]
    simp [suppress]

/-- What is off after a directive. -/
theorem lookup_follow (source : Text) (q : Nat) (d : Directive) (st : State) (key : Text) :
    (st.follow source (.of source) q d).since.lookup key =
      match d.switch? key with
      | some true => some ((st.since.lookup key).getD q)
      | some false => none
      | none => st.since.lookup key := by
  rw [follow, switch?]
  cases d.action with
  | disable =>
    simp only [lookup_foldl_disable]
    by_cases hkey : key ∈ d.rules <;> simp [hkey]
  | enable =>
    simp only [lookup_foldl_enable]
    by_cases hall : d.rules = [everyRule]
    · simp only [hall, if_true, true_or]
      split
      · rfl
      · next hnot =>
        refine List.lookup_eq_none_iff.2 fun e he => bne_iff_ne.2 fun heq => hnot ?_
        exact List.mem_map.2 ⟨e, he, heq.symm⟩
    · by_cases hkey : key ∈ d.rules <;> simp [hall, hkey]
  | disableLine => simp only [foldl_suppress]
  | disableNextLine => simp only [foldl_suppress]

/-- A directive completes the regions of the names that it puts on, or makes those of its line. -/
theorem mem_regions_follow {source : Text} {q : Nat} {d : Directive} {st : State} {r : Region} :
    r ∈ (st.follow source (.of source) q d).regions ↔ r ∈ st.regions ∨
      (d.switch? r.rule = some false ∧ st.since.lookup r.rule = some r.start ∧ r.stop = q) ∨
      MakesRegion source (q, d) r := by
  obtain ⟨rule, start, stop⟩ := r
  rw [follow, switch?, MakesRegion, lineFor]
  cases d.action with
  | disable => simp [regions_foldl_disable, isForLine]
  | enable =>
    simp only [mem_regions_foldl_enable, isForLine, Bool.false_eq_true, false_and, or_false]
    by_cases hall : d.rules = [everyRule]
    · have hmem : st.since.lookup rule = some start → rule ∈ st.since.map Prod.fst := fun h => by
        obtain ⟨before, after, hsince, -⟩ := List.lookup_eq_some_iff.1 h
        simp [hsince]
      simp only [hall, if_true, true_or, true_and]
      exact or_congr_right ⟨fun h => h.2, fun h => ⟨hmem h.1, h⟩⟩
    · by_cases hkey : rule ∈ d.rules <;> simp [hall, hkey]
  | disableLine => simp [foldl_suppress, isForLine, eq_comm (a := start), eq_comm (a := stop)]
  | disableNextLine => simp [foldl_suppress, isForLine, eq_comm (a := start), eq_comm (a := stop)]

theorem Distinct.disable {st : State} (h : st.Distinct) (q : Nat) (name : Text) :
    (st.disable q name).Distinct := by
  rw [State.disable]
  split
  · exact h
  · next hnone =>
    rw [Option.isSome_iff_ne_none, not_not, List.lookup_eq_none_iff] at hnone
    refine List.pairwise_append.2 ⟨h, List.pairwise_singleton _ _, fun e he e' he' => ?_⟩
    rw [List.mem_singleton.1 he']
    exact fun heq => bne_iff_ne.1 (hnone e he) heq.symm

theorem Distinct.enable {st : State} (h : st.Distinct) (q : Nat) (name : Text) :
    (st.enable q name).Distinct := by
  rw [State.enable]
  split
  · exact h
  · exact List.Pairwise.filter _ h

theorem Distinct.follow {st : State} (h : st.Distinct) (source : Text) (q : Nat) (d : Directive) :
    (st.follow source (.of source) q d).Distinct := by
  have hfoldl : ∀ (f : State → Text → State), (∀ st name, Distinct st → Distinct (f st name)) →
      ∀ names : List Text, Distinct (names.foldl f st) := fun f hf names =>
    List.foldlRecOn names f h fun st hst name _ => hf st name hst
  rw [State.follow]
  cases d.action with
  | disable => exact hfoldl _ (fun _ _ h => h.disable q _) _
  | enable => exact hfoldl _ (fun _ _ h => h.enable q _) _
  | disableLine =>
    simp only [foldl_suppress]
    exact h
  | disableNextLine =>
    simp only [foldl_suppress]
    exact h

end State

/-! ## A sequence of directives -/

theorem inForce_concat (key : Text) (p : Nat) (ds : List (Nat × Directive)) (e : Nat × Directive) :
    inForce key p (ds ++ [e]) =
      if e.1 ≤ p then (e.2.switch? key).getD (inForce key p ds) else inForce key p ds := by
  simp only [inForce, List.filterMap_append, List.filterMap_cons, List.filterMap_nil]
  by_cases hp : e.1 ≤ p
  · cases e.2.switch? key <;> simp [hp]
  · simp [hp]

theorem lastAction?_concat (rule : Text) (p : Nat) (ds : List (Nat × Directive))
    (e : Nat × Directive) :
    lastAction? rule p (ds ++ [e]) =
      if e.1 ≤ p ∧ isForLine e.2.action = false ∧ e.2.isAbout rule = true then some e.2.action
      else lastAction? rule p ds := by
  simp only [lastAction?, List.filter_append, List.filter_cons, List.filter_nil]
  by_cases hlast : e.1 ≤ p ∧ isForLine e.2.action = false ∧ e.2.isAbout rule = true
  · simp [hlast]
  · rw [if_neg hlast, if_neg (by simpa [and_assoc] using hlast), List.append_nil]

namespace State

/-- Whether a name is off at an offset: in a complete region, or since before the offset. -/
def Off (st : State) (key : Text) (p : Nat) : Prop :=
  (∃ start, st.since.lookup key = some start ∧ start ≤ p) ∨
    ∃ r ∈ st.regions, r.rule = key ∧ r.contains p = true

/-- Whether a directive for a line puts a name off at an offset. -/
def LineOff (source : Text) (ds : List (Nat × Directive)) (key : Text) (p : Nat) : Prop :=
  ∃ e ∈ ds, ∃ r, MakesRegion source e r ∧ r.rule = key ∧ r.contains p = true

/-- What is off after the directives, with where each name that is off and each region comes from. -/
structure Tells (source : Text) (ds : List (Nat × Directive)) (st : State) : Prop where
  distinct : st.Distinct
  since_mem : ∀ key start, st.since.lookup key = some start → ∃ e ∈ ds, e.1 = start
  region : ∀ r ∈ st.regions, (∃ e ∈ ds, e.1 = r.stop) ∨ ∃ e ∈ ds, MakesRegion source e r
  line : ∀ e ∈ ds, ∀ r, MakesRegion source e r → r ∈ st.regions
  off_iff : ∀ key p, st.Off key p ↔ inForce key p ds = true ∨ LineOff source ds key p

variable {source : Text} {ds : List (Nat × Directive)} {e : Nat × Directive} {st : State}

theorem Tells.nil : Tells source [] ⟨[], []⟩ where
  distinct := .nil
  since_mem := fun _ _ h => by simp at h
  region := fun _ h => by simp at h
  line := fun _ h => by simp at h
  off_iff := fun key p => by simp [Off, inForce, LineOff]

theorem lineOff_concat {key : Text} {p : Nat} :
    LineOff source (ds ++ [e]) key p ↔
      LineOff source ds key p ∨ ∃ r, MakesRegion source e r ∧ r.rule = key ∧ r.contains p = true := by
  simp [LineOff, or_and_right, exists_or]

/-- What covers an offset after a directive: what covered it before, what the directive completes, or
the line that the directive is for. -/
theorem exists_region_follow_iff {key : Text} {p : Nat} :
    (∃ r ∈ (st.follow source (.of source) e.1 e.2).regions, r.rule = key ∧ r.contains p = true) ↔
      (∃ r ∈ st.regions, r.rule = key ∧ r.contains p = true) ∨
        (p < e.1 ∧ e.2.switch? key = some false ∧ ∃ start, st.since.lookup key = some start ∧ start ≤ p) ∨
          ∃ r, MakesRegion source e r ∧ r.rule = key ∧ r.contains p = true := by
  constructor
  · rintro ⟨r, hr, rfl, hcontains⟩
    rcases mem_regions_follow.1 hr with hold | ⟨hswitch, hlookup, hstop⟩ | hline
    · exact .inl ⟨r, hold, rfl, hcontains⟩
    · simp only [Region.contains, Bool.and_eq_true, decide_eq_true_eq] at hcontains
      exact .inr (.inl ⟨hstop ▸ hcontains.2, hswitch, r.start, hlookup, hcontains.1⟩)
    · exact .inr (.inr ⟨r, hline, rfl, hcontains⟩)
  · rintro (⟨r, hr, hrest⟩ | ⟨hp, hswitch, start, hlookup, hstart⟩ | ⟨r, hr, hrest⟩)
    · exact ⟨r, mem_regions_follow.2 (.inl hr), hrest⟩
    · refine ⟨⟨key, start, e.1⟩, mem_regions_follow.2 (.inr (.inl ⟨hswitch, hlookup, rfl⟩)), rfl, ?_⟩
      simp [Region.contains, hstart, hp]
    · exact ⟨r, mem_regions_follow.2 (.inr (.inr hr)), hrest⟩

/-- Behind its offset a directive leaves a name as it was, unless it is about that name. -/
theorem Tells.off_follow_of_le (h : Tells source ds st) (hle : ∀ e' ∈ ds, e'.1 ≤ e.1) {key : Text}
    {p : Nat} (hp : e.1 ≤ p) :
    (st.follow source (.of source) e.1 e.2).Off key p ↔
      inForce key p (ds ++ [e]) = true ∨ LineOff source (ds ++ [e]) key p := by
  have hbefore : (∃ r ∈ st.regions, r.rule = key ∧ r.contains p = true) ↔
      LineOff source ds key p := by
    constructor
    · rintro ⟨r, hr, hrule, hcontains⟩
      rcases h.region r hr with ⟨e', he', hstop⟩ | ⟨e', he', hline⟩
      · have := hle e' he'
        simp only [Region.contains, Bool.and_eq_true, decide_eq_true_eq] at hcontains
        omega
      · exact ⟨e', he', r, hline, hrule, hcontains⟩
    · rintro ⟨e', he', r, hline, hrest⟩
      exact ⟨r, h.line e' he' r hline, hrest⟩
  rw [Off, exists_region_follow_iff, hbefore, lineOff_concat, inForce_concat, if_pos hp, lookup_follow]
  -- a region that the directive completes ends before the offset
  simp only [Nat.not_lt.2 hp, false_and, false_or]
  cases hswitch : e.2.switch? key with
  | none =>
    have hoff := h.off_iff key p
    rw [Off, hbefore] at hoff
    simp only [Option.getD_none]
    rw [← or_assoc, hoff, or_assoc]
  | some off =>
    cases off with
    | false => simp
    | true =>
      have hsince : (st.since.lookup key).getD e.1 ≤ p := by
        cases hlookup : st.since.lookup key with
        | none => exact hp
        | some start =>
          obtain ⟨e', he', rfl⟩ := h.since_mem key start hlookup
          exact Nat.le_trans (hle e' he') hp
      simp [hsince]

/-- Before its offset a directive leaves everything as it was, except on its line. -/
theorem Tells.off_follow_of_lt (h : Tells source ds st) {key : Text} {p : Nat} (hp : p < e.1) :
    (st.follow source (.of source) e.1 e.2).Off key p ↔
      inForce key p (ds ++ [e]) = true ∨ LineOff source (ds ++ [e]) key p := by
  rw [inForce_concat, if_neg (by omega), lineOff_concat, ← or_assoc, ← h.off_iff key p, Off, Off,
    or_assoc, exists_region_follow_iff, lookup_follow]
  simp only [hp, true_and]
  cases e.2.switch? key with
  | none => simp
  | some off =>
    cases off with
    | false =>
      simp only [reduceCtorEq, false_and, exists_false, false_or, true_and]
      rw [or_left_comm]
    | true =>
      have hopen : (∃ start, some ((st.since.lookup key).getD e.1) = some start ∧ start ≤ p) ↔
          ∃ start, st.since.lookup key = some start ∧ start ≤ p := by
        cases st.since.lookup key with
        | none => simp [hp]
        | some start => simp
      rw [hopen]
      simp

/-- What holds after some directives holds after one more that comes behind them. -/
theorem Tells.follow (h : Tells source ds st) (hle : ∀ e' ∈ ds, e'.1 ≤ e.1) :
    Tells source (ds ++ [e]) (st.follow source (.of source) e.1 e.2) where
  distinct := h.distinct.follow source e.1 e.2
  since_mem := fun key start hlookup => by
    rw [lookup_follow] at hlookup
    have hold : st.since.lookup key = some start → ∃ e' ∈ ds ++ [e], e'.1 = start := fun hlookup => by
      obtain ⟨e', he', heq⟩ := h.since_mem key start hlookup
      exact ⟨e', List.mem_append_left _ he', heq⟩
    cases hswitch : e.2.switch? key with
    | none => exact hold (by simpa [hswitch] using hlookup)
    | some off =>
      cases off with
      | false => simp [hswitch] at hlookup
      | true =>
        simp only [hswitch, Option.some.injEq] at hlookup
        cases hbefore : st.since.lookup key with
        | none => exact ⟨e, by simp, by simpa [hbefore] using hlookup⟩
        | some start' =>
          rw [hbefore, Option.getD_some] at hlookup
          exact hold (hlookup ▸ hbefore)
  region := fun r hr => by
    rcases mem_regions_follow.1 hr with hold | ⟨-, -, hstop⟩ | hline
    · refine (h.region r hold).imp ?_ ?_ <;> rintro ⟨e', he', hprop⟩ <;>
        exact ⟨e', List.mem_append_left _ he', hprop⟩
    · exact .inl ⟨e, by simp, hstop.symm⟩
    · exact .inr ⟨e, by simp, hline⟩
  line := fun e' he' r hline => by
    rcases List.mem_append.1 he' with hold | hnew
    · exact mem_regions_follow.2 (.inl (h.line e' hold r hline))
    · rw [List.mem_singleton.1 hnew] at hline
      exact mem_regions_follow.2 (.inr (.inr hline))
  off_iff := fun key p =>
    if hp : e.1 ≤ p then h.off_follow_of_le hle hp else h.off_follow_of_lt (by omega)

/-- The directives of a text are told of one after the other. -/
theorem tells_foldl (hsorted : ds.Pairwise fun e e' => e.1 ≤ e'.1) :
    Tells source ds (ds.foldl (fun st e => st.follow source (.of source) e.1 e.2) ⟨[], []⟩) := by
  induction ds using List.reverseRecOn with
  | nil => exact .nil
  | append_singleton ds e ih =>
    obtain ⟨hbefore, -, hle⟩ := List.pairwise_append.1 hsorted
    rw [List.foldl_append]
    exact (ih hbefore).follow fun e' he' => hle e' he' e (by simp)

theorem Distinct.mem_since_iff (hd : st.Distinct) {key : Text} {start : Nat} :
    (key, start) ∈ st.since ↔ st.since.lookup key = some start := by
  refine ⟨fun hin => ?_, fun hlookup => ?_⟩
  · obtain ⟨before, after, hsince⟩ := List.append_of_mem hin
    rw [Distinct, hsince] at hd
    have hapart := (List.pairwise_append.1 hd).2.2
    refine List.lookup_eq_some_iff.2 ⟨before, after, hsince, fun e he => bne_iff_ne.2 fun heq => ?_⟩
    exact hapart e he (key, start) (by simp) heq.symm
  · obtain ⟨before, after, hsince, -⟩ := List.lookup_eq_some_iff.1 hlookup
    simp [hsince]

/-- At an offset in the text a name is off after closing if it was off before. -/
theorem off_close (hd : st.Distinct) {key : Text} {p size : Nat} (hp : p ≤ size) :
    (∃ r ∈ st.close (size + 1), r.rule = key ∧ r.contains p = true) ↔ st.Off key p := by
  rw [close, Off, or_comm]
  simp only [List.mem_append, or_and_right, exists_or, List.mem_map, Prod.exists]
  refine or_congr_right ⟨?_, ?_⟩
  · rintro ⟨_, ⟨key, start, hin, rfl⟩, rfl, hcontains⟩
    simp only [Region.contains, Bool.and_eq_true, decide_eq_true_eq] at hcontains
    exact ⟨start, hd.mem_since_iff.1 hin, hcontains.1⟩
  · rintro ⟨start, hlookup, hstart⟩
    refine ⟨_, ⟨key, start, hd.mem_since_iff.2 hlookup, rfl⟩, rfl, ?_⟩
    simp only [Region.contains, Bool.and_eq_true, decide_eq_true_eq]
    omega

theorem lineOff_iff {rule : Text} {p : Nat} :
    LineOff source ds rule p ∨ LineOff source ds everyRule p ↔ OnLine source ds rule p := by
  constructor
  · rintro (⟨e, he, r, hline, hrule, hcontains⟩ | ⟨e, he, r, hline, hrule, hcontains⟩) <;>
    · have hmem := hline.2.1
      rw [hrule] at hmem
      exact ⟨e, he, hline.1, by simp [isAbout, hmem], hline.contains_iff.1 hcontains⟩
  · rintro ⟨e, he, hline, habout, hat⟩
    have hoff : ∀ key ∈ e.2.rules, LineOff source ds key p := fun key hkey =>
      have hmakes : MakesRegion source e ⟨key, _, _⟩ := ⟨hline, hkey, rfl, rfl⟩
      ⟨e, he, _, hmakes, rfl, hmakes.contains_iff.2 hat⟩
    rw [isAbout, Bool.or_eq_true, List.contains_iff_mem, List.contains_iff_mem] at habout
    exact habout.imp (hoff rule) (hoff everyRule)

/-- A rule is off at an offset in the text where the last switch of its own name or of every rule has
put it off, or a directive for the line has, in whatever order the regions are kept. -/
theorem Tells.holds_iff (h : Tells source ds st) {regions : List Region}
    (hregions : regions.Perm (st.close (Text.size source + 1))) {rule : Text} {p : Nat}
    (hp : p ≤ Text.size source) :
    (⟨regions⟩ : Suppression).holds rule p = true ↔
      (inForce rule p ds = true ∨ inForce everyRule p ds = true) ∨ OnLine source ds rule p := by
  have hoff : ∀ key, (∃ r ∈ regions, r.rule = key ∧ r.contains p = true) ↔ st.Off key p := fun key => by
    rw [← off_close h.distinct hp]
    exact exists_congr fun r => and_congr_left' hregions.mem_iff
  rw [holds, List.any_eq_true]
  simp only [Bool.and_eq_true, Bool.or_eq_true, decide_eq_true_eq, or_and_right, and_or_left, exists_or]
  rw [hoff, hoff, h.off_iff, h.off_iff, or_or_or_comm, lineOff_iff]

/-- No region ends more than one byte behind the text. -/
theorem Tells.stop_le (h : Tells source ds st) (hinside : ∀ e ∈ ds, e.1 ≤ Text.size source) :
    ∀ r ∈ st.close (Text.size source + 1), r.stop ≤ Text.size source + 1 := by
  intro r hr
  rcases List.mem_append.1 hr with hr | hr
  · rcases h.region r hr with ⟨e, he, heq⟩ | ⟨e, -, hmakes⟩
    · have := hinside e he
      omega
    · exact hmakes.stop_le
  · obtain ⟨_, -, rfl⟩ := List.mem_map.1 hr
    exact Nat.le_refl _

end State

variable {source : Text} {ds : List (Nat × Directive)} {tree : Node} {s : TokenStream} {rule : Text}
  {p : Nat}

/-- The directives of a text come in its order. -/
theorem pairwise_directives (hs : TokenStream.ofTree source tree = .ok s) :
    (directives s).Pairwise fun e e' => e.1 ≤ e'.1 := by
  rw [directives, List.pairwise_filterMap]
  refine List.Pairwise.imp_of_mem ?_ (List.pairwise_lt_range.filter _)
  rintro i j - hj hij e hi e' hj'
  obtain ⟨_, -, rfl⟩ := Option.map_eq_some_iff.1 hi
  obtain ⟨_, -, rfl⟩ := Option.map_eq_some_iff.1 hj'
  exact TokenStream.start_le_start_of_ofTree hs hij (List.mem_range.1 (List.mem_of_mem_filter hj))

theorem start_le_size_of_mem_directives (hs : TokenStream.ofTree source tree = .ok s) :
    ∀ e ∈ directives s, e.1 ≤ Text.size source := by
  intro e he
  obtain ⟨id, hid, he⟩ := List.mem_filterMap.1 he
  obtain ⟨_, -, rfl⟩ := Option.map_eq_some_iff.1 he
  obtain ⟨a, b, rfl, hstart, -⟩ :=
    TokenStream.exists_parts_of_ofTree hs (List.mem_range.1 (List.mem_of_mem_filter hid))
  rw [← hstart, List.append_assoc, Text.size_append]
  exact Nat.le_add_right _ _

/-- The regions of a sequence of directives. -/
def ofDirectives (source : Text) (ds : List (Nat × Directive)) : Suppression :=
  ⟨(ds.foldl (fun (st : State) e => st.follow source (.of source) e.1 e.2) ⟨[], []⟩).close
    (Text.size source + 1)⟩

theorem ofTokens_eq (s : TokenStream) : ofTokens s = ofDirectives s.source (directives s) := by
  rw [ofTokens, ofDirectives, directives, List.foldl_filterMap]
  refine congrArg (fun f : State → Nat → State =>
    Suppression.mk ((s.commentIds.foldl f ⟨[], []⟩).close (Text.size s.source + 1))) ?_
  funext st id
  rw [State.read]
  cases ofComment? (s.token id).kind (s.token id).text <;> rfl

theorem holds_ofDirectives_iff (hsorted : ds.Pairwise fun e e' => e.1 ≤ e'.1)
    (hp : p ≤ Text.size source) :
    (ofDirectives source ds).holds rule p = true ↔
      (inForce rule p ds = true ∨ inForce everyRule p ds = true) ∨ OnLine source ds rule p :=
  (State.tells_foldl hsorted).holds_iff (.refl _) hp

/-- A rule is off where the last switch of its own name or of every rule has put it off, or a directive
for the line has. -/
theorem holds_iff (hs : TokenStream.ofTree source tree = .ok s) (hp : p ≤ Text.size source) :
    (ofTokens s).holds rule p = true ↔
      (inForce rule p (directives s) = true ∨ inForce everyRule p (directives s) = true) ∨
        OnLine source (directives s) rule p := by
  rw [ofTokens_eq, TokenStream.source_of_ofTree hs]
  exact holds_ofDirectives_iff (pairwise_directives hs) hp

/-- The ends of all regions are offsets, if the one behind the text is. -/
theorem stop_le_limit (hs : TokenStream.ofTree source tree = .ok s)
    (hsize : Text.size source < Offset.limit) : ∀ r ∈ (ofTokens s).regions, r.stop ≤ Offset.limit := by
  intro r hr
  rw [ofTokens_eq, TokenStream.source_of_ofTree hs] at hr
  exact Nat.le_trans ((State.tells_foldl (pairwise_directives hs)).stop_le
    (start_le_size_of_mem_directives hs) r hr) hsize

/-! ## The last directive about a rule -/

/-- A directive that is for a line or not about a rule switches none of its names. -/
theorem switch?_eq_none {d : Directive} (h : ¬ (isForLine d.action = false ∧ d.isAbout rule = true)) :
    d.switch? rule = none ∧ d.switch? everyRule = none := by
  simp only [isAbout, Bool.or_eq_true, List.contains_iff_mem, not_and, not_or] at h
  rw [switch?, switch?]
  cases haction : d.action with
  | disableLine => exact ⟨rfl, rfl⟩
  | disableNextLine => exact ⟨rfl, rfl⟩
  | disable =>
    obtain ⟨hrule, hevery⟩ := h (by rw [haction, isForLine])
    simp [hrule, hevery]
  | enable =>
    obtain ⟨hrule, hevery⟩ := h (by rw [haction, isForLine])
    have hall : d.rules ≠ [everyRule] := fun heq => hevery (by simp [heq])
    simp [hrule, hevery, hall]

theorem inForce_concat_of_not {e : Nat × Directive}
    (h : ¬ (e.1 ≤ p ∧ isForLine e.2.action = false ∧ e.2.isAbout rule = true)) :
    inForce rule p (ds ++ [e]) = inForce rule p ds ∧
      inForce everyRule p (ds ++ [e]) = inForce everyRule p ds := by
  rw [inForce_concat, inForce_concat]
  by_cases hp : e.1 ≤ p
  · obtain ⟨hrule, hevery⟩ := switch?_eq_none fun habout => h ⟨hp, habout⟩
    simp [hrule, hevery]
  · simp [hp]

theorem inForce_of_lastAction? (h : lastAction? rule p ds = some .disable) :
    inForce rule p ds = true ∨ inForce everyRule p ds = true := by
  induction ds using List.reverseRecOn with
  | nil => simp [lastAction?] at h
  | append_singleton ds e ih =>
    rw [lastAction?_concat] at h
    by_cases hlast : e.1 ≤ p ∧ isForLine e.2.action = false ∧ e.2.isAbout rule = true
    · rw [if_pos hlast, Option.some.injEq] at h
      obtain ⟨hp, -, habout⟩ := hlast
      rw [isAbout, Bool.or_eq_true, List.contains_iff_mem, List.contains_iff_mem] at habout
      rw [inForce_concat, inForce_concat, if_pos hp, if_pos hp, switch?, switch?, h]
      exact habout.imp (fun hmem => by simp [hmem]) fun hmem => by simp [hmem]
    · obtain ⟨hrule, hevery⟩ : inForce rule p (ds ++ [e]) = inForce rule p ds ∧ _ :=
        inForce_concat_of_not hlast
      rw [if_neg hlast] at h
      rw [hrule, hevery]
      exact ih h

theorem inForce_eq_false (hlast : lastAction? rule p ds ≠ some .disable)
    (hfully : EnablesFully rule p ds) :
    inForce rule p ds = false ∧ inForce everyRule p ds = false := by
  induction ds using List.reverseRecOn with
  | nil => simp [inForce]
  | append_singleton ds e ih =>
    rw [lastAction?_concat] at hlast
    by_cases hcond : e.1 ≤ p ∧ isForLine e.2.action = false ∧ e.2.isAbout rule = true
    · rw [if_pos hcond] at hlast
      obtain ⟨hp, hline, habout⟩ := hcond
      have henable : e.2.action = .enable := by
        cases haction : e.2.action <;> simp_all [isForLine]
      rw [inForce_concat, inForce_concat, if_pos hp, if_pos hp, switch?, switch?, henable]
      by_cases hall : e.2.rules = [everyRule]
      · simp [hall]
      · obtain ⟨hrule, hevery⟩ :=
          hfully ds e [] rfl (by simp [lastAction?]) hp henable habout hall
        refine ⟨?_, ?_⟩
        · by_cases hmem : rule ∈ e.2.rules
          · simp [hmem]
          · simp [hall, hmem, hrule hmem]
        · by_cases hmem : everyRule ∈ e.2.rules
          · simp [hmem]
          · simp [hall, hmem, hevery hmem]
    · obtain ⟨hrule, hevery⟩ : inForce rule p (ds ++ [e]) = inForce rule p ds ∧ _ :=
        inForce_concat_of_not hcond
      rw [if_neg hcond] at hlast
      rw [hrule, hevery]
      refine ih hlast fun earlier e' later hds hlater => ?_
      refine hfully earlier e' (later ++ [e]) (by simp [hds]) ?_
      rw [lastAction?_concat, if_neg hcond, hlater]

/-- The last directive about a rule decides: behind one that puts the rule off the rule is off, and
behind one that puts it fully on, or without any, only a directive for the line puts it off.  In a text
that is shorter than the largest offset the end of every region can be said. -/
theorem holds_of_lastAction (hs : TokenStream.ofTree source tree = .ok s)
    (hsize : Text.size source < Offset.limit) (rule : Text) (hp : p ≤ Text.size source) :
    (∀ r ∈ (ofTokens s).regions, r.stop ≤ Offset.limit) ∧
    (lastAction? rule p (directives s) = some .disable → (ofTokens s).holds rule p = true) ∧
    (lastAction? rule p (directives s) ≠ some .disable → EnablesFully rule p (directives s) →
      ((ofTokens s).holds rule p = true ↔ OnLine source (directives s) rule p)) := by
  rw [holds_iff hs hp]
  refine ⟨stop_le_limit hs hsize, fun hlast => .inl (inForce_of_lastAction? hlast), fun hlast hfully => ?_⟩
  obtain ⟨hrule, hevery⟩ := inForce_eq_false hlast hfully
  simp [hrule, hevery]

/-! ## A small text -/

/-- A rule is off around one name and on again before the other. -/
def switchedText : Text := "/*eslint-disable a*/b/*eslint-enable*/c".toList

def switchedTree : Node :=
  .mk ⟨"program", ⟨0, 39, by decide⟩, true, false, false, false, false, none⟩
    [.mk ⟨"comment", ⟨0, 20, by decide⟩, true, true, false, false, false, none⟩ [],
     .mk ⟨"identifier", ⟨20, 21, by decide⟩, true, false, false, false, false, none⟩ [],
     .mk ⟨"comment", ⟨21, 38, by decide⟩, true, true, false, false, false, none⟩ [],
     .mk ⟨"identifier", ⟨38, 39, by decide⟩, true, false, false, false, false, none⟩ []]

def switchedStream : TokenStream where
  source := switchedText
  tokens := #[
    ⟨.blockComment, ⟨0, 20, by decide⟩, "/*eslint-disable a*/".toList, [], 1, 1, 0⟩,
    ⟨.identifier, ⟨20, 21, by decide⟩, ['b'], "/*eslint-disable a*/".toList, 1, 1, 20⟩,
    ⟨.blockComment, ⟨21, 38, by decide⟩, "/*eslint-enable*/".toList, "/*eslint-disable a*/b".toList,
      1, 1, 21⟩,
    ⟨.identifier, ⟨38, 39, by decide⟩, ['c'], "/*eslint-disable a*/b/*eslint-enable*/".toList, 1, 1, 38⟩]
  leaders := #[none, some 0, none]

theorem ofTree_switchedTree : TokenStream.ofTree switchedText switchedTree = .ok switchedStream := by
  rw [TokenStream.ofTree_of_pairwise (by decide)]
  decide +kernel

theorem directives_switchedStream :
    directives switchedStream = [(0, ⟨.disable, [['a']]⟩), (21, ⟨.enable, [everyRule]⟩)] := by
  decide

theorem holds_of_lastAction_switchedTree :
    (ofTokens switchedStream).holds ['a'] 20 = true ∧
      (ofTokens switchedStream).holds ['a'] 38 = false := by
  obtain ⟨-, hoff, -⟩ := holds_of_lastAction ofTree_switchedTree (by decide) ['a'] (p := 20) (by decide)
  obtain ⟨-, -, hon⟩ := holds_of_lastAction ofTree_switchedTree (by decide) ['a'] (p := 38) (by decide)
  refine ⟨hoff (by decide +kernel), ?_⟩
  rw [Bool.eq_false_iff]
  refine (hon (by decide +kernel) ?_).not.2 ?_
  · rw [directives_switchedStream]
    intro earlier e later hds _ _ haction _ hrules
    have hmem : e ∈ earlier ++ e :: later := by simp
    rw [← hds] at hmem
    rcases List.mem_pair.1 hmem with rfl | rfl
    · cases haction
    · exact absurd rfl hrules
  · rw [directives_switchedStream]
    rintro ⟨e, he, hline, -⟩
    revert e
    decide

end Suppression
end Indentation
