import Indentation.Proofs.Directive.Line

/-!
# The last directive that touches a name

Without directives for a line, a name is off from a directive that puts it off up to the next one that
puts it on, so the last directive that touches the name decides.  What is off is kept by name and in no
order, so that the order in which names are put on together, or closed at the end, must not matter.

A directive touches the names that its comment lists.  Without any, it puts off the name that stands for
every rule, but puts on all names.  To put on that one name alone is to put on all of them, too.
-/

namespace Indentation

namespace Directive

def listedAfter? (body : Text) (keyword : Text × Action) : Option Directive := do
  let rest ← Text.after? keyword.1 body
  return ⟨keyword.2, ← namesAfter? rest⟩

/-- Read a comment for its keyword and the names that it lists, which may be none. -/
def listed? (kind : TokenKind) (comment : Text) : Option Directive := do
  let body ← body? kind comment
  let listed ← keywords.findSome? (listedAfter? (body.dropWhile isBlank))
  if kind = .lineComment && !isForLine listed.action then none else some listed

/-- A directive that lists no name is about every rule. -/
def filled (d : Directive) : Directive :=
  ⟨d.action, if d.rules.isEmpty then [everyRule] else d.rules⟩

theorem ofKeyword?_eq (body : Text) : ofKeyword? body = Option.map filled ∘ listedAfter? body := by
  funext keyword
  rw [ofKeyword?, Function.comp_apply, listedAfter?]
  cases Text.after? keyword.1 body with
  | none => rfl
  | some rest => cases h : namesAfter? rest <;> simp [h, filled]

theorem ofComment?_eq (kind : TokenKind) (comment : Text) :
    ofComment? kind comment = (listed? kind comment).map filled := by
  rw [ofComment?, listed?]
  cases body? kind comment with
  | none => rfl
  | some body =>
    simp only [Option.bind_eq_bind, Option.bind_some, ofKeyword?_eq, ← List.map_findSome?]
    cases keywords.findSome? (listedAfter? (body.dropWhile isBlank)) with
    | none => rfl
    | some listed =>
      rw [Option.map_some, Option.bind_some, Option.bind_some, apply_ite (Option.map filled)]
      rfl

/-- Whether a directive is about a name by what it lists. -/
def lists (key : Text) (d : Directive) : Bool :=
  match d.action with
  | .disable => if d.rules.isEmpty then key == everyRule else d.rules.contains key
  | .enable => d.rules.isEmpty || d.rules.contains key
  | .disableLine | .disableNextLine => false

/-- Whether a directive does something to a name.  To list only the name for every rule is to list
none. -/
def touches (key : Text) (d : Directive) : Bool :=
  d.lists key || (d.action == .enable && d.rules == [everyRule])

theorem switch?_filled (key : Text) (d : Directive) :
    d.filled.switch? key = if d.touches key then some (d.action == .disable) else none := by
  obtain ⟨action, rules⟩ := d
  cases action with
  | disableLine => simp [switch?, filled, touches, lists]
  | disableNextLine => simp [switch?, filled, touches, lists]
  | disable =>
    cases rules with
    | nil => simp [switch?, filled, touches, lists]
    | cons name rules => simp [switch?, filled, touches, lists]
  | enable =>
    cases rules with
    | nil => simp [switch?, filled, touches, lists]
    | cons name rules =>
      have hoff : (Action.enable == Action.disable) = false := rfl
      simp [switch?, filled, touches, lists, or_comm, hoff]

end Directive

namespace Suppression

open Directive

/-- The directives of a text and where their comments start, each with the names that it lists. -/
def listings (s : TokenStream) : List (Nat × Directive) :=
  s.commentIds.filterMap fun id =>
    (listed? (s.token id).kind (s.token id).text).map ((s.token id).start, ·)

theorem directives_eq (s : TokenStream) :
    directives s = (listings s).map fun e => (e.1, e.2.filled) := by
  rw [directives, listings, List.map_filterMap]
  refine congrArg (fun f => s.commentIds.filterMap f) (funext fun id => ?_)
  rw [ofComment?_eq, Option.map_map, Option.map_map]
  rfl

/-- Whether the last directive that touches a name up to an offset puts it off. -/
def LastDisables (touching : Text → Directive → Bool) (key : Text) (p : Nat)
    (ds : List (Nat × Directive)) : Prop :=
  ∃ earlier e later, ds = earlier ++ e :: later ∧ e.1 ≤ p ∧ touching key e.2 = true ∧
    e.2.action = .disable ∧ ∀ e' ∈ later, e'.1 ≤ p → touching key e'.2 = false

section Last

variable {touching : Text → Directive → Bool} {key : Text} {p : Nat} {ds : List (Nat × Directive)}
  {e : Nat × Directive}

theorem not_lastDisables_nil : ¬LastDisables touching key p [] := by
  rintro ⟨earlier, e, later, h, -⟩
  simp at h

theorem lastDisables_concat :
    LastDisables touching key p (ds ++ [e]) ↔
      if e.1 ≤ p ∧ touching key e.2 = true then e.2.action = .disable
      else LastDisables touching key p ds := by
  constructor
  · rintro ⟨earlier, e', later, hds, hp, htouch, haction, hlater⟩
    rcases List.eq_nil_or_concat later with rfl | ⟨later, e'', rfl⟩
    · obtain ⟨rfl, heq⟩ := List.append_inj' hds rfl
      obtain rfl : e = e' := by simpa using heq
      rwa [if_pos ⟨hp, htouch⟩]
    · rw [List.concat_eq_append] at hds hlater
      rw [← List.cons_append, ← List.append_assoc] at hds
      obtain ⟨rfl, heq⟩ := List.append_inj' hds rfl
      obtain rfl : e = e'' := by simpa using heq
      have hnot : ¬(e.1 ≤ p ∧ touching key e.2 = true) := fun ⟨hle, htrue⟩ => by
        rw [hlater e (by simp) hle] at htrue
        cases htrue
      rw [if_neg hnot]
      exact ⟨earlier, e', later, rfl, hp, htouch, haction, fun d hd => hlater d (by simp [hd])⟩
  · by_cases hlast : e.1 ≤ p ∧ touching key e.2 = true
    · rw [if_pos hlast]
      exact fun haction => ⟨ds, e, [], rfl, hlast.1, hlast.2, haction, by simp⟩
    · rw [if_neg hlast]
      rintro ⟨earlier, e', later, rfl, hp, htouch, haction, hlater⟩
      refine ⟨earlier, e', later ++ [e], by simp, hp, htouch, haction, fun d hd hle => ?_⟩
      rcases List.mem_append.1 hd with hd | hd
      · exact hlater d hd hle
      · obtain rfl := List.mem_singleton.1 hd
        exact Bool.eq_false_iff.2 fun htrue => hlast ⟨hle, htrue⟩

/-- A name is in force if the last directive that touches it puts it off. -/
theorem inForce_filled_iff :
    inForce key p (ds.map fun e => (e.1, e.2.filled)) = true ↔ LastDisables touches key p ds := by
  induction ds using List.reverseRecOn with
  | nil => exact iff_of_false (by simp [inForce]) not_lastDisables_nil
  | append_singleton ds e ih =>
    rw [List.map_append, List.map_singleton, inForce_concat, lastDisables_concat, switch?_filled]
    by_cases hp : e.1 ≤ p
    · by_cases htouch : e.2.touches key = true
      · simp [hp, htouch]
      · simp [hp, htouch, ih]
    · simp [hp, ih]

end Last

/-! ## Names in no order -/

namespace State

/-- The states that directives one after the other can leave, when the names that are off and the
regions are kept in no order. -/
inductive Reached (source : Text) : List (Nat × Directive) → State → Prop
  | nil : Reached source [] ⟨[], []⟩
  | follow {ds : List (Nat × Directive)} {st : State} (e : Nat × Directive) :
      Reached source ds st → Reached source (ds ++ [e]) (st.follow source (.of source) e.1 e.2)
  | reorder {ds : List (Nat × Directive)} {st st' : State} :
      Reached source ds st → st.since.Perm st'.since → st.regions.Perm st'.regions →
        Reached source ds st'

variable {source : Text} {ds : List (Nat × Directive)} {st st' : State}

theorem Distinct.reorder (h : st.Distinct) (hsince : st.since.Perm st'.since) : st'.Distinct :=
  hsince.pairwise h fun hne => hne.symm

theorem Distinct.lookup_eq (h : st.Distinct) (hsince : st.since.Perm st'.since) (key : Text) :
    st'.since.lookup key = st.since.lookup key := by
  refine Option.ext fun start => ?_
  rw [← (h.reorder hsince).mem_since_iff, ← h.mem_since_iff, hsince.mem_iff]

/-- What the directives say does not depend on the order of the names and regions. -/
theorem Tells.reorder (h : Tells source ds st) (hsince : st.since.Perm st'.since)
    (hregions : st.regions.Perm st'.regions) : Tells source ds st' where
  distinct := h.distinct.reorder hsince
  since_mem := fun key start hlookup => h.since_mem key start (h.distinct.lookup_eq hsince key ▸ hlookup)
  region := fun r hr => h.region r (hregions.mem_iff.2 hr)
  line := fun e he r hmakes => hregions.mem_iff.1 (h.line e he r hmakes)
  off_iff := fun key p => by
    rw [← h.off_iff, Off, Off, h.distinct.lookup_eq hsince]
    exact or_congr_right (exists_congr fun r => and_congr_left' hregions.mem_iff.symm)

theorem Reached.tells (h : Reached source ds st) (hsorted : ds.Pairwise fun e e' => e.1 ≤ e'.1) :
    Tells source ds st := by
  induction h with
  | nil => exact .nil
  | follow e _ ih =>
    obtain ⟨hbefore, -, hle⟩ := List.pairwise_append.1 hsorted
    exact (ih hbefore).follow fun e' he' => hle e' he' e (by simp)
  | reorder _ hsince hregions ih => exact (ih hsorted).reorder hsince hregions

end State

variable {source : Text} {tree : Node} {s : TokenStream} {rule : Text} {p : Nat}

theorem State.Reached.holds_iff {st : State} (h : State.Reached source (directives s) st)
    (hs : TokenStream.ofTree source tree = .ok s)
    (hspans : ∀ e ∈ listings s, isForLine e.2.action = false) {regions : List Region}
    (hregions : regions.Perm (st.close (Text.size source + 1))) (hp : p ≤ Text.size source) :
    (⟨regions⟩ : Suppression).holds rule p = true ↔
      LastDisables touches rule p (listings s) ∨ LastDisables touches everyRule p (listings s) := by
  have hnone : ¬OnLine source (directives s) rule p := not_onLine_of_not_isForLine fun e he => by
    rw [directives_eq] at he
    obtain ⟨listed, hlisted, rfl⟩ := List.mem_map.1 he
    exact hspans listed hlisted
  rw [(h.tells (pairwise_directives hs)).holds_iff hregions hp, or_iff_left hnone, directives_eq,
    inForce_filled_iff, inForce_filled_iff]

end Suppression

end Indentation
