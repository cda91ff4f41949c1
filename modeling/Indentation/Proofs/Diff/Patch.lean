import Indentation.Diff.Basic
import Mathlib.Data.List.Basic

/-!
# Hunks as a patch

The hunks between two texts of equally many rows lead from one to the other: they come in order, each
stands for as many rows of one text as of the other, and between them the rows are equal.  The scan
keeps this up row by row.
-/

namespace Indentation.Diff

namespace Line

/-- The row of the old text that a line shows. -/
def old? : Line → Option Text
  | .kept row | .removed row => some row
  | .added _ => none

/-- The row of the new text that a line shows. -/
def new? : Line → Option Text
  | .kept row | .added row => some row
  | .removed _ => none

def isKept : Line → Bool
  | .kept _ => true
  | _ => false

@[simp] theorem filterMap_old?_kept (rows : List Text) :
    (rows.map kept).filterMap old? = rows := by
  rw [List.filterMap_map]
  exact List.filterMap_some

@[simp] theorem filterMap_new?_kept (rows : List Text) :
    (rows.map kept).filterMap new? = rows := by
  rw [List.filterMap_map]
  exact List.filterMap_some

end Line

namespace Hunk

/-- The rows of the old text that a hunk shows. -/
def olds (h : Hunk) : List Text := h.lines.filterMap Line.old?

/-- The rows of the new text that a hunk shows. -/
def news (h : Hunk) : List Text := h.lines.filterMap Line.new?

/-- Equal rows at the start. -/
def leading (h : Hunk) : Nat := (h.lines.takeWhile Line.isKept).length

/-- Equal rows at the end, as the lines have them. -/
def ending (h : Hunk) : Nat := (h.lines.reverse.takeWhile Line.isKept).length

/-- The rows that a hunk stands for, counted from 1. -/
def Spans (h : Hunk) (place : Nat) : Prop := h.start ≤ place ∧ place < h.start + h.oldCount

/-- A hunk has counted the rows that it shows. -/
structure Counted (h : Hunk) : Prop where
  olds : h.olds.length = h.oldCount
  news : h.news.length = h.newCount

@[simp] theorem lines_add (h : Hunk) (line : Line) : (h.add line).lines = h.lines ++ [line] := by
  cases line <;> rfl

@[simp] theorem start_add (h : Hunk) (line : Line) : (h.add line).start = h.start := by
  cases line <;> rfl

theorem olds_add (h : Hunk) (line : Line) : (h.add line).olds = h.olds ++ line.old?.toList := by
  rw [olds, lines_add, List.filterMap_append]
  cases line <;> rfl

theorem news_add (h : Hunk) (line : Line) : (h.add line).news = h.news ++ line.new?.toList := by
  rw [news, lines_add, List.filterMap_append]
  cases line <;> rfl

theorem Counted.add {h : Hunk} (hc : h.Counted) (line : Line) : (h.add line).Counted where
  olds := by
    rw [olds_add, List.length_append, hc.olds]
    cases line <;> rfl
  news := by
    rw [news_add, List.length_append, hc.news]
    cases line <;> rfl

theorem foldl_add_kept (h : Hunk) (rows : List Text) :
    (rows.map Line.kept).foldl add h = ⟨h.start, h.lines ++ rows.map .kept, h.oldCount + rows.length,
      h.newCount + rows.length, h.trailing + rows.length⟩ := by
  induction rows generalizing h with
  | nil => simp
  | cons row rows ih =>
    rw [List.map_cons, List.foldl_cons, ih]
    simp [add, Nat.add_assoc, Nat.add_comm 1]

theorem opening_eq (start : Nat) (rows : List Text) :
    opening start rows = ⟨start, rows.map .kept, rows.length, rows.length, rows.length⟩ := by
  simp [opening, foldl_add_kept]

theorem olds_opening (start : Nat) (rows : List Text) : (opening start rows).olds = rows := by
  rw [olds, opening_eq, Line.filterMap_old?_kept]

theorem news_opening (start : Nat) (rows : List Text) : (opening start rows).news = rows := by
  rw [news, opening_eq, Line.filterMap_new?_kept]

theorem counted_opening (start : Nat) (rows : List Text) : (opening start rows).Counted where
  olds := by rw [olds_opening, opening_eq]
  news := by rw [news_opening, opening_eq]

end Hunk

/-- Carry out hunks on the rows from a place on. Each has to find the rows that it shows. -/
def patchFrom? : Nat → List Hunk → List Text → Option (List Text)
  | _, [], rows => some rows
  | place, h :: hs, rows =>
    let gap := h.start - place
    if place ≤ h.start ∧ (rows.drop gap).take h.oldCount = h.olds then
      (patchFrom? (h.start + h.oldCount) hs (rows.drop (gap + h.oldCount))).map fun later =>
        rows.take gap ++ h.news ++ later
    else none

/-- The hunks are a patch for two lists of rows. -/
structure IsPatch (hs : List Hunk) (old new : List Text) : Prop where
  ordered : hs.Pairwise fun h h' => h.start + h.oldCount ≤ h'.start
  start_pos : ∀ h ∈ hs, 0 < h.start
  counted : ∀ h ∈ hs, h.Counted
  counts : ∀ h ∈ hs, h.newCount = h.oldCount
  olds : ∀ h ∈ hs, h.olds = (old.drop (h.start - 1)).take h.oldCount
  news : ∀ h ∈ hs, h.news = (new.drop (h.start - 1)).take h.newCount
  leading : ∀ h ∈ hs, h.leading ≤ context
  ending : ∀ h ∈ hs, h.ending ≤ context
  outside : ∀ i, (∀ h ∈ hs, ¬ h.Spans (i + 1)) → old[i]? = new[i]?
  patch : patchFrom? 1 hs old = some new

/-! ## Hunks with equal rows between them -/

/-- What holds of a hunk by itself: it shows as many rows of one text as of the other, and few equal
ones around its differences. -/
structure Hunk.Sound (h : Hunk) : Prop extends h.Counted where
  counts : h.newCount = h.oldCount
  leading : h.leading ≤ context
  ending : h.ending ≤ context

namespace Hunk.Sound

variable {h : Hunk}

theorem length_news (ht : h.Sound) : h.news.length = h.oldCount := ht.toCounted.news.trans ht.counts

end Hunk.Sound

/-- Hunks that lead from rows to rows, from a place on. -/
inductive Leads : Nat → List Hunk → List Text → List Text → Prop
  | done (place : Nat) (rows : List Text) : Leads place [] rows rows
  | hunk {place : Nat} {gap olds news : List Text} {h : Hunk} {hs : List Hunk}
      (start : h.start = place + gap.length) (sound : h.Sound)
      (later : Leads (h.start + h.oldCount) hs olds news) :
      Leads place (h :: hs) (gap ++ h.olds ++ olds) (gap ++ h.news ++ news)

namespace Leads

variable {place : Nat} {hs : List Hunk} {old new : List Text}

/-- Equal rows may follow. -/
theorem append_rows (h : Leads place hs old new) (rows : List Text) :
    Leads place hs (old ++ rows) (new ++ rows) := by
  induction h with
  | done place gap => exact .done place (gap ++ rows)
  | hunk start sound later ih =>
    rw [List.append_assoc, List.append_assoc (_ ++ Hunk.news _)]
    exact .hunk start sound ih

/-- A hunk may follow. -/
theorem append_hunk (h : Leads place hs old new) {last : Hunk}
    (start : last.start = place + old.length) (sound : last.Sound) :
    Leads place (hs ++ [last]) (old ++ last.olds) (new ++ last.news) := by
  induction h with
  | done place gap =>
    have hhunk : Leads place [last] (gap ++ last.olds ++ []) (gap ++ last.news ++ []) :=
      .hunk start sound (.done _ [])
    rwa [List.append_nil, List.append_nil] at hhunk
  | hunk start' sound' later ih =>
    rw [List.append_assoc, List.append_assoc (_ ++ Hunk.news _)]
    refine .hunk start' sound' (ih ?_)
    rw [start, start']
    simp only [List.length_append, sound'.olds]
    omega

theorem le_start (h : Leads place hs old new) : ∀ h' ∈ hs, place ≤ h'.start := by
  induction h with
  | done => exact fun _ h => absurd h List.not_mem_nil
  | hunk start sound later ih =>
    intro h' hmem
    rcases List.mem_cons.1 hmem with rfl | hmem
    · omega
    · have := ih h' hmem
      omega

theorem pairwise (h : Leads place hs old new) :
    hs.Pairwise fun h h' => h.start + h.oldCount ≤ h'.start := by
  induction h with
  | done => exact .nil
  | hunk start sound later ih => exact .cons later.le_start ih

theorem sound_of_mem (h : Leads place hs old new) : ∀ h' ∈ hs, h'.Sound := by
  induction h with
  | done => exact fun _ h => absurd h List.not_mem_nil
  | hunk start sound later ih => exact List.forall_mem_cons.2 ⟨sound, ih⟩

/-- The rows of a hunk stand at one place in both texts. -/
theorem exists_segment (h : Leads place hs old new) {h' : Hunk} (hmem : h' ∈ hs) :
    ∃ before after before' after', old = before ++ h'.olds ++ after ∧
      new = before' ++ h'.news ++ after' ∧ h'.start = place + before.length ∧
      before'.length = before.length := by
  induction h with
  | done => cases hmem
  | @hunk place gap olds news first hs start sound later ih =>
    rcases List.mem_cons.1 hmem with rfl | hmem
    · exact ⟨gap, olds, gap, news, rfl, rfl, start, rfl⟩
    · obtain ⟨before, after, before', after', rfl, rfl, hstart, hlength⟩ := ih hmem
      refine ⟨gap ++ first.olds ++ before, after, gap ++ first.news ++ before', after', ?_, ?_, ?_, ?_⟩
      · simp only [List.append_assoc]
      · simp only [List.append_assoc]
      · simp only [List.length_append, sound.olds]
        omega
      · simp only [List.length_append, sound.olds, sound.length_news, hlength]

/-- Rows that no hunk stands for are equal. -/
theorem getElem?_eq (h : Leads place hs old new) (i : Nat)
    (hoff : ∀ h' ∈ hs, ¬ h'.Spans (place + i)) : old[i]? = new[i]? := by
  induction h generalizing i with
  | done => rfl
  | @hunk place gap olds news first hs start sound later ih =>
    obtain ⟨hfirst, hlater⟩ := List.forall_mem_cons.1 hoff
    rw [Hunk.Spans, not_and_or] at hfirst
    have hlength : (gap ++ first.news).length = (gap ++ first.olds).length := by
      simp [sound.olds, sound.length_news]
    by_cases hgap : i < gap.length
    · rw [List.append_assoc, List.append_assoc, List.getElem?_append_left hgap,
        List.getElem?_append_left hgap]
    · -- behind the gap the row is not in the hunk, so it is behind that too
      have hbehind : (gap ++ first.olds).length ≤ i := by
        rw [List.length_append, sound.olds]
        omega
      rw [List.getElem?_append_right hbehind, List.getElem?_append_right (hlength ▸ hbehind), hlength]
      refine ih _ fun h' hmem => ?_
      have hplace : first.start + first.oldCount + (i - (gap ++ first.olds).length) = place + i := by
        rw [List.length_append, sound.olds] at hbehind ⊢
        omega
      rw [hplace]
      exact hlater h' hmem

/-- Carrying out the hunks leads to the new rows. -/
theorem patchFrom?_eq (h : Leads place hs old new) : patchFrom? place hs old = some new := by
  induction h with
  | done => rfl
  | @hunk place gap olds news first hs start sound later ih =>
    have hgap : first.start - place = gap.length := by omega
    have htake : (first.olds ++ olds).take first.oldCount = first.olds := by
      rw [← sound.olds, List.take_left]
    have hdrop : (gap ++ (first.olds ++ olds)).drop (gap.length + first.oldCount) = olds := by
      rw [List.drop_length_add_append, ← sound.olds, List.drop_left]
    rw [patchFrom?, hgap, List.append_assoc, List.drop_left, htake, if_pos ⟨by omega, rfl⟩, hdrop, ih,
      List.take_left]
    rfl

theorem isPatch (h : Leads 1 hs old new) : IsPatch hs old new where
  ordered := h.pairwise
  start_pos := h.le_start
  counted := fun h' hmem => (h.sound_of_mem h' hmem).toCounted
  counts := fun h' hmem => (h.sound_of_mem h' hmem).counts
  olds := fun h' hmem => by
    obtain ⟨before, after, -, -, rfl, -, hstart, -⟩ := h.exists_segment hmem
    rw [hstart, Nat.add_sub_cancel_left, List.append_assoc, List.drop_left,
      ← (h.sound_of_mem h' hmem).olds, List.take_left]
  news := fun h' hmem => by
    obtain ⟨before, -, before', after', -, rfl, hstart, hlength⟩ := h.exists_segment hmem
    rw [hstart, Nat.add_sub_cancel_left, ← hlength, List.append_assoc, List.drop_left,
      ← (h.sound_of_mem h' hmem).news, List.take_left]
  leading := fun h' hmem => (h.sound_of_mem h' hmem).leading
  ending := fun h' hmem => (h.sound_of_mem h' hmem).ending
  outside := fun i hoff => h.getElem?_eq i fun h' hmem => by
    rw [Nat.add_comm 1 i]
    exact hoff h' hmem
  patch := h.patchFrom?_eq

end Leads

/-! ## The scan -/

/-- A hunk between two differences, with equal rows before and behind them, and right counts. -/
structure Hunk.Frames (h : Hunk) (lead : List Text) (core : List Line) (tail : List Text) : Prop
    extends h.Counted where
  lines : h.lines = lead.map .kept ++ core ++ tail.map .kept
  trailing : h.trailing = tail.length
  lead_le : lead.length ≤ context
  first : ∃ l ∈ core.head?, l.isKept = false
  last : ∃ l ∈ core.getLast?, l.isKept = false

/-- Kept lines before a line that is not kept. -/
theorem Line.length_takeWhile_isKept {rows : List Text} {core rest : List Line}
    (h : ∃ l ∈ core.head?, l.isKept = false) :
    ((rows.map kept ++ (core ++ rest)).takeWhile isKept).length = rows.length := by
  obtain ⟨l, hl, hkept⟩ := h
  have hrows : ∀ l ∈ rows.map kept, l.isKept = true := fun l hl => by
    obtain ⟨row, -, rfl⟩ := List.mem_map.1 hl
    rfl
  cases core with
  | nil => cases hl
  | cons first core =>
    obtain rfl : first = l := by simpa using hl
    rw [List.takeWhile_append_of_pos hrows, List.cons_append,
      List.takeWhile_cons_of_neg (by simp [hkept]), List.append_nil, List.length_map]

namespace Hunk.Frames

variable {h : Hunk} {lead tail : List Text} {core : List Line}

theorem leading_le (hf : h.Frames lead core tail) : h.leading ≤ context := by
  rw [leading, hf.lines, List.append_assoc, Line.length_takeWhile_isKept hf.first]
  exact hf.lead_le

theorem ending_eq (hf : h.Frames lead core tail) : h.ending = tail.length := by
  have hlast : ∃ l ∈ core.reverse.head?, l.isKept = false := by
    rw [List.head?_reverse]
    exact hf.last
  rw [ending, hf.lines, List.reverse_append, List.reverse_append, ← List.map_reverse,
    Line.length_takeWhile_isKept hlast, List.length_reverse]

theorem olds_frames (hf : h.Frames lead core tail) :
    h.olds = lead ++ core.filterMap Line.old? ++ tail := by
  simp only [olds, hf.lines, List.filterMap_append, Line.filterMap_old?_kept]

theorem news_frames (hf : h.Frames lead core tail) :
    h.news = lead ++ core.filterMap Line.new? ++ tail := by
  simp only [news, hf.lines, List.filterMap_append, Line.filterMap_new?_kept]

/-- One more equal row. -/
theorem keep (hf : h.Frames lead core tail) (row : Text) :
    (h.add (.kept row)).Frames lead core (tail ++ [row]) where
  toCounted := hf.toCounted.add _
  lines := by simp [hf.lines]
  trailing := by simp [add, hf.trailing]
  lead_le := hf.lead_le
  first := hf.first
  last := hf.last

/-- One more difference.  What was behind the last one is between two now. -/
theorem change (hf : h.Frames lead core tail) (old new : Text) :
    ((h.add (.removed old)).add (.added new)).Frames lead
      (core ++ tail.map .kept ++ [.removed old, .added new]) [] where
  toCounted := (hf.toCounted.add _).add _
  lines := by simp [hf.lines]
  trailing := rfl
  lead_le := hf.lead_le
  first := by
    obtain ⟨l, hl, hkept⟩ := hf.first
    refine ⟨l, ?_, hkept⟩
    rw [List.append_assoc, List.head?_append, hl]
    rfl
  last := ⟨.added new, by simp, rfl⟩

theorem lines_trim (hf : h.Frames lead core tail) :
    (h.trim context).lines = lead.map .kept ++ core ++ (tail.take context).map .kept := by
  have hcount : h.lines.length - (h.trailing - context) =
      (lead.map Line.kept ++ core).length + min context tail.length := by
    rw [hf.trailing, hf.lines]
    simp only [List.length_append, List.length_map]
    omega
  change h.lines.take (h.lines.length - (h.trailing - context)) = _
  rw [hcount, hf.lines, List.take_length_add_append, ← List.map_take, ← List.take_eq_take_min]

/-- Of the equal rows at the end of a hunk some are left out. -/
theorem olds_trim (hf : h.Frames lead core tail) :
    h.olds = (h.trim context).olds ++ tail.drop context := by
  rw [hf.olds_frames, Hunk.olds, hf.lines_trim]
  simp only [List.filterMap_append, Line.filterMap_old?_kept, List.append_assoc, List.take_append_drop]

theorem news_trim (hf : h.Frames lead core tail) :
    h.news = (h.trim context).news ++ tail.drop context := by
  rw [hf.news_frames, Hunk.news, hf.lines_trim]
  simp only [List.filterMap_append, Line.filterMap_new?_kept, List.append_assoc, List.take_append_drop]

/-- At the end of a hunk only some of the equal rows are kept, and the counts follow. -/
theorem trim (hf : h.Frames lead core tail) :
    (h.trim context).Frames lead core (tail.take context) where
  olds := by
    have hlength := congrArg List.length hf.olds_trim
    rw [List.length_append, List.length_drop, hf.olds] at hlength
    change _ = h.oldCount - (h.trailing - context)
    rw [hf.trailing]
    omega
  news := by
    have hlength := congrArg List.length hf.news_trim
    rw [List.length_append, List.length_drop, hf.news] at hlength
    change _ = h.newCount - (h.trailing - context)
    rw [hf.trailing]
    omega
  lines := hf.lines_trim
  trailing := by
    change h.trailing - (h.trailing - context) = _
    rw [hf.trailing, List.length_take]
    omega
  lead_le := hf.lead_le
  first := hf.first
  last := hf.last

theorem sound_trim (hf : h.Frames lead core tail) (counts : h.newCount = h.oldCount) :
    (h.trim context).Sound where
  toCounted := hf.trim.toCounted
  counts := congrArg (· - (h.trailing - context)) counts
  leading := hf.trim.leading_le
  ending := by
    rw [hf.trim.ending_eq]
    exact List.length_take_le _ _

end Hunk.Frames

/-- An open hunk may follow, with what is kept of it. -/
theorem Leads.append_frame {complete : List Hunk} {old new lead tail : List Text} {h : Hunk}
    {core : List Line} (leads : Leads 1 complete old new) (frames : h.Frames lead core tail)
    (start : h.start = 1 + old.length) (counts : h.newCount = h.oldCount) :
    Leads 1 (complete ++ [h.trim context]) (old ++ (h.trim context).olds)
      (new ++ (h.trim context).news) :=
  leads.append_hunk start (frames.sound_trim counts)

namespace Scan

/-- What a scan holds after the rows so far: hunks that lead up to the open one, or, if none is open,
up to the last equal rows. -/
inductive Follows : Scan → List Text → List Text → Prop
  | closed {complete : List Hunk} {recent old new : List Text}
      (leads : Leads 1 complete old new) (recent_le : recent.length ≤ context) :
      Follows ⟨complete, none, recent⟩ (old ++ recent) (new ++ recent)
  | opened {complete : List Hunk} {recent old new lead tail : List Text} {h : Hunk} {core : List Line}
      (leads : Leads 1 complete old new) (start : h.start = 1 + old.length)
      (counts : h.newCount = h.oldCount) (frames : h.Frames lead core tail)
      (tail_le : tail.length ≤ 2 * context) (suffix : recent <:+ tail)
      (recent_le : recent.length ≤ context) :
      Follows ⟨complete, some h, recent⟩ (old ++ h.olds) (new ++ h.news)

namespace Follows

variable {s : Scan} {old new : List Text}

theorem start : Scan.start.Follows [] [] := .closed (.done 1 []) (Nat.zero_le _)

/-- An equal row leaves a hunk open as long as the next one could reach it. -/
theorem keep (h : s.Follows old new) (row : Text) :
    (s.keep row).Follows (old ++ [row]) (new ++ [row]) := by
  cases h with
  | @closed complete recent old new leads recent_le =>
    -- the row that is no longer recent is behind the hunks now
    set n := recent.length + 1 - context with hn
    have hrows := List.take_append_drop n (recent ++ [row])
    have hle : ((recent ++ [row]).drop n).length ≤ context := by simp; omega
    have hclosed := closed (leads.append_rows ((recent ++ [row]).take n)) hle
    rwa [List.append_assoc, List.append_assoc, hrows, ← List.append_assoc, ← List.append_assoc]
      at hclosed
  | @opened complete recent old new lead tail h core leads start counts frames tail_le suffix recent_le =>
    have hframes := frames.keep row
    have hcounts : (h.add (.kept row)).newCount = (h.add (.kept row)).oldCount :=
      congrArg (· + 1) counts
    have holds : (h.add (.kept row)).olds = h.olds ++ [row] := h.olds_add _
    have hnews : (h.add (.kept row)).news = h.news ++ [row] := h.news_add _
    have hsuffix : (recent ++ [row]).drop (recent.length + 1 - context) <:+ tail ++ [row] :=
      (List.drop_suffix _ _).trans (List.suffix_append_self_iff.2 suffix)
    have hle : ((recent ++ [row]).drop (recent.length + 1 - context)).length ≤ context := by
      simp
      omega
    rw [List.append_assoc, List.append_assoc, ← holds, ← hnews]
    change Follows (if _ then _ else _) _ _
    split
    · next hlong =>
      -- of the equal rows behind the difference some are kept, and the recent ones are left over
      rw [hframes.trailing] at hlong
      have hroom : context ≤ ((tail ++ [row]).drop context).length := by
        rw [List.length_drop]
        omega
      obtain ⟨gap, hgap⟩ :=
        List.suffix_of_suffix_length_le hsuffix (List.drop_suffix context _) (Nat.le_trans hle hroom)
      rw [hframes.olds_trim, hframes.news_trim, ← hgap, ← List.append_assoc, ← List.append_assoc,
        ← List.append_assoc, ← List.append_assoc]
      exact closed ((leads.append_frame hframes start hcounts).append_rows gap) hle
    · next hshort =>
      rw [hframes.trailing] at hshort
      exact opened leads start hcounts hframes (Nat.le_of_not_lt hshort) hsuffix hle

/-- A hunk with a difference at its end is open. -/
theorem opened_add {complete : List Hunk} {old new lead : List Text} {core : List Line} {h : Hunk}
    {row row' : Text} (leads : Leads 1 complete old new)
    (frames : ((h.add (.removed row)).add (.added row')).Frames lead core [])
    (start : h.start = 1 + old.length) (counts : h.newCount = h.oldCount) :
    Follows ⟨complete, some ((h.add (.removed row)).add (.added row')), []⟩ (old ++ h.olds ++ [row])
      (new ++ h.news ++ [row']) := by
  have holds : ((h.add (.removed row)).add (.added row')).olds = h.olds ++ [row] := by
    simp [Hunk.olds_add, Line.old?]
  have hnews : ((h.add (.removed row)).add (.added row')).news = h.news ++ [row'] := by
    simp [Hunk.news_add, Line.new?]
  rw [List.append_assoc, List.append_assoc, ← holds, ← hnews]
  exact opened leads start (congrArg (· + 1) counts) frames (Nat.zero_le _) (List.suffix_refl [])
    (Nat.zero_le _)

/-- Rows that differ make a hunk longer, or open one that takes in the last equal rows. -/
theorem change (h : s.Follows old new) (row row' : Text) :
    (s.change (1 + old.length) (some row) (some row')).Follows (old ++ [row]) (new ++ [row']) := by
  cases h with
  | @closed complete recent old new leads recent_le =>
    let h : Hunk := .opening (1 + (old ++ recent).length - recent.length) recent
    have hframes : ((h.add (.removed row)).add (.added row')).Frames recent
        [.removed row, .added row'] [] := {
      toCounted := ((Hunk.counted_opening _ recent).add _).add _
      lines := by simp [h, Hunk.opening_eq]
      trailing := rfl
      lead_le := recent_le
      first := ⟨_, rfl, rfl⟩
      last := ⟨_, rfl, rfl⟩ }
    have hstart : h.start = 1 + old.length := by
      simp only [h, Hunk.opening_eq, List.length_append]
      omega
    have hcounts : h.newCount = h.oldCount := by simp [h, Hunk.opening_eq]
    have hopened := opened_add leads hframes hstart hcounts
    rwa [Hunk.olds_opening, Hunk.news_opening] at hopened
  | opened leads start counts frames => exact opened_add leads (frames.change row row') start counts

theorem run (h : s.Follows old new) {olds news : List Text} (hlength : olds.length = news.length) :
    (s.run (1 + old.length) olds news).Follows (old ++ olds) (new ++ news) := by
  induction olds generalizing s old new news with
  | nil =>
    obtain rfl : news = [] := List.length_eq_zero_iff.1 hlength.symm
    rwa [Scan.run, List.append_nil, List.append_nil]
  | cons row olds ih =>
    cases news with
    | nil => cases hlength
    | cons row' news =>
      have hnext : (if row = row' then s.keep row
          else s.change (1 + old.length) (some row) (some row')).Follows (old ++ [row])
            (new ++ [row']) := by
        split
        · next heq => exact heq ▸ h.keep row
        · exact h.change row row'
      have hrun := ih hnext (Nat.succ.inj hlength)
      rw [List.length_append, ← Nat.add_assoc, List.append_assoc, List.append_assoc] at hrun
      rw [Scan.run]
      exact hrun

/-- In the end the last hunk is complete. -/
theorem leads_close (h : s.Follows old new) : Leads 1 s.close.complete old new := by
  cases h with
  | closed leads => exact leads.append_rows _
  | @opened _ _ _ _ _ tail _ _ leads start counts frames =>
    have hleads := (leads.append_frame frames start counts).append_rows (tail.drop context)
    rwa [List.append_assoc, List.append_assoc, ← frames.olds_trim, ← frames.news_trim] at hleads

end Follows
end Scan

/-- The hunks between two texts of equally many rows are a patch. -/
theorem isPatch_hunks {old new : Text} (h : (Text.rows old).length = (Text.rows new).length) :
    IsPatch (hunks old new) (Text.rows old) (Text.rows new) :=
  (Scan.Follows.start.run h).leads_close.isPatch

end Indentation.Diff
