import Indentation.Proofs.Directive.Written

/-!
# Directives as patterns

Two patterns tell what a directive is: `^\s*(…|…|…|…)(?:\s+(.*?))?\s*$` for the text between the delimiters of
a comment, where the four words are the keywords in their order, and `\s*,\s*` for what parts the names of a
list.  A pattern is matched by trying.  What repeats takes as many characters as it can first, or as few if
it is lazy, alternatives are tried in their order, and the first way that gets to the end counts.

Here this is said literally.  The reader needs no trying: only one way to cut off the white space in front and
only one keyword can lead to the end, and the first way to match the list leaves no white space around it.
-/

namespace Indentation

open Text

namespace Text

/-- The ways to take characters of one kind off a text, the shortest first. -/
def shortestFirst (p : Char → Bool) : Text → List (Text × Text)
  | [] => [([], [])]
  | c :: t =>
    ([], c :: t) :: if p c then (shortestFirst p t).map fun cut => (c :: cut.1, cut.2) else []

def longestFirst (p : Char → Bool) (t : Text) : List (Text × Text) := (shortestFirst p t).reverse

variable {p : Char → Bool} {t : Text}

theorem exists_shortestFirst_eq (p : Char → Bool) (t : Text) :
    ∃ others, shortestFirst p t = ([], t) :: others := by
  cases t <;> exact ⟨_, rfl⟩

theorem of_mem_shortestFirst {cut : Text × Text} (h : cut ∈ shortestFirst p t) :
    t = cut.1 ++ cut.2 ∧ ∀ c ∈ cut.1, p c = true := by
  induction t generalizing cut with
  | nil =>
    rw [shortestFirst, List.mem_singleton] at h
    simp [h]
  | cons c t ih =>
    rw [shortestFirst, List.mem_cons] at h
    rcases h with rfl | h
    · simp
    · split at h
      · next hc =>
        obtain ⟨cut, hcut, rfl⟩ := List.mem_map.1 h
        obtain ⟨ht, hall⟩ := ih hcut
        exact ⟨by rw [ht, List.cons_append], List.forall_mem_cons.2 ⟨hc, hall⟩⟩
      · cases h

/-- The longest way takes all that there is, and each other one leaves a character that it could take. -/
theorem exists_longestFirst_eq (p : Char → Bool) (t : Text) : ∃ others,
    longestFirst p t = (t.takeWhile p, t.dropWhile p) :: others ∧
      ∀ cut ∈ others, ∃ c ∈ cut.2.head?, p c = true := by
  induction t with
  | nil => exact ⟨[], rfl, List.forall_mem_nil _⟩
  | cons c t ih =>
    cases hc : p c with
    | false =>
      refine ⟨[], ?_, List.forall_mem_nil _⟩
      simp [longestFirst, shortestFirst, hc]
    | true =>
      obtain ⟨others, heq, hothers⟩ := ih
      refine ⟨others.map (fun cut => (c :: cut.1, cut.2)) ++ [([], c :: t)], ?_, ?_⟩
      · rw [longestFirst] at heq
        simp [longestFirst, shortestFirst, hc, ← List.map_reverse, heq]
      · intro cut hcut
        rcases List.mem_append.1 hcut with hcut | hcut
        · obtain ⟨other, hother, rfl⟩ := List.mem_map.1 hcut
          exact hothers other hother
        · rw [List.mem_singleton.1 hcut]
          exact ⟨c, rfl, hc⟩

/-- What cannot go on with a character of the kind goes on behind all of them, or not at all. -/
theorem findSome?_longestFirst {α : Type} {f : Text × Text → Option α}
    (h : ∀ cut, (∃ c ∈ cut.2.head?, p c = true) → f cut = none) :
    (longestFirst p t).findSome? f = f (t.takeWhile p, t.dropWhile p) := by
  obtain ⟨others, heq, hothers⟩ := exists_longestFirst_eq p t
  have hnone : others.findSome? f = none :=
    List.findSome?_eq_none_iff.2 fun cut hcut => h cut (hothers cut hcut)
  rw [heq, List.findSome?_cons, hnone]
  cases f (t.takeWhile p, t.dropWhile p) <;> rfl

end Text

namespace Directive

/-- The end of a text behind white space: `\s*$`. -/
def atEnd? {α : Type} (found : α) (t : Text) : Option α :=
  (longestFirst isBlank t).findSome? fun cut => if cut.2 = [] then some found else none

/-- The ways to match a list behind white space, or nothing: `(?:\s+(.*?))?`. -/
def listWays (rest : Text) : List (Option Text × Text) :=
  ((longestFirst isBlank rest).filter fun gap => gap.1 ≠ []).flatMap (fun gap =>
    (shortestFirst (· != '\n') gap.2).map fun cut => (some cut.1, cut.2)) ++ [(none, rest)]

def matchedList? (rest : Text) : Option (Option Text) :=
  (listWays rest).findSome? fun way => atEnd? way.1 way.2

/-- The keyword and the list of a directive, if it has one. -/
def matched? (body : Text) : Option (Action × Option Text) :=
  (longestFirst isBlank body).findSome? fun lead =>
    keywords.findSome? fun word =>
      (after? word.1 lead.2).bind fun rest => (matchedList? rest).map fun list => (word.2, list)

/-- What is behind a comma with white space around it: `\s*,\s*`. -/
def behindComma? (t : Text) : Option Text :=
  (longestFirst isBlank t).findSome? fun lead =>
    (after? [','] lead.2).bind fun rest => (longestFirst isBlank rest).findSome? fun trail => some trail.2

theorem behindComma?_eq (t : Text) :
    behindComma? t = (after? [','] (t.dropWhile isBlank)).map (List.dropWhile isBlank) := by
  have hcomma : isBlank ',' = false := by decide
  rw [behindComma?, findSome?_longestFirst]
  · cases after? [','] (t.dropWhile isBlank) with
    | none => rfl
    | some rest =>
      obtain ⟨others, heq, -⟩ := exists_longestFirst_eq isBlank rest
      rw [Option.bind_some, heq, List.findSome?_cons]
      rfl
  · rintro cut ⟨c, hc, hblank⟩
    obtain ⟨rest, hrest⟩ := List.head?_eq_some_iff.1 hc
    have hne : ',' ≠ c := by
      rintro rfl
      rw [hcomma] at hblank
      cases hblank
    rw [hrest, after?, if_neg hne, Option.bind_none]

theorem length_behindComma? {t rest : Text} (h : behindComma? t = some rest) : rest.length < t.length := by
  rw [behindComma?_eq, Option.map_eq_some_iff] at h
  obtain ⟨behind, hbehind, rfl⟩ := h
  have hcut := congrArg List.length (after?_eq_some_iff.1 hbehind)
  have hlead := (List.dropWhile_suffix isBlank (l := t)).length_le
  have htrail := (List.dropWhile_suffix isBlank (l := behind)).length_le
  rw [List.length_append, List.length_singleton] at hcut
  omega

/-- The pieces of a text between commas, where the white space around a comma goes with it. -/
def wideCommaPieces (t : Text) : List Text :=
  match _h : behindComma? t with
  | some rest => [] :: wideCommaPieces rest
  | none =>
    match t with
    | [] => [[]]
    | c :: later => (wideCommaPieces later).modifyHead (c :: ·)
termination_by t.length
decreasing_by
  · exact length_behindComma? ‹_›
  · exact Nat.lt_succ_self later.length

def ofPatterns? (kind : TokenKind) (comment : Text) : Option Directive := do
  let body ← body? kind comment
  let (action, list) ← matched? body
  if kind = .lineComment && !isForLine action then none
  else
    let names := ((list.map wideCommaPieces).getD []).filter fun name => !name.isEmpty
    return filled ⟨action, names⟩

/-! ## The list of a directive -/

theorem atEnd?_eq {α : Type} (found : α) (t : Text) :
    atEnd? found t = if t.dropWhile isBlank = [] then some found else none := by
  rw [atEnd?, findSome?_longestFirst]
  rintro cut ⟨c, hc, -⟩
  exact if_neg fun hnil => by simp [hnil] at hc

/-- Whatever way a list is matched in, it is one that may follow a keyword. -/
theorem follows_of_matchedList? {rest : Text} {list : Option Text} (h : matchedList? rest = some list) :
    Follows rest (list.getD []) := by
  obtain ⟨way, hway, hend⟩ := List.exists_of_findSome?_eq_some h
  rw [atEnd?_eq, Option.ite_none_right_eq_some, Option.some.injEq, List.dropWhile_eq_nil_iff] at hend
  obtain ⟨htrail, rfl⟩ := hend
  rw [listWays, List.mem_append, List.mem_flatMap, List.mem_singleton] at hway
  obtain ⟨gap, hgap, hway⟩ | rfl := hway
  · obtain ⟨hgap, hne⟩ := List.mem_filter.1 hgap
    obtain ⟨cut, hcut, rfl⟩ := List.mem_map.1 hway
    obtain ⟨hrest, hblank⟩ := of_mem_shortestFirst (List.mem_reverse.1 hgap)
    obtain ⟨hgap', hline⟩ := of_mem_shortestFirst hcut
    rw [hrest, hgap', ← List.append_assoc]
    exact .list hblank (by simpa using hne) (fun hmem => by simpa using hline _ hmem) htrail
  · exact .blank htrail

/-- A lazy list ends where only white space is left. -/
theorem findSome?_shortestFirst {α : Type} {p : Char → Bool} {list trail : Text} (f : Text → α)
    (hlist : ∀ c ∈ list, p c = true) (hends : ∀ c ∈ list.getLast?, isBlank c = false)
    (htrail : trail.Blank) :
    (shortestFirst p (list ++ trail)).findSome? (fun cut => atEnd? (f cut.1) cut.2) = some (f list) := by
  induction list generalizing f with
  | nil =>
    obtain ⟨others, heq⟩ := exists_shortestFirst_eq p trail
    have hend : atEnd? (f []) trail = some (f []) := by
      rw [atEnd?_eq, if_pos (List.dropWhile_eq_nil_iff.2 htrail)]
    rw [List.nil_append, heq, List.findSome?_cons, hend]
  | cons c list ih =>
    have hmore : atEnd? (f []) (c :: (list ++ trail)) = none := by
      rw [atEnd?_eq, if_neg]
      intro hnil
      have hlast := hends _ (List.getLast?_eq_some_getLast (List.cons_ne_nil c list))
      have hmem := List.mem_append_left trail (List.getLast_mem (List.cons_ne_nil c list))
      rw [List.dropWhile_eq_nil_iff.1 hnil _ hmem] at hlast
      cases hlast
    rw [List.cons_append, shortestFirst, if_pos (hlist c List.mem_cons_self), List.findSome?_cons, hmore]
    simp only [List.findSome?_map]
    refine ih (fun t => f (c :: t)) (fun d hd => hlist d (List.mem_cons_of_mem c hd)) fun d hd => ?_
    exact hends d (List.mem_getLast?_cons hd)

/-- The first way to match a list leaves no white space around it. -/
theorem matchedList?_of_follows {rest list : Text} (h : Follows rest list) (hne : rest ≠ []) :
    matchedList? rest = some (some (trim rest)) := by
  have hline : ∀ c ∈ trim rest, (c != '\n') = true := by
    rw [h.trim_eq]
    rintro c hc
    have hne : c ≠ '\n' := fun heq => h.not_mem (heq ▸ mem_of_mem_trim hc)
    simpa using hne
  have hgap : rest.takeWhile isBlank ≠ [] := by
    obtain ⟨c, later, rfl⟩ := List.exists_cons_of_ne_nil hne
    rw [List.takeWhile_cons_of_pos (h.isBlank_head c rfl)]
    exact List.cons_ne_nil _ _
  obtain ⟨trail, htrail, hbehind⟩ := exists_trimEnd (rest.dropWhile isBlank)
  have hfirst := findSome?_shortestFirst some hline (trimmed_trim rest).ends htrail
  rw [trim_eq_trimEnd, ← hbehind] at hfirst
  obtain ⟨others, heq, -⟩ := exists_longestFirst_eq isBlank rest
  rw [matchedList?, listWays, heq, List.filter_cons_of_pos (by simpa using hgap), List.flatMap_cons,
    List.append_assoc, List.findSome?_append, List.findSome?_map]
  exact congrArg (Option.or · _) hfirst

/-! ## The pieces of a list -/

theorem exists_of_behindComma? {t rest : Text} (h : behindComma? t = some rest) :
    ∃ lead gap : Text, lead.Blank ∧ gap.Blank ∧ t = lead ++ ',' :: (gap ++ rest) ∧
      ∀ c ∈ rest.head?, isBlank c = false := by
  rw [behindComma?_eq, Option.map_eq_some_iff] at h
  obtain ⟨behind, hbehind, rfl⟩ := h
  refine ⟨t.takeWhile isBlank, behind.takeWhile isBlank, blank_takeWhile t, blank_takeWhile behind, ?_,
    head?_dropWhile_isBlank behind⟩
  have hcut := after?_eq_some_iff.1 hbehind
  rw [List.singleton_append] at hcut
  rw [List.takeWhile_append_dropWhile, ← hcut, List.takeWhile_append_dropWhile]

theorem behindComma?_isSome {lead : Text} (hlead : lead.Blank) (rest : Text) :
    (behindComma? (lead ++ ',' :: rest)).isSome = true := by
  have hafter : after? [','] (',' :: rest) = some rest := after?_eq_some_iff.2 rfl
  rw [behindComma?_eq, hlead.dropWhile_append, List.dropWhile_cons_of_neg (by decide), hafter]
  rfl

/-- The white space around a comma is no part of the pieces next to it, and if no other white space is at the
end of a text, then none is around its pieces but for the front of the first one. -/
theorem wideCommaPieces_eq {t first : Text} {later : List Text} (hends : ∀ c ∈ t.getLast?, isBlank c = false)
    (hpieces : commaPieces t = first :: later) :
    wideCommaPieces t = trimEnd first :: later.map trim := by
  have hcomma : isBlank ',' = false := by decide
  fun_induction wideCommaPieces t generalizing first later with
  | case1 t rest hrest ih =>
    obtain ⟨lead, gap, hlead, hgap, rfl, hbegins⟩ := exists_of_behindComma? hrest
    obtain ⟨second, later', hlater⟩ := exists_commaPieces_eq_cons rest
    have hgapped := commaPieces_append_of_not_mem (hgap.not_mem hcomma) hlater
    rw [commaPieces_append_comma (hlead.not_mem hcomma), hgapped] at hpieces
    obtain ⟨rfl, rfl⟩ := List.cons_eq_cons.1 hpieces
    have hsecond : ∀ c ∈ second.head?, isBlank c = false :=
      fun c hc => hbegins c (head?_of_commaPieces hlater c hc)
    have hrest : ∀ c ∈ rest.getLast?, isBlank c = false := by
      intro c hc
      refine hends c ?_
      rw [← List.cons_append, ← List.append_assoc, Option.mem_def, List.getLast?_append,
        Option.mem_def.1 hc]
      rfl
    rw [ih hrest hlater, hlead.trimEnd_eq, List.map_cons, hgap.trim_append_left,
      trimEnd_of_begins hsecond]
  | case2 =>
    obtain ⟨rfl, rfl⟩ := List.cons_eq_cons.1 hpieces
    rfl
  | case3 c t hnone ih =>
    have hc : c ≠ ',' := by
      rintro rfl
      have hsome := behindComma?_isSome blank_nil t
      rw [List.nil_append, hnone] at hsome
      cases hsome
    obtain ⟨first', later', hlater⟩ := exists_commaPieces_eq_cons t
    rw [commaPieces_cons hc hlater] at hpieces
    obtain ⟨rfl, rfl⟩ := List.cons_eq_cons.1 hpieces
    have hfirst : isBlank c = false ∨ ¬first'.Blank := by
      rw [← Bool.not_eq_true, ← not_and_or]
      rintro ⟨hblank, hfirst⟩
      have hlead : Blank (c :: first') := List.forall_mem_cons.2 ⟨hblank, hfirst⟩
      rcases eq_or_of_commaPieces hlater with ⟨rfl, -⟩ | ⟨behind, rfl⟩
      · have hlast := hends _ (List.getLast?_eq_some_getLast (List.cons_ne_nil c t))
        rw [hlead _ (List.getLast_mem _)] at hlast
        cases hlast
      · have hsome := behindComma?_isSome hlead behind
        rw [List.cons_append, hnone] at hsome
        cases hsome
    rw [ih (fun d hd => hends d (List.mem_getLast?_cons hd)) hlater, List.modifyHead_cons, trimEnd_cons hfirst]

theorem filter_wideCommaPieces_trim (t : Text) :
    (wideCommaPieces (trim t)).filter (fun name => !name.isEmpty) = names (trim t) := by
  obtain ⟨first, later, hpieces⟩ := exists_commaPieces_eq_cons (trim t)
  have hbegins : ∀ c ∈ first.head?, isBlank c = false :=
    fun c hc => (trimmed_trim t).begins c (head?_of_commaPieces hpieces c hc)
  rw [wideCommaPieces_eq (trimmed_trim t).ends hpieces, names, hpieces, List.map_cons,
    trimEnd_of_begins hbegins]

/-! ## Both readings -/

theorem namesAfter?_eq_map (rest : Text) : namesAfter? rest =
    (matchedList? rest).map fun list =>
      ((list.map wideCommaPieces).getD []).filter fun name => !name.isEmpty := by
  by_cases hrest : rest = []
  · subst hrest
    decide
  refine Option.ext fun ns => ?_
  rw [namesAfter?_eq_some_iff, Option.map_eq_some_iff]
  constructor
  · rintro ⟨hhead, hline, hnames⟩
    refine ⟨_, matchedList?_of_follows (follows_trim hhead hline) hrest, ?_⟩
    rw [Option.map_some, Option.getD_some, filter_wideCommaPieces_trim, hnames]
  · rintro ⟨list, hlist, rfl⟩
    have hfollows := follows_of_matchedList? hlist
    have hfirst := (matchedList?_of_follows hfollows hrest).symm.trans hlist
    obtain rfl := Option.some.inj hfirst
    refine ⟨hfollows.isBlank_head, ?_, ?_⟩
    · exact hfollows.not_mem
    · rw [Option.map_some, Option.getD_some, filter_wideCommaPieces_trim]

/-- Only all the white space in front can be left out, because keywords begin with something else. -/
theorem matched?_eq (body : Text) : matched? body = keywords.findSome? fun word =>
    (after? word.1 (body.dropWhile isBlank)).bind fun rest =>
      (matchedList? rest).map fun list => (word.2, list) := by
  rw [matched?, findSome?_longestFirst]
  rintro cut ⟨c, hc, hblank⟩
  refine List.findSome?_eq_none_iff.2 fun word hmem => ?_
  obtain ⟨word, action⟩ := word
  obtain rfl := mem_keywords_iff.1 hmem
  cases hafter : after? (keyword action) cut.2 with
  | none => rfl
  | some rest =>
    rw [after?_eq_some_iff.1 hafter, List.head?_append_of_ne_nil _ keyword_ne_nil] at hc
    rw [isBlank_of_mem_keyword c (List.mem_of_mem_head? hc)] at hblank
    cases hblank

/-- A comment is read as the two patterns say. -/
theorem ofPatterns?_eq (kind : TokenKind) (comment : Text) :
    ofPatterns? kind comment = ofComment? kind comment := by
  have hlisted (body : Text) : keywords.findSome? (listedAfter? (body.dropWhile isBlank)) =
      (matched? body).map fun found =>
        ⟨found.1, ((found.2.map wideCommaPieces).getD []).filter fun name => !name.isEmpty⟩ := by
    rw [matched?_eq, List.map_findSome?]
    refine congrArg (fun f => keywords.findSome? f) (funext fun word => ?_)
    rw [listedAfter?, Function.comp_apply]
    cases after? word.1 (body.dropWhile isBlank) with
    | none => rfl
    | some rest => cases hlist : matchedList? rest <;> simp [namesAfter?_eq_map, hlist]
  rw [ofComment?_eq, listed?, ofPatterns?]
  simp only [hlisted]
  cases body? kind comment with
  | none => rfl
  | some body =>
    simp only [Option.bind_eq_bind, Option.bind_some, Option.bind_map, Option.map_bind]
    refine congrArg (fun f => (matched? body).bind f) (funext fun found => ?_)
    rw [Function.comp_apply, Function.comp_apply, apply_ite (Option.map filled)]
    rfl

/-- A comment is read as the two patterns say, which is as it is written: it is a directive if it can be cut
into a keyword and a list, and then it is the one with that keyword and with the names of that list, in whatever
way it is cut.  So what is written for a keyword and names is read as that keyword and these names. -/
theorem ofComment?_exact :
    (∀ kind comment, ofComment? kind comment = ofPatterns? kind comment) ∧
    (∀ kind comment, (∃ d, ofComment? kind comment = some d) ↔
      ∃ action list, IsWritten kind comment action list) ∧
    (∀ kind comment d, ofComment? kind comment = some d ↔
      ∃ list names, IsWritten kind comment d.action list ∧ Lists list names ∧
        d.rules = if names = [] then [everyRule] else names) ∧
    ∀ kind action names (lead gap list trail comment : Text),
      (kind = .lineComment → isForLine action = true) → (∀ name ∈ names, IsName name) →
      Joins names list → lead.Blank → gap.Blank → gap ≠ [] → trail.Blank →
      Encloses kind comment (lead ++ keyword action ++ (gap ++ list ++ trail)) →
        ofComment? kind comment = some ⟨action, names⟩ := by
  refine ⟨fun kind comment => (ofPatterns?_eq kind comment).symm, fun _ _ => exists_ofComment?_iff,
    fun _ _ _ => ofComment?_eq_some_iff, ?_⟩
  intro kind action names lead gap list trail comment hline hnames hjoins hlead hgap hne htrail hencloses
  have hfollows : Follows (gap ++ list ++ trail) list := .list hgap hne (hjoins.one_line hnames) htrail
  have hwritten : IsWritten kind comment action list := ⟨⟨_, hencloses, .mk hlead hfollows⟩, hline⟩
  refine ofComment?_eq_some_iff.2 ⟨list, names, hwritten, lists_iff.2 (hjoins.names_eq hnames), ?_⟩
  rw [if_neg hjoins.ne_nil]

/-- The white space around the comma is no part of the names. -/
theorem ofComment?_exact_twoNames :
    ofComment? .blockComment "/* eslint-disable indent , semi */".toList =
      some ⟨.disable, ["indent".toList, "semi".toList]⟩ := by
  have hname (name : Text) (hne : name ≠ []) (h : name.all (fun c => !isBlank c && c != ',') = true) :
      IsName name := by
    simp only [List.all_eq_true, Bool.and_eq_true, Bool.not_eq_true', bne_iff_ne, ne_eq] at h
    refine ⟨hne, fun hmem => (h _ hmem).2 rfl, fun hmem => ?_, ?_, ?_⟩
    · exact absurd (h _ hmem).1 (by decide)
    · exact fun c hc => (h c (List.mem_of_mem_head? hc)).1
    · exact fun c hc => (h c (List.mem_of_getLast? hc)).1
  have hnames : ∀ name ∈ ["indent".toList, "semi".toList], IsName name := by
    intro name hmem
    rcases List.mem_pair.1 hmem with rfl | rfl <;> exact hname _ (by decide) (by decide +kernel)
  have hblank : Blank [' '] := fun c hc => by
    rw [List.mem_singleton.1 hc]
    decide
  have hjoins : Joins ["indent".toList, "semi".toList]
      ("indent".toList ++ [' '] ++ ',' :: ([' '] ++ "semi".toList)) :=
    .cons _ hblank (by decide) hblank (by decide) (.last _)
  have hcomment : "/* eslint-disable indent , semi */".toList = "/*".toList ++ ([' '] ++ keyword .disable ++
      ([' '] ++ ("indent".toList ++ [' '] ++ ',' :: ([' '] ++ "semi".toList)) ++ [' '])) ++ "*/".toList := by
    decide +kernel
  refine ofComment?_exact.2.2.2 _ _ _ [' '] [' '] _ [' '] _ nofun hnames hjoins hblank hblank
    (List.cons_ne_nil _ _) hblank ?_
  rw [hcomment]
  exact .block _

end Directive

end Indentation
