import Indentation.Proofs.Directive.Crlf
import Indentation.Proofs.Directive.Names
import Indentation.Proofs.Text.Trim

/-!
# How directives are written

A comment is a directive if between its delimiters there is a keyword, with white space around it, and maybe
a list of names on one line.  There are many ways to cut such a comment: the white space next to the list may
count as part of the list, and the list may be empty.  All of them give the same names, and no comment can be
cut with two keywords, although one keyword begins with another.
-/

namespace Indentation

open Text

namespace Directive

def keyword : Action → Text
  | .disable => "eslint-disable".toList
  | .enable => "eslint-enable".toList
  | .disableLine => "eslint-disable-line".toList
  | .disableNextLine => "eslint-disable-next-line".toList

/-- A comment with what is between its delimiters. -/
inductive Encloses : TokenKind → Text → Text → Prop
  | line (body : Text) : Encloses .lineComment ("//".toList ++ body) body
  | block (body : Text) : Encloses .blockComment ("/*".toList ++ body ++ "*/".toList) body

/-- What may follow a keyword: white space, and a list on one line that white space sets apart. -/
inductive Follows : Text → Text → Prop
  | blank {trail : Text} (htrail : trail.Blank) : Follows trail []
  | list {gap list trail : Text} (hgap : gap.Blank) (hne : gap ≠ []) (hlist : '\n' ∉ list)
    (htrail : trail.Blank) : Follows (gap ++ list ++ trail) list

/-- A keyword and what follows it, behind white space. -/
inductive Spells (action : Action) : Text → Text → Prop
  | mk {lead rest list : Text} (hlead : lead.Blank) (hrest : Follows rest list) :
    Spells action (lead ++ keyword action ++ rest) list

/-- The names in a list: what is between its commas without the white space there, if anything is left. -/
def Lists (list : Text) (names : List Text) : Prop :=
  ∃ pieces cores : List Text, pieces ≠ [] ∧ (∀ piece ∈ pieces, ',' ∉ piece) ∧
    list = [','].intercalate pieces ∧ List.Forall₂ Surrounds pieces cores ∧ names = cores.filter (· ≠ [])

/-- A comment that is written as a directive with a list.  One up to the end of its line can only be about
lines. -/
def IsWritten (kind : TokenKind) (comment : Text) (action : Action) (list : Text) : Prop :=
  (∃ body, Encloses kind comment body ∧ Spells action body list) ∧
    (kind = .lineComment → isForLine action = true)

/-! ## Lists of names -/

theorem commaPieces_comma (t : Text) : commaPieces (',' :: t) = [] :: commaPieces t := by
  rw [commaPieces, if_pos rfl]

theorem commaPieces_cons {c : Char} {t first : Text} {later : List Text} (hc : c ≠ ',')
    (h : commaPieces t = first :: later) : commaPieces (c :: t) = (c :: first) :: later := by
  rw [commaPieces, if_neg hc, h]

theorem exists_commaPieces_eq_cons (t : Text) : ∃ first later, commaPieces t = first :: later := by
  induction t with
  | nil => exact ⟨[], [], rfl⟩
  | cons c t ih =>
    obtain ⟨first, later, h⟩ := ih
    by_cases hc : c = ','
    · exact ⟨[], commaPieces t, hc ▸ commaPieces_comma t⟩
    · exact ⟨c :: first, later, commaPieces_cons hc h⟩

theorem commaPieces_eq_splitOn (t : Text) : commaPieces t = t.splitOn ',' := by
  rw [List.splitOn_eq_splitOnP]
  induction t with
  | nil => rfl
  | cons c t ih =>
    rw [List.splitOnP_cons_eq_if_modifyHead, ← ih]
    by_cases hc : c = ','
    · rw [hc, commaPieces_comma, if_pos (beq_self_eq_true ',')]
    · obtain ⟨first, later, h⟩ := exists_commaPieces_eq_cons t
      rw [commaPieces_cons hc h, if_neg (by simpa using hc), h, List.modifyHead_cons]

/-- Pieces fall apart at commas, so the last piece of one text and the first of the next make one. -/
theorem exists_commaPieces_append (a : Text) : ∃ earlier last, commaPieces a = earlier ++ [last] ∧
    ∀ b first later, commaPieces b = first :: later →
      commaPieces (a ++ b) = earlier ++ (last ++ first) :: later := by
  induction a with
  | nil => exact ⟨[], [], rfl, fun b first later h => h⟩
  | cons c a ih =>
    obtain ⟨earlier, last, ha, happend⟩ := ih
    by_cases hc : c = ','
    · subst hc
      refine ⟨[] :: earlier, last, by rw [commaPieces_comma, ha, List.cons_append], ?_⟩
      intro b first later hb
      rw [List.cons_append, commaPieces_comma, happend b first later hb, List.cons_append]
    · cases earlier with
      | nil =>
        exact ⟨[], c :: last, commaPieces_cons hc ha, fun b first later hb =>
          commaPieces_cons hc (happend b first later hb)⟩
      | cons piece earlier =>
        exact ⟨(c :: piece) :: earlier, last, commaPieces_cons hc ha, fun b first later hb =>
          commaPieces_cons hc (happend b first later hb)⟩

theorem not_mem_of_mem_commaPieces {t : Text} : ∀ piece ∈ commaPieces t, ',' ∉ piece := by
  induction t with
  | nil => simp [commaPieces]
  | cons c t ih =>
    by_cases hc : c = ','
    · rw [hc, commaPieces_comma]
      exact List.forall_mem_cons.2 ⟨List.not_mem_nil, ih⟩
    · obtain ⟨first, later, h⟩ := exists_commaPieces_eq_cons t
      rw [h, List.forall_mem_cons] at ih
      rw [commaPieces_cons hc h, List.forall_mem_cons, List.mem_cons, not_or]
      exact ⟨⟨Ne.symm hc, ih.1⟩, ih.2⟩

theorem commaPieces_of_not_mem {t : Text} (h : ',' ∉ t) : commaPieces t = [t] := by
  have hsplit : ([','].intercalate [t]).splitOn ',' = [t] :=
    List.splitOn_intercalate ',' (by simpa using h) (List.cons_ne_nil t [])
  rwa [List.intercalate_singleton, ← commaPieces_eq_splitOn] at hsplit

/-- What has no comma belongs to the first piece of what follows it. -/
theorem commaPieces_append_of_not_mem {a b first : Text} {later : List Text} (ha : ',' ∉ a)
    (hb : commaPieces b = first :: later) : commaPieces (a ++ b) = (a ++ first) :: later := by
  obtain ⟨earlier, last, heq, happend⟩ := exists_commaPieces_append a
  rw [commaPieces_of_not_mem ha] at heq
  obtain ⟨rfl, rfl⟩ : earlier = [] ∧ a = last := by
    obtain ⟨hnil, hlast⟩ := List.append_inj' (heq.symm.trans (List.nil_append [a]).symm) rfl
    exact ⟨hnil, by simpa using hlast.symm⟩
  exact happend b first later hb

theorem commaPieces_append_comma {a : Text} (ha : ',' ∉ a) (b : Text) :
    commaPieces (a ++ ',' :: b) = a :: commaPieces b := by
  rw [commaPieces_append_of_not_mem ha (commaPieces_comma b), List.append_nil]

/-- The first piece of a text is all of it or goes up to a comma. -/
theorem eq_or_of_commaPieces {t first : Text} {later : List Text} (h : commaPieces t = first :: later) :
    t = first ∧ later = [] ∨ ∃ behind, t = first ++ ',' :: behind := by
  have hjoined : [','].intercalate (commaPieces t) = t := by
    rw [commaPieces_eq_splitOn, List.intercalate_splitOn]
  rw [h] at hjoined
  cases later with
  | nil => exact .inl ⟨by rw [← hjoined, List.intercalate_singleton], rfl⟩
  | cons second later =>
    rw [List.intercalate_cons_cons, List.append_assoc] at hjoined
    exact .inr ⟨_, hjoined.symm⟩

theorem head?_of_commaPieces {t first : Text} {later : List Text} (h : commaPieces t = first :: later) :
    ∀ c ∈ first.head?, c ∈ t.head? := by
  intro c hc
  rcases eq_or_of_commaPieces h with ⟨rfl, -⟩ | ⟨behind, rfl⟩
  · exact hc
  · rw [Option.mem_def, List.head?_append, Option.mem_def.1 hc]
    rfl

/-- White space around a list is white space around its first and last piece. -/
theorem names_surrounded {lead trail : Text} (hlead : lead.Blank) (htrail : trail.Blank) (list : Text) :
    names (lead ++ list ++ trail) = names list := by
  have hcomma : isBlank ',' = false := by decide
  have hleft (t : Text) : (commaPieces (lead ++ t)).map trim = (commaPieces t).map trim := by
    obtain ⟨first, later, ht⟩ := exists_commaPieces_eq_cons t
    rw [commaPieces_append_of_not_mem (hlead.not_mem hcomma) ht, ht, List.map_cons, List.map_cons,
      hlead.trim_append_left]
  have hright : (commaPieces (list ++ trail)).map trim = (commaPieces list).map trim := by
    obtain ⟨earlier, last, heq, happend⟩ := exists_commaPieces_append list
    rw [happend trail trail [] (commaPieces_of_not_mem (htrail.not_mem hcomma)), heq, List.map_append,
      List.map_append, List.map_singleton, List.map_singleton, htrail.trim_append_right]
  rw [names, names, List.append_assoc, hleft, hright]

theorem names_trim (list : Text) : names (trim list) = names list := by
  obtain ⟨lead, trail, hlead, htrail, heq⟩ := exists_trim list
  conv_rhs => rw [heq, names_surrounded hlead htrail]

/-- A list has its names in one way. -/
theorem lists_iff {list : Text} {ns : List Text} : Lists list ns ↔ names list = ns := by
  have hfilter (cores : List Text) : cores.filter (· ≠ []) = cores.filter fun name => !name.isEmpty :=
    List.filter_congr fun name _ => by cases name <;> rfl
  have hcores {pieces cores : List Text} : List.Forall₂ Surrounds pieces cores ↔ cores = pieces.map trim := by
    have hsurrounds : Surrounds = fun piece core => trim piece = core := by
      funext piece core
      exact propext trim_eq_iff.symm
    rw [hsurrounds, ← List.forall₂_map_left_iff, List.forall₂_eq_eq_eq, eq_comm]
  constructor
  · rintro ⟨pieces, cores, hne, hpieces, rfl, hforall, rfl⟩
    rw [names, commaPieces_eq_splitOn, List.splitOn_intercalate ',' hpieces hne, hcores.1 hforall, hfilter]
  · rintro rfl
    refine ⟨commaPieces list, _, ?_, ?_, ?_, hcores.2 rfl, (hfilter _).symm⟩
    · rw [commaPieces_eq_splitOn]
      exact List.splitOn_ne_nil ',' list
    · exact not_mem_of_mem_commaPieces
    · rw [commaPieces_eq_splitOn, List.intercalate_splitOn]

/-! ## Keywords and what follows them -/

namespace Follows

variable {rest list : Text}

/-- What follows a keyword is nothing or begins with white space. -/
theorem isBlank_head (h : Follows rest list) : ∀ c ∈ rest.head?, isBlank c = true := by
  cases h with
  | blank htrail => exact fun c hc => htrail c (List.mem_of_mem_head? hc)
  | list hgap hne =>
    rw [List.append_assoc, List.head?_append_of_ne_nil _ hne]
    exact fun c hc => hgap c (List.mem_of_mem_head? hc)

theorem not_mem (h : Follows rest list) : '\n' ∉ list := by
  cases h with
  | blank => exact List.not_mem_nil
  | list _ _ hlist => exact hlist

/-- Whatever part of it counts as the list, the same is left without the white space around it. -/
theorem trim_eq (h : Follows rest list) : trim rest = trim list := by
  cases h with
  | blank htrail => exact htrail.trim_eq
  | list hgap _ _ htrail => rw [htrail.trim_append_right, hgap.trim_append_left]

end Follows

theorem follows_trim {rest : Text} (hhead : ∀ c ∈ rest.head?, isBlank c = true) (hline : '\n' ∉ trim rest) :
    Follows rest (trim rest) := by
  obtain ⟨lead, trail, hlead, htrail, heq⟩ := exists_trim rest
  by_cases hnil : trim rest = []
  · rw [hnil, List.append_nil] at heq
    rw [hnil, heq]
    exact .blank (hlead.append htrail)
  · -- The list has no white space in front, so that what begins with some is not the list itself.
    have hne : lead ≠ [] := by
      rintro rfl
      obtain ⟨c, core, hcore⟩ := List.exists_cons_of_ne_nil hnil
      have hblank := hhead c (by rw [heq, hcore]; rfl)
      rw [(trimmed_trim rest).begins c (by rw [hcore]; rfl)] at hblank
      cases hblank
    have hfollows := Follows.list hlead hne hline htrail
    rwa [← heq] at hfollows

theorem namesAfter?_eq_some_iff {rest : Text} {ns : List Text} : namesAfter? rest = some ns ↔
    (∀ c ∈ rest.head?, isBlank c = true) ∧ '\n' ∉ trim rest ∧ names (trim rest) = ns := by
  cases rest with
  | nil => simp [namesAfter?, trim, names, commaPieces]
  | cons c rest =>
    simp only [namesAfter?, List.head?_cons, Option.mem_def, Option.some.injEq, forall_eq']
    split
    · next h =>
      rw [Bool.and_eq_true, Bool.not_eq_true', List.contains_eq_mem, decide_eq_false_iff_not] at h
      simp [h]
    · next h => simp_all

theorem exists_namesAfter?_iff {rest : Text} {ns : List Text} :
    namesAfter? rest = some ns ↔ ∃ list, Follows rest list ∧ Lists list ns := by
  rw [namesAfter?_eq_some_iff]
  constructor
  · rintro ⟨hhead, hline, hnames⟩
    exact ⟨trim rest, follows_trim hhead hline, lists_iff.2 hnames⟩
  · rintro ⟨list, hfollows, hlists⟩
    have hnames := lists_iff.1 hlists
    rw [← names_trim, ← hfollows.trim_eq] at hnames
    refine ⟨hfollows.isBlank_head, fun hmem => hfollows.not_mem ?_, hnames⟩
    rw [hfollows.trim_eq] at hmem
    exact mem_of_mem_trim hmem

theorem mem_keywords_iff {word : Text} {action : Action} :
    (word, action) ∈ keywords ↔ word = keyword action := by
  have hkeywords : keywords = [Action.disableNextLine, .disableLine, .disable, .enable].map
      fun action => (keyword action, action) := rfl
  rw [hkeywords, List.mem_map]
  constructor
  · rintro ⟨_, -, heq⟩
    obtain ⟨rfl, rfl⟩ := Prod.mk.inj heq
    rfl
  · rintro rfl
    exact ⟨action, by cases action <;> decide, rfl⟩

theorem isBlank_of_mem_keyword {action : Action} : ∀ c ∈ keyword action, isBlank c = false := by
  have hall : (keyword action).all (!isBlank ·) = true := by cases action <;> decide +kernel
  simpa using hall

theorem keyword_ne_nil {action : Action} : keyword action ≠ [] := by
  cases action <;> decide

theorem lookup_keyword (action : Action) : keywords.lookup (keyword action) = some action := by
  cases action <;> decide +kernel

theorem keyword_injective : Function.Injective keyword := fun a b h =>
  Option.some.inj ((lookup_keyword a).symm.trans (h ▸ lookup_keyword b))

/-- A keyword goes up to the first white space. -/
theorem takeWhile_keyword {action : Action} {rest : Text} (h : ∀ c ∈ rest.head?, isBlank c = true) :
    (keyword action ++ rest).takeWhile (!isBlank ·) = keyword action := by
  rw [List.takeWhile_append_of_pos fun c hc => by simp [isBlank_of_mem_keyword c hc]]
  cases rest with
  | nil => exact List.append_nil _
  | cons c rest => simp [h c rfl]

/-- No text begins with two keywords, each up to white space. -/
theorem keyword_append_inj {action action' : Action} {rest rest' : Text}
    (h : ∀ c ∈ rest.head?, isBlank c = true) (h' : ∀ c ∈ rest'.head?, isBlank c = true)
    (heq : keyword action ++ rest = keyword action' ++ rest') : action = action' ∧ rest = rest' := by
  have hwords := congrArg (List.takeWhile (!isBlank ·)) heq
  rw [takeWhile_keyword h, takeWhile_keyword h'] at hwords
  obtain rfl := keyword_injective hwords
  exact ⟨rfl, List.append_cancel_left heq⟩

theorem dropWhile_isBlank_keyword {action : Action} {lead rest : Text} (hlead : lead.Blank) :
    (lead ++ keyword action ++ rest).dropWhile isBlank = keyword action ++ rest := by
  rw [List.append_assoc, hlead.dropWhile_append]
  refine dropWhile_isBlank_of_head fun c hc => ?_
  rw [List.head?_append_of_ne_nil _ keyword_ne_nil] at hc
  exact isBlank_of_mem_keyword c (List.mem_of_mem_head? hc)

/-! ## Reading what is written -/

theorem listedAfter?_eq_some_iff {body word : Text} {action : Action} {d : Directive} :
    listedAfter? body (word, action) = some d ↔
      ∃ rest, body = word ++ rest ∧ action = d.action ∧ namesAfter? rest = some d.rules := by
  obtain ⟨action', rules⟩ := d
  simp only [listedAfter?, Option.bind_eq_bind, Option.bind_eq_some_iff, after?_eq_some_iff,
    Option.pure_def, Option.some.injEq, mk.injEq]
  refine exists_congr fun rest => and_congr_right' ?_
  constructor
  · rintro ⟨_, hnames, rfl, rfl⟩
    exact ⟨rfl, hnames⟩
  · rintro ⟨rfl, hnames⟩
    exact ⟨rules, hnames, rfl, rfl⟩

/-- A text is read with a keyword if it begins with that keyword, and then with no other one. -/
theorem findSome?_listedAfter?_eq_some_iff {body : Text} {d : Directive} :
    keywords.findSome? (listedAfter? body) = some d ↔
      ∃ rest, body = keyword d.action ++ rest ∧ namesAfter? rest = some d.rules := by
  constructor
  · intro h
    obtain ⟨⟨word, action⟩, hmem, hlisted⟩ := List.exists_of_findSome?_eq_some h
    obtain ⟨rest, hbody, rfl, hnames⟩ := listedAfter?_eq_some_iff.1 hlisted
    exact ⟨rest, by rw [hbody, mem_keywords_iff.1 hmem], hnames⟩
  · rintro ⟨rest, hbody, hnames⟩
    have hread : listedAfter? body (keyword d.action, d.action) = some d :=
      listedAfter?_eq_some_iff.2 ⟨rest, hbody, rfl, hnames⟩
    obtain ⟨d', hd'⟩ : ∃ d', keywords.findSome? (listedAfter? body) = some d' := by
      rw [← Option.isSome_iff_exists, List.findSome?_isSome_iff]
      exact ⟨_, mem_keywords_iff.2 rfl, by rw [hread]; rfl⟩
    obtain ⟨⟨word, action⟩, hmem, hlisted⟩ := List.exists_of_findSome?_eq_some hd'
    obtain ⟨rest', hbody', rfl, hnames'⟩ := listedAfter?_eq_some_iff.1 hlisted
    rw [mem_keywords_iff.1 hmem] at hbody'
    obtain ⟨haction, rfl⟩ := keyword_append_inj (namesAfter?_eq_some_iff.1 hnames).1
      (namesAfter?_eq_some_iff.1 hnames').1 (hbody.symm.trans hbody')
    obtain ⟨action, rules⟩ := d
    obtain ⟨action', rules'⟩ := d'
    obtain rfl : rules = rules' := Option.some.inj (hnames.symm.trans hnames')
    obtain rfl : action = action' := haction
    exact hd'

theorem body?_eq_some_iff {kind : TokenKind} {comment body : Text} :
    body? kind comment = some body ↔ Encloses kind comment body := by
  constructor
  · intro h
    cases kind with
    | lineComment =>
      rw [body?, after?_eq_some_iff] at h
      exact h ▸ .line body
    | blockComment =>
      obtain ⟨rest, hrest, hbody⟩ := Option.bind_eq_some_iff.1 h
      rw [after?_eq_some_iff] at hrest
      rw [before?_eq_some_iff] at hbody
      rw [hrest, hbody, ← List.append_assoc]
      exact .block body
    | _ => cases h
  · intro h
    cases h with
    | line => exact after?_eq_some_iff.2 rfl
    | block =>
      have hafter : after? ['/', '*'] ("/*".toList ++ body ++ "*/".toList) = some (body ++ "*/".toList) :=
        after?_eq_some_iff.2 (List.append_assoc _ _ _)
      have hbefore : before? ['*', '/'] (body ++ "*/".toList) = some body := before?_eq_some_iff.2 rfl
      rw [body?, hafter, Option.bind_eq_bind, Option.bind_some, hbefore]

theorem exists_spells_iff {body : Text} {d : Directive} :
    keywords.findSome? (listedAfter? (body.dropWhile isBlank)) = some d ↔
      ∃ list, Spells d.action body list ∧ Lists list d.rules := by
  rw [findSome?_listedAfter?_eq_some_iff]
  constructor
  · rintro ⟨rest, hbody, hnames⟩
    obtain ⟨list, hfollows, hlists⟩ := exists_namesAfter?_iff.1 hnames
    have hspells : Spells d.action (body.takeWhile isBlank ++ keyword d.action ++ rest) list :=
      .mk (blank_takeWhile body) hfollows
    rw [List.append_assoc, ← hbody, List.takeWhile_append_dropWhile] at hspells
    exact ⟨list, hspells, hlists⟩
  · rintro ⟨list, ⟨hlead, hfollows⟩, hlists⟩
    exact ⟨_, dropWhile_isBlank_keyword hlead, exists_namesAfter?_iff.2 ⟨list, hfollows, hlists⟩⟩

theorem listed?_eq_some_iff {kind : TokenKind} {comment : Text} {d : Directive} :
    listed? kind comment = some d ↔
      ∃ list, IsWritten kind comment d.action list ∧ Lists list d.rules := by
  rw [listed?]
  simp only [Option.bind_eq_bind, Option.bind_eq_some_iff, body?_eq_some_iff, exists_spells_iff,
    Option.ite_none_left_eq_some, Bool.and_eq_true, decide_eq_true_eq, Bool.not_eq_true', not_and,
    Bool.not_eq_false, Option.some.injEq]
  constructor
  · rintro ⟨body, hbody, d, ⟨list, hspells, hlists⟩, hline, rfl⟩
    exact ⟨list, ⟨⟨body, hbody, hspells⟩, hline⟩, hlists⟩
  · rintro ⟨list, ⟨⟨body, hbody, hspells⟩, hline⟩, hlists⟩
    exact ⟨body, hbody, d, ⟨list, hspells, hlists⟩, hline, rfl⟩

/-- A comment is a directive as it is written, however it is cut. -/
theorem ofComment?_eq_some_iff {kind : TokenKind} {comment : Text} {d : Directive} :
    ofComment? kind comment = some d ↔ ∃ list names, IsWritten kind comment d.action list ∧
      Lists list names ∧ d.rules = if names = [] then [everyRule] else names := by
  rw [ofComment?_eq, Option.map_eq_some_iff]
  simp only [listed?_eq_some_iff]
  constructor
  · rintro ⟨⟨action, names⟩, ⟨list, hwritten, hlists⟩, rfl⟩
    exact ⟨list, names, hwritten, hlists, by simp [filled]⟩
  · rintro ⟨list, names, hwritten, hlists, hrules⟩
    refine ⟨⟨d.action, names⟩, ⟨list, hwritten, hlists⟩, ?_⟩
    obtain ⟨action, rules⟩ := d
    simp_all [filled]

theorem exists_ofComment?_iff {kind : TokenKind} {comment : Text} :
    (∃ d, ofComment? kind comment = some d) ↔ ∃ action list, IsWritten kind comment action list := by
  simp only [ofComment?_eq_some_iff]
  constructor
  · rintro ⟨d, list, -, hwritten, -⟩
    exact ⟨d.action, list, hwritten⟩
  · rintro ⟨action, list, hwritten⟩
    exact ⟨⟨action, _⟩, list, names list, hwritten, lists_iff.2 rfl, rfl⟩

/-! ## Writing a list of names -/

/-- A name that can be written in a list. -/
structure IsName (name : Text) : Prop where
  ne_nil : name ≠ []
  one_piece : ',' ∉ name
  one_line : '\n' ∉ name
  trimmed : name.Trimmed

/-- Names with commas between them, and with white space around these that does not end the line. -/
inductive Joins : List Text → Text → Prop
  | last (name : Text) : Joins [name] name
  | cons (name : Text) {names : List Text} {before after list : Text} (hbefore : before.Blank)
    (hbefore' : '\n' ∉ before) (hafter : after.Blank) (hafter' : '\n' ∉ after) (hlist : Joins names list) :
    Joins (name :: names) (name ++ before ++ ',' :: (after ++ list))

namespace Joins

variable {ns : List Text} {list : Text}

theorem ne_nil (h : Joins ns list) : ns ≠ [] := by
  cases h <;> exact List.cons_ne_nil _ _

theorem one_line (h : Joins ns list) (hnames : ∀ name ∈ ns, IsName name) : '\n' ∉ list := by
  induction h with
  | last name => exact (hnames name (List.mem_singleton_self name)).one_line
  | cons name _ hbefore' _ hafter' _ ih =>
    have hname := (hnames name List.mem_cons_self).one_line
    have hlater := ih fun other hother => hnames other (List.mem_cons_of_mem name hother)
    simp [hname, hbefore', hafter', hlater]

/-- The white space around a comma goes to the pieces on its two sides. -/
theorem names_eq (h : Joins ns list) (hnames : ∀ name ∈ ns, IsName name) : names list = ns := by
  have hcomma : isBlank ',' = false := by decide
  induction h with
  | last name =>
    have hname := hnames name (List.mem_singleton_self name)
    have hne : name.isEmpty = false := by simpa using hname.ne_nil
    rw [names, commaPieces_of_not_mem hname.one_piece, List.map_singleton, hname.trimmed.trim_eq]
    simp [hne]
  | @cons name ns before after list hbefore _ hafter _ _ ih =>
    have hname := hnames name List.mem_cons_self
    have hne : name.isEmpty = false := by simpa using hname.ne_nil
    have hpiece : ',' ∉ name ++ before := by simp [hname.one_piece, hbefore.not_mem hcomma]
    have hlater : names (after ++ list) = ns := by
      have hsurrounded := names_surrounded hafter blank_nil list
      rw [List.append_nil] at hsurrounded
      rw [hsurrounded]
      exact ih fun other hother => hnames other (List.mem_cons_of_mem name hother)
    rw [names] at hlater ⊢
    rw [commaPieces_append_comma hpiece, List.map_cons, hbefore.trim_append_right, hname.trimmed.trim_eq,
      List.filter_cons, hlater]
    simp [hne]

end Joins

end Directive

end Indentation
