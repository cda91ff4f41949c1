import Indentation.Proofs.Text.Search
import Indentation.Token.Stream
import Mathlib.Tactic.ByContra

/-!
# Tokens in order

In a stream whose tokens stand one after the other, each search by halves and each scan finds the
first or the last token with the property that is asked for.
-/

namespace Indentation.TokenStream

/-- Tokens have characters and stand one after the other. -/
structure Ordered (s : TokenStream) : Prop where
  start_lt_stop : ∀ i < s.size, (s.token i).start < (s.token i).stop
  stop_le_start : ∀ i j, i < j → j < s.size → (s.token i).stop ≤ (s.token j).start

/-- A token that is no comment and lies wholly in a range. -/
structure CodeIn (s : TokenStream) (r : Range) (i : Nat) : Prop where
  lt_size : i < s.size
  code : s.isComment i = false
  start_le : r.start ≤ (s.token i).start
  le_stop : (s.token i).stop ≤ r.stop

namespace Ordered

variable {s : TokenStream} (h : s.Ordered)
include h

theorem start_lt_start {i j : Nat} (hij : i < j) (hj : j < s.size) :
    (s.token i).start < (s.token j).start :=
  Nat.lt_of_lt_of_le (h.start_lt_stop i (by omega)) (h.stop_le_start i j hij hj)

theorem stop_lt_stop {i j : Nat} (hij : i < j) (hj : j < s.size) :
    (s.token i).stop < (s.token j).stop :=
  Nat.lt_of_le_of_lt (h.stop_le_start i j hij hj) (h.start_lt_stop j hj)

theorem start_le_start {i j : Nat} (hij : i ≤ j) (hj : j < s.size) :
    (s.token i).start ≤ (s.token j).start := by
  rcases Nat.eq_or_lt_of_le hij with rfl | hij
  · exact Nat.le_refl _
  · exact Nat.le_of_lt (h.start_lt_start hij hj)

theorem stop_le_stop {i j : Nat} (hij : i ≤ j) (hj : j < s.size) :
    (s.token i).stop ≤ (s.token j).stop := by
  rcases Nat.eq_or_lt_of_le hij with rfl | hij
  · exact Nat.le_refl _
  · exact Nat.le_of_lt (h.stop_lt_stop hij hj)

/-- Tokens are numbered by where they start. -/
theorem lt_of_start_lt {i j : Nat} (hi : i < s.size)
    (hlt : (s.token i).start < (s.token j).start) : i < j := by
  by_contra hge
  have := h.start_le_start (Nat.le_of_not_lt hge) hi
  omega

theorem eq_of_start_eq {i j : Nat} (hi : i < s.size) (hj : j < s.size)
    (heq : (s.token i).start = (s.token j).start) : i = j := by
  rcases Nat.lt_trichotomy i j with hlt | hlt | hlt
  · have := h.start_lt_start hlt hj
    omega
  · exact hlt
  · have := h.start_lt_start hlt hi
    omega

theorem prefixed_start_lt (p : Nat) :
    Search.Prefixed (fun i => (s.token i).start < p) s.size := by
  intro i j hij hj hlt
  have := h.start_le_start hij hj
  simp only [decide_eq_true_eq] at *
  omega

theorem prefixed_start_le (p : Nat) :
    Search.Prefixed (fun i => (s.token i).start ≤ p) s.size := by
  intro i j hij hj hle
  have := h.start_le_start hij hj
  simp only [decide_eq_true_eq] at *
  omega

theorem prefixed_stop_le (p : Nat) :
    Search.Prefixed (fun i => (s.token i).stop ≤ p) s.size := by
  intro i j hij hj hle
  have := h.stop_le_stop hij hj
  simp only [decide_eq_true_eq] at *
  omega

end Ordered

/-! ## Tokens of a range -/

theorem codeFrom?_some {s : TokenStream} {limit id i : Nat} (hf : s.codeFrom? limit id = some i) :
    id ≤ i ∧ i < s.size ∧ s.isComment i = false ∧ (s.token i).stop ≤ limit ∧
      ∀ j, id ≤ j → j < i → s.isComment j = true := by
  fun_induction codeFrom? s limit id with
  | case1 id hid hlim => cases hf
  | case2 id hid hlim hc ih =>
    obtain ⟨h₁, h₂, h₃, h₄, h₅⟩ := ih hf
    refine ⟨by omega, h₂, h₃, h₄, fun j hj hji => ?_⟩
    rcases Nat.eq_or_lt_of_le hj with rfl | hj
    · exact hc
    · exact h₅ j hj hji
  | case3 id hid hlim hc =>
    obtain rfl : id = i := by simpa using hf
    exact ⟨Nat.le_refl _, hid, by simpa using hc, by omega, fun j hj hji => by omega⟩
  | case4 id hid => cases hf

theorem codeFrom?_none {s : TokenStream} (h : s.Ordered) {limit id : Nat}
    (hf : s.codeFrom? limit id = none) {i : Nat} (hi : id ≤ i) (his : i < s.size)
    (hc : s.isComment i = false) : limit < (s.token i).stop := by
  fun_induction codeFrom? s limit id with
  | case1 id hid hlim =>
    have := h.stop_le_stop hi his
    omega
  | case2 id hid hlim hcom ih =>
    rcases Nat.eq_or_lt_of_le hi with rfl | hi
    · rw [hcom] at hc
      cases hc
    · exact ih hf hi
  | case3 id hid hlim hcom => cases hf
  | case4 id hid => omega

theorem codeBefore?_some {s : TokenStream} {limit id i : Nat} (hf : s.codeBefore? limit id = some i) :
    i < id ∧ s.isComment i = false ∧ limit ≤ (s.token i).start ∧
      ∀ j, i < j → j < id → s.isComment j = true := by
  induction id with
  | zero => cases hf
  | succ id ih =>
    rw [codeBefore?] at hf
    split at hf
    · cases hf
    · next hlim =>
      split at hf
      · next hc =>
        obtain ⟨h₁, h₂, h₃, h₄⟩ := ih hf
        refine ⟨by omega, h₂, h₃, fun j hij hj => ?_⟩
        rcases Nat.lt_succ_iff_lt_or_eq.1 hj with hj | rfl
        · exact h₄ j hij hj
        · exact hc
      · next hc =>
        obtain rfl : id = i := by simpa using hf
        exact ⟨Nat.lt_succ_self _, by simpa using hc, by omega, fun j hij hj => by omega⟩

theorem codeBefore?_none {s : TokenStream} (h : s.Ordered) {limit id : Nat} (hid : id ≤ s.size)
    (hf : s.codeBefore? limit id = none) {i : Nat} (hi : i < id)
    (hc : s.isComment i = false) : (s.token i).start < limit := by
  induction id with
  | zero => omega
  | succ id ih =>
    rw [codeBefore?] at hf
    split at hf
    · next hlim =>
      have := h.start_le_start (Nat.le_of_lt_succ hi) hid
      omega
    · split at hf
      · next hcom =>
        rcases Nat.lt_succ_iff_lt_or_eq.1 hi with hi | rfl
        · exact ih (by omega) hf hi
        · rw [hcom] at hc
          cases hc
      · cases hf

variable {s : TokenStream}

/-- The first token of a range that is no comment is the least of them. -/
theorem firstCodeIn?_eq_some_iff (h : s.Ordered) {r : Range} {i : Nat} :
    s.firstCodeIn? r = some i ↔ s.CodeIn r i ∧ ∀ j, s.CodeIn r j → i ≤ j := by
  have hpart : ∀ j < s.size, Search.partitionPoint (fun i => (s.token i).start < r.start) s.size ≤ j ↔
      r.start ≤ (s.token j).start := fun j hj => by
    have := Search.lt_partitionPoint_iff (h.prefixed_start_lt r.start) hj
    simp only [decide_eq_true_eq] at this
    omega
  have hsome : ∀ i, s.firstCodeIn? r = some i → s.CodeIn r i ∧ ∀ j, s.CodeIn r j → i ≤ j := by
    intro i hf
    obtain ⟨h₁, h₂, h₃, h₄, h₅⟩ := codeFrom?_some hf
    refine ⟨⟨h₂, h₃, (hpart i h₂).1 h₁, h₄⟩, fun j hj => ?_⟩
    by_contra hlt
    have := h₅ j ((hpart j hj.lt_size).2 hj.start_le) (by omega)
    rw [hj.code] at this
    cases this
  refine ⟨hsome i, fun ⟨hi, hmin⟩ => ?_⟩
  cases hf : s.firstCodeIn? r with
  | none =>
    have := codeFrom?_none h hf ((hpart i hi.lt_size).2 hi.start_le) hi.lt_size hi.code
    have := hi.le_stop
    omega
  | some k =>
    obtain ⟨hk, hkmin⟩ := hsome k hf
    rw [Nat.le_antisymm (hkmin i hi) (hmin k hk)]

theorem firstCodeIn?_isSome (h : s.Ordered) {r : Range} {i : Nat} (hi : s.CodeIn r i) :
    ∃ f, s.firstCodeIn? r = some f ∧ f ≤ i := by
  cases hf : s.firstCodeIn? r with
  | none =>
    have hpart := Search.lt_partitionPoint_iff (h.prefixed_start_lt r.start) hi.lt_size
    simp only [decide_eq_true_eq] at hpart
    have := hi.start_le
    have := codeFrom?_none h hf (by omega) hi.lt_size hi.code
    have := hi.le_stop
    omega
  | some k => exact ⟨k, rfl, ((firstCodeIn?_eq_some_iff h).1 hf).2 i hi⟩

/-- The last token of a range that is no comment is the greatest of them. -/
theorem lastCodeIn?_eq_some_iff (h : s.Ordered) {r : Range} {i : Nat} :
    s.lastCodeIn? r = some i ↔ s.CodeIn r i ∧ ∀ j, s.CodeIn r j → j ≤ i := by
  have hle := Search.partitionPoint_le _ (h.prefixed_stop_le r.stop)
  have hpart : ∀ j < s.size, j < Search.partitionPoint (fun i => (s.token i).stop ≤ r.stop) s.size ↔
      (s.token j).stop ≤ r.stop := fun j hj => by
    simpa using Search.lt_partitionPoint_iff (h.prefixed_stop_le r.stop) hj
  have hsome : ∀ i, s.lastCodeIn? r = some i → s.CodeIn r i ∧ ∀ j, s.CodeIn r j → j ≤ i := by
    intro i hf
    obtain ⟨h₁, h₂, h₃, h₄⟩ := codeBefore?_some hf
    have his : i < s.size := by omega
    refine ⟨⟨his, h₂, h₃, (hpart i his).1 h₁⟩, fun j hj => ?_⟩
    by_contra hlt
    have := h₄ j (by omega) ((hpart j hj.lt_size).2 hj.le_stop)
    rw [hj.code] at this
    cases this
  refine ⟨hsome i, fun ⟨hi, hmax⟩ => ?_⟩
  cases hf : s.lastCodeIn? r with
  | none =>
    have := codeBefore?_none h hle hf ((hpart i hi.lt_size).2 hi.le_stop) hi.code
    have := hi.start_le
    omega
  | some k =>
    obtain ⟨hk, hkmax⟩ := hsome k hf
    rw [Nat.le_antisymm (hmax k hk) (hkmax i hi)]

theorem lastCodeIn?_isSome (h : s.Ordered) {r : Range} {i : Nat} (hi : s.CodeIn r i) :
    ∃ l, s.lastCodeIn? r = some l ∧ i ≤ l := by
  cases hf : s.lastCodeIn? r with
  | none =>
    have hle := Search.partitionPoint_le _ (h.prefixed_stop_le r.stop)
    have hpart := Search.lt_partitionPoint_iff (h.prefixed_stop_le r.stop) hi.lt_size
    simp only [decide_eq_true_eq] at hpart
    have := codeBefore?_none h hle hf (hpart.2 hi.le_stop) hi.code
    have := hi.start_le
    omega
  | some k => exact ⟨k, rfl, ((lastCodeIn?_eq_some_iff h).1 hf).2 i hi⟩

/-- The ends of a span are the first and the last token of a range. -/
theorem spanOf?_eq_some_iff {r : Range} {span : Span} :
    s.spanOf? r = some span ↔
      s.firstCodeIn? r = some span.first ∧ s.lastCodeIn? r = some span.last ∧
        span.first ≤ span.last := by
  obtain ⟨first, last⟩ := span
  simp only [spanOf?, Option.bind_eq_bind, Option.bind_eq_some_iff]
  constructor
  · rintro ⟨f, hf, l, hl, h⟩
    split at h
    · next hle =>
      simp only [Option.some.injEq, Span.mk.injEq] at h
      obtain ⟨rfl, rfl⟩ := h
      exact ⟨hf, hl, hle⟩
    · cases h
  · rintro ⟨hf, hl, hle⟩
    exact ⟨first, hf, last, hl, if_pos hle⟩

/-! ## Tokens around a token -/

theorem prevCode?_some {i j : Nat} (hf : s.prevCode? i = some j) :
    j < i ∧ s.isComment j = false ∧ ∀ k, j < k → k < i → s.isComment k = true := by
  induction i with
  | zero => cases hf
  | succ i ih =>
    rw [prevCode?] at hf
    split at hf
    · next hc =>
      obtain ⟨h₁, h₂, h₃⟩ := ih hf
      refine ⟨by omega, h₂, fun k hjk hk => ?_⟩
      rcases Nat.lt_succ_iff_lt_or_eq.1 hk with hk | rfl
      · exact h₃ k hjk hk
      · exact hc
    · next hc =>
      obtain rfl : i = j := by simpa using hf
      exact ⟨Nat.lt_succ_self _, by simpa using hc, fun k hjk hk => by omega⟩

theorem nextCodeFrom?_some {i j : Nat} (hf : s.nextCodeFrom? i = some j) :
    i ≤ j ∧ j < s.size ∧ s.isComment j = false ∧ ∀ k, i ≤ k → k < j → s.isComment k = true := by
  fun_induction nextCodeFrom? s i with
  | case1 id hid hc ih =>
    obtain ⟨h₁, h₂, h₃, h₄⟩ := ih hf
    refine ⟨by omega, h₂, h₃, fun k hk hkj => ?_⟩
    rcases Nat.eq_or_lt_of_le hk with rfl | hk
    · exact hc
    · exact h₄ k hk hkj
  | case2 id hid hc =>
    obtain rfl : id = j := by simpa using hf
    exact ⟨Nat.le_refl _, hid, by simpa using hc, fun k hk hkj => by omega⟩
  | case3 id hid => cases hf

theorem nextCode?_some {i j : Nat} (hf : s.nextCode? i = some j) :
    i < j ∧ j < s.size ∧ s.isComment j = false ∧ ∀ k, i < k → k < j → s.isComment k = true :=
  nextCodeFrom?_some hf

/-- The search for a token of a program does not end before one. -/
theorem exists_nextCodeFrom? {i k : Nat} (hik : i ≤ k) (hk : k < s.size)
    (hcode : s.isComment k = false) : ∃ j, s.nextCodeFrom? i = some j := by
  fun_induction nextCodeFrom? s i with
  | case1 i hi hc ih =>
    have hne : i ≠ k := by
      rintro rfl
      rw [hcode] at hc
      cases hc
    exact ih (by omega)
  | case2 i hi hc => exact ⟨i, rfl⟩
  | case3 i hi => omega

/-- The next token of a program after `i` is at most any that comes after `i`. -/
theorem nextCode?_le {i j k : Nat} (hf : s.nextCode? i = some j) (hik : i < k)
    (hk : s.isComment k = false) : j ≤ k := by
  by_contra hlt
  have := (nextCode?_some hf).2.2.2 k hik (by omega)
  rw [hk] at this
  cases this

/-- The token of a program before `i` is at least any that comes before `i`. -/
theorem le_prevCode? {i j k : Nat} (hf : s.prevCode? i = some j) (hki : k < i)
    (hk : s.isComment k = false) : k ≤ j := by
  by_contra hlt
  have := (prevCode?_some hf).2.2 k (by omega) hki
  rw [hk] at this
  cases this

theorem startingAt?_eq_some_iff (h : s.Ordered) {p i : Nat} :
    s.startingAt? p = some i ↔ i < s.size ∧ (s.token i).start = p := by
  by_cases hs : s.size = 0
  · rw [startingAt?, if_pos hs]
    exact ⟨nofun, fun hi => by omega⟩
  · have hspec := @Search.narrow_spec (fun i => (s.token i).start ≤ p) 0 s.size
      (Nat.pos_of_ne_zero hs) ((Nat.zero_add s.size).symm ▸ h.prefixed_start_le p)
    rw [Nat.zero_add] at hspec
    obtain ⟨-, hlt, hor, hbehind⟩ := hspec
    rw [startingAt?, if_neg hs]
    simp only
    split
    · next heq =>
      rw [Option.some.injEq]
      constructor
      · rintro rfl
        exact ⟨hlt, heq⟩
      · rintro ⟨hi, hp⟩
        exact h.eq_of_start_eq hlt hi (heq.trans hp.symm)
    · next hne =>
      refine ⟨nofun, fun ⟨hi, hp⟩ => absurd ?_ hne⟩
      rcases Nat.lt_trichotomy (Search.narrow (fun i => (s.token i).start ≤ p) 0 s.size) i with
        hgt | heq | hgt
      · have := hbehind i hgt hi
        simp only [decide_eq_false_iff_not] at this
        omega
      · rw [heq, hp]
      · rcases hor with hor | hor
        · omega
        · have := h.start_lt_start hgt hlt
          simp only [decide_eq_true_eq] at hor
          omega

end Indentation.TokenStream
