import Mathlib.Data.List.Basic

namespace verdicts

variable {ε : Type} {ok : ε} {order : List ε} {Bad Bad' : ε → Prop}

open Classical in
/-- The answer of an ordered list of refusals: the first code whose condition is
met, or `ok` when none is. -/
noncomputable def verdict (ok : ε) (order : List ε) (Bad : ε → Prop) : ε :=
  (order.find? fun c => decide (Bad c)).getD ok

@[simp] theorem verdict_nil : verdict ok [] Bad = ok := rfl

/-- A run of checks with early return gives the verdict check by check, whatever
test decides the condition. -/
theorem verdict_cons {c : ε} {p : Prop} [Decidable p] (hp : p ↔ Bad c) :
    verdict ok (c :: order) Bad = if p then c else verdict ok order Bad := by
  unfold verdict
  by_cases h : p
  · simp [h, hp.mp h]
  · have hbad : ¬ Bad c := fun hbad => h (hp.mpr hbad)
    simp [h, hbad]

theorem verdict_eq_or_mem :
    verdict ok order Bad = ok ∨ verdict ok order Bad ∈ order ∧ Bad (verdict ok order Bad) := by
  classical
  unfold verdict
  cases hfind : order.find? fun c => decide (Bad c) with
  | none => exact Or.inl rfl
  | some c =>
    have hbad := List.find?_some hfind
    exact Or.inr ⟨List.mem_of_find?_eq_some hfind, by simpa using hbad⟩

theorem verdict_eq_ok_iff (hok : ok ∉ order) :
    verdict ok order Bad = ok ↔ ∀ c ∈ order, ¬ Bad c := by
  classical
  unfold verdict
  cases hfind : order.find? fun c => decide (Bad c) with
  | none => simpa using hfind
  | some c =>
    have hmem := List.mem_of_find?_eq_some hfind
    have hbad := List.find?_some hfind
    constructor
    · intro heq
      have hc : c = ok := heq
      exact absurd (hc ▸ hmem) hok
    · intro hnone
      exact absurd (by simpa using hbad) (hnone c hmem)

/-- A refusal is justified, and no refusal earlier in the order is. -/
theorem verdict_first (hne : verdict ok order Bad ≠ ok) :
    ∃ before after, order = before ++ verdict ok order Bad :: after ∧
      Bad (verdict ok order Bad) ∧ ∀ c ∈ before, ¬ Bad c := by
  classical
  unfold verdict at hne ⊢
  cases hfind : order.find? fun c => decide (Bad c) with
  | none => simp [hfind] at hne
  | some c =>
    obtain ⟨hbad, before, after, horder, hbefore⟩ := List.find?_eq_some_iff_append.mp hfind
    exact ⟨before, after, horder, by simpa using hbad, by simpa using hbefore⟩

theorem verdict_congr (h : ∀ c ∈ order, Bad c ↔ Bad' c) :
    verdict ok order Bad = verdict ok order Bad' := by
  classical
  induction order with
  | nil => rfl
  | cons c rest ih =>
    have hc : Bad' c ↔ Bad c := (h c (by simp)).symm
    rw [verdict_cons hc, verdict_cons (Iff.rfl : Bad' c ↔ Bad' c),
      ih fun d hd => h d (by simp [hd])]

open Classical in
/-- Where one condition at most is met, it alone decides. -/
theorem verdict_of_forall_ne {c : ε} (hok : ok ∉ order) (hc : c ∈ order)
    (h : ∀ d ∈ order, d ≠ c → ¬ Bad d) :
    verdict ok order Bad = if Bad c then c else ok := by
  by_cases hbad : Bad c
  · rw [if_pos hbad]
    have hanswer : verdict ok order Bad = ok ∨
        verdict ok order Bad ∈ order ∧ Bad (verdict ok order Bad) := verdict_eq_or_mem
    cases hanswer with
    | inl heq => exact absurd hbad ((verdict_eq_ok_iff hok).mp heq c hc)
    | inr hrefused =>
      by_contra hne
      exact h _ hrefused.1 hne hrefused.2
  · rw [if_neg hbad, verdict_eq_ok_iff hok]
    intro d hd
    by_cases heq : d = c
    · exact heq ▸ hbad
    · exact h d hd heq

/-- Checks run in two stages: the second stage speaks only when the first is
content. -/
theorem verdict_append [DecidableEq ε] {later : List ε} (hok : ok ∉ order) :
    verdict ok (order ++ later) Bad =
      if verdict ok order Bad = ok then verdict ok later Bad else verdict ok order Bad := by
  classical
  induction order with
  | nil => simp
  | cons c rest ih =>
    have hc : c ≠ ok := fun heq => hok (by simp [heq])
    rw [List.cons_append, verdict_cons (Iff.rfl : Bad c ↔ Bad c),
      verdict_cons (Iff.rfl : Bad c ↔ Bad c)]
    by_cases hbad : Bad c
    · simp [hbad, hc]
    · simpa [hbad] using ih fun hmem => hok (by simp [hmem])

/-- A code of the second stage is evidence that the first stage was content. -/
theorem not_bad_of_verdict_append_notMem [DecidableEq ε] {later : List ε} (hok : ok ∉ order)
    (hlater : verdict ok (order ++ later) Bad ∉ order) : ∀ c ∈ order, ¬ Bad c := by
  rw [← verdict_eq_ok_iff hok]
  rw [verdict_append hok] at hlater
  by_contra hfirst
  rw [if_neg hfirst] at hlater
  rcases verdict_eq_or_mem with heq | ⟨hmem, _⟩
  · exact hfirst heq
  · exact hlater hmem

/-- Conditions that differ at most on the last check give the same verdict, or
`ok` on one side and that last check on the side where it is met. -/
theorem verdict_append_singleton_congr {c : ε} (hok : ok ∉ order)
    (h : ∀ d ∈ order, Bad d ↔ Bad' d) :
    verdict ok (order ++ [c]) Bad = verdict ok (order ++ [c]) Bad' ∨
      (verdict ok (order ++ [c]) Bad = ok ∧ verdict ok (order ++ [c]) Bad' = c ∧ Bad' c) ∨
      (verdict ok (order ++ [c]) Bad' = ok ∧ verdict ok (order ++ [c]) Bad = c ∧ Bad c) := by
  classical
  rw [verdict_append hok, verdict_append hok, verdict_congr h,
    verdict_cons (Iff.rfl : Bad c ↔ Bad c), verdict_cons (Iff.rfl : Bad' c ↔ Bad' c)]
  by_cases hfirst : verdict ok order Bad' = ok
  · by_cases hbad : Bad c <;> by_cases hbad' : Bad' c <;> simp [hfirst, hbad, hbad']
  · simp [hfirst]

end verdicts
