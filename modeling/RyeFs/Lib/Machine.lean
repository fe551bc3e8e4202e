import Mathlib.Data.List.Basic

namespace machines

variable {σ τ Op Out : Type}

/-- A component that is called with one operation after the other. A step without a
result is one that the component does not allow, or does not survive. -/
structure Machine (σ Op Out : Type) where
  step : σ → Op → Option (σ × Out)

/-- All calls of a client, in their order, with the outputs. -/
def Machine.run (m : Machine σ Op Out) (s : σ) : List Op → Option (σ × List Out)
  | [] => some (s, [])
  | op :: ops => do
    let (s, out) ← m.step s op
    let (s, outs) ← m.run s ops
    return (s, out :: outs)

theorem Machine.run_cons_eq_some {m : Machine σ Op Out} {s s' : σ} {op : Op} {ops : List Op}
    {outs : List Out} :
    m.run s (op :: ops) = some (s', outs) ↔ ∃ next out rest, m.step s op = some (next, out) ∧
      m.run next ops = some (s', rest) ∧ outs = out :: rest := by
  simp only [run, Option.bind_eq_bind, Option.bind_eq_some_iff, Option.pure_def, Option.some.injEq,
    Prod.mk.injEq, Prod.exists]
  constructor
  · rintro ⟨next, out, hstep, _, rest, hrun, rfl, rfl⟩
    exact ⟨next, out, rest, hstep, hrun, rfl⟩
  · rintro ⟨next, out, rest, hstep, hrun, rfl⟩
    exact ⟨next, out, hstep, s', rest, hrun, rfl, rfl⟩

/-- What every step preserves, a run preserves. -/
theorem Machine.run_invariant {m : Machine σ Op Out} {P : σ → Prop}
    (hstep : ∀ s op s' out, m.step s op = some (s', out) → P s → P s') {s s' : σ} {ops : List Op}
    {outs : List Out} (hrun : m.run s ops = some (s', outs)) (hs : P s) : P s' := by
  induction ops generalizing s outs with
  | nil =>
    obtain ⟨rfl, _⟩ := Prod.mk.inj (Option.some.inj hrun)
    exact hs
  | cons op ops ih =>
    obtain ⟨next, out, rest, hnext, hrest, _⟩ := Machine.run_cons_eq_some.mp hrun
    exact ih hrest (hstep s op next out hnext hs)

/-- A forward simulation: the implementation takes every step that the specification
takes, with the same output, and stays related to it. -/
def Refines (R : σ → τ → Prop) (impl : Machine σ Op Out) (spec : Machine τ Op Out) : Prop :=
  ∀ s t, R s t → ∀ op t' out, spec.step t op = some (t', out) →
    ∃ s', impl.step s op = some (s', out) ∧ R s' t'

/-- What holds of one step holds of a whole run. -/
theorem Refines.run {R : σ → τ → Prop} {impl : Machine σ Op Out} {spec : Machine τ Op Out}
    (h : Refines R impl spec) {s : σ} {t t' : τ} {ops : List Op} {outs : List Out} (hs : R s t)
    (hrun : spec.run t ops = some (t', outs)) :
    ∃ s', impl.run s ops = some (s', outs) ∧ R s' t' := by
  induction ops generalizing s t outs with
  | nil =>
    obtain ⟨rfl, rfl⟩ := Prod.mk.inj (Option.some.inj hrun)
    exact ⟨s, rfl, hs⟩
  | cons op ops ih =>
    obtain ⟨next, out, rest, hstep, hrest, rfl⟩ := Machine.run_cons_eq_some.mp hrun
    obtain ⟨mid, himpl, hmid⟩ := h s t hs op next out hstep
    obtain ⟨s', hs', hrel⟩ := ih hmid hrest
    exact ⟨s', Machine.run_cons_eq_some.mpr ⟨mid, out, rest, himpl, hs', rfl⟩, hrel⟩

end machines
