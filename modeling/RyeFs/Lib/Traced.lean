import Mathlib.Algebra.Ring.Nat

namespace traced

/-- An unsigned operation that a run evaluates, with its operands. -/
inductive Op (α : Type) where
  | add (x y : α)
  | sub (x y : α)
  deriving DecidableEq, Repr

/-- A computation over the numbers `α`: the value it returns, and the additions
and subtractions it evaluates on the way, in order. -/
structure Traced (α β : Type) where
  value : β
  ops : List (Op α)

instance {α : Type} : Monad (Traced α) where
  pure v := ⟨v, []⟩
  bind x f := ⟨(f x.value).value, x.ops ++ (f x.value).ops⟩

section Operations

variable {α β γ : Type}

def add [Add α] (x y : α) : Traced α α := ⟨x + y, [.add x y]⟩

def sub [Sub α] (x y : α) : Traced α α := ⟨x - y, [.sub x y]⟩

@[simp] theorem value_pure (v : β) : (pure v : Traced α β).value = v := rfl

@[simp] theorem ops_pure (v : β) : (pure v : Traced α β).ops = [] := rfl

@[simp] theorem value_bind (x : Traced α β) (f : β → Traced α γ) :
    (x >>= f).value = (f x.value).value := rfl

@[simp] theorem ops_bind (x : Traced α β) (f : β → Traced α γ) :
    (x >>= f).ops = x.ops ++ (f x.value).ops := rfl

@[simp] theorem value_add [Add α] (x y : α) : (add x y).value = x + y := rfl

@[simp] theorem ops_add [Add α] (x y : α) : (add x y).ops = [.add x y] := rfl

@[simp] theorem value_sub [Sub α] (x y : α) : (sub x y).value = x - y := rfl

@[simp] theorem ops_sub [Sub α] (x y : α) : (sub x y).ops = [.sub x y] := rfl

@[simp] theorem value_ite (c : Prop) [Decidable c] (x y : Traced α β) :
    (if c then x else y).value = if c then x.value else y.value := apply_ite Traced.value c x y

/-- The short-circuiting search returns what the plain search returns. -/
@[simp] theorem value_anyM (p : β → Traced α Bool) (l : List β) :
    (l.anyM p).value = l.any fun x => (p x).value := by
  induction l with
  | nil => rfl
  | cons x rest ih =>
    simp only [List.anyM, value_bind, List.any_cons]
    cases (p x).value with
    | false => simpa using ih
    | true => rfl

/-- Every operation that the run evaluates satisfies `P`. -/
def Each (P : Op α → Prop) (x : Traced α β) : Prop := ∀ op ∈ x.ops, P op

variable {P : Op α → Prop}

theorem Each.mono {Q : Op α → Prop} {x : Traced α β} (h : Each P x) (himp : ∀ op, P op → Q op) :
    Each Q x :=
  fun op hop => himp op (h op hop)

theorem Each.pure (v : β) : Each P (Pure.pure v : Traced α β) := by
  intro op hop
  rw [ops_pure] at hop
  exact absurd hop List.not_mem_nil

theorem each_bind {x : Traced α β} {f : β → Traced α γ} :
    Each P (x >>= f) ↔ Each P x ∧ Each P (f x.value) := by
  unfold Each
  rw [ops_bind]
  exact List.forall_mem_append

/-- The branch that is taken may rely on its condition. -/
theorem Each.ite {c : Prop} [Decidable c] {x y : Traced α β} (hpos : c → Each P x)
    (hneg : ¬ c → Each P y) : Each P (if c then x else y) := by
  by_cases hc : c
  · rw [if_pos hc]
    exact hpos hc
  · rw [if_neg hc]
    exact hneg hc

/-- A search evaluates operations of the tests of its elements only. -/
theorem Each.anyM {p : β → Traced α Bool} {l : List β} (h : ∀ x ∈ l, Each P (p x)) :
    Each P (l.anyM p) := by
  induction l with
  | nil => exact Each.pure false
  | cons x rest ih =>
    refine each_bind.mpr ⟨h x (by simp), ?_⟩
    cases (p x).value with
    | false => exact ih fun y hy => h y (by simp [hy])
    | true => exact Each.pure true

end Operations

section Exactness

variable {α β γ δ ε : Type} [Add α] [Sub α] {toNat : α → Nat}

/-- The machine result of the operation is its result on unbounded naturals. -/
def Op.Exact (toNat : α → Nat) : Op α → Prop
  | .add x y => toNat (x + y) = toNat x + toNat y
  | .sub x y => toNat (x - y) + toNat y = toNat x

/-- No operation that the run evaluates wraps around. -/
def Exact (toNat : α → Nat) (x : Traced α β) : Prop := Each (Op.Exact toNat) x

/-- A machine run simulates a run on naturals: unless one of its own operations
wraps around, the two return related values. -/
def Simulates (toNat : α → Nat) (R : β → γ → Prop) (x : Traced α β) (y : Traced Nat γ) : Prop :=
  Exact toNat x → R x.value y.value

theorem Simulates.pure {R : β → γ → Prop} {v : β} {w : γ} (h : R v w) :
    Simulates toNat R (Pure.pure v : Traced α β) (Pure.pure w) :=
  fun _ => h

theorem Simulates.bind {R : β → γ → Prop} {S : δ → ε → Prop} {x : Traced α β} {y : Traced Nat γ}
    {f : β → Traced α δ} {g : γ → Traced Nat ε} (hx : Simulates toNat R x y)
    (hf : ∀ v w, R v w → Simulates toNat S (f v) (g w)) :
    Simulates toNat S (x >>= f) (y >>= g) := by
  intro hexact
  obtain ⟨hfirst, hrest⟩ := each_bind.mp hexact
  exact hf _ _ (hx hfirst) hrest

theorem Simulates.add (x y : α) :
    Simulates toNat (fun v n => toNat v = n) (traced.add x y) (traced.add (toNat x) (toNat y)) := by
  intro hexact
  exact hexact (.add x y) (by simp)

theorem Simulates.sub (x y : α) :
    Simulates toNat (fun v n => toNat v = n) (traced.sub x y) (traced.sub (toNat x) (toNat y)) := by
  intro hexact
  have h : toNat (x - y) + toNat y = toNat x := hexact (.sub x y) (by simp)
  exact Nat.eq_sub_of_add_eq h

theorem Simulates.ite {R : β → γ → Prop} {c d : Prop} [Decidable c] [Decidable d]
    {x x' : Traced α β} {y y' : Traced Nat γ} (hcd : c ↔ d)
    (hpos : Simulates toNat R x y) (hneg : Simulates toNat R x' y') :
    Simulates toNat R (if c then x else x') (if d then y else y') := by
  by_cases hc : c
  · rw [if_pos hc, if_pos (hcd.mp hc)]
    exact hpos
  · rw [if_neg hc, if_neg (fun hd => hc (hcd.mpr hd))]
    exact hneg

/-- Searches over corresponding lists simulate each other when their tests do. -/
theorem Simulates.anyM {p : β → Traced α Bool} {q : γ → Traced Nat Bool} (f : β → γ) (l : List β)
    (h : ∀ x, Simulates toNat Eq (p x) (q (f x))) :
    Simulates toNat Eq (l.anyM p) ((l.map f).anyM q) := by
  induction l with
  | nil => exact Simulates.pure rfl
  | cons x rest ih =>
    refine Simulates.bind (h x) ?_
    rintro found _ rfl
    cases found with
    | false => exact ih
    | true => exact Simulates.pure rfl

end Exactness

section Words

theorem Op.exact_add_iff {x y : UInt64} :
    (Op.add x y).Exact UInt64.toNat ↔ x.toNat + y.toNat < 2 ^ 64 := by
  have hx := x.toNat_lt
  have hy := y.toNat_lt
  simp only [Op.Exact, UInt64.toNat_add]
  omega

theorem Op.exact_sub_iff {x y : UInt64} :
    (Op.sub x y).Exact UInt64.toNat ↔ y.toNat ≤ x.toNat := by
  have hx := x.toNat_lt
  have hy := y.toNat_lt
  simp only [Op.Exact, UInt64.toNat_sub]
  omega

end Words

end traced
