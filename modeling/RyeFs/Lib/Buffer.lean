import Mathlib.Data.List.Basic

namespace buffers

variable {α : Type}

/-- A fixed array of which not every cell has been written. -/
structure Buffer (α : Type) where
  size : Nat
  cell : Nat → Option α

def Buffer.new (size : Nat) : Buffer α := ⟨size, fun _ => none⟩

/-- Writing past the end of the array is an error. -/
def Buffer.write (b : Buffer α) (start : Nat) (xs : List α) : Option (Buffer α) :=
  if start + xs.length ≤ b.size then
    some { b with cell := fun i => if start ≤ i ∧ i < start + xs.length then xs[i - start]? else b.cell i }
  else none

/-- The first `n` cells. Reading a cell that was never written is an error. -/
def Buffer.read (b : Buffer α) (n : Nat) : Option (List α) := (List.range n).mapM b.cell

/-- The first cells of the array hold the list. -/
def Buffer.Holds (b : Buffer α) (xs : List α) : Prop := ∀ i, i < xs.length → b.cell i = xs[i]?

theorem Buffer.holds_new (size : Nat) : (Buffer.new size : Buffer α).Holds [] := by
  intro i hi
  exact absurd hi (Nat.not_lt_zero i)

/-- What is written right behind the cells in use extends them. -/
theorem Buffer.Holds.write {b : Buffer α} {xs ys : List α} (h : b.Holds xs)
    (hsize : xs.length + ys.length ≤ b.size) :
    ∃ c, b.write xs.length ys = some c ∧ c.size = b.size ∧ c.Holds (xs ++ ys) := by
  refine ⟨_, if_pos hsize, rfl, ?_⟩
  intro i hi
  rw [List.length_append] at hi
  dsimp only
  by_cases hright : xs.length ≤ i
  · rw [if_pos ⟨hright, hi⟩, List.getElem?_append_right hright]
  · rw [if_neg (by omega), List.getElem?_append_left (by omega), h i (by omega)]

/-- Two halves of a new array, written one behind the other. -/
theorem Buffer.holds_halves (xs ys : List α) {size : Nat} (hsize : xs.length + ys.length ≤ size) :
    ∃ b c, (Buffer.new size).write 0 xs = some b ∧ b.write xs.length ys = some c ∧
      c.Holds (xs ++ ys) := by
  have hleft : ([] : List α).length + xs.length ≤ (Buffer.new size : Buffer α).size := by
    rw [List.length_nil, Nat.zero_add]
    exact Nat.le_trans (Nat.le_add_right _ _) hsize
  obtain ⟨b, hb, hbsize, hbholds⟩ := (Buffer.holds_new size).write hleft
  obtain ⟨c, hc, _, hcholds⟩ := hbholds.write (Nat.le_trans hsize (Nat.le_of_eq hbsize.symm))
  exact ⟨b, c, hb, hc, hcholds⟩

theorem Buffer.Holds.read {b : Buffer α} {xs : List α} (h : b.Holds xs) {n : Nat}
    (hn : n ≤ xs.length) : b.read n = some (xs.take n) := by
  unfold Buffer.read
  induction n with
  | zero => rfl
  | succ n ih =>
    have hlt : n < xs.length := by omega
    rw [List.range_succ, List.mapM_append, ih (by omega), List.take_succ_eq_append_getElem hlt]
    simp [h n hlt, hlt]

end buffers
