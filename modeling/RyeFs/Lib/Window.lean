import Mathlib.Data.List.Basic

namespace windows

variable {α : Type}

/-- The `len` values of a stream from `start` on. -/
def window (stream : Nat → α) (start len : Nat) : List α :=
  (List.range len).map fun i => stream (start + i)

@[simp] theorem length_window (stream : Nat → α) (start len : Nat) :
    (window stream start len).length = len := by
  simp [window]

@[simp] theorem window_zero (stream : Nat → α) (start : Nat) : window stream start 0 = [] := rfl

/-- Adjacent windows. -/
theorem window_add (stream : Nat → α) (start a b : Nat) :
    window stream start (a + b) = window stream start a ++ window stream (start + a) b := by
  unfold window
  rw [List.range_add, List.map_append, List.map_map]
  congr 1
  apply List.map_congr_left
  intro i _
  exact congrArg stream (Nat.add_assoc start a i).symm

theorem take_window {stream : Nat → α} {start n len : Nat} (hn : n ≤ len) :
    (window stream start len).take n = window stream start n := by
  obtain ⟨m, rfl⟩ := Nat.exists_eq_add_of_le hn
  rw [window_add, List.take_left' (length_window stream start n)]

theorem drop_window {stream : Nat → α} {start n len : Nat} (hn : n ≤ len) :
    (window stream start len).drop n = window stream (start + n) (len - n) := by
  obtain ⟨m, rfl⟩ := Nat.exists_eq_add_of_le hn
  rw [window_add, List.drop_left' (length_window stream start n), Nat.add_sub_cancel_left]

/-- A window of whole blocks. -/
theorem window_mul (stream : Nat → α) (start width n : Nat) :
    window stream start (n * width) =
      (List.range n).flatMap fun i => window stream (start + i * width) width := by
  induction n with
  | zero => simp
  | succ n ih =>
    rw [Nat.succ_mul, window_add, ih, List.range_succ, List.flatMap_append, List.flatMap_singleton]

end windows
