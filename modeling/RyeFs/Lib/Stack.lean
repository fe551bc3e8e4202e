import RyeFs.Lib.Bits
import RyeFs.Lib.Tree

open bits

namespace hashtree

variable {α : Type}

/-- A complete tree whose number of leaves is a power of two. -/
structure Full (t : LeafTree α) : Prop where
  complete : Complete t
  size : ∃ k, t.size = 2 ^ k

theorem Full.node {l r : LeafTree α} (hl : Full l) (hr : Full r) (hsize : r.size = l.size) :
    Full (.node l r) := by
  obtain ⟨k, hk⟩ := hl.size
  refine ⟨Complete.node k hl.complete hk hr.complete (by omega), k + 1, ?_⟩
  rw [LeafTree.size_node, Nat.pow_succ]
  omega

/-- Full trees of different sizes differ by a factor of two at least. -/
theorem Full.dvd_of_lt {s t : LeafTree α} (hs : Full s) (ht : Full t) (hlt : s.size < t.size) :
    2 * s.size ∣ t.size := by
  obtain ⟨k, hk⟩ := hs.size
  obtain ⟨m, hm⟩ := ht.size
  rw [hk, hm] at hlt ⊢
  have hkm : k + 1 ≤ m := (Nat.pow_lt_pow_iff_right Nat.one_lt_two).mp hlt
  rw [Nat.mul_comm, ← Nat.pow_succ]
  exact Nat.pow_dvd_pow 2 hkm

/-- A stack of trees, its top first, is read from the bottom up. -/
def stackLeaves : List (LeafTree α) → List α
  | [] => []
  | t :: rest => stackLeaves rest ++ t.leaves

def stackSize (stack : List (LeafTree α)) : Nat := (stackLeaves stack).length

@[simp] theorem stackSize_nil : stackSize ([] : List (LeafTree α)) = 0 := rfl

@[simp] theorem stackSize_cons (t : LeafTree α) (rest : List (LeafTree α)) :
    stackSize (t :: rest) = stackSize rest + t.size :=
  List.length_append

/-- The stack can take `above` more leaves on its top: its trees are full, and each
has at least as many leaves as all that lies above it. -/
def Carries (above : Nat) : List (LeafTree α) → Prop
  | [] => True
  | t :: rest => Full t ∧ above ≤ t.size ∧ Carries (above + t.size) rest

theorem Carries.mono {a b : Nat} {stack : List (LeafTree α)} (h : Carries b stack) (hle : a ≤ b) :
    Carries a stack := by
  induction stack generalizing a b with
  | nil => trivial
  | cons t rest ih =>
    obtain ⟨hfull, hsize, hrest⟩ := h
    exact ⟨hfull, by omega, ih hrest (by omega)⟩

theorem Carries.full {above : Nat} {stack : List (LeafTree α)} (h : Carries above stack) :
    ∀ t ∈ stack, Full t := by
  induction stack generalizing above with
  | nil => simp
  | cons t rest ih =>
    obtain ⟨hfull, _, hrest⟩ := h
    rw [List.forall_mem_cons]
    exact ⟨hfull, ih hrest⟩

theorem Carries.lt_size {above : Nat} {stack : List (LeafTree α)} (h : Carries (above + 1) stack) :
    ∀ t ∈ stack, above < t.size := by
  induction stack generalizing above with
  | nil => simp
  | cons t rest ih =>
    obtain ⟨_, hsize, hrest⟩ := h
    rw [List.forall_mem_cons]
    refine ⟨hsize, fun u hu => ?_⟩
    have hlt : above + t.size < u.size := ih (hrest.mono (by omega)) u hu
    omega

/-- From the top down, each tree becomes the left sibling of what is there. -/
def fold (stack : List (LeafTree α)) (t : LeafTree α) : LeafTree α := stack.foldl (fun r l => .node l r) t

theorem leaves_fold (stack : List (LeafTree α)) (t : LeafTree α) :
    (fold stack t).leaves = stackLeaves stack ++ t.leaves := by
  unfold fold
  induction stack generalizing t with
  | nil => rfl
  | cons l rest ih =>
    rw [List.foldl_cons, ih, stackLeaves, LeafTree.leaves, List.append_assoc]

/-- What a stack carries is folded with it into one complete tree. -/
theorem Carries.complete_fold {stack : List (LeafTree α)} {t : LeafTree α} (h : Carries t.size stack)
    (ht : Complete t) : Complete (fold stack t) := by
  unfold fold
  induction stack generalizing t with
  | nil => exact ht
  | cons l rest ih =>
    obtain ⟨hfull, hle, hrest⟩ := h
    obtain ⟨k, hk⟩ := hfull.size
    rw [List.foldl_cons]
    apply ih
    · rw [LeafTree.size_node, Nat.add_comm]
      exact hrest
    · exact Complete.node k hfull.complete hk ht (by omega)

/-- Two trees of one size on top of a stack are merged into one. -/
theorem Carries.merge {t u : LeafTree α} {rest : List (LeafTree α)} (h : Carries 0 (t :: u :: rest))
    (hsize : t.size = u.size) : Carries 0 (.node u t :: rest) := by
  obtain ⟨ht, _, hu, _, hrest⟩ := h
  refine ⟨hu.node ht hsize, Nat.zero_le _, hrest.mono ?_⟩
  rw [LeafTree.size_node]
  omega

/-- A weight that is no power of two never fills a tree below it exactly. -/
theorem Carries.succ {above : Nat} {stack : List (LeafTree α)} (h : Carries above stack)
    (hpow : ∀ k, above ≠ 2 ^ k) (hpos : 0 < above) : Carries (above + 1) stack := by
  induction stack generalizing above with
  | nil => trivial
  | cons t rest ih =>
    obtain ⟨hfull, hle, hrest⟩ := h
    obtain ⟨k, hk⟩ := hfull.size
    have hne := hpow k
    refine ⟨hfull, by omega, ?_⟩
    have hsum : Carries (above + t.size + 1) rest := by
      refine ih hrest (fun m hm => ?_) (by omega)
      -- a power of two strictly between `2 ^ k` and its double
      have hlow : 2 ^ k < 2 ^ m := by omega
      have hhigh : 2 ^ m < 2 ^ (k + 1) := by
        rw [Nat.pow_succ]
        omega
      have hkm := (Nat.pow_lt_pow_iff_right Nat.one_lt_two).mp hlow
      have hmk := (Nat.pow_lt_pow_iff_right Nat.one_lt_two).mp hhigh
      omega
    exact hsum.mono (by omega)

/-- The only way in which a stack cannot take one more leaf: its top two trees are
of one size. -/
theorem Carries.exists_top_eq {stack : List (LeafTree α)} (h : Carries 0 stack)
    (hnot : ¬ Carries 1 stack) :
    ∃ t u rest, stack = t :: u :: rest ∧ t.size = u.size := by
  match stack, h with
  | [], _ => exact absurd trivial hnot
  | [t], h => exact absurd ⟨h.1, t.size_pos, trivial⟩ hnot
  | t :: u :: rest, h =>
    refine ⟨t, u, rest, rfl, ?_⟩
    by_contra hne
    obtain ⟨ht, _, hu, hle, hrest⟩ := h
    rw [Nat.zero_add] at hle hrest
    obtain ⟨k, hk⟩ := ht.size
    obtain ⟨m, hm⟩ := hu.size
    have hkm : k < m := (Nat.pow_lt_pow_iff_right Nat.one_lt_two).mp (by omega)
    have hnotpow : ∀ i, t.size + u.size ≠ 2 ^ i := by
      intro i hi
      have hdouble := Nat.pow_le_pow_right Nat.two_pos hkm
      have hlow : m < i := (Nat.pow_lt_pow_iff_right Nat.one_lt_two).mp
        (by have := t.size_pos; omega)
      have hhigh := Nat.pow_le_pow_right Nat.two_pos hlow
      rw [Nat.pow_succ] at hhigh
      omega
    have hpos := t.size_pos
    apply hnot
    refine ⟨ht, hpos, hu, by omega, ?_⟩
    exact (hrest.succ hnotpow (by omega)).mono (by omega)

theorem Carries.exists_exponents {above : Nat} {stack : List (LeafTree α)}
    (h : Carries (above + 1) stack) :
    ∃ ks : List Nat, stack.map LeafTree.size = ks.map (2 ^ ·) ∧ ks.SortedLT := by
  induction stack generalizing above with
  | nil => exact ⟨[], rfl, by simp [List.sortedLT_iff_pairwise]⟩
  | cons t rest ih =>
    obtain ⟨hfull, hsize, hrest⟩ := h
    obtain ⟨k, hk⟩ := hfull.size
    have hrest' : Carries (t.size + 1) rest := hrest.mono (by omega)
    obtain ⟨ks, hks, hsorted⟩ := ih hrest'
    refine ⟨k :: ks, ?_, ?_⟩
    · rw [List.map_cons, List.map_cons, hks, hk]
    · rw [List.sortedLT_iff_pairwise, List.pairwise_cons]
      refine ⟨fun m hm => ?_, hsorted.pairwise⟩
      have hmem : 2 ^ m ∈ rest.map LeafTree.size := by
        rw [hks]
        exact List.mem_map_of_mem hm
      obtain ⟨u, hu, husize⟩ := List.mem_map.mp hmem
      have hlt := hrest'.lt_size u hu
      rw [hk, husize] at hlt
      exact (Nat.pow_lt_pow_iff_right Nat.one_lt_two).mp hlt

theorem stackSize_eq_sum (stack : List (LeafTree α)) : stackSize stack = (stack.map LeafTree.size).sum := by
  induction stack with
  | nil => rfl
  | cons t rest ih =>
    rw [stackSize_cons, ih, List.map_cons, List.sum_cons, Nat.add_comm]

/-- A stack that can take one more leaf is the binary expansion of its size. -/
theorem Carries.sizes_eq {stack : List (LeafTree α)} (h : Carries 1 stack) :
    stack.map LeafTree.size = (stackSize stack).bitIndices.map (2 ^ ·) := by
  have hzero : Carries (0 + 1) stack := h
  obtain ⟨ks, hks, hsorted⟩ := hzero.exists_exponents
  rw [stackSize_eq_sum, hks, Nat.bitIndices_sum_map_two_pow hsorted]

theorem Carries.length_eq {stack : List (LeafTree α)} (h : Carries 1 stack) :
    stack.length = popcount (stackSize stack) := by
  have hlength := congrArg List.length h.sizes_eq
  rw [List.length_map, List.length_map] at hlength
  exact hlength

theorem Carries.popcount_le {stack : List (LeafTree α)} (h : Carries 0 stack) :
    popcount (stackSize stack) ≤ stack.length := by
  induction hn : stack.length generalizing stack with
  | zero =>
    rw [List.length_eq_zero_iff.mp hn]
    simp
  | succ n ih =>
    by_cases hone : Carries 1 stack
    · rw [← hn]
      exact hone.length_eq.ge
    · obtain ⟨t, u, rest, rfl, hsize⟩ := h.exists_top_eq hone
      have hmerged := ih (h.merge hsize) (by simpa using hn)
      have hsame : stackSize (.node u t :: rest) = stackSize (t :: u :: rest) := by
        simp only [stackSize_cons, LeafTree.size_node]
        omega
      rw [hsame] at hmerged
      omega

/-- Merging may stop exactly when the stack is as short as the binary expansion. -/
theorem Carries.one_iff {stack : List (LeafTree α)} (h : Carries 0 stack) :
    Carries 1 stack ↔ stack.length ≤ popcount (stackSize stack) := by
  constructor
  · intro hone
    exact hone.length_eq.le
  · intro hle
    by_contra hnot
    obtain ⟨t, u, rest, rfl, hsize⟩ := h.exists_top_eq hnot
    have hmerged := (h.merge hsize).popcount_le
    have hsame : stackSize (.node u t :: rest) = stackSize (t :: u :: rest) := by
      simp only [stackSize_cons, LeafTree.size_node]
      omega
    rw [hsame] at hmerged
    simp only [List.length_cons] at hle hmerged
    omega

/-- Aligned room: a stack that can take one more leaf, and whose size is a multiple
of `2 ^ j`, can take `2 ^ j` more. -/
theorem Carries.align {stack : List (LeafTree α)} {j : Nat} (h : Carries 1 stack)
    (hdvd : 2 ^ j ∣ stackSize stack) : Carries (2 ^ j) stack := by
  have hstep {above : Nat} {rest : List (LeafTree α)} (hrest : Carries (above + 1) rest)
      (habove : 2 ^ j ∣ above) (hsizes : ∀ t ∈ rest, 2 ^ j ∣ t.size) :
      Carries (above + 2 ^ j) rest := by
    induction rest generalizing above with
    | nil => trivial
    | cons t rest ih =>
      obtain ⟨hfull, hle, hrest⟩ := hrest
      rw [List.forall_mem_cons] at hsizes
      obtain ⟨ht, hsizes⟩ := hsizes
      have hroom : 2 ^ j ≤ t.size - above := Nat.le_of_dvd (by omega) (Nat.dvd_sub ht habove)
      have hnext : Carries (above + t.size + 2 ^ j) rest :=
        ih (hrest.mono (by omega)) (Nat.dvd_add habove ht) hsizes
      exact ⟨hfull, by omega, hnext.mono (by omega)⟩
  rw [← Nat.zero_add (2 ^ j)]
  refine hstep h (Nat.dvd_zero _) ?_
  match stack, h with
  | [], _ => simp
  | t :: rest, ⟨hfull, _, hrest⟩ =>
    -- the top tree is the smallest one, and the others are multiples of its double
    have hrest' : Carries (t.size + 1) rest := hrest.mono (by omega)
    have hdouble : ∀ u ∈ rest, 2 * t.size ∣ u.size := fun u hu =>
      hfull.dvd_of_lt (hrest'.full u hu) (hrest'.lt_size u hu)
    have hsum : 2 * t.size ∣ stackSize rest := by
      rw [stackSize_eq_sum]
      apply List.dvd_sum
      intro n hn
      obtain ⟨u, hu, rfl⟩ := List.mem_map.mp hn
      exact hdouble u hu
    have htop : 2 ^ j ∣ t.size := by
      obtain ⟨k, hk⟩ := hfull.size
      rw [hk]
      apply Nat.pow_dvd_pow 2
      by_contra hlt
      have hpow : 2 ^ (k + 1) ∣ stackSize (t :: rest) :=
        (Nat.pow_dvd_pow 2 (by omega)).trans hdvd
      rw [stackSize_cons, Nat.pow_succ, Nat.mul_comm, ← hk, Nat.dvd_add_right hsum] at hpow
      have hle := Nat.le_of_dvd t.size_pos hpow
      have hpos := t.size_pos
      omega
    rw [List.forall_mem_cons]
    exact ⟨htop, fun u hu => htop.trans ((Nat.dvd_mul_left _ 2).trans (hdouble u hu))⟩

/-- Sizes at least double from tree to tree, so a stack is short. -/
theorem Carries.two_pow_length_le {stack : List (LeafTree α)} (h : Carries 1 stack) :
    2 ^ stack.length ≤ stackSize stack + 1 := by
  have hstep {above : Nat} {rest : List (LeafTree α)} (hrest : Carries (above + 1) rest) :
      2 ^ rest.length * (above + 1) ≤ above + stackSize rest + 1 := by
    induction rest generalizing above with
    | nil => simp
    | cons t rest ih =>
      obtain ⟨_, hle, hrest⟩ := hrest
      have hnext : 2 ^ rest.length * (above + t.size + 1) ≤ above + t.size + stackSize rest + 1 :=
        ih (hrest.mono (by omega))
      have hdouble : 2 ^ rest.length * (2 * (above + 1)) ≤ 2 ^ rest.length * (above + t.size + 1) :=
        Nat.mul_le_mul_left _ (by omega)
      rw [List.length_cons, Nat.pow_succ, Nat.mul_assoc, stackSize_cons]
      omega
  have hzero : Carries (0 + 1) stack := h
  simpa using hstep hzero

/-- A stack that still has a pair to merge is one longer at most. -/
theorem Carries.two_pow_length_tail_le {t : LeafTree α} {rest : List (LeafTree α)}
    (h : Carries 0 (t :: rest)) : 2 ^ rest.length ≤ stackSize (t :: rest) := by
  obtain ⟨_, _, hrest⟩ := h
  rw [Nat.zero_add] at hrest
  have hpos := t.size_pos
  have hpow := (hrest.mono hpos).two_pow_length_le
  rw [stackSize_cons]
  omega

end hashtree
