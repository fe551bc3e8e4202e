import Mathlib.Data.List.Basic
import Mathlib.Algebra.Order.Ring.Nat

namespace hashtree

variable {α β : Type}

/-- A binary tree with its data at the leaves. -/
inductive LeafTree (α : Type) where
  | leaf (a : α)
  | node (l r : LeafTree α)

def LeafTree.leaves : LeafTree α → List α
  | leaf a => [a]
  | node l r => l.leaves ++ r.leaves

def LeafTree.size (t : LeafTree α) : Nat := t.leaves.length

@[simp] theorem LeafTree.size_leaf (a : α) : (leaf a).size = 1 := rfl

@[simp] theorem LeafTree.size_node (l r : LeafTree α) : (node l r).size = l.size + r.size :=
  List.length_append

theorem LeafTree.size_pos (t : LeafTree α) : 0 < t.size := by
  induction t with
  | leaf a => exact Nat.one_pos
  | node l r ihl _ =>
    rw [size_node]
    omega

/-- Filled from the left: every left subtree has a power of two of leaves, and no
fewer than its right sibling. -/
inductive Complete : LeafTree α → Prop
  | leaf (a : α) : Complete (.leaf a)
  | node {l r : LeafTree α} (k : Nat) (hl : Complete l) (hsize : l.size = 2 ^ k) (hr : Complete r)
      (hle : r.size ≤ 2 ^ k) : Complete (.node l r)

/-- Two powers of two that both split the same number into a larger left part and
a nonempty right part are equal. -/
theorem pow_split_unique {k m n a b : Nat} (ha : n = 2 ^ k + a) (hb : n = 2 ^ m + b) (hapos : 0 < a)
    (hbpos : 0 < b) (hale : a ≤ 2 ^ k) (hble : b ≤ 2 ^ m) : k = m := by
  have hnot {i j : Nat} (hij : i < j) : 2 * 2 ^ i ≤ 2 ^ j := by
    have hpow := Nat.pow_le_pow_right Nat.two_pos hij
    rw [Nat.pow_succ] at hpow
    omega
  rcases Nat.lt_trichotomy k m with hlt | heq | hgt
  · have hdouble := hnot hlt
    omega
  · exact heq
  · have hdouble := hnot hgt
    omega

/-- The leaves determine a complete tree. -/
theorem Complete.unique {s t : LeafTree α} (hs : Complete s) (ht : Complete t)
    (hleaves : s.leaves = t.leaves) : s = t := by
  induction hs generalizing t with
  | leaf a =>
    cases ht with
    | leaf b =>
      obtain rfl : a = b := by simpa [LeafTree.leaves] using hleaves
      rfl
    | @node l r k hl hsize hr hle =>
      have hlength := congrArg List.length hleaves
      have hlpos := l.size_pos
      have hrpos := r.size_pos
      simp only [LeafTree.leaves, List.length_append, List.length_singleton] at hlength
      unfold LeafTree.size at hlpos hrpos
      omega
  | @node l r k hl hsize hr hle ihl ihr =>
    cases ht with
    | leaf b =>
      have hlength := congrArg List.length hleaves
      have hlpos := l.size_pos
      have hrpos := r.size_pos
      simp only [LeafTree.leaves, List.length_append, List.length_singleton] at hlength
      unfold LeafTree.size at hlpos hrpos
      omega
    | @node l' r' m hl' hsize' hr' hle' =>
      have htotal : (LeafTree.node l' r').size = 2 ^ k + r.size := by
        rw [← hsize, ← LeafTree.size_node]
        exact congrArg List.length hleaves.symm
      have htotal' : (LeafTree.node l' r').size = 2 ^ m + r'.size := by
        rw [LeafTree.size_node, hsize']
      have hkm := pow_split_unique htotal htotal' r.size_pos r'.size_pos hle hle'
      have hsizes : l.leaves.length = l'.leaves.length := by
        change l.size = l'.size
        rw [hsize, hsize', hkm]
      obtain ⟨hleft, hright⟩ := List.append_inj hleaves hsizes
      rw [ihl hl' hleft, ihr hr' hright]

/-- In a complete tree whose number of leaves is a power of two, the two halves
are of one size. -/
theorem Complete.halves {l r : LeafTree α} {n : Nat} (h : Complete (.node l r))
    (hsize : (LeafTree.node l r).size = 2 ^ (n + 1)) :
    Complete l ∧ l.size = 2 ^ n ∧ Complete r ∧ r.size = 2 ^ n := by
  cases h with
  | node k hl hlsize hr hle =>
    have hpos := r.size_pos
    have hsplit : 2 ^ (n + 1) = 2 ^ k + r.size := by
      rw [← hsize, LeafTree.size_node, hlsize]
    have hhalf : 2 ^ (n + 1) = 2 ^ n + 2 ^ n := by
      rw [Nat.pow_succ]
      omega
    have hk : k = n := pow_split_unique hsplit hhalf hpos (Nat.two_pow_pos n) hle le_rfl
    subst hk
    exact ⟨hl, hlsize, hr, by omega⟩

/-- One layer of parents: neighbours are joined, and an odd one out moves up as it
is. -/
def pairs (join : β → β → β) : List β → List β
  | [] => []
  | [a] => [a]
  | a :: b :: rest => join a b :: pairs join rest

theorem length_pairs (join : β → β → β) (l : List β) :
    (pairs join l).length = (l.length + 1) / 2 := by
  induction l using pairs.induct with
  | case1 => simp [pairs]
  | case2 a => simp [pairs]
  | case3 a b rest ih =>
    rw [pairs, List.length_cons, ih, List.length_cons, List.length_cons]
    omega

theorem pairs_map {join : α → α → α} {join' : β → β → β} (f : α → β)
    (hf : ∀ a b, f (join a b) = join' (f a) (f b)) (l : List α) :
    pairs join' (l.map f) = (pairs join l).map f := by
  induction l using pairs.induct with
  | case1 => rfl
  | case2 a => rfl
  | case3 a b rest ih =>
    rw [pairs, List.map_cons, List.map_cons, pairs, ih, List.map_cons, hf]

theorem pairs_append {join : β → β → β} {l m : List β} {n : Nat} (hl : l.length = 2 * n) :
    pairs join (l ++ m) = pairs join l ++ pairs join m := by
  induction n generalizing l with
  | zero =>
    rw [List.length_eq_zero_iff.mp hl]
    rfl
  | succ n ih =>
    match l, hl with
    | a :: b :: rest, hl =>
      have hrest : rest.length = 2 * n := by
        rw [List.length_cons, List.length_cons] at hl
        omega
      rw [List.cons_append, List.cons_append, pairs, ih hrest, pairs, List.cons_append]

/-- The subtrees `ts`, from left to right, become the tree `t` when layers of
parents are put over them until one is left. -/
def Row (t : LeafTree α) (ts : List (LeafTree α)) : Prop :=
  ∃ layers, (pairs LeafTree.node)^[layers] ts = [t]

theorem Row.single (t : LeafTree α) : Row t [t] := ⟨0, rfl⟩

theorem iterate_pairs_single (join : β → β → β) (layers : Nat) (a : β) :
    (pairs join)^[layers] [a] = [a] := Function.iterate_fixed rfl layers

/-- One more layer changes nothing in what the row becomes. -/
theorem Row.pairs {t : LeafTree α} {ts : List (LeafTree α)} (h : Row t ts) :
    Row t (pairs LeafTree.node ts) := by
  obtain ⟨layers, hlayers⟩ := h
  refine ⟨layers, ?_⟩
  rw [← Function.iterate_succ_apply, Function.iterate_succ_apply', hlayers]
  rfl

/-- The last two subtrees of a row are the children of the root. -/
theorem Row.eq_node {t a b : LeafTree α} (h : Row t [a, b]) : t = .node a b := by
  obtain ⟨layers, hlayers⟩ := h
  cases layers with
  | zero => exact absurd (congrArg List.length hlayers) (by simp)
  | succ layers =>
    have hjoined : (hashtree.pairs LeafTree.node)^[layers] [LeafTree.node a b] = [t] := hlayers
    rw [iterate_pairs_single] at hjoined
    exact (List.singleton_inj.mp hjoined).symm

/-- As many layers as a row has doublings of one subtree are enough. -/
theorem Row.iterate_eq {t : LeafTree α} {ts : List (LeafTree α)} {k : Nat} (h : Row t ts)
    (hle : ts.length ≤ 2 ^ k) : (hashtree.pairs LeafTree.node)^[k] ts = [t] := by
  induction k generalizing ts with
  | zero =>
    obtain ⟨layers, hlayers⟩ := h
    match ts, hle with
    | [], _ =>
      have hnil : hashtree.pairs LeafTree.node ([] : List (LeafTree α)) = [] := rfl
      rw [Function.iterate_fixed hnil] at hlayers
      exact absurd hlayers (List.cons_ne_nil t []).symm
    | [a], _ =>
      rw [iterate_pairs_single] at hlayers
      exact hlayers
  | succ k ih =>
    rw [Function.iterate_succ_apply]
    apply ih h.pairs
    rw [length_pairs]
    rw [Nat.pow_succ] at hle
    omega

theorem iterate_pairs_append {join : β → β → β} {l m : List β} {k : Nat} (hl : l.length = 2 ^ k) :
    (pairs join)^[k] (l ++ m) = (pairs join)^[k] l ++ (pairs join)^[k] m := by
  induction k generalizing l m with
  | zero => rfl
  | succ k ih =>
    have heven : l.length = 2 * 2 ^ k := by
      rw [hl, Nat.pow_succ]
      omega
    have hhalf : (pairs join l).length = 2 ^ k := by
      rw [length_pairs]
      omega
    rw [Function.iterate_succ_apply, pairs_append heven, ih hhalf]
    rfl

/-- Rows of two subtrees side by side, the left one of a power of two of entries
and the right one no longer, are a row of the node. -/
theorem Row.append {l r : LeafTree α} {ls rs : List (LeafTree α)} {k : Nat} (hl : Row l ls) (hr : Row r rs)
    (hlength : ls.length = 2 ^ k) (hle : rs.length ≤ 2 ^ k) : Row (.node l r) (ls ++ rs) := by
  refine ⟨k + 1, ?_⟩
  rw [Function.iterate_succ_apply', iterate_pairs_append hlength, hl.iterate_eq hlength.le,
    hr.iterate_eq hle]
  rfl

theorem Complete.row_leaves {t : LeafTree α} (h : Complete t) : Row t (t.leaves.map LeafTree.leaf) := by
  induction h with
  | leaf a => exact Row.single (.leaf a)
  | node k hl hsize hr hle ihl ihr =>
    rw [LeafTree.leaves, List.map_append]
    apply Row.append ihl ihr
    · rw [List.length_map]
      exact hsize
    · rw [List.length_map]
      exact hle

end hashtree
