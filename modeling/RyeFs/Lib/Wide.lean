import RyeFs.Lib.Tree

namespace hashtree

variable {α : Type} {degree : Nat}

/-- A row of a tree that is as wide as the degree asks for: never wider than the
degree (or two, if that is more), one entry for each leaf where those are few enough,
and exactly as wide as allowed over a power of two of leaves. -/
structure Wide (degree : Nat) (t : LeafTree α) (ts : List (LeafTree α)) : Prop where
  row : Row t ts
  length_le : ts.length ≤ max degree 2
  two_le : 2 ≤ t.size → 2 ≤ ts.length
  eq_size : t.size ≤ degree → ts.length = t.size
  eq_max : ∀ k, t.size = 2 ^ k → max degree 2 ≤ 2 ^ k → ts.length = max degree 2

theorem Complete.wide_leaves {t : LeafTree α} (h : Complete t) (hsize : t.size ≤ degree) :
    Wide degree t (t.leaves.map LeafTree.leaf) := by
  have hlength : (t.leaves.map LeafTree.leaf).length = t.size := List.length_map _
  refine ⟨h.row_leaves, ?_, ?_, ?_, ?_⟩
  · omega
  · intro htwo
    omega
  · intro _
    exact hlength
  · intro k hk hmax
    omega

/-- A power of two above half of another one is no smaller. -/
theorem pow_le_of_lt_two_mul {j k : Nat} (h : 2 ^ j < 2 * 2 ^ k) : 2 ^ j ≤ 2 ^ k := by
  rw [Nat.mul_comm, ← Nat.pow_succ, Nat.pow_lt_pow_iff_right Nat.one_lt_two] at h
  exact Nat.pow_le_pow_right Nat.two_pos (Nat.le_of_lt_succ h)

/-- Two leaves stay apart: without them the row would be a root. -/
theorem Wide.pair {l r : LeafTree α} {ls rs : List (LeafTree α)} (hl : Wide 1 l ls) (hr : Wide 1 r rs)
    (hlsize : l.size = 1) (hrsize : r.size = 1) : Wide 1 (.node l r) (ls ++ rs) := by
  have hllength : ls.length = 1 := by
    rw [hl.eq_size hlsize.le, hlsize]
  have hrlength : rs.length = 1 := by
    rw [hr.eq_size hrsize.le, hrsize]
  have hlength : (ls ++ rs).length = 2 := by
    rw [List.length_append, hllength, hrlength]
  refine ⟨hl.row.append (k := 0) hr.row hllength hrlength.le, hlength.le, fun _ => hlength.ge, ?_,
    fun _ _ _ => hlength⟩
  intro hone
  rw [LeafTree.size_node, hlsize, hrsize] at hone
  exact absurd hone (Nat.not_succ_le_self 1)

/-- Above the degree, the left row is exactly as wide as allowed. -/
theorem Wide.length_left {l r : LeafTree α} {ls : List (LeafTree α)} {j k : Nat} (hl : Wide degree l ls)
    (hdegree : degree = 2 ^ j) (hsize : l.size = 2 ^ k) (hle : r.size ≤ l.size)
    (hlarge : degree < (LeafTree.node l r).size) (htwo : 2 ≤ l.size) : ls.length = max degree 2 := by
  apply hl.eq_max k hsize
  have hpow : 2 ^ j ≤ 2 ^ k := by
    apply pow_le_of_lt_two_mul
    rw [LeafTree.size_node] at hlarge
    omega
  omega

/-- A layer of parents over two rows side by side is a row of the node again. -/
theorem Wide.parents {l r : LeafTree α} {ls rs : List (LeafTree α)} {j k : Nat} (hl : Wide degree l ls)
    (hr : Wide degree r rs) (hdegree : degree = 2 ^ j) (hcomplete : Complete (.node l r))
    (hsize : l.size = 2 ^ k) (hle : r.size ≤ l.size) (hlarge : degree < (LeafTree.node l r).size)
    (htwo : 2 ≤ l.size) : Wide degree (.node l r) (pairs LeafTree.node (ls ++ rs)) := by
  have hllength := hl.length_left hdegree hsize hle hlarge htwo
  have hrlength := hr.length_le
  have hrpos : 0 < rs.length := by
    obtain hone | hmore := Nat.lt_or_ge r.size 2
    · have hrsize := r.size_pos
      have hdegree_pos := Nat.two_pow_pos j
      rw [hr.eq_size (by omega)]
      exact hrsize
    · exact Nat.lt_of_lt_of_le Nat.two_pos (hr.two_le hmore)
  have hmax : ∃ m, max degree 2 = 2 ^ m := by
    obtain hone | hmore := Nat.lt_or_ge degree 2
    · exact ⟨1, Nat.max_eq_right hone.le⟩
    · exact ⟨j, by rw [Nat.max_eq_left hmore, hdegree]⟩
  obtain ⟨m, hm⟩ := hmax
  have hlength : (pairs LeafTree.node (ls ++ rs)).length = (max degree 2 + rs.length + 1) / 2 := by
    rw [length_pairs, List.length_append, hllength]
  refine ⟨(hl.row.append hr.row (hllength.trans hm) (by omega)).pairs, ?_, ?_, ?_, ?_⟩
  · omega
  · intro _
    omega
  · intro hfew
    omega
  · intro n hn hwide
    -- the node is over a power of two of leaves, so both halves are
    have hroom : 2 ≤ 2 ^ n := le_trans (Nat.le_max_right degree 2) hwide
    obtain ⟨i, rfl⟩ : ∃ i, n = i + 1 := by
      cases n with
      | zero => exact absurd hroom (Nat.not_succ_le_self 1)
      | succ i => exact ⟨i, rfl⟩
    obtain ⟨_, hlhalf, _, hrhalf⟩ := hcomplete.halves hn
    have hpow : 2 ^ j ≤ 2 ^ i := by
      apply pow_le_of_lt_two_mul
      rw [LeafTree.size_node] at hlarge
      omega
    have hfull := hr.eq_max i hrhalf (by omega)
    omega

/-- The two ways to combine the rows of the children: two leaves at a degree of one
stay apart, everything else gets a layer of parents. -/
theorem Wide.children {l r : LeafTree α} {ls rs : List (LeafTree α)} {j k : Nat} (hl : Wide degree l ls)
    (hr : Wide degree r rs) (hdegree : degree = 2 ^ j) (hcomplete : Complete (.node l r))
    (hsize : l.size = 2 ^ k) (hle : r.size ≤ l.size) (hlarge : degree < (LeafTree.node l r).size) :
    (l.size = 1 ∧ degree = 1 ∧ ls.length = 1 ∧ rs.length = 1 ∧
        Wide degree (.node l r) (ls ++ rs)) ∨
      (2 ≤ l.size ∧ ls.length = max degree 2 ∧
        Wide degree (.node l r) (pairs LeafTree.node (ls ++ rs))) := by
  have hlpos := l.size_pos
  have hrpos := r.size_pos
  obtain hone | htwo := Nat.lt_or_ge l.size 2
  · have hdegree_pos := Nat.two_pow_pos j
    have hlone : l.size = 1 := by omega
    have hrone : r.size = 1 := by omega
    obtain rfl : degree = 1 := by
      rw [LeafTree.size_node] at hlarge
      omega
    refine .inl ⟨hlone, rfl, ?_, ?_, hl.pair hr hlone hrone⟩
    · rw [hl.eq_size hlone.le, hlone]
    · rw [hr.eq_size hrone.le, hrone]
  · exact .inr ⟨htwo, hl.length_left hdegree hsize hle hlarge htwo,
      hl.parents hr hdegree hcomplete hsize hle hlarge htwo⟩

end hashtree
