import Mathlib.Data.List.Basic

namespace binding

variable {C V : Type}

/-- How a value was computed: the last call of a compression function uses the values
of no, one or two earlier evaluations. -/
inductive Evaluation (C : Type) where
  | start (c : C)
  | next (c : C) (previous : Evaluation C)
  | join (c : C) (left right : Evaluation C)

def Evaluation.root : Evaluation C → C
  | start c => c
  | next c _ => c
  | join c _ _ => c

/-- All calls, the last one first. -/
def Evaluation.calls : Evaluation C → List C
  | start c => [c]
  | next c previous => c :: previous.calls
  | join c left right => c :: (left.calls ++ right.calls)

theorem Evaluation.root_mem_calls (e : Evaluation C) : e.root ∈ e.calls := by
  cases e with
  | start c => exact List.mem_singleton_self c
  | next c previous => exact List.mem_cons_self
  | join c left right => exact List.mem_cons_self

def Evaluation.setRoot (e : Evaluation C) (c : C) : Evaluation C :=
  match e with
  | start _ => start c
  | next _ previous => next c previous
  | join _ left right => join c left right

@[simp] theorem Evaluation.root_setRoot (e : Evaluation C) (c : C) : (e.setRoot c).root = c := by
  cases e with
  | start _ => rfl
  | next _ _ => rfl
  | join _ _ _ => rfl

/-- A compression function: the value of a call, and the values that can be read off its
arguments. -/
structure Compression (C V : Type) where
  value : C → V
  inputs : C → List V

variable (f : Compression C V)

/-- The arguments of every call are the values that it uses, and say how many they are. -/
def Evaluation.Valid : Evaluation C → Prop
  | start c => f.inputs c = []
  | next c previous => f.inputs c = [f.value previous.root] ∧ previous.Valid
  | join c left right =>
    f.inputs c = [f.value left.root, f.value right.root] ∧ left.Valid ∧ right.Valid

theorem Evaluation.Valid.setRoot {e : Evaluation C} (h : e.Valid f) {c : C}
    (hc : f.inputs c = f.inputs e.root) : (e.setRoot c).Valid f := by
  cases e with
  | start _ => exact hc.trans h
  | next _ _ => exact ⟨hc.trans h.1, h.2⟩
  | join _ _ _ => exact ⟨hc.trans h.1, h.2⟩

/-- Two different calls with one value, the first among `cs` and the second among `ds`. -/
def Collision (cs ds : List C) : Prop := ∃ c ∈ cs, ∃ d ∈ ds, c ≠ d ∧ f.value c = f.value d

variable {f}

theorem Collision.mono {cs cs' ds ds' : List C} (h : Collision f cs ds) (hc : cs ⊆ cs')
    (hd : ds ⊆ ds') : Collision f cs' ds' := by
  obtain ⟨c, hcs, d, hds, hne, hvalue⟩ := h
  exact ⟨c, hc hcs, d, hd hds, hne, hvalue⟩

/-- Evaluations with the same last call are the same, or they contain a collision. -/
theorem Evaluation.Valid.eq_or_collision {e e' : Evaluation C} (h : e.Valid f) (h' : e'.Valid f)
    (hroot : e.root = e'.root) : e = e' ∨ Collision f e.calls e'.calls := by
  -- from equal values to equal roots, or to a collision at the roots
  have hdescend {a a' : Evaluation C} (hvalue : f.value a.root = f.value a'.root)
      (ih : a.root = a'.root → a = a' ∨ Collision f a.calls a'.calls) :
      a = a' ∨ Collision f a.calls a'.calls := by
    by_cases hsame : a.root = a'.root
    · exact ih hsame
    · exact .inr ⟨_, a.root_mem_calls, _, a'.root_mem_calls, hsame, hvalue⟩
  induction e generalizing e' with
  | start c =>
    have hinputs : f.inputs e'.root = [] := hroot ▸ h
    cases e' with
    | start c' => exact .inl (congrArg start hroot)
    | next c' previous' => exact absurd (h'.1.symm.trans hinputs) (List.cons_ne_nil _ _)
    | join c' left' right' => exact absurd (h'.1.symm.trans hinputs) (List.cons_ne_nil _ _)
  | next c previous ih =>
    have hinputs : f.inputs e'.root = [f.value previous.root] := hroot ▸ h.1
    cases e' with
    | start c' => exact absurd (hinputs.symm.trans h') (List.cons_ne_nil _ _)
    | next c' previous' =>
      have hvalue := (List.cons.inj (hinputs.symm.trans h'.1)).1
      obtain rfl | hcollision := hdescend hvalue (ih h.2 h'.2)
      · exact .inl (congrArg (fun c => next c previous) hroot)
      · exact .inr (hcollision.mono (List.subset_cons_self _ _) (List.subset_cons_self _ _))
    | join c' left' right' =>
      have hlength := congrArg List.length (hinputs.symm.trans h'.1)
      exact absurd hlength (by simp)
  | join c left right ihl ihr =>
    have hinputs : f.inputs e'.root = [f.value left.root, f.value right.root] := hroot ▸ h.1
    cases e' with
    | start c' => exact absurd (hinputs.symm.trans h') (List.cons_ne_nil _ _)
    | next c' previous' =>
      have hlength := congrArg List.length (hinputs.symm.trans h'.1)
      exact absurd hlength (by simp)
    | join c' left' right' =>
      obtain ⟨hleft, hrest⟩ := List.cons.inj (hinputs.symm.trans h'.1)
      have hright := (List.cons.inj hrest).1
      obtain rfl | hcollision := hdescend hleft (ihl h.2.1 h'.2.1)
      · obtain rfl | hcollision := hdescend hright (ihr h.2.2 h'.2.2)
        · exact .inl (congrArg (fun c => join c left right) hroot)
        · exact .inr (hcollision.mono
            (List.subset_cons_of_subset _ (List.subset_append_right _ _))
            (List.subset_cons_of_subset _ (List.subset_append_right _ _)))
      · exact .inr (hcollision.mono (List.subset_cons_of_subset _ (List.subset_append_left _ _))
          (List.subset_cons_of_subset _ (List.subset_append_left _ _)))

end binding
