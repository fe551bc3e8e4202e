import Mathlib.Data.Fintype.EquivFin
import Mathlib.Data.Finite.Prod

namespace lanes

variable {α : Type} {n : Nat}

instance finite_vector [Finite α] : Finite (Vector α n) := by
  refine Finite.of_injective (fun s : Vector α n => fun i : Fin n => s[i]) fun s t h => ?_
  apply Vector.ext
  intro i hi
  exact congrFun h ⟨i, hi⟩

/-- Replacing one lane of a state loses nothing, if the old value can be told from the
new one and the other lanes. -/
theorem set_injective (i : Fin n) (f : Vector α n → α)
    (hf : ∀ s t : Vector α n, (∀ j, j ≠ i → s[j] = t[j]) → f s = f t → s[i] = t[i]) :
    Function.Injective fun s : Vector α n => s.set i (f s) := by
  intro s t h
  have hlane (j : Fin n) (hj : j ≠ i) : s[j] = t[j] := by
    have hval : i.val ≠ j.val := fun heq => hj (Fin.ext heq.symm)
    have hget := congrArg (fun v : Vector α n => v[j]) h
    simpa [Vector.getElem_set_ne _ _ hval] using hget
  have hnew : f s = f t := by
    have hget := congrArg (fun v : Vector α n => v[i]) h
    simpa using hget
  apply Vector.ext
  intro j hj
  by_cases heq : (⟨j, hj⟩ : Fin n) = i
  · subst heq
    exact hf s t hlane hnew
  · exact hlane ⟨j, hj⟩ heq

end lanes
