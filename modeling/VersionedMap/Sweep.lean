/-!
# Sweeps

A sweep runs over an array from left to right, maps every element, and carries a state
along that each step may change. Whatever is done to all buckets of a table in turn is a
sweep whose state is what the buckets share.
-/

namespace VersionedMap

variable {α β σ : Type}

/-- Maps an array from left to right while carrying a state. -/
def sweep (f : α → σ → β × σ) (xs : Array α) (s : σ) : Array β × σ :=
  xs.foldl (fun (ys, s) x => let (y, s) := f x s; (ys.push y, s)) (#[], s)

/-- The same on a list, by recursion on it. -/
def sweepList (f : α → σ → β × σ) : List α → σ → List β × σ
  | [], s => ([], s)
  | x :: xs, s =>
    let (y, s) := f x s
    let (ys, s) := sweepList f xs s
    (y :: ys, s)

theorem foldl_eq_sweepList (f : α → σ → β × σ) (xs : List α) (ys : Array β) (s : σ) :
    xs.foldl (fun (ys, s) x => let (y, s) := f x s; (ys.push y, s)) (ys, s) =
      (ys ++ (sweepList f xs s).1, (sweepList f xs s).2) := by
  induction xs generalizing ys s with
  | nil => simp [sweepList]
  | cons x xs ih => simp [sweepList, ih]

theorem sweep_eq (f : α → σ → β × σ) (xs : Array α) (s : σ) :
    sweep f xs s = ((sweepList f xs.toList s).1.toArray, (sweepList f xs.toList s).2) := by
  rw [sweep, ← Array.foldl_toList, foldl_eq_sweepList]
  simp

@[simp] theorem length_sweepList (f : α → σ → β × σ) (xs : List α) (s : σ) :
    (sweepList f xs s).1.length = xs.length := by
  induction xs generalizing s with
  | nil => rfl
  | cons x xs ih => simp [sweepList, ih]

@[simp] theorem size_sweep (f : α → σ → β × σ) (xs : Array α) (s : σ) :
    (sweep f xs s).1.size = xs.size := by
  simp [sweep_eq]

end VersionedMap
