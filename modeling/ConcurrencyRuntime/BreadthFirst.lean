import Mathlib

/-!
# Breadth-first order of a forest

A queue of trees is served from the front; serving a tree puts its children at
the back. Serving the whole queue as one round, with all the children in the
next, visits the trees in the same order.
-/

namespace ConcurrencyRuntime.BreadthFirst

/-- A tree with a label and finitely many children. -/
inductive TaskTree (α : Type*) where
  | node (label : α) (children : List (TaskTree α))

variable {α : Type*}

/-- The label of the root. -/
def TaskTree.label : TaskTree α → α
  | .node a _ => a

/-- The trees below the root. -/
def TaskTree.children : TaskTree α → List (TaskTree α)
  | .node _ cs => cs

mutual

/-- The number of labels in a tree. -/
def TaskTree.size : TaskTree α → ℕ
  | .node _ cs => 1 + sizes cs

/-- The number of labels in a forest. -/
def sizes : List (TaskTree α) → ℕ
  | [] => 0
  | t :: ts => t.size + sizes ts

end

@[simp]
theorem sizes_nil : sizes ([] : List (TaskTree α)) = 0 := by
  rw [sizes]

@[simp]
theorem sizes_cons (t : TaskTree α) (ts : List (TaskTree α)) :
    sizes (t :: ts) = 1 + sizes t.children + sizes ts := by
  obtain ⟨a,cs⟩ := t
  rw [sizes,TaskTree.size,TaskTree.children]

@[simp]
theorem sizes_append (q r : List (TaskTree α)) : sizes (q ++ r) = sizes q + sizes r := by
  induction q with
  | nil => simp
  | cons t ts ih =>
    rw [List.cons_append,sizes_cons,sizes_cons,ih]
    omega

/-- The labels in the order in which the queue is served. -/
def order : List (TaskTree α) → List α
  | [] => []
  | t :: rest => t.label :: order (rest ++ t.children)
termination_by q => sizes q
decreasing_by
  rw [sizes_append,sizes_cons]
  omega

/-- The next round: the children of all trees of the queue. -/
def nextRound (q : List (TaskTree α)) : List (TaskTree α) := q.flatMap TaskTree.children

/-- The front of the queue is served first, its children behind all the rest. -/
theorem order_append (q r : List (TaskTree α)) :
    order (q ++ r) = q.map TaskTree.label ++ order (r ++ nextRound q) := by
  induction q generalizing r with
  | nil => simp [nextRound]
  | cons t ts ih =>
    rw [List.cons_append,order,List.append_assoc,ih]
    simp [nextRound]

/-- Round by round. -/
theorem order_round (q : List (TaskTree α)) :
    order q = q.map TaskTree.label ++ order (nextRound q) := by
  have h := order_append q []
  rwa [List.append_nil,List.nil_append] at h

/-- A round serves one label for each tree of the queue. -/
theorem sizes_nextRound (q : List (TaskTree α)) : sizes (nextRound q) + q.length = sizes q := by
  induction q with
  | nil => simp [nextRound]
  | cons t ts ih =>
    have hround : nextRound (t :: ts) = t.children ++ nextRound ts := rfl
    rw [hround,sizes_append,sizes_cons,List.length_cons]
    omega

end ConcurrencyRuntime.BreadthFirst
