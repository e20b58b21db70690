/-!
# Walks that see nothing twice

A walk through finitely many places that remembers the places it has seen ends
because the number of places left falls with every new one.
-/

namespace VisualQuery

variable {α : Type} [DecidableEq α]

/-- How many entries of a list of places a walk has not seen. -/
def unvisited (seen places : List α) : Nat :=
  places.countP fun place => place ∉ seen

theorem unvisited_cons
    (seen : List α)
    (head : α)
    (tail : List α) :
    unvisited seen (head :: tail) = unvisited seen tail + if head ∉ seen then 1 else 0 := by
  simp [unvisited, List.countP_cons]

/-- Seeing more leaves no more to see. -/
theorem unvisited_cons_le
    (place : α)
    (seen places : List α) :
    unvisited (place :: seen) places ≤ unvisited seen places := by
  apply List.countP_mono_left
  intro other _ outside
  simp only [List.mem_cons, not_or, decide_eq_true_eq] at outside ⊢
  exact outside.2

/-- Seeing a place for the first time leaves fewer to see. -/
theorem unvisited_cons_lt
    {place : α}
    {seen places : List α}
    (member : place ∈ places)
    (fresh : place ∉ seen) :
    unvisited (place :: seen) places < unvisited seen places := by
  induction places with
  | nil => simp at member
  | cons head tail inductionHypothesis =>
      rw [unvisited_cons, unvisited_cons]
      have bound := unvisited_cons_le place seen tail
      rcases List.mem_cons.1 member with same | later
      · subst same
        rw [if_neg (by simp), if_pos fresh]
        omega
      · have smaller := inductionHypothesis later
        by_cases outside : head ∈ seen
        · rw [if_neg (by simp [outside]), if_neg (by simp [outside])]
          omega
        · rw [if_pos outside]
          split <;> omega

end VisualQuery
