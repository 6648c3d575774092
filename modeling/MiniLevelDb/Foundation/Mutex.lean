import Mathlib.Logic.Function.Basic

/-!
# Mutual exclusion

A mutex is free or held by one thread. What the threads do is only seen here as
whether each of them is inside of a region that the mutex guards.
-/

namespace Foundation

variable {Thread : Type} {mutex : Option Thread} {inside : Thread → Bool} {thread : Thread}

/-- The thread that holds the mutex is inside, and no other one is. -/
def Guards (mutex : Option Thread) (inside : Thread → Bool) : Prop :=
  ∀ thread, inside thread = true ↔ mutex = some thread

namespace Guards

theorem outside (guards : Guards none inside) (thread : Thread) : inside thread = false := by
  rw [← Bool.not_eq_true, guards thread]
  exact (Option.some_ne_none thread).symm

/-- Two threads are not inside at the same time. -/
theorem exclusive (guards : Guards mutex inside) {other : Thread}
    (first : inside thread = true) (second : inside other = true) : other = thread := by
  rw [guards] at first second
  exact Option.some.inj (second.symm.trans first)

variable [DecidableEq Thread]

/-- A step inside or outside of the region. -/
theorem keep (guards : Guards mutex inside) {after : Bool} (same : after = inside thread) :
    Guards mutex (Function.update inside thread after) := by
  rw [same, Function.update_eq_self]
  exact guards

theorem lock (guards : Guards none inside) (thread : Thread) :
    Guards (some thread) (Function.update inside thread true) := by
  intro other
  by_cases same : other = thread
  · subst same
    simp only [Function.update_self]
  · simp only [Function.update_of_ne same, guards.outside other, Option.some.injEq,
      Bool.false_eq_true, Ne.symm same]

theorem unlock (guards : Guards mutex inside) (held : inside thread = true) :
    Guards none (Function.update inside thread false) := by
  intro other
  by_cases same : other = thread
  · subst same
    simp only [Function.update_self, reduceCtorEq]
  · have left : inside other = false := by
      rw [← Bool.not_eq_true]
      exact fun also => same (guards.exclusive held also)
    simp only [Function.update_of_ne same, left, Bool.false_eq_true, reduceCtorEq]

end Guards

end Foundation
