import SmaliView.Proofs.Scheduler.Runs

/-!
# The task table in a run

The scheduler keeps its task table `Tidy`: every task stands once and under its own place, and what
is noted of a place that has no task is how its last one ended. So the tasks that the table counts
are the registered ones, and a state is `running` exactly while there is one.
-/

namespace SmaliView

namespace TaskTable

/-- What every operation keeps true of the task table. -/
structure Filed (t : TaskTable) : Prop where
  distinct : t.running.Distinct
  filed : ∀ place task, t.running.get? place = some task → task.file.place = place

/-- What the operations of the scheduler keep true of the task table. -/
structure Tidy (t : TaskTable) : Prop extends Filed t where
  ended : ∀ place state, t.settled.get? place = some state →
    state = .completed ∨ state = .cancelled
  apart : ∀ place, t.running.get? place = none ∨ t.settled.get? place = none

variable {t : TaskTable} {file : Path} {state : TaskState}

/-! ## Every task under its own place -/

theorem Filed.empty : Filed {} where
  distinct := Table.distinct_empty
  filed place task h := by cases h

/-- Removing a task leaves the others under their places. -/
theorem Filed.remove (h : t.Filed) (file : Path) : (t.remove file).1.Filed where
  distinct := h.distinct.erase _
  filed place task ht := by
    have ht : (t.running.erase file.place).get? place = some task := ht
    rw [Table.get?_erase] at ht
    exact h.filed place task (Option.ite_none_left_eq_some.mp ht).2

/-- A task that is registered stands under its own place, and no other one does. -/
theorem Filed.replace (h : t.Filed) (task : Task) : (t.replace task).1.Filed where
  distinct := h.distinct.put _ _
  filed place task' ht := by
    have ht : (t.running.put task.file.place task).get? place = some task' := ht
    rw [Table.get?_put] at ht
    split at ht
    · next hp => cases ht; exact hp.symm
    · exact h.filed place task' ht

/-- The tasks that are counted are the registered ones. -/
theorem Filed.mem_values_iff (h : t.Filed) {task : Task} :
    task ∈ t.running.values ↔ t.current? task.file = some task := by
  rw [h.distinct.mem_values_iff]
  constructor
  · rintro ⟨place, ht⟩
    rw [current?, h.filed place task ht]
    exact ht
  · exact fun ht => ⟨_, ht⟩

/-! ## How the work for a file ended -/

theorem Tidy.empty : Tidy {} where
  toFiled := .empty
  ended place state h := by cases h
  apart _ := Or.inl rfl

/-- Removing a task keeps the table tidy, since it notes nothing. -/
theorem Tidy.remove (h : t.Tidy) (file : Path) : (t.remove file).1.Tidy where
  toFiled := h.toFiled.remove file
  ended := h.ended
  apart place := by
    show (t.running.erase file.place).get? place = none ∨ t.settled.get? place = none
    -- Removing only takes, so whichever side was empty stays so.
    rw [Table.get?_erase]
    rcases h.apart place with hr | hs
    · exact Or.inl (by rw [hr, ite_self])
    · exact Or.inr hs

/-- How the work for a file ended is noted once it has no task. -/
theorem Tidy.settle (h : t.Tidy) (hfree : t.current? file = none)
    (hstate : state = .completed ∨ state = .cancelled) : (t.settle file state).Tidy where
  distinct := h.distinct
  filed := h.filed
  ended place state' hs := by
    have hs : (t.settled.put file.place state).get? place = some state' := hs
    rw [Table.get?_put] at hs
    split at hs
    · cases hs; exact hstate
    · exact h.ended place state' hs
  apart place := by
    show t.running.get? place = none ∨ (t.settled.put file.place state).get? place = none
    rw [Table.get?_put]
    -- The place that is noted has no task, and of all others nothing new is noted.
    by_cases hp : place = file.place
    · exact Or.inl (hp ▸ hfree)
    · rw [if_neg hp]; exact h.apart place

theorem current?_remove_self (t : TaskTable) (file : Path) :
    (t.remove file).1.current? file = none := by
  rw [current?_remove, if_pos rfl]

/-- Registering a task takes the note of its place away. -/
theorem Tidy.replace (h : t.Tidy) (task : Task) : (t.replace task).1.Tidy where
  toFiled := h.toFiled.replace task
  ended place state hs := by
    have hs : (t.settled.erase task.file.place).get? place = some state := hs
    rw [Table.get?_erase] at hs
    exact h.ended place state (Option.ite_none_left_eq_some.mp hs).2
  apart place := by
    show (t.running.put task.file.place task).get? place = none ∨
      (t.settled.erase task.file.place).get? place = none
    rw [Table.get?_put, Table.get?_erase]
    -- What was noted of the place of the new task is forgotten.
    by_cases hp : place = task.file.place
    · exact Or.inr (if_pos hp)
    · rw [if_neg hp, if_neg hp]; exact h.apart place

/-- What is cancelled is noted only where its task was removed. -/
theorem Tidy.cancel (h : t.Tidy) (file : Path) : (t.cancel file).1.Tidy := by
  -- It notes how the task ended only after it has removed it.
  unfold TaskTable.cancel
  split
  · exact (h.remove file).settle (current?_remove_self t file) (Or.inr rfl)
  · exact h

/-- A task that ends is noted where it was registered. -/
theorem Tidy.retire (h : t.Tidy) (file : Path) (g : Nat)
    (hstate : state = .completed ∨ state = .cancelled) : (t.retire file g state).1.Tidy := by
  unfold TaskTable.retire
  split
  · exact (h.remove file).settle (current?_remove_self t file) hstate
  · exact h

theorem Tidy.forget (h : t.Tidy) (file : Path) : (t.forget file).Tidy where
  distinct := h.distinct
  filed := h.filed
  ended place state hs := by
    have hs : (t.settled.erase file.place).get? place = some state := hs
    rw [Table.get?_erase] at hs
    exact h.ended place state (Option.ite_none_left_eq_some.mp hs).2
  apart place := by
    show t.running.get? place = none ∨ (t.settled.erase file.place).get? place = none
    rw [Table.get?_erase]
    rcases h.apart place with hr | hs
    · exact Or.inl hr
    · exact Or.inr (by rw [hs, ite_self])

/-- A file is running exactly while a task is registered for it. -/
theorem Tidy.state_eq_running_iff (h : t.Tidy) :
    t.state file = .running ↔ ∃ task, t.current? file = some task := by
  unfold TaskTable.state Table.contains current?
  cases ht : t.running.get? file.place with
  | some task => simp
  | none =>
    cases hs : t.settled.get? file.place with
    | none => simp
    -- What is noted is never that the file is running.
    | some state =>
      rcases h.ended _ state hs with rfl | rfl <;> simp

end TaskTable

namespace Scheduler

variable {n : Nat} {j : Journal} {es : List Event} {s s' : Scheduler} {e : Event}

/-- Every step keeps the task table tidy. -/
theorem Step.tidy (step : Step s e s') (h : s.tasks.Tidy) : s'.tasks.Tidy := by
  cases step with
  | @request g file snapshot text hg =>
    rw [answered_tasks]
    -- Both ways remove the old task first. Then a task is registered in its place, or it is noted
    -- that the work was completed.
    split
    · exact (h.remove file).replace _
    · exact (h.remove file).settle (TaskTable.current?_remove_self ..) (Or.inl rfl)
  | abort file => exact h.remove file
  | fail file why hg =>
    rw [failAs_tasks]
    exact (h.remove file).settle (TaskTable.current?_remove_self ..) (Or.inl rfl)
  | cancel file => rw [cancel_tasks]; exact h.cancel file
  | forget file => exact h.forget file
  | drain => exact .empty
  | refuse hj hp hc => exact h.retire _ _ (Or.inr rfl)
  | tell hj hp hc => exact h.retire _ _ (Or.inl rfl)
  | _ => exact h

/-- Every run keeps the task table tidy. -/
theorem Run.tidy (run : Run n j es s) : s.tasks.Tidy := by
  induction run with
  | start => exact .empty
  | next run step ih => exact (step_of_eq_some step).tidy ih

end Scheduler

end SmaliView
