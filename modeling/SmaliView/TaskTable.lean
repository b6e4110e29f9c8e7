import SmaliView.Table
import SmaliView.Update

/-!
# The task table

The table knows which task runs for a file and how the last one ended. Files are told apart as
*places*: by the components of their paths. At most one task runs for a place. `replace` hands back
the task that was displaced; `complete` and `abandon` retire a task only while it is still the one
of the given generation.
-/

namespace SmaliView

/-- What a path names, however it is written. -/
abbrev Place := List Component

/-- The place that a path names. -/
def Path.place (p : Path) : Place := p.components

/-- Work for a file that was started and has not ended. -/
structure Task where
  file : Path
  generation : Nat
deriving DecidableEq, Repr, Inhabited

/-- The running tasks, and how the last task of a place ended. -/
structure TaskTable where
  running : Table Place Task := {}
  settled : Table Place TaskState := {}
deriving Repr, Inhabited

namespace TaskTable

def current? (t : TaskTable) (file : Path) : Option Task :=
  t.running.get? file.place

/-- Register a task for its file, with the task it displaces. -/
def replace (t : TaskTable) (task : Task) : TaskTable × Option Task :=
  -- How an earlier task of the place ended is forgotten.
  ({ settled := t.settled.erase task.file.place
     running := t.running.put task.file.place task },
   t.current? task.file)

def remove (t : TaskTable) (file : Path) : TaskTable × Option Task :=
  ({ t with running := t.running.erase file.place }, t.current? file)

/-- Note how the work for a file ended. -/
def settle (t : TaskTable) (file : Path) (state : TaskState) : TaskTable :=
  { t with settled := t.settled.put file.place state }

/-- Remove the task that runs for a file, note it as cancelled and fire its token. The task whose
token fires is handed back. -/
def cancel (t : TaskTable) (file : Path) : TaskTable × Option Task :=
  match t.current? file with
  | some task => ((t.remove file).1.settle file .cancelled, some task)
  | none => (t, none)

/-- Whether the task that runs for a file has the given generation. -/
def isCurrent (t : TaskTable) (file : Path) (generation : Nat) : Bool :=
  (t.current? file).any (·.generation == generation)

/-- Remove the task that runs for a file and note how it ended, if it has the given generation. -/
def retire (t : TaskTable) (file : Path) (generation : Nat) (state : TaskState) :
    TaskTable × Bool :=
  if t.isCurrent file generation then ((t.remove file).1.settle file state, true) else (t, false)

def complete (t : TaskTable) (file : Path) (generation : Nat) : TaskTable × Bool :=
  t.retire file generation .completed

/-- Retire a task that has none. -/
def abandon (t : TaskTable) (file : Path) (generation : Nat) : TaskTable × Bool :=
  t.retire file generation .cancelled

/-- Forget how the last task of a file ended. -/
def forget (t : TaskTable) (file : Path) : TaskTable :=
  { t with settled := t.settled.erase file.place }

/-- What is known about the work for a file. -/
def state (t : TaskTable) (file : Path) : TaskState :=
  -- A task that runs hides how the last one ended.
  if t.running.contains file.place then .running else (t.settled.get? file.place).getD .idle

def inFlight (t : TaskTable) : Nat :=
  t.running.size

/-- Take all running tasks and forget everything. -/
def drain (t : TaskTable) : TaskTable × List Task :=
  ({}, t.running.values)

/-! ## Operations as values -/

/-- The operations that change a table. -/
inductive Operation where
  | replace (task : Task)
  | remove (file : Path)
  | cancel (file : Path)
  | complete (file : Path) (generation : Nat)
  | abandon (file : Path) (generation : Nat)
  | settle (file : Path) (state : TaskState)
  | forget (file : Path)
  | drain
deriving DecidableEq, Repr, Inhabited

def apply (t : TaskTable) : Operation → TaskTable
  | .replace task => (t.replace task).1
  | .remove file => (t.remove file).1
  | .cancel file => (t.cancel file).1
  | .complete file g => (t.complete file g).1
  | .abandon file g => (t.abandon file g).1
  | .settle file state => t.settle file state
  | .forget file => t.forget file
  | .drain => t.drain.1

/-- The tokens that an operation fires. A task that `replace`, `remove` or `drain` hands back is not
told: this is left to the caller. -/
def firing (t : TaskTable) : Operation → List Nat
  | .cancel file => (t.cancel file).2.toList.map Task.generation
  | _ => []

/-! ## The running tasks after an operation

Each equation says which task runs for any file after an operation on one: the place of that file is
affected, every other place is not. -/

theorem current?_replace (t : TaskTable) (task : Task) (file : Path) :
    (t.replace task).1.current? file =
      if file.place = task.file.place then some task else t.current? file :=
  Table.get?_put ..

theorem current?_remove (t : TaskTable) (file file' : Path) :
    (t.remove file).1.current? file' =
      if file'.place = file.place then none else t.current? file' :=
  Table.get?_erase ..

@[simp] theorem current?_settle (t : TaskTable) (file : Path) (state : TaskState) (file' : Path) :
    (t.settle file state).current? file' = t.current? file' := rfl

@[simp] theorem current?_forget (t : TaskTable) (file file' : Path) :
    (t.forget file).current? file' = t.current? file' := rfl

@[simp] theorem current?_drain (t : TaskTable) (file : Path) : t.drain.1.current? file = none := rfl

/-- Files of one place have one task. -/
theorem current?_congr (t : TaskTable) {file file' : Path} (h : file'.place = file.place) :
    t.current? file' = t.current? file := by
  unfold current?; rw [h]

theorem current?_cancel (t : TaskTable) (file file' : Path) :
    (t.cancel file).1.current? file' =
      if file'.place = file.place then none else t.current? file' := by
  unfold cancel
  cases h : t.current? file with
  | some task => exact current?_remove t file file'
  | none =>
    by_cases hp : file'.place = file.place
    · rw [if_pos hp]; exact (current?_congr t hp).trans h
    · rw [if_neg hp]

/-- Cancelling hands back the task that ran. -/
@[simp] theorem cancel_snd (t : TaskTable) (file : Path) :
    (t.cancel file).2 = t.current? file := by
  unfold cancel
  cases h : t.current? file <;> simp

theorem isCurrent_iff (t : TaskTable) (file : Path) (g : Nat) :
    t.isCurrent file g = true ↔ ∃ task, t.current? file = some task ∧ task.generation = g := by
  unfold isCurrent
  cases h : t.current? file <;> simp

/-- Retiring a task succeeds exactly while it is the one that runs. -/
@[simp] theorem retire_snd (t : TaskTable) (file : Path) (g : Nat) (state : TaskState) :
    (t.retire file g state).2 = t.isCurrent file g := by
  unfold retire; split <;> simp_all

theorem current?_retire (t : TaskTable) (file : Path) (g : Nat) (state : TaskState) (file' : Path) :
    (t.retire file g state).1.current? file' =
      if t.isCurrent file g ∧ file'.place = file.place then none else t.current? file' := by
  unfold retire
  by_cases h : t.isCurrent file g
  · simp [h, current?_remove]
  · simp [h]

/-- A task that was retired is not the one that runs. -/
theorem isCurrent_retire (t : TaskTable) (file : Path) (g : Nat) (state : TaskState) :
    (t.retire file g state).1.isCurrent file g = false := by
  unfold retire
  split
  · rw [isCurrent, current?_settle, current?_remove, if_pos rfl]
    rfl
  · next h => simpa using h

end TaskTable

end SmaliView
