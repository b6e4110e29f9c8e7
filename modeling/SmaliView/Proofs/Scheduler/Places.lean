import SmaliView.Proofs.Scheduler.Channel

/-!
# What a step does to one file

What is known about a file is its registered task, the note of how its last task ended, what the
cache holds for it and what the channel says about it. A section of a caller changes this for the
place of its own file, and a job for the place of its task; for every other place nothing changes
(`Step.unconcerned`).
-/

namespace SmaliView

namespace TaskTable

/-- How the last task of a file ended, if that was noted. -/
def noted? (t : TaskTable) (file : Path) : Option TaskState :=
  t.settled.get? file.place

variable (t : TaskTable) (file : Path) (file' : Path)

/-- A file runs while a task is registered; otherwise the note decides, and without one it is idle.
-/
theorem state_eq : t.state file =
    if (t.current? file).isSome then .running else (t.noted? file).getD .idle :=
  rfl

/-- While a task is registered, nothing is noted. -/
theorem Tidy.noted?_eq_none {t : TaskTable} {file : Path} (h : t.Tidy) {task : Task}
    (ht : t.current? file = some task) : t.noted? file = none := by
  have hrunning : t.running.get? file.place ≠ none := by
    rw [show t.running.get? file.place = some task from ht]
    exact Option.some_ne_none task
  exact (h.apart file.place).resolve_left hrunning

theorem noted?_settle (state : TaskState) :
    (t.settle file state).noted? file' =
      if file'.place = file.place then some state else t.noted? file' :=
  Table.get?_put ..

@[simp] theorem noted?_remove : (t.remove file).1.noted? file' = t.noted? file' := rfl

/-- Registering a task forgets how the last one ended. -/
theorem noted?_replace (task : Task) :
    (t.replace task).1.noted? file =
      if file.place = task.file.place then none else t.noted? file :=
  Table.get?_erase ..

theorem noted?_forget :
    (t.forget file).noted? file' = if file'.place = file.place then none else t.noted? file' :=
  Table.get?_erase ..

/-- Only a task that was removed is noted as cancelled. -/
theorem noted?_cancel :
    (t.cancel file).1.noted? file' =
      if (t.current? file).isSome ∧ file'.place = file.place then some .cancelled
      else t.noted? file' := by
  unfold cancel
  cases t.current? file with
  | none => simp
  | some task => simp [noted?_settle]

/-- Only a task that is the current one is noted when it is retired. -/
theorem noted?_retire (g : Nat) (state : TaskState) :
    (t.retire file g state).1.noted? file' =
      if t.isCurrent file g ∧ file'.place = file.place then some state else t.noted? file' := by
  unfold retire
  by_cases h : t.isCurrent file g
  · simp [h, noted?_settle]
  · simp [h]

end TaskTable

/-- What is known about a file. -/
structure Known where
  /-- The updates about it, first to last. -/
  told : List Update
  task : Option Task
  note : Option TaskState
  held : Option CacheEntry

namespace Scheduler

variable {s s' : Scheduler} {e : Event}

def known (s : Scheduler) (file : Path) : Known where
  told := s.about file
  task := s.tasks.current? file
  note := s.tasks.noted? file
  held := s.cache.held? file

/-! ## The sections of callers -/

section

variable (s : Scheduler) (g : Nat) (file : Path) (snapshot : Snapshot) (text : Option String)
variable (why : Explanation) (file' : Path)

/-- A request that is served notes so, and one that starts a job forgets how the last one ended. -/
theorem answered_noted? :
    (s.answered g file snapshot text).tasks.noted? file' =
      if file'.place = file.place then
        (s.cache.lookup? file snapshot).map fun _ => TaskState.completed
      else s.tasks.noted? file' := by
  rw [answered_tasks, accepted]
  cases s.cache.lookup? file snapshot with
  | some source => exact TaskTable.noted?_settle ..
  | none => exact TaskTable.noted?_replace ..

/-- An accepted request tells its answer, and registers a task or notes that it was served. -/
theorem known_answered :
    (s.answered g file snapshot text).known file' =
      if file'.place = file.place then
        { told := s.about file' ++ [s.reply g file snapshot]
          task := s.accepted g file snapshot
          note := (s.cache.lookup? file snapshot).map fun _ => TaskState.completed
          held := s.cache.held? file' }
      else s.known file' := by
  unfold known
  rw [about_append (answered_updates ..), reply_file, answered_current?, answered_noted?,
    answered_cache]
  simp only [eq_comm (a := file.place)]
  -- Each part is decided by the same comparison of places.
  split <;> rfl

/-- A request that breaks off takes the task and leaves all else as it was. -/
theorem known_aborted :
    (s.aborted g file).known file' =
      if file'.place = file.place then { s.known file' with task := none } else s.known file' := by
  unfold known
  rw [aborted_current?]
  split <;> rfl

/-- A failure that is delivered is told, takes the task and is noted as completed. -/
theorem known_failAs :
    (s.failAs g file why).known file' =
      if file'.place = file.place then
        { told := s.about file' ++ [.finished file g (.failed why)]
          task := none
          note := some .completed
          held := s.cache.held? file' }
      else s.known file' := by
  unfold known
  rw [about_append (failAs_updates ..), failAs_current?, failAs_cache, failAs_tasks,
    TaskTable.noted?_settle]
  simp only [Update.file, eq_comm (a := file.place)]
  split <;> rfl

/-- Cancelling a running task notes so and drops what is held. -/
theorem known_cancel :
    (s.cancel file).known file' =
      if file'.place = file.place then
        { told := s.about file' ++ [.dismissed file]
          task := none
          note := if s.isRunning file then some .cancelled else s.tasks.noted? file'
          held := if s.isRunning file then none else s.cache.held? file' }
      else s.known file' := by
  unfold known
  rw [about_append (cancel_updates ..), cancel_current?, cancel_tasks, TaskTable.noted?_cancel,
    cancel_cache]
  simp only [Update.file, eq_comm (a := file.place), ← isRunning.eq_def]
  -- The note and the cache change only where a task runs, the rest only by the place.
  by_cases hr : s.isRunning file <;> by_cases hp : file'.place = file.place <;>
    simp [hr, hp, Cache.held?_drop]

/-- Dropping what is cached changes nothing else. -/
theorem known_dropCached :
    (s.dropCached file).known file' =
      if file'.place = file.place then { s.known file' with held := none } else s.known file' := by
  unfold known
  rw [show (s.dropCached file).cache.held? file' = _ from Cache.held?_drop ..]
  split <;> rfl

/-- Forgetting takes the note alone. -/
theorem known_forget :
    (s.forget file).known file' =
      if file'.place = file.place then { s.known file' with note := none } else s.known file' := by
  unfold known
  rw [show (s.forget file).tasks.noted? file' = _ from TaskTable.noted?_forget ..]
  split <;> rfl

end

/-! ## The steps of jobs -/

/-- What is known about a file when the task of another was retired with what the cache keeps and
the channel is told. -/
theorem known_retire (s : Scheduler) (jobs : List Job) (cache : Cache) (updates : List Update)
    (done : Path) (g : Nat) (state : TaskState) (file : Path) :
    ({ s with tasks := (s.tasks.retire done g state).1, jobs, cache, updates } : Scheduler).known
        file =
      { told := updates.filter (·.file.same file)
        task := if s.tasks.isCurrent done g ∧ file.place = done.place then none
          else s.tasks.current? file
        note := if s.tasks.isCurrent done g ∧ file.place = done.place then some state
          else s.tasks.noted? file
        held := cache.held? file } := by
  rw [← TaskTable.current?_retire, ← TaskTable.noted?_retire]
  rfl

/-- A job that is refused retires its task, if that is still registered. -/
theorem known_refuse (s : Scheduler) (job : Job) (g : Nat) (file : Path) :
    ({ s with tasks := (s.tasks.abandon job.task.file g).1 }.endJob g).known file =
      if s.tasks.isCurrent job.task.file g ∧ file.place = job.task.file.place then
        { s.known file with task := none, note := some .cancelled }
      else s.known file := by
  refine (known_retire s _ s.cache s.updates job.task.file g .cancelled file).trans ?_
  split <;> rfl

/-- What the cache holds for the file of a job that has come to an outcome. -/
def keptFor (held : Option CacheEntry) (job : Job) : Outcome → Option CacheEntry
  | .success source => some ⟨job.snapshot, source⟩
  | _ => held

/-- Only a success is kept, and only for the place of the job. -/
theorem held?_keep (c : Cache) (job : Job) (o : Outcome) (file : Path) :
    (keep c job o).held? file =
      if file.place = job.task.file.place then keptFor (c.held? file) job o else c.held? file := by
  cases o with
  | success source => exact Cache.held?_store ..
  | _ => exact (ite_self _).symm

/-- A job that completes its task tells and stores its outcome. -/
theorem known_tell (s : Scheduler) (job : Job) {g : Nat} (o : Outcome) (file : Path)
    (hc : s.tasks.isCurrent job.task.file g = true) :
    (({ s with
        tasks := (s.tasks.complete job.task.file g).1
        cache := keep s.cache job o }.emit (.finished job.task.file g o)).endJob g).known file =
      if file.place = job.task.file.place then
        { told := s.about file ++ [.finished job.task.file g o]
          task := none
          note := some .completed
          held := keptFor (s.cache.held? file) job o }
      else s.known file := by
  -- Telling appends one update, which is about the place of the job.
  have htold : (s.updates ++ [Update.finished job.task.file g o]).filter (·.file.same file) =
      if job.task.file.place = file.place then s.about file ++ [.finished job.task.file g o]
      else s.about file :=
    @about_append s (s.emit (.finished job.task.file g o)) _ rfl file
  refine (known_retire s (s.endJob g).jobs (keep s.cache job o)
    (s.updates ++ [.finished job.task.file g o]) job.task.file g .completed file).trans ?_
  rw [htold, held?_keep]
  simp only [hc, true_and, eq_comm (a := job.task.file.place)]
  split <;> rfl

/-! ## Steps that concern another file -/

/-- A step is about the place of a file: a section of a caller for it, a step of one of its jobs, or
taking all tasks. -/
def Event.Concerns (s : Scheduler) (file : Path) : Event → Prop
  | .request _ file' _ _ | .abort _ file' _ _ | .fail _ file' _ => file'.place = file.place
  | .cancel file' | .dropCached file' | .forget file' => file'.place = file.place
  | .drain => True
  | .leave g | .refuse g | .acquire g | .signal g | .resolve g _ | .check g | .finish g =>
    ∃ job, s.job? g = some job ∧ job.task.file.place = file.place
  | .draw | .close | .dismiss _ => False

/-- A step that is not about a file changes nothing that is known about it. -/
theorem Step.unconcerned (step : Step s e s') {file : Path} (h : ¬ e.Concerns s file) :
    s'.known file = s.known file := by
  cases step with
  -- Every section leaves other places alone, and a job has the place of its task.
  | request file' snapshot text hg =>
    exact (known_answered ..).trans (if_neg fun hp => h hp.symm)
  | abort file' snapshot text hg => exact (known_aborted ..).trans (if_neg fun hp => h hp.symm)
  | fail file' why hg => exact (known_failAs ..).trans (if_neg fun hp => h hp.symm)
  | cancel file' => exact (known_cancel ..).trans (if_neg fun hp => h hp.symm)
  | dropCached file' => exact (known_dropCached ..).trans (if_neg fun hp => h hp.symm)
  | forget file' => exact (known_forget ..).trans (if_neg fun hp => h hp.symm)
  | drain => exact absurd trivial h
  | refuse hj hphase hc =>
    exact (known_refuse ..).trans (if_neg fun hp => h ⟨_, hj, hp.2.symm⟩)
  | tell hj hphase hc =>
    exact (known_tell _ _ _ _ hc).trans (if_neg fun hp => h ⟨_, hj, hp.symm⟩)
  | _ => rfl

end Scheduler

end SmaliView
