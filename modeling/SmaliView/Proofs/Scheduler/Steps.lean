import SmaliView.Scheduler
import Mathlib.Data.Option.Basic

/-!
# What the steps of the scheduler do

One equation for every part of the state that a section of a caller changes, and one inversion for
every step of a job: it says under which conditions the step happens and what state comes out. All
that is proved about runs is proved from these and opens no section again.
-/

namespace SmaliView

namespace Scheduler

/-! ## Parts of steps -/

theorem fireTask_eq (s : Scheduler) (t : Option Task) :
    s.fireTask t = { s with fired := t.toList.map Task.generation ++ s.fired } := by cases t <;> rfl

/-! ## Requests

A request that is accepted ends in one of two ways, which the cache decides; one that is refused
breaks off. `requestAs_eq` says once what becomes of the state; the equations after it read off one
part each. -/

/-- What a request breaks off with. One that the cache answers starts no job and records nothing. -/
def refusal? (s : Scheduler) (file : Path) (snapshot : Snapshot) : Option String :=
  match s.cache.lookup? file snapshot with
  | some _ => none
  | none => s.journal.fault? snapshot

/-- A request is refused exactly if the cache cannot answer it and recording it breaks off. -/
theorem refusal?_eq_some_iff {s : Scheduler} {file : Path} {snapshot : Snapshot}
    {message : String} :
    s.refusal? file snapshot = some message ↔
      s.cache.lookup? file snapshot = none ∧ s.journal.fault? snapshot = some message := by
  unfold refusal?
  cases s.cache.lookup? file snapshot <;> simp

/-- What an accepted request tells at once. -/
def reply (s : Scheduler) (g : Nat) (file : Path) (snapshot : Snapshot) : Update :=
  match s.cache.lookup? file snapshot with
  | some source => .finished file g (.success source)
  | none => .loading file g

variable (s : Scheduler) (g : Nat) (file : Path) (snapshot : Snapshot) (text : Option String)

/-- The job that an accepted request starts, if it starts one. -/
def started : List Job :=
  match s.cache.lookup? file snapshot with
  | some _ => []
  | none => [{ task := ⟨file, g⟩, snapshot, text }]

/-- The task that an accepted request registers, if it registers one. -/
def accepted : Option Task :=
  match s.cache.lookup? file snapshot with
  | some _ => none
  | none => some ⟨file, g⟩

/-- The state after an accepted request. -/
def answered : Scheduler :=
  { s with
    drawn := s.drawn.erase g
    tasks := match s.accepted g file snapshot with
      | some task => ((s.tasks.remove file).1.replace task).1
      | none => (s.tasks.remove file).1.settle file .completed
    fired := (s.tasks.current? file).toList.map Task.generation ++ s.fired
    jobs := s.jobs ++ s.started g file snapshot text
    updates := s.updates ++ [s.reply g file snapshot] }

/-- The state after a request that is refused: the running task is gone, and nothing is told. -/
def aborted : Scheduler :=
  { s with
    drawn := s.drawn.erase g
    tasks := (s.tasks.remove file).1
    fired := (s.tasks.current? file).toList.map Task.generation ++ s.fired }

@[simp] theorem reply_file : (s.reply g file snapshot).file = file := by
  unfold reply; split <;> rfl

@[simp] theorem reply_generation? : (s.reply g file snapshot).generation? = some g := by
  unfold reply; split <;> rfl

/-- A new job is registered, and what it displaces is cancelled. -/
theorem spawn_eq :
    s.spawn g file snapshot text = { s with
      tasks := (s.tasks.replace ⟨file, g⟩).1
      fired := (s.tasks.current? file).toList.map Task.generation ++ s.fired
      jobs := s.jobs ++ [{ task := ⟨file, g⟩, snapshot, text }] } := by
  simp only [spawn, fireTask_eq]
  rfl

/-- The three ends of a request: it is served, it starts a job, or it breaks off. -/
theorem requestAs_eq :
    s.requestAs g file snapshot text =
      match s.refusal? file snapshot with
      | some message => (s.aborted g file, .error message)
      | none => (s.answered g file snapshot text, .ok ⟨file, g⟩) := by
  -- When a request registers its task, there is none left to displace.
  have hremoved : (s.tasks.remove file).1.current? file = none := by
    rw [TaskTable.current?_remove, if_pos rfl]
  simp only [requestAs, supersede, fireTask_eq, use, refusal?, answered, aborted, accepted, started,
    reply]
  cases s.cache.lookup? file snapshot with
  | some source =>
    simp only [emit, List.append_nil]
    rfl
  | none =>
    cases s.journal.fault? snapshot with
    | some message => rfl
    | none =>
      simp only [emit, spawn_eq, hremoved]
      rfl

theorem answered_drawn : (s.answered g file snapshot text).drawn = s.drawn.erase g := rfl

theorem answered_counter : (s.answered g file snapshot text).counter = s.counter := rfl

theorem answered_cache : (s.answered g file snapshot text).cache = s.cache := rfl

theorem answered_updates :
    (s.answered g file snapshot text).updates = s.updates ++ [s.reply g file snapshot] := rfl

theorem answered_jobs :
    (s.answered g file snapshot text).jobs = s.jobs ++ s.started g file snapshot text := rfl

theorem answered_tasks :
    (s.answered g file snapshot text).tasks =
      match s.accepted g file snapshot with
      | some task => ((s.tasks.remove file).1.replace task).1
      | none => (s.tasks.remove file).1.settle file .completed := rfl

/-- After a request its file has the task of the request or none. -/
theorem answered_current? (file' : Path) :
    (s.answered g file snapshot text).tasks.current? file' =
      if file'.place = file.place then s.accepted g file snapshot
      else s.tasks.current? file' := by
  rw [answered_tasks]
  unfold accepted
  -- A served request leaves the place free; any other takes it.
  cases s.cache.lookup? file snapshot with
  | some source => simp [TaskTable.current?_remove]
  | none =>
    by_cases h : file'.place = file.place <;>
      simp [TaskTable.current?_replace, TaskTable.current?_remove, h]

theorem answered_drained : (s.answered g file snapshot text).drained = s.drained := rfl

theorem answered_closed : (s.answered g file snapshot text).closed = s.closed := rfl

theorem answered_fired :
    (s.answered g file snapshot text).fired =
      (s.tasks.current? file).toList.map Task.generation ++ s.fired := rfl

theorem aborted_fired :
    (s.aborted g file).fired = (s.tasks.current? file).toList.map Task.generation ++ s.fired := rfl

theorem aborted_current? (file' : Path) :
    (s.aborted g file).tasks.current? file' =
      if file'.place = file.place then none else s.tasks.current? file' :=
  TaskTable.current?_remove ..

variable (why : Explanation)

/-- What delivering a failure does to the state. -/
theorem failAs_eq :
    s.failAs g file why = { s with
      drawn := s.drawn.erase g
      tasks := (s.tasks.remove file).1.settle file .completed
      fired := (s.tasks.current? file).toList.map Task.generation ++ s.fired
      updates := s.updates ++ [.finished file g (.failed why)] } := by
  simp only [failAs, supersede, fireTask_eq, use, emit]
  rfl

theorem failAs_drawn : (s.failAs g file why).drawn = s.drawn.erase g := by rw [failAs_eq]

theorem failAs_permits : (s.failAs g file why).permits = s.permits := by rw [failAs_eq]

theorem failAs_counter : (s.failAs g file why).counter = s.counter := by rw [failAs_eq]

theorem failAs_cache : (s.failAs g file why).cache = s.cache := by rw [failAs_eq]

theorem failAs_updates :
    (s.failAs g file why).updates = s.updates ++ [.finished file g (.failed why)] := by
  rw [failAs_eq]

theorem failAs_jobs : (s.failAs g file why).jobs = s.jobs := by rw [failAs_eq]

theorem failAs_tasks :
    (s.failAs g file why).tasks = (s.tasks.remove file).1.settle file .completed := by
  rw [failAs_eq]

/-- After a failure was delivered its file has no task. -/
theorem failAs_current? (file' : Path) :
    (s.failAs g file why).tasks.current? file' =
      if file'.place = file.place then none else s.tasks.current? file' := by
  rw [failAs_tasks, TaskTable.current?_settle, TaskTable.current?_remove]

theorem failAs_drained : (s.failAs g file why).drained = s.drained := by rw [failAs_eq]

theorem failAs_closed : (s.failAs g file why).closed = s.closed := by rw [failAs_eq]

theorem failAs_fired :
    (s.failAs g file why).fired =
      (s.tasks.current? file).toList.map Task.generation ++ s.fired := by
  rw [failAs_eq]

/-! ## Cancelling -/

/-- What cancelling does to the state. -/
theorem cancel_eq :
    s.cancel file = { s with
      tasks := (s.tasks.cancel file).1
      cache := if s.isRunning file then s.cache.drop file else s.cache
      fired := (s.tasks.current? file).toList.map Task.generation ++ s.fired
      updates := s.updates ++ [.dismissed file] } := by
  simp only [cancel, fireTask_eq, TaskTable.cancel_snd]
  rfl

theorem cancel_drawn : (s.cancel file).drawn = s.drawn := by rw [cancel_eq]

theorem cancel_permits : (s.cancel file).permits = s.permits := by rw [cancel_eq]

theorem cancel_counter : (s.cancel file).counter = s.counter := by rw [cancel_eq]

theorem cancel_cache :
    (s.cancel file).cache = if s.isRunning file then s.cache.drop file else s.cache := by
  rw [cancel_eq]

theorem cancel_updates : (s.cancel file).updates = s.updates ++ [.dismissed file] := by
  rw [cancel_eq]

theorem cancel_jobs : (s.cancel file).jobs = s.jobs := by rw [cancel_eq]

theorem cancel_tasks : (s.cancel file).tasks = (s.tasks.cancel file).1 := by rw [cancel_eq]

/-- After it was cancelled a file has no task. -/
theorem cancel_current? (file' : Path) :
    (s.cancel file).tasks.current? file' =
      if file'.place = file.place then none else s.tasks.current? file' := by
  rw [cancel_tasks, TaskTable.current?_cancel]

theorem cancel_drained : (s.cancel file).drained = s.drained := by rw [cancel_eq]

theorem cancel_closed : (s.cancel file).closed = s.closed := by rw [cancel_eq]

theorem cancel_fired :
    (s.cancel file).fired = (s.tasks.current? file).toList.map Task.generation ++ s.fired := by
  rw [cancel_eq]

/-! ## The steps of jobs -/

variable {s : Scheduler} {g : Nat}

/-- The job of a generation is one of the jobs and has that generation. -/
theorem job?_eq_some {job : Job} (h : s.job? g = some job) :
    job ∈ s.jobs ∧ job.task.generation = g :=
  ⟨List.mem_of_find?_eq_some h, by simpa using List.find?_some h⟩

/-- A job in the next phase is a job of before with all but its phase. -/
theorem mem_setPhase_jobs {phase : Phase} {job : Job} (h : job ∈ (s.setPhase g phase).jobs) :
    ∃ old ∈ s.jobs, job = { old with phase := job.phase } ∧
      (job = old ∨ old.task.generation = g ∧ job.phase = phase) := by
  obtain ⟨old, hold, rfl⟩ := List.mem_map.mp h
  refine ⟨old, hold, ?_⟩
  -- The job of the generation is moved, and all others stay.
  by_cases hg : old.task.generation = g <;> simp [hg]

/-- The jobs that are left when one has ended. -/
theorem mem_endJob {job : Job} :
    job ∈ (s.endJob g).jobs ↔ job ∈ s.jobs ∧ job.task.generation ≠ g := by
  simp [endJob]

variable {s' : Scheduler}

/-! ## All steps

`Step` says once what every event can do. The summaries after it tell what any step does to one part
of the state, whichever event it is. -/

/-- A step from a state, with the conditions under which it happens. -/
inductive Step (s : Scheduler) : Event → Scheduler → Prop where
  | draw : Step s .draw s.draw.1
  | request {g : Nat} (file : Path) (snapshot : Snapshot) (text : Option String)
      (hg : g ∈ s.drawn) (hm : s.refusal? file snapshot = none) :
      Step s (.request g file snapshot text) (s.answered g file snapshot text)
  | abort {g : Nat} (file : Path) (snapshot : Snapshot) (text : Option String)
      (hg : g ∈ s.drawn) {message : String} (hm : s.refusal? file snapshot = some message) :
      Step s (.abort g file snapshot text) (s.aborted g file)
  | fail {g : Nat} (file : Path) (why : Explanation) (hg : g ∈ s.drawn) :
      Step s (.fail g file why) (s.failAs g file why)
  | cancel (file : Path) : Step s (.cancel file) (s.cancel file)
  | dropCached (file : Path) : Step s (.dropCached file) (s.dropCached file)
  | forget (file : Path) : Step s (.forget file) (s.forget file)
  | drain : Step s .drain s.drain
  | close : Step s .close s.close
  | dismiss {task : Task} (ht : task ∈ s.drained) : Step s (.dismiss task) (s.dismiss task)
  | leave {g : Nat} {job : Job} (hj : s.job? g = some job) (hp : job.phase = .queued)
      (hf : g ∈ s.fired) : Step s (.leave g) (s.endJob g)
  | refuse {g : Nat} {job : Job} (hj : s.job? g = some job) (hp : job.phase = .queued)
      (hc : s.closed) :
      Step s (.refuse g) ({ s with tasks := (s.tasks.abandon job.task.file g).1 }.endJob g)
  | acquire {g : Nat} {job : Job} (hj : s.job? g = some job) (hp : job.phase = .queued)
      (hc : !s.closed) (hn : s.resolving.length < s.permits) :
      Step s (.acquire g) (s.setPhase g .resolving)
  | signal {g : Nat} {job : Job} (hj : s.job? g = some job) (hp : job.phase = .resolving) :
      Step s (.signal g) (s.fire g)
  | resolve {g : Nat} {job : Job} (r : Resolution) (hj : s.job? g = some job)
      (hp : job.phase = .resolving) : Step s (.resolve g r) (s.setPhase g (.resolved r))
  | drop {g : Nat} {job : Job} {r : Resolution} (hj : s.job? g = some job)
      (hp : job.phase = .resolved r)
      (hf : (r.toOutcome job.task.file).isCancelled ∨ g ∈ s.fired) :
      Step s (.check g) (s.endJob g)
  | pass {g : Nat} {job : Job} {r : Resolution} (hj : s.job? g = some job)
      (hp : job.phase = .resolved r)
      (ho : (r.toOutcome job.task.file).isCancelled = false) (hf : g ∉ s.fired) :
      Step s (.check g) (s.setPhase g (.checked (r.toOutcome job.task.file)))
  | tell {g : Nat} {job : Job} {o : Outcome} (hj : s.job? g = some job)
      (hp : job.phase = .checked o) (hc : s.tasks.isCurrent job.task.file g = true) :
      Step s (.finish g) (({ s with
        tasks := (s.tasks.complete job.task.file g).1
        cache := keep s.cache job o }.emit (.finished job.task.file g o)).endJob g)
  | hush {g : Nat} {job : Job} {o : Outcome} (hj : s.job? g = some job)
      (hp : job.phase = .checked o) (hc : s.tasks.isCurrent job.task.file g = false) :
      Step s (.finish g) (s.endJob g)

/-- A step that asks for a job under a condition happens when there is one that meets it. -/
theorem guarded_eq_some {p : Job → Prop} [DecidablePred p] {f : Job → Scheduler}
    (h : (do let job ← s.job? g; guard (p job); return f job) = some s') :
    ∃ job, s.job? g = some job ∧ p job ∧ s' = f job := by
  cases hj : s.job? g with
  | none => simp [hj] at h
  | some job =>
    by_cases hp : p job
    · exact ⟨job, rfl, hp, by simpa [hj, hp, guard] using h.symm⟩
    · rw [hj, Option.bind_eq_bind, Option.bind_some, guard, if_neg hp] at h
      cases h

/-- A job that looks at its token goes on or ends. -/
theorem step_of_check? (h : s.check? g = some s') : Step s (.check g) s' := by
  simp only [check?] at h
  cases hj : s.job? g with
  | none => simp [hj] at h
  | some job =>
    simp only [hj, Option.bind_eq_bind, Option.bind_some] at h
    -- Only a job that has resolved looks at its token.
    cases hp : job.phase with
    | queued => simp [hp] at h
    | resolving => simp [hp] at h
    | checked o => simp [hp] at h
    | resolved r =>
      simp only [hp, Option.pure_def, Option.some.injEq] at h
      subst h
      split
      · next hf => exact .drop hj hp (by simpa using hf)
      · next hf =>
        simp only [Bool.or_eq_true, decide_eq_true_eq, not_or] at hf
        exact .pass hj hp (by simpa using hf.1) hf.2

/-- A job that completes tells its outcome or is hushed. -/
theorem step_of_finish? (h : s.finish? g = some s') : Step s (.finish g) s' := by
  simp only [finish?] at h
  cases hj : s.job? g with
  | none => simp [hj] at h
  | some job =>
    simp only [hj, Option.bind_eq_bind, Option.bind_some] at h
    -- Only a job that was checked completes.
    cases hp : job.phase with
    | queued => simp [hp] at h
    | resolving => simp [hp] at h
    | resolved r => simp [hp] at h
    | checked o =>
      -- Whether the task was retired is whether it was the current one.
      have hsnd : (s.tasks.complete job.task.file g).2 = s.tasks.isCurrent job.task.file g :=
        TaskTable.retire_snd ..
      simp only [hp, hsnd, Option.pure_def, ← apply_ite, Option.some.injEq] at h
      subst h
      split
      · next hc => exact .tell hj hp hc
      · next hc => exact .hush hj hp (by simpa using hc)

/-- Whatever an event does is one of the steps. -/
theorem step_of_eq_some {e : Event} (h : s.step e = some s') : Step s e s' := by
  cases e with
  | draw => cases h; exact .draw
  | request g file snapshot text =>
    obtain ⟨hg, h⟩ := Option.ite_none_right_eq_some.mp h
    rw [requestAs_eq] at h
    cases hm : s.refusal? file snapshot with
    | none => rw [hm] at h; cases h; exact .request file snapshot text hg hm
    | some message => rw [hm] at h; cases h
  | abort g file snapshot text =>
    obtain ⟨hg, h⟩ := Option.ite_none_right_eq_some.mp h
    rw [requestAs_eq] at h
    cases hm : s.refusal? file snapshot with
    | none => rw [hm] at h; cases h
    | some message => rw [hm] at h; cases h; exact .abort file snapshot text hg hm
  | fail g file why =>
    obtain ⟨hg, h⟩ := Option.ite_none_right_eq_some.mp h
    cases h; exact .fail file why hg
  | cancel file => cases h; exact .cancel file
  | dropCached file => cases h; exact .dropCached file
  | forget file => cases h; exact .forget file
  | drain => cases h; exact .drain
  | close => cases h; exact .close
  | dismiss task =>
    obtain ⟨ht, h⟩ := Option.ite_none_right_eq_some.mp h
    cases h; exact .dismiss ht
  | leave g => obtain ⟨job, hj, ⟨hp, hf⟩, rfl⟩ := guarded_eq_some h; exact .leave hj hp hf
  | refuse g => obtain ⟨job, hj, ⟨hp, hc⟩, rfl⟩ := guarded_eq_some h; exact .refuse hj hp hc
  | acquire g =>
    obtain ⟨job, hj, ⟨hp, hc, hn⟩, rfl⟩ := guarded_eq_some h; exact .acquire hj hp hc hn
  | signal g => obtain ⟨job, hj, hp, rfl⟩ := guarded_eq_some h; exact .signal hj hp
  | resolve g r => obtain ⟨job, hj, hp, rfl⟩ := guarded_eq_some h; exact .resolve r hj hp
  | check g => exact step_of_check? h
  | finish g => exact step_of_finish? h

/-- A step asks for a job that meets its condition, and happens when there is one. -/
theorem guarded_of_job? {p : Job → Prop} [DecidablePred p] {f : Job → Scheduler} {job : Job}
    (hj : s.job? g = some job) (hp : p job) :
    (do let job ← s.job? g; guard (p job); return f job) = some (f job) := by
  simp [hj, hp, guard]

/-- Every step happens when its event is carried out. -/
theorem Step.eq_some {e : Event} (h : Step s e s') : s.step e = some s' := by
  cases h with
  | request file snapshot text hg hm =>
    rw [step, if_pos hg, requestAs_eq, hm]
  | abort file snapshot text hg hm =>
    rw [step, if_pos hg, requestAs_eq, hm]
  | fail file why hg => exact if_pos hg
  | dismiss ht => exact if_pos ht
  | leave hj hp hf => exact guarded_of_job? hj ⟨hp, hf⟩
  | refuse hj hp hc => exact guarded_of_job? hj ⟨hp, hc⟩
  | acquire hj hp hc hn => exact guarded_of_job? hj ⟨hp, hc, hn⟩
  | signal hj hp => exact guarded_of_job? hj hp
  | resolve r hj hp => exact guarded_of_job? hj hp
  | drop hj hp hf =>
    rw [step, check?, hj, Option.bind_eq_bind, Option.bind_some, hp]
    exact congrArg some (if_pos (by simpa using hf))
  | pass hj hp ho hf =>
    rw [step, check?, hj, Option.bind_eq_bind, Option.bind_some, hp]
    exact congrArg some (if_neg (by simp [ho, hf]))
  | @tell g job o hj hp hc =>
    have hsnd : (s.tasks.complete job.task.file g).2 = true := (TaskTable.retire_snd ..).trans hc
    rw [step, finish?, hj, Option.bind_eq_bind, Option.bind_some, hp]
    exact if_pos hsnd
  | @hush g job o hj hp hc =>
    have hsnd : (s.tasks.complete job.task.file g).2 = false := (TaskTable.retire_snd ..).trans hc
    have hnot : ¬ (s.tasks.complete job.task.file g).2 = true := by rw [hsnd]; exact Bool.false_ne_true
    rw [step, finish?, hj, Option.bind_eq_bind, Option.bind_some, hp]
    exact if_neg hnot
  | _ => rfl

/-- A request that breaks off is one that the cache does not answer and that cannot be recorded. -/
theorem abort_of_step {file : Path} {snapshot : Snapshot} {text : Option String}
    (h : s.step (.abort g file snapshot text) = some s') :
    s' = s.aborted g file ∧ s.cache.lookup? file snapshot = none ∧
      ∃ message, s.journal.fault? snapshot = some message := by
  cases step_of_eq_some h with
  | abort file snapshot text hg hm =>
    obtain ⟨hmiss, hfault⟩ := refusal?_eq_some_iff.mp hm
    exact ⟨rfl, hmiss, _, hfault⟩

/-- A request is one of two events, and which of them is decided by how the call ends. -/
theorem step_requestAs (hg : g ∈ s.drawn) (file : Path) (snapshot : Snapshot)
    (text : Option String) :
    s.step (if (s.requestAs g file snapshot text).2.isOk then .request g file snapshot text
      else .abort g file snapshot text) = some (s.requestAs g file snapshot text).1 := by
  rw [requestAs_eq]
  cases hm : s.refusal? file snapshot with
  | none => exact (Step.request file snapshot text hg hm).eq_some
  | some message => exact (Step.abort file snapshot text hg hm).eq_some

/-- The ticket that a call hands out in its section under the lock. A request that breaks off hands
out none. -/
def Event.ticket? : Event → Option Ticket
  | .request g file _ _ => some ⟨file, g⟩
  | .fail g file _ => some ⟨file, g⟩
  | _ => none

/-- The file of a call with the generation that the call uses up in its section under the lock. -/
def Event.call? : Event → Option Task
  | .request g file _ _ | .abort g file _ _ | .fail g file _ => some ⟨file, g⟩
  | _ => none

/-- The generation that a call uses up. -/
def Event.uses? (e : Event) : Option Nat :=
  e.call?.map Task.generation

/-- The generation of the job that takes a step. The steps of callers belong to no job. -/
def Event.worker? : Event → Option Nat
  | .leave g | .refuse g | .acquire g | .signal g | .resolve g _ | .check g | .finish g => some g
  | _ => none

variable {e : Event}

theorem Event.worker?_of_end (he : e = .leave g ∨ e = .refuse g ∨ e = .finish g) :
    e.worker? = some g := by
  rcases he with rfl | rfl | rfl <;> rfl

/-- A ticket is for the generation that its call uses up. -/
theorem Event.uses?_of_ticket? {t : Ticket} (h : e.ticket? = some t) :
    e.uses? = some t.generation := by
  cases e <;> cases h <;> rfl

/-- Generations are drawn in order, and each call uses up one that was drawn. -/
theorem Step.numbers (h : Step s e s') :
    (e = .draw ∧ s'.drawn = s.drawn ++ [s.counter + 1] ∧ s'.counter = s.counter + 1) ∨
    (∃ g, e.uses? = some g ∧ g ∈ s.drawn ∧
      s'.drawn = s.drawn.erase g ∧ s'.counter = s.counter) ∨
    (e.uses? = none ∧ s'.drawn = s.drawn ∧ s'.counter = s.counter) := by
  cases h with
  | draw => exact Or.inl ⟨rfl, rfl, rfl⟩
  | request file snapshot text hg | abort file snapshot text hg =>
    exact Or.inr (Or.inl ⟨_, rfl, hg, rfl, rfl⟩)
  | fail file why hg => exact Or.inr (Or.inl ⟨_, rfl, hg, failAs_drawn .., failAs_counter ..⟩)
  | cancel file => exact Or.inr (Or.inr ⟨rfl, cancel_drawn .., cancel_counter ..⟩)
  | _ => exact Or.inr (Or.inr ⟨rfl, rfl, rfl⟩)

/-- The number of permits never changes. -/
theorem Step.permits (h : Step s e s') : s'.permits = s.permits := by
  cases h with
  | fail file why hg => exact failAs_permits ..
  | cancel file => exact cancel_permits ..
  | _ => rfl

/-- The journal never changes. -/
theorem Step.journal (h : Step s e s') : s'.journal = s.journal := by
  cases h with
  | fail file why hg => rw [failAs_eq]
  | cancel file => rw [cancel_eq]
  | _ => rfl

/-- A task that is registered after a step was so before, or a request has registered it. -/
theorem Step.current? (h : Step s e s') {file : Path} {task : Task}
    (ht : s'.tasks.current? file = some task) :
    s.tasks.current? file = some task ∨
      ∃ snapshot text, e = .request task.generation task.file snapshot text ∧
        task.file.place = file.place := by
  cases h with
  | request file' snapshot text hg =>
    rw [answered_current?] at ht
    split at ht
    · next hp =>
      -- The request is for this place: what is registered there is its own task, if any.
      simp only [accepted] at ht
      split at ht
      · cases ht
      · cases ht; exact Or.inr ⟨_, _, rfl, hp.symm⟩
    · exact Or.inl ht
  | abort file' snapshot text hg =>
    rw [aborted_current?] at ht
    exact Or.inl (Option.ite_none_left_eq_some.mp ht).2
  | fail file' why hg =>
    rw [failAs_current?] at ht
    exact Or.inl (Option.ite_none_left_eq_some.mp ht).2
  | cancel file' =>
    rw [cancel_current?] at ht
    exact Or.inl (Option.ite_none_left_eq_some.mp ht).2
  | drain => cases ht
  | @refuse g job hj hp hc =>
    have ht' := (TaskTable.current?_retire s.tasks job.task.file g .cancelled file).symm.trans ht
    exact Or.inl (Option.ite_none_left_eq_some.mp ht').2
  | @tell g job o hj hp hc =>
    have ht' := (TaskTable.current?_retire s.tasks job.task.file g .completed file).symm.trans ht
    exact Or.inl (Option.ite_none_left_eq_some.mp ht').2
  | _ => exact Or.inl ht

/-- What a step makes of the jobs: a call leaves them alone or starts one, a job changes its own
phase or ends. -/
inductive Turnover (s : Scheduler) (jobs : List Job) : Event → Prop where
  | idle {e : Event} (hw : e.worker? = none) (hjobs : jobs = s.jobs) : Turnover s jobs e
  | start {g : Nat} {file : Path} {snapshot : Snapshot} {text : Option String} (hd : g ∈ s.drawn)
      (hjobs : jobs = s.jobs ++ [{ task := ⟨file, g⟩, snapshot, text }]) :
      Turnover s jobs (.request g file snapshot text)
  | acquire {g : Nat} {job : Job} (hj : s.job? g = some job) (hp : job.phase = .queued)
      (hjobs : jobs = (s.setPhase g .resolving).jobs) : Turnover s jobs (.acquire g)
  | signal {g : Nat} {job : Job} (hj : s.job? g = some job) (hp : job.phase = .resolving)
      (hjobs : jobs = s.jobs) : Turnover s jobs (.signal g)
  | resolve {g : Nat} {job : Job} (r : Resolution) (hj : s.job? g = some job)
      (hp : job.phase = .resolving) (hjobs : jobs = (s.setPhase g (.resolved r)).jobs) :
      Turnover s jobs (.resolve g r)
  | pass {g : Nat} {job : Job} {r : Resolution} (hj : s.job? g = some job)
      (hp : job.phase = .resolved r) (ho : (r.toOutcome job.task.file).isCancelled = false)
      (hf : g ∉ s.fired)
      (hjobs : jobs = (s.setPhase g (.checked (r.toOutcome job.task.file))).jobs) :
      Turnover s jobs (.check g)
  | drop {g : Nat} {job : Job} {r : Resolution} (hj : s.job? g = some job)
      (hp : job.phase = .resolved r)
      (hf : (r.toOutcome job.task.file).isCancelled ∨ g ∈ s.fired)
      (hjobs : jobs = (s.endJob g).jobs) : Turnover s jobs (.check g)
  | stop {e : Event} {g : Nat} {job : Job} (he : e = .leave g ∨ e = .refuse g ∨ e = .finish g)
      (hj : s.job? g = some job) (hp : job.phase ≠ .resolving)
      (hjobs : jobs = (s.endJob g).jobs) : Turnover s jobs e

/-- What each step does to the jobs. -/
theorem Step.turnover (h : Step s e s') : Turnover s s'.jobs e := by
  cases h with
  | request file snapshot text hd =>
    -- A request that is served starts nothing, and so is like any other call here.
    cases hc : s.cache.lookup? file snapshot with
    | some source =>
      refine .idle rfl ?_
      rw [answered_jobs, started, hc]
      exact List.append_nil _
    | none =>
      refine .start hd ?_
      rw [answered_jobs, started, hc]
  | fail file why hd => exact .idle rfl (failAs_jobs ..)
  | cancel file => exact .idle rfl (cancel_jobs ..)
  | acquire hj hp hc hn => exact .acquire hj hp rfl
  | signal hj hp => exact .signal hj hp rfl
  | resolve r hj hp => exact .resolve r hj hp rfl
  | pass hj hp ho hf => exact .pass hj hp ho hf rfl
  | drop hj hp hf => exact .drop hj hp hf rfl
  | leave hj hp hf => exact .stop (Or.inl rfl) hj (by rw [hp]; nofun) rfl
  | refuse hj hp hc => exact .stop (Or.inr (Or.inl rfl)) hj (by rw [hp]; nofun) rfl
  | tell hj hp hc => exact .stop (Or.inr (Or.inr rfl)) hj (by rw [hp]; nofun) rfl
  | hush hj hp hc => exact .stop (Or.inr (Or.inr rfl)) hj (by rw [hp]; nofun) rfl
  | _ => exact .idle rfl rfl

/-- A job that is there after a step was so before, in some phase, or a request has started it. -/
theorem Step.mem_jobs (h : Step s e s') {job : Job} (hjob : job ∈ s'.jobs) :
    (∃ old ∈ s.jobs, job = { old with phase := job.phase }) ∨
      e = .request job.task.generation job.task.file job.snapshot job.text ∧ job.phase = .queued := by
  cases h.turnover with
  | idle hw hjobs => rw [hjobs] at hjob; exact Or.inl ⟨job, hjob, rfl⟩
  | signal hj hp hjobs => rw [hjobs] at hjob; exact Or.inl ⟨job, hjob, rfl⟩
  | start hd hjobs =>
    rw [hjobs] at hjob
    rcases List.mem_append.mp hjob with hold | hnew
    · exact Or.inl ⟨job, hold, rfl⟩
    · obtain rfl := List.mem_singleton.mp hnew
      exact Or.inr ⟨rfl, rfl⟩
  | acquire hj hp hjobs | resolve r hj hp hjobs | pass hj hp ho hf hjobs =>
    rw [hjobs] at hjob
    obtain ⟨old, hold, hsame, -⟩ := mem_setPhase_jobs hjob
    exact Or.inl ⟨old, hold, hsame⟩
  | drop hj hp hf hjobs | stop he hj hp hjobs =>
    rw [hjobs] at hjob
    exact Or.inl ⟨job, (mem_endJob.mp hjob).1, rfl⟩

/-- A job that is checked after a step was so before, or its outcome is no cancellation. -/
theorem Step.checked (h : Step s e s') {job : Job} (hjob : job ∈ s'.jobs) {o : Outcome}
    (ho : job.phase = .checked o) :
    (∃ old ∈ s.jobs, old.phase = .checked o) ∨ o.isCancelled = false := by
  cases h.turnover with
  | idle hw hjobs => rw [hjobs] at hjob; exact Or.inl ⟨job, hjob, ho⟩
  | signal hj hp hjobs => rw [hjobs] at hjob; exact Or.inl ⟨job, hjob, ho⟩
  | start hd hjobs =>
    rw [hjobs] at hjob
    rcases List.mem_append.mp hjob with hold | hnew
    · exact Or.inl ⟨job, hold, ho⟩
    · obtain rfl := List.mem_singleton.mp hnew
      cases ho
  | acquire hj hp hjobs | resolve r hj hp hjobs =>
    rw [hjobs] at hjob
    obtain ⟨old, hold, -, rfl | ⟨-, hphase⟩⟩ := mem_setPhase_jobs hjob
    · exact Or.inl ⟨job, hold, ho⟩
    · rw [hphase] at ho; cases ho
  | pass hj hp hc hf hjobs =>
    rw [hjobs] at hjob
    obtain ⟨old, hold, -, rfl | ⟨-, hphase⟩⟩ := mem_setPhase_jobs hjob
    · exact Or.inl ⟨job, hold, ho⟩
    -- This is the check itself, which has seen the outcome.
    · rw [hphase] at ho; cases ho; exact Or.inr hc
  | drop hj hp hf hjobs | stop he hj hp hjobs =>
    rw [hjobs] at hjob
    exact Or.inl ⟨job, (mem_endJob.mp hjob).1, ho⟩

/-- What a step tells on the channel. -/
inductive Says (s : Scheduler) : Event → Update → Prop where
  | request (g : Nat) (file : Path) (snapshot : Snapshot) (text : Option String) :
      Says s (.request g file snapshot text) (s.reply g file snapshot)
  | fail (g : Nat) (file : Path) (why : Explanation) :
      Says s (.fail g file why) (.finished file g (.failed why))
  | cancel (file : Path) : Says s (.cancel file) (.dismissed file)
  | finish {g : Nat} {job : Job} {o : Outcome} (hj : s.job? g = some job)
      (hp : job.phase = .checked o) (hc : s.tasks.isCurrent job.task.file g = true) :
      Says s (.finish g) (.finished job.task.file g o)

/-- A step tells one update or none. -/
theorem Step.updates (h : Step s e s') :
    s'.updates = s.updates ∨ ∃ u, s'.updates = s.updates ++ [u] ∧ Says s e u := by
  cases h with
  | request file snapshot text hg =>
    exact Or.inr ⟨_, answered_updates .., .request _ file snapshot text⟩
  | fail file why hg => exact Or.inr ⟨_, failAs_updates .., .fail _ file why⟩
  | cancel file => exact Or.inr ⟨_, cancel_updates .., .cancel file⟩
  | tell hj hp hc => exact Or.inr ⟨_, rfl, .finish hj hp hc⟩
  | _ => exact Or.inl rfl

end Scheduler

end SmaliView
