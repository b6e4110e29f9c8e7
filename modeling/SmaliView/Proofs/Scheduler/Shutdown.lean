import SmaliView.Proofs.Scheduler.Orphans
import SmaliView.Proofs.Scheduler.Places

/-!
# What a shutdown ends, and what it does not

A shutdown first takes all tasks from the table and then ends the giving of permits. Once no permits
are given, a job that holds none never does (`steps_closed`). So a request that misses the cache is
refused, and its file ends cancelled. A job goes on only if it is `UnderWay`, and that takes a
permit from before the closing for a task that was registered after the drain: one request between
the two sections is enough.
-/

namespace SmaliView

/-- From this phase a job can come to its end without another permit. -/
def Phase.Proceeds (fired : Prop) : Phase → Prop
  | .queued => False
  | .resolving => ¬ fired
  | .resolved r => r ≠ .outcome .cancelled ∧ ¬ fired
  | .checked _ => True

namespace Scheduler

variable {n : Nat} {j : Journal} {es : List Event} {s s' : Scheduler} {e : Event} {g : Nat} {file : Path}

/-! ## Permits -/

/-- Once permits are no longer given, that stays so and no job acquires one. -/
theorem Step.stays_closed (step : Step s e s') (hclosed : s.closed = true) :
    s'.closed = true ∧ ∀ g, e ≠ .acquire g := by
  cases step with
  | request file snapshot text hg => exact ⟨(answered_closed ..).trans hclosed, nofun⟩
  | fail file why hg => exact ⟨(failAs_closed ..).trans hclosed, nofun⟩
  | cancel file => exact ⟨(cancel_closed ..).trans hclosed, nofun⟩
  | acquire hj hp hopen hn => rw [hclosed] at hopen; cases hopen
  | close => exact ⟨rfl, nofun⟩
  | _ => exact ⟨hclosed, nofun⟩

/-- Once permits are not given, no events acquire one. -/
theorem steps_closed (h : s.steps es = some s') (hclosed : s.closed = true) :
    s'.closed = true ∧ ∀ g, .acquire g ∉ es := by
  induction es generalizing s with
  | nil => cases h; exact ⟨hclosed, nofun⟩
  | cons e es ih =>
    obtain ⟨t, ht, h⟩ := steps_cons_eq_some.mp h
    -- The first step acquires nothing and leaves the scheduler closed, so the rest goes on from
    -- there.
    obtain ⟨hnext, hfirst⟩ := (step_of_eq_some ht).stays_closed hclosed
    obtain ⟨hlast, hrest⟩ := ih h hnext
    refine ⟨hlast, fun g hg => ?_⟩
    rcases List.mem_cons.mp hg with heq | hmem
    · exact hfirst g heq.symm
    · exact hrest g hmem

/-- All that a job does but leaving the queue and being refused, it does with a permit. -/
structure Admitted (es : List Event) (s : Scheduler) : Prop where
  jobs : ∀ job ∈ s.jobs, job.phase ≠ .queued → .acquire job.task.generation ∈ es
  steps : ∀ g, .check g ∈ es ∨ .finish g ∈ es → .acquire g ∈ es

/-- A step of a job that holds no permit is leaving the queue or being refused. -/
theorem Admitted.next (h : Admitted es s) (run : Run n j es s) (step : Step s e s') :
    Admitted (es ++ [e]) s' where
  jobs job hjob hphase := by
    cases step.arises run hjob with
    | @moved old hold hg moves =>
      -- A job that does not leave the queue by this step has left it before.
      by_cases hq : old.phase = .queued
      · generalize job.phase = phase at moves hphase
        rw [hq] at moves
        cases moves
        exact List.mem_append_right _ (List.mem_singleton_self _)
      · exact List.mem_append_left _ (hg ▸ h.jobs old hold hq)
    | kept hold hw => exact List.mem_append_left _ (h.jobs job hold hphase)
    | started ht hp => exact absurd hp hphase
  steps g hg := by
    have hcases : (.check g ∈ es ∨ .finish g ∈ es) ∨ (e = .check g ∨ e = .finish g) := by
      simp only [List.mem_append, List.mem_singleton, eq_comm (b := e)] at hg
      tauto
    refine List.mem_append_left _ ?_
    rcases hcases with hold | hnew
    · exact h.steps g hold
    -- A job that looks at its token or completes has left the queue.
    · have hwaits : ∀ {job : Job}, s.job? g = some job → job.phase ≠ .queued → .acquire g ∈ es := by
        intro job hj hphase
        obtain ⟨hjob, rfl⟩ := job?_eq_some hj
        exact h.jobs job hjob hphase
      rcases hnew with rfl | rfl
      · cases step with
        | drop hj hp hf => exact hwaits hj (by rw [hp]; nofun)
        | pass hj hp ho hf => exact hwaits hj (by rw [hp]; nofun)
      · cases step with
        | tell hj hp hc => exact hwaits hj (by rw [hp]; nofun)
        | hush hj hp hc => exact hwaits hj (by rw [hp]; nofun)

/-- In every run a job that is past the queue was given a permit. -/
theorem Run.admitted (run : Run n j es s) : Admitted es s := by
  induction run with
  | start =>
    exact {
      jobs := fun job hjob => by cases hjob
      steps := fun g hg => by rcases hg with hg | hg <;> cases hg }
  | next run step ih => exact ih.next run (step_of_eq_some step)

/-! ## Jobs that are under way -/

/-- The task of a job is registered, and the job can come to tell its outcome without another
permit. -/
def UnderWay (s : Scheduler) (g : Nat) : Prop :=
  ∃ job, s.job? g = some job ∧ s.tasks.isCurrent job.task.file g = true ∧
    job.phase.Proceeds (g ∈ s.fired)

/-- Only its own request makes a generation the current one of a file. -/
theorem Step.isCurrent_of_used (step : Step s e s') (hused : g ∉ s.drawn)
    (hc : s'.tasks.isCurrent file g = true) : s.tasks.isCurrent file g = true := by
  obtain ⟨task, ht, rfl⟩ := (TaskTable.isCurrent_iff ..).mp hc
  rcases step.current? ht with hold | ⟨snapshot, text, rfl, -⟩
  · exact (TaskTable.isCurrent_iff ..).mpr ⟨task, hold, rfl⟩
  · cases step with
    | request _ _ _ hg => exact absurd hg hused

/-- When no permits are given, a job that is under way was so before. -/
theorem Step.underWay_of_next (step : Step s e s') (run : Run n j es s) (hclosed : s.closed = true)
    (h : UnderWay s' g) : UnderWay s g := by
  obtain ⟨job, hj, hc, hp⟩ := h
  obtain ⟨hjob, rfl⟩ := job?_eq_some hj
  -- The job of before has the same task, which was registered then, too.
  have before : ∀ old ∈ s.jobs, old.task.generation = job.task.generation →
      old.phase.Proceeds (job.task.generation ∈ s.fired) → UnderWay s job.task.generation := by
    intro old hold hg hproceeds
    have hticket := tickets_subset_concat (e := e) (run.ledger.ticketed hold)
    have htask : old.task = job.task :=
      (run.ledger.next step).task_ext hticket ((run.ledger.next step).ticketed hjob) hg
    have hused : job.task.generation ∉ s.drawn :=
      hg ▸ run.ledger.not_mem_drawn (run.ledger.ticketed hold)
    refine ⟨old, hg ▸ run.job?_eq_some hold, ?_, hproceeds⟩
    rw [htask]
    exact step.isCurrent_of_used hused hc
  -- A token that has not fired after the step had not fired before.
  have hunfired : job.task.generation ∉ s'.fired → job.task.generation ∉ s.fired :=
    mt fun hold => step.fired_subset hold
  cases step.arises run hjob with
  | @moved old hold hg moves =>
    refine before old hold hg ?_
    generalize old.phase = phase at moves ⊢
    generalize job.phase = later at moves hp
    -- No job leaves the queue any more; every other move comes from a phase that proceeds.
    cases moves with
    | acquire => exact absurd rfl ((step.stays_closed hclosed).2 _)
    | signal => exact hunfired hp
    | resolve r => exact hunfired hp.2
    | pass hr hf => exact ⟨hr, hf⟩
  | kept hold hw =>
    refine before job hold rfl ?_
    generalize job.phase = phase at hp ⊢
    cases phase with
    | queued => exact hp
    | resolving => exact hunfired hp
    | resolved r => exact ⟨hp.1, hunfired hp.2⟩
    | checked o => trivial
  | started ht hphase =>
    rw [hphase] at hp
    exact hp.elim

/-- When no permits are given, what is under way later was so all the time. -/
theorem Run.underWay_of_later (run : Run n j es s) (hclosed : s.closed = true) {later : List Event}
    (h : s.steps later = some s') (hunder : UnderWay s' g) : UnderWay s g := by
  induction later generalizing es s with
  | nil => cases h; exact hunder
  | cons e later ih =>
    obtain ⟨t, ht, h⟩ := steps_cons_eq_some.mp h
    have step := step_of_eq_some ht
    -- It was under way after the first step, which leaves the scheduler closed, and so before it.
    exact step.underWay_of_next run hclosed
      (ih (run.next ht) (step.stays_closed hclosed).1 h)

/-- A job that tells or stores something is under way. -/
theorem Step.underWay (step : Step s e s') (hw : e.worker? = some g)
    (hne : s'.updates ≠ s.updates ∨ s'.cache ≠ s.cache) : UnderWay s g := by
  cases step with
  | tell hj hp hc => cases hw; exact ⟨_, hj, hc, hp ▸ trivial⟩
  | request | fail | cancel | dropCached | forget | drain | close | dismiss => cases hw
  | _ => rcases hne with hne | hne <;> exact absurd rfl hne

/-- A job that is brought into another phase is found there. -/
theorem job?_setPhase {job : Job} (hj : s.job? g = some job) (phase : Phase) :
    (s.setPhase g phase).job? g = some { job with phase } := by
  obtain ⟨-, hg⟩ := job?_eq_some hj
  -- Moving a job leaves the generations of all jobs, by which they are found.
  have hfind : ((fun j => j.task.generation == g) ∘ fun j : Job =>
      if j.task.generation = g then { j with phase } else j) = fun j => j.task.generation == g := by
    funext j
    by_cases h : j.task.generation = g <;> simp [h]
  rw [job?] at hj ⊢
  rw [setPhase, List.find?_map, hfind, hj, Option.map_some, if_pos hg]

/-- A job that was checked tells its outcome if it completes next. -/
theorem finish_tells {job : Job} {o : Outcome} (hj : s.job? g = some job)
    (hp : job.phase = .checked o) (hc : s.tasks.isCurrent job.task.file g = true) :
    ∃ s', s.step (.finish g) = some s' ∧ s'.updates ≠ s.updates := by
  refine ⟨_, (Step.tell hj hp hc).eq_some, fun h => ?_⟩
  exact List.cons_ne_nil _ _ (List.append_right_eq_self.mp h)

/-- A job that has resolved and was not cancelled tells its outcome if it goes on alone. -/
theorem check_tells {job : Job} {r : Resolution} (hj : s.job? g = some job)
    (hp : job.phase = .resolved r) (hr : r ≠ .outcome .cancelled) (hf : g ∉ s.fired)
    (hc : s.tasks.isCurrent job.task.file g = true) :
    ∃ s₁ s₂, s.steps [.check g] = some s₁ ∧ s₁.step (.finish g) = some s₂ ∧
      s₂.updates ≠ s₁.updates := by
  have ho : (r.toOutcome job.task.file).isCancelled = false := by
    rw [Bool.eq_false_iff]
    exact mt Resolution.isCancelled_toOutcome.mp hr
  have hcheck := (Step.pass hj hp ho hf).eq_some
  obtain ⟨s₂, hfinish, htells⟩ := finish_tells (job?_setPhase hj _) rfl hc
  exact ⟨_, s₂, steps_cons_eq_some.mpr ⟨_, hcheck, rfl⟩, hfinish, htells⟩

/-- A job that is under way can tell its outcome. -/
theorem UnderWay.tells (h : UnderWay s g) :
    ∃ later s₁ s₂, s.steps later = some s₁ ∧ s₁.step (.finish g) = some s₂ ∧
      s₂.updates ≠ s₁.updates := by
  obtain ⟨job, hj, hc, hp⟩ := h
  cases hphase : job.phase with
  | queued => rw [hphase] at hp; exact hp.elim
  | checked o =>
    obtain ⟨s₂, hfinish, htells⟩ := finish_tells hj hphase hc
    exact ⟨[], s, s₂, rfl, hfinish, htells⟩
  | resolved r =>
    rw [hphase] at hp
    obtain ⟨s₁, s₂, hcheck, htells⟩ := check_tells hj hphase hp.1 hp.2 hc
    exact ⟨_, s₁, s₂, hcheck, htells⟩
  | resolving =>
    rw [hphase] at hp
    -- Whatever it resolves to but a cancellation, it tells.
    have hresolve := (Step.resolve (.panicked "") hj hphase).eq_some
    obtain ⟨s₁, s₂, hcheck, htells⟩ := check_tells (job?_setPhase hj (.resolved (.panicked ""))) rfl
      nofun hp hc
    exact ⟨_, s₁, s₂, steps_cons_eq_some.mpr ⟨_, hresolve, hcheck⟩, htells⟩

/-- **What goes on after a closing.** When no permits are given, a job can still tell or store
something exactly if it is under way. -/
theorem Run.tells_iff_underWay (run : Run n j es s) (hclosed : s.closed = true) (g : Nat) :
    (∃ later s₁ e s₂, s.steps later = some s₁ ∧ s₁.step e = some s₂ ∧ e.worker? = some g ∧
      (s₂.updates ≠ s₁.updates ∨ s₂.cache ≠ s₁.cache)) ↔ UnderWay s g := by
  constructor
  · rintro ⟨later, s₁, e, s₂, hlater, he, hw, hne⟩
    exact run.underWay_of_later hclosed hlater ((step_of_eq_some he).underWay hw hne)
  · intro h
    obtain ⟨later, s₁, s₂, hlater, hfinish, hne⟩ := h.tells
    exact ⟨later, s₁, _, s₂, hlater, hfinish, rfl, Or.inl hne⟩

/-! ## Between the drain and the closing -/

/-- A task that is registered was so before, or a request of the events between has registered it.
-/
theorem steps_current? (h : s.steps es = some s') {task : Task}
    (ht : s'.tasks.current? file = some task) :
    s.tasks.current? file = some task ∨
      ∃ snapshot text, .request task.generation task.file snapshot text ∈ es := by
  induction es generalizing s with
  | nil => cases h; exact Or.inl ht
  | cons e es ih =>
    obtain ⟨t, he, h⟩ := steps_cons_eq_some.mp h
    rcases ih h with hmid | ⟨snapshot, text, hmem⟩
    · rcases (step_of_eq_some he).current? hmid with hold | ⟨snapshot, text, rfl, -⟩
      · exact Or.inl hold
      · exact Or.inr ⟨snapshot, text, List.mem_cons_self⟩
    · exact Or.inr ⟨snapshot, text, List.mem_cons_of_mem _ hmem⟩

/-- A job that goes on after a shutdown was requested and got its permit between the drain and the
closing. -/
theorem Run.between_of_underWay (run : Run n j es s) {mid after : List Event}
    (shutdown : s.steps (.drain :: (mid ++ .close :: after)) = some s') (h : UnderWay s' g) :
    (∃ file snapshot text, .request g file snapshot text ∈ mid) ∧ .acquire g ∈ mid := by
  obtain ⟨s₁, hdrain, shutdown⟩ := steps_cons_eq_some.mp shutdown
  obtain ⟨s₂, hmid, shutdown⟩ := steps_append_eq_some.mp shutdown
  obtain ⟨s₃, hclose, hafter⟩ := steps_cons_eq_some.mp shutdown
  have run₂ := (run.next hdrain).append hmid
  have run₃ := run₂.next hclose
  cases hdrain
  cases hclose
  -- It was under way when the permits ended, with a task from after the drain.
  obtain ⟨job, hj, hc, hp⟩ : UnderWay s₂ g := run₃.underWay_of_later rfl hafter h
  obtain ⟨hjob, rfl⟩ := Scheduler.job?_eq_some hj
  obtain ⟨task, ht, hg⟩ := (TaskTable.isCurrent_iff ..).mp hc
  -- The drain has left no task, so a request between has registered this one.
  obtain ⟨snapshot, text, hrequest⟩ : ∃ snapshot text,
      .request task.generation task.file snapshot text ∈ mid :=
    (steps_current? hmid ht).resolve_left nofun
  refine ⟨⟨task.file, snapshot, text, hg ▸ hrequest⟩, ?_⟩
  have hphase : job.phase ≠ .queued := by
    intro hqueued
    rw [hqueued] at hp
    exact hp
  rcases List.mem_append.mp (run₂.admitted.jobs job hjob hphase) with hbefore | hbetween
  · -- Before the drain there was no request that it could have worked for.
    exfalso
    have hacquire : .acquire job.task.generation ∈ es := by simpa using hbefore
    obtain ⟨file', snapshot', text', hold⟩ := run.traced.requested _ hacquire _ rfl
    have hnodup : ((tickets (es ++ [.drain] ++ mid)).map Ticket.generation).Nodup :=
      run₂.ledger.tickets_nodup
    rw [tickets, List.filterMap_append, List.map_append] at hnodup
    refine List.disjoint_of_nodup_append hnodup (a := job.task.generation) ?_ ?_
    · exact List.mem_map.mpr ⟨⟨file', job.task.generation⟩,
        List.mem_filterMap.mpr ⟨_, List.mem_append_left _ hold, rfl⟩, rfl⟩
    · exact List.mem_map.mpr ⟨task.ticket, List.mem_filterMap.mpr ⟨_, hrequest, rfl⟩, hg⟩
  · exact hbetween

/-! ## Requests that are refused -/

/-- An outcome is told by the call of its generation or by a job that is under way. -/
theorem Says.of_finished {u : Update} (h : Says s e u) (hg : u.finished? = some g) :
    (∃ t, e.ticket? = some t ∧ t.generation = g) ∨ UnderWay s g := by
  cases h with
  | request g' file snapshot text =>
    unfold reply at hg
    split at hg <;> cases hg
    exact Or.inl ⟨_, rfl, rfl⟩
  | fail g' file why => cases hg; exact Or.inl ⟨_, rfl, rfl⟩
  | cancel file => cases hg
  | finish hj hp hc => cases hg; exact Or.inr ⟨_, hj, hc, hp ▸ trivial⟩

/-- A request that no permit was given for, as long as permits are not given. -/
structure Refused (s : Scheduler) (g : Nat) (file : Path) : Prop where
  /-- Its outcome is not told. -/
  untold : ∀ u ∈ s.updates, u.finished? ≠ some g
  /-- While it has a job, this can be refused. -/
  refusable : ∀ job, s.job? g = some job → job.phase = .queued ∧ (s.step (.refuse g)).isSome
  /-- When its job has ended it has no task. -/
  unregistered : s.job? g = none → s.tasks.isCurrent file g = false

/-- A job without a permit is queued. -/
theorem Run.queued_of_unadmitted (run : Run n j es s) (hg : .acquire g ∉ es) {job : Job}
    (hj : s.job? g = some job) : job.phase = .queued := by
  obtain ⟨hjob, rfl⟩ := Scheduler.job?_eq_some hj
  by_contra hphase
  exact hg (run.admitted.jobs job hjob hphase)

/-- A job without a permit is not under way. -/
theorem Run.not_underWay_of_unadmitted (run : Run n j es s) (hg : .acquire g ∉ es) :
    ¬ UnderWay s g := by
  rintro ⟨job, hj, -, hp⟩
  rw [run.queued_of_unadmitted hg hj] at hp
  exact hp

/-- Without a permit, the outcome of a call that has told none is not told. -/
theorem Run.untold_of_unadmitted (run : Run n j es s) {t : Ticket} (ht : t ∈ tickets es)
    {later : List Event} (h : s.steps later = some s')
    (hg : .acquire t.generation ∉ es ++ later)
    (huntold : ∀ u ∈ s.updates, u.finished? ≠ some t.generation) :
    ∀ u ∈ s'.updates, u.finished? ≠ some t.generation := by
  induction later generalizing es s with
  | nil => cases h; exact huntold
  | cons e later ih =>
    obtain ⟨s₁, he, h⟩ := steps_cons_eq_some.mp h
    have step := step_of_eq_some he
    refine ih (run.next he) (tickets_subset_concat ht) h (by simpa using hg) ?_
    intro u hu hfinished
    -- Whoever would tell it now is the call, which is over, or a job, which has no permit.
    rcases step.updates with heq | ⟨v, heq, hsays⟩
    · exact huntold u (heq ▸ hu) hfinished
    · rw [heq] at hu
      rcases List.mem_append.mp hu with hold | hnew
      · exact huntold u hold hfinished
      · obtain rfl := List.mem_singleton.mp hnew
        rcases hsays.of_finished hfinished with ⟨t', ht', hsame⟩ | hunder
        · -- The call of this generation is over.
          exact run.ledger.not_mem_drawn ht (hsame ▸ step.mem_drawn ht')
        · have hbefore : .acquire t.generation ∉ es := fun hmem =>
            hg (List.mem_append_left _ hmem)
          exact run.not_underWay_of_unadmitted hbefore hunder

/-- A task without a permit has a job. -/
theorem Run.unregistered_of_unadmitted (run : Run n j es s) (hg : .acquire g ∉ es)
    (hj : s.job? g = none) (file : Path) : s.tasks.isCurrent file g = false := by
  rw [Bool.eq_false_iff]
  intro hc
  obtain ⟨task, ht, rfl⟩ := (TaskTable.isCurrent_iff ..).mp hc
  -- The task is attended: its job is there, or it has looked at its token, for which it needs a
  -- permit.
  rcases run.attended.live file task ht with ⟨job, hjob, rfl⟩ | hbroken
  · exact job?_eq_none.mp hj job hjob rfl
  · exact hg (run.admitted.steps _ (Or.inl hbroken.1))

/-- A file that has a task, or is noted as cancelled after it had one. -/
def Bound (s : Scheduler) (file : Path) (task : Task) : Prop :=
  s.tasks.current? file = some task ∨
    s.tasks.current? file = none ∧ s.tasks.noted? file = some .cancelled

/-- The sections that take the task of a file without noting that it was cancelled, or forget how
its last task ended. -/
def Event.Unsettles (file : Path) : Event → Prop
  | .request _ file' _ _ | .abort _ file' _ _ | .fail _ file' _ => file'.place = file.place
  | .forget file' => file'.place = file.place
  | .drain => True
  | _ => False

/-- A task that does not complete stays or is noted as cancelled. -/
theorem Step.bound (step : Step s e s') {task : Task} (he : ¬ e.Unsettles file)
    (hfinish : e ≠ .finish task.generation) (h : Bound s file task) : Bound s' file task := by
  by_cases hc : e.Concerns s file
  · cases step with
    | request file' snapshot text hg => exact absurd hc he
    | abort file' snapshot text hg => exact absurd hc he
    | fail file' why hg => exact absurd hc he
    | forget file' => exact absurd hc he
    | drain => exact absurd trivial he
    | cancel file' =>
      have hknown := (known_cancel s file' file).trans (if_pos (Eq.symm hc))
      refine Or.inr ⟨congrArg Known.task hknown, (congrArg Known.note hknown).trans ?_⟩
      -- Cancelling notes so, if there is a task, and otherwise leaves the note of before.
      have hrunning : s.isRunning file' = (s.tasks.current? file).isSome := by
        rw [isRunning, s.tasks.current?_congr hc]
      rcases h with htask | ⟨hnone, hnoted⟩
      · exact if_pos (by rw [hrunning, htask, Option.isSome_some])
      · exact (ite_eq_right_iff.mpr fun _ => hnoted.symm).trans hnoted
    | @refuse g job hj hp hclosed =>
      have hknown := known_refuse s job g file
      -- Either the job retires the task of the file, which is noted, or it changes nothing.
      split at hknown
      · exact Or.inr ⟨congrArg Known.task hknown, congrArg Known.note hknown⟩
      · have htask := congrArg Known.task hknown
        have hnote := congrArg Known.note hknown
        exact h.imp htask.trans (And.imp htask.trans hnote.trans)
    | @tell g job o hj hp hcurrent =>
      -- The job that completes would be the one of the task.
      obtain ⟨job', hj', hplace⟩ := hc
      obtain rfl : job = job' := Option.some.inj (hj.symm.trans hj')
      obtain ⟨other, hother, hg⟩ := (TaskTable.isCurrent_iff ..).mp hcurrent
      rw [s.tasks.current?_congr hplace] at hother
      rcases h with htask | ⟨hnone, -⟩
      · obtain rfl : task = other := Option.some.inj (htask.symm.trans hother)
        exact absurd (congrArg Event.finish hg.symm) hfinish
      · rw [hnone] at hother
        cases hother
    | _ => exact h
  · have hknown := step.unconcerned hc
    have htask : s'.tasks.current? file = s.tasks.current? file := congrArg Known.task hknown
    have hnote : s'.tasks.noted? file = s.tasks.noted? file := congrArg Known.note hknown
    exact h.imp htask.trans (And.imp htask.trans hnote.trans)

/-- A task that nothing unsettles stays, or is noted as cancelled, until it completes. -/
theorem steps_bound {later : List Event} (h : s.steps later = some s') {task : Task}
    (hlater : ∀ e ∈ later, ¬ e.Unsettles file) (hfinish : .finish task.generation ∉ later)
    (hbound : Bound s file task) : Bound s' file task := by
  induction later generalizing s with
  | nil => cases h; exact hbound
  | cons e later ih =>
    obtain ⟨s₁, he, h⟩ := steps_cons_eq_some.mp h
    obtain ⟨hfirst, hrest⟩ := List.forall_mem_cons.mp hlater
    have hne : e ≠ .finish task.generation := (List.ne_of_not_mem_cons hfinish).symm
    have hnot := List.not_mem_of_not_mem_cons hfinish
    exact ih h hrest hnot ((step_of_eq_some he).bound hfirst hne hbound)

/-- A request that misses the cache when no permits are given is refused, and if nothing else is
called for its file, this ends cancelled. -/
theorem Run.refused (run : Run n j es s) (hclosed : s.closed = true) {snapshot : Snapshot}
    {text : Option String} (hrequest : s.step (.request g file snapshot text) = some s')
    (hmiss : s.cache.lookup? file snapshot = none) {later : List Event} {s'' : Scheduler}
    (h : s'.steps later = some s'') :
    Refused s'' g file ∧ (s''.job? g = none → (∀ e ∈ later, ¬ e.Unsettles file) →
      s''.tasks.state file = .cancelled) := by
  have step := step_of_eq_some hrequest
  have hdrawn : g ∈ s.drawn := step.mem_drawn (t := ⟨file, g⟩) rfl
  have run' := run.next hrequest
  have run'' := run'.append h
  have hclosed' := (step.stays_closed hclosed).1
  obtain ⟨hclosed'', hno⟩ := steps_closed h hclosed'
  have hticket : ⟨file, g⟩ ∈ tickets (es ++ [.request g file snapshot text]) :=
    mem_tickets.mpr ⟨_, List.mem_append_right _ (List.mem_singleton_self _), rfl⟩
  -- Before the request the generation had no job, and after it no job gets a permit.
  have hacquire : .acquire g ∉ es ++ [.request g file snapshot text] ++ later := by
    intro hmem
    rcases List.mem_append.mp hmem with hbefore | hafter
    · have hold : .acquire g ∈ es := by simpa using hbefore
      obtain ⟨file', snapshot', text', hother⟩ := run.traced.requested _ hold _ rfl
      have hother : (⟨file', g⟩ : Ticket) ∈ tickets es := mem_tickets.mpr ⟨_, hother, rfl⟩
      exact run.ledger.not_mem_drawn hother hdrawn
    · exact hno g hafter
  -- The request itself tells only that it is loading.
  have huntold : ∀ u ∈ s'.updates, u.finished? ≠ some g := by
    cases step with
    | request _ _ _ _ =>
      rw [answered_updates, reply, hmiss]
      intro u hu hg
      rcases List.mem_append.mp hu with hold | hnew
      · refine run.ledger.not_mem_drawn (run.ledger.told u hold g ?_) hdrawn
        cases u <;> cases hg; rfl
      · obtain rfl := List.mem_singleton.mp hnew
        cases hg
  have hunregistered := run''.unregistered_of_unadmitted hacquire
  refine ⟨⟨run'.untold_of_unadmitted hticket h hacquire huntold, ?_, fun hj =>
    hunregistered hj file⟩, ?_⟩
  · intro job hj
    have hqueued := run''.queued_of_unadmitted hacquire hj
    exact ⟨hqueued, Option.isSome_iff_exists.mpr ⟨_, (Step.refuse hj hqueued hclosed'').eq_some⟩⟩
  · intro hj hlater
    -- The file has the task of the request from there on, until that is noted as cancelled.
    have hbound : Bound s' file ⟨file, g⟩ := by
      refine Or.inl ?_
      cases step with
      | request _ _ _ _ => rw [answered_current?, if_pos rfl, accepted, hmiss]
    have hfinish : .finish g ∉ later := fun hmem =>
      hacquire (run''.admitted.steps g (Or.inr (List.mem_append_right _ hmem)))
    -- Without its job the task is not registered, so it was cancelled.
    rcases steps_bound h hlater hfinish hbound with htask | ⟨hnone, hnoted⟩
    · have hcurrent : s''.tasks.isCurrent file g = true :=
        (TaskTable.isCurrent_iff ..).mpr ⟨_, htask, rfl⟩
      rw [hunregistered hj file] at hcurrent
      cases hcurrent
    · rw [TaskTable.state_eq, hnone, hnoted]
      rfl

/-! ## Requests that break off -/

/-- A generation that nothing refers to: no update, no job and no task. -/
structure Traceless (s : Scheduler) (g : Nat) : Prop where
  untold : ∀ u ∈ s.updates, u.generation? ≠ some g
  unstarted : s.job? g = none
  unregistered : ∀ file, s.tasks.isCurrent file g = false

/-- The generation of a request that breaks off is on no ticket. -/
theorem Ledger.not_ticket_of_abort (l : Ledger es s) {snapshot : Snapshot} {text : Option String}
    (h : .abort g file snapshot text ∈ es) {t : Ticket} (ht : t ∈ tickets es) : t.generation ≠ g := by
  rintro rfl
  obtain ⟨e, he, hticket⟩ := mem_tickets.mp ht
  -- No two calls use one generation, so the ticket would be for this very request.
  have hsame : e = .abort t.generation file snapshot text :=
    eq_of_nodup_filterMap l.distinct.of_append_right he h (Event.uses?_of_ticket? hticket) rfl
  subst hsame
  cases hticket

/-- A request that breaks off leaves nothing of its own, however the run goes on. -/
theorem Run.traceless_of_abort (run : Run n j es s) {snapshot : Snapshot} {text : Option String}
    (h : s.step (.abort g file snapshot text) = some s') {later : List Event} {s'' : Scheduler}
    (hlater : s'.steps later = some s'') : Traceless s'' g := by
  have ledger := ((run.next h).append hlater).ledger
  have hmem : .abort g file snapshot text ∈ es ++ [.abort g file snapshot text] ++ later := by simp
  have hno : ∀ t ∈ tickets (es ++ [.abort g file snapshot text] ++ later), t.generation ≠ g :=
    fun t ht => ledger.not_ticket_of_abort hmem ht
  refine ⟨fun u hu hg => hno _ (ledger.told u hu g hg) rfl, ?_, fun file' => ?_⟩
  · exact job?_eq_none.mpr fun job hjob hg => hno _ (ledger.ticketed hjob) hg
  · rw [Bool.eq_false_iff]
    intro hc
    obtain ⟨task, ht, hg⟩ := (TaskTable.isCurrent_iff ..).mp hc
    exact hno _ (ledger.registered file' task ht) hg

/-- A request that breaks off leaves its file idle if it was running, and else as it was. -/
theorem Run.state_of_abort (run : Run n j es s) {snapshot : Snapshot} {text : Option String}
    (h : s.step (.abort g file snapshot text) = some s') :
    s'.tasks.state file =
      if s.tasks.state file = .running then .idle else s.tasks.state file := by
  obtain ⟨rfl, -⟩ := abort_of_step h
  have hknown := (s.known_aborted g file file).trans (if_pos rfl)
  have htask : (s.aborted g file).tasks.current? file = none := congrArg Known.task hknown
  have hnote : (s.aborted g file).tasks.noted? file = s.tasks.noted? file :=
    congrArg Known.note hknown
  rw [TaskTable.state_eq, htask, hnote]
  by_cases hrunning : s.tasks.state file = .running
  · obtain ⟨task, ht⟩ := run.tidy.state_eq_running_iff.mp hrunning
    rw [if_pos hrunning, run.tidy.noted?_eq_none ht]
    rfl
  · have hfree : s.tasks.current? file = none := by
      rw [Option.eq_none_iff_forall_ne_some]
      intro task ht
      exact hrunning (run.tidy.state_eq_running_iff.mpr ⟨task, ht⟩)
    rw [if_neg hrunning, TaskTable.state_eq, hfree]

/-! ## Shutting down -/

/-- **A shutdown is final but for what gets a permit while it begins.** Whatever happens between the
drain and the closing and after them, the dismissals of the drained tasks among it:

* a job tells or stores anything later exactly if it is under way;
* a job is under way only if it was requested, and got its permit, between the drain and the
  closing;
* a later request that misses the cache is refused, and if nothing else is called for its file, this
  ends cancelled;
* a later request that breaks off, as one that misses the cache can (`Journal.fault?_eq_some_iff`),
  is never told of and registers nothing, but its file is left idle or as it was. -/
theorem shutdown_final_but_for_admitted_between {mid after : List Event}
    (run : (new n j).steps es = some s)
    (shutdown : s.steps (.drain :: (mid ++ .close :: after)) = some s') :
    (∀ g, (∃ later s₁ e s₂, s'.steps later = some s₁ ∧ s₁.step e = some s₂ ∧
      e.worker? = some g ∧ (s₂.updates ≠ s₁.updates ∨ s₂.cache ≠ s₁.cache)) ↔ UnderWay s' g) ∧
    (∀ g, UnderWay s' g →
      (∃ file snapshot text, .request g file snapshot text ∈ mid) ∧ .acquire g ∈ mid) ∧
    (∀ later s₁ g file snapshot text s₂ rest s₃, s'.steps later = some s₁ →
      s₁.step (.request g file snapshot text) = some s₂ → s₁.cache.lookup? file snapshot = none →
      s₂.steps rest = some s₃ →
      Refused s₃ g file ∧ (s₃.job? g = none → (∀ e ∈ rest, ¬ e.Unsettles file) →
        s₃.tasks.state file = .cancelled)) ∧
    ∀ later s₁ g file snapshot text s₂ rest s₃, s'.steps later = some s₁ →
      s₁.step (.abort g file snapshot text) = some s₂ → s₂.steps rest = some s₃ →
      Traceless s₃ g ∧ s₂.tasks.state file =
        if s₁.tasks.state file = .running then .idle else s₁.tasks.state file := by
  have run := run_of_steps run
  have run' := run.append shutdown
  have hclosed : s'.closed = true := by
    -- Nothing that follows on the closing opens the scheduler again.
    obtain ⟨s₁, -, shutdown⟩ := steps_cons_eq_some.mp shutdown
    obtain ⟨s₂, -, shutdown⟩ := steps_append_eq_some.mp shutdown
    obtain ⟨s₃, hclose, hafter⟩ := steps_cons_eq_some.mp shutdown
    cases hclose
    exact (steps_closed hafter rfl).1
  refine ⟨run'.tells_iff_underWay hclosed, fun g h => run.between_of_underWay shutdown h, ?_, ?_⟩
  · intro later s₁ g file snapshot text s₂ rest s₃ hlater hrequest hmiss hrest
    exact (run'.append hlater).refused (steps_closed hlater hclosed).1 hrequest hmiss hrest
  · intro later s₁ g file snapshot text s₂ rest s₃ hlater habort hrest
    have run₁ := run'.append hlater
    exact ⟨run₁.traceless_of_abort habort hrest, run₁.state_of_abort habort⟩

/-- A job is at work when the shutdown begins. -/
def working : List Event := [.draw, .request 1 ⟨"p/A"⟩ (.disk ⟨0, 0⟩ 1) none, .acquire 1]

/-- Another file is requested between the drain and the closing, and its job gets a permit. -/
def requestBetween : List Event :=
  [.draw, .request 2 ⟨"p/B"⟩ (.disk ⟨0, 0⟩ 1) none, .acquire 2]

/-- The shutdown cancels the one task that it has drained and waits for its job. -/
def windingDown : List Event :=
  [.dismiss ⟨⟨"p/A"⟩, 1⟩, .resolve 1 (.outcome .cancelled), .check 1]

/-- The shutdown has returned: it has dismissed all that it has drained, and the job of that has
ended. But the job that was requested between is under way, and it will tell and store what it comes
to. Only a request that comes later is refused; for a file whose time has no date it breaks off, and
that file stays idle. -/
theorem request_between_outlives_shutdown :
    ∃ s s', (new 2 .recording).steps working = some s ∧
      s.steps (.drain :: (requestBetween ++ .close :: windingDown)) = some s' ∧
      s'.drained = [] ∧ s'.job? 1 = none ∧
      (∃ later s₁ e s₂, s'.steps later = some s₁ ∧ s₁.step e = some s₂ ∧ e.worker? = some 2 ∧
        (s₂.updates ≠ s₁.updates ∨ s₂.cache ≠ s₁.cache)) ∧
      (∃ file snapshot text, .request 2 file snapshot text ∈ requestBetween) ∧
      ∃ s₁, s'.steps [.draw] = some s₁ ∧
        (∃ s₂ s₃, s₁.step (.request 3 ⟨"p/A"⟩ (.disk ⟨0, 0⟩ 1) none) = some s₂ ∧
          s₂.steps [.refuse 3] = some s₃ ∧ s₃.tasks.state ⟨"p/A"⟩ = .cancelled) ∧
        ∃ s₂, s₁.step (.abort 3 ⟨"p/A"⟩ (.disk ⟨9000000000000, 0⟩ 1) none) = some s₂ ∧
          Traceless s₂ 3 ∧ s₂.tasks.state ⟨"p/A"⟩ = .idle := by
  have hrun : ((new 2 .recording).steps working).bind (fun s =>
      (s.steps (.drain :: (requestBetween ++ .close :: windingDown))).map fun s' =>
        (s'.drained, s'.job? 1, s'.job? 2, s'.tasks.isCurrent ⟨"p/B"⟩ 2, s'.fired)) =
      some ([], none, some ⟨⟨⟨"p/B"⟩, 2⟩, .disk ⟨0, 0⟩ 1, none, .resolving⟩, true, [1]) := by
    decide +kernel
  obtain ⟨s, hs, hrun⟩ := Option.bind_eq_some_iff.mp hrun
  obtain ⟨s', hs', hstate⟩ := Option.map_eq_some_iff.mp hrun
  obtain ⟨hdrained, hended, hjob, hcurrent, hfired⟩ := by simpa only [Prod.mk.injEq] using hstate
  obtain ⟨htells, hbetween, hrefused, hbroken⟩ := shutdown_final_but_for_admitted_between hs hs'
  have hunder : UnderWay s' 2 := ⟨_, hjob, hcurrent, by rw [hfired]; show 2 ∉ [1]; decide⟩
  -- A later request for the file whose job was cancelled, with one time or the other.
  have hlater : ((new 2 .recording).steps working).bind (fun s =>
      (s.steps (.drain :: (requestBetween ++ .close :: windingDown))).bind fun s' =>
        (s'.steps [.draw]).bind fun s₁ =>
          (s₁.step (.request 3 ⟨"p/A"⟩ (.disk ⟨0, 0⟩ 1) none)).bind fun s₂ =>
            (s₂.steps [.refuse 3]).bind fun s₃ =>
              (s₁.step (.abort 3 ⟨"p/A"⟩ (.disk ⟨9000000000000, 0⟩ 1) none)).map fun _ =>
                (s₁.cache.lookup? ⟨"p/A"⟩ (.disk ⟨0, 0⟩ 1), s₃.job? 3, s₁.tasks.state ⟨"p/A"⟩)) =
        some (none, none, .idle) := by
    decide +kernel
  rw [hs, Option.bind_some, hs', Option.bind_some] at hlater
  obtain ⟨s₁, hs₁, hlater⟩ := Option.bind_eq_some_iff.mp hlater
  obtain ⟨s₂, hs₂, hlater⟩ := Option.bind_eq_some_iff.mp hlater
  obtain ⟨s₃, hs₃, hlater⟩ := Option.bind_eq_some_iff.mp hlater
  obtain ⟨s₄, hs₄, hlast⟩ := Option.map_eq_some_iff.mp hlater
  obtain ⟨hmiss, hnone, hidle⟩ := by simpa only [Prod.mk.injEq] using hlast
  obtain ⟨-, hcancelled⟩ := hrefused _ s₁ 3 _ _ _ s₂ _ s₃ hs₁ hs₂ hmiss hs₃
  obtain ⟨htraceless, hafter⟩ := hbroken _ s₁ 3 _ _ _ s₄ [] s₄ hs₁ hs₄ rfl
  rw [hidle, ite_self] at hafter
  exact ⟨s, s', hs, hs', hdrained, hended, (htells 2).mpr hunder, (hbetween 2 hunder).1, s₁, hs₁,
    ⟨s₂, s₃, hs₂, hs₃, hcancelled hnone (by simp [Event.Unsettles])⟩, s₄, hs₄, htraceless, hafter⟩

end Scheduler

end SmaliView
