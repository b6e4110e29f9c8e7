import SmaliView.Proofs.Scheduler.Delivery
import SmaliView.Proofs.Scheduler.Registry

/-!
# Tokens and phases in a run

A token fires because a tool fires it or because its task was taken from the table (`Tokens`). A job
goes through its phases in order, so that its phase tells which of its steps a run has made
(`Past`). Both go from a step lemma to all runs.
-/

namespace SmaliView

/-- Only a conversion that answers so counts as cancelled; one that broke off has failed. -/
theorem Resolution.isCancelled_toOutcome {r : Resolution} {file : Path} :
    (r.toOutcome file).isCancelled = true ↔ r = .outcome .cancelled := by
  cases r with
  | outcome o => cases o <;> simp [Resolution.toOutcome, Outcome.isCancelled]
  | panicked message => simp [Resolution.toOutcome, Outcome.isCancelled]

namespace Scheduler

variable {n : Nat} {j : Journal} {es : List Event} {s s' : Scheduler} {e : Event} {g : Nat}

/-! ## Tokens -/

/-- The steps that fire a token. -/
inductive Fires (s : Scheduler) : Event → Nat → Prop where
  | signal (g : Nat) : Fires s (.signal g) g
  | dismiss {task : Task} (ht : task ∈ s.drained) : Fires s (.dismiss task) task.generation
  /-- A call fires the token of the task that it takes from the table. -/
  | take {e : Event} {file : Path} {task : Task} (ht : s.tasks.current? file = some task)
      (he : e.Removes file) : Fires s e task.generation

/-- A token that has fired after a step had fired before, or the step has a reason to fire it. -/
theorem Step.mem_fired (step : Step s e s') (hg : g ∈ s'.fired) :
    g ∈ s.fired ∨ Fires s e g := by
  -- A call that takes the task of a file fires this one token.
  have taken : ∀ file, g ∈ (s.tasks.current? file).toList.map Task.generation ++ s.fired →
      e.Removes file → g ∈ s.fired ∨ Fires s e g := by
    intro file hmem hremoves
    rcases List.mem_append.mp hmem with hnew | hold
    · obtain ⟨task, htask, rfl⟩ := List.mem_map.mp hnew
      exact Or.inr (.take (Option.mem_toList.mp htask) hremoves)
    · exact Or.inl hold
  cases step with
  | request file snapshot text hd => rw [answered_fired] at hg; exact taken file hg rfl
  | abort file snapshot text hd => rw [aborted_fired] at hg; exact taken file hg rfl
  | fail file why hd => rw [failAs_fired] at hg; exact taken file hg rfl
  | cancel file => rw [cancel_fired] at hg; exact taken file hg rfl
  | dismiss ht =>
    rcases List.mem_cons.mp hg with rfl | hold
    · exact Or.inr (.dismiss ht)
    · exact Or.inl hold
  | signal hj hp =>
    rcases List.mem_cons.mp hg with rfl | hold
    · exact Or.inr (.signal g)
    · exact Or.inl hold
  | _ => exact Or.inl hg

/-- A token that has fired stays so. -/
theorem Step.fired_subset (step : Step s e s') : s.fired ⊆ s'.fired := by
  cases step with
  | request file snapshot text hd => rw [answered_fired]; exact List.subset_append_right _ _
  | abort file snapshot text hd => rw [aborted_fired]; exact List.subset_append_right _ _
  | fail file why hd => rw [failAs_fired]; exact List.subset_append_right _ _
  | cancel file => rw [cancel_fired]; exact List.subset_append_right _ _
  | dismiss ht => exact List.subset_cons_self _ _
  | signal hj hp => exact List.subset_cons_self _ _
  | _ => exact List.Subset.refl _

/-- Only a shutdown takes tasks that it does not cancel at once. -/
theorem Step.mem_drained (step : Step s e s') {task : Task} (ht : task ∈ s'.drained) :
    task ∈ s.drained ∨ e = .drain ∧ task ∈ s.tasks.running.values := by
  cases step with
  | request file snapshot text hd => rw [answered_drained] at ht; exact Or.inl ht
  | fail file why hd => rw [failAs_drained] at ht; exact Or.inl ht
  | cancel file => rw [cancel_drained] at ht; exact Or.inl ht
  | drain =>
    rcases List.mem_append.mp ht with hold | hnew
    · exact Or.inl hold
    · exact Or.inr ⟨rfl, hnew⟩
  | dismiss hd => exact Or.inl (List.mem_of_mem_erase ht)
  | _ => exact Or.inl ht

/-- Why the tokens of a state have fired. -/
structure Tokens (es : List Event) (s : Scheduler) : Prop where
  signalled : ∀ g, .signal g ∈ es → g ∈ s.fired
  /-- A token that no tool has fired belongs to a task that was taken from the table. -/
  fired : ∀ g ∈ s.fired, .signal g ∈ es ∨ Gone s g
  drained : ∀ task ∈ s.drained, Gone s task.generation

/-- A step fires tokens for a reason only, and every reason is kept. -/
theorem Tokens.next (h : Tokens es s) (l : Ledger es s) (tidy : s.tasks.Tidy)
    (step : Step s e s') : Tokens (es ++ [e]) s' where
  signalled g hg := by
    rcases List.mem_append.mp hg with hold | hnew
    · exact step.fired_subset (h.signalled g hold)
    · obtain rfl := List.mem_singleton.mp hnew
      cases step with
      | signal hj hp => exact List.mem_cons_self
  fired g hg := by
    rcases step.mem_fired hg with hold | fires
    · exact (h.fired g hold).imp (List.mem_append_left _) fun gone => gone.next step
    · cases fires with
      -- The new reason is the step itself: a tool fires the token, or a call takes the task or has
      -- taken it.
      | signal => exact Or.inl (List.mem_append_right _ (List.mem_singleton_self _))
      | dismiss ht => exact Or.inr ((h.drained _ ht).next step)
      | take ht he => exact Or.inr (l.gone ht he step)
  drained task ht := by
    rcases step.mem_drained ht with hold | ⟨rfl, hvalue⟩
    · exact (h.drained task hold).next step
    -- A task that a shutdown takes is off the table from here on.
    · have hremoves : Event.Removes task.file .drain := True.intro
      exact l.gone (tidy.mem_values_iff.mp hvalue) hremoves step

/-- In every run the tokens have fired for a reason. -/
theorem Run.tokens (run : Run n j es s) : Tokens es s := by
  induction run with
  | start =>
    exact {
      signalled := fun g hg => by cases hg
      fired := fun g hg => by cases hg
      drained := fun task ht => by cases ht }
  | next run step ih => exact ih.next run.ledger run.tidy (step_of_eq_some step)

/-- A token of a registered task was fired by a tool. -/
theorem Tokens.signalled_iff (h : Tokens es s) {file : Path} {task : Task}
    (ht : s.tasks.current? file = some task) :
    task.generation ∈ s.fired ↔ .signal task.generation ∈ es := by
  -- The other reason for a token to fire is that the task is gone, and it is registered.
  refine ⟨fun hf => ?_, h.signalled _⟩
  exact (h.fired _ hf).resolve_right fun gone => gone.removed file task ht rfl

/-! ## One job for a generation -/

/-- A step starts at most one job, for the generation of its call. -/
theorem Step.job_generations (step : Step s e s') :
    (s'.jobs.map (·.task.generation)).Sublist (s.jobs.map (·.task.generation)) ∨
      ∃ g ∈ s.drawn, s'.jobs.map (·.task.generation) = s.jobs.map (·.task.generation) ++ [g] := by
  -- Moving a job leaves its generation.
  have moved : ∀ g phase,
      (s.setPhase g phase).jobs.map (·.task.generation) = s.jobs.map (·.task.generation) := by
    intro g phase
    rw [setPhase, List.map_map]
    refine List.map_congr_left fun job _ => ?_
    show (if job.task.generation = g then { job with phase } else job).task.generation = _
    split <;> rfl
  cases step.turnover with
  | idle hw hjobs | signal hj hp hjobs => rw [hjobs]; exact Or.inl (List.Sublist.refl _)
  | start hd hjobs => rw [hjobs]; exact Or.inr ⟨_, hd, List.map_append⟩
  | acquire hj hp hjobs | resolve r hj hp hjobs | pass hj hp ho hf hjobs =>
    rw [hjobs, moved]
    exact Or.inl (List.Sublist.refl _)
  | drop hj hp hf hjobs | stop he hj hp hjobs =>
    rw [hjobs]
    exact Or.inl (List.filter_sublist.map _)

/-- In every run a generation has at most one job. -/
theorem Run.job_generations_nodup (run : Run n j es s) :
    (s.jobs.map (·.task.generation)).Nodup := by
  induction run with
  | start => exact List.nodup_nil
  | next run step ih =>
    rcases (step_of_eq_some step).job_generations with hsub | ⟨g, hg, heq⟩
    · exact ih.sublist hsub
    · rw [heq, List.nodup_append]
      refine ⟨ih, List.nodup_singleton g, ?_⟩
      intro a ha b hb
      obtain ⟨job, hjob, rfl⟩ := List.mem_map.mp ha
      obtain rfl := List.mem_singleton.mp hb
      rintro rfl
      -- The generation of a job has been used.
      exact run.ledger.not_mem_drawn (run.ledger.ticketed hjob) hg

/-- A generation has no job exactly if no job has the generation. -/
theorem job?_eq_none : s.job? g = none ↔ ∀ job ∈ s.jobs, job.task.generation ≠ g := by
  rw [job?, List.find?_eq_none]
  simp

/-- A job is the job of its generation. -/
theorem Run.job?_eq_some (run : Run n j es s) {job : Job} (hjob : job ∈ s.jobs) :
    s.job? job.task.generation = some job := by
  cases hfound : s.job? job.task.generation with
  | none => exact absurd rfl (job?_eq_none.mp hfound job hjob)
  | some found =>
    obtain ⟨hmem, hgen⟩ := Scheduler.job?_eq_some hfound
    -- Both have the generation, and only one job has it.
    rw [List.inj_on_of_nodup_map run.job_generations_nodup hmem hjob hgen]

/-! ## Phases -/

/-- The steps of jobs that move one to its next phase, or leave it where it is. -/
inductive Moves (s : Scheduler) (g : Nat) : Event → Phase → Phase → Prop where
  | acquire : Moves s g (.acquire g) .queued .resolving
  | signal : Moves s g (.signal g) .resolving .resolving
  | resolve (r : Resolution) : Moves s g (.resolve g r) .resolving (.resolved r)
  | pass {r : Resolution} {o : Outcome} (hr : r ≠ .outcome .cancelled) (hf : g ∉ s.fired) :
      Moves s g (.check g) (.resolved r) (.checked o)

/-- A job in the next phase is the one that was moved, or another one as it was. -/
theorem mem_setPhase_cases {phase : Phase} {job : Job} (h : job ∈ (s.setPhase g phase).jobs) :
    job.task.generation = g ∧ job.phase = phase ∨ job.task.generation ≠ g ∧ job ∈ s.jobs := by
  obtain ⟨old, hold, rfl⟩ := List.mem_map.mp h
  by_cases hg : old.task.generation = g
  · rw [if_pos hg]; exact Or.inl ⟨hg, rfl⟩
  · rw [if_neg hg]; exact Or.inr ⟨hg, hold⟩

/-- How a job that is there after a step comes from the state before. -/
inductive Arises (s : Scheduler) (e : Event) (job : Job) : Prop where
  /-- The step has moved it. -/
  | moved {old : Job} (hold : old ∈ s.jobs) (hg : old.task.generation = job.task.generation)
      (moves : Moves s job.task.generation e old.phase job.phase)
  /-- The step is not its own. -/
  | kept (hold : job ∈ s.jobs) (hw : e.worker? ≠ some job.task.generation)
  /-- The step has started it. -/
  | started (ht : e.ticket? = some job.task.ticket) (hp : job.phase = .queued)

/-- The jobs that are there after a move. -/
theorem Arises.of_setPhase {phase : Phase} {old job : Job} (hj : s.job? g = some old)
    (hw : e.worker? = some g) (moves : Moves s g e old.phase phase)
    (hjob : job ∈ (s.setPhase g phase).jobs) : Arises s e job := by
  obtain ⟨hold, hg⟩ := job?_eq_some hj
  -- Only the job that takes the step is in another phase.
  rcases mem_setPhase_cases hjob with ⟨rfl, rfl⟩ | ⟨hne, hmem⟩
  · exact .moved hold hg moves
  · refine .kept hmem ?_
    rw [hw]
    exact fun h => hne (Option.some.inj h).symm

/-- The jobs that are left after one has ended. -/
theorem Arises.of_endJob {job : Job} (hw : e.worker? = some g)
    (hjob : job ∈ (s.endJob g).jobs) : Arises s e job := by
  obtain ⟨hmem, hne⟩ := mem_endJob.mp hjob
  refine .kept hmem ?_
  rw [hw]
  exact fun h => hne (Option.some.inj h).symm

/-- Where the jobs after a step come from, whichever event it is. -/
theorem Step.arises (step : Step s e s') (run : Run n j es s) {job : Job} (hjob : job ∈ s'.jobs) :
    Arises s e job := by
  cases step.turnover with
  | idle hw hjobs =>
    rw [hjobs] at hjob
    exact .kept hjob (by rw [hw]; nofun)
  | start hd hjobs =>
    rw [hjobs] at hjob
    rcases List.mem_append.mp hjob with hold | hnew
    · exact .kept hold nofun
    · obtain rfl := List.mem_singleton.mp hnew
      exact .started rfl rfl
  | acquire hj hp hjobs => exact .of_setPhase hj rfl (hp ▸ .acquire) (hjobs ▸ hjob)
  | resolve r hj hp hjobs => exact .of_setPhase hj rfl (hp ▸ .resolve r) (hjobs ▸ hjob)
  | pass hj hp ho hf hjobs =>
    refine .of_setPhase hj rfl (hp ▸ .pass ?_ hf) (hjobs ▸ hjob)
    rintro rfl
    cases ho
  | @signal g old hj hp hjobs =>
    rw [hjobs] at hjob
    by_cases hg : job.task.generation = g
    · -- The job of this generation is the one that was found resolving.
      subst hg
      have hsame : old = job := Option.some.inj (hj.symm.trans (run.job?_eq_some hjob))
      subst hsame
      exact .moved hjob rfl (hp.symm ▸ .signal)
    · exact .kept hjob fun h => hg (Option.some.inj h).symm
  | drop hj hp hf hjobs => exact .of_endJob rfl (hjobs ▸ hjob)
  | stop he hj hp hjobs => exact .of_endJob (Event.worker?_of_end he) (hjobs ▸ hjob)

/-! ## What a phase tells of a run -/

/-- What belongs to a job was in the run before a step that does not. -/
theorem mem_concat_of_worker {e' : Event} (he' : e'.worker? = some g) (he : e.worker? ≠ some g) :
    e' ∈ es ++ [e] ↔ e' ∈ es := by
  rw [List.mem_append, List.mem_singleton, or_iff_left]
  rintro rfl
  exact he he'

/-- What the job of a generation has done when it is in a phase, and what it has not. -/
def Past (g : Nat) (es : List Event) : Phase → Prop
  | .queued => ∀ e ∈ es, e.worker? ≠ some g
  | .resolving => .check g ∉ es ∧ ∀ r, .resolve g r ∉ es
  | .resolved r => .check g ∉ es ∧ ∀ r', .resolve g r' ∈ es ↔ r' = r
  | .checked _ => .signal g ∉ es ∧ .resolve g (.outcome .cancelled) ∉ es

/-- The steps of others do not count for a job. -/
theorem Past.concat {phase : Phase} (h : Past g es phase) (he : e.worker? ≠ some g) :
    Past g (es ++ [e]) phase := by
  have hiff : ∀ {e' : Event}, e'.worker? = some g → (e' ∈ es ++ [e] ↔ e' ∈ es) :=
    fun he' => mem_concat_of_worker he' he
  cases phase with
  | queued => exact fun e' he' hw => h e' ((hiff hw).mp he') hw
  | resolving => exact ⟨mt (hiff rfl).mp h.1, fun r => mt (hiff rfl).mp (h.2 r)⟩
  | resolved r => exact ⟨mt (hiff rfl).mp h.1, fun r' => (hiff rfl).trans (h.2 r')⟩
  | checked o => exact ⟨mt (hiff rfl).mp h.1, mt (hiff rfl).mp h.2⟩

/-- A move keeps the past of a job, and its event belongs to it. -/
theorem Moves.past {phase phase' : Phase} (moves : Moves s g e phase phase')
    (h : Past g es phase) (signalled : .signal g ∈ es → g ∈ s.fired) :
    Past g (es ++ [e]) phase' := by
  cases moves with
  -- A queued job has done nothing yet, so the step is the first one.
  | acquire =>
    refine ⟨fun hc => ?_, fun r hr => ?_⟩
    · have hold : .check g ∈ es := by simpa using hc
      exact h _ hold rfl
    · have hold : .resolve g r ∈ es := by simpa using hr
      exact h _ hold rfl
  | signal =>
    refine ⟨fun hc => h.1 ?_, fun r hr => h.2 r ?_⟩
    · simpa using hc
    · simpa using hr
  | resolve r =>
    refine ⟨fun hc => h.1 ?_, fun r' => ?_⟩
    · simpa using hc
    · have hnone := h.2 r'
      simp [hnone]
  -- It has passed its check: the token had not fired, and it had resolved to something else.
  | pass hr hf =>
    refine ⟨fun hs => hf (signalled ?_), fun hc => hr ?_⟩
    · simpa using hs
    · have hold : .resolve g (.outcome .cancelled) ∈ es := by simpa using hc
      exact ((h.2 _).mp hold).symm

/-- A call is no step of a job. -/
theorem Event.worker?_of_ticket? {t : Ticket} (ht : e.ticket? = some t) : e.worker? = none := by
  cases e with
  | request | fail => rfl
  | _ => cases ht

/-- What a run tells of its jobs. -/
structure Traced (es : List Event) (s : Scheduler) : Prop where
  /-- Only jobs of requests take steps. -/
  requested : ∀ e ∈ es, ∀ g, e.worker? = some g →
    ∃ file snapshot text, .request g file snapshot text ∈ es
  past : ∀ job ∈ s.jobs, Past job.task.generation es job.phase
  /-- A job that looks at its token has resolved. -/
  resolved : ∀ g, .check g ∈ es → ∃ r, .resolve g r ∈ es

/-- A step of a job needs the job. -/
theorem Step.working (step : Step s e s') (hw : e.worker? = some g) :
    ∃ job ∈ s.jobs, job.task.generation = g := by
  cases step with
  | leave hj | refuse hj | acquire hj | signal hj | resolve r hj | drop hj | pass hj | tell hj
  | hush hj => cases hw; exact ⟨_, job?_eq_some hj⟩
  | _ => cases hw

/-- A step extends what a job is known to have done. -/
theorem Traced.next (h : Traced es s) (run : Run n j es s) (step : Step s e s') :
    Traced (es ++ [e]) s' where
  requested e' he' g hw := by
    have hrequest : ∃ file snapshot text, .request g file snapshot text ∈ es := by
      rcases List.mem_append.mp he' with hold | hnew
      · exact h.requested e' hold g hw
      · obtain rfl := List.mem_singleton.mp hnew
        obtain ⟨job, hjob, rfl⟩ := step.working hw
        exact ⟨_, _, _, run.ledger.working job hjob⟩
    obtain ⟨file, snapshot, text, hmem⟩ := hrequest
    exact ⟨file, snapshot, text, List.mem_append_left _ hmem⟩
  past job hjob := by
    cases step.arises run hjob with
    | @moved old hold hg moves =>
      exact moves.past (hg ▸ h.past old hold) (run.tokens.signalled _)
    | kept hold hw => exact (h.past job hold).concat hw
    | started ht hp =>
      have hdrawn : job.task.generation ∈ s.drawn := step.mem_drawn ht
      rw [hp]
      intro e' he' hw
      -- A generation that waits for its call has no steps, and the call is none itself.
      rcases List.mem_append.mp he' with hold | hnew
      · obtain ⟨file, snapshot, text, hmem⟩ := h.requested e' hold _ hw
        have hticket : ⟨file, job.task.generation⟩ ∈ tickets es := mem_tickets.mpr ⟨_, hmem, rfl⟩
        exact run.ledger.not_mem_drawn hticket hdrawn
      · obtain rfl := List.mem_singleton.mp hnew
        rw [Event.worker?_of_ticket? ht] at hw
        cases hw
  resolved g hg := by
    have hresolve : ∃ r, .resolve g r ∈ es := by
      rcases List.mem_append.mp hg with hold | hnew
      · exact h.resolved g hold
      · obtain rfl := List.mem_singleton.mp hnew
        have resolved : ∀ {job r}, s.job? g = some job → job.phase = .resolved r →
            .resolve g r ∈ es := by
          intro job r hj hp
          obtain ⟨hjob, rfl⟩ := job?_eq_some hj
          have hpast := h.past job hjob
          rw [hp] at hpast
          exact (hpast.2 r).mpr rfl
        cases step with
        | drop hj hp hf => exact ⟨_, resolved hj hp⟩
        | pass hj hp ho hf => exact ⟨_, resolved hj hp⟩
    obtain ⟨r, hr⟩ := hresolve
    exact ⟨r, List.mem_append_left _ hr⟩

/-- In every run the phase of a job tells what it has done. -/
theorem Run.traced (run : Run n j es s) : Traced es s := by
  induction run with
  | start =>
    exact {
      requested := fun e he => by cases he
      past := fun job hjob => by cases hjob
      resolved := fun g hg => by cases hg }
  | next run step ih => exact ih.next run (step_of_eq_some step)

end Scheduler

end SmaliView
