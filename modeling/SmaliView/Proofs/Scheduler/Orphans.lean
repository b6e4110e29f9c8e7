import SmaliView.Proofs.Pipeline.Cancellation
import SmaliView.Proofs.Scheduler.Phases

/-!
# Tasks that outlive their jobs

A job that is refused or completes takes its own task from the table, and a job that leaves the
queue was cancelled by a call that has taken it. A job that ends after its check relies on such a
call, too. But there need be none: a tool can answer that it was cancelled, or fire the token that
it was given, while the task is registered. Then the task outlives the job, and its file stays
running.
-/

namespace SmaliView

variable {σ : Type}

/-! ## Tools that give up -/

/-- At this moment a tool answers that it was cancelled. -/
def Moment.GivesUp (respond : Plan.Respondent σ) (m : Moment σ) : Prop :=
  m.question ≠ .isCancelled ∧ m.Cancels respond

/-- A conversion is cancelled exactly if a moment of it tells of a cancellation. -/
theorem Pipeline.resolve_cancelled_iff (respond : Plan.Respondent σ) (p : Pipeline) (file : Path)
    (text : Option String) (s : σ) :
    ((p.resolve file text).run respond s).1 = .outcome .cancelled ↔
      ∃ m ∈ (p.resolve file text).moments respond s, m.Cancels respond := by
  obtain ⟨ms, htried, hmoments⟩ := tried_resolve respond p file text s
  rw [htried.cancelled_iff, hmoments]
  refine ⟨fun ⟨m, hm, hcancels⟩ => ⟨m, List.mem_append_right _ hm, hcancels⟩, ?_⟩
  rintro ⟨m, hm, hcancels⟩
  rcases List.mem_append.mp hm with hheader | hm
  · -- The header is looked for among the files, which tell of no cancellation.
    obtain ⟨c, q⟩ := m
    obtain rfl : q = .look := question_of_mem_headerText hheader
    cases hcancels
  · exact ⟨m, hm, hcancels⟩

namespace Scheduler

variable {n : Nat} {j : Journal} {es : List Event} {s s' : Scheduler} {e : Event} {g : Nat} {file : Path}

/-! ## How jobs end -/

/-- The job of a generation has looked at its token after converting, and a tool has fired the token
or the conversion was cancelled. -/
def BrokenOff (es : List Event) (g : Nat) : Prop :=
  .check g ∈ es ∧ (.signal g ∈ es ∨ .resolve g (.outcome .cancelled) ∈ es)

/-- A job that has broken off has done so for good. -/
theorem BrokenOff.concat (h : BrokenOff es g) (e : Event) : BrokenOff (es ++ [e]) g :=
  ⟨List.mem_append_left _ h.1, h.2.imp (List.mem_append_left _) (List.mem_append_left _)⟩

/-- A job that leaves the queue, is refused or completes has no task any more. -/
theorem Step.gone_of_end (step : Step s e s') (run : Run n j es s)
    (he : e = .leave g ∨ e = .refuse g ∨ e = .finish g) : Gone s' g := by
  -- A job that completes or is refused leaves a table in which its task is not the current one.
  have retired : ∀ {job : Job}, s.job? g = some job →
      s'.tasks.isCurrent job.task.file g = false → Gone s' g := by
    intro job hj hc
    obtain ⟨hjob, rfl⟩ := job?_eq_some hj
    have hticket := tickets_subset_concat (e := e) (run.ledger.ticketed hjob)
    exact (run.ledger.next step).gone_of_not_isCurrent hticket hc
  rcases he with rfl | rfl | rfl
  -- A token that has fired without a tool was fired by a call, and this has taken the task.
  · cases step with
    | leave hj hp hf =>
      obtain ⟨hjob, rfl⟩ := job?_eq_some hj
      have hpast := run.traced.past _ hjob
      rw [hp] at hpast
      -- While it is queued no tool works for it.
      have hquiet : .signal _ ∉ es := fun hsignal => hpast _ hsignal rfl
      exact ((run.tokens.fired _ hf).resolve_left hquiet).next (.leave hj hp hf)
  · cases step with
    | refuse hj hp hc => exact retired hj (TaskTable.isCurrent_retire ..)
  · cases step with
    | tell hj hp hc => exact retired hj (TaskTable.isCurrent_retire ..)
    | hush hj hp hc => exact retired hj hc

/-- A job that ends at its check has broken off, or its task was taken by a call. -/
theorem Run.gone_or_brokenOff (run : Run n j es s) {job : Job} {r : Resolution}
    (hjob : job ∈ s.jobs) (hp : job.phase = .resolved r)
    (hf : (r.toOutcome job.task.file).isCancelled ∨ job.task.generation ∈ s.fired) :
    Gone s job.task.generation ∨
      BrokenOff (es ++ [.check job.task.generation]) job.task.generation := by
  have hcheck : .check job.task.generation ∈ es ++ [.check job.task.generation] :=
    List.mem_append_right _ (List.mem_singleton_self _)
  rcases hf with hcancelled | hfired
  -- It is cancelled because its conversion was, of which there is an event.
  · have hpast := run.traced.past job hjob
    rw [hp] at hpast
    have hresolve : .resolve job.task.generation (.outcome .cancelled) ∈ es :=
      (hpast.2 _).mpr (Resolution.isCancelled_toOutcome.mp hcancelled).symm
    exact Or.inr ⟨hcheck, Or.inr (List.mem_append_left _ hresolve)⟩
  · rcases run.tokens.fired _ hfired with hsignal | hgone
    · exact Or.inr ⟨hcheck, Or.inl (List.mem_append_left _ hsignal)⟩
    · exact Or.inl hgone

/-- A step keeps a job, or the task of the job is gone after it, or the job has broken off. -/
theorem Step.job_ends (step : Step s e s') (run : Run n j es s) {job : Job} (hjob : job ∈ s.jobs) :
    (∃ job' ∈ s'.jobs, job'.task = job.task) ∨ Gone s' job.task.generation ∨
      BrokenOff (es ++ [e]) job.task.generation := by
  -- A job that is moved works for the same task, and a job that ends leaves all others alone.
  have moved : ∀ g phase, ∃ job' ∈ (s.setPhase g phase).jobs, job'.task = job.task := by
    intro g phase
    refine ⟨_, List.mem_map_of_mem hjob, ?_⟩
    split <;> rfl
  have others : ∀ g, job.task.generation ≠ g → ∃ job' ∈ (s.endJob g).jobs, job'.task = job.task :=
    fun g hg => ⟨job, mem_endJob.mpr ⟨hjob, hg⟩, rfl⟩
  cases step.turnover with
  | idle hw hjobs | signal hj hp hjobs => exact Or.inl ⟨job, hjobs ▸ hjob, rfl⟩
  | start hd hjobs => exact Or.inl ⟨job, hjobs ▸ List.mem_append_left _ hjob, rfl⟩
  | acquire hj hp hjobs | resolve r hj hp hjobs | pass hj hp ho hf hjobs =>
    rw [hjobs]
    exact Or.inl (moved _ _)
  | @drop g found r hj hp hf hjobs =>
    by_cases hg : job.task.generation = g
    · -- There is one job for the generation, so it is this one that has looked at its token.
      subst hg
      have hsame : found = job := Option.some.inj (hj.symm.trans (run.job?_eq_some hjob))
      subst hsame
      rcases run.gone_or_brokenOff hjob hp hf with hgone | hbroken
      · exact Or.inr (Or.inl (hgone.next step))
      · exact Or.inr (Or.inr hbroken)
    · rw [hjobs]
      exact Or.inl (others g hg)
  | @stop e g found he hj hp hjobs =>
    by_cases hg : job.task.generation = g
    · exact Or.inr (Or.inl (hg ▸ step.gone_of_end run he))
    · rw [hjobs]
      exact Or.inl (others g hg)

/-- What is left of the jobs of a run. -/
structure Attended (es : List Event) (s : Scheduler) : Prop where
  /-- A job that has left the queue, was refused or has completed has no task. -/
  retired : ∀ g, .leave g ∈ es ∨ .refuse g ∈ es ∨ .finish g ∈ es → Gone s g
  /-- The job of a task that is registered has not ended, or it has broken off. -/
  live : ∀ file task, s.tasks.current? file = some task →
    (∃ job ∈ s.jobs, job.task = task) ∨ BrokenOff es task.generation

/-- A step keeps every registered task attended: its job is there or has broken off. -/
theorem Attended.next (h : Attended es s) (run : Run n j es s) (step : Step s e s') :
    Attended (es ++ [e]) s' where
  retired g hg := by
    have hcases : (.leave g ∈ es ∨ .refuse g ∈ es ∨ .finish g ∈ es) ∨
        (e = .leave g ∨ e = .refuse g ∨ e = .finish g) := by
      simp only [List.mem_append, List.mem_singleton, eq_comm (b := e)] at hg
      tauto
    rcases hcases with hold | hnew
    · exact (h.retired g hold).next step
    · exact step.gone_of_end run hnew
  live file task ht := by
    -- A task of before keeps its job, or the job has ended and says why; a new task has a new job.
    rcases step.current? ht with hold | ⟨snapshot, text, rfl, hplace⟩
    · rcases h.live file task hold with ⟨job, hjob, rfl⟩ | hbroken
      · rcases step.job_ends run hjob with hkept | hgone | hbroken
        · exact Or.inl hkept
        · exact absurd rfl (hgone.removed file job.task ht)
        · exact Or.inr hbroken
      · exact Or.inr (hbroken.concat e)
    · cases step with
      | request _ _ _ hg =>
        -- A request that registers a task has started a job for it.
        rw [answered_current?, if_pos hplace.symm] at ht
        rw [answered_jobs]
        unfold accepted at ht
        unfold started
        split at ht
        · cases ht
        · exact Or.inl ⟨_, List.mem_append_right _ (List.mem_singleton_self _), rfl⟩

/-- In every run the tasks are attended. -/
theorem Run.attended (run : Run n j es s) : Attended es s := by
  induction run with
  | start =>
    exact {
      retired := fun g hg => by rcases hg with hg | hg | hg <;> cases hg
      live := fun file task ht => by cases ht }
  | next run step ih => exact ih.next run (step_of_eq_some step)

/-- A job that has broken off has ended. -/
theorem Run.job?_of_brokenOff (run : Run n j es s) (h : BrokenOff es g) : s.job? g = none := by
  rw [job?_eq_none]
  rintro job hjob rfl
  obtain ⟨hcheck, hwhy⟩ := h
  have hpast := run.traced.past job hjob
  -- In every phase it would still have to look at its token, or it has found nothing wrong.
  cases hp : job.phase with
  | queued => rw [hp] at hpast; exact hpast _ hcheck rfl
  | resolving => rw [hp] at hpast; exact hpast.1 hcheck
  | resolved r => rw [hp] at hpast; exact hpast.1 hcheck
  | checked o => rw [hp] at hpast; exact hwhy.elim hpast.1 hpast.2

/-- The job of a registered task has ended exactly if it has broken off. -/
theorem Run.job?_eq_none_iff (run : Run n j es s) {task : Task}
    (ht : s.tasks.current? file = some task) :
    s.job? task.generation = none ↔ BrokenOff es task.generation := by
  refine ⟨fun hnone => ?_, run.job?_of_brokenOff⟩
  refine (run.attended.live file task ht).resolve_left ?_
  rintro ⟨job, hjob, rfl⟩
  exact job?_eq_none.mp hnone job hjob rfl

/-! ## Conversions with tools -/

/-- In a run every job converts with the tools of its generation, and a check that is told that the
token has fired is right. -/
structure Converts (p : Pipeline) (respond : Nat → Plan.Respondent σ) (start : Nat → σ)
    (es : List Event) (s : Scheduler) : Prop where
  resolved : ∀ g file snapshot text r, .request g file snapshot text ∈ es → .resolve g r ∈ es →
    r = ((p.resolve file text).run (respond g) (start g)).1
  heard : ∀ g file snapshot text r, .request g file snapshot text ∈ es → .resolve g r ∈ es →
    ∀ m ∈ (p.resolve file text).moments (respond g) (start g),
      m.question = .isCancelled → m.Cancels (respond g) → g ∈ s.fired

variable {p : Pipeline} {respond : Nat → Plan.Respondent σ} {start : Nat → σ}

/-- A job whose task is registered has broken off exactly if it looked at its token after a tool
gave up or fired it. -/
theorem Converts.brokenOff_iff (converts : Converts p respond start es s) (run : Run n j es s)
    {task : Task} (ht : s.tasks.current? file = some task) :
    BrokenOff es task.generation ↔ .check task.generation ∈ es ∧
      (.signal task.generation ∈ es ∨
        ∃ snapshot text, .request task.generation task.file snapshot text ∈ es ∧
          ∃ m ∈ (p.resolve task.file text).moments (respond task.generation)
            (start task.generation), m.GivesUp (respond task.generation)) := by
  refine and_congr_right fun hcheck => ?_
  -- A job that has looked at its token has resolved, to what its conversion came to.
  obtain ⟨r, hr⟩ := run.traced.resolved _ hcheck
  constructor
  · rintro (hsignal | hcancelled)
    · exact Or.inl hsignal
    · obtain ⟨file', snapshot, text, hrequest⟩ := run.traced.requested _ hr _ rfl
      -- The job works for the request of its generation, and so for the file of the task.
      have hticket : ⟨file', task.generation⟩ ∈ tickets es := mem_tickets.mpr ⟨_, hrequest, rfl⟩
      have hfile : file' = task.file :=
        congrArg Ticket.file (run.ledger.ticket_ext hticket (run.ledger.registered file task ht) rfl)
      subst hfile
      have hresult := converts.resolved _ _ _ _ _ hrequest hcancelled
      obtain ⟨m, hm, hcancels⟩ := (Pipeline.resolve_cancelled_iff ..).mp hresult.symm
      by_cases hq : m.question = .isCancelled
      · -- The token of a registered task has fired only if a tool has fired it.
        have hfired := converts.heard _ _ _ _ _ hrequest hr m hm hq hcancels
        exact Or.inl ((run.tokens.signalled_iff ht).mp hfired)
      · exact Or.inr ⟨snapshot, text, hrequest, m, hm, hq, hcancels⟩
  · rintro (hsignal | ⟨snapshot, text, hrequest, m, hm, -, hcancels⟩)
    · exact Or.inl hsignal
    · have hresult := converts.resolved _ _ _ _ _ hrequest hr
      -- A conversion in which a tool gives up is cancelled.
      rw [(Pipeline.resolve_cancelled_iff ..).mpr ⟨m, hm, hcancels⟩] at hresult
      exact Or.inr (hresult ▸ hr)

/-- **A registered task has a job, unless a tool gave up of its own accord.** In every run, whatever
the tools answer and whenever they do:

* the tasks that count as in flight are the registered ones, and a file is running exactly while one
  is registered for it;
* a job that has left the queue, was refused or has completed has no task that is registered;
* the job of a registered task has ended exactly if it looked at its token after a tool has fired
  the token or has answered that it was cancelled. -/
theorem registered_task_has_job_unless_tool_gave_up (run : (new n j).steps es = some s)
    (converts : Converts p respond start es s) :
    (s.tasks.inFlight = s.tasks.running.values.length ∧
      ∀ task, task ∈ s.tasks.running.values ↔ s.tasks.current? task.file = some task) ∧
    (∀ file, s.tasks.state file = .running ↔ ∃ task, s.tasks.current? file = some task) ∧
    (∀ g, .leave g ∈ es ∨ .refuse g ∈ es ∨ .finish g ∈ es →
      ∀ file task, s.tasks.current? file = some task → task.generation ≠ g) ∧
    (∀ file task, s.tasks.current? file = some task →
      (s.job? task.generation = none ↔ .check task.generation ∈ es ∧
        (.signal task.generation ∈ es ∨
          ∃ snapshot text, .request task.generation task.file snapshot text ∈ es ∧
            ∃ m ∈ (p.resolve task.file text).moments (respond task.generation)
              (start task.generation), m.GivesUp (respond task.generation)))) := by
  have run := run_of_steps run
  refine ⟨⟨(List.length_map ..).symm, fun task => run.tidy.mem_values_iff⟩,
    fun file => run.tidy.state_eq_running_iff, ?_, ?_⟩
  · intro g hended file task ht
    exact (run.attended.retired g hended).removed file task ht
  · intro file task ht
    rw [run.job?_eq_none_iff ht, converts.brokenOff_iff run ht]

/-- An assembler that answers that it was cancelled, and a decompiler that would succeed. -/
def givingUpTools : Toolbox where
  assembler := {
    label := ⟨"assembler", "install it"⟩
    ready := return true
    assemble := fun _ => throw (.error .cancelled) }
  decompiler := {
    label := ⟨"decompiler", "install it"⟩
    ready := return true
    decompile := fun request => return { status := .success, tree := some request.output } }

/-- A request for a unit whose assembler gives up. -/
def givingUp : List Event :=
  [.draw, .request 1 ⟨"/p/smali/A.smali"⟩ (.disk ⟨0, 0⟩ 1) none, .acquire 1,
    .resolve 1 (.outcome .cancelled), .check 1]

/-- A tool that gives up makes the conversion end as cancelled. -/
theorem givingUp_cancelled :
    ((Pipeline.plain.resolve ⟨"/p/smali/A.smali"⟩ none).run (Bench.respond givingUpTools)
      ({ tree := unitTree }, {})).1 = .outcome .cancelled := by
  decide +kernel

/-- No check of this conversion is told that the token has fired. -/
theorem givingUp_unfired {m : Moment Bench.Turn}
    (hm : m ∈ (Pipeline.plain.resolve ⟨"/p/smali/A.smali"⟩ none).moments
      (Bench.respond givingUpTools) ({ tree := unitTree }, {}))
    (hcancels : m.Cancels (Bench.respond givingUpTools)) : m.question ≠ .isCancelled := by
  -- The conversion is carried out, and the token is looked at in each of its states.
  have huntold : ∀ m ∈ (Pipeline.plain.resolve ⟨"/p/smali/A.smali"⟩ none).moments
      (Bench.respond givingUpTools) ({ tree := unitTree }, {}),
      Plan.told (Bench.respond givingUpTools) m.state = false := by decide +kernel
  intro hq
  have huntold := huntold m hm
  obtain ⟨c, q⟩ := m
  obtain rfl : q = .isCancelled := hq
  have htold : Plan.told (Bench.respond givingUpTools) c = true := hcancels
  rw [huntold] at htold
  cases htold

theorem givingUp_converts (s : Scheduler) :
    Converts Pipeline.plain (fun _ => Bench.respond givingUpTools)
      (fun _ => ({ tree := unitTree }, {})) givingUp s where
  resolved g file snapshot text r hrequest hresolve := by
    simp only [givingUp, List.mem_cons, List.not_mem_nil, Event.request.injEq,
      Event.resolve.injEq, reduceCtorEq, or_false, false_or] at hrequest hresolve
    obtain ⟨rfl, rfl, rfl, rfl⟩ := hrequest
    rw [hresolve.2, givingUp_cancelled]
  heard g file snapshot text r hrequest hresolve m hm hq hcancels := by
    simp only [givingUp, List.mem_cons, List.not_mem_nil, Event.request.injEq,
      reduceCtorEq, or_false, false_or] at hrequest
    obtain ⟨rfl, rfl, rfl, rfl⟩ := hrequest
    exact absurd hq (givingUp_unfired hm hcancels)

/-- The job has ended and nobody has cancelled it, but its task stays in flight. -/
theorem given_up_task_stays_registered :
    ∃ s, (new 1 .silent).steps givingUp = some s ∧ s.job? 1 = none ∧ s.tasks.inFlight = 1 ∧
      s.tasks.state ⟨"/p/smali/A.smali"⟩ = .running := by
  have hrun : ((new 1 .silent).steps givingUp).map (fun s =>
      (s.tasks.current? ⟨"/p/smali/A.smali"⟩, s.tasks.inFlight)) =
        some (some ⟨⟨"/p/smali/A.smali"⟩, 1⟩, 1) := by decide +kernel
  obtain ⟨s, hs, h⟩ := Option.map_eq_some_iff.mp hrun
  obtain ⟨hcurrent, hinFlight⟩ := Prod.mk.inj h
  obtain ⟨-, hstate, -, hended⟩ :=
    registered_task_has_job_unless_tool_gave_up hs (givingUp_converts s)
  obtain ⟨m, hm, hcancels⟩ := (Pipeline.resolve_cancelled_iff ..).mp givingUp_cancelled
  refine ⟨s, hs, (hended _ _ hcurrent).mpr ⟨by simp [givingUp], Or.inr ?_⟩, hinFlight,
    (hstate _).mpr ⟨_, hcurrent⟩⟩
  exact ⟨.disk ⟨0, 0⟩ 1, none, by simp [givingUp], m, hm, givingUp_unfired hm hcancels, hcancels⟩

end Scheduler

end SmaliView
