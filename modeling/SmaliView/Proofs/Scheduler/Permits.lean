import Mathlib.Tactic.IntervalCases
import SmaliView.Proofs.Scheduler.Shutdown

/-!
# Permits

The scheduler counts the jobs that are converting to see whether another one may. This amounts to a
pool of permits: a job takes one when it starts to convert and gives it back when it ends, whatever
becomes of its task meanwhile and whatever it comes to. In every run the permits that are free and
the conversions under way add up to the same number (`Pooled`), and a conversion whose token fired
before it got its permit begins no stage.
-/

namespace SmaliView

variable {σ : Type}

namespace Scheduler

variable {n : Nat} {j : Journal} {es : List Event} {s s' : Scheduler} {e : Event} {g : Nat}

/-! ## Pools -/

/-- A pool of permits. -/
structure Pool where
  free : Nat
  /-- Whether permits are no longer given. -/
  closed : Bool := false
deriving DecidableEq, Repr

namespace Pool

def acquire? (pool : Pool) : Option Pool :=
  if pool.closed = false ∧ 0 < pool.free then some { pool with free := pool.free - 1 } else none

def release (pool : Pool) : Pool := { pool with free := pool.free + 1 }

/-- What an event does to the pool, if the pool lets it happen. -/
def after? (pool : Pool) : Event → Option Pool
  | .acquire _ => pool.acquire?
  | .resolve .. => some pool.release
  | .close => some { pool with closed := true }
  | _ => some pool

/-- What is left of the pool after a list of events. -/
def replay? (pool : Pool) (es : List Event) : Option Pool :=
  es.foldlM after? pool

/-- Replaying one event more is replaying the run and then this event. -/
theorem replay?_concat (pool : Pool) (es : List Event) (e : Event) :
    pool.replay? (es ++ [e]) = (pool.replay? es).bind (·.after? e) := by
  rw [replay?, List.foldlM_append]
  show (List.foldlM after? pool es >>= fun pool => [e].foldlM after? pool) = _
  simp [replay?]

/-- The pool gives a permit while it is open and has one. -/
theorem acquire?_isSome {pool : Pool} :
    pool.acquire?.isSome ↔ pool.closed = false ∧ 0 < pool.free := by
  unfold acquire?
  split <;> simp_all

end Pool

/-! ## Conversions under way -/

/-- The conversions under way after an event, by their generations. -/
def Event.hold (c : List Nat) : Event → List Nat
  | .acquire g => g :: c
  | .resolve g _ => c.erase g
  | _ => c

/-- The conversions that have begun in a list of events and have not ended. -/
def converting (es : List Event) : List Nat :=
  es.foldl Event.hold []

theorem converting_concat (es : List Event) (e : Event) :
    converting (es ++ [e]) = e.hold (converting es) := by
  rw [converting, List.foldl_append]
  rfl

/-- An event adds the job that takes a permit and drops the one that gives it back. -/
theorem mem_hold {c : List Nat} (hc : c.Nodup) :
    g ∈ e.hold c ↔ e = .acquire g ∨ g ∈ c ∧ ∀ r, e ≠ .resolve g r := by
  cases e with
  | acquire g' => simp [Event.hold, eq_comm]
  | resolve g' r => simp [Event.hold, hc.mem_erase_iff, and_comm, eq_comm]
  | _ => simp [Event.hold]

/-- No job holds two permits, if none takes a second one. -/
theorem nodup_hold {c : List Nat} (hc : c.Nodup) (he : ∀ g, e = .acquire g → g ∉ c) :
    (e.hold c).Nodup := by
  cases e with
  | acquire g => exact List.nodup_cons.mpr ⟨he g rfl, hc⟩
  | resolve g r => exact hc.erase g
  | _ => exact hc

/-- In which order the permits are held does not matter to an event. -/
theorem perm_hold (e : Event) {c c' : List Nat} (h : c.Perm c') : (e.hold c).Perm (e.hold c') := by
  cases e with
  | acquire g => exact h.cons g
  | resolve g r => exact h.erase g
  | _ => exact h

/-! ## Who holds a permit -/

def holders (s : Scheduler) : List Nat :=
  s.resolving.map (·.task.generation)

theorem mem_holders :
    g ∈ s.holders ↔ ∃ job ∈ s.jobs, job.task.generation = g ∧ job.phase = .resolving := by
  simp only [holders, resolving, List.mem_map, List.mem_filter, beq_iff_eq]
  exact ⟨fun ⟨job, ⟨hjob, hp⟩, hg⟩ => ⟨job, hjob, hg, hp⟩,
    fun ⟨job, hjob, hg, hp⟩ => ⟨job, ⟨hjob, hp⟩, hg⟩⟩

/-- The jobs that hold a permit are those that are resolving. -/
theorem length_holders (s : Scheduler) : s.holders.length = s.resolving.length :=
  List.length_map ..

/-- In every run no job holds two permits. -/
theorem Run.holders_nodup (run : Run n j es s) : s.holders.Nodup :=
  run.job_generations_nodup.sublist (List.filter_sublist.map _)

theorem Run.mem_holders_iff (run : Run n j es s) :
    g ∈ s.holders ↔ ∃ job, s.job? g = some job ∧ job.phase = .resolving := by
  rw [mem_holders]
  constructor
  · rintro ⟨job, hjob, rfl, hp⟩
    exact ⟨job, run.job?_eq_some hjob, hp⟩
  · rintro ⟨job, hj, hp⟩
    obtain ⟨hjob, hg⟩ := Scheduler.job?_eq_some hj
    exact ⟨job, hjob, hg, hp⟩

/-- Only the end of its conversion takes the permit from a job. -/
theorem Step.keeps_resolving (step : Step s e s') (run : Run n j es s) {job : Job}
    (hjob : job ∈ s.jobs) (hp : job.phase = .resolving)
    (he : ∀ r, e ≠ .resolve job.task.generation r) : job ∈ s'.jobs := by
  have hfound := run.job?_eq_some hjob
  -- A job that is found in another phase is another one.
  have hother {g : Nat} {found : Job} (hj : s.job? g = some found)
      (hphase : found.phase ≠ .resolving) : job.task.generation ≠ g := by
    rintro rfl
    obtain rfl : found = job := Option.some.inj (hj.symm.trans hfound)
    exact hphase hp
  have hmoved {g : Nat} (phase : Phase) (hg : job.task.generation ≠ g) :
      job ∈ (s.setPhase g phase).jobs :=
    List.mem_map.mpr ⟨job, hjob, if_neg hg⟩
  have hended {g : Nat} (hg : job.task.generation ≠ g) : job ∈ (s.endJob g).jobs :=
    mem_endJob.mpr ⟨hjob, hg⟩
  cases step.turnover with
  | idle hw hjobs | signal hj hphase hjobs => exact hjobs ▸ hjob
  | start hd hjobs => exact hjobs ▸ List.mem_append_left _ hjob
  | acquire hj hphase hjobs => exact hjobs ▸ hmoved _ (hother hj (by rw [hphase]; nofun))
  | resolve r hj hphase hjobs =>
    refine hjobs ▸ hmoved _ ?_
    rintro rfl
    exact he r rfl
  | pass hj hphase ho hf hjobs => exact hjobs ▸ hmoved _ (hother hj (by rw [hphase]; nofun))
  | drop hj hphase hf hjobs => exact hjobs ▸ hended (hother hj (by rw [hphase]; nofun))
  | stop hend hj hphase hjobs => exact hjobs ▸ hended (hother hj hphase)

/-- A job holds a permit after a step if it takes it there, or has held it and does not end. -/
theorem Step.mem_holders (step : Step s e s') (run : Run n j es s) :
    g ∈ s'.holders ↔ e = .acquire g ∨ g ∈ s.holders ∧ ∀ r, e ≠ .resolve g r := by
  rw [Scheduler.mem_holders, Scheduler.mem_holders]
  constructor
  · rintro ⟨job, hjob, rfl, hp⟩
    cases step.arises run hjob with
    | @moved old hold hg moves =>
      rw [hp] at moves
      generalize hphase : old.phase = phase at moves
      -- Only two moves end in this phase: one takes the permit, the other one keeps it.
      cases moves with
      | acquire => exact Or.inl rfl
      | signal => exact Or.inr ⟨⟨old, hold, hg, hphase⟩, nofun⟩
    | kept hold hw =>
      -- The step is not its own, so it does not end its conversion.
      refine Or.inr ⟨⟨job, hold, rfl, hp⟩, ?_⟩
      rintro r rfl
      exact hw rfl
    | started ht hqueued => rw [hqueued] at hp; cases hp
  · rintro (rfl | ⟨⟨job, hjob, rfl, hp⟩, he⟩)
    · cases step with
      | acquire hj hphase hc hn =>
        obtain ⟨hmem, hg⟩ := job?_eq_some (job?_setPhase hj .resolving)
        exact ⟨_, hmem, hg, rfl⟩
    · exact ⟨job, step.keeps_resolving run hjob hp he, rfl, hp⟩

/-- A step changes the holders as it changes the conversions under way. -/
theorem Step.holders_perm (step : Step s e s') (run : Run n j es s) :
    s'.holders.Perm (e.hold s.holders) := by
  have run' : Run n j (es ++ [e]) s' := run.next step.eq_some
  -- Who takes a permit was queued before, and so held none.
  have hnew : ∀ g, e = .acquire g → g ∉ s.holders := by
    rintro g rfl
    cases step with
    | acquire hj hphase hc hn =>
      intro hg
      obtain ⟨job, hj', hp⟩ := run.mem_holders_iff.mp hg
      obtain rfl := Option.some.inj (hj.symm.trans hj')
      rw [hphase] at hp
      cases hp
  refine (List.perm_ext_iff_of_nodup run'.holders_nodup
    (nodup_hold run.holders_nodup hnew)).mpr fun g => ?_
  rw [step.mem_holders run, mem_hold run.holders_nodup]

/-! ## The pool of a run -/

/-- The permits of a scheduler are those of a pool that its events were replayed on, and those of
the conversions under way. -/
structure Pooled (n : Nat) (es : List Event) (s : Scheduler) (pool : Pool) : Prop where
  replayed : Pool.replay? { free := max n 1 } es = some pool
  closed : pool.closed = s.closed
  permits : s.permits = max n 1
  counted : pool.free + s.holders.length = max n 1
  holders : (converting es).Perm s.holders

/-- The pool lets happen what the scheduler does, and keeps count of it. -/
theorem Step.after? (step : Step s e s') (run : Run n j es s) {pool : Pool}
    (hclosed : pool.closed = s.closed) (hcount : pool.free + s.holders.length = s.permits) :
    ∃ pool', pool.after? e = some pool' ∧ pool'.closed = s'.closed ∧
      pool'.free + s'.holders.length = s.permits := by
  have hlength := (step.holders_perm run).length_eq
  -- The start and the end of a conversion are balanced; all other events leave both sides alone.
  cases step with
  | @acquire g job hj hp hc hn =>
    rw [← length_holders] at hn
    have hopen : pool.closed = false := hclosed.trans (by simpa using hc)
    have hfree : 0 < pool.free := by omega
    refine ⟨{ pool with free := pool.free - 1 }, if_pos ⟨hopen, hfree⟩, hclosed, ?_⟩
    rw [hlength, Event.hold, List.length_cons]
    show pool.free - 1 + _ = _
    omega
  | @resolve g job r hj hp =>
    have hmem : g ∈ s.holders := run.mem_holders_iff.mpr ⟨job, hj, hp⟩
    have hpos := List.length_pos_of_mem hmem
    refine ⟨pool.release, rfl, hclosed, ?_⟩
    rw [hlength, Event.hold, List.length_erase_of_mem hmem]
    show pool.free + 1 + _ = _
    omega
  | close => exact ⟨{ pool with closed := true }, rfl, rfl, hcount⟩
  | request file snapshot text hg =>
    exact ⟨pool, rfl, hclosed.trans (answered_closed ..).symm, by rw [hlength]; exact hcount⟩
  | fail file why hg =>
    exact ⟨pool, rfl, hclosed.trans (failAs_closed ..).symm, by rw [hlength]; exact hcount⟩
  | cancel file =>
    exact ⟨pool, rfl, hclosed.trans (cancel_closed ..).symm, by rw [hlength]; exact hcount⟩
  | _ => exact ⟨pool, rfl, hclosed, by rw [hlength]; exact hcount⟩

/-- A step keeps pool and jobs together. -/
theorem Pooled.next {pool : Pool} (h : Pooled n es s pool) (run : Run n j es s) (step : Step s e s') :
    ∃ pool', Pooled n (es ++ [e]) s' pool' := by
  obtain ⟨pool', hafter, hclosed, hcount⟩ := step.after? run h.closed (h.counted.trans h.permits.symm)
  refine ⟨pool', ?_, hclosed, step.permits.trans h.permits, hcount.trans h.permits, ?_⟩
  · rw [Pool.replay?_concat, h.replayed, Option.bind_some, hafter]
  · rw [converting_concat]
    exact (perm_hold e h.holders).trans (step.holders_perm run).symm

/-- In every run the permits are pooled. -/
theorem Run.pooled (run : Run n j es s) : ∃ pool, Pooled n es s pool := by
  induction run with
  | start => exact ⟨_, rfl, rfl, rfl, rfl, .refl _⟩
  | next run step ih =>
    obtain ⟨pool, h⟩ := ih
    exact h.next run (step_of_eq_some step)

/-- A job can take a permit exactly if it is queued and the pool has one to give. -/
theorem Pooled.acquire_isSome_iff {pool : Pool} (h : Pooled n es s pool) (g : Nat) :
    (s.step (.acquire g)).isSome ↔
      (∃ job, s.job? g = some job ∧ job.phase = .queued) ∧ pool.acquire?.isSome := by
  have hcount := h.counted
  have hpermits := h.permits
  rw [Pool.acquire?_isSome, h.closed]
  rw [length_holders] at hcount
  -- What is free and what is held add up, so that a permit is free while fewer jobs convert than
  -- there are permits.
  constructor
  · intro hsome
    obtain ⟨s', hs'⟩ := Option.isSome_iff_exists.mp hsome
    cases step_of_eq_some hs' with
    | @acquire g job hj hp hc hn => exact ⟨⟨job, hj, hp⟩, by simpa using hc, by omega⟩
  · rintro ⟨⟨job, hj, hp⟩, hc, hfree⟩
    have step : Step s (.acquire g) (s.setPhase g .resolving) :=
      .acquire hj hp (by simpa using hc) (by omega)
    rw [step.eq_some]
    rfl

end Scheduler

/-! ## Conversions that come too late -/

open Plan (Respondent told moments_isCancelled_bind run_isCancelled_bind run_bind moments_bind)

/-- A conversion whose token has fired at its start reads the header, checks the token and ends. -/
theorem Pipeline.resolve_of_fired {respond : Respondent σ} {fired : σ → Bool}
    (keeps : Keeps respond fired) (p : Pipeline) (file : Path) (text : Option String) {s : σ}
    (hs : fired s = true) :
    ((p.resolve file text).run respond s).1 = .outcome .cancelled ∧
      ∃ c, (p.resolve file text).moments respond s =
        (headerText file text).moments respond s ++ [⟨c, .isCancelled⟩] := by
  -- Reading the header leaves the token as it is.
  have hfired : fired ((headerText file text).run respond s).2 = true := by
    unfold headerText
    cases text with
    | some text => exact hs
    | none =>
      dsimp only
      cases ClassName.ofPath? file with
      | some c => exact hs
      | none => exact keeps.stays .look s hs
  obtain ⟨ms, htried, hmoments⟩ := tried_resolve respond p file text s
  rw [hmoments]
  generalize ((p.resolve file text).run respond s).1 = result at htried
  -- Whatever goes on needs a check that finds the token unfired.
  have hfalse (hb : told respond ((headerText file text).run respond s).2 = false) : False := by
    rw [keeps.told, hfired] at hb
    cases hb
  cases htried with
  | fired hb => exact ⟨rfl, _, rfl⟩
  | panicked hb hr => exact (hfalse hb).elim
  | cancelled hb hr ha => exact (hfalse hb).elim
  | found hb hr ha => exact (hfalse hb).elim
  | fell hb hr he ha next => exact (hfalse hb).elim

namespace Scheduler

/-- In a run every job converts with the tools of its generation, from the token as it is when the
job takes its permit. -/
structure Serves (p : Pipeline) (respond : Nat → Respondent σ) (start : Nat → σ)
    (fired : Nat → σ → Bool) (n : Nat) (j : Journal) (es : List Event) : Prop where
  keeps : ∀ g, Keeps (respond g) (fired g)
  begun : ∀ before g after s, es = before ++ .acquire g :: after →
    (new n j).steps before = some s → g ∈ s.fired → fired g (start g) = true
  resolved : ∀ g file snapshot text r, .request g file snapshot text ∈ es → .resolve g r ∈ es →
    r = ((p.resolve file text).run (respond g) (start g)).1

/-- **Permits are neither lost nor multiplied.** In every state of every run, whichever requests are
cancelled, superseded or dropped and whatever conversions come to:

* the events are such that a pool of as many permits as the scheduler was made for, but at least one,
  gives one to each job that starts to convert and gets it back when that has ended. What is free in
  the pool and the conversions under way add up to this number, so there are never more of them;
* these conversions are those of the jobs that are resolving, be their tasks registered or not. A
  queued job can start to convert exactly when the pool has a permit to give;
* with any tools that serve the run, a conversion whose token fired before its job took the permit
  begins no stage: it reads the header, checks the token once and is cancelled. -/
theorem permits_are_conserved (run : (new n j).steps es = some s) :
    (∃ pool, Pool.replay? { free := max n 1 } es = some pool ∧ pool.closed = s.closed ∧
      pool.free + (converting es).length = max n 1 ∧ (converting es).Nodup ∧
      (∀ g, g ∈ converting es ↔ ∃ job, s.job? g = some job ∧ job.phase = .resolving) ∧
      ∀ g, (s.step (.acquire g)).isSome ↔
        (∃ job, s.job? g = some job ∧ job.phase = .queued) ∧ pool.acquire?.isSome) ∧
    ∀ {σ : Type} {p : Pipeline} {respond : Nat → Respondent σ} {start : Nat → σ}
      {fired : Nat → σ → Bool}, Serves p respond start fired n j es →
      ∀ before g after t, es = before ++ .acquire g :: after → (new n j).steps before = some t →
      g ∈ t.fired →
      ∃ file snapshot text, .request g file snapshot text ∈ before ∧
        ((p.resolve file text).run (respond g) (start g)).1 = .outcome .cancelled ∧
        (∃ c, (p.resolve file text).moments (respond g) (start g) =
          (Pipeline.headerText file text).moments (respond g) (start g) ++ [⟨c, .isCancelled⟩]) ∧
        (∀ m ∈ (Pipeline.headerText file text).moments (respond g) (start g),
          m.question = .look) ∧
        ∀ r, .resolve g r ∈ es → r = .outcome .cancelled := by
  constructor
  · have run := run_of_steps run
    obtain ⟨pool, h⟩ := run.pooled
    refine ⟨pool, h.replayed, h.closed, ?_, h.holders.nodup_iff.mpr run.holders_nodup, fun g => ?_,
      h.acquire_isSome_iff⟩
    · rw [h.holders.length_eq]
      exact h.counted
    · rw [h.holders.mem_iff, run.mem_holders_iff]
  · rintro σ p respond start fired serves before g after t rfl ht hfired
    -- The job that takes the permit has a request, and its conversion starts with the fired token.
    obtain ⟨t', ht', hrest⟩ := steps_append_eq_some.mp run
    obtain rfl := Option.some.inj (ht.symm.trans ht')
    obtain ⟨t₁, hacquire, -⟩ := steps_cons_eq_some.mp hrest
    obtain ⟨job, hjob, rfl⟩ := (step_of_eq_some hacquire).working rfl
    have hrequest := (run_of_steps ht).ledger.working job hjob
    have hstart := serves.begun _ _ _ _ rfl ht hfired
    obtain ⟨hcancelled, hmoments⟩ := Pipeline.resolve_of_fired
      (serves.keeps job.task.generation) p job.task.file job.text hstart
    refine ⟨_, _, _, hrequest, hcancelled, hmoments,
      fun m hm => Pipeline.question_of_mem_headerText hm, fun r hr => ?_⟩
    rw [serves.resolved _ _ _ _ _ (List.mem_append_left _ hrequest) hr, hcancelled]

/-! ## A permit that a superseded job holds -/

/-- A unit is requested again while it is converted. -/
def requestedAgain : List Event :=
  [.draw, .request 1 ⟨"/p/smali/A.smali"⟩ (.disk ⟨0, 0⟩ 1) none, .acquire 1,
    .draw, .request 2 ⟨"/p/smali/A.smali"⟩ (.disk ⟨0, 0⟩ 1) none]

/-- The first conversion ends. The second one is superseded before it takes the permit. -/
def requestedOnceMore : List Event :=
  [.resolve 1 (.outcome .cancelled),
    .draw, .request 3 ⟨"/p/smali/A.smali"⟩ (.disk ⟨0, 0⟩ 1) none, .acquire 2]

/-- The tokens of these conversions, when they take their permits. -/
def overtakenStart (g : Nat) : Bench.Turn :=
  ({ tree := unitTree }, if g = 2 then .spent else {})

theorem requestedOnceMore_serves :
    Serves .plain (fun _ => Bench.respond overtakenTools) overtakenStart (fun _ turn => turn.2.fired)
      1 .silent (requestedAgain ++ requestedOnceMore) where
  keeps _ := overtakenTools_steady.keeps
  begun before g after s heq hs hg := by
    have hevent : (requestedAgain ++ requestedOnceMore)[before.length]? = some (.acquire g) := by
      rw [heq]
      simp
    have hbefore : before = (requestedAgain ++ requestedOnceMore).take before.length := by
      rw [heq]
      simp
    obtain ⟨hlength, -⟩ := List.getElem?_eq_some_iff.mp hevent
    generalize before.length = k at hevent hbefore hlength
    simp only [requestedAgain, requestedOnceMore, List.cons_append, List.nil_append,
      List.length_cons, List.length_nil] at hlength hevent hbefore
    -- Only two events take a permit.
    interval_cases k <;> simp at hevent
    · -- When the first conversion starts, no token has fired.
      subst hevent hbefore
      have hunfired : ((new 1 .silent).steps [.draw, .request 1 ⟨"/p/smali/A.smali"⟩ (.disk ⟨0, 0⟩ 1)
          none]).map Scheduler.fired = some [] := by decide +kernel
      rw [List.take_succ_cons, List.take_succ_cons, List.take_zero] at hs
      rw [hs] at hunfired
      rw [Option.some.inj hunfired] at hg
      cases hg
    · subst hevent
      rfl
  resolved g file snapshot text r hrequest hresolve := by
    simp only [requestedAgain, requestedOnceMore, List.cons_append, List.nil_append, List.mem_cons,
      List.not_mem_nil, Event.request.injEq, Event.resolve.injEq, reduceCtorEq, or_false,
      false_or] at hrequest hresolve
    obtain ⟨rfl, rfl⟩ := hresolve
    obtain ⟨rfl, rfl, rfl⟩ : file = ⟨"/p/smali/A.smali"⟩ ∧ snapshot = .disk ⟨0, 0⟩ 1 ∧
      text = none := by simpa using hrequest
    decide +kernel

/-- A superseded job keeps the only permit while it converts. The next one, superseded before it
takes the permit, is cancelled at once, and until then the last one waits. -/
theorem superseded_jobs_keep_their_permit :
    Serves .plain (fun _ => Bench.respond overtakenTools) overtakenStart
        (fun _ turn => turn.2.fired) 1 .silent (requestedAgain ++ requestedOnceMore) ∧
      ∃ s s' pool, (new 1 .silent).steps requestedAgain = some s ∧ converting requestedAgain = [1] ∧
        s.tasks.isCurrent ⟨"/p/smali/A.smali"⟩ 1 = false ∧
        s.steps requestedOnceMore = some s' ∧
        Pool.replay? { free := 1 } (requestedAgain ++ requestedOnceMore) = some pool ∧
        converting (requestedAgain ++ requestedOnceMore) = [2] ∧ pool.free = 0 ∧
        (s'.step (.acquire 3)).isSome = false ∧
        ((Pipeline.plain.resolve ⟨"/p/smali/A.smali"⟩ none).run (Bench.respond overtakenTools)
          (overtakenStart 2)).1 = .outcome .cancelled := by
  have hrun : ((new 1 .silent).steps requestedAgain).bind (fun s => (s.steps requestedOnceMore).map
      fun _ => s.tasks.isCurrent ⟨"/p/smali/A.smali"⟩ 1) = some false := by decide +kernel
  obtain ⟨s, hs, hrun⟩ := Option.bind_eq_some_iff.mp hrun
  obtain ⟨s', hs', hcurrent⟩ := Option.map_eq_some_iff.mp hrun
  have hall : (new 1 .silent).steps (requestedAgain ++ requestedOnceMore) = some s' :=
    steps_append_eq_some.mpr ⟨s, hs, hs'⟩
  obtain ⟨⟨pool, hreplay, -, hcount, -, -, hacquire⟩, hlate⟩ := permits_are_conserved hall
  have hconverting : converting (requestedAgain ++ requestedOnceMore) = [2] := by decide
  have hfree : pool.free = 0 := by
    rw [hconverting] at hcount
    simpa using hcount
  have hwaits : (s'.step (.acquire 3)).isSome = false := by
    rw [Bool.eq_false_iff]
    intro hsome
    have hgiven := ((hacquire 3).mp hsome).2
    rw [Pool.acquire?_isSome, hfree] at hgiven
    omega
  -- The token of the second job fires when the third request supersedes it.
  have hfired : ((new 1 .silent).steps (requestedAgain ++ requestedOnceMore.dropLast)).map
      (fun t => decide (2 ∈ t.fired)) = some true := by decide +kernel
  obtain ⟨t, ht, hfired⟩ := Option.map_eq_some_iff.mp hfired
  obtain ⟨file, snapshot, text, hrequest, hcancelled, -⟩ :=
    hlate requestedOnceMore_serves (requestedAgain ++ requestedOnceMore.dropLast) 2 [] t rfl ht
      (of_decide_eq_true hfired)
  obtain ⟨rfl, -, rfl⟩ : file = ⟨"/p/smali/A.smali"⟩ ∧ snapshot = .disk ⟨0, 0⟩ 1 ∧
      text = none := by simpa [requestedAgain, requestedOnceMore] using hrequest
  exact ⟨requestedOnceMore_serves, s, s', pool, hs, by decide, hcurrent, hs', hreplay, hconverting,
    hfree, hwaits, hcancelled⟩

end Scheduler

end SmaliView
