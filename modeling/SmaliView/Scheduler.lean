import SmaliView.Cache
import SmaliView.Pipeline.Resolve

/-!
# The scheduler

Requests come from callers, work is done by *jobs*, and both act on shared state: the task table,
the cache, and the channel of updates. The scheduler is a system of steps. A call of a caller is
one or more steps, each of which is a section under the lock of the task table; a job waits for a
permit, resolves, looks at its token, and completes, each in a step of its own. `step` carries out
one event if it can happen, so that a run is a list of events in any order.

A result reaches the cache and the channel only in `finish`, and only while its job is still the
registered task of its file.

A request that is about to start a job first records this in the `Journal`, and that may break off.
Such a call hands out no ticket; it is an event of its own, `abort`.
-/

namespace SmaliView

/-- How far a job has come. -/
inductive Phase where
  /-- It waits for a permit. -/
  | queued
  /-- It holds a permit and converts. -/
  | resolving
  /-- It has ended converting and given the permit back. -/
  | resolved (r : Resolution)
  /-- Its token had not fired when it looked after converting. -/
  | checked (o : Outcome)
deriving DecidableEq, Repr, Inhabited

structure Job where
  task : Task
  snapshot : Snapshot
  text : Option String
  phase : Phase := .queued
deriving DecidableEq, Repr, Inhabited

/-- The outcome of a conversion; one that broke off has failed. -/
def Resolution.toOutcome (file : Path) : Resolution → Outcome
  | .outcome o => o
  | .panicked message =>
    .failed {
      summary := "Conversion of " ++ file.text ++ " failed unexpectedly"
      hints := ["internal error: " ++ message] }

/-- Where it is recorded that jobs are started. -/
structure Journal where
  /-- Whether this is severe enough to be recorded. -/
  records : Bool
  /-- The calendar in which times are recorded. -/
  calendar : Calendar
deriving Inhabited

namespace Journal

/-- A journal in which nothing is recorded. -/
def silent : Journal := ⟨false, .gregorian⟩

/-- A journal in which every job is recorded. -/
def recording : Journal := ⟨true, .gregorian⟩

/-- What recording a snapshot breaks off with, if it does. Only what is recorded is rendered. -/
def fault? (j : Journal) (snapshot : Snapshot) : Option String :=
  if j.records then
    match snapshot.render j.calendar with
    | .ok _ => none
    | .error message => some message
  else none

/-- Recording breaks off exactly for a file whose time has no date. -/
theorem fault?_eq_some_iff {j : Journal} {snapshot : Snapshot} {message : String} :
    j.fault? snapshot = some message ↔ j.records = true ∧
      ∃ modified length, snapshot = .disk modified length ∧
        j.calendar.dateTime modified = .error message := by
  unfold fault?
  cases j.records with
  | false => simp
  | true =>
    cases snapshot with
    | text hash length => simp [Snapshot.render]
    | disk modified length =>
      cases h : j.calendar.dateTime modified <;> simp [Snapshot.render, h, Except.map]

end Journal

/-- The state that callers and jobs share. -/
structure Scheduler where
  permits : Nat
  journal : Journal
  /-- The last generation that was drawn. -/
  counter : Nat := 0
  /-- The generations that were drawn and not used yet. -/
  drawn : List Nat := []
  tasks : TaskTable := {}
  cache : Cache := {}
  /-- The generations whose token has fired. -/
  fired : List Nat := []
  /-- The jobs that have not ended, in the order in which they were started. -/
  jobs : List Job := []
  /-- The tasks that a shutdown has taken from the table and not cancelled yet. -/
  drained : List Task := []
  /-- Whether permits are no longer given. -/
  closed : Bool := false
  /-- What was sent on the channel, first to last. -/
  updates : List Update := []
deriving Inhabited

namespace Scheduler

/-- A scheduler for a number of conversions at once; one is always possible. -/
def new (maxWorkers : Nat) (journal : Journal) : Scheduler :=
  { permits := max maxWorkers 1, journal }

/-! ## Parts of steps -/

def emit (s : Scheduler) (u : Update) : Scheduler :=
  { s with updates := s.updates ++ [u] }

def fire (s : Scheduler) (g : Nat) : Scheduler :=
  { s with fired := g :: s.fired }

def fireTask (s : Scheduler) : Option Task → Scheduler
  | some task => s.fire task.generation
  | none => s

def job? (s : Scheduler) (g : Nat) : Option Job :=
  s.jobs.find? (·.task.generation == g)

/-- The jobs that hold a permit. -/
def resolving (s : Scheduler) : List Job :=
  s.jobs.filter (·.phase == .resolving)

def setPhase (s : Scheduler) (g : Nat) (phase : Phase) : Scheduler :=
  { s with jobs := s.jobs.map fun j => if j.task.generation = g then { j with phase } else j }

def endJob (s : Scheduler) (g : Nat) : Scheduler :=
  { s with jobs := s.jobs.filter (·.task.generation != g) }

/-- Remove the task that runs for a file and fire its token. -/
def supersede (s : Scheduler) (file : Path) : Scheduler :=
  let (tasks, previous) := s.tasks.remove file
  { s with tasks }.fireTask previous

def use (s : Scheduler) (g : Nat) : Scheduler :=
  { s with drawn := s.drawn.erase g }

/-! ## The sections of callers -/

def draw (s : Scheduler) : Scheduler × Nat :=
  ({ s with counter := s.counter + 1, drawn := s.drawn ++ [s.counter + 1] }, s.counter + 1)

def spawn (s : Scheduler) (g : Nat) (file : Path) (snapshot : Snapshot) (text : Option String) :
    Scheduler :=
  let job : Job := { task := ⟨file, g⟩, snapshot, text }
  -- The caller still holds the lock, so the job cannot complete before it is registered.
  let (tasks, displaced) := s.tasks.replace job.task
  { s with tasks, jobs := s.jobs ++ [job] }.fireTask displaced

/-- Request a conversion: the running one is cancelled; a cached result is answered at once, else
a job is started. The ticket is for what is told; the call ends without one if it breaks off. -/
def requestAs (s : Scheduler) (g : Nat) (file : Path) (snapshot : Snapshot)
    (text : Option String) : Scheduler × Except String Ticket :=
  -- Also a request that the cache can answer cancels the task that runs.
  let s := (s.use g).supersede file
  match s.cache.lookup? file snapshot with
  | some source =>
    ({ s with tasks := s.tasks.settle file .completed }.emit (.finished file g (.success source)),
      .ok ⟨file, g⟩)
  | none =>
    match s.journal.fault? snapshot with
    -- By now the running task is gone and its token has fired, but nothing was told yet.
    | some message => (s, .error message)
    | none => ((s.emit (.loading file g)).spawn g file snapshot text, .ok ⟨file, g⟩)

def failAs (s : Scheduler) (g : Nat) (file : Path) (why : Explanation) : Scheduler :=
  let s := (s.use g).supersede file
  { s with tasks := s.tasks.settle file .completed }.emit (.finished file g (.failed why))

def isRunning (s : Scheduler) (file : Path) : Bool :=
  (s.tasks.current? file).isSome

/-- Cancel the running task of a file; then its cached result is dropped, too. -/
def cancel (s : Scheduler) (file : Path) : Scheduler :=
  let (tasks, previous) := s.tasks.cancel file
  let cache := if previous.isSome then s.cache.drop file else s.cache
  ({ s with tasks, cache }.fireTask previous).emit (.dismissed file)

def dropCached (s : Scheduler) (file : Path) : Scheduler :=
  { s with cache := s.cache.drop file }

/-- Forget how the last task of a file ended. -/
def forget (s : Scheduler) (file : Path) : Scheduler :=
  { s with tasks := s.tasks.forget file }

def drain (s : Scheduler) : Scheduler :=
  let (tasks, all) := s.tasks.drain
  { s with tasks, drained := s.drained ++ all }

/-- Give no more permits. -/
def close (s : Scheduler) : Scheduler :=
  { s with closed := true }

/-- Fire the token of a task that a shutdown has taken. -/
def dismiss (s : Scheduler) (task : Task) : Scheduler :=
  { s with drained := s.drained.erase task }.fire task.generation

/-! ## The steps of jobs -/

/-- A queued job whose token has fired ends. -/
def leave? (s : Scheduler) (g : Nat) : Option Scheduler := do
  let job ← s.job? g
  guard (job.phase = .queued ∧ g ∈ s.fired)
  return s.endJob g

/-- A queued job that can get no permit any more retires its task and ends. Its token may have
fired since the job looked at it. -/
def refuse? (s : Scheduler) (g : Nat) : Option Scheduler := do
  let job ← s.job? g
  guard (job.phase = .queued ∧ s.closed)
  return { s with tasks := (s.tasks.abandon job.task.file g).1 }.endJob g

/-- A queued job takes a free permit. Its token may have fired since the job looked at it. -/
def acquire? (s : Scheduler) (g : Nat) : Option Scheduler := do
  let job ← s.job? g
  guard (job.phase = .queued ∧ !s.closed ∧ s.resolving.length < s.permits)
  return s.setPhase g .resolving

/-- A tool that works for a job fires the token of the job. -/
def signal? (s : Scheduler) (g : Nat) : Option Scheduler := do
  let job ← s.job? g
  guard (job.phase = .resolving)
  return s.fire g

/-- A resolving job ends converting and gives its permit back. -/
def resolve? (s : Scheduler) (g : Nat) (r : Resolution) : Option Scheduler := do
  let job ← s.job? g
  guard (job.phase = .resolving)
  return s.setPhase g (.resolved r)

/-- A job that has resolved ends here if it was cancelled. -/
def check? (s : Scheduler) (g : Nat) : Option Scheduler := do
  let job ← s.job? g
  match job.phase with
  | .resolved r =>
    let o := r.toOutcome job.task.file
    -- The task is not retired here: it stays registered if only a tool has given up.
    return if o.isCancelled || g ∈ s.fired then s.endJob g else s.setPhase g (.checked o)
  | _ => none

/-- The cache with a successful outcome stored. -/
def keep (c : Cache) (job : Job) : Outcome → Cache
  -- Neither a failure nor a missing source is cached: the next request tries again.
  | .success source => c.store job.task.file job.snapshot source
  | _ => c

/-- A job that was checked completes its task. If that is no longer registered, nothing is told. -/
def finish? (s : Scheduler) (g : Nat) : Option Scheduler := do
  let job ← s.job? g
  match job.phase with
  | .checked o =>
    -- The table decides, under its lock: cache and channel see only what is still wanted.
    let (tasks, current) := s.tasks.complete job.task.file g
    if current then
      return ({ s with tasks, cache := keep s.cache job o }.emit
        (.finished job.task.file g o)).endJob g
    else return s.endJob g
  | _ => none

/-! ## Events -/

/-- One step of a caller or of a job. -/
inductive Event where
  | draw
  | request (g : Nat) (file : Path) (snapshot : Snapshot) (text : Option String)
  /-- A request that breaks off. -/
  | abort (g : Nat) (file : Path) (snapshot : Snapshot) (text : Option String)
  | fail (g : Nat) (file : Path) (why : Explanation)
  | cancel (file : Path)
  | dropCached (file : Path)
  | forget (file : Path)
  | drain
  | close
  | dismiss (task : Task)
  | leave (g : Nat)
  | refuse (g : Nat)
  | acquire (g : Nat)
  | signal (g : Nat)
  | resolve (g : Nat) (r : Resolution)
  | check (g : Nat)
  | finish (g : Nat)
deriving Repr, Inhabited

/-- Carry out an event, if it can happen. A generation is used once, after it was drawn. Of the two
events of a request, the one happens that fits how the call ends. -/
def step (s : Scheduler) : Event → Option Scheduler
  | .draw => some s.draw.1
  | .request g file snapshot text =>
    if g ∈ s.drawn then
      match s.requestAs g file snapshot text with
      | (s, .ok _) => some s
      | (_, .error _) => none
    else none
  | .abort g file snapshot text =>
    if g ∈ s.drawn then
      match s.requestAs g file snapshot text with
      | (s, .error _) => some s
      | (_, .ok _) => none
    else none
  | .fail g file why => if g ∈ s.drawn then some (s.failAs g file why) else none
  | .cancel file => some (s.cancel file)
  | .dropCached file => some (s.dropCached file)
  | .forget file => some (s.forget file)
  | .drain => some s.drain
  | .close => some s.close
  | .dismiss task => if task ∈ s.drained then some (s.dismiss task) else none
  | .leave g => s.leave? g
  | .refuse g => s.refuse? g
  | .acquire g => s.acquire? g
  | .signal g => s.signal? g
  | .resolve g r => s.resolve? g r
  | .check g => s.check? g
  | .finish g => s.finish? g

def steps (s : Scheduler) : List Event → Option Scheduler
  | [] => some s
  | e :: es => do (← s.step e).steps es

/-! ## Calls as a whole -/

def request (s : Scheduler) (file : Path) (snapshot : Snapshot) (text : Option String) :
    Scheduler × Except String Ticket :=
  let (s, g) := s.draw
  s.requestAs g file snapshot text

def deliverFailure (s : Scheduler) (file : Path) (why : Explanation) : Scheduler × Ticket :=
  let (s, g) := s.draw
  (s.failAs g file why, ⟨file, g⟩)

/-- Cancel all work for a file and drop what is known about it. -/
def evict (s : Scheduler) (file : Path) : Scheduler :=
  ((s.cancel file).dropCached file).forget file

/-- Cancel everything; no job can start any more. -/
def beginShutdown (s : Scheduler) : Scheduler :=
  -- The lock is given back before the tokens fire; here no other caller comes in between.
  let s := s.drain.close
  s.drained.foldl dismiss s

end Scheduler

end SmaliView
