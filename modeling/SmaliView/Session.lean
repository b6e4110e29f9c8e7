import SmaliView.Pipeline.Bench
import SmaliView.Scheduler

/-!
# Sessions

A session is a scheduler at work: it holds the files and tools, and the plan of every job that is
being resolved. Callers act on it at once; the jobs go on when the session is told to `advance`,
each as far as it can, in the order in which they were started.

Tools may be *gated*. While the gate is closed, a call of a gated tool waits in front of it, and is
given up there when the token of its job fires.
-/

namespace SmaliView

/-- Which tools wait at the gate. -/
structure Gates where
  assembler : Bool := false
  decompiler : Bool := false
deriving DecidableEq, Repr, Inhabited

/-- What a gated tool answers to a call that is given up at the gate; nothing for a question that
passes no gate. -/
def Gates.turnAway (gates : Gates) : (q : Question) → Option q.Answer
  | .assemble _ => if gates.assembler then some (.error (.error .cancelled)) else none
  | .decompile _ => if gates.decompiler then some (.error (.error .cancelled)) else none
  | .isCancelled | .look | .change _ | .assemblerReady | .decompilerReady => none

/-- What stays the same in a session. -/
structure Workshop where
  tools : Toolbox
  pipeline : Pipeline
  gates : Gates := {}

/-- How far a plan has come. -/
inductive Progress where
  | ended (r : Resolution)
  /-- It waits at the gate with this question, which was noted. -/
  | waiting (plan : Plan Resolution)

/-- Go on with a plan until it ends or waits at the gate. The first question may have been noted
before. -/
def Workshop.proceed (w : Workshop) (gateOpen : Bool) :
    (noted : Bool) → Plan Resolution → Bench.Turn → Progress × Bench.Turn
  | _, .done r, turn => (.ended r, turn)
  | noted, .ask q next, turn =>
    let turn := if noted then turn else (Bench.note q turn).2
    match (if gateOpen then none else w.gates.turnAway q) with
    | none =>
      match Bench.answer w.tools q turn with
      | (x, turn) => w.proceed gateOpen false (next x) turn
    | some x =>
      -- The call waits until the gate opens or the token fires.
      if turn.2.fired then w.proceed gateOpen false (next x) turn
      else (.waiting (.ask q next), turn)

/-- A scheduler with its files, tools and plans. -/
structure Session where
  scheduler : Scheduler
  bench : Bench
  gateOpen : Bool := true
  /-- The plans of the jobs that wait at the gate, by generation. -/
  plans : Table Nat (Plan Resolution) := {}

namespace Session

def tryStep (s : Session) (f : Scheduler → Option Scheduler) : Session :=
  match f s.scheduler with
  | some scheduler => { s with scheduler }
  | none => s

def token (s : Session) (g : Nat) : Token :=
  if g ∈ s.scheduler.fired then .spent else {}

/-- Take over the files, and the token if a tool has fired it. -/
def takeBack (s : Session) (g : Nat) (turn : Bench.Turn) : Session :=
  let scheduler :=
    if turn.2.fired && g ∉ s.scheduler.fired then s.scheduler.fire g else s.scheduler
  { s with bench := turn.1, scheduler }

/-- Go on with the plan of a resolving job, and complete the job if the plan ends. -/
def work (s : Session) (w : Workshop) (g : Nat) (noted : Bool) (plan : Plan Resolution) :
    Session :=
  match w.proceed s.gateOpen noted plan (s.bench, s.token g) with
  | (.waiting plan, turn) =>
    let s := s.takeBack g turn
    { s with plans := s.plans.put g plan }
  | (.ended r, turn) =>
    let s := s.takeBack g turn
    let s := { s with plans := s.plans.erase g }
    -- The three steps follow at once: in a session no caller comes between them.
    ((s.tryStep (·.resolve? g r)).tryStep (·.check? g)).tryStep (·.finish? g)

def advanceJob (w : Workshop) (s : Session) (job : Job) : Session :=
  let g := job.task.generation
  match job.phase with
  | .queued =>
    match s.scheduler.leave? g <|> s.scheduler.refuse? g with
    | some scheduler => { s with scheduler }
    | none =>
      match s.scheduler.acquire? g with
      | some scheduler =>
        { s with scheduler }.work w g false (w.pipeline.resolve job.task.file job.text)
      | none => s
  | _ =>
    match s.plans.get? g with
    | some plan => s.work w g true plan
    | none => s

def advance (w : Workshop) (s : Session) : Session :=
  s.scheduler.jobs.foldl (advanceJob w) s

/-- Open the gate and let all jobs end. -/
def run (w : Workshop) (s : Session) : Session :=
  advance w { s with gateOpen := true }

/-- Close the gate and let all jobs go on until they wait. -/
def hold (w : Workshop) (s : Session) : Session :=
  advance w { s with gateOpen := false }

/-- Cancel everything and let all jobs end. -/
def shutdown (w : Workshop) (s : Session) : Session :=
  advance w { s with scheduler := s.scheduler.beginShutdown }

/-! ## Requests for the view of a file -/

def diskSnapshot (tree : FileTree) (file : Path) : Except SystemError Snapshot :=
  (tree.info file).map fun info => .disk info.modified info.length

/-- Why a file that cannot be looked at has no Java view. -/
def unreadable (file : Path) (e : SystemError) : Explanation where
  summary := "Unable to read " ++ file.text ++ ": " ++ e.message
  hints := ["check that the file exists and is readable"]

/-- Request the view of a file, from editor text or from disk. The call may break off. -/
def requestView (s : Session) (file : Path) (text : Option String) :
    Session × Except String Ticket :=
  let call (r : Scheduler × Except String Ticket) : Session × Except String Ticket :=
    ({ s with scheduler := r.1 }, r.2)
  match text with
  | some t => call (s.scheduler.request file (.ofText t) (some t))
  | none =>
    match diskSnapshot s.bench.tree file with
    | .ok snapshot => call (s.scheduler.request file snapshot none)
    -- A file that cannot be looked at is answered like any other request, with a generation.
    | .error e => call ((s.scheduler.deliverFailure file (unreadable file e)).map id .ok)

end Session

end SmaliView
