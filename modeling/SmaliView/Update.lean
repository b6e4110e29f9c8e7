import SmaliView.Outcome

/-!
# Requests and the updates that answer them

A request for a file is answered on one channel, in order: by `loading` when work was started, by
`finished` with an outcome, by `dismissed` when it was given up. Requests are numbered by
*generations*; a ticket names the file and the generation, and `Update.answers` says which updates
answer it.
-/

namespace SmaliView

inductive TaskState where
  | idle
  | running
  | completed
  | cancelled
deriving DecidableEq, Repr, Inhabited

namespace TaskState

def all : List TaskState := [.idle, .running, .completed, .cancelled]

/-- The state as one word. -/
def word : TaskState → String
  | .idle => "idle"
  | .running => "running"
  | .completed => "completed"
  | .cancelled => "cancelled"

end TaskState

/-- What a caller holds while waiting for the answer to a request. -/
structure Ticket where
  file : Path
  generation : Nat
deriving DecidableEq, Repr, Inhabited

/-- A message on the channel. -/
inductive Update where
  /-- Work was started. -/
  | loading (file : Path) (generation : Nat)
  /-- The work ended; the outcome is never `cancelled`. -/
  | finished (file : Path) (generation : Nat) (outcome : Outcome)
  /-- The work for the file, if there was any, was given up. -/
  | dismissed (file : Path)
deriving DecidableEq, Repr, Inhabited

namespace Update

def file : Update → Path
  | .loading file _ => file
  | .finished file _ _ => file
  | .dismissed file => file

/-- The generation an update belongs to. A dismissal belongs to none. -/
def generation? : Update → Option Nat
  | .loading _ g => some g
  | .finished _ g _ => some g
  | .dismissed _ => none

/-- Whether an update answers a ticket: same file, and same generation if it has one. -/
def answers (u : Update) (t : Ticket) : Bool :=
  -- A dismissal has no generation, so it answers every ticket of its file.
  u.file.same t.file && (u.generation?.all (· == t.generation))

end Update

/-- How waiting for the answer to a ticket ends. -/
inductive Answer where
  | outcome (o : Outcome)
  | cancelled
  /-- The channel ended without an answer. -/
  | missing
deriving DecidableEq, Repr, Inhabited

/-- Read updates in order until one of them settles the ticket. -/
def await (t : Ticket) : List Update → Answer
  | [] => .missing
  | u :: rest =>
    if u.answers t then
      match u with
      | .finished _ _ o => .outcome o
      | .dismissed _ => .cancelled
      | .loading .. => await t rest
    else await t rest

end SmaliView
