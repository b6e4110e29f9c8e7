import Mathlib.Data.List.Nodup
import Mathlib.Data.List.Pairwise
import SmaliView.Proofs.Scheduler.Steps

/-!
# Runs of the scheduler

A run is a list of events that happen one after the other from a new scheduler, in any order that
the steps allow. What holds of all runs is proved by induction on their last event. The first such
fact is `Ledger`: every generation is used by one call only, and everything that names a generation
(a registered task, a job, an update) goes back to the ticket that this call has handed out.
-/

namespace SmaliView

def Task.ticket (task : Task) : Ticket := ⟨task.file, task.generation⟩

/-- Only one member of a list is taken to each of the values, if these are distinct. -/
theorem eq_of_nodup_filterMap {α β : Type} {f : α → Option β} {l : List α}
    (h : (l.filterMap f).Nodup) {a a' : α} (ha : a ∈ l) (ha' : a' ∈ l) {b : β}
    (hb : f a = some b) (hb' : f a' = some b) : a = a' := by
  have hpairs := List.pairwise_filterMap.mp h
  have hsymm : Std.Symm fun a a' => ∀ b, f a = some b → ∀ b', f a' = some b' → b ≠ b' :=
    ⟨fun _ _ h b hb b' hb' => (h b' hb' b hb).symm⟩
  by_contra hne
  exact hpairs.forall ha ha' hne b hb b hb' rfl

namespace Scheduler

/-- The run of a list of events, with the state it leads to. -/
inductive Run (n : Nat) (j : Journal) : List Event → Scheduler → Prop where
  | start : Run n j [] (new n j)
  | next {es : List Event} {s : Scheduler} {e : Event} {s' : Scheduler}
      (run : Run n j es s) (step : s.step e = some s') : Run n j (es ++ [e]) s'

variable {n : Nat} {j : Journal} {es : List Event} {s s' : Scheduler} {e : Event}

/-- Events in two parts: the second begins where the first ends. -/
theorem steps_append (s : Scheduler) (es es' : List Event) :
    s.steps (es ++ es') = (s.steps es).bind (·.steps es') := by
  induction es generalizing s with
  | nil => rfl
  | cons e es ih =>
    simp only [List.cons_append, steps, Option.bind_eq_bind]
    cases s.step e with
    | none => rfl
    | some t => exact ih t

/-- A run of events is a first step and a run of the others. -/
theorem steps_cons_eq_some :
    s.steps (e :: es) = some s' ↔ ∃ t, s.step e = some t ∧ t.steps es = some s' :=
  Option.bind_eq_some_iff

/-- A run of events in two parts goes through a state between them. -/
theorem steps_append_eq_some {es' : List Event} :
    s.steps (es ++ es') = some s' ↔ ∃ t, s.steps es = some t ∧ t.steps es' = some s' := by
  rw [steps_append, Option.bind_eq_some_iff]

/-- A run goes on by further events. -/
theorem Run.append (run : Run n j es s) {es' : List Event} (h : s.steps es' = some s') :
    Run n j (es ++ es') s' := by
  -- One event after the other goes over from what is to come to what has happened.
  induction es' generalizing es s with
  | nil => cases h; simpa using run
  | cons e es' ih =>
    obtain ⟨t, ht, h⟩ := Option.bind_eq_some_iff.mp h
    have hnext : Run n j (es ++ [e] ++ es') s' := ih (run.next ht) h
    simpa using hnext

/-- Events that can be carried out in turn from a new scheduler are a run. -/
theorem run_of_steps (h : (new n j).steps es = some s) : Run n j es s := by
  simpa using Run.start.append h

/-- The events of a run can be carried out in turn. -/
theorem Run.steps (run : Run n j es s) : (new n j).steps es = some s := by
  induction run with
  | start => rfl
  | next run step ih => rw [steps_append, ih]; simp [Scheduler.steps, step]

/-- The journal is the one that the scheduler was made with. -/
theorem Run.journal (run : Run n j es s) : s.journal = j := by
  induction run with
  | start => rfl
  | next run step ih => exact (step_of_eq_some step).journal.trans ih

/-! ## Histories -/

/-- An event with the states before and after it. -/
structure Transition where
  before : Scheduler
  event : Event
  after : Scheduler

/-- What happens when events are carried out in turn. -/
def history (s : Scheduler) : List Event → List Transition
  | [] => []
  | e :: es =>
    match s.step e with
    | some s' => ⟨s, e, s'⟩ :: s'.history es
    | none => []

/-- One event more adds one transition to the history. -/
theorem history_concat {s₀ : Scheduler} (h : s₀.steps es = some s) (he : s.step e = some s') :
    s₀.history (es ++ [e]) = s₀.history es ++ [⟨s, e, s'⟩] := by
  induction es generalizing s₀ with
  | nil => cases h; simp [history, he]
  | cons e' es ih =>
    obtain ⟨t, ht, h⟩ := Option.bind_eq_some_iff.mp h
    simp only [List.cons_append, history, ht, ih h]

/-- The events of a history are those that were carried out. -/
theorem history_map_event {s₀ : Scheduler} (h : s₀.steps es = some s) :
    (s₀.history es).map Transition.event = es := by
  induction es generalizing s₀ with
  | nil => rfl
  | cons e' es ih =>
    obtain ⟨t, ht, h⟩ := Option.bind_eq_some_iff.mp h
    simp only [history, ht, List.map_cons, ih h]

/-! ## Calls as events

Each call of the scheduler is a list of events. In a run, those of other calls and of jobs may
happen between them. -/

/-- A request is one of two lists of events: which one it is depends on whether it breaks off. -/
theorem steps_request (s : Scheduler) (file : Path) (snapshot : Snapshot) (text : Option String) :
    s.steps [.draw, if (s.request file snapshot text).2.isOk
        then .request (s.counter + 1) file snapshot text
        else .abort (s.counter + 1) file snapshot text] =
      some (s.request file snapshot text).1 := by
  have hdrawn : s.counter + 1 ∈ s.draw.1.drawn := by simp [draw]
  have hstep : s.draw.1.step (if (s.request file snapshot text).2.isOk
        then .request (s.counter + 1) file snapshot text
        else .abort (s.counter + 1) file snapshot text) = some (s.request file snapshot text).1 :=
    step_requestAs hdrawn file snapshot text
  have hdraw : s.step .draw = some s.draw.1 := rfl
  simp only [steps, hdraw, Option.bind_eq_bind, Option.bind_some]
  rw [hstep, Option.bind_some]

/-- Delivering a failure is drawing a generation and telling the failure. -/
theorem steps_deliverFailure (s : Scheduler) (file : Path) (why : Explanation) :
    s.steps [.draw, .fail (s.counter + 1) file why] = some (s.deliverFailure file why).1 := by
  have hdrawn : s.counter + 1 ∈ s.draw.1.drawn := by simp [draw]
  have hstep : s.draw.1.step (.fail (s.counter + 1) file why) =
      some (s.deliverFailure file why).1 := if_pos hdrawn
  simp only [steps, step, Option.bind_eq_bind, Option.bind_some] at hstep ⊢
  rw [hstep, Option.bind_some]

/-- Closing a tab is its three sections in turn. -/
theorem steps_evict (s : Scheduler) (file : Path) :
    s.steps [.cancel file, .dropCached file, .forget file] = some (s.evict file) :=
  rfl

/-- The tasks that a shutdown has taken can be dismissed one after the other. -/
theorem steps_dismiss {taken : List Task} (h : s.drained = taken) :
    s.steps (taken.map .dismiss) = some (taken.foldl dismiss s) := by
  induction taken generalizing s with
  | nil => rfl
  | cons task taken ih =>
    -- The first of the tasks that are left is dismissed, and the others are left.
    have htaken : task ∈ s.drained := h ▸ List.mem_cons_self ..
    have hrest : (s.dismiss task).drained = taken := by
      change s.drained.erase task = taken
      rw [h, List.erase_cons_head]
    have hstep : s.step (.dismiss task) = some (s.dismiss task) := if_pos htaken
    simp only [List.map_cons, steps, hstep, Option.bind_eq_bind, Option.bind_some,
      List.foldl_cons]
    exact ih hrest

/-- A shutdown drains, closes and dismisses what it has drained. -/
theorem steps_beginShutdown (s : Scheduler) :
    s.steps (.drain :: .close :: s.drain.close.drained.map .dismiss) = some s.beginShutdown :=
  steps_dismiss (s := s.drain.close) rfl

/-! ## Tickets -/

/-- The tickets that a run hands out, in order. -/
def tickets (es : List Event) : List Ticket :=
  es.filterMap Event.ticket?

/-- A ticket is handed out by some event. -/
theorem mem_tickets {t : Ticket} : t ∈ tickets es ↔ ∃ e ∈ es, e.ticket? = some t :=
  List.mem_filterMap

theorem tickets_concat_of_none (he : e.ticket? = none) : tickets (es ++ [e]) = tickets es := by
  simp [tickets, he]

theorem tickets_concat_of_some {t : Ticket} (he : e.ticket? = some t) :
    tickets (es ++ [e]) = tickets es ++ [t] := by
  simp [tickets, he]

theorem tickets_subset_concat {t : Ticket} (ht : t ∈ tickets es) : t ∈ tickets (es ++ [e]) := by
  obtain ⟨e', he', ht'⟩ := mem_tickets.mp ht
  exact mem_tickets.mpr ⟨e', List.mem_append_left _ he', ht'⟩

/-- The generations that the calls of a run have used up, in order. -/
def used (es : List Event) : List Nat :=
  es.filterMap Event.uses?

/-- An event adds the generation that it uses up, if it is a call. -/
theorem used_concat (es : List Event) (e : Event) : used (es ++ [e]) = used es ++ e.uses?.toList := by
  rw [used, List.filterMap_append]
  cases h : e.uses? <;> simp [h, used]

/-- Tickets are for generations that were used; those of requests that break off are on none. -/
theorem tickets_sublist_used (es : List Event) :
    ((tickets es).map Ticket.generation).Sublist (used es) := by
  induction es with
  | nil => exact List.Sublist.refl _
  | cons e es ih =>
    cases ht : e.ticket? with
    | some t =>
      rw [tickets, used, List.filterMap_cons_some ht,
        List.filterMap_cons_some (Event.uses?_of_ticket? ht)]
      exact ih.cons_cons _
    | none =>
      rw [tickets, List.filterMap_cons_none ht]
      exact ih.trans (List.Sublist.filterMap _ (List.sublist_cons_self e es))

theorem mem_used_of_mem_tickets {t : Ticket} (ht : t ∈ tickets es) : t.generation ∈ used es :=
  (tickets_sublist_used es).subset (List.mem_map_of_mem ht)

/-- The generations that were drawn in a run: those that wait for their call, and those that a call
has used up. -/
def generations (es : List Event) (s : Scheduler) : List Nat :=
  s.drawn ++ used es

/-- A step keeps the generations that were drawn; only drawing adds the next one. -/
theorem Step.generations (es : List Event) (h : Step s e s') :
    (s'.counter = s.counter + 1 ∧
      (generations (es ++ [e]) s').Perm ((s.counter + 1) :: generations es s)) ∨
    (s'.counter = s.counter ∧ (generations (es ++ [e]) s').Perm (generations es s)) := by
  rw [Scheduler.generations, Scheduler.generations, used_concat]
  rcases h.numbers with ⟨rfl, hd, hc⟩ | ⟨g, hg, hmem, hd, hc⟩ | ⟨he, hd, hc⟩
  -- The new generation stands behind those that wait and before those that were used.
  · refine Or.inl ⟨hc, ?_⟩
    rw [hd, List.append_assoc, show Event.draw.uses? = none from rfl, Option.toList_none,
      List.append_nil]
    exact List.perm_middle
  · refine Or.inr ⟨hc, ?_⟩
    rw [hd, hg, Option.toList_some]
    -- The generation of the call leaves the front and joins at the end.
    have hmove : (s.drawn.erase g ++ [g]).Perm s.drawn :=
      (List.perm_append_singleton ..).trans (List.perm_cons_erase hmem).symm
    have hend : (s.drawn.erase g ++ (used es ++ [g])).Perm (s.drawn.erase g ++ ([g] ++ used es)) :=
      List.perm_append_comm.append_left _
    refine hend.trans ?_
    rw [← List.append_assoc]
    exact hmove.append_right _
  · refine Or.inr ⟨hc, ?_⟩
    rw [hd, he, Option.toList_none, List.append_nil]

/-! ## The ledger -/

/-- What the generations in a state of a run go back to. -/
structure Ledger (es : List Event) (s : Scheduler) : Prop where
  /-- No generation is drawn twice or used twice. -/
  distinct : (generations es s).Nodup
  /-- The counter is not behind any generation. -/
  counted : ∀ g ∈ generations es s, g ≤ s.counter
  /-- A task is registered under its own place. -/
  filed : ∀ file task, s.tasks.current? file = some task → task.file.place = file.place
  /-- A task is registered for a ticket. -/
  registered : ∀ file task, s.tasks.current? file = some task → task.ticket ∈ tickets es
  /-- A job works for a request. -/
  working : ∀ job ∈ s.jobs,
    .request job.task.generation job.task.file job.snapshot job.text ∈ es
  /-- An update that has a generation belongs to a ticket. -/
  told : ∀ u ∈ s.updates, ∀ g, u.generation? = some g → ⟨u.file, g⟩ ∈ tickets es

/-- A job works for a ticket. -/
theorem Ledger.ticketed (l : Ledger es s) {job : Job} (hjob : job ∈ s.jobs) :
    job.task.ticket ∈ tickets es :=
  mem_tickets.mpr ⟨_, l.working job hjob, rfl⟩

/-- What a step tells belongs to a ticket of before or to the one that the step hands out. -/
theorem Ledger.told_ticketed (l : Ledger es s) {u : Update} (h : Says s e u) {g : Nat}
    (hg : u.generation? = some g) : ⟨u.file, g⟩ ∈ tickets (es ++ [e]) := by
  cases h with
  | request g' file snapshot text =>
    rw [reply_generation?] at hg
    cases hg
    rw [reply_file, tickets_concat_of_some rfl]
    exact List.mem_append_right _ (List.mem_singleton_self _)
  | fail g' file why =>
    cases hg
    rw [tickets_concat_of_some rfl]
    exact List.mem_append_right _ (List.mem_singleton_self _)
  | cancel file => cases hg
  | finish hj hp hc =>
    cases hg
    obtain ⟨hjob, rfl⟩ := job?_eq_some hj
    exact tickets_subset_concat (l.ticketed hjob)

/-- Every step keeps the ledger, whether it draws, uses up a generation or neither. -/
theorem Ledger.next (l : Ledger es s) (h : Step s e s') : Ledger (es ++ [e]) s' where
  distinct := by
    rcases h.generations es with ⟨-, hp⟩ | ⟨-, hp⟩
    -- What is drawn is larger than all that was, so it is none of it.
    · refine hp.nodup_iff.mpr (List.nodup_cons.mpr ⟨fun hmem => ?_, l.distinct⟩)
      have := l.counted _ hmem
      omega
    · exact hp.nodup_iff.mpr l.distinct
  counted g hg := by
    rcases h.generations es with ⟨hc, hp⟩ | ⟨hc, hp⟩
    · rcases List.mem_cons.mp (hp.mem_iff.mp hg) with rfl | hold
      · omega
      · have := l.counted g hold
        omega
    · have := l.counted g (hp.mem_iff.mp hg)
      omega
  filed file task ht := by
    rcases h.current? ht with hold | ⟨_, _, -, hp⟩
    · exact l.filed file task hold
    · exact hp
  registered file task ht := by
    rcases h.current? ht with hold | ⟨_, _, rfl, -⟩
    · exact tickets_subset_concat (l.registered file task hold)
    -- The request registers its task for the ticket that it hands out itself.
    · rw [tickets_concat_of_some rfl]
      exact List.mem_append_right _ (List.mem_singleton_self _)
  working job hjob := by
    rcases h.mem_jobs hjob with ⟨old, hold, hsame⟩ | ⟨rfl, -⟩
    · rw [hsame]
      exact List.mem_append_left _ (l.working old hold)
    · exact List.mem_append_right _ (List.mem_singleton_self _)
  told u hu g hg := by
    rcases h.updates with heq | ⟨v, heq, htells⟩
    · rw [heq] at hu
      exact tickets_subset_concat (l.told u hu g hg)
    · rw [heq] at hu
      rcases List.mem_append.mp hu with hold | hnew
      · exact tickets_subset_concat (l.told u hold g hg)
      · obtain rfl := List.mem_singleton.mp hnew
        exact l.told_ticketed htells hg

/-- Every run keeps its ledger. -/
theorem Run.ledger (run : Run n j es s) : Ledger es s := by
  induction run with
  | start =>
    exact {
      distinct := List.nodup_nil
      counted := fun g hg => by cases hg
      filed := fun file task ht => by cases ht
      registered := fun file task ht => by cases ht
      working := fun job hjob => by cases hjob
      told := fun u hu => by cases hu }
  | next run step ih => exact ih.next (step_of_eq_some step)

/-! ## One generation, one ticket -/

/-- No generation is on two tickets. -/
theorem Ledger.tickets_nodup (l : Ledger es s) : ((tickets es).map Ticket.generation).Nodup :=
  l.distinct.of_append_right.sublist (tickets_sublist_used es)

/-- No two tickets have one generation. -/
theorem Ledger.ticket_ext (l : Ledger es s) {t t' : Ticket} (ht : t ∈ tickets es)
    (ht' : t' ∈ tickets es) (hg : t.generation = t'.generation) : t = t' :=
  List.inj_on_of_nodup_map l.tickets_nodup ht ht' hg

/-- A generation that waits for its call is on no ticket. -/
theorem Ledger.not_mem_drawn (l : Ledger es s) {t : Ticket} (ht : t ∈ tickets es) :
    t.generation ∉ s.drawn := fun hd =>
  List.disjoint_of_nodup_append l.distinct hd (mem_used_of_mem_tickets ht)

/-- No ticket is for a generation that was not drawn yet. -/
theorem Ledger.ticket_le (l : Ledger es s) {t : Ticket} (ht : t ∈ tickets es) :
    t.generation ≤ s.counter :=
  l.counted _ (List.mem_append_right _ (mem_used_of_mem_tickets ht))

/-- Tasks of one generation are one task. -/
theorem Ledger.task_ext (l : Ledger es s) {t t' : Task} (ht : t.ticket ∈ tickets es)
    (ht' : t'.ticket ∈ tickets es) (hg : t.generation = t'.generation) : t = t' := by
  have heq : t.ticket = t'.ticket := l.ticket_ext ht ht' hg
  cases t; cases t'; cases heq; rfl

/-- A generation stands in the ticket of one event only. -/
theorem event_ext (hd : ((tickets es).map Ticket.generation).Nodup) {e e' : Event}
    (he : e ∈ es) (he' : e' ∈ es) {t t' : Ticket} (ht : e.ticket? = some t)
    (ht' : e'.ticket? = some t') (hg : t.generation = t'.generation) : e = e' := by
  -- The tickets, and so the events that hand them out, stand in the list in which their generations
  -- are distinct.
  rw [tickets, List.map_filterMap] at hd
  refine eq_of_nodup_filterMap hd he he' (b := t.generation) ?_ ?_
  · rw [ht]; rfl
  · rw [ht', hg]; rfl

end Scheduler

end SmaliView
