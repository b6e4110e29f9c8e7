import SmaliView.Proofs.Scheduler.Runs

/-!
# Results are delivered once, and only while they are wanted

A job tells and stores its outcome in one step, and only while its task is the registered one of its
file. A generation whose call is over and whose task is not registered (`Gone`) stays so, and
nothing is told or stored for it any more (`Silent`). Since a job that tells retires its own task, a
generation is told at most once (`Settled`).
-/

namespace SmaliView

def Update.finished? : Update → Option Nat
  | .finished _ g _ => some g
  | _ => none

namespace Scheduler

variable {n : Nat} {j : Journal} {es : List Event} {s s' : Scheduler} {e : Event} {g : Nat}

/-! ## Generations without a task -/

/-- The call of a generation is over, and no task of this generation is registered. -/
structure Gone (s : Scheduler) (g : Nat) : Prop where
  used : g ∉ s.drawn
  counted : g ≤ s.counter
  removed : ∀ file task, s.tasks.current? file = some task → task.generation ≠ g

/-- What is gone stays so by every step. -/
theorem Gone.next (h : Gone s g) (step : Step s e s') : Gone s' g where
  used hd := by
    rcases step.numbers with ⟨-, hd', -⟩ | ⟨t, -, -, hd', -⟩ | ⟨-, hd', -⟩
    -- A new generation is ahead of the counter, and this one is not.
    · rw [hd'] at hd
      rcases List.mem_append.mp hd with hold | hnew
      · exact h.used hold
      · have := h.counted
        have := List.mem_singleton.mp hnew
        omega
    · rw [hd'] at hd; exact h.used (List.mem_of_mem_erase hd)
    · rw [hd'] at hd; exact h.used hd
  counted := by
    have := h.counted
    rcases step.numbers with ⟨-, -, hc⟩ | ⟨t, -, -, -, hc⟩ | ⟨-, -, hc⟩ <;> omega
  removed file task ht hg := by
    rcases step.current? ht with hold | ⟨snapshot, text, rfl, -⟩
    · exact h.removed file task hold hg
    -- Only a call for this very generation could register it, and it has none left.
    · cases step with
      | request _ _ _ hd => exact h.used (hg ▸ hd)

/-- What is gone stays so however the run goes on. -/
theorem Gone.steps {es : List Event} (h : Gone s g) (hs : s.steps es = some s') : Gone s' g := by
  induction es generalizing s with
  | nil => cases hs; exact h
  | cons e es ih =>
    obtain ⟨t, ht, hs⟩ := Option.bind_eq_some_iff.mp hs
    exact ih (h.next (step_of_eq_some ht)) hs

/-- A generation that is gone is the current one of no file. -/
theorem Gone.not_isCurrent (h : Gone s g) (file : Path) : s.tasks.isCurrent file g = false := by
  rw [Bool.eq_false_iff]
  intro hc
  obtain ⟨task, ht, hg⟩ := (TaskTable.isCurrent_iff ..).mp hc
  exact h.removed file task ht hg

/-- From a state on, nothing is told and nothing is stored for a generation. -/
def Silent (s : Scheduler) (g : Nat) : Prop :=
  ∀ es s₁ e s₂, s.steps es = some s₁ → s₁.step e = some s₂ →
    (∃ new, s₂.updates = s₁.updates ++ new ∧ ∀ u ∈ new, u.finished? ≠ some g) ∧
    (e.worker? = some g → s₂.cache = s₁.cache)

/-- What a step tells is for no generation that is gone. -/
theorem Gone.not_finished (h : Gone s g) {u : Update} (hu : Says s e u)
    (hd : ∀ t, e.ticket? = some t → t.generation ∈ s.drawn) : u.finished? ≠ some g := by
  intro hg
  cases hu with
  | request g' file snapshot text =>
    -- The answer from the cache tells the generation of its own call.
    have hg' : g' = g := by
      unfold reply at hg
      split at hg
      · exact Option.some.inj hg
      · cases hg
    exact h.used (hg' ▸ hd _ rfl)
  | fail g' file why =>
    obtain rfl : g' = g := Option.some.inj hg
    exact h.used (hd _ rfl)
  | cancel file => cases hg
  | @finish g' job o hj hp hc =>
    obtain rfl : g' = g := Option.some.inj hg
    rw [h.not_isCurrent] at hc
    cases hc

/-- The call of a step that hands out a ticket uses a generation that was drawn. -/
theorem Step.mem_drawn (step : Step s e s') {t : Ticket} (ht : e.ticket? = some t) :
    t.generation ∈ s.drawn := by
  cases step with
  | request _ _ _ hg => cases ht; exact hg
  | fail _ _ hg => cases ht; exact hg
  | _ => cases ht

/-- A job changes the cache only where it tells its outcome. -/
theorem Step.worker (step : Step s e s') (hw : e.worker? = some g)
    (hne : s'.updates ≠ s.updates ∨ s'.cache ≠ s.cache) :
    ∃ job o, s.job? g = some job ∧ s.tasks.isCurrent job.task.file g = true ∧
      s'.updates = s.updates ++ [.finished job.task.file g o] ∧ s'.cache = keep s.cache job o := by
  cases step with
  | tell hj hp hc => cases hw; exact ⟨_, _, hj, hc, rfl, rfl⟩
  | request | fail | cancel | dropCached | forget | drain | close | dismiss => cases hw
  | _ => rcases hne with hne | hne <;> exact absurd rfl hne

/-- Nothing is told or stored any more for a generation that is gone. -/
theorem Gone.silent (h : Gone s g) : Silent s g := by
  intro es s₁ e s₂ hs he
  have h₁ := h.steps hs
  have step := step_of_eq_some he
  -- What is told is told by a call or by a job that is registered. Neither has this generation, and
  -- only the second stores.
  refine ⟨?_, fun hw => ?_⟩
  · rcases step.updates with heq | ⟨u, heq, hu⟩
    · exact ⟨[], by simp [heq], by simp⟩
    · exact ⟨[u], heq, by simpa using h₁.not_finished hu fun t ht => step.mem_drawn ht⟩
  · by_contra hne
    obtain ⟨job, o, -, hc, -⟩ := step.worker hw (Or.inr hne)
    rw [h₁.not_isCurrent] at hc
    cases hc

/-! ## Removing a task -/

/-- The events that take the task of a file from the table: another request for the file, also one
that breaks off, a failure in place of one, cancelling (with which closing a tab begins), and
draining. -/
def Event.Removes (file : Path) : Event → Prop
  | .request _ file' _ _ | .abort _ file' _ _ | .fail _ file' _ | .cancel file' =>
    file'.place = file.place
  | .drain => True
  | _ => False

/-- A task that is not the current one of its file is gone. -/
theorem Ledger.gone_of_not_isCurrent (l : Ledger es s) {task : Task}
    (hticket : task.ticket ∈ tickets es)
    (hc : s.tasks.isCurrent task.file task.generation = false) : Gone s task.generation where
  used := l.not_mem_drawn hticket
  counted := l.ticket_le hticket
  removed file other hother hg := by
    have hsame : other = task := l.task_ext (l.registered file other hother) hticket hg
    subst hsame
    -- It would be registered for its own file as well.
    have hplace : other.file.place = file.place := l.filed file other hother
    have hcurrent : s.tasks.current? other.file = some other :=
      (s.tasks.current?_congr hplace).trans hother
    have hisCurrent : s.tasks.isCurrent other.file other.generation = true :=
      (TaskTable.isCurrent_iff ..).mpr ⟨other, hcurrent, rfl⟩
    rw [hc] at hisCurrent
    cases hisCurrent

/-- A task that was removed is gone. -/
theorem Ledger.gone (l : Ledger es s) {file : Path} {task : Task}
    (ht : s.tasks.current? file = some task) (he : e.Removes file) (step : Step s e s') :
    Gone s' task.generation := by
  -- The task has its ticket, so it is enough that it is not registered for its own file.
  have hticket := l.registered file task ht
  refine (l.next step).gone_of_not_isCurrent (tickets_subset_concat hticket) ?_
  have hplace : task.file.place = file.place := l.filed file task ht
  rw [Bool.eq_false_iff]
  intro hc
  obtain ⟨other, hother, hg⟩ := (TaskTable.isCurrent_iff ..).mp hc
  cases step with
  | request file₀ snapshot text hd =>
    have hp : task.file.place = file₀.place := hplace.trans (Eq.symm he)
    rw [answered_current?, if_pos hp] at hother
    unfold accepted at hother
    split at hother
    · cases hother
    · -- The task that takes its place has a generation that was not used before.
      cases hother
      cases hg
      exact l.not_mem_drawn hticket hd
  | abort file₀ snapshot text hd =>
    have hp : task.file.place = file₀.place := hplace.trans (Eq.symm he)
    rw [aborted_current?, if_pos hp] at hother
    cases hother
  | fail file₀ why hd =>
    have hp : task.file.place = file₀.place := hplace.trans (Eq.symm he)
    rw [failAs_current?, if_pos hp] at hother
    cases hother
  | cancel file₀ =>
    have hp : task.file.place = file₀.place := hplace.trans (Eq.symm he)
    rw [cancel_current?, if_pos hp] at hother
    cases hother
  | drain => cases hother
  | _ => cases he

/-! ## Told at most once -/

/-- What is true of the outcomes that were told. -/
structure Settled (s : Scheduler) : Prop where
  /-- No generation is told twice. -/
  once : (s.updates.filterMap Update.finished?).Nodup
  /-- A generation that was told has no task. -/
  retired : ∀ u ∈ s.updates, ∀ g, u.finished? = some g → Gone s g
  /-- A cancellation is never told. -/
  decided : ∀ file g, .finished file g .cancelled ∉ s.updates
  /-- A cancellation is not kept for telling either. -/
  checked : ∀ job ∈ s.jobs, job.phase ≠ .checked .cancelled

/-- A step that tells an outcome leaves no task of its generation. -/
theorem Ledger.gone_of_tells (l : Ledger es s) (step : Step s e s') {u : Update}
    (hu : s'.updates = s.updates ++ [u]) (hg : u.finished? = some g) : Gone s' g := by
  have l' := l.next step
  -- Whoever tells an outcome has the ticket, and leaves the file without a task of the generation.
  have hticket : ⟨u.file, g⟩ ∈ tickets (es ++ [e]) := by
    have hmem : u ∈ s'.updates := by rw [hu]; simp
    refine l'.told u hmem g ?_
    cases u <;> cases hg; rfl
  show Gone s' (Task.mk u.file g).generation
  refine l'.gone_of_not_isCurrent hticket ?_
  show s'.tasks.isCurrent u.file g = false
  cases step with
  | request file₀ snapshot text hd =>
    rw [answered_updates] at hu
    obtain rfl : s.reply _ file₀ snapshot = u := by simpa using hu
    rw [TaskTable.isCurrent, reply_file, answered_current?, if_pos rfl]
    -- An answer from the cache registers no task, and `loading` tells no outcome.
    unfold accepted
    unfold reply at hg
    split
    · rfl
    · next hl => rw [hl] at hg; cases hg
  | fail file₀ why hd =>
    rw [failAs_updates] at hu
    obtain rfl : Update.finished file₀ _ (.failed why) = u := by simpa using hu
    show (s.failAs _ file₀ why).tasks.isCurrent file₀ g = false
    rw [TaskTable.isCurrent, failAs_current?, if_pos rfl]
    rfl
  | cancel file₀ =>
    rw [cancel_updates] at hu
    obtain rfl : Update.dismissed file₀ = u := by simpa using hu
    cases hg
  | @tell g' job o hj hp hc =>
    obtain rfl : Update.finished job.task.file g' o = u := by
      simpa [emit, endJob] using hu
    obtain rfl : g' = g := Option.some.inj hg
    -- Telling and retiring are one step.
    exact TaskTable.isCurrent_retire ..
  | _ =>
    exact absurd hu
      (by simp [aborted, setPhase, endJob, fire, dropCached, forget, drain, close, dismiss, draw])

/-- A step tells an outcome only for a generation that was not settled before. -/
theorem Settled.next (h : Settled s) (l : Ledger es s) (step : Step s e s') : Settled s' where
  once := by
    rcases step.updates with heq | ⟨u, heq, hu⟩
    · rw [heq]; exact h.once
    · rw [heq, List.filterMap_append]
      cases hf : u.finished? with
      | none => simpa [hf] using h.once
      | some g =>
        -- A generation that was told before is gone, so this step cannot tell it.
        have hnew : g ∉ s.updates.filterMap Update.finished? := by
          intro hold
          obtain ⟨v, hv, hvg⟩ := List.mem_filterMap.mp hold
          exact (h.retired v hv g hvg).not_finished hu (fun t ht => step.mem_drawn ht) hf
        have hone : [u].filterMap Update.finished? = [g] := by simp [hf]
        rw [hone]
        exact List.nodup_append.mpr ⟨h.once, List.nodup_singleton g, by
          intro a ha b hb
          rw [List.mem_singleton.mp hb]
          exact fun hab => hnew (hab ▸ ha)⟩
  retired u hu g hg := by
    rcases step.updates with heq | ⟨v, heq, hv⟩
    · rw [heq] at hu
      exact (h.retired u hu g hg).next step
    · rw [heq] at hu
      rcases List.mem_append.mp hu with hold | hnew
      · exact (h.retired u hold g hg).next step
      · obtain rfl := List.mem_singleton.mp hnew
        exact l.gone_of_tells step heq hg
  decided file g hmem := by
    rcases step.updates with heq | ⟨u, heq, hu⟩
    · rw [heq] at hmem; exact h.decided file g hmem
    · rw [heq] at hmem
      rcases List.mem_append.mp hmem with hold | hnew
      · exact h.decided file g hold
      -- No section of a caller tells a cancellation, and a job that has come so far has none to
      -- tell.
      · have htells := List.mem_singleton.mp hnew ▸ hu
        generalize hw : Update.finished file g .cancelled = w at htells
        cases htells with
        | request g' file' snapshot text => unfold reply at hw; split at hw <;> cases hw
        | fail g' file' why => cases hw
        | cancel file' => cases hw
        | finish hj hp hc => cases hw; exact h.checked _ (job?_eq_some hj).1 hp
  checked job hjob hphase := by
    rcases step.checked hjob hphase with ⟨old, hold, hp⟩ | ho
    · exact h.checked old hold hp
    · cases ho

/-- In every run the outcomes that were told are settled. -/
theorem Run.settled (run : Run n j es s) : Settled s := by
  induction run with
  | start =>
    exact {
      once := List.nodup_nil
      retired := fun u hu => by cases hu
      decided := fun file g hmem => by cases hmem
      checked := fun job hjob => by cases hjob }
  | next run step ih => exact ih.next run.ledger (step_of_eq_some step)

/-! ## Delivery -/

/-- A registered task with the generation of a job is the task of the job. -/
theorem Ledger.current?_of_isCurrent (l : Ledger es s) {job : Job} (hj : s.job? g = some job)
    (hc : s.tasks.isCurrent job.task.file g = true) :
    s.tasks.current? job.task.file = some job.task := by
  obtain ⟨hjob, rfl⟩ := job?_eq_some hj
  obtain ⟨task, ht, htg⟩ := (TaskTable.isCurrent_iff ..).mp hc
  rw [ht, l.task_ext (l.registered _ task ht) (l.ticketed hjob) htg]

/-- The only ticket that an update with a generation answers is its own. -/
theorem Ledger.answers_unique (l : Ledger es s) {u : Update} (hu : u ∈ s.updates)
    (hg : u.generation?.isSome) : ∃! t, t ∈ tickets es ∧ u.answers t := by
  obtain ⟨g, hg⟩ := Option.isSome_iff_exists.mp hg
  have hown := l.told u hu g hg
  refine ⟨⟨u.file, g⟩, ⟨hown, by simp [Update.answers, Path.same, hg]⟩, ?_⟩
  -- Another ticket that it answers would have its generation.
  rintro t ⟨ht, hat⟩
  simp only [Update.answers, hg, Option.all_some, Bool.and_eq_true, beq_iff_eq] at hat
  exact l.ticket_ext ht hown hat.2.symm

/-- **No stale delivery, and at most one.** In every run:

* a job tells an outcome or changes the cache only in a step in which its task is the registered
  one of its file, and then tells and stores its own outcome;
* once a task was removed by a newer request, a failure, cancelling or draining, nothing is told
  or stored for its generation;
* every generation is told at most once, and never as cancelled;
* an update with a generation answers exactly one of the tickets that were handed out. -/
theorem delivered_while_registered_once (run : (new n j).steps es = some s) :
    (∀ e g s', e.worker? = some g → s.step e = some s' →
      s'.updates ≠ s.updates ∨ s'.cache ≠ s.cache →
      ∃ job o, s.job? g = some job ∧ s.tasks.current? job.task.file = some job.task ∧
        s'.updates = s.updates ++ [.finished job.task.file g o] ∧
        s'.cache = keep s.cache job o) ∧
    (∀ file task e s', s.tasks.current? file = some task → e.Removes file →
      s.step e = some s' → Silent s' task.generation) ∧
    (∀ g, s.updates.countP (·.finished? == some g) ≤ 1) ∧
    (∀ file g, .finished file g .cancelled ∉ s.updates) ∧
    (∀ u ∈ s.updates, u.generation?.isSome → ∃! t, t ∈ tickets es ∧ u.answers t) := by
  have run := run_of_steps run
  have l := run.ledger
  have settled := run.settled
  refine ⟨?_, ?_, ?_, settled.decided, fun u hu hg => l.answers_unique hu hg⟩
  · intro e g s' hw he hne
    obtain ⟨job, o, hj, hc, hu, hk⟩ := (step_of_eq_some he).worker hw hne
    exact ⟨job, o, hj, l.current?_of_isCurrent hj hc, hu, hk⟩
  · intro file task e s' ht hr he
    exact (l.gone ht hr (step_of_eq_some he)).silent
  · intro g
    rw [← List.count_filterMap]
    exact List.nodup_iff_count_le_one.mp settled.once g

/-- A request comes between the check and the completion of a job for the same file. -/
def overtaking : List Event :=
  [.draw, .draw, .request 1 ⟨"A"⟩ (.disk ⟨0, 0⟩ 1) none, .acquire 1,
    .resolve 1 (.outcome (.success ⟨"old", .existing, none⟩)), .check 1,
    .request 2 ⟨"A"⟩ (.disk ⟨1, 0⟩ 1) none, .finish 1, .acquire 2,
    .resolve 2 (.outcome (.success ⟨"new", .existing, none⟩)), .check 2, .finish 2]

/-- The job that was overtaken ends in silence, and only the newer outcome is told. -/
theorem overtaken_job_is_silent :
    ∃ s, (new 2 .silent).steps overtaking = some s ∧
      s.updates = [.loading ⟨"A"⟩ 1, .loading ⟨"A"⟩ 2,
        .finished ⟨"A"⟩ 2 (.success ⟨"new", .existing, none⟩)] ∧
      (∀ g, s.updates.countP (·.finished? == some g) ≤ 1) ∧
      ∀ u ∈ s.updates, u.generation?.isSome → ∃! t, t ∈ tickets overtaking ∧ u.answers t := by
  have hrun : ((new 2 .silent).steps overtaking).map updates =
      some [.loading ⟨"A"⟩ 1, .loading ⟨"A"⟩ 2,
        .finished ⟨"A"⟩ 2 (.success ⟨"new", .existing, none⟩)] := by decide +kernel
  obtain ⟨s, hs, hu⟩ := Option.map_eq_some_iff.mp hrun
  have h := delivered_while_registered_once hs
  exact ⟨s, hs, hu, h.2.2.1, h.2.2.2.2⟩

end Scheduler

end SmaliView
