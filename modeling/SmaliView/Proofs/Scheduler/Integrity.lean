import SmaliView.Proofs.Scheduler.Phases

/-!
# The task table is in order

What the operations of the task table do not enforce, the scheduler does: a place has a running task
or a note of how its last one ended, but not both, and a request removes the running task before it
registers its own, so that nothing is left to displace. `Tidy` carries this through all runs. The
generations of what is registered or alive are told apart by the ledger.
-/

namespace SmaliView

namespace Scheduler

variable {n : Nat} {j : Journal} {es : List Event} {s s' : Scheduler} {e : Event} {g : Nat}

/-- Tasks of one generation stand at one place, so that no generation is registered twice. -/
theorem Run.registered_generations_nodup (run : Run n j es s) :
    (s.tasks.running.values.map Task.generation).Nodup := by
  have htidy := run.tidy
  have hentries : s.tasks.running.entries.Nodup := htidy.distinct.of_map
  rw [Table.values, List.map_map]
  -- Two entries of one generation have the same task, which stands under its own place.
  refine hentries.map_on ?_
  rintro ⟨place, task⟩ hmem ⟨place', task'⟩ hmem' hg
  have hget := htidy.distinct.get?_eq_some_iff.mpr hmem
  have hget' := htidy.distinct.get?_eq_some_iff.mpr hmem'
  have hplace := htidy.filed place task hget
  have hplace' := htidy.filed place' task' hget'
  subst hplace hplace'
  have hsame : task = task' :=
    run.ledger.task_ext (run.ledger.registered _ _ hget) (run.ledger.registered _ _ hget') hg
  rw [hsame]

/-- What is registered goes back to a ticket. -/
theorem Run.ticket_of_mem_values (run : Run n j es s) {task : Task}
    (h : task ∈ s.tasks.running.values) : task.ticket ∈ tickets es :=
  run.ledger.registered task.file task (run.tidy.mem_values_iff.mp h)

/-- The generation of a ticket is not ahead of the counter, and no call waits for it any more. -/
theorem Ledger.used (l : Ledger es s) {t : Ticket} (h : t ∈ tickets es) :
    t.generation ≤ s.counter ∧ t.generation ∉ s.drawn :=
  ⟨l.ticket_le h, l.not_mem_drawn h⟩

/-- A request that finds nothing in the cache displaces nothing when it registers its task. -/
theorem Step.replace_eq {file : Path} {snapshot : Snapshot} {text : Option String}
    (step : Step s (.request g file snapshot text) s')
    (hmiss : s.cache.lookup? file snapshot = none) :
    (s.tasks.remove file).1.replace ⟨file, g⟩ = (s'.tasks, none) := by
  have hfree := TaskTable.current?_remove_self s.tasks file
  cases step with
  | request =>
    rw [answered_tasks, accepted, hmiss]
    exact Prod.ext rfl hfree

/-- **The task table is in order.** In every state of every run, however the calls, which draw their
generations before they hold the lock, and the steps of jobs fall:

* no place has both a running task and a note of how its last one ended;
* what is noted is that it was completed or cancelled;
* every running task stands under the place of its own file;
* no generation is registered twice, none has two jobs, and a job with the generation of a
  registered task works for this task;
* the calls that are still to enter hold a generation each, none of which is that of a registered
  task or a job, and no generation is ahead of the counter;
* a request that finds nothing in the cache ends by replacing, and this displaces no task. -/
theorem task_table_is_in_order (run : (new n j).steps es = some s) :
    (∀ place, s.tasks.running.get? place = none ∨ s.tasks.settled.get? place = none) ∧
    (∀ place state, s.tasks.settled.get? place = some state →
      state = .completed ∨ state = .cancelled) ∧
    (∀ place task, s.tasks.running.get? place = some task → task.file.place = place) ∧
    ((s.tasks.running.values.map Task.generation).Nodup ∧
      (s.jobs.map (·.task.generation)).Nodup ∧
      ∀ job ∈ s.jobs, ∀ task ∈ s.tasks.running.values,
        job.task.generation = task.generation → job.task = task) ∧
    (s.drawn.Nodup ∧ (∀ g ∈ s.drawn, g ≤ s.counter) ∧
      ∀ task, task ∈ s.tasks.running.values ∨ (∃ job ∈ s.jobs, job.task = task) →
        task.generation ≤ s.counter ∧ task.generation ∉ s.drawn) ∧
    (∀ g file snapshot text s', s.step (.request g file snapshot text) = some s' →
      s.cache.lookup? file snapshot = none →
      (s.tasks.remove file).1.replace ⟨file, g⟩ = (s'.tasks, none)) := by
  have run := run_of_steps run
  have tidy := run.tidy
  have l := run.ledger
  refine ⟨tidy.apart, tidy.ended, tidy.filed,
    ⟨run.registered_generations_nodup, run.job_generations_nodup, ?_⟩,
    ⟨(List.nodup_append.mp l.distinct).1, fun g hg => l.counted g (List.mem_append_left _ hg), ?_⟩,
    ?_⟩
  -- Job and task have their tickets, and one generation is on one ticket.
  · intro job hjob task htask hg
    exact l.task_ext (l.ticketed hjob) (run.ticket_of_mem_values htask) hg
  · rintro task (htask | ⟨job, hjob, rfl⟩)
    · exact l.used (run.ticket_of_mem_values htask)
    · exact l.used (l.ticketed hjob)
  · intro g file snapshot text s' he hmiss
    exact (step_of_eq_some he).replace_eq hmiss

/-- Two calls for one unit enter in the other order than they have drawn, the second one of them
over the task of the first. A tab is closed in parts, and another one is answered by a failure. -/
def crossed : List Event :=
  [.draw, .draw, .draw, .draw, .request 2 ⟨"p/A"⟩ (.disk ⟨1, 0⟩ 1) none, .acquire 2,
    .request 1 ⟨"p//A"⟩ (.disk ⟨2, 0⟩ 1) none, .cancel ⟨"p/B"⟩,
    .request 3 ⟨"p/B"⟩ (.disk ⟨1, 0⟩ 1) none, .forget ⟨"p/B"⟩,
    .fail 4 ⟨"p/C"⟩ { summary := "no snapshot" }, .draw]

/-- The jobs of three generations are alive, and two of these are registered. The next request
removes the task of the first unit and displaces nothing. -/
theorem crossed_table_is_in_order :
    ∃ s s', (new 1 .silent).steps crossed = some s ∧
      s.jobs.map (·.task.generation) = [2, 1, 3] ∧
      s.tasks.running.values.map Task.generation = [3, 1] ∧
      s.tasks.settled.get? (Path.place ⟨"p/C"⟩) = some .completed ∧
      s.tasks.running.get? (Path.place ⟨"p/C"⟩) = none ∧
      (s.tasks.running.values.map Task.generation).Nodup ∧
      s.step (.request 5 ⟨"p/A"⟩ (.disk ⟨2, 0⟩ 1) none) = some s' ∧
      (s.tasks.remove ⟨"p/A"⟩).1.replace ⟨⟨"p/A"⟩, 5⟩ = (s'.tasks, none) := by
  have hrun : ((new 1 .silent).steps crossed).bind (fun s =>
      (s.step (.request 5 ⟨"p/A"⟩ (.disk ⟨2, 0⟩ 1) none)).map fun _ =>
        (s.jobs.map (·.task.generation), s.tasks.running.values.map Task.generation,
          s.tasks.settled.get? (Path.place ⟨"p/C"⟩),
          (s.cache.lookup? ⟨"p/A"⟩ (.disk ⟨2, 0⟩ 1)).isNone)) =
      some ([2, 1, 3], [3, 1], some .completed, true) := by decide +kernel
  obtain ⟨s, hs, hrun⟩ := Option.bind_eq_some_iff.mp hrun
  obtain ⟨s', hs', hrun⟩ := Option.map_eq_some_iff.mp hrun
  simp only [Prod.mk.injEq] at hrun
  obtain ⟨hjobs, hvalues, hsettled, hmiss⟩ := hrun
  obtain ⟨hapart, -, -, ⟨hnodup, -⟩, -, hreplace⟩ := task_table_is_in_order hs
  have hfree := (hapart (Path.place ⟨"p/C"⟩)).resolve_right (by
    rw [hsettled]
    exact Option.some_ne_none _)
  exact ⟨s, s', hs, hjobs, hvalues, hsettled, hfree, hnodup, hs',
    hreplace _ _ _ _ _ hs' (Option.isNone_iff_eq_none.mp hmiss)⟩

end Scheduler

end SmaliView
