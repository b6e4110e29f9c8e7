import SmaliView.Proofs.Scheduler.Registry

/-!
# The channel about one file

What the channel says about one file agrees with the task table: a step that tells an update about a
file registers the task whose start it tells of, or removes the one there was. So a registered task
is announced by the last update about its file. The other way round this holds as long as nothing is
shut down and no request for the file has broken off since (`Run.current?_eq_announced?`).
-/

namespace SmaliView

/-- Paths are the same exactly if they name one place. -/
theorem Path.same_iff {p q : Path} : p.same q = true ↔ p.place = q.place := by
  simp [Path.same, Path.place]

/-- The task whose start an update tells of. -/
def Update.started? : Update → Option Task
  | .loading file g => some ⟨file, g⟩
  | _ => none

theorem Update.started?_eq_some {u : Update} {task : Task} (h : u.started? = some task) :
    u = .loading task.file task.generation := by
  cases u <;> cases h
  rfl

namespace Scheduler

variable {n : Nat} {j : Journal} {es : List Event} {s s' : Scheduler} {e : Event}

/-- The updates about the place of a file, first to last. -/
def about (s : Scheduler) (file : Path) : List Update :=
  s.updates.filter (·.file.same file)

/-- The task that the last update about a file announces. -/
def announced? (s : Scheduler) (file : Path) : Option Task :=
  (s.about file).getLast?.bind Update.started?

/-- An update that is told next comes last among those about its place, and is no other place's. -/
theorem about_append {u : Update} (h : s'.updates = s.updates ++ [u]) (file : Path) :
    s'.about file = if u.file.place = file.place then s.about file ++ [u] else s.about file := by
  rw [about, h, List.filter_append, List.filter_cons, List.filter_nil]
  simp only [Path.same_iff]
  split
  · rfl
  · exact List.append_nil _

theorem getLast?_of_announced? {file : Path} {task : Task} (h : s.announced? file = some task) :
    (s.about file).getLast? = some (.loading task.file task.generation) := by
  obtain ⟨u, hu, hstart⟩ := Option.bind_eq_some_iff.mp h
  rw [hu, Update.started?_eq_some hstart]

/-- The last update about a file decides what is announced. -/
theorem announced?_append {file : Path} {u : Update} (h : s'.about file = s.about file ++ [u]) :
    s'.announced? file = u.started? := by
  rw [announced?, h, List.getLast?_concat, Option.bind_some]

/-! ## Requests that break off -/

/-- A request for the place of a file breaks off. -/
def Event.Aborts (file : Path) : Event → Prop
  | .abort _ file' _ _ => file'.place = file.place
  | _ => False

/-- What is said to the channel is said by no request that breaks off. -/
theorem Says.not_aborts {u : Update} (h : Says s e u) (file : Path) : ¬ e.Aborts file := by
  cases h <;> exact id

/-- A request for a file has broken off, and nothing was told about the file since then. -/
def Muted (h : List Transition) (file : Path) : Prop :=
  ∃ earlier t later, h = earlier ++ t :: later ∧ t.event.Aborts file ∧
    ∀ u ∈ later, u.after.about file = u.before.about file

/-- One event more: either it is the request that breaks off, or it leaves an earlier one muted. -/
theorem muted_concat {h : List Transition} {t : Transition} {file : Path} :
    Muted (h ++ [t]) file ↔
      t.event.Aborts file ∨ (Muted h file ∧ t.after.about file = t.before.about file) := by
  constructor
  · rintro ⟨earlier, t', later, heq, ha, hl⟩
    -- Either nothing came after the request, or the new event came last.
    rcases List.eq_nil_or_concat later with rfl | ⟨later, u, rfl⟩
    · obtain ⟨rfl, ht⟩ := List.append_inj' heq rfl
      obtain rfl := List.singleton_inj.mp ht
      exact Or.inl ha
    · have heq' : h ++ [t] = (earlier ++ t' :: later) ++ [u] := by rw [heq]; simp
      obtain ⟨rfl, ht⟩ := List.append_inj' heq' rfl
      obtain rfl := List.singleton_inj.mp ht
      refine Or.inr ⟨⟨earlier, t', later, rfl, ha, fun v hv => hl v ?_⟩, hl t ?_⟩
      · simp [hv]
      · simp
  · rintro (ha | ⟨⟨earlier, t', later, rfl, ha, hl⟩, ht⟩)
    · exact ⟨h, t, [], rfl, ha, fun u hu => by cases hu⟩
    · refine ⟨earlier, t', later ++ [t], by simp, ha, fun u hu => ?_⟩
      rcases List.mem_append.mp hu with hold | hnew
      · exact hl u hold
      · rw [List.mem_singleton.mp hnew]; exact ht

/-! ## The table follows the channel -/

/-- A request registers the task whose start it tells of. -/
theorem accepted_eq_started? (s : Scheduler) (g : Nat) (file : Path) (snapshot : Snapshot) :
    s.accepted g file snapshot = (s.reply g file snapshot).started? := by
  unfold accepted reply
  split <;> rfl

/-- What a step does to one file: nothing, taking its task without a word, which only a shutdown and
a request that breaks off do, or telling an update and registering what this announces. -/
theorem Step.about (step : Step s e s') (file : Path) :
    (s'.about file = s.about file ∧ s'.tasks.current? file = s.tasks.current? file ∧
      ¬ e.Aborts file) ∨
    (s'.about file = s.about file ∧ s'.tasks.current? file = none ∧
      (e = .drain ∨ s.closed = true ∨ e.Aborts file)) ∨
    ∃ u, Says s e u ∧ s'.about file = s.about file ++ [u] ∧
      s'.tasks.current? file = u.started? := by
  -- A section that tells `u` and leaves the table of all other places alone.
  have hsection : ∀ {u : Update}, Says s e u → s'.updates = s.updates ++ [u] →
      (s'.tasks.current? file =
        if file.place = u.file.place then u.started? else s.tasks.current? file) →
      (s'.about file = s.about file ∧ s'.tasks.current? file = s.tasks.current? file ∧
        ¬ e.Aborts file) ∨
      ∃ u, Says s e u ∧ s'.about file = s.about file ++ [u] ∧
        s'.tasks.current? file = u.started? := by
    intro u hsaid hu hc
    have habout := about_append hu file
    by_cases hp : file.place = u.file.place
    · rw [if_pos hp] at hc
      rw [if_pos hp.symm] at habout
      exact Or.inr ⟨u, hsaid, habout, hc⟩
    · rw [if_neg hp] at hc
      rw [if_neg (Ne.symm hp)] at habout
      exact Or.inl ⟨habout, hc, hsaid.not_aborts file⟩
  cases step with
  | @request g file₀ snapshot text hg =>
    have h := hsection (.request g file₀ snapshot text) (answered_updates ..)
      (by rw [answered_current?, reply_file, accepted_eq_started?])
    exact h.imp id Or.inr
  | @abort g file₀ snapshot text hg message hm =>
    -- The task of the file is taken, and nobody is told.
    have hcurrent := s.aborted_current? g file₀ file
    split at hcurrent
    · next hp => exact Or.inr (Or.inl ⟨rfl, hcurrent, Or.inr (Or.inr hp.symm)⟩)
    · next hp => exact Or.inl ⟨rfl, hcurrent, fun h => hp h.symm⟩
  | @fail g file₀ why hg =>
    have h := hsection (.fail g file₀ why) (failAs_updates ..) (failAs_current? ..)
    exact h.imp id Or.inr
  | cancel file₀ =>
    have h := hsection (.cancel file₀) (cancel_updates ..) (cancel_current? ..)
    exact h.imp id Or.inr
  | @tell g job o hj hp hc =>
    -- The job retires its task in the section in which it tells.
    have hcurrent := TaskTable.current?_retire s.tasks job.task.file g .completed file
    simp only [hc, true_and] at hcurrent
    have h := hsection (.finish hj hp hc) rfl hcurrent
    exact h.imp id Or.inr
  | drain => exact Or.inr (Or.inl ⟨rfl, rfl, Or.inl rfl⟩)
  | @refuse g job hj hp hc =>
    -- That a job was refused is told to nobody.
    have hcurrent := TaskTable.current?_retire s.tasks job.task.file g .cancelled file
    split at hcurrent
    · exact Or.inr (Or.inl ⟨rfl, hcurrent, Or.inr (Or.inl hc)⟩)
    · exact Or.inl ⟨rfl, hcurrent, id⟩
  | _ => exact Or.inl ⟨rfl, rfl, id⟩

/-- A registered task is announced by the last update about its file. -/
theorem Run.announced?_eq_some (run : Run n j es s) {file : Path} {task : Task}
    (ht : s.tasks.current? file = some task) : s.announced? file = some task := by
  induction run with
  | start => cases ht
  -- A step that tells nothing about the file may take its task but registers none, and one that
  -- does registers what it announces.
  | next run step ih =>
    rcases (step_of_eq_some step).about file with ⟨ha, hc, -⟩ | ⟨-, hc, -⟩ | ⟨u, -, ha, hc⟩
    · rw [announced?, ha]
      exact ih (hc.symm.trans ht)
    · rw [hc] at ht
      cases ht
    · rw [announced?_append ha, ← hc, ht]

/-- Only closing ends the giving of permits. -/
theorem Step.closed (step : Step s e s') (h : s'.closed = true) :
    s.closed = true ∨ e = .close := by
  cases step with
  | request file snapshot text hg => rw [answered_closed] at h; exact Or.inl h
  | fail file why hg => rw [failAs_closed] at h; exact Or.inl h
  | cancel file => rw [cancel_closed] at h; exact Or.inl h
  | close => exact Or.inr rfl
  | _ => exact Or.inl h

/-- Permits are given until the scheduler is closed. -/
theorem Run.closed (run : Run n j es s) (h : s.closed = true) : .close ∈ es := by
  induction run with
  | start => cases h
  | next run step ih =>
    rcases (step_of_eq_some step).closed h with hold | rfl
    · exact List.mem_append_left _ (ih hold)
    · exact List.mem_append_right _ (List.mem_singleton_self _)

/-- **The channel and the table agree.** As long as nothing is shut down, the task that is
registered for a file is the one that the last update about it announces, and there is none if it
announces none. A request for the file that breaks off is the one exception: until something is told
about the file again, no task is registered for it. -/
theorem Run.current?_eq_announced? (run : Run n j es s) (hdrain : .drain ∉ es)
    (hclose : .close ∉ es) (file : Path) :
    (¬ Muted ((new n j).history es) file → s.tasks.current? file = s.announced? file) ∧
      (Muted ((new n j).history es) file → s.tasks.current? file = none) := by
  induction run with
  | start =>
    refine ⟨fun _ => rfl, fun _ => rfl⟩
  | @next es s e s' run step ih =>
    rw [List.mem_append, not_or] at hdrain hclose
    have ih := ih hdrain.1 hclose.1
    rw [history_concat run.steps step, muted_concat]
    rcases (step_of_eq_some step).about file with
      ⟨ha, hc, hnot⟩ | ⟨-, hc, hend⟩ | ⟨u, hsaid, ha, hc⟩
    · simp only [hnot, ha, false_or, and_true]
      rw [announced?, ha, hc]
      exact ih
    -- Taking a task without a word is the mark of a shutdown, or of a request that breaks off.
    · refine ⟨fun hmuted => ?_, fun _ => hc⟩
      rcases hend with rfl | hclosed | haborts
      · exact absurd (List.mem_singleton_self _) hdrain.2
      · exact absurd (run.closed hclosed) hclose.1
      · exact absurd (Or.inl haborts) hmuted
    · refine ⟨fun _ => by rw [announced?_append ha, hc], ?_⟩
      rintro (haborts | ⟨-, hsame⟩)
      · exact absurd haborts (hsaid.not_aborts file)
      · exact absurd (ha.symm.trans hsame) (by simp)

end Scheduler

end SmaliView
