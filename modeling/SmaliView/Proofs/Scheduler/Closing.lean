import SmaliView.Proofs.Scheduler.Places

/-!
# Closing a tab

Closing a tab takes three sections: the file is cancelled, what the cache holds for it is dropped,
and how its last task ended is forgotten. Calls for other files and the steps of jobs fall between
them in any order, and a job of the file may be as far as having to complete. From the first section
on no task is registered for the file. So whatever its jobs still do, nothing is stored, noted or
told for it until it is submitted again (`Rests`), and what the other two sections have taken stays
away.
-/

namespace SmaliView

namespace Scheduler

variable {s s' s'' : Scheduler} {e : Event} {file : Path}

/-- The sections that give a file new work or a new answer. -/
def Event.Submits (file : Path) : Event → Prop
  | .request _ file' _ _ | .fail _ file' _ => file'.place = file.place
  | _ => False

/-- Between two states a file without a task was left to rest: it has none again, nothing was stored
or noted for it, and all that was told is that it was dismissed. -/
structure Rests (file : Path) (s s' : Scheduler) : Prop where
  free : s'.tasks.current? file = none
  unheld : s.cache.held? file = none → s'.cache.held? file = none
  unnoted : s.tasks.noted? file = none → s'.tasks.noted? file = none
  told : ∃ told, s'.about file = s.about file ++ told ∧ ∀ u ∈ told, ∃ f, u = .dismissed f

theorem Rests.refl (hfree : s.tasks.current? file = none) : Rests file s s where
  free := hfree
  unheld := id
  unnoted := id
  told := ⟨[], (List.append_nil _).symm, fun _ hu => absurd hu List.not_mem_nil⟩

/-- Resting goes on: what is left to rest twice in a row is left to rest. -/
theorem Rests.trans (h : Rests file s s') (h' : Rests file s' s'') : Rests file s s'' where
  free := h'.free
  unheld hheld := h'.unheld (h.unheld hheld)
  unnoted hnoted := h'.unnoted (h.unnoted hnoted)
  told := by
    obtain ⟨told, ha, hd⟩ := h.told
    obtain ⟨told', ha', hd'⟩ := h'.told
    refine ⟨told ++ told', by rw [ha', ha, List.append_assoc], fun u hu => ?_⟩
    exact (List.mem_append.mp hu).elim (hd u) (hd' u)

/-- What is known about a file tells whether it was left to rest. -/
theorem Rests.of_known {k : Known} (h : s'.known file = k) (hfree : k.task = none)
    (hheld : s.cache.held? file = none → k.held = none)
    (hnoted : s.tasks.noted? file = none → k.note = none)
    (htold : k.told = s.about file ∨ ∃ f, k.told = s.about file ++ [.dismissed f]) :
    Rests file s s' := by
  subst h
  refine ⟨hfree, hheld, hnoted, ?_⟩
  rcases htold with hsame | ⟨f, hone⟩
  · exact ⟨[], hsame.trans (List.append_nil _).symm, fun u hu => absurd hu List.not_mem_nil⟩
  · exact ⟨[.dismissed f], hone, fun u hu => ⟨f, List.mem_singleton.mp hu⟩⟩

/-- Only a file that has a task is the one of a registered job. -/
theorem not_isCurrent_of_free {file' : Path} (hfree : s.tasks.current? file = none)
    (hplace : file'.place = file.place) (g : Nat) : s.tasks.isCurrent file' g = false := by
  have hnone : s.tasks.current? file' = none := (s.tasks.current?_congr hplace).trans hfree
  rw [TaskTable.isCurrent, hnone, Option.any_none]

/-- A file without a task is left to rest by every step that does not submit it. Above all by those
of its own jobs: none of them is registered. -/
theorem Step.rests (step : Step s e s') (hfree : s.tasks.current? file = none)
    (he : ¬ e.Submits file) : Rests file s s' := by
  by_cases hc : e.Concerns s file
  · cases step with
    | request file' snapshot text hg => exact absurd hc he
    | fail file' why hg => exact absurd hc he
    | @abort g file' snapshot text hg =>
      -- There is no task that the request could take.
      have hknown := (known_aborted s g file' file).trans (if_pos (Eq.symm hc))
      exact .of_known hknown rfl id id (Or.inl rfl)
    | cancel file' =>
      -- There is nothing to cancel, so only the dismissal is told.
      have hrunning : s.isRunning file' = false := by
        rw [isRunning, s.tasks.current?_congr hc, hfree, Option.isSome_none]
      have hknown := (known_cancel s file' file).trans (if_pos (Eq.symm hc))
      rw [hrunning] at hknown
      exact .of_known hknown rfl id id (Or.inr ⟨file', rfl⟩)
    | dropCached file' =>
      have hknown := (known_dropCached s file' file).trans (if_pos (Eq.symm hc))
      exact .of_known hknown hfree (fun _ => rfl) id (Or.inl rfl)
    | forget file' =>
      have hknown := (known_forget s file' file).trans (if_pos (Eq.symm hc))
      exact .of_known hknown hfree id (fun _ => rfl) (Or.inl rfl)
    | drain => exact .of_known rfl rfl id (fun _ => rfl) (Or.inl rfl)
    | @refuse g job hj hp hclosed =>
      obtain ⟨job', hj', hplace⟩ := hc
      obtain rfl : job = job' := Option.some.inj (hj.symm.trans hj')
      have hknown := known_refuse s job g file
      -- The job that is refused has no task to retire.
      rw [not_isCurrent_of_free hfree hplace, if_neg fun h => Bool.false_ne_true h.1] at hknown
      exact .of_known hknown hfree id id (Or.inl rfl)
    | @tell g job o hj hp hcurrent =>
      obtain ⟨job', hj', hplace⟩ := hc
      obtain rfl : job = job' := Option.some.inj (hj.symm.trans hj')
      -- A job of the file that wants to complete is not registered, so it cannot tell.
      rw [not_isCurrent_of_free hfree hplace] at hcurrent
      cases hcurrent
    | close => exact absurd hc id
    | dismiss ht => exact absurd hc id
    | draw => exact absurd hc id
    | _ => exact .of_known (k := s.known file) rfl hfree id id (Or.inl rfl)
  · exact .of_known (step.unconcerned hc) hfree id id (Or.inl rfl)

/-- A file without a task is left to rest until it is submitted. -/
theorem steps_rests {es : List Event} (h : s.steps es = some s')
    (hfree : s.tasks.current? file = none) (quiet : ∀ e ∈ es, ¬ e.Submits file) :
    Rests file s s' := by
  induction es generalizing s with
  | nil => cases h; exact .refl hfree
  | cons e es ih =>
    obtain ⟨t, ht, h⟩ := Option.bind_eq_some_iff.mp h
    obtain ⟨he, hes⟩ := List.forall_mem_cons.mp quiet
    -- The file is still without a task after the first step, so the rest of them go on from there.
    have hfirst := (step_of_eq_some ht).rests hfree he
    exact hfirst.trans (ih h hfirst.free hes)

/-- **Closing a tab leaves nothing behind.** Whatever happens between the sections that close the
tab of a file and after them, in whatever state they begin, with jobs of the file that have come as
far as any: until the file is submitted again, nothing is held for it, it is idle, and since the
closing began nothing was told about it but that it was dismissed. -/
theorem closed_tab_leaves_nothing {mid₁ mid₂ later : List Event}
    (closing : s.steps (.cancel file :: (mid₁ ++ .dropCached file :: (mid₂ ++ .forget file :: later)))
      = some s')
    (quiet : ∀ e ∈ mid₁ ++ mid₂ ++ later, ¬ e.Submits file) :
    s'.cache.contains file = false ∧ s'.tasks.state file = .idle ∧
      ∃ told, s'.about file = s.about file ++ told ∧ ∀ u ∈ told, ∃ f, u = .dismissed f := by
  simp only [List.forall_mem_append] at quiet
  obtain ⟨⟨quiet₁, quiet₂⟩, quiet₃⟩ := quiet
  obtain ⟨s₁, hcancel, closing⟩ := steps_cons_eq_some.mp closing
  obtain ⟨s₂, h₁, closing⟩ := steps_append_eq_some.mp closing
  obtain ⟨s₃, hdrop, closing⟩ := steps_cons_eq_some.mp closing
  obtain ⟨s₄, h₂, closing⟩ := steps_append_eq_some.mp closing
  obtain ⟨s₅, hforget, h₃⟩ := steps_cons_eq_some.mp closing
  -- Cancelling takes the task of the file, if it has one.
  cases hcancel
  have hfree : (s.cancel file).tasks.current? file = none := by rw [cancel_current?, if_pos rfl]
  have htold : (s.cancel file).about file = s.about file ++ [.dismissed file] := by
    rw [about_append (cancel_updates ..), Update.file, if_pos rfl]
  have rests₁ := steps_rests h₁ hfree quiet₁
  have dropped : Rests file s₂ s₃ := (step_of_eq_some hdrop).rests rests₁.free id
  have rests₂ := steps_rests h₂ dropped.free quiet₂
  have forgotten : Rests file s₄ s₅ := (step_of_eq_some hforget).rests rests₂.free id
  have rests₃ := steps_rests h₃ forgotten.free quiet₃
  -- What a section takes stays away in all that follows it.
  have hheld : s'.cache.held? file = none := by
    refine ((rests₂.trans forgotten).trans rests₃).unheld ?_
    cases hdrop
    exact (Cache.held?_drop ..).trans (if_pos rfl)
  have hnoted : s'.tasks.noted? file = none := by
    refine rests₃.unnoted ?_
    cases hforget
    exact (TaskTable.noted?_forget ..).trans (if_pos rfl)
  refine ⟨?_, ?_, ?_⟩
  · show (s'.cache.held? file).isSome = false
    rw [hheld, Option.isSome_none]
  · rw [TaskTable.state_eq, rests₃.free, hnoted]
    rfl
  · obtain ⟨told, ha, hd⟩ := ((((rests₁.trans dropped).trans rests₂).trans forgotten).trans
      rests₃).told
    refine ⟨.dismissed file :: told, by rw [ha, htold, List.append_assoc]; rfl, ?_⟩
    exact List.forall_mem_cons.mpr ⟨⟨file, rfl⟩, hd⟩

/-- A job that has only to complete when the tab of its file is closed. -/
def completing : List Event :=
  [.draw, .request 1 ⟨"p/A"⟩ (.disk ⟨0, 0⟩ 1) none, .acquire 1,
    .resolve 1 (.outcome (.success ⟨"class A", .existing, none⟩)), .check 1]

/-- It completes between the sections, and another file is requested between them and converted
after them. -/
theorem completing_job_leaves_nothing :
    ∃ s s', (new 2 .silent).steps completing = some s ∧
      s.steps (.cancel ⟨"p//A"⟩ :: ([.finish 1, .draw, .request 2 ⟨"p/B"⟩ (.disk ⟨0, 0⟩ 1) none] ++
        .dropCached ⟨"p//A"⟩ :: ([.acquire 2] ++ .forget ⟨"p//A"⟩ ::
          [.resolve 2 (.outcome (.success ⟨"class B", .existing, none⟩)), .check 2, .finish 2]))) =
        some s' ∧
      s.about ⟨"p/A"⟩ = [.loading ⟨"p/A"⟩ 1] ∧ s.tasks.state ⟨"p/A"⟩ = .running ∧
      s'.updates.length = 4 ∧
      s'.cache.contains ⟨"p//A"⟩ = false ∧ s'.tasks.state ⟨"p//A"⟩ = .idle ∧
      ∃ told, s'.about ⟨"p//A"⟩ = s.about ⟨"p//A"⟩ ++ told ∧
        ∀ u ∈ told, ∃ f, u = .dismissed f := by
  have hrun : ((new 2 .silent).steps completing).map
      (fun s => (s.about ⟨"p/A"⟩, s.tasks.state ⟨"p/A"⟩)) =
        some ([.loading ⟨"p/A"⟩ 1], .running) := by decide +kernel
  obtain ⟨s, hs, hbefore⟩ := Option.map_eq_some_iff.mp hrun
  obtain ⟨habout, hstate⟩ := Prod.mk.inj hbefore
  have hclosing : ((new 2 .silent).steps (completing ++ (.cancel ⟨"p//A"⟩ ::
      ([.finish 1, .draw, .request 2 ⟨"p/B"⟩ (.disk ⟨0, 0⟩ 1) none] ++
        .dropCached ⟨"p//A"⟩ :: ([.acquire 2] ++ .forget ⟨"p//A"⟩ ::
          [.resolve 2 (.outcome (.success ⟨"class B", .existing, none⟩)), .check 2,
            .finish 2]))))).map (·.updates.length) = some 4 := by decide +kernel
  rw [steps_append, hs, Option.bind_some] at hclosing
  obtain ⟨s', hs', hlength⟩ := Option.map_eq_some_iff.mp hclosing
  have hother : Path.place ⟨"p/B"⟩ ≠ Path.place ⟨"p//A"⟩ := by decide +kernel
  exact ⟨s, s', hs, hs', habout, hstate, hlength,
    closed_tab_leaves_nothing hs' (by simp [Event.Submits, hother])⟩

end Scheduler

end SmaliView
