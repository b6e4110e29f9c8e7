import SmaliView.Proofs.Scheduler.Runs

/-!
# What the cache holds after a run

The cache is a function of what has happened: for a file it holds the Java source that a job
delivered last, with the snapshot of the request that the job worked for, unless a running task of
the file was cancelled or the cached result was dropped since then (`Credited`). A request is
answered from the cache exactly when its own snapshot is the one of that request, and otherwise it
starts one job.
-/

namespace SmaliView

namespace Scheduler

variable {n : Nat} {j : Journal} {es : List Event} {s s' : Scheduler} {e : Event} {g : Nat}

/-! ## Deliveries -/

/-- A job of a generation tells Java source for the place of a file. -/
def Transition.Delivers (t : Transition) (file : Path) (g : Nat) (source : JavaSource) : Prop :=
  t.event = .finish g ∧ ∃ file', file'.place = file.place ∧
    t.after.updates = t.before.updates ++ [.finished file' g (.success source)]

/-- An event after which an earlier delivery for a file is served no more: another delivery,
cancelling a task that runs, or dropping the cached result, which is a part of closing a tab. -/
def Transition.Voids (t : Transition) (file : Path) : Prop :=
  (∃ g source, t.Delivers file g source) ∨
  (∃ file', file'.place = file.place ∧ t.event = .cancel file' ∧ t.before.isRunning file') ∨
  (∃ file', file'.place = file.place ∧ t.event = .dropCached file')

/-- The last delivery for a file is `source`, made for a request with `snapshot`, and nothing has
voided it. -/
def Credited (h : List Transition) (file : Path) (snapshot : Snapshot) (source : JavaSource) :
    Prop :=
  ∃ earlier t later g, h = earlier ++ t :: later ∧ t.Delivers file g source ∧
    (∃ file' text, file'.place = file.place ∧
      .request g file' snapshot text ∈ earlier.map Transition.event) ∧
    ∀ u ∈ later, ¬ u.Voids file

/-- One event more: either it is the delivery, or it leaves an earlier one alone. -/
theorem credited_concat {h : List Transition} {t : Transition} {file : Path} {snapshot : Snapshot}
    {source : JavaSource} :
    Credited (h ++ [t]) file snapshot source ↔
      (∃ g, t.Delivers file g source ∧
        ∃ file' text, file'.place = file.place ∧
          .request g file' snapshot text ∈ h.map Transition.event) ∨
      (Credited h file snapshot source ∧ ¬ t.Voids file) := by
  constructor
  · rintro ⟨earlier, t', later, g, heq, hd, hr, hl⟩
    -- Either nothing came after the delivery, or the new event came last.
    rcases List.eq_nil_or_concat later with rfl | ⟨later, u, rfl⟩
    · obtain ⟨rfl, ht⟩ := List.append_inj' heq rfl
      obtain rfl := List.singleton_inj.mp ht
      exact Or.inl ⟨g, hd, hr⟩
    · have heq' : h ++ [t] = (earlier ++ t' :: later) ++ [u] := by rw [heq]; simp
      obtain ⟨rfl, ht⟩ := List.append_inj' heq' rfl
      obtain rfl := List.singleton_inj.mp ht
      refine Or.inr ⟨⟨earlier, t', later, g, rfl, hd, hr, fun v hv => hl v ?_⟩, hl t ?_⟩
      · simp [hv]
      · simp
  · rintro (⟨g, hd, hr⟩ | ⟨⟨earlier, t', later, g, rfl, hd, hr, hl⟩, hv⟩)
    · exact ⟨h, t, [], g, rfl, hd, hr, fun u hu => by cases hu⟩
    · refine ⟨earlier, t', later ++ [t], g, by simp, hd, hr, fun u hu => ?_⟩
      rcases List.mem_append.mp hu with hold | hnew
      · exact hl u hold
      · rw [List.mem_singleton.mp hnew]; exact hv

/-! ## The cache after one event -/

/-- A delivery puts its source into the cache, with the snapshot of the job. -/
theorem held?_of_delivers (step : Step s e s') {file : Path} {g : Nat} {source : JavaSource}
    (hd : Transition.Delivers ⟨s, e, s'⟩ file g source) :
    ∃ job ∈ s.jobs, job.task.generation = g ∧ job.task.file.place = file.place ∧
      s'.cache.held? file = some ⟨job.snapshot, source⟩ := by
  obtain ⟨he, file', hp, hu⟩ := hd
  cases step with
  | @tell g' job o hj hphase hc =>
    obtain ⟨hjob, hg⟩ := job?_eq_some hj
    cases he
    -- What the job told last is the delivery.
    have hlast : Update.finished job.task.file g o = .finished file' g (.success source) :=
      List.singleton_inj.mp (List.append_cancel_left hu)
    cases hlast
    refine ⟨job, hjob, hg, hp, ?_⟩
    show ((s.cache.store job.task.file job.snapshot source).held? file) = _
    rw [Cache.held?_store, if_pos hp.symm]
  | hush => exact absurd hu (by simp [endJob])
  | _ => cases he

/-- Cancelling a running task and dropping take what is held for the file. -/
theorem held?_of_taken (step : Step s e s') {file file' : Path} (hp : file'.place = file.place)
    (h : e = .cancel file' ∧ s.isRunning file' ∨ e = .dropCached file') :
    s'.cache.held? file = none := by
  cases step with
  | cancel =>
    obtain ⟨h, hr⟩ | h := h <;> cases h
    rw [cancel_cache, if_pos hr, Cache.held?_drop, if_pos hp.symm]
  | dropCached =>
    obtain ⟨h, -⟩ | h := h <;> cases h
    exact (Cache.held?_drop ..).trans (if_pos hp.symm)
  | _ => obtain ⟨h, -⟩ | h := h <;> cases h

/-- What voids no delivery for a file changes nothing of what is held for it. -/
theorem held?_of_not_voids (step : Step s e s') {file : Path}
    (hv : ¬ Transition.Voids ⟨s, e, s'⟩ file) :
    s'.cache.held? file = s.cache.held? file := by
  cases step with
  | request => rw [answered_cache]
  | fail => rw [failAs_cache]
  | cancel file' =>
    rw [cancel_cache]
    -- Cancelling takes from the cache only where a task runs, and this would void the delivery.
    split
    · next hr =>
      have hp : ¬ file.place = file'.place := fun hp =>
        hv (Or.inr (Or.inl ⟨file', hp.symm, rfl, hr⟩))
      rw [Cache.held?_drop, if_neg hp]
    · rfl
  | dropCached file' =>
    have hp : ¬ file.place = file'.place := fun hp => hv (Or.inr (Or.inr ⟨file', hp.symm, rfl⟩))
    exact (Cache.held?_drop ..).trans (if_neg hp)
  | @tell g job o hj hphase hc =>
    show (keep s.cache job o).held? file = _
    -- A failure is not stored, and a success for this place would be a delivery.
    cases o with
    | success source =>
      have hp : ¬ file.place = job.task.file.place := fun hp =>
        hv (Or.inl ⟨g, source, rfl, job.task.file, hp.symm, rfl⟩)
      exact (Cache.held?_store ..).trans (if_neg hp)
    | _ => rfl
  | _ => rfl

/-! ## The cache after a run -/

/-- After a run the cache holds for a file what is credited to it. The induction is on the last
event; that a job keeps the snapshot of its request is read off the ledger. -/
theorem Run.held?_iff (run : Run n j es s) (file : Path) (snapshot : Snapshot)
    (source : JavaSource) :
    s.cache.held? file = some ⟨snapshot, source⟩ ↔
      Credited ((new n j).history es) file snapshot source := by
  induction run with
  | start =>
    refine iff_of_false (fun h => by cases h) ?_
    rintro ⟨earlier, t, later, g, heq, -⟩
    cases earlier <;> cases heq
  | @next es s e s' run he ih =>
    have step := step_of_eq_some he
    rw [history_concat run.steps he, credited_concat, history_map_event run.steps, ← ih]
    -- A delivery decides alone what is held; another event takes it or leaves it.
    by_cases hd : ∃ g source', Transition.Delivers ⟨s, e, s'⟩ file g source'
    · obtain ⟨g, source', hd⟩ := hd
      obtain ⟨job, hjob, hg, hplace, hheld⟩ := held?_of_delivers step hd
      have hworks := run.ledger.working job hjob
      rw [hheld, Option.some.injEq, CacheEntry.mk.injEq]
      constructor
      · rintro ⟨rfl, rfl⟩
        exact Or.inl ⟨g, hd, job.task.file, job.text, hplace, hg ▸ hworks⟩
      · rintro (⟨g', hd', file', text, -, hr⟩ | ⟨-, hv⟩)
        · -- Both deliveries are this event, and both requests are the one of the job.
          obtain ⟨hg', file₁, -, hu₁⟩ := hd
          obtain ⟨hg'', file₂, -, hu₂⟩ := hd'
          cases hg'.symm.trans hg''
          have hlast := List.singleton_inj.mp (List.append_cancel_left (hu₁.symm.trans hu₂))
          have hreq := event_ext run.ledger.tickets_nodup hworks hr rfl rfl hg
          cases hlast
          cases hreq
          exact ⟨rfl, rfl⟩
        · exact absurd (Or.inl ⟨g, source', hd⟩) hv
    · have hnot : ∀ g, ¬ Transition.Delivers ⟨s, e, s'⟩ file g source := fun g h =>
        hd ⟨g, source, h⟩
      by_cases hv : Transition.Voids ⟨s, e, s'⟩ file
      · have hnone : s'.cache.held? file = none := by
          rcases hv with hv | ⟨file', hp, h, hr⟩ | ⟨file', hp, h⟩
          · exact absurd hv hd
          · exact held?_of_taken step hp (Or.inl ⟨h, hr⟩)
          · exact held?_of_taken step hp (Or.inr h)
        simp [hnone, hnot, hv]
      · rw [held?_of_not_voids step hv]
        simp [hnot, hv]

/-! ## Answering requests -/

/-- A request is answered from the cache: its outcome is all that is told, no job starts, and no
task is registered. -/
def Served (s s' : Scheduler) (g : Nat) (file : Path) (source : JavaSource) : Prop :=
  s'.updates = s.updates ++ [.finished file g (.success source)] ∧ s'.jobs = s.jobs ∧
    s'.tasks.current? file = none

/-- A request starts one job, which is registered and queued: that it is loading is all that is
told. -/
def Scheduled (s s' : Scheduler) (g : Nat) (file : Path) (snapshot : Snapshot)
    (text : Option String) : Prop :=
  s'.updates = s.updates ++ [.loading file g] ∧
    s'.jobs = s.jobs ++ [{ task := ⟨file, g⟩, snapshot, text }] ∧
    s'.tasks.current? file = some ⟨file, g⟩

/-- A request breaks off: nothing is told, no job starts, and the cache stays as it is, but the task
that ran for the file is gone and its token has fired. -/
def Forsaken (s s' : Scheduler) (file : Path) : Prop :=
  s'.updates = s.updates ∧ s'.jobs = s.jobs ∧ s'.cache = s.cache ∧
    s'.tasks.current? file = none ∧
    ∀ task, s.tasks.current? file = some task → task.generation ∈ s'.fired

variable {file : Path} {snapshot : Snapshot} {text : Option String}

/-- A request is served what the cache has for its snapshot. -/
theorem served_iff {ended : Except String Ticket}
    (request : s.requestAs g file snapshot text = (s', ended)) {source : JavaSource} :
    Served s s' g file source ∧ ended = .ok ⟨file, g⟩ ↔
      s.cache.lookup? file snapshot = some source := by
  rw [requestAs_eq] at request
  cases hm : s.refusal? file snapshot with
  | some message =>
    rw [hm] at request
    cases request
    simp [(refusal?_eq_some_iff.mp hm).1]
  | none =>
    rw [hm] at request
    cases request
    unfold Served
    rw [answered_updates, answered_jobs, answered_current?, if_pos rfl]
    unfold reply started accepted
    cases s.cache.lookup? file snapshot <;> simp

/-- A job is started for a request that the cache does not answer, if this can be recorded. -/
theorem scheduled_iff {ended : Except String Ticket}
    (request : s.requestAs g file snapshot text = (s', ended)) :
    Scheduled s s' g file snapshot text ∧ ended = .ok ⟨file, g⟩ ↔
      s.cache.lookup? file snapshot = none ∧ s.journal.fault? snapshot = none := by
  rw [requestAs_eq] at request
  cases hm : s.refusal? file snapshot with
  | some message =>
    rw [hm] at request
    cases request
    simp [(refusal?_eq_some_iff.mp hm).2]
  | none =>
    rw [hm] at request
    cases request
    unfold Scheduled
    rw [answered_updates, answered_jobs, answered_current?, if_pos rfl]
    unfold reply started accepted
    unfold refusal? at hm
    cases hc : s.cache.lookup? file snapshot with
    | some source => simp
    | none => simp_all

/-- A request breaks off where it should be recorded that a job is started. -/
theorem forsaken_iff {ended : Except String Ticket}
    (request : s.requestAs g file snapshot text = (s', ended)) {message : String} :
    Forsaken s s' file ∧ ended = .error message ↔
      s.cache.lookup? file snapshot = none ∧ s.journal.fault? snapshot = some message := by
  rw [← refusal?_eq_some_iff]
  rw [requestAs_eq] at request
  cases hm : s.refusal? file snapshot with
  | none =>
    rw [hm] at request
    cases request
    simp
  | some message' =>
    rw [hm] at request
    cases request
    -- The task that ran has left the table, and its token has fired.
    have hforsaken : Forsaken s (s.aborted g file) file := by
      refine ⟨rfl, rfl, rfl, (aborted_current? ..).trans (if_pos rfl), fun task htask => ?_⟩
      show task.generation ∈ (s.tasks.current? file).toList.map Task.generation ++ s.fired
      rw [htask]
      exact List.mem_cons_self ..
    simp [hforsaken]

/-- **The cache is sound and complete.** After every run a request is served some source exactly if
that source is credited to its file and its snapshot. If none is, one job is started for it, unless
recording this breaks off, which is told of files whose time has no date
(`Journal.fault?_eq_some_iff`); then the request hands out no ticket, tells nothing and starts
nothing, but has stopped the job that was at work for the file. At most one snapshot and one source
are credited to a file. -/
theorem request_served_iff_credited (run : (new n j).steps es = some s) (drawn : g ∈ s.drawn)
    {ended : Except String Ticket}
    (request : s.requestAs g file snapshot text = (s', ended)) :
    s.step (if ended.isOk then .request g file snapshot text else .abort g file snapshot text) =
      some s' ∧
    (∀ source, Served s s' g file source ∧ ended = .ok ⟨file, g⟩ ↔
      Credited ((new n j).history es) file snapshot source) ∧
    (Scheduled s s' g file snapshot text ∧ ended = .ok ⟨file, g⟩ ↔
      (¬ ∃ source, Credited ((new n j).history es) file snapshot source) ∧
        j.fault? snapshot = none) ∧
    (∀ message, Forsaken s s' file ∧ ended = .error message ↔
      (¬ ∃ source, Credited ((new n j).history es) file snapshot source) ∧
        j.fault? snapshot = some message) ∧
    (∀ snapshot₁ source₁ snapshot₂ source₂,
      Credited ((new n j).history es) file snapshot₁ source₁ →
      Credited ((new n j).history es) file snapshot₂ source₂ →
      snapshot₁ = snapshot₂ ∧ source₁ = source₂) := by
  have hjournal := (run_of_steps run).journal
  -- Serving is a lookup, and the cache holds what is credited.
  have held := (run_of_steps run).held?_iff file
  have hlookup : ∀ source, s.cache.lookup? file snapshot = some source ↔
      Credited ((new n j).history es) file snapshot source := by
    intro source
    rw [Cache.lookup?_eq_some_iff, held]
  have hmissed : s.cache.lookup? file snapshot = none ↔
      ¬ ∃ source, Credited ((new n j).history es) file snapshot source := by
    rw [Option.eq_none_iff_forall_ne_some, not_exists]
    exact forall_congr' fun source => not_congr (hlookup source)
  have hstep := step_requestAs drawn file snapshot text
  rw [request] at hstep
  refine ⟨hstep, fun source => ?_, ?_, fun message => ?_, ?_⟩
  · rw [served_iff request, hlookup]
  · rw [scheduled_iff request, hmissed, hjournal]
  · rw [forsaken_iff request, hmissed, hjournal]
  · intro snapshot₁ source₁ snapshot₂ source₂ h₁ h₂
    rw [← held] at h₁ h₂
    cases h₁.symm.trans h₂
    exact ⟨rfl, rfl⟩

/-- One conversion is delivered, and a second request for the same file is drawn. -/
def delivering : List Event :=
  [.draw, .request 1 ⟨"A"⟩ (.disk ⟨0, 0⟩ 1) none, .acquire 1,
    .resolve 1 (.outcome (.success ⟨"class A", .existing, none⟩)), .check 1, .finish 1, .draw]

/-- The same snapshot is served, and it is the one that the source is credited to. The file itself,
with a time that has no date, is not, and no job is started for it: its request breaks off. -/
theorem delivered_snapshot_is_served :
    ∃ s, (new 1 .recording).steps delivering = some s ∧ 2 ∈ s.drawn ∧
      (∃ s', s.requestAs 2 ⟨"A"⟩ (.disk ⟨0, 0⟩ 1) none = (s', .ok ⟨⟨"A"⟩, 2⟩) ∧
        Served s s' 2 ⟨"A"⟩ ⟨"class A", .existing, none⟩ ∧
        Credited ((new 1 .recording).history delivering) ⟨"A"⟩ (.disk ⟨0, 0⟩ 1)
          ⟨"class A", .existing, none⟩) ∧
      ∃ s', s.requestAs 2 ⟨"A"⟩ (.disk ⟨9000000000000, 0⟩ 1) none =
          (s', .error "No such local time") ∧
        (¬ ∃ source, Credited ((new 1 .recording).history delivering) ⟨"A"⟩
          (.disk ⟨9000000000000, 0⟩ 1) source) ∧
        Forsaken s s' ⟨"A"⟩ := by
  have hrun : ((new 1 .recording).steps delivering).map (fun s =>
      (decide (2 ∈ s.drawn), s.cache.lookup? ⟨"A"⟩ (.disk ⟨0, 0⟩ 1),
        s.refusal? ⟨"A"⟩ (.disk ⟨0, 0⟩ 1), s.refusal? ⟨"A"⟩ (.disk ⟨9000000000000, 0⟩ 1))) =
      some (true, some ⟨"class A", .existing, none⟩, none, some "No such local time") := by
    decide +kernel
  obtain ⟨s, hs, h⟩ := Option.map_eq_some_iff.mp hrun
  simp only [Prod.mk.injEq, decide_eq_true_eq] at h
  obtain ⟨hdrawn, hlookup, haccepted, hrefused⟩ := h
  have hok : s.requestAs 2 ⟨"A"⟩ (.disk ⟨0, 0⟩ 1) none =
      (s.answered 2 ⟨"A"⟩ (.disk ⟨0, 0⟩ 1) none, .ok ⟨⟨"A"⟩, 2⟩) := by
    rw [requestAs_eq, haccepted]
  have herror : s.requestAs 2 ⟨"A"⟩ (.disk ⟨9000000000000, 0⟩ 1) none =
      (s.aborted 2 ⟨"A"⟩, .error "No such local time") := by
    rw [requestAs_eq, hrefused]
  have hserved := (served_iff hok).mpr hlookup
  have hforsaken := (forsaken_iff herror).mpr (refusal?_eq_some_iff.mp hrefused)
  -- What the theorem says of either request, seen from how it ends.
  obtain ⟨-, hcredited, -⟩ := request_served_iff_credited hs hdrawn hok
  obtain ⟨-, -, -, huncredited, -⟩ := request_served_iff_credited hs hdrawn herror
  exact ⟨s, hs, hdrawn, ⟨_, hok, hserved.1, (hcredited _).mp hserved⟩,
    _, herror, ((huncredited _).mp hforsaken).1, hforsaken.1⟩

end Scheduler

end SmaliView
