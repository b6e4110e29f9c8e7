import SmaliView.Proofs.Scheduler.OneCaller
import SmaliView.Proofs.Scheduler.Phases
import SmaliView.Proofs.Scheduler.Places

/-!
# Files are isolated

All files share one counter, one table, one cache, one pool of permits and one channel. Still a run
tells of a file exactly what it tells when all calls and jobs of other files are deleted from it
(`restrict`). The deleted draws leave gaps, so the generations of the file are numbered anew in
their order (`rank`). The run that is left goes along with the full one (`Mirrors`): a step that is
kept can be made in both, for which fewer jobs hold permits, and a step that is deleted changes
nothing that is compared.
-/

namespace SmaliView

/-! ## Numbering generations anew -/

def Task.rename (f : Nat → Nat) (task : Task) : Task :=
  { task with generation := f task.generation }

def Update.rename (f : Nat → Nat) : Update → Update
  | .loading file g => .loading file (f g)
  | .finished file g o => .finished file (f g) o
  | .dismissed file => .dismissed file

def Job.rename (f : Nat → Nat) (job : Job) : Job :=
  { job with task := job.task.rename f }

def Known.rename (f : Nat → Nat) (k : Known) : Known :=
  { k with told := k.told.map (Update.rename f), task := k.task.map (Task.rename f) }

namespace Scheduler

def Event.rename (f : Nat → Nat) : Event → Event
  | .request g file snapshot text => .request (f g) file snapshot text
  | .abort g file snapshot text => .abort (f g) file snapshot text
  | .fail g file why => .fail (f g) file why
  | .dismiss task => .dismiss (task.rename f)
  | .leave g => .leave (f g)
  | .refuse g => .refuse (f g)
  | .acquire g => .acquire (f g)
  | .signal g => .signal (f g)
  | .resolve g r => .resolve (f g) r
  | .check g => .check (f g)
  | .finish g => .finish (f g)
  | e => e

/-- How many of the generations up to one are own ones. -/
def rank (own : Nat → Bool) : Nat → Nat
  | 0 => 0
  | g + 1 => rank own g + if own (g + 1) then 1 else 0

variable {own : Nat → Bool} {n : Nat} {j : Journal} {es : List Event} {s s' t t' : Scheduler} {e : Event}
variable {g g' : Nat} {file : Path}

/-- Numbers never decrease along the generations. -/
theorem rank_le (h : g ≤ g') : rank own g ≤ rank own g' := by
  induction h with
  | refl => exact Nat.le_refl _
  | step _ ih => exact Nat.le_trans ih (Nat.le_add_right _ _)

/-- Own generations keep their order. -/
theorem rank_lt (h : g < g') (hown : own g' = true) : rank own g < rank own g' := by
  cases g' with
  | zero => exact absurd h (Nat.not_lt_zero _)
  | succ k =>
    -- All own generations before it are counted for it, and it is counted itself.
    have hle : rank own g ≤ rank own k := rank_le (Nat.le_of_lt_succ h)
    rw [rank, if_pos hown]
    exact Nat.lt_succ_of_le hle

/-- Own generations get different numbers. -/
theorem rank_inj (hg : own g = true) (hg' : own g' = true) : rank own g = rank own g' ↔ g = g' := by
  refine ⟨fun heq => ?_, congrArg _⟩
  -- Own generations keep their order, so none falls on another.
  rcases Nat.lt_trichotomy g g' with hlt | hsame | hlt
  · exact absurd heq (Nat.ne_of_lt (rank_lt hlt hg'))
  · exact hsame
  · exact absurd heq.symm (Nat.ne_of_lt (rank_lt hlt hg))

/-! ## The part of a run that is about one file -/

/-- An event belongs to a file: a section of a caller for it, drawing one of its own generations,
given the last one that was drawn, or a step of a job of its own. -/
def Event.belongs (own : Nat → Bool) (file : Path) (drawn : Nat) : Event → Bool
  | .draw => own (drawn + 1)
  | .request _ file' _ _ | .abort _ file' _ _ | .fail _ file' _ => file'.same file
  | .cancel file' | .dropCached file' | .forget file' => file'.same file
  | .drain | .close | .dismiss _ => false
  | .leave g | .refuse g | .acquire g | .signal g | .resolve g _ | .check g | .finish g => own g

/-- A run without the events that do not belong to a file, with its generations numbered anew. -/
def restrict (own : Nat → Bool) (file : Path) : Nat → List Event → List Event
  | _, [] => []
  | drawn, e :: es =>
    (if e.belongs own file drawn then [e.rename (rank own)] else []) ++
      restrict own file (drawn + if e.isDraw then 1 else 0) es

/-- What is left of a run is left of its parts, if the second part knows how many were drawn. -/
theorem restrict_append (drawn : Nat) (es es' : List Event) :
    restrict own file drawn (es ++ es') =
      restrict own file drawn es ++ restrict own file (drawn + es.countP Event.isDraw) es' := by
  induction es generalizing drawn with
  | nil => rfl
  | cons e es ih =>
    -- What was drawn so far is handed on from the first part to the second.
    simp only [List.cons_append, restrict, ih, List.append_assoc, List.countP_cons]
    rw [Nat.add_assoc, Nat.add_comm (if e.isDraw then 1 else 0)]

/-- Only drawing counts up. -/
theorem Step.counter (step : Step s e s') :
    s'.counter = s.counter + if e.isDraw then 1 else 0 := by
  cases step with
  | request file snapshot text hg => exact answered_counter ..
  | fail file why hg => exact failAs_counter ..
  | cancel file => exact cancel_counter ..
  | _ => rfl

/-- The counter counts what was drawn. -/
theorem Run.counter_eq (run : Run n j es s) : s.counter = es.countP Event.isDraw := by
  induction run with
  | start => rfl
  | next run step ih =>
    rw [(step_of_eq_some step).counter, ih, List.countP_append, List.countP_singleton]

/-! ## The tokens that a step fires -/

/-- The generations whose tokens an event fires. -/
def Event.fires (s : Scheduler) : Event → List Nat
  | .request _ file _ _ | .abort _ file _ _ | .fail _ file _ | .cancel file =>
    (s.tasks.current? file).toList.map Task.generation
  | .signal g => [g]
  | .dismiss task => [task.generation]
  | _ => []

/-- The tokens that a step fires are those that its event is said to fire. -/
theorem Step.fired_eq (step : Step s e s') : s'.fired = e.fires s ++ s.fired := by
  cases step with
  | request file snapshot text hg => exact answered_fired ..
  | abort file snapshot text hg => exact aborted_fired ..
  | fail file why hg => exact failAs_fired ..
  | cancel file => exact cancel_fired ..
  | _ => rfl

/-! ## Two runs side by side -/

/-- The calls of a run, in order. -/
def calls (es : List Event) : List Task :=
  es.filterMap Event.call?

/-- The own generations are those of the calls for a file. -/
def Owns (own : Nat → Bool) (file : Path) (es : List Event) : Prop :=
  ∀ call ∈ calls es, own call.generation = true ↔ call.file.place = file.place

/-- The own ones of some jobs, numbered anew. -/
def ownJobs (own : Nat → Bool) (jobs : List Job) : List Job :=
  (jobs.filter (own ·.task.generation)).map (Job.rename (rank own))

/-- The state `t` is what is left of `s` for a file. -/
structure Mirrors (own : Nat → Bool) (file : Path) (s t : Scheduler) : Prop where
  permits : t.permits = s.permits
  journal : t.journal = s.journal
  opened : t.closed = false
  counter : t.counter = rank own s.counter
  drawn : ∀ g ∈ s.drawn, own g = true → rank own g ∈ t.drawn
  known : t.known file = (s.known file).rename (rank own)
  told : ∀ u ∈ t.updates, u.file.place = file.place
  fired : ∀ g, own g = true → (rank own g ∈ t.fired ↔ g ∈ s.fired)
  jobs : t.jobs = ownJobs own s.jobs

theorem Mirrors.start : Mirrors own file (new n j) (new n j) where
  permits := rfl
  journal := rfl
  opened := rfl
  counter := rfl
  drawn g hg := by cases hg
  known := rfl
  told u hu := by cases hu
  fired g hown := ⟨nofun, nofun⟩
  jobs := rfl

/-! ### Whose is whose -/

theorem Owns.of_append {es' : List Event} (h : Owns own file (es ++ es')) : Owns own file es := by
  intro call hcall
  refine h call ?_
  rw [calls, List.filterMap_append]
  exact List.mem_append_left _ hcall

/-- The next call of a run has an own generation exactly if it is for the file. -/
theorem Owns.call (h : Owns own file (es ++ [e])) {call : Task} (he : e.call? = some call) :
    own call.generation = true ↔ call.file.place = file.place :=
  h call (List.mem_filterMap.mpr ⟨e, List.mem_append_right _ (List.mem_singleton_self _), he⟩)

/-- Who hands out a ticket is a call, so tickets of a file are for its own generations. -/
theorem Owns.ticket (h : Owns own file es) {t : Ticket} (ht : t ∈ tickets es) :
    own t.generation = true ↔ t.file.place = file.place := by
  obtain ⟨e, he, ht⟩ := mem_tickets.mp ht
  refine h ⟨t.file, t.generation⟩ (List.mem_filterMap.mpr ⟨e, he, ?_⟩)
  cases e <;> cases ht <;> rfl

/-- A job works for the file exactly if its generation is own. -/
theorem Owns.job (h : Owns own file es) (run : Run n j es s) {job : Job} (hj : s.job? g = some job) :
    own g = true ↔ job.task.file.place = file.place := by
  obtain ⟨hjob, rfl⟩ := job?_eq_some hj
  exact h.ticket (run.ledger.ticketed hjob)

/-- A task is registered for the file exactly if its generation is own. -/
theorem Owns.task (h : Owns own file es) (run : Run n j es s) {file' : Path} {task : Task}
    (ht : s.tasks.current? file' = some task) :
    own task.generation = true ↔ file'.place = file.place := by
  -- The task stands under its own place, and its ticket tells whose it is.
  rw [← run.ledger.filed file' task ht]
  exact h.ticket (run.ledger.registered file' task ht)

/-! ### Jobs -/

theorem ownJobs_cons (job : Job) (jobs : List Job) :
    ownJobs own (job :: jobs) =
      if own job.task.generation then job.rename (rank own) :: ownJobs own jobs
      else ownJobs own jobs := by
  rw [ownJobs, List.filter_cons]
  split <;> rfl

/-- An own job is found under its new number. -/
theorem find?_ownJobs (jobs : List Job) (hg : own g = true) :
    (ownJobs own jobs).find? (·.task.generation == rank own g) =
      (jobs.find? (·.task.generation == g)).map (Job.rename (rank own)) := by
  induction jobs with
  | nil => rfl
  | cons job jobs ih =>
    rw [ownJobs_cons, List.find?_cons]
    -- The first job with the generation is own, and of the jobs before it none gets its new number.
    by_cases hsame : job.task.generation = g
    · simp [hsame, hg, Job.rename, Task.rename]
    · have hne : (job.task.generation == g) = false := by simpa using hsame
      simp only [hne]
      split
      · next hown =>
        have hrank : rank own job.task.generation ≠ rank own g := mt (rank_inj hown hg).mp hsame
        have hne' : ((job.rename (rank own)).task.generation == rank own g) = false :=
          beq_eq_false_iff_ne.mpr hrank
        rw [List.find?_cons, hne']
        exact ih
      · exact ih

/-- A job of the file is brought into another phase in both runs. -/
theorem ownJobs_setPhase (jobs : List Job) (phase : Phase) (hg : own g = true) :
    ownJobs own (jobs.map fun j => if j.task.generation = g then { j with phase } else j) =
      (ownJobs own jobs).map fun j =>
        if j.task.generation = rank own g then { j with phase } else j := by
  induction jobs with
  | nil => rfl
  | cons job jobs ih =>
    rw [List.map_cons, ownJobs_cons, ownJobs_cons]
    -- Here, too, an own job gets the new number only if it had the old one.
    by_cases hsame : job.task.generation = g
    · subst hsame
      have hrank : (job.rename (rank own)).task.generation = rank own job.task.generation := rfl
      rw [if_pos rfl, if_pos hg, if_pos hg, List.map_cons, if_pos hrank, ih]
      rfl
    · rw [if_neg hsame]
      split
      · next hown =>
        have hrank : (job.rename (rank own)).task.generation ≠ rank own g :=
          mt (rank_inj hown hg).mp hsame
        rw [List.map_cons, if_neg hrank, ih]
      · exact ih

/-- A job of the file ends in both runs. -/
theorem ownJobs_endJob (jobs : List Job) (hg : own g = true) :
    ownJobs own (jobs.filter (·.task.generation != g)) =
      (ownJobs own jobs).filter (·.task.generation != rank own g) := by
  rw [ownJobs, ownJobs, List.filter_map, List.filter_filter, List.filter_filter]
  congr 1
  refine List.filter_congr fun job _ => ?_
  -- Both filters commute; jobs of other files are dropped by the first one anyway.
  by_cases hown : own job.task.generation = true
  · have hiff : ((job.rename (rank own)).task.generation != rank own g) =
        (job.task.generation != g) := by
      rw [Bool.eq_iff_iff, bne_iff_ne, bne_iff_ne]
      exact not_congr (rank_inj hown hg)
    rw [Function.comp, hiff, Bool.and_comm]
  · simp [hown]

/-- What happens to a job of another file is not seen. -/
theorem ownJobs_setPhase_of_not (jobs : List Job) (phase : Phase) (hg : own g = false) :
    ownJobs own (jobs.map fun j => if j.task.generation = g then { j with phase } else j) =
      ownJobs own jobs := by
  induction jobs with
  | nil => rfl
  | cons job jobs ih =>
    rw [List.map_cons, ownJobs_cons, ownJobs_cons, ih]
    by_cases hsame : job.task.generation = g
    · subst hsame
      simp [hg]
    · rw [if_neg hsame]

/-- That a job of another file ends is not seen. -/
theorem ownJobs_endJob_of_not (jobs : List Job) (hg : own g = false) :
    ownJobs own (jobs.filter (·.task.generation != g)) = ownJobs own jobs := by
  rw [ownJobs, ownJobs, List.filter_filter]
  congr 1
  refine List.filter_congr fun job _ => ?_
  by_cases hsame : job.task.generation = g
  · rw [hsame, hg, Bool.false_and]
  · rw [bne_iff_ne.mpr hsame, Bool.and_true]

/-! ### Steps that are made in both runs -/

@[simp] theorem Event.isDraw_rename (f : Nat → Nat) (e : Event) : (e.rename f).isDraw = e.isDraw := by
  cases e <;> rfl

/-- Numbering anew changes the generation of a call and leaves its file. -/
theorem Event.call?_rename (f : Nat → Nat) (e : Event) :
    (e.rename f).call? = e.call?.map (Task.rename f) := by
  cases e <;> rfl

/-- A call uses up its generation, and no other event but drawing changes what was drawn. -/
theorem Step.drawn_eq (step : Step s e s') (he : e.isDraw = false) :
    s'.drawn = (e.call?.map fun call => s.drawn.erase call.generation).getD s.drawn := by
  cases step with
  | draw => cases he
  | request file snapshot text hg => exact answered_drawn ..
  | fail file why hg => exact failAs_drawn ..
  | cancel file => exact cancel_drawn ..
  | _ => rfl

/-- Without a shutdown no task is drained. -/
theorem Run.drained_eq_nil (run : Run n j es s) (h : .drain ∉ es) : s.drained = [] := by
  induction run with
  | start => rfl
  | @next es s e s' run step ih =>
    rw [List.mem_append, not_or] at h
    refine List.eq_nil_iff_forall_not_mem.mpr fun task ht => ?_
    rcases (step_of_eq_some step).mem_drained ht with hold | ⟨rfl, -⟩
    · rw [ih h.1] at hold
      cases hold
    · exact h.2 (List.mem_singleton_self _)

/-- A step fires the tokens of the files that it belongs to, and no others. -/
theorem Step.own_of_fires (step : Step s e s') (run : Run n j es s) (hown : Owns own file es)
    (hdrained : s.drained = []) (hg : g ∈ e.fires s) :
    own g = true ↔ e.belongs own file s.counter = true := by
  -- The task that a section takes is registered for the file of the section.
  have taken : ∀ {file' : Path}, g ∈ (s.tasks.current? file').toList.map Task.generation →
      (own g = true ↔ file'.same file = true) := by
    intro file' hmem
    obtain ⟨task, htask, rfl⟩ := List.mem_map.mp hmem
    exact (hown.task run (Option.mem_toList.mp htask)).trans Path.same_iff.symm
  cases step with
  | request file' snapshot text hd => exact taken hg
  | abort file' snapshot text hd => exact taken hg
  | fail file' why hd => exact taken hg
  | cancel file' => exact taken hg
  | signal hj hp => rw [List.mem_singleton.mp hg]; exact Iff.rfl
  -- Nothing was drained, so nothing can be dismissed.
  | dismiss ht => rw [hdrained] at ht; cases ht
  | _ => cases hg

/-- The registered task of the file is the same but for its number. -/
theorem Mirrors.current? (m : Mirrors own file s t) {file' : Path}
    (hplace : file'.place = file.place) :
    t.tasks.current? file' = (s.tasks.current? file').map (Task.rename (rank own)) := by
  rw [t.tasks.current?_congr hplace, s.tasks.current?_congr hplace]
  exact congrArg Known.task m.known

theorem Mirrors.about (m : Mirrors own file s t) :
    t.about file = (s.about file).map (Update.rename (rank own)) :=
  congrArg Known.told m.known

theorem Mirrors.noted? (m : Mirrors own file s t) : t.tasks.noted? file = s.tasks.noted? file :=
  congrArg Known.note m.known

theorem Mirrors.held? (m : Mirrors own file s t) : t.cache.held? file = s.cache.held? file :=
  congrArg Known.held m.known

/-- The cache answers alike for the file in both runs. -/
theorem Mirrors.lookup? (m : Mirrors own file s t) {file' : Path}
    (hplace : file'.place = file.place) (snapshot : Snapshot) :
    t.cache.lookup? file' snapshot = s.cache.lookup? file' snapshot := by
  have hheld : t.cache.held? file' = s.cache.held? file' := by
    have h := m.held?
    unfold Cache.held? at h ⊢
    rw [hplace]
    exact h
  rw [Cache.lookup?, Cache.lookup?, hheld]

/-- A request for the file breaks off in both runs or in none. -/
theorem Mirrors.refusal? (m : Mirrors own file s t) {file' : Path}
    (hplace : file'.place = file.place) (snapshot : Snapshot) :
    t.refusal? file' snapshot = s.refusal? file' snapshot := by
  rw [Scheduler.refusal?, Scheduler.refusal?, m.lookup? hplace, m.journal]

/-- The job of an own generation is there in both runs or in none. -/
theorem Mirrors.job? (m : Mirrors own file s t) (hg : own g = true) :
    t.job? (rank own g) = (s.job? g).map (Job.rename (rank own)) := by
  rw [Scheduler.job?, m.jobs, find?_ownJobs _ hg]
  rfl

/-- An own generation is the current one of the file in both runs or in none. -/
theorem Mirrors.isCurrent (m : Mirrors own file s t) (run : Run n j es s) (hown : Owns own file es)
    (hg : own g = true) {file' : Path} (hplace : file'.place = file.place) :
    t.tasks.isCurrent file' (rank own g) = s.tasks.isCurrent file' g := by
  rw [TaskTable.isCurrent, TaskTable.isCurrent, m.current? hplace]
  cases htask : s.tasks.current? file' with
  | none => rfl
  | some task =>
    -- The task of the file is own, so that equal numbers mean equal generations.
    have htaskOwn := (hown.task run htask).mpr hplace
    rw [Option.map_some, Option.any_some, Option.any_some, Bool.eq_iff_iff, beq_iff_eq, beq_iff_eq]
    exact rank_inj htaskOwn hg

/-- An event of the file fires the same tokens in both runs, under their new numbers. -/
theorem Mirrors.fires (m : Mirrors own file s t) (he : e.belongs own file s.counter = true) :
    (e.rename (rank own)).fires t = (e.fires s).map (rank own) := by
  have taken : ∀ {file' : Path}, file'.same file = true →
      (t.tasks.current? file').toList.map Task.generation =
        ((s.tasks.current? file').toList.map Task.generation).map (rank own) := by
    intro file' hsame
    rw [m.current? (Path.same_iff.mp hsame)]
    cases s.tasks.current? file' <;> rfl
  cases e with
  | request g file' snapshot text => exact taken he
  | abort g file' snapshot text => exact taken he
  | fail g file' why => exact taken he
  | cancel file' => exact taken he
  | dismiss task => cases he
  | _ => rfl

/-- What a step tells that belongs to a file is about this file. -/
theorem Mirrors.says (m : Mirrors own file s t) (run : Run n j es s) (hown : Owns own file es)
    (he : e.belongs own file s.counter = true) {u : Update} (h : Says t (e.rename (rank own)) u) :
    u.file.place = file.place := by
  cases e with
  | request g file' snapshot text =>
    cases h
    rw [reply_file]
    exact Path.same_iff.mp he
  | fail g file' why => cases h; exact Path.same_iff.mp he
  | cancel file' => cases h; exact Path.same_iff.mp he
  | finish g =>
    cases h with
    | @finish _ job o hj hp hc =>
      -- The job is what is left of a job of the full run, and that one works for the file.
      rw [m.job? he] at hj
      obtain ⟨old, hold, rfl⟩ := Option.map_eq_some_iff.mp hj
      exact (hown.job run hold).mp he
  | _ => cases h

/-- When a step that belongs to the file is made in both runs, all goes along but for what is known
about the file and the jobs, which depend on the step. -/
theorem Mirrors.next (m : Mirrors own file s t) (run : Run n j es s) (hown : Owns own file (es ++ [e]))
    (hdrained : s.drained = []) (step : Step s e s') (step' : Step t (e.rename (rank own)) t')
    (he : e.belongs own file s.counter = true) (hdraw : e.isDraw = false)
    (hknown : t'.known file = (s'.known file).rename (rank own))
    (hjobs : t'.jobs = ownJobs own s'.jobs) : Mirrors own file s' t' where
  permits := step'.permits.trans (m.permits.trans step.permits.symm)
  journal := step'.journal.trans (m.journal.trans step.journal.symm)
  opened := by
    rw [Bool.eq_false_iff]
    intro hclosed
    rcases step'.closed hclosed with hold | hclose
    · rw [m.opened] at hold
      cases hold
    · cases e <;> cases hclose
      cases he
  counter := by
    rw [step'.counter, step.counter, Event.isDraw_rename, hdraw, m.counter]
    rfl
  drawn g hg hgown := by
    rw [step.drawn_eq hdraw] at hg
    rw [step'.drawn_eq ((Event.isDraw_rename ..).trans hdraw), Event.call?_rename]
    cases hcall : e.call? with
    | none => rw [hcall] at hg; exact m.drawn g hg hgown
    | some call =>
      rw [hcall] at hg
      have hdistinct : s.drawn.Nodup := (List.nodup_append.mp run.ledger.distinct).1
      obtain ⟨hne, hmem⟩ := hdistinct.mem_erase_iff.mp hg
      -- The step uses up an own generation, which gets no number of another one.
      have hsame : own call.generation = true := by
        rw [hown.call hcall]
        cases e <;> cases hcall <;> exact Path.same_iff.mp he
      exact (List.mem_erase_of_ne (mt (rank_inj hgown hsame).mp hne)).mpr (m.drawn g hmem hgown)
  known := hknown
  told u hu := by
    rcases step'.updates with heq | ⟨v, heq, hsays⟩
    · rw [heq] at hu
      exact m.told u hu
    · rw [heq] at hu
      rcases List.mem_append.mp hu with hold | hnew
      · exact m.told u hold
      · rw [List.mem_singleton.mp hnew]
        exact m.says run hown.of_append he hsays
  fired g hg := by
    rw [step.fired_eq, step'.fired_eq, m.fires he, List.mem_append, List.mem_append, m.fired g hg]
    -- What a step of the file fires is of the file, where numbering anew confuses nothing.
    refine or_congr_left ⟨fun h => ?_, List.mem_map_of_mem⟩
    obtain ⟨g', hg', heq⟩ := List.mem_map.mp h
    have hown' := (step.own_of_fires run hown.of_append hdrained hg').mpr he
    exact (rank_inj hown' hg).mp heq ▸ hg'
  jobs := hjobs

/-- Drawing an own generation. -/
theorem Mirrors.draw (m : Mirrors own file s t) (he : own (s.counter + 1) = true) :
    Mirrors own file s.draw.1 t.draw.1 where
  permits := m.permits
  journal := m.journal
  opened := m.opened
  counter := by
    show t.counter + 1 = rank own (s.counter + 1)
    rw [m.counter, rank, if_pos he]
  drawn g hg hgown := by
    rcases List.mem_append.mp hg with hold | hnew
    · exact List.mem_append_left _ (m.drawn g hold hgown)
    · refine List.mem_append_right _ ?_
      rw [List.mem_singleton.mp hnew, m.counter, rank, if_pos he]
      exact List.mem_singleton_self _
  known := m.known
  told := m.told
  fired := m.fired
  jobs := m.jobs

/-- A request for the file is answered alike in both runs. -/
theorem Mirrors.reply (m : Mirrors own file s t) {file' : Path} (hplace : file'.place = file.place)
    (g : Nat) (snapshot : Snapshot) :
    t.reply (rank own g) file' snapshot = (s.reply g file' snapshot).rename (rank own) := by
  rw [Scheduler.reply, Scheduler.reply, m.lookup? hplace]
  cases s.cache.lookup? file' snapshot <;> rfl

/-- No more jobs hold permits than in the full run. -/
theorem Mirrors.resolving_le (m : Mirrors own file s t) :
    t.resolving.length ≤ s.resolving.length := by
  -- The jobs that are left are a part of all jobs.
  have hsub : ((s.jobs.filter (own ·.task.generation)).filter (·.phase == .resolving)).Sublist
      s.resolving := List.filter_sublist.filter _
  rw [resolving, m.jobs, ownJobs, List.filter_map, List.length_map]
  exact hsub.length_le

/-- An accepted request for the file is accepted in what is left of the run, too. -/
theorem Mirrors.request (m : Mirrors own file s t) (run : Run n j es s) {file' : Path}
    {snapshot : Snapshot} {text : Option String}
    (hown : Owns own file (es ++ [.request g file' snapshot text])) (hdrained : s.drained = [])
    (hd : g ∈ s.drawn) (hm : s.refusal? file' snapshot = none) (he : file'.same file = true) :
    ∃ t', Step t (.request (rank own g) file' snapshot text) t' ∧
      Mirrors own file (s.answered g file' snapshot text) t' := by
  have hplace : file'.place = file.place := Path.same_iff.mp he
  have hg : own g = true := (hown.call rfl).mpr hplace
  have step' : Step t (.request (rank own g) file' snapshot text) _ :=
    .request file' snapshot text (m.drawn g hd hg) ((m.refusal? hplace snapshot).trans hm)
  refine ⟨_, step', m.next run hown hdrained (.request file' snapshot text hd hm) step' he rfl ?_ ?_⟩
  · rw [known_answered, known_answered, if_pos hplace.symm, if_pos hplace.symm, m.about, m.held?,
      m.reply hplace, accepted, m.lookup? hplace]
    unfold accepted
    -- The cache holds the same for the file, so both requests are served or none is.
    cases s.cache.lookup? file' snapshot <;> simp [Known.rename, Task.rename]
  · rw [answered_jobs, answered_jobs, m.jobs, started, started, m.lookup? hplace]
    cases s.cache.lookup? file' snapshot with
    | some source => rw [List.append_nil, List.append_nil]
    | none =>
      rw [ownJobs, ownJobs, List.filter_append, List.map_append]
      simp [hg, Job.rename, Task.rename]

/-- A step that belongs to the file can be made in the other run, too. -/
theorem Mirrors.keep (m : Mirrors own file s t) (run : Run n j es s) (hown : Owns own file (es ++ [e]))
    (hdrained : s.drained = []) (hopen : s.closed = false) (step : Step s e s')
    (he : e.belongs own file s.counter = true) :
    ∃ t', Step t (e.rename (rank own)) t' ∧ Mirrors own file s' t' := by
  -- A step of an own job is one of the job that is left of it.
  have owner : ∀ {g : Nat} {job : Job}, own g = true → s.job? g = some job →
      t.job? (rank own g) = some (job.rename (rank own)) := by
    intro g job hg hj
    rw [m.job? hg, hj, Option.map_some]
  cases step with
  | draw => exact ⟨_, .draw, m.draw he⟩
  | request file' snapshot text hd hm => exact m.request run hown hdrained hd hm he
  | @abort g file' snapshot text hd message hm =>
    have hplace : file'.place = file.place := Path.same_iff.mp he
    have hg : own g = true := (hown.call rfl).mpr hplace
    have step' : Step t (.abort (rank own g) file' snapshot text) _ :=
      .abort file' snapshot text (m.drawn g hd hg) ((m.refusal? hplace snapshot).trans hm)
    refine ⟨_, step', m.next run hown hdrained (.abort file' snapshot text hd hm) step' he rfl ?_
      m.jobs⟩
    rw [known_aborted, known_aborted, if_pos hplace.symm, if_pos hplace.symm, m.known]
    rfl
  | @fail g file' why hd =>
    have hplace : file'.place = file.place := Path.same_iff.mp he
    have hg : own g = true := (hown.call rfl).mpr hplace
    have step' : Step t (.fail (rank own g) file' why) _ := .fail file' why (m.drawn g hd hg)
    refine ⟨_, step', m.next run hown hdrained (.fail file' why hd) step' he rfl ?_ ?_⟩
    · rw [known_failAs, known_failAs, if_pos hplace.symm, if_pos hplace.symm, m.about, m.held?]
      simp [Known.rename, Update.rename]
    · rw [failAs_jobs, failAs_jobs, m.jobs]
  | cancel file' =>
    have hplace : file'.place = file.place := Path.same_iff.mp he
    -- A task runs for the file in both or in none, so the note and the cache change alike.
    have hrunning : t.isRunning file' = s.isRunning file' := by
      rw [isRunning, isRunning, m.current? hplace, Option.isSome_map]
    refine ⟨_, .cancel file', m.next run hown hdrained (.cancel file') (.cancel file') he rfl ?_ ?_⟩
    · rw [known_cancel, known_cancel, if_pos hplace.symm, if_pos hplace.symm, m.about, m.held?,
        m.noted?, hrunning]
      simp [Known.rename, Update.rename]
    · rw [cancel_jobs, cancel_jobs, m.jobs]
  | dropCached file' =>
    have hplace : file'.place = file.place := Path.same_iff.mp he
    refine ⟨_, .dropCached file',
      m.next run hown hdrained (.dropCached file') (.dropCached file') he rfl ?_ m.jobs⟩
    rw [known_dropCached, known_dropCached, if_pos hplace.symm, if_pos hplace.symm, m.known]
    rfl
  | forget file' =>
    have hplace : file'.place = file.place := Path.same_iff.mp he
    refine ⟨_, .forget file',
      m.next run hown hdrained (.forget file') (.forget file') he rfl ?_ m.jobs⟩
    rw [known_forget, known_forget, if_pos hplace.symm, if_pos hplace.symm, m.known]
    rfl
  | drain => cases he
  | close => cases he
  | dismiss ht => cases he
  | refuse hj hp hclosed => rw [hopen] at hclosed; cases hclosed
  | @leave g job hj hp hf =>
    have step' := Step.leave (owner he hj) hp ((m.fired g he).mpr hf)
    refine ⟨_, step', m.next run hown hdrained (.leave hj hp hf) step' he rfl m.known ?_⟩
    exact (congrArg _ m.jobs).trans (ownJobs_endJob _ he).symm
  | @acquire g job hj hp hc hn =>
    -- The permits that jobs of other files hold are free here.
    have hfree : t.resolving.length < t.permits := by
      rw [m.permits]
      exact Nat.lt_of_le_of_lt m.resolving_le hn
    have step' := Step.acquire (owner he hj) hp (by rw [m.opened]; rfl) hfree
    refine ⟨_, step', m.next run hown hdrained (.acquire hj hp hc hn) step' he rfl m.known ?_⟩
    exact (congrArg _ m.jobs).trans (ownJobs_setPhase _ _ he).symm
  | @signal g job hj hp =>
    have step' := Step.signal (owner he hj) hp
    exact ⟨_, step', m.next run hown hdrained (.signal hj hp) step' he rfl m.known m.jobs⟩
  | @resolve g job r hj hp =>
    have step' := Step.resolve r (owner he hj) hp
    refine ⟨_, step', m.next run hown hdrained (.resolve r hj hp) step' he rfl m.known ?_⟩
    exact (congrArg _ m.jobs).trans (ownJobs_setPhase _ _ he).symm
  | @drop g job r hj hp hf =>
    have step' := Step.drop (owner he hj) hp (hf.imp id (m.fired g he).mpr)
    refine ⟨_, step', m.next run hown hdrained (.drop hj hp hf) step' he rfl m.known ?_⟩
    exact (congrArg _ m.jobs).trans (ownJobs_endJob _ he).symm
  | @pass g job r hj hp ho hf =>
    have step' := Step.pass (owner he hj) hp ho (mt (m.fired g he).mp hf)
    refine ⟨_, step', m.next run hown hdrained (.pass hj hp ho hf) step' he rfl m.known ?_⟩
    exact (congrArg _ m.jobs).trans (ownJobs_setPhase _ _ he).symm
  | @tell g job o hj hp hc =>
    have hplace := (hown.of_append.job run hj).mp he
    have hcurrent : t.tasks.isCurrent job.task.file (rank own g) = true :=
      (m.isCurrent run hown.of_append he hplace).trans hc
    have step' := Step.tell (owner he hj) hp hcurrent
    refine ⟨_, step', m.next run hown hdrained (.tell hj hp hc) step' he rfl ?_ ?_⟩
    · rw [known_tell _ _ _ _ hc, if_pos hplace.symm]
      refine (known_tell _ _ _ _ hcurrent).trans ((if_pos hplace.symm).trans ?_)
      rw [m.about, m.held?]
      simp [Known.rename, Update.rename]
    · exact (congrArg _ m.jobs).trans (ownJobs_endJob _ he).symm
  | @hush g job o hj hp hc =>
    have hplace := (hown.of_append.job run hj).mp he
    have hnot : t.tasks.isCurrent job.task.file (rank own g) = false :=
      (m.isCurrent run hown.of_append he hplace).trans hc
    have step' := Step.hush (owner he hj) hp hnot
    refine ⟨_, step', m.next run hown hdrained (.hush hj hp hc) step' he rfl m.known ?_⟩
    exact (congrArg _ m.jobs).trans (ownJobs_endJob _ he).symm

/-! ### Steps that are deleted -/

/-- A step that does not belong to the file is not about its place. -/
theorem Step.not_concerns (step : Step s e s') (run : Run n j es s) (hown : Owns own file es)
    (he : e.belongs own file s.counter = false) (hdrain : e ≠ .drain) : ¬ e.Concerns s file := by
  have other : ∀ {file' : Path}, file'.same file = false → file'.place ≠ file.place := by
    intro file' hsame hplace
    rw [Path.same_iff.mpr hplace] at hsame
    cases hsame
  have foreign : ∀ {g : Nat}, own g = false →
      ¬ ∃ job, s.job? g = some job ∧ job.task.file.place = file.place := by
    rintro g hg ⟨job, hj, hplace⟩
    rw [(hown.job run hj).mpr hplace] at hg
    cases hg
  cases step with
  | draw => exact id
  | request file' snapshot text hd => exact other he
  | abort file' snapshot text hd => exact other he
  | fail file' why hd => exact other he
  | cancel file' => exact other he
  | dropCached file' => exact other he
  | forget file' => exact other he
  | drain => exact absurd rfl hdrain
  | close => exact id
  | dismiss ht => exact id
  | leave hj hp hf => exact foreign he
  | refuse hj hp hc => exact foreign he
  | acquire hj hp hc hn => exact foreign he
  | signal hj hp => exact foreign he
  | resolve r hj hp => exact foreign he
  | drop hj hp hf => exact foreign he
  | pass hj hp ho hf => exact foreign he
  | tell hj hp hc => exact foreign he
  | hush hj hp hc => exact foreign he

/-- The jobs of the file are left alone by a step that does not belong to it. -/
theorem Step.ownJobs_eq (step : Step s e s') (hown : Owns own file (es ++ [e]))
    (he : e.belongs own file s.counter = false) : ownJobs own s'.jobs = ownJobs own s.jobs := by
  cases step.turnover with
  | idle hw hjobs | signal hj hp hjobs => rw [hjobs]
  | @start g file' snapshot text hd hjobs =>
    have hg : own g = false := by
      rw [Bool.eq_false_iff]
      intro hg
      rw [Event.belongs, Path.same_iff.mpr ((hown.call rfl).mp hg)] at he
      cases he
    rw [hjobs, ownJobs, ownJobs, List.filter_append, List.filter_cons, List.filter_nil, hg]
    exact congrArg _ (List.append_nil _)
  | acquire hj hp hjobs | resolve r hj hp hjobs | pass hj hp ho hf hjobs =>
    rw [hjobs]
    exact ownJobs_setPhase_of_not _ _ he
  | drop hj hp hf hjobs => rw [hjobs]; exact ownJobs_endJob_of_not _ he
  | stop hend hj hp hjobs =>
    rw [hjobs]
    exact ownJobs_endJob_of_not _ (by rcases hend with rfl | rfl | rfl <;> exact he)

/-- A step that does not belong to the file changes nothing that is compared. -/
theorem Mirrors.skip (m : Mirrors own file s t) (run : Run n j es s) (hown : Owns own file (es ++ [e]))
    (hdrained : s.drained = []) (step : Step s e s')
    (he : e.belongs own file s.counter = false) (hdrain : e ≠ .drain) : Mirrors own file s' t where
  permits := m.permits.trans step.permits.symm
  journal := m.journal.trans step.journal.symm
  opened := m.opened
  counter := by
    rw [m.counter, step.counter]
    cases e with
    | draw =>
      have hnot : ¬ own (s.counter + 1) = true := ne_true_of_eq_false he
      show rank own s.counter = rank own (s.counter + 1)
      rw [rank, if_neg hnot]
      rfl
    | _ => rfl
  drawn g hg hgown := by
    rcases step.numbers with ⟨rfl, hd, -⟩ | ⟨ticket, -, -, hd, -⟩ | ⟨-, hd, -⟩
    · rw [hd] at hg
      rcases List.mem_append.mp hg with hold | hnew
      · exact m.drawn g hold hgown
      · rw [List.mem_singleton.mp hnew] at hgown
        exact absurd (he.symm.trans hgown) Bool.false_ne_true
    · rw [hd] at hg
      exact m.drawn g (List.mem_of_mem_erase hg) hgown
    · rw [hd] at hg
      exact m.drawn g hg hgown
  known := by
    rw [m.known, step.unconcerned (step.not_concerns run hown.of_append he hdrain)]
  told := m.told
  fired g hg := by
    rw [step.fired_eq, List.mem_append, m.fired g hg]
    -- It fires no token of the file, which would make it belong to the file.
    refine (or_iff_right fun h => ?_).symm
    have hbelongs := (step.own_of_fires run hown.of_append hdrained h).mp hg
    rw [he] at hbelongs
    cases hbelongs
  jobs := m.jobs.trans (step.ownJobs_eq hown he).symm

/-- What is left of a run for a file is a run, and its state is what is left of the state. -/
theorem Run.mirrored (run : Run n j es s) (hown : Owns own file es) (hdrain : .drain ∉ es)
    (hclose : .close ∉ es) :
    ∃ t, (new n j).steps (restrict own file 0 es) = some t ∧ Mirrors own file s t := by
  induction run with
  | start => exact ⟨new n j, rfl, .start⟩
  | @next es s e s' run he ih =>
    rw [List.mem_append, not_or] at hdrain hclose
    obtain ⟨t, ht, m⟩ := ih hown.of_append hdrain.1 hclose.1
    have step := step_of_eq_some he
    have hdrained : s.drained = [] := run.drained_eq_nil hdrain.1
    have hopen : s.closed = false := by
      rw [Bool.eq_false_iff]
      exact mt run.closed hclose.1
    rw [restrict_append, Nat.zero_add, ← run.counter_eq, restrict, restrict, List.append_nil]
    -- An event that belongs to the file is carried out in what is left, and another one is deleted.
    cases hb : e.belongs own file s.counter with
    | true =>
      obtain ⟨t', step', m'⟩ := m.keep run hown hdrained hopen step hb
      refine ⟨t', ?_, m'⟩
      rw [if_pos rfl, steps_append, ht, Option.bind_some]
      exact steps_cons_eq_some.mpr ⟨t', step'.eq_some, rfl⟩
    | false =>
      have hne : e ≠ .drain := fun h => hdrain.2 (h ▸ List.mem_singleton_self _)
      refine ⟨t, ?_, m.skip run hown hdrained step hb hne⟩
      rw [if_neg Bool.false_ne_true, List.append_nil, ht]

/-- The generations of the calls for a file, in order. -/
def callsFor (es : List Event) (file : Path) : List Nat :=
  ((calls es).filter (·.file.same file)).map Task.generation

/-- The generations of the calls for a file are its own ones. -/
theorem Run.owns_callsFor (run : Run n j es s) (file : Path) :
    Owns (callsFor es file).contains file es := by
  intro call hmem
  have hdistinct : ((calls es).map Task.generation).Nodup := by
    rw [calls, List.map_filterMap]
    exact run.ledger.distinct.of_append_right
  rw [List.contains_iff_mem, callsFor, List.mem_map]
  -- No two calls use one generation, so having the generation of a call for the file means being it.
  constructor
  · rintro ⟨call', hcall', hg⟩
    obtain ⟨hmem', hsame⟩ := List.mem_filter.mp hcall'
    rw [← List.inj_on_of_nodup_map hdistinct hmem' hmem hg]
    exact Path.same_iff.mp hsame
  · intro hplace
    exact ⟨call, List.mem_filter.mpr ⟨hmem, Path.same_iff.mpr hplace⟩, rfl⟩

/-- **Files are isolated.** Take any run without a shutdown and any file, and delete the calls and
the jobs of all other files from it. What is left is a run again, and at every point it has told
exactly the updates about the file that the full run has told, the state of the file is the same,
and the cache holds the same for it. The generations of the file are numbered anew in their order. A
generation that no call has used yet may count as one of the file or not. -/
theorem files_isolated_up_to_renaming (run : (new n j).steps es = some s) (hdrain : .drain ∉ es)
    (hclose : .close ∉ es) (file : Path) :
    (∃ own, Owns own file es) ∧ ∀ own, Owns own file es →
      (∀ g g', own g = true → own g' = true → (rank own g < rank own g' ↔ g < g')) ∧
      ∀ es₁ es₂, es = es₁ ++ es₂ → ∃ s₁ t₁,
        restrict own file 0 es₁ <+: restrict own file 0 es ∧
        (new n j).steps es₁ = some s₁ ∧ (new n j).steps (restrict own file 0 es₁) = some t₁ ∧
        t₁.updates = (s₁.about file).map (Update.rename (rank own)) ∧
        t₁.tasks.state file = s₁.tasks.state file ∧
        t₁.cache.held? file = s₁.cache.held? file := by
  refine ⟨⟨_, (run_of_steps run).owns_callsFor file⟩, fun own hown => ⟨?_, ?_⟩⟩
  · intro g g' hg hg'
    refine ⟨fun hlt => ?_, fun hlt => rank_lt hlt hg'⟩
    -- In the other order the numbers would not increase.
    by_contra hle
    exact absurd (rank_le (Nat.le_of_not_lt hle)) (Nat.not_le_of_lt hlt)
  · rintro es₁ es₂ rfl
    obtain ⟨s₁, hs₁, -⟩ := steps_append_eq_some.mp run
    rw [List.mem_append, not_or] at hdrain hclose
    obtain ⟨t₁, ht₁, m⟩ := (run_of_steps hs₁).mirrored hown.of_append hdrain.1 hclose.1
    refine ⟨s₁, t₁, ?_, hs₁, ht₁, ?_, ?_, m.held?⟩
    · rw [restrict_append]
      exact List.prefix_append _ _
    -- The run that is left tells of no other file.
    · rw [← m.about]
      refine (List.filter_eq_self.mpr fun u hu => ?_).symm
      exact Path.same_iff.mpr (m.told u hu)
    · rw [TaskTable.state_eq, TaskTable.state_eq, m.current? rfl, Option.isSome_map, m.noted?]

/-- Two files and one permit: a file waits for the job of another, and is requested again while its
own job is at work. -/
def sharing : List Event :=
  [.draw, .draw, .request 1 ⟨"p/A"⟩ (.disk ⟨1, 0⟩ 1) none,
    .request 2 ⟨"p/B"⟩ (.disk ⟨1, 0⟩ 1) none, .acquire 2,
    .resolve 2 (.outcome (.success ⟨"class B", .existing, none⟩)), .acquire 1, .draw,
    .request 3 ⟨"p//A"⟩ (.disk ⟨2, 0⟩ 1) none, .check 2, .finish 2,
    .resolve 1 (.outcome (.success ⟨"old", .existing, none⟩)), .check 1, .cancel ⟨"p/B"⟩, .acquire 3,
    .resolve 3 (.outcome (.success ⟨"class A", .existing, none⟩)), .check 3, .finish 3]

/-- The one file alone: its second request has generation 2. -/
theorem sharing_file_alone :
    ∃ s t, (new 1 .silent).steps sharing = some s ∧
      (new 1 .silent).steps [.draw, .request 1 ⟨"p/A"⟩ (.disk ⟨1, 0⟩ 1) none, .acquire 1, .draw,
        .request 2 ⟨"p//A"⟩ (.disk ⟨2, 0⟩ 1) none,
        .resolve 1 (.outcome (.success ⟨"old", .existing, none⟩)), .check 1, .acquire 2,
        .resolve 2 (.outcome (.success ⟨"class A", .existing, none⟩)), .check 2, .finish 2] =
          some t ∧
      s.about ⟨"p/A"⟩ = [.loading ⟨"p/A"⟩ 1, .loading ⟨"p//A"⟩ 3,
        .finished ⟨"p//A"⟩ 3 (.success ⟨"class A", .existing, none⟩)] ∧
      t.updates = [.loading ⟨"p/A"⟩ 1, .loading ⟨"p//A"⟩ 2,
        .finished ⟨"p//A"⟩ 2 (.success ⟨"class A", .existing, none⟩)] ∧
      t.tasks.state ⟨"p/A"⟩ = s.tasks.state ⟨"p/A"⟩ ∧
      t.cache.held? ⟨"p/A"⟩ = s.cache.held? ⟨"p/A"⟩ := by
  have hrun : ((new 1 .silent).steps sharing).map (·.about ⟨"p/A"⟩) =
      some [.loading ⟨"p/A"⟩ 1, .loading ⟨"p//A"⟩ 3,
        .finished ⟨"p//A"⟩ 3 (.success ⟨"class A", .existing, none⟩)] := by decide +kernel
  obtain ⟨s, hs, habout⟩ := Option.map_eq_some_iff.mp hrun
  have howns : Owns (· != 2) ⟨"p/A"⟩ sharing := by
    show ∀ call ∈ calls sharing, _
    decide +kernel
  obtain ⟨-, hisolated⟩ := files_isolated_up_to_renaming hs (by simp [sharing]) (by simp [sharing])
    ⟨"p/A"⟩
  obtain ⟨s₁, t, -, hs₁, ht, hupdates, hstate, hheld⟩ :=
    (hisolated _ howns).2 sharing [] (List.append_nil _).symm
  obtain rfl : s = s₁ := Option.some.inj (hs.symm.trans hs₁)
  rw [habout] at hupdates
  exact ⟨s, t, hs, ht, habout, hupdates, hstate, hheld⟩

end Scheduler

end SmaliView
