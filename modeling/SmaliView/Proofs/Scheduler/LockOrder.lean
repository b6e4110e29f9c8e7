import SmaliView.Proofs.Scheduler.Channel
import SmaliView.Proofs.Scheduler.Delivery

/-!
# Calls for one file count in lock order

Callers draw their generations before they hold the lock, so a call can enter its section after one
that has drawn later. What follows is in *lock order*: a call tells its own generation about its
file, a job repeats the last one that was told (`Run.echoes`), and a call removes the registered
task whatever generation that has. Hence the generations on the channel never decrease exactly if
the calls for the file enter in the order in which they have drawn.
-/

namespace SmaliView

namespace Scheduler

variable {n : Nat} {j : Journal} {es : List Event} {s s' : Scheduler} {e : Event} {file : Path}

/-- The generations of the updates about a file, in the order of the channel. -/
def channelOrder (s : Scheduler) (file : Path) : List Nat :=
  (s.about file).filterMap Update.generation?

/-- The generations of the calls for a file, in the order in which they have held the lock. -/
def lockOrder (es : List Event) (file : Path) : List Nat :=
  ((tickets es).filter (·.file.same file)).map Ticket.generation

/-- The next update puts its generation, if it has one, behind those told about its place. -/
theorem channelOrder_append {u : Update} (h : s'.updates = s.updates ++ [u]) (file : Path) :
    s'.channelOrder file =
      if u.file.place = file.place then s.channelOrder file ++ u.generation?.toList
      else s.channelOrder file := by
  rw [channelOrder, about_append h]
  split
  · rw [List.filterMap_append]
    cases hg : u.generation? <;> simp [channelOrder, hg]
  · rfl

theorem channelOrder_eq_of_updates_eq (h : s'.updates = s.updates) (file : Path) :
    s'.channelOrder file = s.channelOrder file := by
  rw [channelOrder, about, h]; rfl

theorem lockOrder_concat_of_some {t : Ticket} (he : e.ticket? = some t) (file : Path) :
    lockOrder (es ++ [e]) file =
      if t.file.place = file.place then lockOrder es file ++ [t.generation]
      else lockOrder es file := by
  rw [lockOrder, tickets_concat_of_some he, List.filter_append, List.filter_cons, List.filter_nil]
  simp only [Path.same_iff]
  split
  · simp [lockOrder]
  · simp [lockOrder]

theorem lockOrder_concat_of_none (he : e.ticket? = none) (file : Path) :
    lockOrder (es ++ [e]) file = lockOrder es file := by
  rw [lockOrder, tickets_concat_of_none he]; rfl

/-- The generations of the calls for one file are some of those on all tickets, in their order. -/
theorem lockOrder_sublist (es : List Event) (file : Path) :
    (lockOrder es file).Sublist ((tickets es).map Ticket.generation) :=
  List.filter_sublist.map _

/-! ## Generations are echoed -/

/-- Every generation that is called is told, in the same order, and none is told again once another
one was. -/
inductive Echoes : List Nat → List Nat → Prop where
  | nil : Echoes [] []
  | call {told called : List Nat} (h : Echoes told called) (g : Nat) :
      Echoes (told ++ [g]) (called ++ [g])
  | again {told called : List Nat} {g : Nat} (h : Echoes told called)
      (last : told.getLast? = some g) : Echoes (told ++ [g]) called

variable {told called : List Nat}

/-- What was told last is what was called last. -/
theorem Echoes.getLast?_eq (h : Echoes told called) : told.getLast? = called.getLast? := by
  induction h with
  | nil => rfl
  | call h g ih => rw [List.getLast?_concat, List.getLast?_concat]
  | again h last ih => rw [List.getLast?_concat, ← ih, last]

/-- Exactly what was called is told. -/
theorem Echoes.mem_iff (h : Echoes told called) {a : Nat} : a ∈ told ↔ a ∈ called := by
  induction h with
  | nil => rfl
  | call h g ih => rw [List.mem_append, List.mem_append, ih]
  | again h last ih =>
    have hold := List.mem_of_getLast? last
    rw [List.mem_append, List.mem_singleton, ← ih]
    exact ⟨fun ha => ha.elim id (· ▸ hold), Or.inl⟩

/-- What is told never decreases exactly if what is called increases. -/
theorem Echoes.pairwise_iff (h : Echoes told called) (distinct : called.Nodup) :
    told.Pairwise (· ≤ ·) ↔ called.Pairwise (· < ·) := by
  induction h with
  | nil => simp
  | call h g ih =>
    obtain ⟨hcalled, -, hnew⟩ := List.nodup_append.mp distinct
    rw [List.pairwise_append, List.pairwise_append, ih hcalled]
    refine and_congr_right fun _ => and_congr (by simp) ?_
    -- Distinct generations that do not decrease increase; the two lists have the same members.
    constructor
    · intro hle a ha b hb
      have hne := hnew a ha b hb
      have := hle a (h.mem_iff.mpr ha) b hb
      omega
    · intro hlt a ha b hb
      exact Nat.le_of_lt (hlt a (h.mem_iff.mp ha) b hb)
  | @again _ _ g h last ih =>
    obtain ⟨init, rfl⟩ := List.getLast?_eq_some_iff.mp last
    rw [← ih distinct, List.pairwise_append]
    constructor
    · exact fun hp => hp.1
    · intro hp
      refine ⟨hp, by simp, ?_⟩
      -- The last one is not smaller than those before it, and it is told again.
      intro a ha b hb
      rw [List.mem_singleton.mp hb]
      rcases List.mem_append.mp ha with hinit | hlast
      · exact (List.pairwise_append.mp hp).2.2 a hinit g (List.mem_singleton_self g)
      · exact Nat.le_of_eq (List.mem_singleton.mp hlast)

/-- A call tells one update, which is about its file and has its generation. -/
theorem Step.call (step : Step s e s') {t : Ticket} (ht : e.ticket? = some t) :
    ∃ u, s'.updates = s.updates ++ [u] ∧ u.file = t.file ∧ u.generation? = some t.generation := by
  cases step with
  | request file snapshot text hg =>
    cases ht
    exact ⟨_, answered_updates .., reply_file .., reply_generation? ..⟩
  | fail file why hg =>
    cases ht
    exact ⟨_, failAs_updates .., rfl, rfl⟩
  | _ => cases ht

/-- The generation of a registered task is the last one that was told about its file. -/
theorem Run.getLast?_channelOrder (run : Run n j es s) {task : Task}
    (ht : s.tasks.current? file = some task) :
    (s.channelOrder file).getLast? = some task.generation := by
  -- The table agrees with the channel: the last update about the file announces the task.
  have hlast := getLast?_of_announced? (run.announced?_eq_some ht)
  obtain ⟨init, hinit⟩ := List.getLast?_eq_some_iff.mp hlast
  rw [channelOrder, hinit, List.filterMap_append]
  exact List.getLast?_concat

/-- In every run the channel echoes the calls for a file. -/
theorem Run.echoes (run : Run n j es s) (file : Path) :
    Echoes (s.channelOrder file) (lockOrder es file) := by
  induction run with
  | start => exact .nil
  | @next es s e s' run he ih =>
    have step := step_of_eq_some he
    cases ht : e.ticket? with
    | some t =>
      obtain ⟨u, hu, hfile, hg⟩ := step.call ht
      rw [channelOrder_append hu, lockOrder_concat_of_some ht, hfile, hg]
      split
      · exact ih.call t.generation
      · exact ih
    | none =>
      rw [lockOrder_concat_of_none ht]
      rcases step.updates with hu | ⟨u, hu, hsaid⟩
      · rw [channelOrder_eq_of_updates_eq hu]
        exact ih
      · rw [channelOrder_append hu]
        cases hsaid with
        | request => cases ht
        | fail => cases ht
        -- A dismissal has no generation.
        | cancel file₀ =>
          split
          · exact (List.append_nil (s.channelOrder file)).symm ▸ ih
          · exact ih
        | @finish g job o hj hp hc =>
          -- The job tells about its own task, which is registered and was told last.
          have hcurrent := run.ledger.current?_of_isCurrent hj hc
          split
          · next hplace =>
            have hfile : s.tasks.current? file = some job.task :=
              (s.tasks.current?_congr hplace).symm.trans hcurrent
            obtain ⟨-, rfl⟩ := job?_eq_some hj
            exact ih.again (run.getLast?_channelOrder hfile)
          · exact ih

/-! ## The order of the lock decides -/

/-- A call for the file of a registered task fires its token and removes it, whatever the
generations are. -/
theorem Step.removes_task (step : Step s e s') (l : Ledger es s) {task : Task}
    (hcurrent : s.tasks.current? file = some task) {t : Ticket} (ht : e.ticket? = some t)
    (hplace : t.file.place = file.place) :
    task.generation ∈ s'.fired ∧ ∀ file', s'.tasks.current? file' ≠ some task := by
  -- Either kind of call supersedes, and neither compares generations.
  have hremoves : e.Removes file ∧
      s'.fired = (s.tasks.current? t.file).toList.map Task.generation ++ s.fired := by
    cases step with
    | request file₀ snapshot text hg => cases ht; exact ⟨hplace, answered_fired ..⟩
    | fail file₀ why hg => cases ht; exact ⟨hplace, failAs_fired ..⟩
    | _ => cases ht
  obtain ⟨hr, hfired⟩ := hremoves
  constructor
  · rw [hfired, s.tasks.current?_congr hplace, hcurrent]
    exact List.mem_cons_self ..
  · intro file' hagain
    exact (l.gone hcurrent hr step).removed file' task hagain rfl

/-- **Calls for one file count in lock order.** For every run, with any number of callers:

* the generations of the updates about a file never decrease exactly if the calls for the file have
  entered their sections in the order in which they have drawn their generations;
* the registered task is the one of the call that has entered last;
* a call takes the registered task from the table and fires its token also when it holds the smaller
  generation; it holds the larger one if the calls enter in the order in which they have drawn. -/
theorem channel_sorted_iff_lock_sorted (run : (new n j).steps es = some s) :
    (∀ file, (s.channelOrder file).Pairwise (· ≤ ·) ↔ (lockOrder es file).Pairwise (· < ·)) ∧
    (∀ file task, s.tasks.current? file = some task →
      (lockOrder es file).getLast? = some task.generation) ∧
    (∀ file task e t s', s.tasks.current? file = some task → e.ticket? = some t →
      t.file.place = file.place → s.step e = some s' →
      task.generation ∈ s'.fired ∧ (∀ file', s'.tasks.current? file' ≠ some task) ∧
      ((lockOrder (es ++ [e]) file).Pairwise (· < ·) → task.generation < t.generation)) := by
  have run := run_of_steps run
  have hlast : ∀ file task, s.tasks.current? file = some task →
      (lockOrder es file).getLast? = some task.generation := by
    intro file task ht
    rw [← (run.echoes file).getLast?_eq]
    exact run.getLast?_channelOrder ht
  refine ⟨?_, hlast, ?_⟩
  · intro file
    have hdistinct : (lockOrder es file).Nodup :=
      run.ledger.tickets_nodup.sublist (lockOrder_sublist es file)
    exact (run.echoes file).pairwise_iff hdistinct
  · intro file task e t s' hcurrent ht hplace he
    have step := step_of_eq_some he
    obtain ⟨hfired, hremoved⟩ := step.removes_task run.ledger hcurrent ht hplace
    refine ⟨hfired, hremoved, fun hsorted => ?_⟩
    -- In a list that increases, the last call before it has the smaller generation.
    rw [lockOrder_concat_of_some ht, if_pos hplace] at hsorted
    have hmem := List.mem_of_getLast? (hlast file task hcurrent)
    exact (List.pairwise_append.mp hsorted).2.2 _ hmem _ (List.mem_singleton_self _)

/-- Two requests for one file: the one that has drawn first enters last. -/
def overtakenCalls : List Event :=
  [.draw, .draw, .request 2 ⟨"A"⟩ (.disk ⟨2, 0⟩ 1) none]

/-- The older request cancels the newer task, and its smaller generation follows on the channel. -/
theorem older_call_cancels_newer_task :
    ∃ s s', (new 1 .silent).steps overtakenCalls = some s ∧
      s.tasks.current? ⟨"A"⟩ = some ⟨⟨"A"⟩, 2⟩ ∧
      s.step (.request 1 ⟨"A"⟩ (.disk ⟨1, 0⟩ 1) none) = some s' ∧
      2 ∈ s'.fired ∧ s'.tasks.current? ⟨"A"⟩ = some ⟨⟨"A"⟩, 1⟩ ∧
      s'.updates = [.loading ⟨"A"⟩ 2, .loading ⟨"A"⟩ 1] := by
  have hrun : ((new 1 .silent).steps overtakenCalls).map (fun s =>
      (s.tasks.current? ⟨"A"⟩,
        (s.step (.request 1 ⟨"A"⟩ (.disk ⟨1, 0⟩ 1) none)).map fun s' =>
          (s'.tasks.current? ⟨"A"⟩, s'.updates))) =
        some (some ⟨⟨"A"⟩, 2⟩, some (some ⟨⟨"A"⟩, 1⟩,
          [.loading ⟨"A"⟩ 2, .loading ⟨"A"⟩ 1])) := by decide +kernel
  obtain ⟨s, hs, h⟩ := Option.map_eq_some_iff.mp hrun
  obtain ⟨hcurrent, h⟩ := Prod.mk.inj h
  obtain ⟨s', hs', h⟩ := Option.map_eq_some_iff.mp h
  obtain ⟨hnext, hupdates⟩ := Prod.mk.inj h
  have hcall := (channel_sorted_iff_lock_sorted hs).2.2 ⟨"A"⟩ ⟨⟨"A"⟩, 2⟩ _ ⟨⟨"A"⟩, 1⟩ s' hcurrent
    rfl rfl hs'
  exact ⟨s, s', hs, hcurrent, hs', hcall.1, hnext, hupdates⟩

end Scheduler

end SmaliView
