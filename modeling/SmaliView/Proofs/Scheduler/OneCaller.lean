import SmaliView.Proofs.Scheduler.LockOrder

/-!
# One caller

A single caller makes one call after the other, while jobs step in between and nothing is shut down.
Then it never holds two generations at once, so that its calls hold the lock in the order in which
they have drawn. Together with the agreement of channel and table this says all about the updates
for one file: what is loading is what runs, and nothing that is loading is left open or is closed by
the result of another request.
-/

namespace SmaliView

/-- What an update can be that is told about a file after work was started for a generation: the
result of this work, a dismissal, or an update of a later request. -/
def Update.Follows (g : Nat) : Update → Prop
  | .loading _ g' => g < g'
  | .finished _ g' _ => g ≤ g'
  | .dismissed _ => True

namespace Scheduler

variable {n : Nat} {j : Journal} {es : List Event} {s s' : Scheduler} {e : Event} {file : Path}

/-! ## Calls in turn -/

/-- The events of one call, in order. -/
inductive IsCall : List Event → Prop where
  | request (g : Nat) (file : Path) (snapshot : Snapshot) (text : Option String) :
      IsCall [.draw, .request g file snapshot text]
  | abort (g : Nat) (file : Path) (snapshot : Snapshot) (text : Option String) :
      IsCall [.draw, .abort g file snapshot text]
  | fail (g : Nat) (file : Path) (why : Explanation) : IsCall [.draw, .fail g file why]
  | cancel (file : Path) : IsCall [.cancel file]
  | evict (file : Path) : IsCall [.cancel file, .dropCached file, .forget file]

/-- The events that are no steps of jobs are those of calls, one call after the other. The last one
may be under way. -/
def OneCaller (es : List Event) : Prop :=
  ∃ calls : List (List Event), (∀ call ∈ calls, IsCall call) ∧
    es.filter (·.worker?.isNone) <+: calls.flatten

/-- One caller is one at any point of the run. -/
theorem OneCaller.of_append {es' : List Event} (h : OneCaller (es ++ es')) : OneCaller es := by
  obtain ⟨calls, hcalls, hbegin⟩ := h
  -- What was carried out so far begins the same calls.
  rw [List.filter_append] at hbegin
  exact ⟨calls, hcalls, (List.prefix_append _ _).trans hbegin⟩

/-- What one caller does, apart from jobs, is a part of one of its calls. -/
theorem OneCaller.mem_call (h : OneCaller es) (he : e ∈ es) (hw : e.worker? = none) :
    ∃ call, IsCall call ∧ e ∈ call := by
  obtain ⟨calls, hcalls, hbegin⟩ := h
  have hfilter : e ∈ es.filter (·.worker?.isNone) := List.mem_filter.mpr ⟨he, by rw [hw]; rfl⟩
  obtain ⟨call, hcall, hmem⟩ := List.mem_flatten.mp (hbegin.subset hfilter)
  exact ⟨call, hcalls call hcall, hmem⟩

/-- One caller as meant here does not shut down. -/
theorem OneCaller.no_shutdown (h : OneCaller es) : .drain ∉ es ∧ .close ∉ es := by
  constructor
  all_goals
    intro he
    -- Neither event is a part of any call.
    obtain ⟨call, hcall, hmem⟩ := h.mem_call he rfl
    cases hcall <;> simp at hmem

/-! ## Generations that are drawn and not used -/

def Event.isDraw : Event → Bool
  | .draw => true
  | _ => false

/-- In every run a generation that was drawn is used by a call or waits for it. -/
theorem Run.drawn_balance (run : Run n j es s) :
    s.drawn.length + (used es).length = es.countP Event.isDraw := by
  induction run with
  | start => rfl
  | @next es s e s' run he ih =>
    rw [List.countP_append, ← ih, used_concat, List.length_append]
    -- Drawing adds one on both sides; a call moves one from what was drawn to what was used.
    by_cases hdraw : e = .draw
    · subst hdraw
      have hd : s'.drawn = s.drawn ++ [s.counter + 1] := by cases step_of_eq_some he; rfl
      have hcount : [Event.draw].countP Event.isDraw = 1 := rfl
      have huses : Event.draw.uses?.toList.length = 0 := rfl
      rw [hd, List.length_append, List.length_singleton, hcount, huses]
      omega
    · have hcount : [e].countP Event.isDraw = 0 := by
        cases e with
        | draw => exact absurd rfl hdraw
        | _ => rfl
      rcases (step_of_eq_some he).numbers with ⟨h, -⟩ | ⟨g, hg, hmem, hd, -⟩ | ⟨hn, hd, -⟩
      · exact absurd h hdraw
      · have hlength := List.length_erase_of_mem hmem
        have hpos := List.length_pos_of_mem hmem
        rw [hg, hd, hlength, hcount, Option.toList_some, List.length_singleton]
        omega
      · rw [hn, hd, hcount, Option.toList_none, List.length_nil, Nat.add_zero, Nat.add_zero]

/-- A call has used what it draws, and while it is under way it has drawn at most one generation
that it has not used. -/
theorem IsCall.balance {call : List Event} (h : IsCall call) :
    call.countP Event.isDraw = (used call).length ∧
      ∀ part, part <+: call → part.countP Event.isDraw ≤ (used part).length + 1 := by
  refine ⟨by cases h <;> rfl, fun part hpart => ?_⟩
  -- No call draws twice.
  have hone : call.countP Event.isDraw ≤ 1 := by
    cases h with
    | request | abort | fail => exact Nat.le_refl 1
    | cancel | evict => exact Nat.zero_le 1
  have hle := hpart.sublist.countP_le (p := Event.isDraw)
  omega

/-- While calls are carried out in turn, at most one generation was drawn and is not used. -/
theorem countP_isDraw_le {calls : List (List Event)} (hcalls : ∀ call ∈ calls, IsCall call)
    {part : List Event} (hpart : part <+: calls.flatten) :
    part.countP Event.isDraw ≤ (used part).length + 1 := by
  induction calls generalizing part with
  | nil =>
    rw [List.prefix_nil.mp hpart]
    exact Nat.zero_le _
  | cons call calls ih =>
    have hcall := (hcalls call List.mem_cons_self).balance
    -- Either the first call is under way, or it is over and balanced and the rest decides.
    rcases List.prefix_or_prefix_of_prefix hpart (List.prefix_append call calls.flatten) with
      h | ⟨rest, rfl⟩
    · exact hcall.2 part h
    · have hrest : rest <+: calls.flatten := (List.prefix_append_right_inj call).mp hpart
      have := ih (fun c hc => hcalls c (List.mem_cons_of_mem _ hc)) hrest
      rw [List.countP_append, used, List.filterMap_append, List.length_append]
      have heq := hcall.1
      rw [used] at heq this
      omega

/-- One caller holds at most one generation that it has not used. -/
theorem OneCaller.length_drawn_le (one : OneCaller es) (run : Run n j es s) :
    s.drawn.length ≤ 1 := by
  obtain ⟨calls, hcalls, hbegin⟩ := one
  have hle := countP_isDraw_le hcalls hbegin
  -- The steps of jobs neither draw nor use generations, so it is enough to look at the calls.
  have hused : used (es.filter (·.worker?.isNone)) = used es := by
    rw [used, List.filterMap_filter, used]
    congr
    funext e
    cases e <;> rfl
  have hdraws : (es.filter (·.worker?.isNone)).countP Event.isDraw = es.countP Event.isDraw := by
    rw [List.countP_filter]
    congr
    funext e
    cases e <;> rfl
  have := run.drawn_balance
  rw [hused, hdraws] at hle
  omega

/-- One caller uses its generations in the order in which it draws them. -/
theorem OneCaller.used_sorted (one : OneCaller es) (run : Run n j es s) :
    (used es).Pairwise (· < ·) ∧ ∀ g ∈ s.drawn, ∀ g' ∈ used es, g' < g := by
  induction run with
  | start => exact ⟨.nil, fun g hg => by cases hg⟩
  | @next es s e s' run he ih =>
    obtain ⟨hsorted, hnewer⟩ := ih one.of_append
    have hone := one.length_drawn_le (run.next he)
    have hone' := one.of_append.length_drawn_le run
    rw [used_concat]
    rcases (step_of_eq_some he).numbers with ⟨rfl, hd, -⟩ | ⟨g, hg, hmem, hd, -⟩ | ⟨hn, hd, -⟩
    · -- Nothing else was drawn, and the new generation is larger than all before it.
      rw [hd, show Event.draw.uses? = none from rfl, Option.toList_none, List.append_nil]
      rw [hd, List.length_append, List.length_singleton] at hone
      have hnil : s.drawn = [] := List.length_eq_zero_iff.mp (by omega)
      refine ⟨hsorted, fun g hg g' hg' => ?_⟩
      rw [hnil, List.nil_append, List.mem_singleton] at hg
      have := run.ledger.counted g' (List.mem_append_right _ hg')
      omega
    · -- The call uses the one generation that was drawn, so none is left.
      have hnil : s.drawn.erase g = [] := by
        have := List.length_erase_of_mem hmem
        exact List.length_eq_zero_iff.mp (by omega)
      rw [hd, hg, hnil, Option.toList_some, List.pairwise_append]
      refine ⟨⟨hsorted, List.pairwise_singleton .., ?_⟩, fun g hg => by cases hg⟩
      intro g' hg' b hb
      rw [List.mem_singleton.mp hb]
      exact hnewer g hmem g' hg'
    · rw [hd, hn, Option.toList_none, List.append_nil]
      exact ⟨hsorted, hnewer⟩

/-- One caller holds the lock in the order in which it draws, whichever file the calls are for. -/
theorem OneCaller.channelOrder_sorted (one : OneCaller es) (run : Run n j es s) (file : Path) :
    (s.channelOrder file).Pairwise (· ≤ ·) := by
  have hsorted := (one.used_sorted run).1.sublist
    ((lockOrder_sublist es file).trans (tickets_sublist_used es))
  have hdistinct : (lockOrder es file).Nodup := hsorted.imp fun h => Nat.ne_of_lt h
  exact ((run.echoes file).pairwise_iff hdistinct).mpr hsorted

/-! ## What follows on `loading` -/

/-- What one caller is told next about a file follows on all that is loading. -/
theorem OneCaller.follows (one : OneCaller (es ++ [e])) (run : Run n j es s) (he : s.step e = some s')
    {u : Update} (hsaid : Says s e u) (hu : s'.updates = s.updates ++ [u])
    (hplace : u.file.place = file.place) {g : Nat} (hg : g ∈ s.channelOrder file) :
    u.Follows g := by
  have step := step_of_eq_some he
  have hold : ∃ t ∈ tickets es, t.generation = g := by
    have hcalled := (run.echoes file).mem_iff.mp hg
    exact List.mem_map.mp ((lockOrder_sublist es file).subset hcalled)
  obtain ⟨t', ht', rfl⟩ := hold
  -- A call has the largest generation so far.
  have hcall : ∀ {t : Ticket}, e.ticket? = some t → t'.generation < t.generation := by
    intro t ht
    exact (one.of_append.used_sorted run).2 _ (step.mem_drawn ht) _ (mem_used_of_mem_tickets ht')
  cases hsaid with
  | request g' file' snapshot text =>
    have hlt := hcall rfl
    unfold reply
    split
    · exact Nat.le_of_lt hlt
    · exact hlt
  | fail g' file' why => exact Nat.le_of_lt (hcall rfl)
  | cancel file' => trivial
  | @finish g' job o hj hp hc =>
    -- A job repeats the generation that was told last, and they never decrease.
    have hsorted := one.channelOrder_sorted (run.next he) file
    rw [channelOrder_append hu, if_pos hplace, List.pairwise_append] at hsorted
    exact hsorted.2.2 _ hg g' (List.mem_singleton_self g')

/-- For one caller all that is told about a file follows on what was loading before. -/
theorem OneCaller.pairwise_follows (one : OneCaller es) (run : Run n j es s) (file : Path) :
    (s.about file).Pairwise fun u v => ∀ file' g, u = .loading file' g → v.Follows g := by
  induction run with
  | start => exact .nil
  | @next es s e s' run he ih =>
    have ih := ih one.of_append
    rcases (step_of_eq_some he).updates with hu | ⟨u, hu, hsaid⟩
    · rw [about, hu]
      exact ih
    · rw [about_append hu]
      split
      · next hplace =>
        -- Only what is told now is new, and it follows on whatever was loading.
        refine List.pairwise_append.mpr ⟨ih, List.pairwise_singleton .., ?_⟩
        intro v hv w hw file' g hloading
        rw [List.mem_singleton.mp hw]
        have hg : g ∈ s.channelOrder file := List.mem_filterMap.mpr ⟨v, hv, by rw [hloading]; rfl⟩
        exact one.follows run he hsaid hu hplace hg
      · exact ih

/-- **The channel and the table agree for one caller.** In every run of one caller, whose calls may
be overtaken by jobs at any point, and for every file:

* a task of some generation is registered exactly if the last update about the file is `loading` of
  this generation and no request for the file has broken off since then; exactly then the file is
  running. So a request that breaks off, as it does when it should be recorded for a file whose time
  has no date (`Journal.fault?_eq_some_iff`), leaves what was loading open;
* the generations of the updates about the file never decrease;
* a job tells an outcome right after `loading` of its own generation;
* `loading` is followed by the outcome of its generation, by a dismissal, and by updates of later
  generations, but by nothing else. -/
theorem registered_iff_loading_last (run : (new n j).steps es = some s) (one : OneCaller es) :
    (∀ file g, (∃ task, s.tasks.current? file = some task ∧ task.generation = g) ↔
      (∃ file', (s.about file).getLast? = some (.loading file' g)) ∧
        ¬ Muted ((new n j).history es) file) ∧
    (∀ file, s.tasks.state file = .running ↔
      (∃ file' g, (s.about file).getLast? = some (.loading file' g)) ∧
        ¬ Muted ((new n j).history es) file) ∧
    (∀ g file snapshot text s', s.step (.abort g file snapshot text) = some s' →
      s.cache.lookup? file snapshot = none ∧ (∃ message, j.fault? snapshot = some message) ∧
        s'.updates = s.updates ∧ s'.tasks.current? file = none ∧ s'.tasks.state file ≠ .running) ∧
    (∀ file, (s.channelOrder file).Pairwise (· ≤ ·)) ∧
    (∀ g s', s.step (.finish g) = some s' → s'.updates ≠ s.updates →
      ∃ file' o, s'.updates = s.updates ++ [.finished file' g o] ∧
        (s.about file').getLast? = some (.loading file' g)) ∧
    (∀ file, (s.about file).Pairwise fun u v => ∀ file' g, u = .loading file' g → v.Follows g) := by
  have run := run_of_steps run
  -- All is read off the agreement of channel and table: the registered task is what the last update
  -- announces, unless a request has broken off.
  have hagree := run.current?_eq_announced? one.no_shutdown.1 one.no_shutdown.2
  have hlast : ∀ file task, s.tasks.current? file = some task ↔
      (s.about file).getLast? = some (.loading task.file task.generation) ∧
        ¬ Muted ((new n j).history es) file := by
    intro file task
    constructor
    · intro ht
      refine ⟨getLast?_of_announced? (run.announced?_eq_some ht), fun hmuted => ?_⟩
      rw [(hagree file).2 hmuted] at ht
      cases ht
    · rintro ⟨h, hmuted⟩
      rw [(hagree file).1 hmuted, announced?, h]
      rfl
  have hregistered : ∀ file g, (∃ task, s.tasks.current? file = some task ∧ task.generation = g) ↔
      (∃ file', (s.about file).getLast? = some (.loading file' g)) ∧
        ¬ Muted ((new n j).history es) file := by
    intro file g
    constructor
    · rintro ⟨task, ht, rfl⟩
      have h := (hlast file task).mp ht
      exact ⟨⟨task.file, h.1⟩, h.2⟩
    · rintro ⟨⟨file', h⟩, hmuted⟩
      exact ⟨⟨file', g⟩, (hlast file ⟨file', g⟩).mpr ⟨h, hmuted⟩, rfl⟩
  refine ⟨hregistered, ?_, ?_, one.channelOrder_sorted run, ?_, one.pairwise_follows run⟩
  · intro file
    rw [run.tidy.state_eq_running_iff]
    constructor
    · rintro ⟨task, ht⟩
      have h := (hlast file task).mp ht
      exact ⟨⟨task.file, task.generation, h.1⟩, h.2⟩
    · rintro ⟨⟨file', g, h⟩, hmuted⟩
      exact ⟨_, (hlast file ⟨file', g⟩).mpr ⟨h, hmuted⟩⟩
  · intro g file snapshot text s' he
    have tidy := (run.next he).tidy
    obtain ⟨rfl, hmiss, hfault⟩ := abort_of_step he
    have hfree : (s.aborted g file).tasks.current? file = none := by
      rw [aborted_current?, if_pos rfl]
    refine ⟨hmiss, run.journal ▸ hfault, rfl, hfree, fun hrunning => ?_⟩
    obtain ⟨task, ht⟩ := tidy.state_eq_running_iff.mp hrunning
    rw [hfree] at ht
    cases ht
  · intro g s' he hne
    -- A job that tells is registered, so its own `loading` was the last update.
    obtain ⟨job, o, hj, hc, hu, -⟩ := (step_of_eq_some he).worker rfl (Or.inl hne)
    have hcurrent := run.ledger.current?_of_isCurrent hj hc
    obtain ⟨-, rfl⟩ := job?_eq_some hj
    exact ⟨job.task.file, o, hu, ((hlast _ _).mp hcurrent).1⟩

/-- A request is superseded while its job resolves. The job of the second one breaks off and tells
so; a third one, for another spelling of the path, is cancelled, and a fourth one is waiting. -/
def typing : List Event :=
  [.draw, .request 1 ⟨"p/A"⟩ (.disk ⟨1, 0⟩ 1) none, .acquire 1, .draw,
    .request 2 ⟨"p/A"⟩ (.disk ⟨2, 0⟩ 1) none,
    .resolve 1 (.outcome (.success ⟨"old", .existing, none⟩)), .check 1, .acquire 2,
    .resolve 2 (.panicked "no memory"), .check 2, .finish 2, .draw,
    .request 3 ⟨"p//A"⟩ (.disk ⟨2, 0⟩ 1) none, .cancel ⟨"p//A"⟩, .draw,
    .request 4 ⟨"p/A"⟩ (.disk ⟨2, 0⟩ 1) none]

/-- The file gets a time that has no date, and a fifth request breaks off. -/
def touching : List Event :=
  [.draw, .abort 5 ⟨"p/A"⟩ (.disk ⟨9000000000000, 0⟩ 1) none]

theorem oneCaller_typing_touching : OneCaller (typing ++ touching) := by
  refine ⟨[[.draw, .request 1 ⟨"p/A"⟩ (.disk ⟨1, 0⟩ 1) none],
    [.draw, .request 2 ⟨"p/A"⟩ (.disk ⟨2, 0⟩ 1) none],
    [.draw, .request 3 ⟨"p//A"⟩ (.disk ⟨2, 0⟩ 1) none], [.cancel ⟨"p//A"⟩],
    [.draw, .request 4 ⟨"p/A"⟩ (.disk ⟨2, 0⟩ 1) none], touching], ?_, List.prefix_refl _⟩
  simpa using ⟨.request .., .request .., .request .., .cancel _, .request .., .abort ..⟩

/-- Only a request that breaks off leaves a file muted. -/
theorem not_muted_of_no_abort {h : List Transition} {file : Path}
    (hno : ∀ e ∈ h.map Transition.event, ¬ e.Aborts file) : ¬ Muted h file := by
  rintro ⟨earlier, t, later, rfl, ha, -⟩
  exact hno t.event (List.mem_map_of_mem (by simp)) ha

/-- The last request is loading and its task is registered; the updates before are in order. After
the request that breaks off it is still what is loading, and nothing is registered. -/
theorem typing_ends_loading :
    (∃ s, (new 2 .recording).steps typing = some s ∧
      (s.about ⟨"p//A"⟩).getLast? = some (.loading ⟨"p/A"⟩ 4) ∧
      (∃ task, s.tasks.current? ⟨"p//A"⟩ = some task ∧ task.generation = 4) ∧
      s.channelOrder ⟨"p//A"⟩ = [1, 2, 2, 3, 4] ∧ (s.channelOrder ⟨"p//A"⟩).Pairwise (· ≤ ·)) ∧
    ∃ s, (new 2 .recording).steps (typing ++ touching) = some s ∧
      (s.about ⟨"p//A"⟩).getLast? = some (.loading ⟨"p/A"⟩ 4) ∧
      s.tasks.current? ⟨"p//A"⟩ = none ∧
      Muted ((new 2 .recording).history (typing ++ touching)) ⟨"p//A"⟩ := by
  constructor
  · have hrun : ((new 2 .recording).steps typing).map
        (fun s => ((s.about ⟨"p//A"⟩).getLast?, s.channelOrder ⟨"p//A"⟩)) =
          some (some (.loading ⟨"p/A"⟩ 4), [1, 2, 2, 3, 4]) := by decide +kernel
    obtain ⟨s, hs, h⟩ := Option.map_eq_some_iff.mp hrun
    obtain ⟨hlast, horder⟩ := Prod.mk.inj h
    have hmuted : ¬ Muted ((new 2 .recording).history typing) ⟨"p//A"⟩ := by
      refine not_muted_of_no_abort fun e he => ?_
      rw [history_map_event hs] at he
      revert e
      simp [typing, Event.Aborts]
    have h := registered_iff_loading_last hs oneCaller_typing_touching.of_append
    exact ⟨s, hs, hlast, (h.1 ⟨"p//A"⟩ 4).mpr ⟨⟨_, hlast⟩, hmuted⟩, horder, h.2.2.2.1 _⟩
  · have hrun : ((new 2 .recording).steps (typing ++ touching)).map
        (fun s => ((s.about ⟨"p//A"⟩).getLast?, s.tasks.current? ⟨"p//A"⟩)) =
          some (some (.loading ⟨"p/A"⟩ 4), none) := by decide +kernel
    obtain ⟨s, hs, h⟩ := Option.map_eq_some_iff.mp hrun
    obtain ⟨hlast, hfree⟩ := Prod.mk.inj h
    have h := registered_iff_loading_last hs oneCaller_typing_touching
    refine ⟨s, hs, hlast, hfree, ?_⟩
    -- Were it not muted, what is loading would be registered.
    by_contra hmuted
    obtain ⟨task, ht, -⟩ := (h.1 ⟨"p//A"⟩ 4).mpr ⟨⟨_, hlast⟩, hmuted⟩
    rw [hfree] at ht
    cases ht

end Scheduler

end SmaliView
