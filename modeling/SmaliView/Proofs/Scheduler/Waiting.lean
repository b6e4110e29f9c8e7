import SmaliView.Proofs.Scheduler.Channel
import SmaliView.Proofs.Scheduler.Delivery

/-!
# Waiting for a ticket

A dismissal names no generation, so it answers every ticket for its file, those that were handed out
after it included. Waiting comes to the right answer when it starts at the ticket's own request:
nothing that is told from there on answers the ticket but updates of its generation, unless the file
is cancelled. Read from the first update on, the channel answers in the same way exactly if the file
was not cancelled before the request.
-/

namespace SmaliView

/-- What waiting for a ticket comes to at an update that settles it. -/
def Update.settles? (t : Ticket) (u : Update) : Option Answer :=
  if u.answers t then
    match u with
    | .finished _ _ o => some (.outcome o)
    | .dismissed _ => some .cancelled
    | .loading .. => none
  else none

/-- Waiting comes to what the first update that settles the ticket gives. -/
theorem await_eq_findSome? (t : Ticket) (us : List Update) :
    await t us = (us.findSome? (Update.settles? t)).getD .missing := by
  induction us with
  | nil => rfl
  | cons u us ih =>
    rw [List.findSome?_cons]
    unfold Update.settles? await
    -- An update that answers the ticket settles it unless it says that work has begun.
    by_cases ha : u.answers t = true
    · rw [if_pos ha, if_pos ha]
      cases u with
      | loading file g => exact ih
      | finished file g o => rfl
      | dismissed file => rfl
    · rw [if_neg ha, if_neg ha]
      exact ih

/-- Waiting comes to an answer exactly if that is the first one given. -/
theorem await_eq_iff {t : Ticket} {us : List Update} {a : Answer} (ha : a ≠ .missing) :
    await t us = a ↔ us.findSome? (Update.settles? t) = some a := by
  rw [await_eq_findSome?]
  cases us.findSome? (Update.settles? t) with
  | none => simpa using ha.symm
  | some a' => rw [Option.getD_some, Option.some_inj]

/-- An update answers a ticket by its place, and by its generation if it has one. -/
theorem Update.answers_iff {t : Ticket} {u : Update} :
    u.answers t = true ↔
      u.file.place = t.file.place ∧ ∀ g, u.generation? = some g → g = t.generation := by
  rw [Update.answers, Bool.and_eq_true, Path.same_iff]
  refine and_congr_right fun _ => ?_
  cases u.generation? <;> simp

/-- An update that settles a ticket tells the outcome of its generation or dismisses its file. -/
theorem Update.settles?_eq_some {t : Ticket} {u : Update} {a : Answer} (h : u.settles? t = some a) :
    u.file.place = t.file.place ∧
      ((∃ file o, u = .finished file t.generation o ∧ a = .outcome o) ∨
        ∃ file, u = .dismissed file ∧ a = .cancelled) := by
  unfold Update.settles? at h
  split at h
  · next ha =>
    obtain ⟨hplace, hg⟩ := Update.answers_iff.mp ha
    refine ⟨hplace, ?_⟩
    cases u with
    | loading file g => cases h
    | finished file g o => cases h; exact Or.inl ⟨file, o, by rw [hg g rfl], rfl⟩
    | dismissed file => cases h; exact Or.inr ⟨file, rfl, rfl⟩
  · cases h

/-- A dismissal settles every ticket for its place. -/
theorem Update.settles?_dismissed {t : Ticket} {file : Path} (h : file.place = t.file.place) :
    (Update.dismissed file).settles? t = some .cancelled := by
  have ha : (Update.dismissed file).answers t = true :=
    Update.answers_iff.mpr ⟨h, fun g hg => by cases hg⟩
  exact if_pos ha

/-- An outcome settles the ticket of its generation. -/
theorem Update.settles?_finished {t : Ticket} {file : Path} (h : file.place = t.file.place)
    (o : Outcome) : (Update.finished file t.generation o).settles? t = some (.outcome o) := by
  have ha : (Update.finished file t.generation o).answers t = true :=
    Update.answers_iff.mpr ⟨h, fun g hg => by cases hg; rfl⟩
  exact if_pos ha

/-- Where all that can be found is one answer, it is found once an update gives it. -/
theorem findSome?_settles_of_mem {t : Ticket} {us : List Update} {u : Update} {a : Answer}
    (hu : u ∈ us) (hsettles : u.settles? t = some a)
    (only : ∀ a', us.findSome? (Update.settles? t) = some a' → a' = a) :
    us.findSome? (Update.settles? t) = some a := by
  -- Something is found, and all that can be found is this answer.
  have hsome : (us.findSome? (Update.settles? t)).isSome := by
    rw [List.findSome?_isSome_iff]
    exact ⟨u, hu, by rw [hsettles]; rfl⟩
  obtain ⟨a', ha'⟩ := Option.isSome_iff_exists.mp hsome
  rw [ha', only a' ha']

namespace Scheduler

variable {n : Nat} {j : Journal} {es : List Event} {s s' : Scheduler} {e : Event}

/-! ## What a part of a run tells -/

/-- A step adds to the channel, and dismisses a file exactly if it cancels it. -/
theorem Step.tells (step : Step s e s') :
    ∃ new, s'.updates = s.updates ++ new ∧ ∀ file, .dismissed file ∈ new ↔ e = .cancel file := by
  cases step with
  | request file snapshot text hg =>
    refine ⟨_, answered_updates .., fun file' => ?_⟩
    -- Neither answer of a request is a dismissal.
    unfold reply
    split <;> simp
  | fail file why hg => exact ⟨_, failAs_updates .., by simp⟩
  | cancel file => exact ⟨_, cancel_updates .., by simp [eq_comm]⟩
  | tell hj hp hc => exact ⟨_, rfl, by simp⟩
  | _ => exact ⟨[], (List.append_nil _).symm, by simp⟩

/-- Of what events add to the channel, dismissals are of the files that they cancel. -/
theorem steps_updates (h : s.steps es = some s') :
    ∃ new, s'.updates = s.updates ++ new ∧ ∀ file, .dismissed file ∈ new ↔ .cancel file ∈ es := by
  induction es generalizing s with
  | nil => cases h; exact ⟨[], (List.append_nil _).symm, by simp⟩
  | cons e es ih =>
    obtain ⟨t, ht, h⟩ := Option.bind_eq_some_iff.mp h
    obtain ⟨first, hfirst, hdismissed⟩ := (step_of_eq_some ht).tells
    obtain ⟨rest, hrest, hdismissed'⟩ := ih h
    refine ⟨first ++ rest, by rw [hrest, hfirst, List.append_assoc], fun file => ?_⟩
    rw [List.mem_append, List.mem_cons, hdismissed, hdismissed', eq_comm]

/-- In every run a file was dismissed exactly if it was cancelled. -/
theorem Run.mem_updates_dismissed (run : Run n j es s) {file : Path} :
    .dismissed file ∈ s.updates ↔ .cancel file ∈ es := by
  obtain ⟨new, hnew, hdismissed⟩ := steps_updates run.steps
  have hall : s.updates = new := hnew
  rw [hall]
  exact hdismissed file

/-- A generation is told with one outcome. -/
theorem Settled.outcome_ext (h : Settled s) {file file' : Path} {g : Nat} {o o' : Outcome}
    (ho : .finished file g o ∈ s.updates) (ho' : .finished file' g o' ∈ s.updates) : o = o' := by
  have heq := eq_of_nodup_filterMap h.once ho ho' (b := g) rfl rfl
  cases heq
  rfl

/-! ## Before and after the request -/

/-- A file is cancelled in a part of a run. Closing a tab begins with it. -/
def Cancelled (es : List Event) (file : Path) : Prop :=
  ∃ file', file'.place = file.place ∧ .cancel file' ∈ es

variable {t : Ticket} {file : Path} {g : Nat} {o : Outcome}

/-- While the generation of a ticket waits for its call, nothing but dismissals answers the
ticket. -/
theorem Ledger.dismissed_of_answers (l : Ledger es s) (hdrawn : t.generation ∈ s.drawn)
    {u : Update} (hu : u ∈ s.updates) (ha : u.answers t = true) :
    ∃ file', u = .dismissed file' ∧ file'.place = t.file.place := by
  obtain ⟨hplace, hg⟩ := Update.answers_iff.mp ha
  have hnone : u.generation? = none := by
    rw [Option.eq_none_iff_forall_ne_some]
    intro g hgen
    -- What is told with a generation belongs to a call that is over.
    have hticket := l.told u hu g hgen
    rw [hg g hgen] at hticket
    exact l.not_mem_drawn hticket hdrawn
  cases u with
  | loading file' g => cases hnone
  | finished file' g o => cases hnone
  | dismissed file' => exact ⟨file', rfl, hplace⟩

/-- What is told before the request settles the ticket only as cancelled, and exactly if the file
was cancelled. -/
theorem Run.findSome?_before (run : Run n j es s) (hdrawn : t.generation ∈ s.drawn) {a : Answer} :
    s.updates.findSome? (Update.settles? t) = some a ↔ a = .cancelled ∧ Cancelled es t.file := by
  have only : ∀ a, s.updates.findSome? (Update.settles? t) = some a →
      a = .cancelled ∧ Cancelled es t.file := by
    intro a h
    obtain ⟨u, hu, hsettles⟩ := List.exists_of_findSome?_eq_some h
    obtain ⟨hplace, ⟨file', o, rfl, rfl⟩ | ⟨file', rfl, rfl⟩⟩ := Update.settles?_eq_some hsettles
    -- An outcome of the generation is not told before its call.
    · have hused := run.ledger.not_mem_drawn (run.ledger.told _ hu t.generation rfl)
      exact absurd hdrawn hused
    · exact ⟨rfl, file', hplace, run.mem_updates_dismissed.mp hu⟩
  refine ⟨only a, ?_⟩
  rintro ⟨rfl, file', hplace, hcancel⟩
  have hu : .dismissed file' ∈ s.updates := run.mem_updates_dismissed.mpr hcancel
  refine findSome?_settles_of_mem hu (Update.settles?_dismissed hplace) fun a ha => ?_
  exact (only a ha).1

/-- Where no dismissal of its file is told, only the outcome of its generation answers a ticket. -/
theorem Run.await_own (run : Run n j es s) (ht : t ∈ tickets es) {told : List Update}
    (htold : told ⊆ s.updates)
    (quiet : ∀ file', .dismissed file' ∈ told → file'.place ≠ t.file.place) :
    await t told ≠ .cancelled ∧
      ∀ o, await t told = .outcome o ↔ .finished t.file t.generation o ∈ told := by
  -- What settles the ticket is an outcome of its generation, since dismissals are for other files.
  have hown : ∀ a, told.findSome? (Update.settles? t) = some a →
      ∃ o, .finished t.file t.generation o ∈ told ∧ a = .outcome o := by
    intro a h
    obtain ⟨u, hu, hsettles⟩ := List.exists_of_findSome?_eq_some h
    obtain ⟨hplace, ⟨file', o, rfl, rfl⟩ | ⟨file', rfl, rfl⟩⟩ := Update.settles?_eq_some hsettles
    · have hticket := run.ledger.ticket_ext (run.ledger.told _ (htold hu) t.generation rfl) ht rfl
      have hfile : file' = t.file := congrArg Ticket.file hticket
      exact ⟨o, hfile ▸ hu, rfl⟩
    · exact absurd hplace (quiet file' hu)
  refine ⟨fun h => ?_, fun o => ?_⟩
  · obtain ⟨o, -, ho⟩ := hown _ ((await_eq_iff (by simp)).mp h)
    cases ho
  · rw [await_eq_iff (by simp)]
    constructor
    · intro h
      obtain ⟨o', hfinished, ho⟩ := hown _ h
      cases ho
      exact hfinished
    · intro hfinished
      refine findSome?_settles_of_mem hfinished (Update.settles?_finished rfl o) fun a ha => ?_
      -- The first one that is found has the same generation, hence the same outcome.
      obtain ⟨o', hfinished', rfl⟩ := hown a ha
      rw [run.settled.outcome_ext (htold hfinished) (htold hfinished')]

/-- **Waiting from its own request on, a ticket gets its own answer.** Take a run with a request
that hands out a ticket, after which the file is not cancelled, whatever happened to it before.
Then:

* what was told before the request answers the ticket only by dismissals, each of which belongs to
  cancelling the file before the request;
* waiting from the request on never comes to `cancelled`, and it comes to an outcome exactly if this
  is the outcome that was told for the generation of the ticket;
* waiting from the first update on comes to `cancelled` if the file was cancelled before the
  request, and to the same answer otherwise. -/
theorem await_from_own_request {earlier later : List Event} {snapshot : Snapshot}
    {text : Option String}
    (run : (new n j).steps (earlier ++ .request g file snapshot text :: later) = some s)
    (quiet : ¬ Cancelled later file) :
    ∃ s₀ after, (new n j).steps earlier = some s₀ ∧ s.updates = s₀.updates ++ after ∧
      (∀ u ∈ s₀.updates, u.answers ⟨file, g⟩ = true →
        ∃ file', u = .dismissed file' ∧ .cancel file' ∈ earlier) ∧
      await ⟨file, g⟩ after ≠ .cancelled ∧
      (∀ o, await ⟨file, g⟩ after = .outcome o ↔ .finished file g o ∈ s.updates) ∧
      (Cancelled earlier file → await ⟨file, g⟩ s.updates = .cancelled) ∧
      (¬ Cancelled earlier file → await ⟨file, g⟩ s.updates = await ⟨file, g⟩ after) := by
  -- Split the run before the request.
  have hsplit := run
  rw [steps_append] at hsplit
  obtain ⟨s₀, hs₀, hrest⟩ := Option.bind_eq_some_iff.mp hsplit
  obtain ⟨s₁, hs₁, -⟩ := Option.bind_eq_some_iff.mp hrest
  have hdrawn : g ∈ s₀.drawn := (step_of_eq_some hs₁).mem_drawn rfl
  obtain ⟨after, hafter, hdismissed⟩ := steps_updates hrest
  have run₀ := run_of_steps hs₀
  have run := run_of_steps run
  have hticket : ⟨file, g⟩ ∈ tickets (earlier ++ .request g file snapshot text :: later) :=
    mem_tickets.mpr ⟨_, List.mem_append_right _ List.mem_cons_self, rfl⟩
  have hbefore : ∀ u ∈ s₀.updates, u.answers ⟨file, g⟩ = true →
      ∃ file', u = .dismissed file' ∧ .cancel file' ∈ earlier := by
    intro u hu ha
    obtain ⟨file', rfl, -⟩ := run₀.ledger.dismissed_of_answers hdrawn hu ha
    exact ⟨file', rfl, run₀.mem_updates_dismissed.mp hu⟩
  have hfirst : ∀ a, s₀.updates.findSome? (Update.settles? ⟨file, g⟩) = some a ↔
      a = .cancelled ∧ Cancelled earlier file := fun a =>
    run₀.findSome?_before (t := ⟨file, g⟩) hdrawn
  have hsubset : after ⊆ s.updates := hafter ▸ List.subset_append_right ..
  -- From the request on the file is not dismissed.
  obtain ⟨hcancelled, houtcome⟩ := run.await_own hticket hsubset fun file' hu hplace => by
    rcases List.mem_cons.mp ((hdismissed file').mp hu) with h | h
    · cases h
    · exact quiet ⟨file', hplace, h⟩
  refine ⟨s₀, after, hs₀, hafter, hbefore, hcancelled, fun o => ?_, fun hc => ?_, fun hc => ?_⟩
  · rw [houtcome o]
    refine ⟨fun h => hsubset h, fun h => ?_⟩
    rw [hafter] at h
    -- Before the request the outcome cannot have been told, as it answers the ticket.
    refine (List.mem_append.mp h).resolve_left fun hold => ?_
    have ha : (Update.finished file g o).answers ⟨file, g⟩ = true :=
      Update.answers_iff.mpr ⟨rfl, fun g' hg' => by cases hg'; rfl⟩
    obtain ⟨file', heq, -⟩ := hbefore _ hold ha
    cases heq
  -- The first dismissal is found before anything that was told later.
  · rw [await_eq_iff (by simp), hafter, List.findSome?_append,
      (hfirst .cancelled).mpr ⟨rfl, hc⟩, Option.some_or]
  · have hnone : s₀.updates.findSome? (Update.settles? ⟨file, g⟩) = none := by
      rw [Option.eq_none_iff_forall_ne_some]
      exact fun a ha => hc ((hfirst a).mp ha).2
    rw [await_eq_findSome?, hafter, List.findSome?_append, hnone, Option.none_or,
      ← await_eq_findSome?]

/-- A tab is opened and closed again, and a generation is drawn for opening it once more. -/
def closedTab : List Event :=
  [.draw, .request 1 ⟨"p/A"⟩ (.disk ⟨1, 0⟩ 1) none, .acquire 1, .cancel ⟨"p/A"⟩,
    .dropCached ⟨"p/A"⟩, .forget ⟨"p/A"⟩, .draw]

/-- The job of the second request runs to its end, while nobody calls. -/
def reopenedTab : List Event :=
  [.resolve 1 (.outcome .cancelled), .check 1, .acquire 2,
    .resolve 2 (.outcome (.success ⟨"class A", .existing, none⟩)), .check 2, .finish 2]

/-- Waiting from the second request on comes to its outcome. -/
theorem reopened_tab_is_answered :
    ∃ s s₀ after,
      (new 1 .silent).steps (closedTab ++ .request 2 ⟨"p/A"⟩ (.disk ⟨1, 0⟩ 1) none :: reopenedTab) =
        some s ∧
      (new 1 .silent).steps closedTab = some s₀ ∧ s.updates = s₀.updates ++ after ∧
      await ⟨⟨"p/A"⟩, 2⟩ after = .outcome (.success ⟨"class A", .existing, none⟩) ∧
      await ⟨⟨"p/A"⟩, 2⟩ s.updates = .cancelled := by
  have hrun : ((new 1 .silent).steps (closedTab ++
      .request 2 ⟨"p/A"⟩ (.disk ⟨1, 0⟩ 1) none :: reopenedTab)).map updates =
        some [.loading ⟨"p/A"⟩ 1, .dismissed ⟨"p/A"⟩, .loading ⟨"p/A"⟩ 2,
          .finished ⟨"p/A"⟩ 2 (.success ⟨"class A", .existing, none⟩)] := by decide +kernel
  obtain ⟨s, hs, hupdates⟩ := Option.map_eq_some_iff.mp hrun
  have quiet : ¬ Cancelled reopenedTab ⟨"p/A"⟩ := by
    rintro ⟨file', -, hcancel⟩
    simp [reopenedTab] at hcancel
  obtain ⟨s₀, after, hs₀, hafter, -, -, houtcome, hcancelled, -⟩ :=
    await_from_own_request hs quiet
  refine ⟨s, s₀, after, hs, hs₀, hafter, (houtcome _).mpr ?_, hcancelled ?_⟩
  · rw [hupdates]; simp
  · exact ⟨⟨"p/A"⟩, rfl, by simp [closedTab]⟩

/-- Read from the first update on, the ticket of the second request is answered as cancelled by the
dismissal that belongs to the first one, although nobody calls any more and the outcome is told. -/
theorem older_dismissal_answers_newer_ticket :
    (∀ e ∈ reopenedTab, e.worker?.isSome) ∧
    ∃ s, (new 1 .silent).steps (closedTab ++ .request 2 ⟨"p/A"⟩ (.disk ⟨1, 0⟩ 1) none :: reopenedTab) =
        some s ∧
      .finished ⟨"p/A"⟩ 2 (.success ⟨"class A", .existing, none⟩) ∈ s.updates ∧
      await ⟨⟨"p/A"⟩, 2⟩ s.updates = .cancelled := by
  refine ⟨by decide, ?_⟩
  have hrun : ((new 1 .silent).steps (closedTab ++
      .request 2 ⟨"p/A"⟩ (.disk ⟨1, 0⟩ 1) none :: reopenedTab)).map
        (fun s => (s.updates.getLast?, await ⟨⟨"p/A"⟩, 2⟩ s.updates)) =
      some (some (.finished ⟨"p/A"⟩ 2 (.success ⟨"class A", .existing, none⟩)), .cancelled) := by
    decide +kernel
  obtain ⟨s, hs, h⟩ := Option.map_eq_some_iff.mp hrun
  obtain ⟨hlast, hawait⟩ := Prod.mk.inj h
  exact ⟨s, hs, List.mem_of_getLast? hlast, hawait⟩

end Scheduler

end SmaliView
