import SmaliView.Pipeline.Bench
import SmaliView.Proofs.Pipeline.Heeds

/-!
# Cancellation wins

The resolver heeds cancellation as its stages do. For a token that stays fired this decides every
conversion in which it fires while a check is still to come, and after such a check neither a stage
is begun nor a container handed on.
-/

namespace SmaliView

variable {α β σ : Type}

open Plan (Respondent Unaware told checked)

/-- The respondent keeps a token: checks tell whether it has fired, and once it has, it stays so. -/
structure Keeps (respond : Respondent σ) (fired : σ → Bool) : Prop where
  told : ∀ s, Plan.told respond s = fired s
  stays : ∀ q s, fired s = true → fired (respond q s).2 = true

/-! ## Containers are handed on after a check -/

/-- Right before every call of a decompiler the token was checked, and it had not fired. -/
def Guarded (respond : Respondent σ) (l : List (Moment σ)) : Prop :=
  ∀ m ∈ l, (∃ request, m.question = .decompile request) →
    ∃ c, told respond c = false ∧ [⟨c, .isCancelled⟩, m] <:+: l

section

variable {respond : Respondent σ}

/-- Moments that are guarded stay so behind others. -/
theorem Guarded.append {l₁ l₂ : List (Moment σ)} (h₁ : Guarded respond l₁)
    (h₂ : Guarded respond l₂) : Guarded respond (l₁ ++ l₂) := by
  intro m hm hcall
  -- The check stands in the part in which the call does.
  rcases List.mem_append.mp hm with hm | hm
  · obtain ⟨c, hc, hinfix⟩ := h₁ m hm hcall
    exact ⟨c, hc, hinfix.trans (List.prefix_append l₁ l₂).isInfix⟩
  · obtain ⟨c, hc, hinfix⟩ := h₂ m hm hcall
    exact ⟨c, hc, hinfix.trans (List.suffix_append l₁ l₂).isInfix⟩

/-- Without a decompilation there is nothing to guard. -/
theorem guarded_of_forall {l : List (Moment σ)}
    (h : ∀ m ∈ l, ∀ request, m.question ≠ .decompile request) : Guarded respond l := by
  intro m hm hcall
  obtain ⟨request, hrequest⟩ := hcall
  exact absurd hrequest (h m hm request)

end

namespace Plan

variable {respond : Respondent σ}

def Guards (respond : Respondent σ) (p : Plan α) : Prop :=
  ∀ s, Guarded respond (p.moments respond s)

theorem Guards.done (a : α) : Guards respond (.done a) :=
  fun _ => guarded_of_forall fun _ hm => by cases hm

/-- A question that calls no decompiler needs no guard. -/
theorem Guards.question {q : Question} (h : ∀ request, q ≠ .decompile request) :
    Guards respond (question q) := by
  intro s
  refine guarded_of_forall fun m hm request => ?_
  obtain rfl := List.mem_singleton.mp hm
  exact h request

/-- A plan whose parts are guarded is guarded. -/
theorem Guards.bind {p : Plan α} {f : α → Plan β} (hp : Guards respond p)
    (hf : ∀ a, Guards respond (f a)) : Guards respond (p >>= f) := by
  intro s
  rw [moments_bind]
  exact (hp s).append (hf _ _)

end Plan

namespace StagePlan

variable {respond : Respondent σ}

theorem guards_lift {p : Plan α} (hp : Plan.Guards respond p) :
    Plan.Guards respond (liftM p : StagePlan α).run :=
  hp.bind fun _ => Plan.Guards.done _

/-- A plan that can fail is guarded if its parts are. -/
theorem guards_bind {x : StagePlan α} {f : α → StagePlan β} (hx : Plan.Guards respond x.run)
    (hf : ∀ a, Plan.Guards respond (f a).run) : Plan.Guards respond (x >>= f).run := by
  refine Plan.Guards.bind hx fun r => ?_
  cases r with
  | ok a => exact hf a
  | error e => exact Plan.Guards.done _

theorem guards_orSystem (r : Except SystemError α) :
    Plan.Guards respond (StagePlan.orSystem r).run := by
  cases r with
  | ok a => exact Plan.Guards.done _
  | error e => exact Plan.Guards.done _

theorem guards_need {ready : Plan Bool} (tool : ToolLabel) (h : Plan.Guards respond ready) :
    Plan.Guards respond (StagePlan.need ready tool).run := by
  unfold StagePlan.need
  refine guards_bind (guards_lift h) fun b => ?_
  cases b with
  | true => exact Plan.Guards.done _
  | false => exact Plan.Guards.done _

end StagePlan

namespace Pipeline

open StagePlan

variable {respond : Respondent σ}

/-- Reading what a decompiler has answered calls it no more. -/
theorem moments_javaIn (c : ClassName) (answer : DecompileAnswer) (s : σ) :
    ∀ m ∈ (javaIn c answer).run.moments respond s, ∀ request,
      m.question ≠ .decompile request := by
  unfold javaIn
  split
  · rw [run_checkToken_bind, Plan.moments_isCancelled_bind]
    split
    · simp
    · intro m hm request
      rcases List.mem_cons.mp hm with rfl | hm
      · simp
      · obtain rfl := List.mem_singleton.mp hm
        simp
  · intro m hm
    cases hm

/-- Getting the Java source calls the decompiler first and then no more. -/
theorem moments_javaOf (respond : Respondent σ) (c : ClassName) (container scratch : Path)
    (s : σ) : ∃ request rest, (javaOf c container scratch).run.moments respond s =
        ⟨s, .decompile request⟩ :: rest ∧
      ∀ m ∈ rest, ∀ request, m.question ≠ .decompile request := by
  refine ⟨⟨container, scratch / "out", some c⟩, _, rfl, fun m hm => ?_⟩
  -- The call comes first; what follows depends on its answer.
  generalize (respond (.decompile ⟨container, scratch / "out", some c⟩) s).1 = reply at hm
  cases reply with
  | ok answer => exact moments_javaIn c answer _ m hm
  | error f => cases hm

/-- A decompilation after a check is guarded by it. -/
theorem guards_checked_javaOf (c : ClassName) (container scratch : Path) :
    Plan.Guards respond (checkToken >>= fun _ => javaOf c container scratch).run := by
  intro s
  rw [run_checkToken_bind, Plan.moments_isCancelled_bind]
  cases hs : told respond s with
  | true => exact guarded_of_forall (by simp)
  | false =>
    obtain ⟨request, rest, heq, hrest⟩ := moments_javaOf respond c container scratch
      (checked respond s)
    rw [if_neg (by simp), heq]
    intro m hm hcall
    -- The check comes right before the only call.
    have hinfix : [(⟨s, .isCancelled⟩ : Moment σ), ⟨checked respond s, .decompile request⟩] <:+:
        ⟨s, .isCancelled⟩ :: ⟨checked respond s, .decompile request⟩ :: rest :=
      (List.prefix_append _ rest).isInfix
    obtain ⟨request', hm'⟩ := hcall
    rcases List.mem_cons.mp hm with rfl | hm
    · cases hm'
    · rcases List.mem_cons.mp hm with rfl | hm
      · exact ⟨s, hs, hinfix⟩
      · exact absurd hm' (hrest m hm request')

/-- Making a scratch directory and removing it needs no guard. -/
theorem guards_withScratch (p : Pipeline) {work : Path → StagePlan α}
    (h : ∀ dir, Plan.Guards respond (work dir).run) :
    Plan.Guards respond (p.withScratch work).run := by
  refine Plan.Guards.bind (Plan.Guards.question (by simp)) fun tree => ?_
  refine Plan.Guards.bind (Plan.Guards.question (by simp)) fun _ => ?_
  split
  · exact Plan.Guards.done _
  · next dir _ =>
    refine Plan.Guards.bind (h dir) fun result => ?_
    refine Plan.Guards.bind (Plan.Guards.question (by simp)) fun tree => ?_
    exact Plan.Guards.bind (Plan.Guards.question (by simp)) fun _ => Plan.Guards.done _

theorem guards_unitFor (c : ClassName) (scratch file : Path) (text : Option String) :
    Plan.Guards respond (unitFor c scratch file text).run := by
  cases text with
  | none => exact Plan.Guards.done _
  | some text =>
    refine guards_bind (guards_lift (Plan.Guards.question (by simp))) fun tree => ?_
    refine guards_bind (guards_orSystem _) fun tree => ?_
    exact guards_bind (guards_lift (Plan.Guards.question (by simp))) fun _ => Plan.Guards.done _

/-- The container that was assembled is decompiled after a check. -/
theorem guards_assembledSource (c : ClassName) (file : Path) (text : Option String)
    (scratch : Path) : Plan.Guards respond (assembledSource c file text scratch).run := by
  refine guards_bind (guards_unitFor c scratch file text) fun unit => ?_
  refine guards_bind (Plan.Guards.question (by simp)) fun answer => ?_
  split
  · next container _ _ =>
    -- The container is handed on after the check that stands before it.
    rw [← bind_assoc]
    exact guards_bind (guards_checked_javaOf c container scratch) fun text => Plan.Guards.done _
  · exact Plan.Guards.done _

/-- Every decompilation of the first stage is guarded. -/
theorem guards_realtime (p : Pipeline) (probe : Probe) (text : Option String) :
    Plan.Guards respond (p.realtime probe text).run := by
  unfold realtime
  split
  · exact Plan.Guards.done _
  · refine guards_bind (guards_need _ (Plan.Guards.question (by simp))) fun _ => ?_
    refine guards_bind (guards_need _ (Plan.Guards.question (by simp))) fun _ => ?_
    exact guards_withScratch p fun dir => guards_assembledSource _ _ _ dir

/-! ## The resolver -/

variable {p : Pipeline} {probe : Probe} {text : Option String} {stages : List Stage}
  {tried : Progress} {s : σ} {result : Resolution} {ms : List (Moment σ)}

/-- A check that finds the token unfired tells of no cancellation. -/
theorem not_cancels_check (hs : told respond s = false) :
    ¬ (⟨s, .isCancelled⟩ : Moment σ).Cancels respond := by
  intro hcancels
  have hfired : told respond s = true := hcancels
  rw [hs] at hfired
  cases hfired

/-- A stage that ends unmoved, between two checks that find the token unfired, hears nothing of a
cancellation. -/
theorem not_cancels_of_mem_moments {stage : Stage} (hb : told respond s = false)
    (hr : (stageRun respond p probe text stage s).report.result ≠ .error (.error .cancelled))
    (ha : (∀ message,
        (stageRun respond p probe text stage s).report.result ≠ .error (.panic message)) →
      told respond (stageRun respond p probe text stage s).after = false)
    {m : Moment σ} (hm : m ∈ (stageRun respond p probe text stage s).moments) :
    ¬ m.Cancels respond := by
  intro hcancels
  rcases StageRun.mem_moments hm with rfl | hm | ⟨rfl, hpanic⟩
  · exact not_cancels_check hb hcancels
  · exact hr ((heeds_tryStage p probe text stage (checked respond s)).mpr ⟨m, hm, hcancels⟩)
  · exact not_cancels_check (ha hpanic) hcancels

/-- Running out of stages is no cancellation. -/
theorem conclude_ne_cancelled (probe : Probe) (tried : Progress) :
    conclude probe tried ≠ .cancelled := by
  unfold conclude
  split <;> simp

/-- The resolver heeds cancellation. -/
theorem Tried.cancelled_iff (h : Tried respond p probe text stages tried s result ms) :
    result = .outcome .cancelled ↔ ∃ m ∈ ms, m.Cancels respond := by
  induction h with
  | fired hb => exact iff_of_true rfl ⟨_, List.mem_singleton_self _, hb⟩
  | @exhausted tried s hb =>
    refine iff_of_false (by simpa using conclude_ne_cancelled probe tried) ?_
    rintro ⟨m, hm, hcancels⟩
    obtain rfl := List.mem_singleton.mp hm
    exact not_cancels_check hb hcancels
  | panicked hb hr =>
    refine iff_of_false (by simp) ?_
    rintro ⟨m, hm, hcancels⟩
    refine not_cancels_of_mem_moments hb (by simp [hr]) ?_ hm hcancels
    exact fun hpanic => absurd hr (hpanic _)
  | @cancelled stage rest tried s hb hr ha =>
    refine iff_of_true rfl ?_
    rw [StageRun.moments_eq hr]
    -- Either the check after the stage was told so, or the stage was, as it heeds cancellation.
    rcases ha with hfired | hcancelled
    · exact ⟨⟨_, .isCancelled⟩, by simp, hfired⟩
    · obtain ⟨m, hm, hcancels⟩ :=
        (heeds_tryStage p probe text stage (checked respond s)).mp hcancelled
      exact ⟨m, List.mem_cons_of_mem _ (List.mem_append_left _ hm), hcancels⟩
  | found hb hr ha =>
    refine iff_of_false (by simp) ?_
    rintro ⟨m, hm, hcancels⟩
    exact not_cancels_of_mem_moments hb (by simp [hr]) (fun _ => ha) hm hcancels
  | fell hb hr he ha next ih =>
    rw [ih]
    constructor
    · rintro ⟨m, hm, hcancels⟩
      exact ⟨m, List.mem_append_right _ hm, hcancels⟩
    · rintro ⟨m, hm, hcancels⟩
      rcases List.mem_append.mp hm with hm | hm
      -- A stage that fell was left unmoved, so only what comes later counts.
      · refine absurd hcancels (not_cancels_of_mem_moments hb ?_ (fun _ => ha) hm)
        simpa [hr] using he
      · exact ⟨m, hm, hcancels⟩

/-- A conversion that ends with an outcome ends with a check of the token. -/
theorem Tried.checked_last (h : Tried respond p probe text stages tried s result ms) {o : Outcome}
    (ho : result = .outcome o) : ∃ before c, ms = before ++ [⟨c, .isCancelled⟩] := by
  have hclosed : ∀ {r : StageRun σ},
      (∀ message, r.report.result ≠ .error (.panic message)) →
        ∃ before c, r.moments = before ++ [⟨c, .isCancelled⟩] := by
    intro r hr
    exact ⟨⟨r.before, .isCancelled⟩ :: r.inside, r.after, StageRun.moments_eq hr⟩
  induction h with
  | fired hb => exact ⟨[], _, rfl⟩
  | exhausted hb => exact ⟨[], _, rfl⟩
  | panicked hb hr => cases ho
  | cancelled hb hr ha => exact hclosed hr
  | found hb hr ha => exact hclosed (by simp [hr])
  | fell hb hr he ha next ih =>
    obtain ⟨before, c, rfl⟩ := ih ho
    exact ⟨_ ++ before, c, (List.append_assoc ..).symm⟩

/-- What is done belongs to stages that were begun in order, each after a check that found the token
unfired; besides, the token may be checked once more at the end. -/
theorem Tried.begun (h : Tried respond p probe text stages tried s result ms) :
    ∃ begun last, begun <+: stageRuns respond p probe text stages s ∧
      ms = begun.flatMap StageRun.moments ++ last ∧
      (∀ m ∈ last, m.question = .isCancelled) ∧ ∀ r ∈ begun, told respond r.before = false := by
  -- A stage after which the conversion ends is the last one that was begun.
  have hone : ∀ {stage : Stage} {rest : List Stage} {s : σ}, told respond s = false →
      ∃ begun last, begun <+: stageRuns respond p probe text (stage :: rest) s ∧
        (stageRun respond p probe text stage s).moments =
          begun.flatMap StageRun.moments ++ last ∧
        (∀ m ∈ last, m.question = .isCancelled) ∧ ∀ r ∈ begun, told respond r.before = false := by
    intro stage rest s hb
    refine ⟨[stageRun respond p probe text stage s], [], ?_, by simp, by simp, ?_⟩
    · exact (List.prefix_append [_] _)
    · intro r hr
      obtain rfl := List.mem_singleton.mp hr
      exact hb
  induction h with
  | fired hb => exact ⟨[], _, List.nil_prefix, rfl, by simp, by simp⟩
  | exhausted hb => exact ⟨[], _, List.nil_prefix, rfl, by simp, by simp⟩
  | panicked hb hr => exact hone hb
  | cancelled hb hr ha => exact hone hb
  | found hb hr ha => exact hone hb
  | @fell stage rest tried s e result later hb hr he ha next ih =>
    obtain ⟨begun, last, hbegin, rfl, hlast, hbegun⟩ := ih
    refine ⟨stageRun respond p probe text stage s :: begun, last, ?_, ?_, hlast, ?_⟩
    · exact (List.prefix_cons_inj _).mpr hbegin
    · rw [List.flatMap_cons, List.append_assoc]
    · intro r hr
      rcases List.mem_cons.mp hr with rfl | hr
      · exact hb
      · exact hbegun r hr

/-- No attempt that is reported was cancelled. -/
theorem Tried.attempts_ne_cancelled (h : Tried respond p probe text stages tried s result ms)
    (htried : ∀ a ∈ tried.attempts, a.error ≠ .cancelled) {why : Explanation}
    (hwhy : result = .outcome (.notFound why) ∨ result = .outcome (.failed why)) :
    ∀ a ∈ why.attempts, a.error ≠ .cancelled := by
  induction h with
  | fired hb => rcases hwhy with hwhy | hwhy <;> cases hwhy
  | @exhausted tried s hb =>
    have hattempts : why.attempts = tried.attempts := by
      unfold conclude at hwhy
      split at hwhy <;> rcases hwhy with hwhy | hwhy <;> cases hwhy <;> rfl
    rw [hattempts]
    exact htried
  | panicked hb hr => rcases hwhy with hwhy | hwhy <;> cases hwhy
  | cancelled hb hr ha => rcases hwhy with hwhy | hwhy <;> cases hwhy
  | found hb hr ha => rcases hwhy with hwhy | hwhy <;> cases hwhy
  | fell hb hr he ha next ih =>
    refine ih ?_ hwhy
    -- The attempts grow by the one of this stage, which was not cancelled.
    intro a ha
    rcases List.mem_append.mp ha with hold | hnew
    · exact htried a hold
    · obtain rfl := List.mem_singleton.mp hnew
      exact he

/-- The first stage hands a container on only after a check that finds the token unfired. -/
theorem guarded_of_mem_stageRuns {r : StageRun σ}
    (hr : r ∈ stageRuns respond p probe text stages s) (hstage : r.stage = .realtime) :
    Guarded respond r.inside := by
  induction stages generalizing s with
  | nil => cases hr
  | cons stage rest ih =>
    rcases List.mem_cons.mp hr with rfl | hr
    · obtain rfl : stage = .realtime := hstage
      have hguards : Plan.Guards respond (p.tryStage probe text .realtime) :=
        (guards_realtime p probe text).bind fun _ => Plan.Guards.done _
      exact hguards _
    · exact ih hr

/-- **Cancellation wins.** For every token that stays fired once it has, and for every conversion:

* if the token has fired at a moment and a check is still to come, the result is a cancellation;
* a conversion that ends with an outcome ends with a check, so only breaking off can escape this;
* every stage was begun after a check that found the token unfired, and so was every call of a
  decompiler in the first stage, with the container that was assembled before;
* the result is a cancellation only if a check found the token fired or a tool was cancelled;
* a cancellation is never among the attempts that are explained. -/
theorem cancellation_wins {fired : σ → Bool} (keeps : Keeps respond fired) (p : Pipeline)
    (file : Path) (text : Option String) (s : σ) :
    (∀ before m after, (p.resolve file text).moments respond s = before ++ m :: after →
      fired m.state = true → (∃ m' ∈ m :: after, m'.question = .isCancelled) →
      ((p.resolve file text).run respond s).1 = .outcome .cancelled) ∧
    (∀ o, ((p.resolve file text).run respond s).1 = .outcome o →
      ∃ before c, (p.resolve file text).moments respond s = before ++ [⟨c, .isCancelled⟩]) ∧
    (∃ begun last,
      begun <+: chain respond p file text s ∧
      (p.resolve file text).moments respond s =
        (headerText file text).moments respond s ++ begun.flatMap StageRun.moments ++ last ∧
      (∀ m ∈ last, m.question = .isCancelled) ∧
      (∀ r ∈ begun, fired r.before = false) ∧
      ∀ r ∈ begun, r.stage = .realtime →
        ∀ m ∈ r.inside, (∃ request, m.question = .decompile request) →
          ∃ c, fired c = false ∧ [⟨c, .isCancelled⟩, m] <:+: r.inside) ∧
    (((p.resolve file text).run respond s).1 = .outcome .cancelled ↔
      ∃ m ∈ (p.resolve file text).moments respond s, m.Cancels respond) ∧
    (∀ why, ((p.resolve file text).run respond s).1 = .outcome (.notFound why) ∨
        ((p.resolve file text).run respond s).1 = .outcome (.failed why) →
      ∀ a ∈ why.attempts, a.error ≠ .cancelled) := by
  obtain ⟨ms, h, hmoments⟩ := tried_resolve respond p file text s
  -- The resolver begins with the header, which tells of no cancellation.
  have hiff : ((p.resolve file text).run respond s).1 = .outcome .cancelled ↔
      ∃ m ∈ (p.resolve file text).moments respond s, m.Cancels respond := by
    rw [h.cancelled_iff, hmoments]
    constructor
    · rintro ⟨m, hm, hcancels⟩
      exact ⟨m, List.mem_append_right _ hm, hcancels⟩
    · rintro ⟨m, hm, hcancels⟩
      rcases List.mem_append.mp hm with hm | hm
      · -- Looking for the header is never answered by a cancellation.
        obtain ⟨c, q⟩ := m
        obtain rfl : q = .look := question_of_mem_headerText hm
        cases hcancels
      · exact ⟨m, hm, hcancels⟩
  refine ⟨?_, ?_, ?_, hiff, ?_⟩
  · intro before m after heq hfired ⟨m', hm', hcheck⟩
    refine hiff.mpr ⟨m', ?_, ?_⟩
    · rw [heq]
      exact List.mem_append_right _ hm'
    · -- The token has not ceased to be fired until the check.
      have hfired' : fired m'.state = true := by
        rcases List.mem_cons.mp hm' with rfl | hm'
        · exact hfired
        · exact Plan.holds_of_later keeps.stays _ heq hfired hm'
      obtain ⟨c, q⟩ := m'
      obtain rfl : q = .isCancelled := hcheck
      exact (keeps.told c).trans hfired'
  · intro o ho
    obtain ⟨before, c, rfl⟩ := h.checked_last ho
    exact ⟨_ ++ before, c, by rw [hmoments, List.append_assoc]⟩
  · obtain ⟨begun, last, hbegin, rfl, hlast, hbegun⟩ := h.begun
    refine ⟨begun, last, hbegin, ?_, hlast, ?_, ?_⟩
    · rw [hmoments, List.append_assoc]
    · intro r hr
      rw [← keeps.told]
      exact hbegun r hr
    · intro r hr hstage m hm hcall
      obtain ⟨c, hc, hinfix⟩ := guarded_of_mem_stageRuns (hbegin.subset hr) hstage m hm hcall
      exact ⟨c, (keeps.told c).symm.trans hc, hinfix⟩
  · intro why hwhy
    exact h.attempts_ne_cancelled (by simp) hwhy

end Pipeline

/-! ## The bench -/

/-- Tools that leave a token fired that has fired. -/
structure Toolbox.Steady (tools : Toolbox) : Prop where
  assemblerReady : ∀ scene : Scene, scene.token.fired = true →
    (tools.assembler.ready.run scene).2.token.fired = true
  decompilerReady : ∀ scene : Scene, scene.token.fired = true →
    (tools.decompiler.ready.run scene).2.token.fired = true
  assemble : ∀ request (scene : Scene), scene.token.fired = true →
    ((tools.assembler.assemble request).run.run scene).2.token.fired = true
  decompile : ∀ request (scene : Scene), scene.token.fired = true →
    ((tools.decompiler.decompile request).run.run scene).2.token.fired = true

/-- Finding out whether a tool is ready does not bring a fired token back. -/
theorem Bench.fired_known {memory : Bench → Option Bool} {remember : Bench → Bool → Bench}
    {ask : Act Bool} (steady : ∀ scene : Scene, scene.token.fired = true →
      (ask.run scene).2.token.fired = true) (turn : Bench.Turn) (h : turn.2.fired = true) :
    ((Bench.known memory remember ask).run turn).2.2.fired = true := by
  obtain ⟨bench, token⟩ := turn
  unfold Bench.known
  -- A tool that has answered before is not asked again.
  cases hm : memory bench with
  | some ready =>
    simp only [StateT.run_bind, StateT.run_get, pure_bind, hm]
    exact h
  | none =>
    simp only [StateT.run_bind, StateT.run_get, pure_bind, hm]
    exact steady ⟨bench.tree, token⟩ h

/-- With such tools the bench keeps the token. -/
theorem Toolbox.Steady.keeps {tools : Toolbox} (steady : tools.Steady) :
    Keeps (Bench.respond tools) fun turn => turn.2.fired where
  told _ := rfl
  stays q turn h := by
    obtain ⟨bench, token⟩ := turn
    cases q with
    | isCancelled => exact h
    | look => exact h
    | change tree => exact h
    | assemblerReady => exact Bench.fired_known steady.assemblerReady _ h
    | decompilerReady => exact Bench.fired_known steady.decompilerReady _ h
    | assemble request => exact steady.assemble request _ h
    | decompile request => exact steady.decompile request _ h

/-- An assembler that succeeds while the token fires, and a decompiler that would succeed, too. -/
def overtakenTools : Toolbox where
  assembler := {
    label := ⟨"assembler", "install it"⟩
    ready := return true
    assemble := fun request => do
      modify fun scene => { scene with token := .spent }
      return { status := .success, container := some request.output } }
  decompiler := {
    label := ⟨"decompiler", "install it"⟩
    ready := return true
    decompile := fun request => return { status := .success, tree := some request.output } }

theorem overtakenTools_steady : overtakenTools.Steady where
  assemblerReady _ h := h
  decompilerReady _ h := h
  assemble _ _ _ := rfl
  decompile _ _ h := h

/-- The files of a project with one unit, and a directory for scratch directories. -/
def unitTree : FileTree where
  entries := ⟨[(["tmp"], .directory), (["p"], .directory), (["p", "smali"], .directory),
    (["p", "smali", "A.smali"], .file [] ⟨0, 0⟩ {})]⟩

/-- The token fires while the unit is assembled: that is all that comes of it. -/
theorem overtaken_assembly_is_cancelled :
    Keeps (Bench.respond overtakenTools) (fun turn => turn.2.fired) ∧
      ((Pipeline.plain.resolve ⟨"/p/smali/A.smali"⟩ none).run (Bench.respond overtakenTools)
        ({ tree := unitTree }, {})).1 = .outcome .cancelled ∧
      ∃ m ∈ (Pipeline.plain.resolve ⟨"/p/smali/A.smali"⟩ none).moments
        (Bench.respond overtakenTools) ({ tree := unitTree }, {}),
          m.Cancels (Bench.respond overtakenTools) := by
  have hresult : ((Pipeline.plain.resolve ⟨"/p/smali/A.smali"⟩ none).run
      (Bench.respond overtakenTools) ({ tree := unitTree }, {})).1 = .outcome .cancelled := by
    decide +kernel
  have h := Pipeline.cancellation_wins overtakenTools_steady.keeps Pipeline.plain
    ⟨"/p/smali/A.smali"⟩ none ({ tree := unitTree }, {})
  exact ⟨overtakenTools_steady.keeps, hresult, h.2.2.2.1.mp hresult⟩

end SmaliView
