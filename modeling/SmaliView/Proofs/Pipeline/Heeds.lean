import SmaliView.Proofs.Pipeline.StageRuns

/-!
# Heeding cancellation

A plan *heeds* cancellation if its answer is a cancellation exactly when it was told of one, be it
by a check of the token or by a tool. Plans that do are put together from plans that do, and all
three stages are among them.
-/

namespace SmaliView

variable {α β σ : Type}

/-- The answer tells that the conversion was given up: a check finds that the token has fired, or a
tool was cancelled. -/
def Question.Cancels : (q : Question) → q.Answer → Prop
  | .isCancelled, fired => fired = true
  | .assemble _, reply => reply = .error (.error .cancelled)
  | .decompile _, reply => reply = .error (.error .cancelled)
  | _, _ => False

def Moment.Cancels (respond : Plan.Respondent σ) (m : Moment σ) : Prop :=
  m.question.Cancels (m.answer respond)

namespace Plan

variable {respond : Respondent σ}

/-- The answer of a plan is a cancellation exactly if one of its moments tells of one. -/
def Heeds (respond : Respondent σ) (p : Plan α) (cancelled : α → Prop) : Prop :=
  ∀ s, cancelled (p.run respond s).1 ↔ ∃ m ∈ p.moments respond s, m.Cancels respond

/-- A plan that asks nothing is not cancelled. -/
theorem Heeds.done {cancelled : α → Prop} {a : α} (h : ¬ cancelled a) :
    Heeds respond (.done a) cancelled := by
  intro s
  rw [run_done, moments_done]
  simp [h]

/-- Every question heeds what its own answer tells. -/
theorem Heeds.question (q : Question) : Heeds respond (question q) q.Cancels := by
  intro s
  show q.Cancels (respond q s).1 ↔ ∃ m ∈ [(⟨s, q⟩ : Moment σ)], m.Cancels respond
  constructor
  · intro h
    exact ⟨⟨s, q⟩, List.mem_singleton_self _, h⟩
  · rintro ⟨m, hm, h⟩
    obtain rfl := List.mem_singleton.mp hm
    exact h

/-- A plan that is cancelled at its end stops, and one that is not has heard nothing so far. -/
theorem Heeds.bind {p : Plan α} {f : α → Plan β} {c : α → Prop} {d : β → Prop}
    (hp : Heeds respond p c) (stop : ∀ a, c a → ∀ s, d ((f a).run respond s).1)
    (go : ∀ a, ¬ c a → Heeds respond (f a) d) : Heeds respond (p >>= f) d := by
  intro s
  rw [run_bind, moments_bind]
  by_cases hc : c (p.run respond s).1
  · obtain ⟨m, hm, hcancels⟩ := (hp s).mp hc
    exact iff_of_true (stop _ hc _) ⟨m, List.mem_append_left _ hm, hcancels⟩
  · rw [go _ hc]
    -- The first part has not ended as cancelled, so none of its moments has told so.
    have hquiet : ∀ m ∈ p.moments respond s, ¬ m.Cancels respond := by
      intro m hm hcancels
      exact hc ((hp s).mpr ⟨m, hm, hcancels⟩)
    constructor
    · rintro ⟨m, hm, hcancels⟩
      exact ⟨m, List.mem_append_right _ hm, hcancels⟩
    · rintro ⟨m, hm, hcancels⟩
      rcases List.mem_append.mp hm with hfirst | hrest
      · exact absurd hcancels (hquiet m hfirst)
      · exact ⟨m, hrest, hcancels⟩

/-- Nothing that the plan asks can tell of a cancellation. -/
abbrev Unaware (respond : Respondent σ) (p : Plan α) : Prop := Heeds respond p fun _ => False

/-- What cannot tell of a cancellation may go before anything else. -/
theorem Unaware.bind {p : Plan α} {f : α → Plan β} {d : β → Prop} (hp : Unaware respond p)
    (hf : ∀ a, Heeds respond (f a) d) : Heeds respond (p >>= f) d :=
  Heeds.bind hp (fun _ h => h.elim) fun a _ => hf a

end Plan

open Plan (Respondent Unaware)

/-! ## Plans that can fail -/

namespace StagePlan

variable {respond : Respondent σ}

/-- A plan that can fail ends as cancelled exactly if one of its moments tells so. -/
def Heeds (respond : Respondent σ) (x : StagePlan α) : Prop :=
  Plan.Heeds respond x.run (· = .error (.error .cancelled))

theorem Heeds.pure (a : α) : Heeds respond (Pure.pure a : StagePlan α) :=
  Plan.Heeds.done (by simp)

/-- A failure of another kind is no cancellation. -/
theorem Heeds.fail {e : StageError} (he : e ≠ .cancelled) :
    Heeds respond (StagePlan.fail e : StagePlan α) :=
  Plan.Heeds.done (by simpa using he)

/-- A refusal of the system is no cancellation. -/
theorem Heeds.orSystem (r : Except SystemError α) : Heeds respond (StagePlan.orSystem r) := by
  cases r with
  | ok a => exact Heeds.pure a
  | error e => exact Plan.Heeds.done (by simp [Failure.system])

theorem Heeds.lift {p : Plan α} (hp : Unaware respond p) :
    Heeds respond (liftM p : StagePlan α) :=
  hp.bind fun _ => Plan.Heeds.done (by simp)

/-- A plan that can fail heeds cancellation if its parts do; a failure ends it. -/
theorem Heeds.bind {x : StagePlan α} {f : α → StagePlan β} (hx : Heeds respond x)
    (hf : ∀ a, Heeds respond (f a)) : Heeds respond (x >>= f) := by
  refine Plan.Heeds.bind hx ?_ ?_
  · rintro _ rfl s
    rfl
  · intro r hr
    cases r with
    | ok a => exact hf a
    | error e => exact Plan.Heeds.done (by simpa using hr)

/-- A check that finds the token fired ends the plan as cancelled. -/
theorem Heeds.checkToken_bind {f : Unit → StagePlan α} (hf : Heeds respond (f ())) :
    Heeds respond (checkToken >>= f) := by
  unfold Heeds
  rw [run_checkToken_bind]
  refine Plan.Heeds.bind (Plan.Heeds.question .isCancelled) ?_ ?_
  · rintro _ rfl s
    rfl
  · intro fired hfired
    have hfired : ¬ fired = true := hfired
    rw [if_neg hfired]
    exact hf

/-- A missing tool is no cancellation. -/
theorem Heeds.need {ready : Plan Bool} (tool : ToolLabel) (h : Unaware respond ready) :
    Heeds respond (StagePlan.need ready tool) := by
  unfold StagePlan.need
  refine Heeds.bind (Heeds.lift h) fun b => ?_
  cases b with
  | true => exact Heeds.pure ()
  | false => exact Heeds.fail (by simp [ToolLabel.missing])

end StagePlan

namespace Pipeline

open StagePlan (Heeds)

variable {respond : Respondent σ}

/-- Extraction looks at the files only, and is never cancelled. -/
theorem extract_ne_cancelled (files : FileTree) (tree : Path) (c : ClassName) :
    extract files tree c ≠ .error (.error .cancelled) := by
  unfold extract
  split
  · next path _ =>
    cases files.read path with
    | ok content => simp [Except.map, Except.mapError]
    | error e => simp [Except.map, Except.mapError, Failure.system]
  · simp

/-- Getting the Java source is cancelled by the decompiler or by the check after it. -/
theorem heeds_javaOf (c : ClassName) (container scratch : Path) :
    Heeds respond (javaOf c container scratch) := by
  refine Heeds.bind (Plan.Heeds.question (.decompile _)) fun answer => ?_
  unfold javaIn
  split
  · refine Heeds.checkToken_bind ?_
    refine Unaware.bind (Plan.Heeds.question .look) fun files => ?_
    exact Plan.Heeds.done (extract_ne_cancelled _ _ _)
  · exact Heeds.fail (by simp)

/-- The scratch directory adds nothing to what the work in it heeds. -/
theorem heeds_withScratch (p : Pipeline) {work : Path → StagePlan α}
    (h : ∀ dir, Heeds respond (work dir)) : Heeds respond (p.withScratch work) := by
  refine Unaware.bind (Plan.Heeds.question .look) fun tree => ?_
  refine Unaware.bind (Plan.Heeds.question (.change _)) fun _ => ?_
  split
  · exact Plan.Heeds.done (by simp [Failure.system])
  · next dir _ =>
    -- The directory is removed whatever the work came to.
    refine Plan.Heeds.bind (h dir) ?_ ?_
    · rintro _ rfl s
      rfl
    · -- Nothing that is asked to remove the directory tells of a cancellation.
      intro result hresult
      refine Unaware.bind (Plan.Heeds.question .look) fun tree => ?_
      exact Unaware.bind (Plan.Heeds.question (.change _)) fun _ => Plan.Heeds.done hresult

/-- Writing the unit is not cancelled. -/
theorem heeds_unitFor (c : ClassName) (scratch file : Path) (text : Option String) :
    Heeds respond (unitFor c scratch file text) := by
  -- Editor text is written, which can fail but is never cancelled.
  cases text with
  | none => exact Heeds.pure file
  | some text =>
    refine Heeds.bind (Heeds.lift (Plan.Heeds.question .look)) fun tree => ?_
    refine Heeds.bind (Heeds.orSystem _) fun tree => ?_
    refine Heeds.bind (Heeds.lift (Plan.Heeds.question (.change tree))) fun _ => ?_
    exact Heeds.pure _

/-- Assembling is cancelled by the assembler, by the check after it or while decompiling. -/
theorem heeds_assembledSource (c : ClassName) (file : Path) (text : Option String)
    (scratch : Path) : Heeds respond (assembledSource c file text scratch) := by
  refine Heeds.bind (heeds_unitFor c scratch file text) fun unit => ?_
  refine Heeds.bind (Plan.Heeds.question (.assemble _)) fun answer => ?_
  -- An assembler that answers without a container has failed.
  split
  · refine Heeds.checkToken_bind ?_
    exact Heeds.bind (heeds_javaOf _ _ _) fun text => Heeds.pure _
  · exact Heeds.fail (by simp)

/-- The first stage heeds cancellation. -/
theorem heeds_realtime (p : Pipeline) (probe : Probe) (text : Option String) :
    Heeds respond (p.realtime probe text) := by
  unfold realtime
  split
  · exact Heeds.fail (by simp)
  · refine Heeds.bind (Heeds.need _ (Plan.Heeds.question .assemblerReady)) fun _ => ?_
    refine Heeds.bind (Heeds.need _ (Plan.Heeds.question .decompilerReady)) fun _ => ?_
    exact heeds_withScratch p fun dir => heeds_assembledSource _ _ _ dir

/-! ## The stages -/

/-- A file without a date makes the conversion break off, which is no cancellation. -/
theorem ofInfo_ne_cancelled (cal : Calendar) (path : Path) (info : FileInfo) :
    Origin.ofInfo cal path info ≠ .error (.error .cancelled) := by
  unfold Origin.ofInfo
  split <;> simp

/-- Decompiling a container is cancelled as its decompilation is. -/
theorem heeds_containerSource (p : Pipeline) (c : ClassName) (container : Path)
    (info : FileInfo) : Heeds respond (p.containerSource c container info) := by
  refine Heeds.bind (heeds_withScratch p fun dir => heeds_javaOf _ _ _) fun text => ?_
  refine Heeds.bind (Plan.Heeds.done (ofInfo_ne_cancelled _ _ _)) fun origin => ?_
  exact Heeds.pure _

/-- Reading a source that is there is never cancelled. -/
theorem sourceAt_ne_cancelled (cal : Calendar) (tree : FileTree) (path : Path) :
    sourceAt cal tree path ≠ .error (.error .cancelled) := by
  unfold sourceAt
  cases tree.info path with
  | error e => simp [Except.mapError, Failure.system, bind, Except.bind]
  | ok info =>
    cases tree.read path with
    | error e => simp [Except.mapError, Failure.system, bind, Except.bind]
    | ok content =>
      cases h : Origin.ofInfo cal path info with
      | ok origin => simp [Except.mapError, h, bind, Except.bind, pure, Except.pure]
      | error e =>
        have := ofInfo_ne_cancelled cal path info
        simp_all [Except.mapError, bind, Except.bind]

/-- What a report says is that the stage was cancelled. -/
def Report.Cancelled (r : Report) : Prop := r.result = .error (.error .cancelled)

/-- The second stage heeds cancellation. -/
theorem heeds_enclosing (p : Pipeline) (probe : Probe) :
    Plan.Heeds respond (p.enclosing probe) Report.Cancelled := by
  unfold enclosing
  split
  · exact Plan.Heeds.done (by simp [Report.Cancelled, classUnknown])
  · next c _ =>
    refine Unaware.bind (Plan.Heeds.question .decompilerReady) fun ready => ?_
    split
    · refine Unaware.bind (Plan.Heeds.question .look) fun tree => ?_
      dsimp only
      split
      · exact Plan.Heeds.done (by simp [Report.Cancelled])
      · next container info _ =>
        refine Plan.Heeds.bind (heeds_containerSource p c container info) ?_ ?_
        · rintro _ rfl s
          rfl
        · exact fun result hresult => Plan.Heeds.done hresult
    · exact Plan.Heeds.done (by simp [Report.Cancelled, ToolLabel.missing])

/-- The third stage is never cancelled, and nothing that it asks tells so. -/
theorem heeds_existing (p : Pipeline) (probe : Probe) :
    Plan.Heeds respond (p.existing probe) Report.Cancelled := by
  unfold existing
  split
  · exact Plan.Heeds.done (by simp [Report.Cancelled, classUnknown])
  · refine Unaware.bind (Plan.Heeds.question .look) fun tree => ?_
    dsimp only
    split
    · next path _ => exact Plan.Heeds.done (sourceAt_ne_cancelled p.calendar tree path)
    · exact Plan.Heeds.done (by simp [Report.Cancelled])

/-- Every stage heeds cancellation. -/
theorem heeds_tryStage (p : Pipeline) (probe : Probe) (text : Option String) (stage : Stage) :
    Plan.Heeds respond (p.tryStage probe text stage) Report.Cancelled := by
  cases stage with
  | realtime =>
    refine Plan.Heeds.bind (heeds_realtime p probe text) ?_ ?_
    · rintro _ rfl s
      rfl
    · exact fun result hresult => Plan.Heeds.done hresult
  | container => exact heeds_enclosing p probe
  | existing => exact heeds_existing p probe

end Pipeline

end SmaliView
