import SmaliView.Proofs.Pipeline.Heeds
import SmaliView.Proofs.Pipeline.StageResults

/-!
# The first stage that succeeds

In a conversion that is not given up, with tools that do not break off, the result is that of the
first stage that succeeds, and no later stage is begun. When all stages fail, their errors are
explained. A stage that breaks off, for the file it has taken has a time without a date, ends the
conversion without an outcome.
-/

namespace SmaliView

variable {σ : Type}

open Plan (Respondent told checked)

def StageRun.Fails (r : StageRun σ) (e : StageError) : Prop := r.report.result = .error (.error e)

namespace Pipeline

variable {respond : Respondent σ} {p : Pipeline} {probe : Probe} {text : Option String}
  {stages : List Stage} {tried : Progress} {s : σ} {result : Resolution} {ms : List (Moment σ)}

/-! ## Along the chain -/

/-- A conversion that hears nothing of a cancellation goes on exactly if a stage fails. -/
theorem Tried.unmoved {stage : Stage} {rest : List Stage}
    (h : Tried respond p probe text (stage :: rest) tried s result ms)
    (calm : ∀ m ∈ ms, ¬ m.Cancels respond) :
    (∃ source, (stageRun respond p probe text stage s).report.result = .ok source ∧
      result = .outcome (.success source) ∧
      ms = (stageRun respond p probe text stage s).moments) ∨
    (∃ message, (stageRun respond p probe text stage s).report.result = .error (.panic message) ∧
      result = .panicked message ∧ ms = (stageRun respond p probe text stage s).moments) ∨
    (∃ e later, (stageRun respond p probe text stage s).Fails e ∧
      Tried respond p probe text rest
        ⟨tried.attempts ++ [⟨stage, e⟩],
          tried.searched ++ (stageRun respond p probe text stage s).report.searched⟩
        (checked respond (stageRun respond p probe text stage s).after) result later ∧
      ms = (stageRun respond p probe text stage s).moments ++ later) := by
  cases h with
  | fired hb => exact absurd hb (calm _ (List.mem_singleton_self _))
  | panicked hb hr => exact Or.inr (Or.inl ⟨_, hr, rfl, rfl⟩)
  | cancelled hb hr ha =>
    rw [StageRun.moments_eq hr] at calm
    -- Both ways of being cancelled would have been heard.
    rcases ha with hfired | hcancelled
    · exact absurd hfired (calm ⟨_, .isCancelled⟩ (by simp))
    · obtain ⟨m, hm, hcancels⟩ :=
        (heeds_tryStage p probe text stage (checked respond s)).mp hcancelled
      exact absurd hcancels (calm m (List.mem_cons_of_mem _ (List.mem_append_left _ hm)))
  | found hb hr ha => exact Or.inl ⟨_, hr, rfl, rfl⟩
  | fell hb hr he ha next => exact Or.inr (Or.inr ⟨_, _, hr, next, rfl⟩)

/-- Stages that fail are left behind, each with its error. -/
theorem Tried.skip {before after : List (StageRun σ)} {errors : List StageError}
    (hfail : List.Forall₂ StageRun.Fails before errors)
    (h : Tried respond p probe text stages tried s result ms)
    (calm : ∀ m ∈ ms, ¬ m.Cancels respond)
    (hruns : stageRuns respond p probe text stages s = before ++ after) :
    ∃ stages' tried' s' later, stageRuns respond p probe text stages' s' = after ∧
      Tried respond p probe text stages' tried' s' result later ∧
      ms = before.flatMap StageRun.moments ++ later ∧
      tried'.attempts =
        tried.attempts ++ List.zipWith (fun r e => ⟨r.stage, e⟩) before errors := by
  induction hfail generalizing stages tried s ms with
  | nil => exact ⟨stages, tried, s, ms, hruns, h, rfl, (List.append_nil _).symm⟩
  | @cons r e before errors hr _ ih =>
    cases stages with
    | nil => cases hruns
    | cons stage rest =>
      -- The first stage is the first of those that fail, so the conversion goes on from its error.
      obtain ⟨hhead, htail⟩ := List.cons.inj hruns
      subst hhead
      rcases h.unmoved calm with ⟨source, hok, -⟩ | ⟨message, hpanic, -⟩ | ⟨e', later, he, hnext, rfl⟩
      · cases hr.symm.trans hok
      · cases hr.symm.trans hpanic
      · cases hr.symm.trans he
        have calm' : ∀ m ∈ later, ¬ m.Cancels respond :=
          fun m hm => calm m (List.mem_append_right _ hm)
        obtain ⟨stages', tried', s', later', hruns', htried, rfl, hattempts⟩ :=
          ih hnext calm' htail
        refine ⟨stages', tried', s', later', hruns', htried, ?_, ?_⟩
        · rw [List.flatMap_cons, List.append_assoc]
        · rw [hattempts, List.zipWith_cons_cons, List.append_assoc]
          rfl

/-- The first stage that does not fail ends the conversion. -/
theorem Tried.first {before after : List (StageRun σ)} {r : StageRun σ} {errors : List StageError}
    (h : Tried respond p probe text stages tried s result ms)
    (calm : ∀ m ∈ ms, ¬ m.Cancels respond)
    (hruns : stageRuns respond p probe text stages s = before ++ r :: after)
    (hfail : List.Forall₂ StageRun.Fails before errors) :
    (∀ source, r.report.result = .ok source →
      result = .outcome (.success source) ∧ ms = (before ++ [r]).flatMap StageRun.moments) ∧
    (∀ message, r.report.result = .error (.panic message) →
      result = .panicked message ∧ ms = (before ++ [r]).flatMap StageRun.moments) := by
  obtain ⟨stages', tried', s', later, hruns', htried, rfl, -⟩ := h.skip hfail calm hruns
  have calm' : ∀ m ∈ later, ¬ m.Cancels respond := fun m hm => calm m (List.mem_append_right _ hm)
  cases stages' with
  | nil => cases hruns'
  | cons stage rest =>
    obtain ⟨hhead, -⟩ := List.cons.inj hruns'
    subst hhead
    rw [List.flatMap_append, List.flatMap_singleton]
    -- Once the stages before are left behind, what this one comes to decides.
    rcases htried.unmoved calm' with
      ⟨source, hok, rfl, rfl⟩ | ⟨message, hpanic, rfl, rfl⟩ | ⟨e, later', he, -⟩
    · constructor
      · intro source' hsource
        cases hok.symm.trans hsource
        exact ⟨rfl, rfl⟩
      · intro message hmessage
        cases hok.symm.trans hmessage
    · constructor
      · intro source hsource
        cases hpanic.symm.trans hsource
      · intro message' hmessage
        cases hpanic.symm.trans hmessage
        exact ⟨rfl, rfl⟩
    · constructor
      · intro source hsource
        cases he.symm.trans hsource
      · intro message hmessage
        cases he.symm.trans hmessage

/-- When all stages fail, the result is concluded from their errors. -/
theorem Tried.exhausted_of_fails {errors : List StageError}
    (h : Tried respond p probe text stages tried s result ms)
    (calm : ∀ m ∈ ms, ¬ m.Cancels respond)
    (hfail : List.Forall₂ StageRun.Fails (stageRuns respond p probe text stages s) errors) :
    ∃ tried', result = .outcome (conclude probe tried') ∧
      tried'.attempts = tried.attempts ++ List.zipWith (fun r e => ⟨r.stage, e⟩)
        (stageRuns respond p probe text stages s) errors := by
  obtain ⟨stages', tried', s', later, hruns', htried, rfl, hattempts⟩ :=
    h.skip hfail calm (List.append_nil _).symm
  cases stages' with
  | cons stage rest => cases hruns'
  | nil =>
    cases htried with
    | fired hb =>
      exact absurd hb (calm _ (List.mem_append_right _ (List.mem_singleton_self _)))
    | exhausted hb => exact ⟨tried', rfl, hattempts⟩

/-- What the stages in the chain come to. -/
theorem settles_of_mem_stageRuns {r : StageRun σ}
    (hr : r ∈ stageRuns respond p probe text stages s)
    (whole : ∀ m ∈ r.inside, ¬ m.Breaks respond) :
    Settles
      (fun c => c.provenance = r.stage.provenance ∧
        (r.stage ≠ .realtime →
          Takes respond p probe r.stage r.inside fun t => ∃ u, p.calendar.dateTime t = .ok u))
      (fun message =>
        Takes respond p probe r.stage r.inside fun t => p.calendar.dateTime t = .error message)
      r.report.result := by
  induction stages generalizing s with
  | nil => cases hr
  | cons stage rest ih =>
    -- Each stage of the chain was carried out on its own, between two checks.
    rcases List.mem_cons.mp hr with rfl | hr
    · have hensures := ensures_tryStage (fun _ hm => hm) whole p probe text stage
      exact hensures (checked respond s) fun m hm => hm
    · exact ih hr

/-! ## Explanations -/

/-- Hints that are given are kept. -/
theorem subset_addHint (hints : List String) (a : Attempt) : hints ⊆ addHint hints a := by
  unfold addHint
  split
  · split
    · exact List.Subset.refl hints
    · exact List.subset_append_left hints _
  · exact List.Subset.refl hints

/-- The hint of an attempt is among those given. -/
theorem mem_addHint {a : Attempt} {hint : String} (hints : List String)
    (hhint : a.error.hint? = some hint) : hint ∈ addHint hints a := by
  unfold addHint
  rw [hhint]
  dsimp only
  split
  · next h => exact h
  · exact List.mem_append_right _ (List.mem_singleton_self hint)

theorem subset_foldl_addHint (attempts : List Attempt) (hints : List String) :
    hints ⊆ attempts.foldl addHint hints := by
  induction attempts generalizing hints with
  | nil => exact List.Subset.refl hints
  | cons a attempts ih => exact List.Subset.trans (subset_addHint hints a) (ih _)

/-- Every hint of a missing tool is given. -/
theorem mem_toolHints {attempts : List Attempt} {a : Attempt} (ha : a ∈ attempts) {hint : String}
    (hhint : a.error.hint? = some hint) : hint ∈ toolHints attempts := by
  obtain ⟨before, after, rfl⟩ := List.append_of_mem ha
  unfold toolHints
  -- Once it was added the hint stays.
  rw [List.foldl_append, List.foldl_cons]
  exact subset_foldl_addHint after _ (mem_addHint _ hhint)

/-! ## The theorem -/

/-- **The result is that of the first stage that succeeds.** In every lawful calendar, for every
conversion that hears nothing of a cancellation, with tools that do not break off:

* the stages are those of the chain, in order;
* if one of them gives Java source after all before it have failed, this is the result, with its
  provenance, and no later stage is begun; a file that it has taken has a date;
* if one of them breaks off instead, it is a stage that has taken a file whose time has no date, and
  so is not an ordinary one;
* if all of them fail, their errors are the attempts that are explained, each with its stage; the
  conversion has failed if one of them is unexpected, and otherwise nothing was found. -/
theorem resolve_is_first_success (p : Pipeline) (lawful : p.calendar.Lawful) (file : Path)
    (text : Option String) (s : σ)
    (calm : ∀ m ∈ (p.resolve file text).moments respond s,
      ¬ m.Cancels respond ∧ ¬ m.Breaks respond) :
    (chain respond p file text s).map StageRun.stage = Stage.all ∧
    (∀ before r after errors, chain respond p file text s = before ++ r :: after →
      List.Forall₂ StageRun.Fails before errors →
      (∀ source, r.report.result = .ok source →
        ((p.resolve file text).run respond s).1 = .outcome (.success source) ∧
        source.provenance = r.stage.provenance ∧
        (r.stage ≠ .realtime →
          Takes respond p (probeFrom respond file text s) r.stage r.inside
            fun t => p.calendar.dateTime t = .ok t) ∧
        (p.resolve file text).moments respond s = (headerText file text).moments respond s ++
          (before ++ [r]).flatMap StageRun.moments) ∧
      (∀ message, r.report.result = .error (.panic message) →
        ((p.resolve file text).run respond s).1 = .panicked message ∧
        Takes respond p (probeFrom respond file text s) r.stage r.inside
          fun t => p.calendar.dateTime t = .error message ∧ ¬ t.IsOrdinary)) ∧
    (∀ e₁ e₂ e₃, List.Forall₂ StageRun.Fails (chain respond p file text s) [e₁, e₂, e₃] →
      ∃ why, ((p.resolve file text).run respond s).1 =
          .outcome (if e₁.isUnexpected || e₂.isUnexpected || e₃.isUnexpected then .failed why
            else .notFound why) ∧
        why.attempts = [⟨.realtime, e₁⟩, ⟨.container, e₂⟩, ⟨.existing, e₃⟩] ∧
        ∀ a ∈ why.attempts, ∀ hint, a.error.hint? = some hint → hint ∈ why.hints) := by
  obtain ⟨ms, h, hmoments⟩ := tried_resolve respond p file text s
  have hcalm : ∀ m ∈ ms, ¬ m.Cancels respond := by
    intro m hm
    exact (calm m (hmoments ▸ List.mem_append_right _ hm)).1
  refine ⟨stageRuns_map_stage .., ?_, ?_⟩
  · intro before r after errors hruns hfail
    obtain ⟨hok, hpanic⟩ := h.first hcalm hruns hfail
    have hmem : r ∈ chain respond p file text s := by
      rw [hruns]
      exact List.mem_append_right _ (List.mem_cons_self ..)
    -- If the stage was the last one to be begun, its moments are moments of the conversion.
    have hwhole : ms = (before ++ [r]).flatMap StageRun.moments →
        ∀ m ∈ r.inside, ¬ m.Breaks respond := by
      intro hms m hm
      refine (calm m ?_).2
      rw [hmoments, hms]
      refine List.mem_append_right _ (List.mem_flatMap.mpr ⟨r, by simp, ?_⟩)
      exact StageRun.mem_moments_of_mem_inside hm
    constructor
    · intro source hsource
      obtain ⟨hresult, hms⟩ := hok source hsource
      have hsettles := settles_of_mem_stageRuns hmem (hwhole hms)
      rw [hsource] at hsettles
      cases hsettles with
      | ok h =>
        refine ⟨hresult, h.1, fun hstage => (h.2 hstage).mono ?_, by rw [hmoments, hms]⟩
        rintro t ⟨u, hu⟩
        rw [hu, lawful.keeps hu]
    · intro message hmessage
      obtain ⟨hresult, hms⟩ := hpanic message hmessage
      have hsettles := settles_of_mem_stageRuns hmem (hwhole hms)
      rw [hmessage] at hsettles
      cases hsettles with
      | panic h => exact ⟨hresult, h.mono fun t ht => ⟨ht, lawful.not_isOrdinary ht⟩⟩
  -- There are three stages, so there are three attempts.
  · intro e₁ e₂ e₃ hfail
    obtain ⟨tried, hresult, hattempts⟩ := h.exhausted_of_fails hcalm hfail
    have hattempts : tried.attempts = [⟨.realtime, e₁⟩, ⟨.container, e₂⟩, ⟨.existing, e₃⟩] :=
      hattempts
    refine ⟨explain (probeFrom respond file text s) tried, ?_, hattempts, ?_⟩
    · rw [hresult, conclude, hattempts]
      simp only [List.any_cons, List.any_nil, Bool.or_false, Bool.or_assoc]
    · intro a ha hint hhint
      exact List.mem_append_left _ (List.mem_append_left _ (mem_toolHints ha hhint))

/-- A respondent for files that nobody else changes, without any tools. -/
def toolless : Respondent FileTree
  | .isCancelled, tree => (false, tree)
  | .look, tree => (tree, tree)
  | .change tree, _ => ((), tree)
  | .assemblerReady, tree => (false, tree)
  | .decompilerReady, tree => (false, tree)
  | .assemble _, tree => (.error (.error (.unexpected "no assembler")), tree)
  | .decompile _, tree => (.error (.error (.unexpected "no decompiler")), tree)

/-- Without tools nothing is cancelled and nothing breaks off. -/
theorem toolless_calm (m : Moment FileTree) : ¬ m.Cancels toolless ∧ ¬ m.Breaks toolless := by
  obtain ⟨tree, q⟩ := m
  cases q <;> simp [Moment.Cancels, Moment.Breaks, Moment.answer, Question.Cancels,
    Question.Breaks, toolless]

/-- A project with one unit and with Java source that was written at some time. -/
def sourceTree (modified : Instant) : FileTree where
  entries := ⟨[(["p"], .directory), (["p", "smali"], .directory),
    (["p", "smali", "A.smali"], .file [] ⟨0, 0⟩ {}), (["p", "java_src"], .directory),
    (["p", "java_src", "A.java"], .file [] modified {})]⟩

/-- Without tools, Java source on disk is what is found. -/
theorem existing_source_is_found :
    ∃ before r source,
      chain toolless plain ⟨"/p/smali/A.smali"⟩ none (sourceTree ⟨0, 0⟩) =
        before ++ [r] ∧
      ((plain.resolve ⟨"/p/smali/A.smali"⟩ none).run toolless
        (sourceTree ⟨0, 0⟩)).1 = .outcome (.success source) ∧
      source.provenance = .existing := by
  have hchain : (chain toolless plain ⟨"/p/smali/A.smali"⟩ none
      (sourceTree ⟨0, 0⟩)).map (fun r => (r.stage, r.report.result)) =
      [(.realtime, .error (.error (plain.assembler.missing))),
        (.container, .error (.error (plain.decompiler.missing))),
        (.existing, .ok ⟨"", .existing, some ⟨⟨"/p/java_src/A.java"⟩, some ⟨0, 0⟩, 0⟩⟩)] := by
    decide +kernel
  obtain ⟨r₁, _, hruns, h₁, hrest⟩ := List.map_eq_cons_iff.mp hchain
  obtain ⟨r₂, _, rfl, h₂, hrest⟩ := List.map_eq_cons_iff.mp hrest
  obtain ⟨r₃, _, rfl, h₃, hrest⟩ := List.map_eq_cons_iff.mp hrest
  obtain rfl := List.map_eq_nil_iff.mp hrest
  have h := resolve_is_first_success plain Calendar.gregorian_lawful ⟨"/p/smali/A.smali"⟩ none
    (sourceTree ⟨0, 0⟩) fun m _ => toolless_calm m
  have hfail : List.Forall₂ StageRun.Fails [r₁, r₂]
      [plain.assembler.missing, plain.decompiler.missing] :=
    .cons (congrArg Prod.snd h₁) (.cons (congrArg Prod.snd h₂) .nil)
  obtain ⟨hresult, hprovenance, -⟩ :=
    (h.2.1 [r₁, r₂] r₃ [] _ hruns hfail).1 _ (congrArg Prod.snd h₃)
  refine ⟨[r₁, r₂], r₃, _, hruns, hresult, ?_⟩
  rw [hprovenance, show r₃.stage = .existing from congrArg Prod.fst h₃]
  rfl

/-- A time that the calendar has no date for makes the conversion break off. -/
theorem undated_source_breaks_off :
    ((plain.resolve ⟨"/p/smali/A.smali"⟩ none).run toolless
      (sourceTree ⟨9000000000000, 0⟩)).1 = .panicked "No such local time" := by
  decide +kernel

end Pipeline

end SmaliView
