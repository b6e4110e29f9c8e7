import SmaliView.Pipeline.Resolve
import SmaliView.Proofs.Pipeline.Moments

/-!
# Trying the stages

`stageRuns` carries out all stages one after another, whatever they come to. The resolver goes along
this chain and leaves it early: `Tried` says once in which ways, and with what result. Everything
about conversions as a whole is an induction on `Tried`.
-/

namespace SmaliView

variable {σ : Type}

/-- A stage that was carried out between two checks of the token. -/
structure StageRun (σ : Type) where
  stage : Stage
  /-- The state at the check before the stage. -/
  before : σ
  /-- What the stage goes through. -/
  inside : List (Moment σ)
  report : Pipeline.Report
  /-- The state that the stage ends in, in which the token is checked again. -/
  after : σ

/-- The check after a stage. A stage that breaks off ends the conversion without one. -/
def StageRun.closing (r : StageRun σ) : List (Moment σ) :=
  match r.report.result with
  | .error (.panic _) => []
  | _ => [⟨r.after, .isCancelled⟩]

/-- The moments of a stage with the checks before and after it. -/
def StageRun.moments (r : StageRun σ) : List (Moment σ) :=
  ⟨r.before, .isCancelled⟩ :: (r.inside ++ r.closing)

/-- A stage that breaks off is followed by no check. -/
theorem StageRun.moments_of_panic {r : StageRun σ} {message : String}
    (hr : r.report.result = .error (.panic message)) :
    r.moments = ⟨r.before, .isCancelled⟩ :: r.inside := by
  unfold moments closing
  rw [hr]
  simp

/-- A moment of a stage is the check before it, one of its own, or the check after it. -/
theorem StageRun.mem_moments {r : StageRun σ} {m : Moment σ} (hm : m ∈ r.moments) :
    m = ⟨r.before, .isCancelled⟩ ∨ m ∈ r.inside ∨ m = ⟨r.after, .isCancelled⟩ ∧
      ∀ message, r.report.result ≠ .error (.panic message) := by
  unfold moments closing at hm
  rcases List.mem_cons.mp hm with h | hm
  · exact Or.inl h
  · rcases List.mem_append.mp hm with h | hm
    · exact Or.inr (Or.inl h)
    -- Breaking off leaves no check at the end.
    · split at hm
      · cases hm
      · next hr => exact Or.inr (Or.inr ⟨List.mem_singleton.mp hm, hr⟩)

theorem StageRun.mem_moments_of_mem_inside {r : StageRun σ} {m : Moment σ} (hm : m ∈ r.inside) :
    m ∈ r.moments :=
  List.mem_cons_of_mem _ (List.mem_append_left _ hm)

/-- A stage that does not break off stands between two checks. -/
theorem StageRun.moments_eq {r : StageRun σ}
    (hr : ∀ message, r.report.result ≠ .error (.panic message)) :
    r.moments = ⟨r.before, .isCancelled⟩ :: (r.inside ++ [⟨r.after, .isCancelled⟩]) := by
  unfold moments closing
  split
  · next h => exact absurd h (hr _)
  · rfl

namespace Pipeline

open Plan

variable (respond : Respondent σ) (p : Pipeline) (probe : Probe) (text : Option String)

/-- Carry out a stage after a check of the token in a given state. -/
def stageRun (stage : Stage) (s : σ) : StageRun σ where
  stage
  before := s
  inside := (p.tryStage probe text stage).moments respond (checked respond s)
  report := ((p.tryStage probe text stage).run respond (checked respond s)).1
  after := ((p.tryStage probe text stage).run respond (checked respond s)).2

/-- Carry out stages in order, each from where the check after the one before it leads. -/
def stageRuns : List Stage → σ → List (StageRun σ)
  | [], _ => []
  | stage :: rest, s =>
    let r := stageRun respond p probe text stage s
    r :: stageRuns rest (checked respond r.after)

/-- What can happen when stages are tried in order: the result, and the moments on the way. -/
inductive Tried : List Stage → Progress → σ → Resolution → List (Moment σ) → Prop where
  /-- The token has fired before a stage, or after the last one. -/
  | fired {stages : List Stage} {tried : Progress} {s : σ}
      (hb : told respond s = true) :
      Tried stages tried s (.outcome .cancelled) [⟨s, .isCancelled⟩]
  /-- No stage is left. -/
  | exhausted {tried : Progress} {s : σ} (hb : told respond s = false) :
      Tried [] tried s (.outcome (conclude probe tried)) [⟨s, .isCancelled⟩]
  /-- A stage breaks off. -/
  | panicked {stage : Stage} {rest : List Stage} {tried : Progress} {s : σ} {message : String}
      (hb : told respond s = false)
      (hr : (stageRun respond p probe text stage s).report.result = .error (.panic message)) :
      Tried (stage :: rest) tried s (.panicked message)
        (stageRun respond p probe text stage s).moments
  /-- The token has fired during a stage, or the stage was cancelled. -/
  | cancelled {stage : Stage} {rest : List Stage} {tried : Progress} {s : σ}
      (hb : told respond s = false)
      (hr : ∀ message,
        (stageRun respond p probe text stage s).report.result ≠ .error (.panic message))
      (ha : told respond (stageRun respond p probe text stage s).after = true ∨
        (stageRun respond p probe text stage s).report.result = .error (.error .cancelled)) :
      Tried (stage :: rest) tried s (.outcome .cancelled)
        (stageRun respond p probe text stage s).moments
  /-- A stage finds Java source. -/
  | found {stage : Stage} {rest : List Stage} {tried : Progress} {s : σ} {source : JavaSource}
      (hb : told respond s = false)
      (hr : (stageRun respond p probe text stage s).report.result = .ok source)
      (ha : told respond (stageRun respond p probe text stage s).after = false) :
      Tried (stage :: rest) tried s (.outcome (.success source))
        (stageRun respond p probe text stage s).moments
  /-- A stage fails, and the next one is tried. -/
  | fell {stage : Stage} {rest : List Stage} {tried : Progress} {s : σ} {e : StageError}
      {result : Resolution} {later : List (Moment σ)}
      (hb : told respond s = false)
      (hr : (stageRun respond p probe text stage s).report.result = .error (.error e))
      (he : e ≠ .cancelled)
      (ha : told respond (stageRun respond p probe text stage s).after = false)
      (next : Tried rest
        ⟨tried.attempts ++ [⟨stage, e⟩],
          tried.searched ++ (stageRun respond p probe text stage s).report.searched⟩
        (checked respond (stageRun respond p probe text stage s).after) result later) :
      Tried (stage :: rest) tried s result
        ((stageRun respond p probe text stage s).moments ++ later)

variable {respond p probe text}

variable {stage : Stage} {rest : List Stage} {s : σ}

/-- What is done later comes after the moments of a stage. -/
theorem stageRun_moments_append (hr : ∀ message,
      (stageRun respond p probe text stage s).report.result ≠ .error (.panic message))
    (later : List (Moment σ)) :
    ⟨s, .isCancelled⟩ :: ((stageRun respond p probe text stage s).inside ++
        ⟨(stageRun respond p probe text stage s).after, .isCancelled⟩ :: later) =
      (stageRun respond p probe text stage s).moments ++ later := by
  rw [StageRun.moments_eq hr, List.cons_append, List.append_assoc]
  rfl

/-- A stage that is begun does one of these things, if the stages after it do. -/
theorem tried_stage (hb : told respond s = false)
    (htried : ∀ tried s, Tried respond p probe text rest tried s
      ((p.tryStages probe text rest tried).run respond s).1
      ((p.tryStages probe text rest tried).moments respond s)) (tried : Progress) :
    Tried respond p probe text (stage :: rest) tried s
      ((p.tryStages probe text (stage :: rest) tried).run respond s).1
      ((p.tryStages probe text (stage :: rest) tried).moments respond s) := by
  -- Trying the stage is its run in the chain, with the check after it left out.
  have hrun : (p.tryStage probe text stage).run respond (checked respond s) =
      ((stageRun respond p probe text stage s).report,
        (stageRun respond p probe text stage s).after) := rfl
  have hinside : (p.tryStage probe text stage).moments respond (checked respond s) =
      (stageRun respond p probe text stage s).inside := rfl
  unfold tryStages
  rw [run_isCancelled_bind, moments_isCancelled_bind, hb, if_neg (by simp), run_bind, moments_bind,
    hrun, hinside]
  dsimp only
  -- What the resolver does next is up to what the stage came to and to the check after it.
  rcases hr : (stageRun respond p probe text stage s).report.result with (e | message) | source
  · dsimp only
    rw [run_isCancelled_bind, moments_isCancelled_bind, stageRun_moments_append (by simp [hr])]
    cases ha : told respond (stageRun respond p probe text stage s).after with
    | true =>
      rw [if_pos rfl, pure_eq, run_done, moments_done, List.append_nil]
      exact .cancelled hb (by simp [hr]) (Or.inl ha)
    | false =>
      rw [if_neg (by simp)]
      by_cases he : e.isCancelled = true
      · rw [if_pos he, pure_eq, run_done, moments_done, List.append_nil]
        exact .cancelled hb (by simp [hr]) (Or.inr (StageError.isCancelled_iff.mp he ▸ hr))
      · rw [if_neg he]
        exact .fell hb hr (mt StageError.isCancelled_iff.mpr he) ha (htried _ _)
  · dsimp only
    rw [pure_eq, run_done, moments_done, List.append_nil]
    have hmoments := StageRun.moments_of_panic hr
    exact hmoments ▸ .panicked hb hr
  · dsimp only
    rw [run_isCancelled_bind, moments_isCancelled_bind, stageRun_moments_append (by simp [hr])]
    cases ha : told respond (stageRun respond p probe text stage s).after with
    | true =>
      rw [if_pos rfl, pure_eq, run_done, moments_done, List.append_nil]
      exact .cancelled hb (by simp [hr]) (Or.inl ha)
    | false =>
      rw [if_neg (by simp), pure_eq, run_done, moments_done, List.append_nil]
      exact .found hb hr ha

/-- Trying stages does one of these things. -/
theorem tried_tryStages (stages : List Stage) (tried : Progress) (s : σ) :
    Tried respond p probe text stages tried s ((p.tryStages probe text stages tried).run respond s).1
      ((p.tryStages probe text stages tried).moments respond s) := by
  induction stages generalizing tried s with
  | nil =>
    unfold tryStages
    rw [run_isCancelled_bind, moments_isCancelled_bind]
    -- Before each stage, and after the last one, the token is checked.
    cases hb : told respond s with
    | true => exact .fired hb
    | false => exact .exhausted hb
  | cons stage rest ih =>
    cases hb : told respond s with
    | true =>
      unfold tryStages
      rw [run_isCancelled_bind, moments_isCancelled_bind, hb]
      exact .fired hb
    | false => exact tried_stage hb ih tried

/-- Stages that are tried end with a cancellation, with an explanation, or with what one of them has
come to. -/
theorem Tried.ends {stages : List Stage} {tried : Progress} {s : σ} {result : Resolution}
    {ms : List (Moment σ)} (h : Tried respond p probe text stages tried s result ms) :
    result = .outcome .cancelled ∨ (∃ all, result = .outcome (conclude probe all)) ∨
      ∃ r ∈ stageRuns respond p probe text stages s, r.inside ⊆ ms ∧
        ((∃ source, r.report.result = .ok source ∧ result = .outcome (.success source)) ∨
          ∃ message, r.report.result = .error (.panic message) ∧ result = .panicked message) := by
  induction h with
  | fired hb => exact Or.inl rfl
  | exhausted hb => exact Or.inr (Or.inl ⟨_, rfl⟩)
  | panicked hb hr =>
    exact Or.inr (Or.inr ⟨_, List.mem_cons_self .., fun m => StageRun.mem_moments_of_mem_inside,
      Or.inr ⟨_, hr, rfl⟩⟩)
  | cancelled hb hr ha => exact Or.inl rfl
  | found hb hr ha =>
    exact Or.inr (Or.inr ⟨_, List.mem_cons_self .., fun m => StageRun.mem_moments_of_mem_inside,
      Or.inl ⟨_, hr, rfl⟩⟩)
  | fell hb hr he ha next ih =>
    -- A stage that fails decides nothing.
    refine ih.imp_right (Or.imp_right ?_)
    rintro ⟨r, hmem, hinside, hdecides⟩
    exact ⟨r, List.mem_cons_of_mem _ hmem, fun m hm => List.mem_append_right _ (hinside hm),
      hdecides⟩

/-! ## Conversions -/

variable (respond p)

def probeFrom (file : Path) (text : Option String) (s : σ) : Probe :=
  Probe.of file ((headerText file text).run respond s).1

/-- All stages of a conversion, carried out one after another. -/
def chain (file : Path) (text : Option String) (s : σ) : List (StageRun σ) :=
  stageRuns respond p (probeFrom respond file text s) text Stage.all
    ((headerText file text).run respond s).2

/-- The stages are run in their order. -/
theorem stageRuns_map_stage (probe : Probe) (text : Option String) (stages : List Stage) (s : σ) :
    (stageRuns respond p probe text stages s).map StageRun.stage = stages := by
  induction stages generalizing s with
  | nil => rfl
  | cons stage rest ih => exact congrArg (stage :: ·) (ih _)

/-- A conversion reads the header and then tries all stages. -/
theorem tried_resolve (file : Path) (text : Option String) (s : σ) :
    ∃ ms, Tried respond p (probeFrom respond file text s) text Stage.all {}
        ((headerText file text).run respond s).2 ((p.resolve file text).run respond s).1 ms ∧
      (p.resolve file text).moments respond s = (headerText file text).moments respond s ++ ms := by
  unfold resolve
  rw [run_bind, moments_bind]
  exact ⟨_, tried_tryStages _ _ _, rfl⟩

variable {respond}

/-- Reading the header is looking at the files. -/
theorem question_of_mem_headerText {file : Path} {text : Option String} {s : σ} {m : Moment σ}
    (hm : m ∈ (headerText file text).moments respond s) : m.question = .look := by
  unfold headerText at hm
  -- Only a path that does not tell the class makes a conversion read the unit.
  split at hm
  · cases hm
  · split at hm
    · cases hm
    · obtain rfl := List.mem_singleton.mp hm
      rfl

/-- A pipeline that searches no further up than beside the root of a unit. -/
def plain : Pipeline where
  assembler := ⟨"assembler", "install it"⟩
  decompiler := ⟨"decompiler", "install it"⟩
  layout := .ofDepth 1
  calendar := .gregorian
  temporary := ⟨"/tmp"⟩

end Pipeline

end SmaliView
