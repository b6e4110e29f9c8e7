import SmaliView.Proofs.Pipeline.StageRuns

/-!
# What stages come to

With tools that do not break off, a stage ends with Java source of its own provenance or with an
error. There is one exception: the last two stages break off when the file they have taken has a
time without a date.
-/

namespace SmaliView

variable {α β σ : Type}

open Plan (Respondent Ensures)

/-- A tool breaks off. -/
def Question.Breaks : (q : Question) → q.Answer → Prop
  | .assemble _, reply => ∃ message, reply = .error (.panic message)
  | .decompile _, reply => ∃ message, reply = .error (.panic message)
  | _, _ => False

def Moment.Breaks (respond : Respondent σ) (m : Moment σ) : Prop :=
  m.question.Breaks (m.answer respond)

/-- A reply is an error, or what it gives is good; it breaks off only with a message that is bad. -/
inductive Settles (good : α → Prop) (bad : String → Prop) : Reply α → Prop where
  | ok {a : α} (h : good a) : Settles good bad (.ok a)
  | error (e : StageError) : Settles good bad (.error (.error e))
  | panic {message : String} (h : bad message) : Settles good bad (.error (.panic message))

/-- What a reply settles may be said more weakly. -/
theorem Settles.mono {good good' : α → Prop} {bad bad' : String → Prop} {r : Reply α}
    (h : Settles good bad r) (hgood : ∀ a, good a → good' a)
    (hbad : ∀ message, bad message → bad' message) : Settles good' bad' r := by
  cases h with
  | ok h => exact .ok (hgood _ h)
  | error e => exact .error e
  | panic h => exact .panic (hbad _ h)

namespace StagePlan

variable {respond : Respondent σ} {right : Moment σ → Prop} {bad : String → Prop}

theorem ensures_pure {a : α} {good : α → Prop} (h : good a) :
    Ensures respond right (pure a : StagePlan α).run (Settles good bad) :=
  Ensures.done (.ok h)

theorem ensures_fail (e : StageError) {good : α → Prop} :
    Ensures respond right (StagePlan.fail e : StagePlan α).run (Settles good bad) :=
  Ensures.done (.error e)

/-- A plan that can fail settles what its last part settles, and a failure ends it. -/
theorem ensures_bind {x : StagePlan α} {f : α → StagePlan β} {mid : α → Prop} {good : β → Prop}
    (hx : Ensures respond right x.run (Settles mid bad))
    (hf : ∀ a, mid a → Ensures respond right (f a).run (Settles good bad)) :
    Ensures respond right (x >>= f).run (Settles good bad) := by
  refine Ensures.bind hx fun r hr => ?_
  cases hr with
  | ok h => exact hf _ h
  | error e => exact Ensures.done (.error e)
  | panic h => exact Ensures.done (.panic h)

theorem ensures_lift (p : Plan α) :
    Ensures respond right (liftM p : StagePlan α).run (Settles (fun _ => True) bad) :=
  Ensures.bind (Ensures.trivial p) fun _ _ => Ensures.done (.ok trivial)

theorem ensures_orSystem (r : Except SystemError α) :
    Ensures respond right (StagePlan.orSystem r).run (Settles (fun _ => True) bad) := by
  cases r with
  | ok a => exact ensures_pure trivial
  | error e => exact Ensures.done (.error _)

/-- A check settles nothing else than what follows it. -/
theorem ensures_checkToken_bind {f : Unit → StagePlan α} {good : α → Prop}
    (hf : Ensures respond right (f ()).run (Settles good bad)) :
    Ensures respond right (checkToken >>= f).run (Settles good bad) := by
  rw [run_checkToken_bind]
  refine Ensures.bind (Ensures.trivial _) fun fired _ => ?_
  split
  · exact Ensures.done (.error _)
  · exact hf

/-- A missing tool does not break off. -/
theorem ensures_need (ready : Plan Bool) (tool : ToolLabel) :
    Ensures respond right (need ready tool).run (Settles (fun _ => True) bad) := by
  unfold need
  refine ensures_bind (ensures_lift ready) fun b _ => ?_
  cases b with
  | true => exact ensures_pure trivial
  | false => exact ensures_fail _

section

variable (whole : ∀ m, right m → ¬ m.Breaks respond)
include whole

/-- An assembler that does not break off answers or fails. -/
theorem ensures_assemble (r : AssembleRequest) :
    Ensures respond right (assemble r).run (Settles (fun _ => True) bad) := by
  refine Ensures.question fun s hs => ?_
  have hwhole := whole _ hs
  -- The tool answers or fails; breaking off would make the moment wrong.
  rcases hreply : (respond (.assemble r) s).1 with (e | message) | answer
  · exact .error e
  · exact absurd ⟨message, hreply⟩ hwhole
  · exact .ok trivial

/-- A decompiler that does not break off answers or fails. -/
theorem ensures_decompile (r : DecompileRequest) :
    Ensures respond right (decompile r).run (Settles (fun _ => True) bad) := by
  refine Ensures.question fun s hs => ?_
  have hwhole := whole _ hs
  rcases hreply : (respond (.decompile r) s).1 with (e | message) | answer
  · exact .error e
  · exact absurd ⟨message, hreply⟩ hwhole
  · exact .ok trivial

end

end StagePlan

namespace Pipeline

open StagePlan

variable {respond : Respondent σ} {right : Moment σ → Prop} {bad : String → Prop}

/-! ## Parts of stages -/

/-- Extraction does not break off. -/
theorem settles_extract (files : FileTree) (tree : Path) (c : ClassName) :
    Settles (fun _ => True) bad (extract files tree c) := by
  unfold extract
  split
  · next path _ =>
    cases files.read path with
    | ok content => exact .ok trivial
    | error e => exact .error _
  · exact .error _

/-- The time of the file has a date, or this is why it breaks off. -/
theorem settles_ofInfo (cal : Calendar) (path : Path) (info : FileInfo) :
    Settles (fun _ => ∃ t, cal.dateTime info.modified = .ok t)
      (fun message => cal.dateTime info.modified = .error message)
      (Origin.ofInfo cal path info) := by
  unfold Origin.ofInfo
  split
  · next t h => exact .ok ⟨t, h⟩
  · next message h => exact .panic h

/-- Work in a scratch directory settles what the work settles. -/
theorem ensures_withScratch (p : Pipeline) {work : Path → StagePlan α} {good : α → Prop}
    (h : ∀ dir, Ensures respond right (work dir).run (Settles good bad)) :
    Ensures respond right (p.withScratch work).run (Settles good bad) := by
  refine Ensures.bind (Ensures.trivial _) fun tree _ => ?_
  refine Ensures.bind (Ensures.trivial _) fun _ _ => ?_
  split
  · exact Ensures.done (.error _)
  · next dir _ =>
    -- What the work came to is handed on past the removal of the directory.
    refine Ensures.bind (h dir) fun result hresult => ?_
    refine Ensures.bind (Ensures.trivial _) fun tree _ => ?_
    exact Ensures.bind (Ensures.trivial _) fun _ _ => Ensures.done hresult

theorem ensures_unitFor (c : ClassName) (scratch file : Path) (text : Option String) :
    Ensures respond right (unitFor c scratch file text).run (Settles (fun _ => True) bad) := by
  cases text with
  | none => exact ensures_pure trivial
  | some text =>
    unfold unitFor
    refine ensures_bind (ensures_lift Plan.look) fun tree _ => ?_
    refine ensures_bind (ensures_orSystem _) fun tree _ => ?_
    refine ensures_bind (ensures_lift _) fun _ _ => ?_
    exact ensures_pure trivial

section

variable (whole : ∀ m, right m → ¬ m.Breaks respond)
include whole

/-- Getting the Java source does not break off. -/
theorem ensures_javaOf (c : ClassName) (container scratch : Path) :
    Ensures respond right (javaOf c container scratch).run (Settles (fun _ => True) bad) := by
  unfold javaOf
  refine ensures_bind (ensures_decompile whole _) fun answer _ => ?_
  unfold javaIn
  split
  · refine ensures_checkToken_bind ?_
    refine Ensures.bind (Ensures.trivial Plan.look) fun files _ => ?_
    refine Ensures.done ?_
    exact settles_extract _ _ _
  · exact ensures_fail _

/-- What the first stage gives was made from the unit, and it does not break off. -/
theorem ensures_realtime (p : Pipeline) (probe : Probe) (text : Option String) :
    Ensures respond right (p.realtime probe text).run
      (Settles (fun c => c.provenance = .realtime) bad) := by
  unfold realtime
  split
  · exact ensures_fail _
  · refine ensures_bind (ensures_need _ _) fun _ _ => ?_
    refine ensures_bind (ensures_need _ _) fun _ _ => ?_
    refine ensures_withScratch p fun dir => ?_
    unfold assembledSource
    refine ensures_bind (ensures_unitFor _ _ _ _) fun unit _ => ?_
    refine ensures_bind (ensures_assemble whole _) fun answer _ => ?_
    split
    · refine ensures_checkToken_bind ?_
      refine ensures_bind (ensures_javaOf whole _ _ _) fun text _ => ?_
      exact ensures_pure rfl
    · exact ensures_fail _

/-- A container gives a source if its time has a date, and breaks off if it has none. -/
theorem ensures_containerSource (p : Pipeline) (c : ClassName) (container : Path)
    (info : FileInfo) :
    Ensures respond right (p.containerSource c container info).run
      (Settles
        (fun c => c.provenance = .container ∧ ∃ t, p.calendar.dateTime info.modified = .ok t)
        fun message => p.calendar.dateTime info.modified = .error message) := by
  refine ensures_bind (ensures_withScratch p fun dir => ensures_javaOf whole _ _ _) fun text _ => ?_
  refine ensures_bind (Ensures.done (settles_ofInfo p.calendar container info)) fun origin hdate => ?_
  exact ensures_pure ⟨rfl, hdate⟩

end

/-! ## The file that a stage takes -/

/-- The file on disk that a stage takes its source from, with what is told about it. -/
def takenFile? (p : Pipeline) (probe : Probe) (tree : FileTree) : Stage → Option (Path × FileInfo)
  | .realtime => none
  | .container =>
    (p.layout.containers tree probe).findSome? fun path => (tree.fileInfo? path).map (path, ·)
  | .existing =>
    ((p.layout.sources probe).find? (isReadable tree)).bind fun path =>
      (tree.info path).toOption.map (path, ·)

/-- When the files were looked at in one of the moments, the one that the stage takes was there, and
its time is one of those that `when` holds of. -/
def Takes (respond : Respondent σ) (p : Pipeline) (probe : Probe) (stage : Stage)
    (ms : List (Moment σ)) (when : Instant → Prop) : Prop :=
  ∃ s path info, ⟨s, .look⟩ ∈ ms ∧
    p.takenFile? probe (respond .look s).1 stage = some (path, info) ∧
    when info.modified

/-- What is said of the time of the file that a stage takes may be said more weakly. -/
theorem Takes.mono {p : Pipeline} {probe : Probe} {stage : Stage} {ms : List (Moment σ)}
    {when when' : Instant → Prop} (h : Takes respond p probe stage ms when)
    (hwhen : ∀ t, when t → when' t) : Takes respond p probe stage ms when' := by
  obtain ⟨s, path, info, hs, htaken, ht⟩ := h
  exact ⟨s, path, info, hs, htaken, hwhen _ ht⟩

/-! ## The stages -/

variable {ms : List (Moment σ)}

/-- Looking at the files is one of the moments. -/
theorem ensures_look (hms : ∀ m, right m → m ∈ ms) : Ensures respond right Plan.look fun tree =>
    ∃ s, ⟨s, .look⟩ ∈ ms ∧ (respond .look s).1 = tree :=
  Ensures.question fun s hs => ⟨s, hms _ hs, rfl⟩

/-- The second stage breaks off exactly over the time of the container that it takes. -/
theorem ensures_enclosing (hms : ∀ m, right m → m ∈ ms)
    (whole : ∀ m, right m → ¬ m.Breaks respond) (p : Pipeline) (probe : Probe) :
    Ensures respond right (p.enclosing probe) fun r =>
      Settles
        (fun c => c.provenance = .container ∧
          Takes respond p probe .container ms fun t => ∃ u, p.calendar.dateTime t = .ok u)
        (fun message =>
          Takes respond p probe .container ms fun t => p.calendar.dateTime t = .error message)
        r.result := by
  unfold enclosing
  split
  · exact Ensures.done (.error _)
  · next c _ =>
    refine Ensures.bind (Ensures.trivial _) fun ready _ => ?_
    split
    · refine Ensures.bind (ensures_look hms) fun tree htree => ?_
      -- The search goes through the files as they were at this moment.
      obtain ⟨s, hs, rfl⟩ := htree
      dsimp only
      split
      · exact Ensures.done (.error _)
      · next container info hfound =>
        refine Ensures.bind (ensures_containerSource whole p c container info) fun result h => ?_
        refine Ensures.done (h.mono ?_ ?_)
        · exact fun source h => ⟨h.1, s, container, info, hs, hfound, h.2⟩
        · exact fun message h => ⟨s, container, info, hs, hfound, h⟩
    · exact Ensures.done (.error _)

/-- A source that is read has a time with a date; without one, reading breaks off. -/
theorem settles_sourceAt (cal : Calendar) (tree : FileTree) (path : Path) :
    Settles
      (fun c => c.provenance = .existing ∧
        ∃ info, (tree.info path).toOption = some info ∧ ∃ t, cal.dateTime info.modified = .ok t)
      (fun message =>
        ∃ info, (tree.info path).toOption = some info ∧ cal.dateTime info.modified = .error message)
      (sourceAt cal tree path) := by
  unfold sourceAt
  cases hinfo : tree.info path with
  | error e => exact .error _
  | ok info =>
    cases tree.read path with
    | error e => exact .error _
    | ok content =>
      -- The file can be read, so its time decides.
      have h := settles_ofInfo cal path info
      simp only [Except.mapError, bind, Except.bind, pure, Except.pure]
      generalize Origin.ofInfo cal path info = origin at h
      cases h with
      | ok h => exact .ok ⟨rfl, info, rfl, h⟩
      | error e => exact .error e
      | panic h => exact .panic ⟨info, rfl, h⟩

/-- The third stage breaks off exactly over the time of the source that it takes. -/
theorem ensures_existing (hms : ∀ m, right m → m ∈ ms) (p : Pipeline) (probe : Probe) :
    Ensures respond right (p.existing probe) fun r =>
      Settles
        (fun c => c.provenance = .existing ∧
          Takes respond p probe .existing ms fun t => ∃ u, p.calendar.dateTime t = .ok u)
        (fun message =>
          Takes respond p probe .existing ms fun t => p.calendar.dateTime t = .error message)
        r.result := by
  unfold existing
  split
  · exact Ensures.done (.error _)
  · refine Ensures.bind (ensures_look hms) fun tree htree => ?_
    obtain ⟨s, hs, rfl⟩ := htree
    dsimp only
    split
    · next path hfound =>
      refine Ensures.done ?_
      -- The file that is read is the one that the stage takes.
      have htaken : ∀ info, ((respond .look s).1.info path).toOption = some info →
          p.takenFile? probe (respond .look s).1 .existing = some (path, info) := by
        intro info hinfo
        unfold takenFile?
        rw [hfound, Option.bind_some, hinfo]
        rfl
      refine (settles_sourceAt p.calendar (respond .look s).1 path).mono ?_ ?_
      · rintro source ⟨hprovenance, info, hinfo, hdate⟩
        exact ⟨hprovenance, s, path, info, hs, htaken info hinfo, hdate⟩
      · rintro message ⟨info, hinfo, hdate⟩
        exact ⟨s, path, info, hs, htaken info hinfo, hdate⟩
    · exact Ensures.done (.error _)

/-- With tools that do not break off, a stage that ends with Java source names itself as provenance,
and only a file without a date makes a stage break off. -/
theorem ensures_tryStage (hms : ∀ m, right m → m ∈ ms)
    (whole : ∀ m, right m → ¬ m.Breaks respond) (p : Pipeline) (probe : Probe)
    (text : Option String) (stage : Stage) :
    Ensures respond right (p.tryStage probe text stage) fun r =>
      Settles
        (fun c => c.provenance = stage.provenance ∧
          (stage ≠ .realtime →
            Takes respond p probe stage ms fun t => ∃ u, p.calendar.dateTime t = .ok u))
        (fun message =>
          Takes respond p probe stage ms fun t => p.calendar.dateTime t = .error message)
        r.result := by
  cases stage with
  | realtime =>
    -- The first stage takes no file on disk, so it never breaks off.
    have hrealtime : Ensures respond right (p.realtime probe text).run
        (Settles (fun c => c.provenance = .realtime) fun _ => False) :=
      ensures_realtime whole p probe text
    refine Ensures.bind hrealtime fun result h => Ensures.done ?_
    exact h.mono (fun c hc => ⟨hc, fun hne => absurd rfl hne⟩) fun message h => h.elim
  | container =>
    refine (ensures_enclosing hms whole p probe).mono fun r h => ?_
    exact h.mono (fun c hc => ⟨hc.1, fun _ => hc.2⟩) fun message h => h
  | existing =>
    refine (ensures_existing hms p probe).mono fun r h => ?_
    exact h.mono (fun c hc => ⟨hc.1, fun _ => hc.2⟩) fun message h => h

end Pipeline

end SmaliView
