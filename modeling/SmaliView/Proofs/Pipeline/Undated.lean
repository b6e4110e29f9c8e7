import SmaliView.Proofs.Pipeline.Candidates
import SmaliView.Proofs.Pipeline.Fallback

/-!
# Files without a date

With tools that do not break off, a conversion comes to an outcome, with one exception: a file may
have a time that the calendar has no date for. Then the conversion breaks off when it comes to tell
where its Java source is from. That a file on disk can be read is not enough for it to be delivered.
-/

namespace SmaliView

variable {σ : Type}

open Plan (Respondent checked run_bind)

namespace Pipeline

variable {respond : Respondent σ} {p : Pipeline} {probe : Probe} {text : Option String}
  {stages : List Stage} {tried : Progress} {s : σ} {result : Resolution} {ms : List (Moment σ)}

/-! ## Stages that break off -/

/-- A conversion that breaks off does so in a stage that it has begun. -/
theorem Tried.stage_of_panicked {message : String}
    (h : Tried respond p probe text stages tried s (.panicked message) ms) :
    ∃ r ∈ stageRuns respond p probe text stages s,
      r.report.result = .error (.panic message) ∧ r.inside ⊆ ms := by
  obtain hresult | ⟨all, hresult⟩ | ⟨r, hmem, hinside, hdecides⟩ := h.ends
  · cases hresult
  · cases hresult
  · obtain ⟨source, -, hresult⟩ | ⟨message', hpanic, hresult⟩ := hdecides
    · cases hresult
    · cases hresult
      exact ⟨r, hmem, hpanic, hinside⟩

/-- The first stage takes no file whose time matters. -/
theorem not_takes_realtime {when : Instant → Prop} :
    ¬ Takes respond p probe .realtime ms when := by
  rintro ⟨_, _, _, _, htaken, -⟩
  cases htaken

/-! ## The last stage -/

/-- A stage that is run is run from the state that was before it. -/
theorem eq_stageRun_of_mem {r : StageRun σ}
    (hr : r ∈ stageRuns respond p probe text stages s) :
    r = stageRun respond p probe text r.stage r.before := by
  induction stages generalizing s with
  | nil => cases hr
  | cons stage rest ih =>
    rcases List.mem_cons.mp hr with rfl | hr
    · rfl
    · exact ih hr

/-- The last stage of a chain is the one that reads existing sources. -/
theorem stage_of_chain_eq_concat {file : Path} {before : List (StageRun σ)} {r : StageRun σ}
    (h : chain respond p file text s = before ++ [r]) : r.stage = .existing := by
  have hstages : (before ++ [r]).map StageRun.stage = Stage.all :=
    h ▸ stageRuns_map_stage respond p _ _ _ _
  rw [List.map_append] at hstages
  -- The last of all stages is the one for Java source on disk.
  have hlast := congrArg List.getLast? hstages
  rw [List.map_singleton, List.getLast?_concat] at hlast
  exact Option.some.inj hlast

/-- The Java source that the last stage comes to is at the first place where a file can be read. -/
theorem existing_result {q : Path}
    (hq : (p.layout.sources probe).find?
      (isReadable (respond .look (checked respond s)).1) = some q) :
    (stageRun respond p probe text .existing s).report.result =
      sourceAt p.calendar (respond .look (checked respond s)).1 q := by
  show ((p.existing probe).run respond (checked respond s)).1.result = _
  unfold existing
  -- Without a class there are no places to look in.
  cases hc : probe.className with
  | none =>
    rw [Layout.sources, hc] at hq
    cases hq
  | some c =>
    have hlook (t : σ) : Plan.look.run respond t = respond .look t := rfl
    rw [run_bind, hlook]
    dsimp only
    rw [hq]
    rfl

/-! ## The theorem -/

/-- **A conversion breaks off for a file without a date only.** In every lawful calendar, with tools
that do not break off, it comes to an outcome, or a stage that it has begun has taken a file whose
time has no date and is not an ordinary one. When the first two stages fail, nothing is cancelled
and there is Java source on disk that can be read, the first such file is delivered as it is, if its
time has a date; otherwise the conversion breaks off. -/
theorem resolve_breaks_off_only_undated (p : Pipeline) (lawful : p.calendar.Lawful) (file : Path)
    (text : Option String) (s : σ)
    (whole : ∀ m ∈ (p.resolve file text).moments respond s, ¬ m.Breaks respond) :
    ((∃ o, ((p.resolve file text).run respond s).1 = .outcome o) ∨
      ∃ message, ((p.resolve file text).run respond s).1 = .panicked message ∧
        ∃ r ∈ chain respond p file text s, r.stage ≠ .realtime ∧
          r.inside ⊆ (p.resolve file text).moments respond s ∧
          Takes respond p (probeFrom respond file text s) r.stage r.inside
            fun t => p.calendar.dateTime t = .error message ∧ ¬ t.IsOrdinary) ∧
    ∀ before r errors q, chain respond p file text s = before ++ [r] →
      List.Forall₂ StageRun.Fails before errors →
      (∀ m ∈ (p.resolve file text).moments respond s, ¬ m.Cancels respond) →
      let tree := (respond .look (checked respond r.before)).1
      (p.layout.sources (probeFrom respond file text s)).find? (isReadable tree) = some q →
      ∃ content info, tree.read q = .ok content ∧ tree.info q = .ok info ∧
        ((p.resolve file text).run respond s).1 =
          match p.calendar.dateTime info.modified with
          | .ok _ => .outcome (.success ⟨Text.decodeLossy content, .existing,
              some ⟨q, some info.modified, info.length⟩⟩)
          | .error message => .panicked message := by
  obtain ⟨ms, htried, hmoments⟩ := tried_resolve respond p file text s
  have hsubset : ms ⊆ (p.resolve file text).moments respond s := by
    rw [hmoments]
    exact List.subset_append_right _ _
  constructor
  · cases hresult : ((p.resolve file text).run respond s).1 with
    | outcome o => exact Or.inl ⟨o, rfl⟩
    | panicked message =>
      rw [hresult] at htried
      obtain ⟨r, hmem, hpanic, hinside⟩ := htried.stage_of_panicked
      -- No tool has broken off in this stage, so it was a file without a date.
      have hinside := List.Subset.trans hinside hsubset
      have hsettles := settles_of_mem_stageRuns hmem fun m hm => whole m (hinside hm)
      rw [hpanic] at hsettles
      cases hsettles with
      | panic h =>
        refine Or.inr ⟨_, rfl, r, hmem, fun hstage => ?_, hinside,
          h.mono fun t ht => ⟨ht, lawful.not_isOrdinary ht⟩⟩
        rw [hstage] at h
        exact not_takes_realtime h
  · intro before r errors q hruns hfail calm tree hq
    obtain ⟨content, info, hread, hinfo, hsource⟩ :=
      sourceAt_of_isReadable p.calendar (List.find?_some hq)
    refine ⟨content, info, hread, hinfo, ?_⟩
    obtain ⟨hok, hpanic⟩ := htried.first (fun m hm => calm m (hsubset hm)) hruns hfail
    -- The stage after all those that fail is the last one, which looks for Java source on disk.
    have hmem : r ∈ chain respond p file text s := hruns ▸ List.mem_append_right _ (by simp)
    have hresult : r.report.result = sourceAt p.calendar tree q := by
      rw [eq_stageRun_of_mem hmem, stage_of_chain_eq_concat hruns]
      exact existing_result hq
    -- Whether the file has a date decides between delivering it and breaking off.
    rw [hsource, Origin.ofInfo] at hresult
    cases hdate : p.calendar.dateTime info.modified with
    | ok t =>
      rw [hdate, lawful.keeps hdate] at hresult
      exact (hok _ hresult).1
    | error message =>
      rw [hdate] at hresult
      exact (hpanic _ hresult).1

/-- Java source that can be read is there and no tool is, yet nothing is delivered. -/
theorem readable_source_is_not_delivered :
    (∀ m ∈ (plain.resolve ⟨"/p/smali/A.smali"⟩ none).moments toolless
        (sourceTree ⟨9000000000000, 0⟩), ¬ m.Breaks toolless ∧ ¬ m.Cancels toolless) ∧
      isReadable (sourceTree ⟨9000000000000, 0⟩) ⟨"/p/java_src/A.java"⟩ = true ∧
      ∃ before r errors,
        chain toolless plain ⟨"/p/smali/A.smali"⟩ none (sourceTree ⟨9000000000000, 0⟩) =
          before ++ [r] ∧
        List.Forall₂ StageRun.Fails before errors ∧
        (∃ info, (toolless .look (checked toolless r.before)).1.info ⟨"/p/java_src/A.java"⟩ =
          .ok info ∧ plain.calendar.dateTime info.modified = .error "No such local time") ∧
        ((plain.resolve ⟨"/p/smali/A.smali"⟩ none).run toolless
          (sourceTree ⟨9000000000000, 0⟩)).1 = .panicked "No such local time" := by
  let first (r : StageRun FileTree) : Option Path :=
    (plain.layout.sources (probeFrom toolless ⟨"/p/smali/A.smali"⟩ none
      (sourceTree ⟨9000000000000, 0⟩))).find?
        (isReadable (toolless .look (checked toolless r.before)).1)
  have hchain : (chain toolless plain ⟨"/p/smali/A.smali"⟩ none
      (sourceTree ⟨9000000000000, 0⟩)).map (fun r => (r.report.result, first r)) =
      [(.error (.error plain.assembler.missing), some ⟨"/p/java_src/A.java"⟩),
        (.error (.error plain.decompiler.missing), some ⟨"/p/java_src/A.java"⟩),
        (.error (.panic "No such local time"), some ⟨"/p/java_src/A.java"⟩)] := by
    decide +kernel
  obtain ⟨r₁, _, hruns, h₁, hrest⟩ := List.map_eq_cons_iff.mp hchain
  obtain ⟨r₂, _, rfl, h₂, hrest⟩ := List.map_eq_cons_iff.mp hrest
  obtain ⟨r₃, _, rfl, h₃, hrest⟩ := List.map_eq_cons_iff.mp hrest
  obtain rfl := List.map_eq_nil_iff.mp hrest
  have hfail : List.Forall₂ StageRun.Fails [r₁, r₂]
      [plain.assembler.missing, plain.decompiler.missing] :=
    .cons (congrArg Prod.fst h₁) (.cons (congrArg Prod.fst h₂) .nil)
  have h := resolve_breaks_off_only_undated plain Calendar.gregorian_lawful
    ⟨"/p/smali/A.smali"⟩ none (sourceTree ⟨9000000000000, 0⟩) fun m _ => (toolless_calm m).2
  obtain ⟨content, info, -, hinfo, hresult⟩ := h.2 [r₁, r₂] r₃ _ _ hruns hfail
    (fun m _ => (toolless_calm m).1) (congrArg Prod.snd h₃)
  have hbroken : ((plain.resolve ⟨"/p/smali/A.smali"⟩ none).run toolless
      (sourceTree ⟨9000000000000, 0⟩)).1 = .panicked "No such local time" := by
    decide +kernel
  have hdate : plain.calendar.dateTime info.modified = .error "No such local time" := by
    rw [hbroken] at hresult
    split at hresult
    · cases hresult
    · next message hdate =>
      cases hresult
      exact hdate
  exact ⟨fun m _ => ⟨(toolless_calm m).2, (toolless_calm m).1⟩, by decide +kernel, [r₁, r₂], r₃, _,
    hruns, hfail, ⟨info, hinfo, hdate⟩, hbroken⟩

end Pipeline

end SmaliView
