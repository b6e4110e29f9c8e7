import SmaliView.Proofs.Pipeline.Located
import SmaliView.Proofs.Pipeline.Undated

/-!
# The first match is taken

The two stages that search go through their candidates in order. A decompiler gets no container but
the first that is there, and Java source on disk is that of the first file that can be read; the
origin tells of this same file. There is one gap: a file whose time has no date cannot be told as an
origin, and then the conversion breaks off instead of delivering it.
-/

namespace SmaliView

variable {σ : Type}

open FileTree Plan

/-! ## Stages that search -/

namespace Orderly

open Pipeline

variable {respond : Respondent σ} {files : σ → FileTree} {p : Pipeline} {probe : Probe}
  {text : Option String} {stages : List Stage} {t : FileTree} {s : σ}

/-- The files are calm before each stage. -/
theorem calm_of_mem_stageRuns (h : Orderly respond files) (hs : Calm files p.homes t s)
    {r : StageRun σ} (hr : r ∈ stageRuns respond p probe text stages s) :
    Calm files p.homes t r.before := by
  induction stages generalizing s with
  | nil => cases hr
  | cons stage rest ih =>
    rcases List.mem_cons.mp hr with rfl | hr
    · exact hs
    · exact ih (h.calm_stageRun probe text stage hs) hr

/-- While a stage works, there is all that was there before it. -/
theorem extends_of_mem_inside (h : Orderly respond files) {stage : Stage}
    (hs : (files s).Grounded) {m : Moment σ}
    (hm : m ∈ (stageRun respond p probe text stage s).inside) :
    Extends (files s) (files m.state) := by
  have hmem : stageRun respond p probe text stage s ∈
      stageRuns respond p probe text [stage] s := List.mem_singleton_self _
  have hconfined : Confined files p.homes (files s) (stageRun respond p probe text stage s) :=
    h.confined_of_mem_stageRuns ⟨.refl _ _, hs⟩ hmem
  have hquiet : Quiet files p.homes (files s) m → Extends (files s) (files m.state) :=
    fun hquiet => hquiet.1.grows.extends
  -- A stage looks and asks, or it works in a directory of its own besides. Either way nothing is
  -- taken away.
  rcases hconfined.inside with hinside | ⟨dir, k, -, hinside⟩
  · exact hquiet (hinside m hm)
  · rcases hinside m hm with hm | ⟨u, taken, hfurnished, hsite, hin, -⟩
    · exact hquiet hm
    · exact hfurnished.grows.extends.trans (hsite.extends hin)

end Orderly

namespace Pipeline

variable {respond : Respondent σ} {files : σ → FileTree} {p : Pipeline}

/-- The first container that is there is decompiled, and is the origin of what comes out of it. -/
theorem container_takes_first (h : Orderly respond files) (lawful : p.calendar.Lawful)
    (probe : Probe) (text : Option String) {s : σ} (hs : (files s).Grounded) :
    (∀ m ∈ (stageRun respond p probe text .container s).inside, ∀ request,
      m.question = .decompile request →
        (p.layout.containers (files s) probe).find? (files s).isFile = some request.container ∧
        (files m.state).fileInfo? request.container =
          (files s).fileInfo? request.container) ∧
    ∀ source, (stageRun respond p probe text .container s).report.result = .ok source →
      ∃ q info, (p.layout.containers (files s) probe).find? (files s).isFile = some q ∧
        (files s).fileInfo? q = some info ∧ source.provenance = .container ∧
        source.origin = some ⟨q, some info.modified, info.length⟩ := by
  cases hc : probe.className with
  | none =>
    -- Without a class the stage fails before it asks anything.
    have hplan : p.tryStage probe text .container =
        .done { result := .error (.error classUnknown) } := by
      show p.enclosing probe = _
      unfold enclosing
      rw [hc]
      rfl
    have hrun : (stageRun respond p probe text .container s).inside = [] ∧
        (stageRun respond p probe text .container s).report.result =
          .error (.error classUnknown) := by
      unfold stageRun
      rw [hplan]
      exact ⟨rfl, rfl⟩
    rw [hrun.1, hrun.2]
    exact ⟨nofun, nofun⟩
  | some c =>
    obtain ⟨hpassed, -, hsource⟩ := leads_enclosing (p := p) h (files s) hc _ (checked respond s)
      ⟨h.isCancelled s, rfl⟩
    constructor
    · intro m hm request hrequest
      have hfirst : (p.layout.containers (files s) probe).find? (files s).isFile =
          some request.container := hpassed m hm request hrequest
      -- The file is still there when it is passed on, as a stage takes nothing away.
      have hfile : (files s).isFile request.container = true := List.find?_some hfirst
      obtain ⟨info, hinfo⟩ := Option.isSome_iff_exists.mp hfile
      refine ⟨hfirst, ?_⟩
      rw [hinfo, (h.extends_of_mem_inside hs hm).fileInfo? hinfo]
    · intro source hok
      obtain ⟨q, info, hfirst, hinfo, hprovenance, t, ht, horigin⟩ := hsource source hok
      -- The date that is told is the time of the file.
      rw [lawful.keeps ht] at horigin
      exact ⟨q, info, hfirst, hinfo, hprovenance, horigin⟩

/-- The first file that can be read is taken for Java source; a file without a date cannot be. -/
theorem existing_takes_first (h : Orderly respond files) (lawful : p.calendar.Lawful)
    (probe : Probe) (text : Option String) (s : σ) :
    match (p.layout.sources probe).find? (isReadable (files s)) with
    | some q => ∃ content info, (files s).read q = .ok content ∧
        (files s).fileInfo? q = some info ∧ info.length = content.length ∧
        (stageRun respond p probe text .existing s).report.result =
          match p.calendar.dateTime info.modified with
          | .ok _ => .ok ⟨Text.decodeLossy content, .existing,
              some ⟨q, some info.modified, info.length⟩⟩
          | .error message => .error (.panic message)
    | none => ∃ message, (stageRun respond p probe text .existing s).report.result =
        .error (.error (.sourceNotFound message)) := by
  -- The stage looks at the files right after the check before it.
  have hlook : (respond .look (checked respond s)).1 = files s :=
    (h.look _).1.trans (h.isCancelled s)
  cases hfirst : (p.layout.sources probe).find? (isReadable (files s)) with
  | some q =>
    obtain ⟨content, info, hread, hinfo, hsource⟩ :=
      sourceAt_of_isReadable p.calendar (List.find?_some hfirst)
    obtain ⟨hfile, hlength⟩ := fileInfo?_of_read hread hinfo
    refine ⟨content, info, hread, hfile, hlength, ?_⟩
    rw [existing_result (by rw [hlook, hfirst]), hlook, hsource, Origin.ofInfo]
    cases hdate : p.calendar.dateTime info.modified with
    | ok t => rw [lawful.keeps hdate]; rfl
    | error message => rfl
  | none =>
    show ∃ message, ((p.existing probe).run respond (checked respond s)).1.result = _
    unfold existing
    cases hc : probe.className with
    | none => exact ⟨_, rfl⟩
    | some c =>
      have hlook' (t : σ) : Plan.look.run respond t = respond .look t := rfl
      rw [run_bind, hlook', hlook]
      dsimp only
      rw [hfirst]
      exact ⟨_, rfl⟩

/-- What a stage gives has an origin, unless it was made from the unit itself. -/
theorem isSome_origin_of_mem_stageRuns (h : Orderly respond files) (lawful : p.calendar.Lawful)
    {probe : Probe} {text : Option String} {stages : List Stage} {t : FileTree} {s : σ}
    (hs : Orderly.Calm files p.homes t s) {r : StageRun σ}
    (hr : r ∈ stageRuns respond p probe text stages s) {source : JavaSource}
    (hok : r.report.result = .ok source) :
    source.origin.isSome = true ↔ source.provenance ≠ .realtime := by
  have hgrounded : (files r.before).Grounded := (h.calm_of_mem_stageRuns hs hr).2
  have hstage := eq_stageRun_of_mem hr
  rw [hstage] at hok
  -- Each stage says for itself what it gives as origin.
  cases hkind : r.stage with
  | realtime =>
    rw [hkind] at hok
    obtain ⟨hprovenance, horigin⟩ := realtime_searches.2 source hok
    simp [hprovenance, horigin]
  | container =>
    rw [hkind] at hok
    obtain ⟨q, info, -, -, hprovenance, horigin⟩ :=
      (container_takes_first h lawful probe text hgrounded).2 source hok
    simp [hprovenance, horigin]
  | existing =>
    rw [hkind] at hok
    have htakes := existing_takes_first h lawful probe text r.before
    split at htakes
    · obtain ⟨content, info, -, -, -, hresult⟩ := htakes
      rw [hok] at hresult
      split at hresult
      · obtain rfl := Except.ok.inj hresult
        simp
      · cases hresult
    · obtain ⟨message, hresult⟩ := htakes
      cases hok.symm.trans hresult

/-! ## The theorem -/

/-- **The first match is taken.** In every lawful calendar, however stages are tried one after another,
with tools that write where they are told to, each stage begins with the files as they were found
but for directories to work in. Seen from there:

* the stage for containers passes no container to the decompiler but the first candidate that is a
  file, and this is still the same file then; what comes out of it has the path and the length of
  this file as its origin;
* the stage for Java source on disk comes to the text of the first candidate that can be read, with
  the path and the length of this file as its origin, or breaks off if the file has no date. It finds
  no source only if no candidate can be read.

What a conversion delivers comes from such a stage, and it has an origin unless it was made from the
unit itself. -/
theorem search_takes_first_match {respond : Respondent σ} {files : σ → FileTree}
    (h : Orderly respond files) (p : Pipeline) (lawful : p.calendar.Lawful) (probe : Probe)
    (text : Option String) (stages : List Stage) (s : σ) (hs : (files s).Grounded) :
    (∀ r ∈ stageRuns respond p probe text stages s,
      let tree := files r.before
      Furnished p.homes (files s) tree ∧
      (r.stage = .container →
        (∀ m ∈ r.inside, ∀ request, m.question = .decompile request →
          (p.layout.containers tree probe).find? tree.isFile = some request.container ∧
          (files m.state).fileInfo? request.container = tree.fileInfo? request.container) ∧
        ∀ source, r.report.result = .ok source →
          ∃ q info, (p.layout.containers tree probe).find? tree.isFile = some q ∧
            tree.fileInfo? q = some info ∧ source.provenance = .container ∧
            source.origin = some ⟨q, some info.modified, info.length⟩) ∧
      (r.stage = .existing →
        match (p.layout.sources probe).find? (isReadable tree) with
        | some q => ∃ content info, tree.read q = .ok content ∧
            tree.fileInfo? q = some info ∧ info.length = content.length ∧
            r.report.result =
              match p.calendar.dateTime info.modified with
              | .ok _ => .ok ⟨Text.decodeLossy content, .existing,
                  some ⟨q, some info.modified, info.length⟩⟩
              | .error message => .error (.panic message)
        | none => ∃ message, r.report.result = .error (.error (.sourceNotFound message)))) ∧
    ∀ file source, ((p.resolve file text).run respond s).1 = .outcome (.success source) →
      (∃ r ∈ chain respond p file text s, r.report.result = .ok source) ∧
      (source.origin.isSome = true ↔ source.provenance ≠ .realtime) := by
  have hcalm : Orderly.Calm files p.homes (files s) s := ⟨.refl _ _, hs⟩
  constructor
  · intro r hr tree
    -- The stage is the one of its kind, begun with these files.
    obtain ⟨hfurnished, hgrounded⟩ := h.calm_of_mem_stageRuns hcalm hr
    have hstage := eq_stageRun_of_mem hr
    refine ⟨hfurnished, fun hcontainer => ?_, fun hexisting => ?_⟩
    · rw [hcontainer] at hstage
      rw [hstage]
      exact container_takes_first h lawful probe text hgrounded
    · rw [hexisting] at hstage
      rw [hstage]
      exact existing_takes_first h lawful probe text r.before
  · intro file source hresult
    obtain ⟨ms, htried, -⟩ := tried_resolve respond p file text s
    rw [hresult] at htried
    obtain ⟨r, hr, hok⟩ := htried.stage_of_success
    exact ⟨⟨r, hr, hok⟩, isSome_origin_of_mem_stageRuns h lawful (h.calm_headerText hcalm) hr hok⟩

theorem toolless_orderly : Orderly toolless id := by
  refine orderly_of_reading (fun _ => rfl) (fun _ _ => rfl) fun q tree hq => ?_
  cases q <;> first | rfl | exact absurd rfl (hq _)

/-- The first Java source that can be read is found, but it has no date, so it is not taken. -/
theorem undated_match_is_not_taken :
    let tree := sourceTree ⟨9000000000000, 0⟩
    let probe := probeFrom toolless ⟨"/p/smali/A.smali"⟩ none tree
    Orderly toolless id ∧ tree.Grounded ∧
      ∃ r ∈ stageRuns toolless plain probe none Stage.all tree, r.stage = .existing ∧
        ∃ q info, (plain.layout.sources probe).find? (isReadable r.before) = some q ∧
          r.before.fileInfo? q = some info ∧
          plain.calendar.dateTime info.modified = .error "No such local time" ∧
          r.report.result = .error (.panic "No such local time") := by
  intro tree probe
  have hgrounded : tree.Grounded :=
    ⟨FileTree.sound_of_isSound (by decide +kernel), by decide +kernel⟩
  have hruns : (stageRuns toolless plain probe none Stage.all tree).getLast?.map
      (fun r => (r.stage, (plain.layout.sources probe).find? (isReadable r.before),
        r.report.result)) =
      some (.existing, some ⟨"/p/java_src/A.java"⟩, .error (.panic "No such local time")) := by
    decide +kernel
  obtain ⟨r, hlast, heq⟩ := Option.map_eq_some_iff.mp hruns
  have hr := List.mem_of_getLast? hlast
  obtain ⟨hstage, heq⟩ := Prod.mk.inj heq
  obtain ⟨hfirst, hresult⟩ := Prod.mk.inj heq
  have h := (search_takes_first_match toolless_orderly plain Calendar.gregorian_lawful probe none
    Stage.all tree hgrounded).1 r hr
  dsimp only [id] at h
  rw [hfirst] at h
  obtain ⟨content, info, -, hinfo, -, htaken⟩ := h.2.2 hstage
  refine ⟨toolless_orderly, hgrounded, r, hr, hstage, _, info, hfirst, hinfo, ?_, hresult⟩
  rw [hresult] at htaken
  split at htaken
  · cases htaken
  · next message hdate =>
    cases htaken
    exact hdate

end Pipeline

end SmaliView
