import SmaliView.Proofs.Files.Missing
import SmaliView.Proofs.Pipeline.Candidates
import SmaliView.Proofs.Pipeline.ReadOnly
import SmaliView.Proofs.Pipeline.StageResults
import SmaliView.Report.Locate

/-!
# Conversions search where they are said to

The report on the places of a unit is made from the files as they are, while a conversion looks at
them after it has made a directory to work in. The two agree on every path that does not turn back at
a directory that was missing: the places that a failed conversion has searched, and the file that a
successful one has taken, are those of the report.
-/

namespace SmaliView

variable {σ : Type}

open FileTree Plan

/-! ## What is inspected -/

namespace Layout

/-- A directory, and what lies in it. -/
def listing (tree : FileTree) (dir : Path) : List Path :=
  match tree.list dir with
  | .ok names => dir :: names.map fun (name : String) => dir / name
  | .error _ => [dir]

/-- All paths that the searches of a unit look at: the directories that are listed, what lies in
them, and the candidates. -/
def inspected (layout : Layout) (tree : FileTree) (probe : Probe) : List Path :=
  (match probe.anchor with
    | none => []
    | some anchor => (layout.searched anchor).flatMap fun dir =>
      listing tree (dir / "dist") ++ listing tree dir)
  ++ layout.encountered tree probe ++ layout.sources probe

/-- A directory is listed itself. -/
theorem mem_listing_self (tree : FileTree) (dir : Path) : dir ∈ listing tree dir := by
  unfold listing
  split
  · exact List.mem_cons_self ..
  · exact List.mem_singleton_self _

/-- What is listed in a directory stands in its listing. -/
theorem mem_listing_of_listed {tree : FileTree} {dir q : Path} {m : Location}
    (hm : tree.locate dir = .ok m) (hdir : tree.entryAt? m = some .directory)
    (hq : q ∈ tree.entries.entries.filterMap (listed dir m)) : q ∈ listing tree dir := by
  rw [listing, list_eq hm, hdir]
  refine List.mem_cons_of_mem _ ?_
  rw [map_namesIn]
  exact hq

end Layout

namespace FileTree

open Layout

variable {t u : FileTree} {dirs : List Path} {dir q : Path} {m : Location}

/-- What is new in a directory is no file. -/
theorem Furnished.isFile_new (h : Furnished dirs t u) (hu : u.Sound) {e : Location × Entry}
    (hm : u.locate dir = .ok m) (hdir : u.entryAt? m = some .directory)
    (he : e ∈ u.entries.entries) (hnew : t.entryAt? e.1 = none) (hq : listed dir m e = some q) :
    u.isFile q = false := by
  obtain ⟨e', hentry⟩ := Option.isSome_iff_exists.mp (isSome_of_mem_entries he)
  -- Only directories were made.
  obtain ⟨rfl, -⟩ := h.added _ _ hnew hentry
  refine Bool.eq_false_iff.mpr fun hfile => ?_
  have hlocate := locate_of_listed hu hm hdir he hq (by rw [link?, hentry]) hfile
  obtain ⟨content, modified, may, hfind⟩ := exists_find_of_isFile hfile
  rw [find_of_locate hlocate, hentry] at hfind
  cases hfind

/-- The APKs in a directory are the same as before it or others were made. -/
theorem Furnished.apksIn (h : Furnished dirs t u) (ht : t.Sound) (hu : u.Sound)
    (hstraight : ∀ q ∈ listing t dir, Straight dirs t q) :
    Layout.apksIn u dir = Layout.apksIn t dir := by
  have hend := h.locate_alike ht (hstraight dir (mem_listing_self t dir))
  by_cases hdir : ∃ m, t.locate dir = .ok m ∧ t.entryAt? m = some .directory
  · -- What was listed before is listed still, and what is new is no file.
    obtain ⟨m, hm, hentry⟩ := hdir
    have hm' := h.grows.extends.locate hm
    have hentry' := h.entryAt? hentry
    rw [apksIn_of_directory hm hentry, apksIn_of_directory hm' hentry']
    refine congrArg (List.mergeSort · _) ?_
    rw [← filter_filterMap_filter (isApkFile u) (listed dir m)
      (fun e => (t.entryAt? e.1).isSome) u.entries.entries]
    · have hkept : u.entries.entries.filter (fun e => (t.entryAt? e.1).isSome) =
          t.entries.entries := congrArg Table.entries h.kept
      rw [hkept]
      refine List.filter_congr fun q hq => ?_
      have hq := hstraight q (mem_listing_of_listed hm hentry hq)
      rw [isApkFile, isApkFile, h.isFile ht hq]
    · intro e he hnew q hq
      rw [isApkFile, h.isFile_new hu hm' hentry' he (by simpa using hnew) hq, Bool.and_false]
  · -- No directory was there, so no APKs were; if one is now, it is new.
    have hnone : Layout.apksIn t dir = [] :=
      apksIn_of_not_directory fun m hm hentry => hdir ⟨m, hm, hentry⟩
    rw [hnone]
    by_cases hdir' : ∃ m, u.locate dir = .ok m ∧ u.entryAt? m = some .directory
    swap
    · exact apksIn_of_not_directory fun m hm hentry => hdir' ⟨m, hm, hentry⟩
    obtain ⟨m, hm, hentry⟩ := hdir'
    -- A directory that was none before stands where nothing was.
    have hfree : t.entryAt? m = none := by
      rcases hend with heq | ⟨-, hnone⟩
      · cases hsome : t.entryAt? m with
        | none => rfl
        | some e =>
          have he : e = .directory := Option.some.inj ((h.entryAt? hsome).symm.trans hentry)
          exact absurd ⟨m, heq.trans hm, he ▸ hsome⟩ hdir
      · exact hnone m hm
    rw [apksIn_of_directory hm hentry, List.filter_eq_nil_iff.mpr, List.mergeSort_nil]
    intro q hq hfile
    obtain ⟨e, he, hlisted⟩ := List.mem_filterMap.mp hq
    obtain ⟨name, hname, -⟩ := listed_eq_some hlisted
    have hnew : t.entryAt? e.1 = none := by
      rw [hname]
      exact ht.entryAt?_append hfree [name]
    rw [isApkFile, h.isFile_new hu hm hentry he hnew hlisted, Bool.and_false] at hfile
    cases hfile

end FileTree

namespace Pipeline

variable {t u : FileTree} {dirs : List Path} {layout : Layout} {probe : Probe} {q : Path}

/-- The containers of a unit are the same as before. -/
theorem containers_furnished (h : Furnished dirs t u) (ht : t.Sound) (hu : u.Sound)
    (hstraight : ∀ q ∈ layout.inspected t probe, Straight dirs t q) :
    layout.containers u probe = layout.containers t probe := by
  rw [Layout.containers_eq, Layout.containers_eq, Layout.encountered, Layout.encountered]
  cases hanchor : probe.anchor with
  | none => rfl
  | some anchor =>
    refine congrArg Path.dedup (List.flatMap_congr fun dir hdir => ?_)
    -- Every directory that is listed, and what lies in it, is among the paths that are inspected.
    have hlisting : ∀ q ∈ Layout.listing t (dir / "dist") ++ Layout.listing t dir,
        Straight dirs t q := by
      intro q hq
      refine hstraight q ?_
      rw [Layout.inspected, hanchor]
      refine List.mem_append_left _ (List.mem_append_left _ ?_)
      exact List.mem_flatMap.mpr ⟨dir, hdir, hq⟩
    rw [Layout.containersIn, Layout.containersIn,
      h.apksIn ht hu fun q hq => hlisting q (List.mem_append_left _ hq),
      h.apksIn ht hu fun q hq => hlisting q (List.mem_append_right _ hq)]

/-- New directories change nothing about which files can be read. -/
theorem isReadable_furnished (h : Furnished dirs t u) (ht : t.Sound) (hq : Straight dirs t q) :
    isReadable u q = isReadable t q := by
  rw [isReadable, isReadable, h.isFile ht hq]
  -- A file that was there before is the same now.
  cases hfile : t.isFile q with
  | false => rfl
  | true =>
    obtain ⟨content, modified, may, hfind⟩ := exists_find_of_isFile hfile
    rw [FileTree.read, FileTree.read, hfind, (h.find_file_iff ht hq _ _ _).mpr hfind]

/-! ## What the stages report -/

section

variable {respond : Respondent σ} {right : Moment σ → Prop} {p : Pipeline} {c : ClassName} {s : σ}
  {α β : Type}

open StagePlan

theorem ensures_any (x : StagePlan α) :
    Ensures respond right x.run (Settles (fun _ => True) fun _ => True) := by
  intro s _
  rcases (x.run.run respond s).1 with (e | message) | a
  · exact .error e
  · exact .panic trivial
  · exact .ok trivial

/-- What the first stage comes to was made from the unit and has no origin. -/
theorem ensures_realtime_provenance (probe : Probe) (text : Option String) :
    Ensures respond right (p.realtime probe text).run
      (Settles (fun source => source.provenance = .realtime ∧ source.origin = none)
        fun _ => True) := by
  unfold realtime
  split
  · exact ensures_fail _
  · refine ensures_bind (ensures_any _) fun _ _ => ensures_bind (ensures_any _) fun _ _ => ?_
    refine ensures_withScratch p fun dir => ?_
    unfold assembledSource
    refine ensures_bind (ensures_any _) fun unit _ => ensures_bind (ensures_any _) fun answer _ => ?_
    split
    · refine ensures_checkToken_bind ?_
      exact ensures_bind (ensures_any _) fun text _ => ensures_pure ⟨rfl, rfl⟩
    · exact ensures_fail _

/-- A decompiler that is called gets a container as `right` says. -/
def Passes (right : Path → Prop) (m : Moment σ) : Prop :=
  ∀ request, m.question = .decompile request → right request.container

variable {passed : Path → Prop} {container : Path}

/-- Only calls of a decompiler count. -/
theorem leads_passing {q : Question} (hq : ∀ request, q ≠ .decompile request) :
    Leads respond (Passes passed) (fun _ => True) (Plan.question q) fun _ _ => True :=
  Leads.question fun _ _ => ⟨fun request heq => absurd heq (hq request), trivial⟩

/-- Work in a scratch directory hands the decompiler only what the work itself hands it. -/
theorem leads_withScratch_passing (p : Pipeline) {work : Path → StagePlan α}
    (hwork : ∀ dir, Leads respond (Passes passed) (fun _ => True) (work dir).run
      (Lands (fun _ _ => True) fun _ => True)) :
    Leads respond (Passes passed) (fun _ => True) (p.withScratch work).run
      (Lands (fun _ _ => True) fun _ => True) := by
  refine Leads.bind (leads_passing nofun) fun tree => ?_
  refine Leads.bind (leads_passing nofun) fun _ => ?_
  split
  · exact Leads.done fun _ _ => trivial
  · next dir _ =>
    refine (hwork dir).bind fun result => ?_
    -- Removing the directory asks no decompiler.
    have hend : Leads respond (Passes passed) (fun _ => True)
        (Plan.look >>= fun tree => Plan.change (tree.removeTree dir) >>= fun _ =>
          Plan.done result) (Lands (fun _ _ => True) fun _ => True) := by
      refine Leads.bind (leads_passing nofun) fun tree => ?_
      refine Leads.bind (leads_passing nofun) fun _ => Leads.done fun _ _ => ?_
      cases result <;> trivial
    exact hend.mono (fun _ _ => trivial) (fun _ hm => hm) fun _ _ h => h

/-- Getting the Java source hands the decompiler one container. -/
theorem leads_javaOf_passing (hpassed : passed container) (c : ClassName) (scratch : Path) :
    Leads respond (Passes passed) (fun _ => True) (javaOf c container scratch).run
      (Lands (fun _ _ => True) fun _ => True) := by
  have hcall (request : DecompileRequest) (hrequest : request.container = container) :
      Leads respond (Passes passed) (fun _ => True) (decompile request).run
        (Lands (fun _ _ => True) fun _ => True) := by
    refine leads_reply (Leads.question fun _ _ => ⟨?_, trivial⟩) fun _ _ => trivial
    rintro _ ⟨⟩
    exact hrequest ▸ hpassed
  unfold javaOf
  refine leads_bind (hcall _ rfl) fun answer => ?_
  unfold javaIn
  split
  · refine leads_checkToken_bind (leads_passing nofun) (fun _ _ => trivial) ?_
    refine leads_reply (Leads.bind (leads_passing nofun) fun files => ?_) fun _ _ => trivial
    exact Leads.done fun _ _ => trivial
  · exact leads_fail _ fun _ _ => trivial

/-- A container is passed to the decompiler, and is the origin of what comes out of it. -/
theorem leads_containerSource (hpassed : passed container) (c : ClassName) (info : FileInfo) :
    Leads respond (Passes passed) (fun _ => True) (p.containerSource c container info).run
      (Lands (fun source _ => source.provenance = .container ∧
        ∃ t, p.calendar.dateTime info.modified = .ok t ∧
          source.origin = some ⟨container, some t, info.length⟩) fun _ => True) := by
  refine leads_bind (leads_withScratch_passing p (leads_javaOf_passing hpassed c)) fun text => ?_
  have horigin : Leads respond (Passes passed) (fun _ => True)
      (ExceptT.mk (pure (Origin.ofInfo p.calendar container info)) : StagePlan Origin).run
      (Lands (fun origin _ => ∃ t, p.calendar.dateTime info.modified = .ok t ∧
        origin = ⟨container, some t, info.length⟩) fun _ => True) := by
    refine Leads.done fun _ _ => ?_
    unfold Origin.ofInfo
    split
    · next t ht => exact ⟨t, ht, rfl⟩
    · trivial
  refine leads_bind horigin fun origin => leads_pure ?_
  rintro _ ⟨t, ht, rfl⟩
  exact ⟨rfl, t, ht, rfl⟩

/-- What a search reports: the candidates up to the first that is found, and Java source, if there
is any, that comes from this one. -/
structure Report.Searches (r : Report) (provenance : Provenance) (candidates : List Path)
    (found : Path → Bool) : Prop where
  searched : r.searched = upTo found candidates
  origin : ∀ source, r.result = .ok source → source.provenance = provenance ∧
    ∃ q, candidates.find? found = some q ∧ source.origin.map Origin.path = some q

/-- The first candidate with information is the first one that is a file. -/
theorem findSome?_fileInfo? (tree : FileTree) (candidates : List Path) :
    (candidates.findSome? fun q => (tree.fileInfo? q).map (q, ·)).map Prod.fst =
      candidates.find? tree.isFile := by
  induction candidates with
  | nil => rfl
  | cons q candidates ih =>
    rw [List.findSome?_cons, List.find?_cons, isFile]
    cases tree.fileInfo? q with
    | none => exact ih
    | some info => rfl

section

variable {files : σ → FileTree} (h : Orderly respond files) (v : FileTree)
include h

/-- With a decompiler the first container that is there is decompiled; without one no container is
searched for. -/
theorem leads_enclosing (hc : probe.className = some c) (ready : Bool) :
    Leads respond
      (Passes fun container => (p.layout.containers v probe).find? v.isFile = some container)
      (fun s => files s = v ∧ (respond .decompilerReady s).1 = ready)
      (p.enclosing probe) fun r _ =>
        (if ready = true then r.Searches .container (p.layout.containers v probe) v.isFile
        else r.searched = [] ∧ ∃ e, r.result = .error e) ∧
        ∀ source, r.result = .ok source → ∃ q info,
          (p.layout.containers v probe).find? v.isFile = some q ∧ v.fileInfo? q = some info ∧
            source.provenance = .container ∧ ∃ t, p.calendar.dateTime info.modified = .ok t ∧
              source.origin = some ⟨q, some t, info.length⟩ := by
  -- Whether there is a decompiler is asked first, and asking leaves the files alone.
  have hready : Leads respond
      (Passes fun container => (p.layout.containers v probe).find? v.isFile = some container)
      (fun s => files s = v ∧ (respond .decompilerReady s).1 = ready)
      (Plan.question .decompilerReady) fun b s => b = ready ∧ files s = v :=
    Leads.question fun s hs => ⟨nofun, hs.2, (h.decompilerReady s).trans hs.1⟩
  unfold enclosing
  rw [hc]
  refine hready.bind fun b => ?_
  cases b with
  | false =>
    refine Leads.done ?_
    rintro s ⟨rfl, -⟩
    exact ⟨⟨rfl, _, rfl⟩, nofun⟩
  | true =>
    refine Leads.look_bind ?_
    rintro s ⟨rfl, rfl⟩
    refine ⟨nofun, ?_⟩
    rw [(h.look s).1]
    have hfirst := findSome?_fileInfo? (files s) (p.layout.containers (files s) probe)
    dsimp only
    cases hfound : (p.layout.containers (files s) probe).findSome?
        fun q => ((files s).fileInfo? q).map (q, ·) with
    | none => exact Leads.done fun _ _ => ⟨⟨rfl, nofun⟩, nofun⟩
    | some found =>
      obtain ⟨container, info⟩ := found
      rw [hfound] at hfirst
      -- What is told about the container is told about the files that were looked at.
      have hinfo : (files s).fileInfo? container = some info := by
        obtain ⟨q, -, hq⟩ := List.exists_of_findSome?_eq_some hfound
        obtain ⟨info', hinfo, heq⟩ := Option.map_eq_some_iff.mp hq
        cases heq
        exact hinfo
      refine Leads.bind ((leads_containerSource hfirst.symm c info).mono (fun _ _ => trivial)
        (fun _ hm => hm) fun _ _ hresult => hresult) fun result => Leads.done fun _ hresult => ?_
      refine ⟨⟨rfl, ?_⟩, ?_⟩
      · rintro source rfl
        obtain ⟨hprovenance, t, -, horigin⟩ := hresult
        exact ⟨hprovenance, container, hfirst.symm, congrArg (Option.map Origin.path) horigin⟩
      · rintro source rfl
        exact ⟨container, info, hfirst.symm, hinfo, hresult⟩

/-- The first Java source that can be read is taken. -/
theorem leads_existing (hc : probe.className = some c) :
    Leads respond (fun _ => True) (fun s => files s = v) (p.existing probe) fun r _ =>
      r.Searches .existing (p.layout.sources probe) (isReadable v) ∧
        ∀ e, r.result = .error (.error e) →
          (p.layout.sources probe).find? (isReadable v) = none := by
  unfold existing
  rw [hc]
  refine Leads.look_bind ?_
  rintro s rfl
  refine ⟨trivial, ?_⟩
  rw [(h.look s).1]
  dsimp only
  cases hfound : (p.layout.sources probe).find? (isReadable (files s)) with
  | none => exact Leads.done fun _ _ => ⟨⟨rfl, nofun⟩, fun _ _ => rfl⟩
  | some q =>
    refine Leads.done fun _ _ => ?_
    obtain ⟨content, info, -, -, hsource⟩ :=
      sourceAt_of_isReadable p.calendar (List.find?_some hfound)
    rw [hsource, Origin.ofInfo]
    split
    · refine ⟨⟨rfl, ?_⟩, nofun⟩
      rintro source hok
      obtain rfl := Except.ok.inj hok
      exact ⟨rfl, q, hfound, rfl⟩
    · exact ⟨⟨rfl, nofun⟩, nofun⟩

end

/-- Only what is found at the candidates decides what a stage says that it has searched. -/
theorem Report.Searches.congr {r : Report} {provenance : Provenance} {candidates : List Path}
    {found found' : Path → Bool} (h : r.Searches provenance candidates found)
    (hfound : ∀ q ∈ candidates, found q = found' q) : r.Searches provenance candidates found' := by
  refine ⟨h.searched.trans (upTo_congr hfound), fun source hsource => ?_⟩
  obtain ⟨hprovenance, q, hq, horigin⟩ := h.origin source hsource
  exact ⟨hprovenance, q, (List.find?_congr hfound).symm.trans hq, horigin⟩

end

end Pipeline

/-! ## Stages of a conversion -/

open Pipeline

section

variable {respond : Respondent σ} {files : σ → FileTree} {p : Pipeline} {probe : Probe}
  {text : Option String} {t : FileTree} {c : ClassName} {s : σ}

/-- The second stage is the only one that needs just a decompiler, and asks for it first. -/
theorem mem_inside_decompilerReady (hc : probe.className = some c) :
    ⟨checked respond s, .decompilerReady⟩ ∈ (stageRun respond p probe text .container s).inside := by
  show _ ∈ (p.enclosing probe).moments respond (checked respond s)
  unfold enclosing
  rw [hc]
  exact List.mem_cons_self ..

namespace Orderly

variable (h : Orderly respond files) (ht : t.Sound) (hs : Calm files p.homes t s)
  (hc : probe.className = some c)
  (hstraight : ∀ q ∈ p.layout.inspected t probe, Straight p.homes t q)
include h ht hs hc hstraight

/-- The second stage searches for containers as if no directory to work in had been made. -/
theorem container_searches :
    if (respond .decompilerReady (checked respond s)).1 = true then
      (stageRun respond p probe text .container s).report.Searches .container
        (p.layout.containers t probe) t.isFile
    else (stageRun respond p probe text .container s).report.searched = [] ∧
      ∃ e, (stageRun respond p probe text .container s).report.result = .error e := by
  obtain ⟨-, hreport, -⟩ := leads_enclosing h (files s) hc _ (checked respond s)
    ⟨h.isCancelled s, rfl⟩
  rw [containers_furnished hs.1 ht hs.2.toSound hstraight] at hreport
  -- Each candidate is inspected, so that it is a file now exactly if it was before.
  split at hreport
  · next hready =>
    rw [if_pos hready]
    refine hreport.congr fun q hq => hs.1.isFile ht (hstraight q ?_)
    rw [Layout.containers_eq] at hq
    exact List.mem_append_left _ (List.mem_append_right _ (Path.dedup_subset _ hq))
  · next hready =>
    rw [if_neg hready]
    exact hreport

/-- The third stage searches for Java source as if no directory to work in had been made. -/
theorem existing_searches :
    (stageRun respond p probe text .existing s).report.Searches .existing
        (p.layout.sources probe) (isReadable t) ∧
      ∀ e, (stageRun respond p probe text .existing s).report.result = .error (.error e) →
        (p.layout.sources probe).find? (isReadable t) = none := by
  -- Each candidate can be read now exactly if it could before.
  have hsame : ∀ q ∈ p.layout.sources probe, isReadable (files s) q = isReadable t q :=
    fun q hq => isReadable_furnished hs.1 ht (hstraight q (List.mem_append_right _ hq))
  obtain ⟨-, hsearches, hfails⟩ := leads_existing h (files s) hc (checked respond s)
    (h.isCancelled s)
  rw [List.find?_congr hsame] at hfails
  exact ⟨hsearches.congr hsame, hfails⟩

end Orderly

/-- The first stage gives Java source of its own and searches nowhere. -/
theorem realtime_searches :
    (stageRun respond p probe text .realtime s).report.searched = [] ∧
      ∀ source, (stageRun respond p probe text .realtime s).report.result = .ok source →
        source.provenance = .realtime ∧ source.origin = none := by
  have hensures : Ensures respond (fun _ => True) (p.realtime probe text).run
      (Settles (fun source => source.provenance = .realtime ∧ source.origin = none)
        fun _ => True) :=
    ensures_realtime_provenance probe text
  have hresult := hensures (checked respond s) fun _ _ => True.intro
  have hreport : (stageRun respond p probe text .realtime s).report =
      { result := ((p.realtime probe text).run.run respond (checked respond s)).1 } := by
    show ((p.tryStage probe text .realtime).run respond (checked respond s)).1 = _
    unfold tryStage
    rw [run_bind]
    rfl
  rw [hreport]
  refine ⟨rfl, fun source hsource => ?_⟩
  dsimp only at hsource
  rw [hsource] at hresult
  cases hresult with
  | ok hmade => exact hmade

/-- What a stage reports that searches among the files of a tree. -/
def StageRun.SearchesIn (respond : Respondent σ) (p : Pipeline) (probe : Probe) (t : FileTree)
    (r : StageRun σ) : Prop :=
  match r.stage with
  | .realtime => r.report.searched = [] ∧
      ∀ source, r.report.result = .ok source → source.provenance = .realtime
  | .container =>
      if (respond .decompilerReady (checked respond r.before)).1 = true then
        r.report.Searches .container (p.layout.containers t probe) t.isFile
      else r.report.searched = [] ∧ ∃ e, r.report.result = .error e
  | .existing => r.report.Searches .existing (p.layout.sources probe) (isReadable t) ∧
      ∀ e, r.report.result = .error (.error e) →
        (p.layout.sources probe).find? (isReadable t) = none

/-- All stages search as if no directory to work in had been made. -/
theorem Orderly.searchesIn_of_mem_stageRuns (h : Orderly respond files) (ht : t.Sound)
    (hs : Calm files p.homes t s) (hc : probe.className = some c)
    (hstraight : ∀ q ∈ p.layout.inspected t probe, Straight p.homes t q) {stages : List Stage}
    {r : StageRun σ} (hr : r ∈ stageRuns respond p probe text stages s) :
    r.SearchesIn respond p probe t := by
  induction stages generalizing s with
  | nil => cases hr
  | cons stage rest ih =>
    rcases List.mem_cons.mp hr with rfl | hr
    · cases stage with
      | realtime => exact realtime_searches.imp_right fun hmade source hok => (hmade source hok).1
      | container => exact h.container_searches ht hs hc hstraight
      | existing => exact h.existing_searches ht hs hc hstraight
    · exact ih (h.calm_stageRun probe text stage hs) hr

end

namespace Pipeline

/-- Searching renamed candidates is renaming those that are searched. -/
theorem upTo_map {α β : Type} (f : β → Bool) (g : α → β) (as : List α) :
    upTo f (as.map g) = (upTo (f ∘ g) as).map g := by
  induction as with
  | nil => rfl
  | cons a as ih =>
    rw [List.map_cons, upTo, upTo, ih, Function.comp_apply]
    split <;> rfl

/-- Without a match all candidates are searched. -/
theorem upTo_of_find?_eq_none {α : Type} {f : α → Bool} {as : List α} (h : as.find? f = none) :
    upTo f as = as := by
  induction as with
  | nil => rfl
  | cons a as ih =>
    rw [List.find?_cons] at h
    rw [upTo]
    cases ha : f a with
    | true =>
      rw [ha] at h
      cases h
    | false =>
      rw [ha] at h
      exact congrArg (a :: ·) (ih h)

section

variable {respond : Respondent σ} {p : Pipeline} {probe : Probe} {text : Option String}
  {stages : List Stage} {tried : Progress} {s : σ} {ms : List (Moment σ)}

/-- An explanation tells where all stages have searched. -/
theorem Tried.searched_of_explained {result : Resolution} {why : Explanation}
    (h : Tried respond p probe text stages tried s result ms)
    (hwhy : result = .outcome (.notFound why) ∨ result = .outcome (.failed why)) :
    why.searched = tried.searched ++
        (stageRuns respond p probe text stages s).flatMap (·.report.searched) ∧
      ∀ r ∈ stageRuns respond p probe text stages s,
        r.inside ⊆ ms ∧ ∃ e, r.report.result = .error (.error e) := by
  induction h with
  | fired hb => rcases hwhy with hwhy | hwhy <;> cases hwhy
  | @exhausted tried s hb =>
    have hsearched : why.searched = tried.searched := by
      rw [conclude] at hwhy
      split at hwhy <;> rcases hwhy with hwhy | hwhy <;> cases hwhy <;> rfl
    exact ⟨by rw [hsearched, stageRuns, List.flatMap_nil, List.append_nil], nofun⟩
  | panicked hb hr => rcases hwhy with hwhy | hwhy <;> cases hwhy
  | cancelled hb hr ha => rcases hwhy with hwhy | hwhy <;> cases hwhy
  | found hb hr ha => rcases hwhy with hwhy | hwhy <;> cases hwhy
  | @fell stage rest tried s e result later hb hr he ha next ih =>
    -- Only a conversion in which every stage fell comes to an explanation.
    obtain ⟨hsearched, hrest⟩ := ih hwhy
    refine ⟨by rw [hsearched, stageRuns, List.flatMap_cons, List.append_assoc], ?_⟩
    intro r hmem
    rcases List.mem_cons.mp hmem with rfl | hmem
    · refine ⟨fun m hm => ?_, e, hr⟩
      exact List.mem_append_left _ (StageRun.mem_moments_of_mem_inside hm)
    · obtain ⟨hinside, hfails⟩ := hrest r hmem
      exact ⟨fun m hm => List.mem_append_right _ (hinside hm), hfails⟩

/-- What is delivered comes from a stage of the chain. -/
theorem Tried.stage_of_success {source : JavaSource}
    (h : Tried respond p probe text stages tried s (.outcome (.success source)) ms) :
    ∃ r ∈ stageRuns respond p probe text stages s, r.report.result = .ok source := by
  obtain hresult | ⟨all, hresult⟩ | ⟨r, hmem, -, hdecides⟩ := h.ends
  · cases hresult
  · rw [conclude] at hresult
    split at hresult <;> cases hresult
  · obtain ⟨source', hok, hresult⟩ | ⟨message, -, hresult⟩ := hdecides
    · cases hresult
      exact ⟨r, hmem, hok⟩
    · cases hresult

variable {t : FileTree} {c : ClassName} {result : Resolution}

/-- Where a conversion has searched when no stage succeeds: it has asked for a decompiler, and
searched for containers if there is one; and it has been to all places for Java source. -/
theorem Tried.searched_eq (h : Tried respond p probe text Stage.all {} s result ms)
    {why : Explanation}
    (hwhy : result = .outcome (.notFound why) ∨ result = .outcome (.failed why))
    (hc : probe.className = some c)
    (hsearches : ∀ r ∈ stageRuns respond p probe text Stage.all s,
      r.SearchesIn respond p probe t) :
    ∃ s', ⟨s', .decompilerReady⟩ ∈ ms ∧ why.searched =
      (if (respond .decompilerReady s').1 = true then
        upTo t.isFile (p.layout.containers t probe) else []) ++ p.layout.sources probe := by
  obtain ⟨hsearched, hfell⟩ := h.searched_of_explained hwhy
  -- The chain is known: three stages, each begun where the one before has ended.
  let r₁ := stageRun respond p probe text .realtime s
  let r₂ := stageRun respond p probe text .container (checked respond r₁.after)
  let r₃ := stageRun respond p probe text .existing (checked respond r₂.after)
  have hruns : stageRuns respond p probe text Stage.all s = [r₁, r₂, r₃] := rfl
  rw [hruns] at hsearched hfell hsearches
  obtain ⟨hnowhere, -⟩ : r₁.report.searched = [] ∧ _ := hsearches r₁ (by simp)
  obtain ⟨hexisting, hnone⟩ : r₃.report.Searches .existing _ (isReadable t) ∧ _ :=
    hsearches r₃ (by simp)
  obtain ⟨e, he⟩ := (hfell r₃ (by simp)).2
  refine ⟨checked respond r₂.before, (hfell r₂ (by simp)).1 (mem_inside_decompilerReady hc), ?_⟩
  have hcontainers : r₂.report.searched =
      if (respond .decompilerReady (checked respond r₂.before)).1 = true then
        upTo t.isFile (p.layout.containers t probe) else [] := by
    have hstage : if (respond .decompilerReady (checked respond r₂.before)).1 = true then
        r₂.report.Searches .container (p.layout.containers t probe) t.isFile
      else r₂.report.searched = [] ∧ ∃ e, r₂.report.result = .error e := hsearches r₂ (by simp)
    split at hstage
    · next hready => rw [if_pos hready, hstage.searched]
    · next hready => rw [if_neg hready, hstage.1]
  rw [hsearched, List.flatMap_cons, List.flatMap_cons, List.flatMap_singleton, hnowhere, hcontainers,
    hexisting.searched, upTo_of_find?_eq_none (hnone e he)]
  rfl

/-- Where the Java source is from that a conversion delivers. -/
theorem Tried.origin_of_success {source : JavaSource}
    (h : Tried respond p probe text stages tried s (.outcome (.success source)) ms)
    (hsearches : ∀ r ∈ stageRuns respond p probe text stages s, r.SearchesIn respond p probe t) :
    (source.provenance = .container → ∃ q,
      (p.layout.containers t probe).find? t.isFile = some q ∧
        source.origin.map Origin.path = some q) ∧
    (source.provenance = .existing → ∃ q,
      (p.layout.sources probe).find? (isReadable t) = some q ∧
        source.origin.map Origin.path = some q) := by
  obtain ⟨r, hmem, hok⟩ := h.stage_of_success
  have hstage := hsearches r hmem
  -- Which stage it was decides what its provenance says.
  unfold StageRun.SearchesIn at hstage
  split at hstage
  · rw [hstage.2 source hok]
    exact ⟨nofun, nofun⟩
  · split at hstage
    · obtain ⟨hprovenance, hfound⟩ := hstage.origin source hok
      rw [hprovenance]
      exact ⟨fun _ => hfound, nofun⟩
    · obtain ⟨-, e, he⟩ := hstage
      cases hok.symm.trans he
  · obtain ⟨hprovenance, hfound⟩ := hstage.1.origin source hok
    rw [hprovenance]
    exact ⟨nofun, fun _ => hfound⟩

end

end Pipeline

/-! ## The report on the places -/

namespace LocateReport

/-- The report on a file that is read from disk. -/
def onDisk (layout : Layout) (tree : FileTree) (file : Path) : LocateReport :=
  .of layout tree file ((tree.read file).toOption.map Text.decodeLossy)

variable {layout : Layout} {tree : FileTree} {file : Path}

/-- A unit whose class is found somewhere has a class. -/
theorem exists_className (h : (onDisk layout tree file).probe.classSource ≠ .nowhere) :
    ∃ c, (onDisk layout tree file).probe.className = some c := by
  unfold Probe.classSource at h
  cases hpath : (onDisk layout tree file).probe.pathClass with
  | some c =>
    have hname : (onDisk layout tree file).probe.className =
        ((onDisk layout tree file).probe.pathClass <|> _) := rfl
    exact ⟨c, by rw [hname, hpath]; rfl⟩
  | none =>
    cases hname : (onDisk layout tree file).probe.className with
    | some c => exact ⟨c, rfl⟩
    | none =>
      rw [hpath, hname] at h
      exact absurd rfl h

/-- The containers that are reported are those of the layout, each with whether it is there. -/
theorem containers_onDisk :
    (onDisk layout tree file).containers =
      (layout.containers tree (onDisk layout tree file).probe).map fun q => ⟨q, tree.isFile q⟩ := by
  unfold onDisk of
  rfl

/-- The sources that are reported are those of the layout, each with whether it is there. -/
theorem sources_onDisk :
    (onDisk layout tree file).sources =
      (layout.sources (onDisk layout tree file).probe).map fun q => ⟨q, tree.isFile q⟩ := by
  unfold onDisk of
  rfl

/-- Marking candidates leaves them where they are. -/
theorem upTo_marked (candidates : List Path) :
    (upTo Candidate.isThere (candidates.map fun q => ⟨q, tree.isFile q⟩)).map Candidate.path =
      upTo tree.isFile candidates := by
  rw [upTo_map, List.map_map]
  exact List.map_id _

/-- The first candidate that is marked as there is the first one that is a file. -/
theorem find?_marked_eq_some {candidates : List Path} {q : Path}
    (hq : candidates.find? tree.isFile = some q) :
    ∃ c, (candidates.map fun q => (⟨q, tree.isFile q⟩ : Candidate)).find? Candidate.isThere =
      some c ∧ c.path = q := by
  refine ⟨⟨q, tree.isFile q⟩, ?_, rfl⟩
  rw [List.find?_map]
  exact congrArg (Option.map _) hq

theorem map_path_sources :
    (onDisk layout tree file).sources.map Candidate.path =
      layout.sources (onDisk layout tree file).probe := by
  rw [sources_onDisk, List.map_map]
  exact List.map_id _

/-- When all files among the places for Java source can be read, the first that can be is the first
file. -/
theorem isReadable_of_sources
    (h : ∀ c ∈ (onDisk layout tree file).sources, c.isThere = true →
      isReadable tree c.path = true) :
    ∀ q ∈ layout.sources (onDisk layout tree file).probe, isReadable tree q = tree.isFile q := by
  intro q hq
  -- Every place is a candidate of the report, which marks it as there.
  have hcandidate : (⟨q, tree.isFile q⟩ : Candidate) ∈ (onDisk layout tree file).sources := by
    rw [sources_onDisk]
    exact List.mem_map.mpr ⟨q, hq, rfl⟩
  have hreadable : tree.isFile q = true → isReadable tree q = true := h _ hcandidate
  cases hfile : tree.isFile q with
  | false => rw [isReadable, hfile, Bool.false_and]
  | true => exact hreadable hfile

end LocateReport

/-- Whether or not a conversion reads the header, it is about the same unit as the report. -/
theorem Orderly.probeFrom_onDisk {respond : Respondent σ} {files : σ → FileTree}
    (h : Orderly respond files) (layout : Layout) (file : Path) (s : σ) :
    probeFrom respond file none s = (LocateReport.onDisk layout (files s) file).probe := by
  show Probe.of file ((headerText file none).run respond s).1 = Probe.of file _
  unfold headerText
  -- The header counts only where the path does not tell the class.
  cases hpath : ClassName.ofPath? file with
  | some c =>
    unfold Probe.of
    rw [hpath]
    rfl
  | none =>
    show Probe.of file (((respond .look s).1.read file).toOption.map Text.decodeLossy) = _
    rw [(h.look s).1]

open LocateReport in
/-- **A conversion searches where the report on the places says.** For a file on disk whose class is
known, with tools that write where they are told to, and as long as no path that is looked at leads
up again from where the directory to work in, or one that it lies in, is missing:

* when no stage succeeds, a conversion with a decompiler has searched the containers of the report up
  to the first that is there, and then all places for Java source; without a decompiler it has
  searched the places for Java source only;
* Java source out of a container comes from the first container that is there, and Java source on
  disk is the first that is there, if all of them can be read. -/
theorem Pipeline.resolve_searches_as_located {respond : Respondent σ} {files : σ → FileTree}
    (h : Orderly respond files) (p : Pipeline) (file : Path) (s : σ) (hs : (files s).Grounded)
    {L : LocateReport} (hL : L = .onDisk p.layout (files s) file)
    (hclass : L.probe.classSource ≠ .nowhere)
    (hstraight : ∀ q ∈ p.layout.inspected (files s) L.probe, Straight p.homes (files s) q) :
    (∀ why, ((p.resolve file none).run respond s).1 = .outcome (.notFound why) ∨
        ((p.resolve file none).run respond s).1 = .outcome (.failed why) →
      ((∀ s', ⟨s', .decompilerReady⟩ ∈ (p.resolve file none).moments respond s →
          (respond .decompilerReady s').1 = true) →
        why.searched = (upTo Candidate.isThere L.containers ++ L.sources).map Candidate.path) ∧
      ((∀ s', ⟨s', .decompilerReady⟩ ∈ (p.resolve file none).moments respond s →
          (respond .decompilerReady s').1 = false) →
        why.searched = L.sources.map Candidate.path)) ∧
    ∀ source, ((p.resolve file none).run respond s).1 = .outcome (.success source) →
      (source.provenance = .container → ∃ c, L.containers.find? Candidate.isThere = some c ∧
        source.origin.map Origin.path = some c.path) ∧
      (source.provenance = .existing →
        (∀ c ∈ L.sources, c.isThere = true → isReadable (files s) c.path = true) →
        ∃ c, L.sources.find? Candidate.isThere = some c ∧
          source.origin.map Origin.path = some c.path) := by
  subst hL
  obtain ⟨c, hc⟩ := exists_className hclass
  obtain ⟨ms, htried, hmoments⟩ := tried_resolve respond p file none s
  rw [h.probeFrom_onDisk p.layout] at htried
  -- The directories to work in that a stage makes change nothing on straight paths.
  have hsearches : ∀ r ∈ stageRuns respond p (onDisk p.layout (files s) file).probe none Stage.all
      ((headerText file none).run respond s).2,
      r.SearchesIn respond p (onDisk p.layout (files s) file).probe (files s) := fun r hr =>
    h.searchesIn_of_mem_stageRuns hs.toSound (h.calm_headerText ⟨.refl _ _, hs⟩) hc hstraight hr
  constructor
  · intro why hwhy
    obtain ⟨s', hasked, hsearched⟩ := htried.searched_eq hwhy hc hsearches
    have hasked : ⟨s', .decompilerReady⟩ ∈ (p.resolve file none).moments respond s := by
      rw [hmoments]
      exact List.mem_append_right _ hasked
    constructor
    · intro hready
      rw [hsearched, if_pos (hready s' hasked), List.map_append, containers_onDisk, upTo_marked,
        map_path_sources]
    · intro hready
      rw [hsearched, if_neg (by simp [hready s' hasked]), map_path_sources]
      rfl
  · intro source hresult
    rw [hresult] at htried
    obtain ⟨hcontainer, hexisting⟩ := htried.origin_of_success hsearches
    constructor
    · intro hprovenance
      obtain ⟨q, hq, horigin⟩ := hcontainer hprovenance
      obtain ⟨c, hcandidate, rfl⟩ := find?_marked_eq_some hq
      exact ⟨c, hcandidate, horigin⟩
    · intro hprovenance hreadable
      obtain ⟨q, hq, horigin⟩ := hexisting hprovenance
      rw [List.find?_congr (isReadable_of_sources hreadable)] at hq
      obtain ⟨c, hcandidate, rfl⟩ := find?_marked_eq_some hq
      exact ⟨c, hcandidate, horigin⟩

/-! ## A conversion that fails -/

/-- Tools that are there and refuse all that they are asked for. Nobody else changes the files. -/
def refusing : Respondent FileTree
  | .isCancelled, tree => (false, tree)
  | .look, tree => (tree, tree)
  | .change tree, _ => ((), tree)
  | .assemblerReady, tree => (true, tree)
  | .decompilerReady, tree => (true, tree)
  | .assemble _, tree => (.ok { status := .failed, diagnostics := "no" }, tree)
  | .decompile _, tree => (.ok { status := .failed, diagnostics := "no" }, tree)

theorem FileTree.writesAt_self (t : FileTree) (p : Path) : t.WritesAt p t := by
  unfold WritesAt
  cases t.locate p false with
  | ok l => exact fun _ => .refl l t
  | error e => exact ⟨rfl, rfl⟩

/-- Where nothing is asked for that changes the files, none are changed. -/
theorem orderly_of_reading {respond : Respondent FileTree}
    (hlook : ∀ tree, (respond .look tree).1 = tree)
    (hchange : ∀ tree tree', (respond (.change tree) tree').2 = tree)
    (hread : ∀ q tree, (∀ tree', q ≠ .change tree') → (respond q tree).2 = tree) :
    Orderly respond id where
  look tree := ⟨hlook tree, hread .look tree nofun⟩
  change := hchange
  isCancelled tree := hread .isCancelled tree nofun
  assemblerReady tree := hread .assemblerReady tree nofun
  decompilerReady tree := hread .decompilerReady tree nofun
  tools q out tree hout := by
    have hsame : (respond q tree).2 = tree := by
      refine hread q tree ?_
      rintro tree' rfl
      cases hout
    show tree.WritesAt out (respond q tree).2
    rw [hsame]
    exact FileTree.writesAt_self tree out

theorem refusing_orderly : Orderly refusing id := by
  refine orderly_of_reading (fun _ => rfl) (fun _ _ => rfl) fun q tree hq => ?_
  cases q <;> first | rfl | exact absurd rfl (hq _)

/-- Whether a path is seen to be straight: it does not lead up, and there are no links. -/
def FileTree.seemsStraight (t : FileTree) (p : Path) : Bool :=
  (t.entries.entries.all fun e => (t.link? e.1).isNone) && decide (Step.up ∉ steps p)

/-- The check for straight paths is right. -/
theorem FileTree.straight_of_seemsStraight {t : FileTree} {dirs : List Path} {p : Path}
    (h : t.seemsStraight p = true) : Straight dirs t p := by
  simp only [seemsStraight, Bool.and_eq_true, List.all_eq_true, decide_eq_true_eq,
    Option.isNone_iff_eq_none] at h
  refine straight_of_up_not_mem (fun l => ?_) h.2
  cases hentry : t.entryAt? l with
  | none => exact link?_of_entryAt?_none hentry
  | some e =>
    -- The root is a directory, and every other entry was checked to be no link.
    by_cases hl : l = []
    · rw [hl, link?, entryAt?_nil]
    · exact h.1 (l, e) (mem_entries_of_entryAt? hl hentry)

/-- A project with one unit and with a container, and no directory to work in. -/
def containerTree : FileTree where
  entries := ⟨[(["p"], .directory), (["p", "smali"], .directory),
    (["p", "smali", "A.smali"], .file [] ⟨0, 0⟩ {}), (["p", "classes.dex"], .file [] ⟨0, 0⟩ {})]⟩

/-- A pipeline that works in a directory beside the project. -/
def Pipeline.neighbouring : Pipeline := { plain with workDirectory := some ⟨"w"⟩ }

theorem containerTree_grounded : containerTree.Grounded :=
  ⟨FileTree.sound_of_isSound (by decide +kernel), by decide +kernel⟩

/-- The search for a container ends at the one that the report says is there. -/
theorem refused_conversion_searches_as_located :
    let L := LocateReport.onDisk Pipeline.neighbouring.layout containerTree ⟨"p/smali/A.smali"⟩
    Orderly refusing id ∧ containerTree.Grounded ∧ L.probe.classSource ≠ .nowhere ∧
      (∀ q ∈ Pipeline.neighbouring.layout.inspected containerTree L.probe,
        Straight Pipeline.neighbouring.homes containerTree q) ∧
      ∃ why, ((Pipeline.neighbouring.resolve ⟨"p/smali/A.smali"⟩ none).run refusing
          containerTree).1 = .outcome (.notFound why) ∧
        why.searched = (upTo Candidate.isThere L.containers ++ L.sources).map Candidate.path ∧
        upTo Candidate.isThere L.containers =
          [⟨⟨"p/build/apk/classes.dex"⟩, false⟩, ⟨⟨"p/classes.dex"⟩, true⟩] := by
  intro L
  have hclass : L.probe.classSource ≠ .nowhere := by decide +kernel
  have hseems : (Pipeline.neighbouring.layout.inspected containerTree L.probe).all
      containerTree.seemsStraight = true := by decide +kernel
  have hstraight : ∀ q ∈ Pipeline.neighbouring.layout.inspected containerTree L.probe,
      Straight Pipeline.neighbouring.homes containerTree q := fun q hq =>
    FileTree.straight_of_seemsStraight (List.all_eq_true.mp hseems q hq)
  obtain ⟨why, hwhy⟩ : ∃ why, ((Pipeline.neighbouring.resolve ⟨"p/smali/A.smali"⟩ none).run
      refusing containerTree).1 = .outcome (.notFound why) := by
    refine ⟨Pipeline.explain L.probe ⟨[⟨.realtime, .assembleFailed "no"⟩,
      ⟨.container, .decompileFailed "no"⟩,
      ⟨.existing, .sourceNotFound "no Java source for A in 6 candidate locations"⟩],
      (upTo Candidate.isThere L.containers ++ L.sources).map Candidate.path⟩, ?_⟩
    decide +kernel
  have h := Pipeline.resolve_searches_as_located refusing_orderly Pipeline.neighbouring
    ⟨"p/smali/A.smali"⟩ containerTree containerTree_grounded rfl hclass hstraight
  exact ⟨refusing_orderly, containerTree_grounded, hclass, hstraight, why, hwhy,
    (h.1 why (Or.inl hwhy)).1 fun _ _ => rfl, by decide +kernel⟩

/-- Seen through the directory to work in before it is made, no container is there. The conversion
has made it when it searches, so it stops at a container. -/
theorem turning_back_finds_more :
    let L := LocateReport.onDisk Pipeline.neighbouring.layout containerTree
      ⟨"w/../p/smali/A.smali"⟩
    Orderly refusing id ∧ containerTree.Grounded ∧ L.probe.classSource ≠ .nowhere ∧
      L.containers.find? Candidate.isThere = none ∧
      (∀ tree, (refusing .decompilerReady tree).1 = true ∧
        (refusing .isCancelled tree).1 = false) ∧
      ∃ why, ((Pipeline.neighbouring.resolve ⟨"w/../p/smali/A.smali"⟩ none).run refusing
          containerTree).1 = .outcome (.notFound why) ∧
        why.searched = [⟨"w/../p/build/apk/classes.dex"⟩, ⟨"w/../p/classes.dex"⟩]
          ++ L.sources.map Candidate.path ∧
        why.searched ≠ (upTo Candidate.isThere L.containers ++ L.sources).map Candidate.path := by
  intro L
  refine ⟨refusing_orderly, containerTree_grounded, by decide +kernel, by decide +kernel,
    fun _ => ⟨rfl, rfl⟩, Pipeline.explain L.probe ⟨[⟨.realtime, .assembleFailed "no"⟩,
      ⟨.container, .decompileFailed "no"⟩,
      ⟨.existing, .sourceNotFound "no Java source for A in 6 candidate locations"⟩],
      [⟨"w/../p/build/apk/classes.dex"⟩, ⟨"w/../p/classes.dex"⟩]
        ++ L.sources.map Candidate.path⟩, ?_, rfl, ?_⟩
  · decide +kernel
  · decide +kernel

end SmaliView
