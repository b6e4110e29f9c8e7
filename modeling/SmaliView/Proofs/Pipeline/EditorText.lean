import SmaliView.Proofs.Pipeline.AlikeWork
import SmaliView.Proofs.Pipeline.ClearCheck
import SmaliView.Proofs.Pipeline.Cancellation
import SmaliView.Session

/-!
# Editor text in place of a file

The bench asks its tools what they answer, and a session carries out the conversions of its jobs at
the bench. With tools that depend on what they are passed (`Toolbox.Indifferent`) both are
indifferent to the file whose text is edited, and `editor_text_replaces_file` puts the parts
together. Two trees with a unit follow: one in which the text comes out although the unit is gone,
and one in which a header leads back to the file on disk.
-/

namespace SmaliView

open Plan (Respondent Twins)
open FileTree

/-! ## At the bench -/

/-- Tools that do not depend on the file at a location unless it is passed to them. -/
structure Toolbox.Indifferent (tools : Toolbox) (l : Location) : Prop where
  assemblerReady : ∀ s s' : Scene, Beside Scene.tree Scene.token l s s' →
    ActsAlike Scene.tree Scene.token l tools.assembler.ready.run s s'
  decompilerReady : ∀ s s' : Scene, Beside Scene.tree Scene.token l s s' →
    ActsAlike Scene.tree Scene.token l tools.decompiler.ready.run s s'
  assemble : ∀ r, AssemblesAlike Scene.tree Scene.token l r
    (tools.assembler.assemble r).run.run
  decompile : ∀ r, DecompilesAlike Scene.tree Scene.token l r
    (tools.decompiler.decompile r).run.run

namespace Bench

/-- The files of a bench. -/
def Turn.tree (turn : Turn) : FileTree := turn.1.tree

/-- The bench without its files, and the token. -/
def Turn.besides (turn : Turn) : Turn := ({ turn.1 with tree := {} }, turn.2)

/-- What a tool acts on. -/
def Turn.scene (turn : Turn) : Scene := ⟨turn.1.tree, turn.2⟩

variable {l : Location} {turn turn' : Turn}

theorem beside_scene (h : Beside Turn.tree Turn.besides l turn turn') :
    Beside Scene.tree Scene.token l turn.scene turn'.scene :=
  ⟨(Prod.mk.inj h.rest).2, h.apart⟩

theorem respond_assemble (tools : Toolbox) (r : AssembleRequest) (turn : Turn) :
    respond tools (.assemble r) turn =
      let x := (tools.assembler.assemble r).run.run turn.scene
      (x.1, { turn.1 with
        tree := x.2.tree
        calls := .assemble r (turn.1.tree.read r.unit).toOption :: turn.1.calls }, x.2.token) := rfl

theorem respond_decompile (tools : Toolbox) (r : DecompileRequest) (turn : Turn) :
    respond tools (.decompile r) turn =
      let x := (tools.decompiler.decompile r).run.run turn.scene
      (x.1, { turn.1 with
        tree := x.2.tree
        calls := .decompile r :: turn.1.calls }, x.2.token) := rfl

/-- What was found out once is not asked again. -/
theorem known_eq (memory : Bench → Option Bool) (remember : Bench → Bool → Bench) (ask : Act Bool)
    (turn : Turn) : known memory remember ask turn =
      match memory turn.1 with
      | some ready => (ready, turn)
      | none =>
        let x := ask.run turn.scene
        (x.1, remember { turn.1 with tree := x.2.tree } x.1, x.2.token) := by
  obtain ⟨bench, token⟩ := turn
  unfold known
  show (match memory bench with
    | some ready => (return ready : StateM Turn Bool)
    | none => _) (bench, token) = _
  cases memory bench <;> rfl

/-- What is known of a tool does not depend on the files. -/
theorem known_alike (memory : Bench → Option Bool) (remember : Bench → Bool → Bench)
    {ask : Act Bool} (hmemory : ∀ bench, memory { bench with tree := {} } = memory bench)
    (hremember : ∀ bench tree ready,
      { remember bench ready with tree } = remember { bench with tree } ready)
    (htree : ∀ bench ready, (remember bench ready).tree = bench.tree)
    (h : Beside Turn.tree Turn.besides l turn turn')
    (hask : ActsAlike Scene.tree Scene.token l ask.run turn.scene turn'.scene) :
    ActsAlike Turn.tree Turn.besides l (known memory remember ask) turn turn' := by
  obtain ⟨bench, token⟩ := turn
  obtain ⟨bench', token'⟩ := turn'
  have hbench : { bench with tree := {} } = { bench' with tree := {} } := (Prod.mk.inj h.rest).1
  -- Whether the answer is remembered does not depend on the files.
  have hsame : memory bench = memory bench' := by rw [← hmemory bench, hbench, hmemory]
  rw [ActsAlike, known_eq, known_eq]
  dsimp only
  rw [← hsame]
  cases memory bench with
  | some ready => exact ⟨rfl, h⟩
  | none =>
    dsimp only
    obtain ⟨heq, hbeside⟩ := hask
    rw [← heq]
    generalize ask.run (Turn.scene (bench, token)) = x at hbeside
    generalize ask.run (Turn.scene (bench', token')) = x' at hbeside
    refine ⟨rfl, ?_, ?_⟩
    · show (({ remember { bench with tree := x.2.tree } x.1 with tree := {} } : Bench), x.2.token) =
        (({ remember { bench' with tree := x'.2.tree } x.1 with tree := {} } : Bench), x'.2.token)
      rw [hremember, hremember]
      exact Prod.ext (congrArg (remember · x.1) hbench) hbeside.rest
    · show Apart l (remember _ _).tree (remember _ _).tree
      rw [htree, htree]
      exact hbeside.apart

/-- What a turn leaves besides the files: the answers of the tools so far, the calls, the token. -/
theorem besides_eq_iff : turn.besides = turn'.besides ↔
    turn.1.assemblerReady = turn'.1.assemblerReady ∧
      turn.1.decompilerReady = turn'.1.decompilerReady ∧ turn.1.calls = turn'.1.calls ∧
      turn.2 = turn'.2 := by
  rw [Turn.besides, Turn.besides, Prod.mk.injEq, Bench.mk.injEq]
  tauto

end Bench

open Bench

/-- At a bench with such tools a conversion depends on the file only where it is passed on. -/
theorem Toolbox.Indifferent.respond {tools : Toolbox} {l : Location} (h : tools.Indifferent l) :
    SmaliView.Indifferent (Bench.respond tools) Turn.tree Turn.besides l where
  look _ := ⟨rfl, rfl⟩
  change _ _ := rfl
  check _ := rfl
  rest_look _ _ hrest := hrest
  rest_change _ _ _ _ hrest := hrest
  rest_check _ _ hrest := ⟨congrArg Token.fired (besides_eq_iff.mp hrest).2.2.2, hrest⟩
  assemblerReady _ _ hs :=
    known_alike Bench.assemblerReady (fun bench b => { bench with assemblerReady := some b })
      (fun _ => rfl) (fun _ _ _ => rfl) (fun _ _ => rfl) hs
      (h.assemblerReady _ _ (beside_scene hs))
  decompilerReady _ _ hs :=
    known_alike Bench.decompilerReady (fun bench b => { bench with decompilerReady := some b })
      (fun _ => rfl) (fun _ _ _ => rfl) (fun _ _ => rfl) hs
      (h.decompilerReady _ _ (beside_scene hs))
  assemble r turn turn' hs hunit hout := by
    obtain ⟨⟨heq, hbeside⟩, hanswer⟩ :=
      h.assemble r turn.scene turn'.scene (beside_scene hs) hunit hout
    obtain ⟨hassembler, hdecompiler, hcalls, -⟩ := besides_eq_iff.mp hs.rest
    -- The calls that were noted hold the content of the unit.
    have hread : turn.1.tree.read r.unit = turn'.1.tree.read r.unit := by
      rw [FileTree.read, FileTree.read, show turn.1.tree.find r.unit = turn'.1.tree.find r.unit from hunit]
    rw [ActsAlike, respond_assemble, respond_assemble]
    refine ⟨⟨heq, ?_, hbeside.apart⟩, hanswer⟩
    refine besides_eq_iff.mpr ⟨hassembler, hdecompiler, ?_, hbeside.rest⟩
    dsimp only
    rw [hread, hcalls]
  decompile r turn turn' hs hcontainer hout := by
    obtain ⟨heq, hbeside⟩ :=
      h.decompile r turn.scene turn'.scene (beside_scene hs) hcontainer hout
    obtain ⟨hassembler, hdecompiler, hcalls, -⟩ := besides_eq_iff.mp hs.rest
    rw [ActsAlike, respond_decompile, respond_decompile]
    refine ⟨heq, ?_, hbeside.apart⟩
    refine besides_eq_iff.mpr ⟨hassembler, hdecompiler, ?_, hbeside.rest⟩
    exact congrArg (ToolCall.decompile r :: ·) hcalls

/-! ## In a session -/

/-- With the gate open a plan is carried out to its end. -/
theorem Workshop.proceed_open (w : Workshop) (plan : Plan Resolution) (turn : Turn) :
    w.proceed true false plan turn =
      (.ended (plan.run (Bench.respond w.tools) turn).1,
        (plan.run (Bench.respond w.tools) turn).2) := by
  induction plan generalizing turn with
  | done r => rfl
  | ask q next ih => exact ih _ _

namespace Session

/-- Two sessions with open gates that agree but for the regular file at a location, and for the
plans of jobs that wait. -/
structure Beside (l : Location) (x x' : Session) : Prop where
  scheduler : x.scheduler = x'.scheduler
  gateOpen : x.gateOpen = true
  gateOpen' : x'.gateOpen = true
  bench : ∀ token, SmaliView.Beside Turn.tree Turn.besides l (x.bench, token) (x'.bench, token)

variable {l : Location} {x x' : Session} {w : Workshop}

/-- A step that cannot happen leaves the scheduler as it was. -/
theorem tryStep_scheduler (x : Session) (f : Scheduler → Option Scheduler) :
    (x.tryStep f).scheduler = (f x.scheduler).getD x.scheduler := by
  rw [tryStep]
  cases f x.scheduler <;> rfl

/-- What a job has fired comes back to the scheduler alike. -/
theorem takeBack_scheduler (h : x.scheduler = x'.scheduler) (g : Nat) {turn turn' : Turn}
    (hturn : turn.2 = turn'.2) :
    (x.takeBack g turn).scheduler = (x'.takeBack g turn').scheduler := by
  rw [takeBack, takeBack, h, hturn]

/-- A plan that comes to the same in both sessions leaves the same scheduler, with its cache. -/
theorem Beside.work (h : Beside l x x') {g : Nat} {plan : Plan Resolution}
    (hplan : ActsAlike Turn.tree Turn.besides l (plan.run (Bench.respond w.tools))
      (x.bench, x.token g) (x'.bench, x'.token g)) :
    (x.work w g false plan).scheduler = (x'.work w g false plan).scheduler := by
  obtain ⟨hresult, hturn⟩ := hplan
  have hback := takeBack_scheduler h.scheduler g (besides_eq_iff.mp hturn.rest).2.2.2
  rw [Session.work, Session.work, h.gateOpen, h.gateOpen', Workshop.proceed_open,
    Workshop.proceed_open]
  dsimp only
  rw [tryStep_scheduler, tryStep_scheduler, tryStep_scheduler, tryStep_scheduler,
    tryStep_scheduler, tryStep_scheduler]
  dsimp only
  rw [hback, hresult]

/-- The token of a job is the same in both sessions. -/
theorem Beside.token (h : Beside l x x') (g : Nat) : x.token g = x'.token g := by
  rw [Session.token, Session.token, h.scheduler]

/-- Taking a permit fires nothing. -/
theorem fired_of_acquire {s s' : Scheduler} {g : Nat} (h : s.acquire? g = some s') :
    s'.fired = s.fired := by
  obtain ⟨job, -, h⟩ := Option.bind_eq_some_iff.mp h
  obtain ⟨-, -, h⟩ := Option.bind_eq_some_iff.mp h
  obtain rfl := Option.some.inj h
  rfl

theorem Beside.withScheduler (h : Beside l x x') (scheduler : Scheduler) :
    Beside l { x with scheduler } { x' with scheduler } :=
  ⟨rfl, h.gateOpen, h.gateOpen', h.bench⟩

/-- Going on with a job of editor text leaves the same scheduler in both sessions. -/
theorem Beside.advanceJob (h : Beside l x x') (htools : w.tools.Indifferent l) {job : Job}
    {text : String} (hqueued : job.phase = .queued) (htext : job.text = some text)
    (hclear : w.pipeline.StaysClear job.task.file text l (Bench.respond w.tools) Turn.tree
      (x.bench, x.token job.task.generation))
    (hclear' : w.pipeline.StaysClear job.task.file text l (Bench.respond w.tools) Turn.tree
      (x'.bench, x'.token job.task.generation)) :
    (Session.advanceJob w x job).scheduler = (Session.advanceJob w x' job).scheduler := by
  rw [Session.advanceJob, Session.advanceJob, hqueued, htext, h.scheduler]
  dsimp only
  split
  · rfl
  split
  · next scheduler hacquire =>
    -- Taking the permit fires no token.
    have htoken : ({ x with scheduler } : Session).token job.task.generation =
        x.token job.task.generation := by
      rw [Session.token, Session.token, h.scheduler, fired_of_acquire hacquire]
    have hsame := h.token job.task.generation
    refine (h.withScheduler scheduler).work ?_
    rw [← (h.withScheduler scheduler).token, htoken]
    exact htools.respond.resolve (h.bench _) hclear (hsame ▸ hclear')
  · exact h.scheduler

/-- A view that is requested with editor text is requested alike in both sessions. -/
theorem Beside.requestView (h : Beside l x x') (file : Path) (text : String) :
    Beside l (x.requestView file (some text)).1 (x'.requestView file (some text)).1 ∧
      (x.requestView file (some text)).2 = (x'.requestView file (some text)).2 := by
  rw [Session.requestView, Session.requestView]
  dsimp only
  rw [h.scheduler]
  exact ⟨h.withScheduler _, rfl⟩

end Session

/-! ## The theorem -/

/-- **Editor text replaces the file.** Take any location, such as that of the file whose text is
being edited. In two states that agree but for the regular file there -- its content, its time, its
permissions, or that there is one -- a conversion of editor text comes to the same resolution, and
leaves states that agree as before. This holds for any token, and for respondents whose tools
depend on the file only if it is passed to them (`Indifferent`), as long as the file stands beside
the way of the conversion (`Pipeline.StaysClear`): it is no candidate of the searches, no prefix of
a directory to work in, and not taken for Java source that a decompiler has written, which takes a
class name that leads up or a decompiler that does not keep to its output.

Hence two sessions which differ in that file alone schedule a request with editor text under the
same snapshot, that of the text, and working off its job leaves the same scheduler and cache. -/
theorem editor_text_replaces_file (p : Pipeline) (file : Path) (text : String) (l : Location) :
    (∀ (σ κ : Type) (respond : Respondent σ) (files : σ → FileTree) (rest : σ → κ) (s s' : σ),
      Indifferent respond files rest l → Beside files rest l s s' →
      p.StaysClear file text l respond files s → p.StaysClear file text l respond files s' →
      ((p.resolve file (some text)).run respond s).1 =
          ((p.resolve file (some text)).run respond s').1 ∧
        Beside files rest l ((p.resolve file (some text)).run respond s).2
          ((p.resolve file (some text)).run respond s').2) ∧
    ∀ (w : Workshop) (x x' : Session), w.pipeline = p → w.tools.Indifferent l →
      Session.Beside l x x' →
      (x.requestView file (some text)).1.scheduler =
          (x.scheduler.request file (.ofText text) (some text)).1 ∧
        Session.Beside l (x.requestView file (some text)).1 (x'.requestView file (some text)).1 ∧
        (x.requestView file (some text)).2 = (x'.requestView file (some text)).2 ∧
        ∀ job : Job, job.phase = .queued → job.task.file = file → job.text = some text →
          p.StaysClear file text l (Bench.respond w.tools) Turn.tree
            (x.bench, x.token job.task.generation) →
          p.StaysClear file text l (Bench.respond w.tools) Turn.tree
            (x'.bench, x'.token job.task.generation) →
          (Session.advanceJob w x job).scheduler = (Session.advanceJob w x' job).scheduler := by
  refine ⟨fun σ κ respond files rest s s' h hs hclear hclear' => h.resolve hs hclear hclear', ?_⟩
  rintro w x x' rfl htools h
  refine ⟨rfl, (h.requestView file text).1, (h.requestView file text).2, ?_⟩
  rintro job hqueued rfl htext hclear hclear'
  exact h.advanceJob htools hqueued htext hclear hclear'

/-! ## Tools that copy -/

/-- A decompiler for which what a container holds is the Java source of the class that is wanted. -/
def copyingDecompiler : Decompiler where
  label := ⟨"decompiler", "install it"⟩
  ready := return true
  decompile request := do
    let content ← Work.look (·.read request.container)
    Work.change (·.makeDirectory request.output)
    match request.filter.bind (·.javaPath.fileName?) with
    | some name => Work.change (·.write (request.output / name) content)
    | none => pure ()
    return { status := .success, tree := some request.output }

/-- The decompiler that copies looks at its container only. -/
theorem copyingDecompiler_alike (l : Location) (r : DecompileRequest) :
    DecompilesAlike Scene.tree Scene.token l r (copyingDecompiler.decompile r).run.run := by
  intro s s' hs hcontainer hout
  let known (t u : FileTree) : Prop :=
    t.find r.container = u.find r.container ∧ Pipeline.Secluded l r.output t
  let secluded (t _ : FileTree) : Prop := Pipeline.Secluded l r.output t
  -- The container is read first; from there on only the output matters.
  have hread : Work.Alike l known (Work.look (·.read r.container)) fun _ => known :=
    Work.alike_look fun t u _ h => by rw [FileTree.read, FileTree.read, h.1]
  have hmade : Work.Alike l known (Work.change (·.makeDirectory r.output)) fun _ => secluded := by
    refine Work.alike_change fun t u hapart h => ?_
    refine (hapart.makeDirectory h.2.not_through).mono fun t' u' h' => ?_
    exact ⟨h'.1, h.2.congr h'.2.1.toSameWays⟩
  have hwork : Work.Alike l known (copyingDecompiler.decompile r) fun _ => secluded := by
    refine hread.bind fun content => hmade.bind fun _ => ?_
    split
    · next name hname =>
      obtain ⟨c, -, hfile⟩ := Option.bind_eq_some_iff.mp hname
      have hbelow : Path.Below r.output (r.output / name) :=
        .down .here (Path.isName_of_fileName? hfile)
      have hwritten : Work.Alike l secluded (Work.change (·.write (r.output / name) content))
          fun _ => secluded := by
        refine Work.alike_change fun t u hapart h => ?_
        exact (hapart.write (h _ hbelow) content).mono fun t' u' h' => ⟨h'.1, h.congr h'.2⟩
      exact hwritten.bind fun _ => Work.alike_pure fun _ _ h => h
    · exact Work.alike_pure fun _ _ h => h
  exact hwork.actsAlike hs ⟨hcontainer, hout⟩

def copyingTools : Toolbox where
  assembler := Mock.assembler .working
  decompiler := copyingDecompiler

theorem copyingTools_indifferent (l : Location) : copyingTools.Indifferent l where
  assemblerReady _ _ hs := ⟨rfl, hs⟩
  decompilerReady _ _ hs := ⟨rfl, hs⟩
  assemble := Mock.assemblesAlike .working l
  decompile := copyingDecompiler_alike l

/-! ## Two trees with a unit -/

/-- A unit is deleted while its text is edited: the text is converted and cached all the same. -/
theorem text_replaces_deleted_unit :
    let l : Location := ["p", "smali", "A.smali"]
    let file : Path := ⟨"/p/smali/A.smali"⟩
    let text := "class A { }"
    let conversion (tree : FileTree) : Resolution × Turn :=
      (Pipeline.plain.resolve file (some text)).run (Bench.respond copyingTools) ({ tree }, {})
    let opened (tree : FileTree) : Session :=
      (Session.requestView { scheduler := .new 1 .silent, bench := { tree } } file text).1
    let job : Job := ⟨⟨file, 1⟩, .ofText text, some text, .queued⟩
    let ended (tree : FileTree) : Scheduler :=
      (Session.advanceJob { tools := copyingTools, pipeline := .plain } (opened tree) job).scheduler
    (conversion unitTree).1 = (conversion (unitTree.erase l)).1 ∧
      (opened unitTree).scheduler.jobs = [job] ∧ ended unitTree = ended (unitTree.erase l) ∧
      (ended unitTree).cache.lookup? file (.ofText text) = some ⟨text, .realtime, none⟩ := by
  intro l file text conversion opened job ended
  have htools := copyingTools_indifferent l
  have hapart : Apart l unitTree (unitTree.erase l) :=
    ⟨rfl, rfl, rfl, atMostFile_of_check rfl, atMostFile_of_check rfl⟩
  have hclear : Pipeline.plain.StaysClear file text l (Bench.respond copyingTools) Turn.tree
      ({ tree := unitTree }, {}) :=
    Pipeline.staysClear_of_seemsClearOn (by decide +kernel)
  have hclear' : Pipeline.plain.StaysClear file text l (Bench.respond copyingTools) Turn.tree
      ({ tree := unitTree.erase l }, {}) :=
    Pipeline.staysClear_of_seemsClearOn (by decide +kernel)
  obtain ⟨hturns, hsessions⟩ := editor_text_replaces_file .plain file text l
  have hbeside : Beside Turn.tree Turn.besides l ({ tree := unitTree }, {})
      ({ tree := unitTree.erase l }, {}) := ⟨rfl, hapart⟩
  have hsame := hturns _ _ _ _ _ _ _ htools.respond hbeside hclear hclear'
  have hopened : Session.Beside l (opened unitTree) (opened (unitTree.erase l)) :=
    ⟨rfl, rfl, rfl, fun token => ⟨rfl, hapart⟩⟩
  -- Only what is cached is computed; that it is the same without the unit is the theorem.
  obtain ⟨-, -, -, hjobs⟩ :=
    hsessions { tools := copyingTools, pipeline := .plain } _ _ rfl htools hopened
  have hended := hjobs job rfl rfl rfl hclear hclear'
  have hcached : (ended unitTree).cache.lookup? file (.ofText text) =
      some ⟨text, .realtime, none⟩ := by decide +kernel
  exact ⟨hsame.1, rfl, hended, hcached⟩

/-- A project without a bytecode root: a unit with a container beside it, and a directory to work in
with a link that leads to the unit. -/
def linkedTree (unit : Option Text.Bytes) : FileTree where
  entries := ⟨[(["w"], .directory), (["w", "d"], .directory),
    (["w", "d", "A.java"], .link ⟨"../../u/A.smali"⟩), (["u"], .directory),
    (["u", "classes.dex"], .file [] ⟨0, 0⟩ {})] ++
    unit.toList.map fun content => (["u", "A.smali"], .file content ⟨0, 0⟩ {})⟩

/-- A header can name a class whose path leads up: then Java source is looked for outside of what
the decompiler has written. Here a link leads from there to the unit, and its content on disk comes
out in place of an error, although no candidate of the searches names it. -/
theorem header_leads_back_to_file :
    let l : Location := ["u", "A.smali"]
    let file : Path := ⟨"/u/A.smali"⟩
    let text := ".class L../../d/A;"
    let p : Pipeline := { Pipeline.plain with workDirectory := some ⟨"/w"⟩ }
    let respond := Bench.respond copyingTools
    let turn (unit : Option Text.Bytes) : Turn := ({ tree := linkedTree unit }, {})
    let conversion := p.resolve file (some text)
    let onDisk := Text.bytes "on disk"
    copyingTools.Indifferent l ∧
      Beside Turn.tree Turn.besides l (turn (some onDisk)) (turn none) ∧
      (∀ unit ∈ [some onDisk, none], ∀ m ∈ conversion.moments respond (turn unit),
        m.question = .look → p.Clear (Probe.of file (some text)) l m.state.tree) ∧
      (conversion.run respond (turn (some onDisk))).1 =
        .outcome (.success ⟨"on disk", .container, some ⟨⟨"/u/classes.dex"⟩, some ⟨0, 0⟩, 0⟩⟩) ∧
      (conversion.run respond (turn none)).1 ≠ (conversion.run respond (turn (some onDisk))).1 := by
  intro l file text p respond turn conversion onDisk
  have hclear : [some onDisk, none].all (fun unit => (conversion.moments respond (turn unit)).all
      (p.looksClear Turn.tree (Probe.of file (some text)) l)) = true := by
    decide +kernel
  have hfound : (conversion.run respond (turn (some onDisk))).1 =
      .outcome (.success ⟨"on disk", .container, some ⟨⟨"/u/classes.dex"⟩, some ⟨0, 0⟩, 0⟩⟩) := by
    decide +kernel
  refine ⟨copyingTools_indifferent l, ⟨rfl, ?_⟩, ?_, hfound, ?_⟩
  · exact ⟨rfl, rfl, rfl, atMostFile_of_check rfl, atMostFile_of_check rfl⟩
  · intro unit hunit m hm hlook
    have hmoments := List.all_eq_true.mp hclear unit hunit
    exact Pipeline.clear_of_looksClear (List.all_eq_true.mp hmoments m hm) hlook
  · rw [hfound]
    decide +kernel

end SmaliView
