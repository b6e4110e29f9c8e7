import SmaliView.Proofs.Pipeline.EditorText
import SmaliView.Proofs.Pipeline.Leads

/-!
# Conversions at a bench

`Bench.Comes` says what a plan comes to at a bench, and which files and token it leaves, begun from
given ones. There is a rule for each question, and from these one for each part of the first stage:
if the tools do their work, the stage delivers what they have made, and so does the conversion
(`comes_resolve`).
-/

namespace SmaliView

open Plan (Leads)

variable {α β : Type}

namespace Bench

/-- The bench has a scene, and no tool is known to be missing. -/
structure Stands (s : Scene) (turn : Turn) : Prop where
  scene : turn.scene = s
  assembler : turn.1.assemblerReady ≠ some false
  decompiler : turn.1.decompilerReady ≠ some false

/-- At a bench with a scene a plan comes to an answer, and leaves a scene. -/
def Comes (tools : Toolbox) (s : Scene) (p : Plan α) (a : α) (s' : Scene) : Prop :=
  Leads (respond tools) (fun _ => True) (Stands s) p fun b turn => b = a ∧ Stands s' turn

variable {tools : Toolbox} {s s' s'' : Scene} {a : α} {b : β}

/-- What a plan comes to is its answer in every turn that stands on the scene. -/
theorem Comes.run_eq {p : Plan α} (h : Comes tools s p a s') {turn : Turn} (hturn : Stands s turn) :
    (p.run (respond tools) turn).1 = a :=
  (h turn hturn).2.1

theorem comes_done (a : α) : Comes tools s (.done a) a s := Leads.done fun _ h => ⟨rfl, h⟩

/-- A plan goes on from the scene that the part before it has left. -/
theorem Comes.bind {p : Plan α} {f : α → Plan β} (hp : Comes tools s p a s')
    (hf : Comes tools s' (f a) b s'') : Comes tools s (p >>= f) b s'' := by
  refine Leads.bind hp fun a' turn hturn => ?_
  obtain ⟨rfl, hstands⟩ := hturn
  exact hf turn hstands

/-! ## Questions -/

/-- A question comes to an answer if every turn gives it. -/
theorem comes_question {q : Question} {a : q.Answer}
    (h : ∀ turn, Stands s turn →
      (respond tools q turn).1 = a ∧ Stands s' (respond tools q turn).2) :
    Comes tools s (Plan.question q) a s' :=
  Leads.question fun turn hturn => ⟨trivial, h turn hturn⟩

/-- A check tells whether the token of the scene has fired. -/
theorem comes_isCancelled : Comes tools s Plan.isCancelled s.token.fired s :=
  comes_question fun _ h => ⟨congrArg (·.token.fired) h.scene, h⟩

/-- Looking tells the files of the scene. -/
theorem comes_look : Comes tools s Plan.look s.tree s :=
  comes_question fun _ h => ⟨congrArg Scene.tree h.scene, h⟩

/-- A change puts its files into the scene. -/
theorem comes_change (t : FileTree) :
    Comes tools s (Plan.change t) () { s with tree := t } :=
  comes_question fun _ h =>
    ⟨rfl, congrArg (fun x : Scene => { x with tree := t }) h.scene, h.assembler, h.decompiler⟩

/-- The assembler is asked on the scene. -/
theorem comes_assemble {r : AssembleRequest} {reply : Reply AssembleAnswer}
    (h : (tools.assembler.assemble r).run.run s = (reply, s')) :
    Comes tools s (Plan.question (.assemble r)) reply s' := by
  refine comes_question fun turn hturn => ?_
  rw [respond_assemble, hturn.scene]
  dsimp only
  rw [h]
  exact ⟨rfl, rfl, hturn.assembler, hturn.decompiler⟩

/-- The decompiler is asked on the scene. -/
theorem comes_decompile {r : DecompileRequest} {reply : Reply DecompileAnswer}
    (h : (tools.decompiler.decompile r).run.run s = (reply, s')) :
    Comes tools s (Plan.question (.decompile r)) reply s' := by
  refine comes_question fun turn hturn => ?_
  rw [respond_decompile, hturn.scene]
  dsimp only
  rw [h]
  exact ⟨rfl, rfl, hturn.assembler, hturn.decompiler⟩

/-- A tool that can be run is known to be ready, or found to be. -/
theorem known_of_ready {memory : Bench → Option Bool} {remember : Bench → Bool → Bench}
    {ask : Act Bool} (hready : ask.run s = (true, s)) {turn : Turn} (hscene : turn.scene = s)
    (hmemory : memory turn.1 ≠ some false) :
    known memory remember ask turn = (true, turn) ∨
      known memory remember ask turn = (true, remember turn.1 true, turn.2) := by
  rw [known_eq]
  -- What is remembered counts; only if nothing is, the tool is asked.
  cases hknown : memory turn.1 with
  | some ready =>
    cases ready with
    | true => exact Or.inl rfl
    | false => exact absurd hknown hmemory
  | none =>
    rw [hscene, hready, ← hscene]
    exact Or.inr rfl

/-- Whether the assembler can be used is found out once and then known. -/
theorem respond_assemblerReady (tools : Toolbox) (turn : Turn) :
    respond tools .assemblerReady turn =
      known Bench.assemblerReady (fun bench b => { bench with assemblerReady := some b })
        tools.assembler.ready turn := rfl

/-- Whether the decompiler can be used is found out once and then known. -/
theorem respond_decompilerReady (tools : Toolbox) (turn : Turn) :
    respond tools .decompilerReady turn =
      known Bench.decompilerReady (fun bench b => { bench with decompilerReady := some b })
        tools.decompiler.ready turn := rfl

theorem comes_assemblerReady (hready : tools.assembler.ready.run s = (true, s)) :
    Comes tools s (Plan.question .assemblerReady) true s := by
  refine comes_question fun turn h => ?_
  rw [respond_assemblerReady]
  rcases known_of_ready hready h.scene h.assembler with heq | heq
  · rw [heq]
    exact ⟨rfl, h⟩
  · rw [heq]
    exact ⟨rfl, h.scene, nofun, h.decompiler⟩

theorem comes_decompilerReady (hready : tools.decompiler.ready.run s = (true, s)) :
    Comes tools s (Plan.question .decompilerReady) true s := by
  refine comes_question fun turn h => ?_
  rw [respond_decompilerReady]
  rcases known_of_ready hready h.scene h.decompiler with heq | heq
  · rw [heq]
    exact ⟨rfl, h⟩
  · rw [heq]
    exact ⟨rfl, h.scene, h.assembler, nofun⟩

end Bench

open Bench

variable {tools : Toolbox} {s s' s'' : Scene} {a : α}

/-! ## Plans that can fail -/

namespace StagePlan

theorem comes_bind {x : StagePlan α} {f : α → StagePlan β} {r : Reply β}
    (hx : Comes tools s x.run (.ok a) s') (hf : Comes tools s' (f a).run r s'') :
    Comes tools s (x >>= f).run r s'' :=
  Comes.bind hx hf

theorem comes_pure (a : α) : Comes tools s (pure a : StagePlan α).run (.ok a) s := comes_done _

theorem comes_lift {p : Plan α} (hp : Comes tools s p a s') :
    Comes tools s (liftM p : StagePlan α).run (.ok a) s' :=
  Comes.bind hp (comes_done _)

/-- A check lets a plan go on while the token has not fired. -/
theorem comes_checkToken_bind {f : Unit → StagePlan α} {r : Reply α}
    (hfresh : s.token.fired = false) (hf : Comes tools s (f ()).run r s') :
    Comes tools s (checkToken >>= f).run r s' := by
  rw [run_checkToken_bind]
  refine comes_isCancelled.bind ?_
  rw [hfresh]
  exact hf

/-- A tool that is ready is not missing. -/
theorem comes_need {ready : Plan Bool} (tool : ToolLabel) (hready : Comes tools s ready true s) :
    Comes tools s (need ready tool).run (.ok ()) s :=
  comes_bind (comes_lift hready) (comes_pure ())

end StagePlan

/-! ## The first stage -/

namespace Pipeline

open StagePlan

variable {p : Pipeline} {c : ClassName} {file dir : Path} {text java : String} {u : FileTree}

/-- Editor text is written into the scratch directory, and this file is the unit. -/
theorem comes_unitFor (hwrite : s.tree.write (dir / unitName c) (Text.bytes text) = .ok u) :
    Comes tools s (unitFor c dir file (some text)).run (.ok (dir / unitName c))
      { s with tree := u } := by
  -- The plan is unrolled to the question that writes the file.
  show Comes tools s (Plan.look >>= fun t =>
    (orSystem (t.write (dir / unitName c) (Text.bytes text)) >>= fun t =>
      liftM (Plan.change t) >>= fun _ => (pure (dir / unitName c) : StagePlan Path)).run) _ _
  refine comes_look.bind ?_
  rw [hwrite]
  exact comes_bind (comes_pure u) (comes_bind (comes_lift (comes_change u)) (comes_pure _))

/-- The Java source is that in the tree that the decompiler has written. -/
theorem comes_javaOf {container tree : Path}
    (hdecompile : (tools.decompiler.decompile ⟨container, dir / "out", some c⟩).run.run s =
      (.ok { status := .success, tree := some tree }, s'))
    (hfresh : s'.token.fired = false) (hextract : extract s'.tree tree c = .ok java) :
    Comes tools s (javaOf c container dir).run (.ok java) s' := by
  unfold javaOf
  refine comes_bind (comes_decompile hdecompile) (comes_checkToken_bind hfresh ?_)
  refine comes_look.bind ?_
  rw [hextract]
  exact comes_done _

/-- The unit is written, assembled, and the container decompiled. -/
theorem comes_assembledSource {container tree : Path}
    (hwrite : s.tree.write (dir / unitName c) (Text.bytes text) = .ok u)
    (hassemble : (tools.assembler.assemble ⟨dir / unitName c, c, dir / "classes.dex"⟩).run.run
      { s with tree := u } = (.ok { status := .success, container := some container }, s'))
    (hdecompile : (tools.decompiler.decompile ⟨container, dir / "out", some c⟩).run.run s' =
      (.ok { status := .success, tree := some tree }, s''))
    (hfresh : s'.token.fired = false) (hfresh' : s''.token.fired = false)
    (hextract : extract s''.tree tree c = .ok java) :
    Comes tools s (assembledSource c file (some text) dir).run (.ok ⟨java, .realtime, none⟩)
      s'' := by
  unfold assembledSource
  -- The unit is written, assembled, and the container decompiled.
  refine comes_bind (comes_unitFor hwrite) (comes_bind (comes_assemble hassemble) ?_)
  refine comes_checkToken_bind hfresh ?_
  exact comes_bind (comes_javaOf hdecompile hfresh' hextract) (comes_pure _)

variable {t : FileTree} (hmade : p.makeScratch s.tree = (t, .ok dir))
include hmade

/-- The work is done in the scratch directory, which is removed then. -/
theorem comes_withScratch {work : Path → StagePlan α} {r : Reply α}
    (hwork : Comes tools { s with tree := t } (work dir).run r s') :
    Comes tools s (p.withScratch work).run r { s' with tree := s'.tree.removeTree dir } := by
  refine comes_look.bind ?_
  rw [hmade]
  refine (comes_change t).bind (hwork.bind (comes_look.bind ?_))
  exact (comes_change _).bind (comes_done r)

/-- A conversion of editor text ends with the Java source of the first stage, if the tools are ready
and their work in the scratch directory succeeds. -/
theorem comes_resolve {source : JavaSource} (hclass : ClassName.ofPath? file = some c)
    (hassembler : ∀ s, tools.assembler.ready.run s = (true, s))
    (hdecompiler : ∀ s, tools.decompiler.ready.run s = (true, s))
    (hfresh : s.token.fired = false) (hfresh' : s'.token.fired = false)
    (hwork : Comes tools { s with tree := t } (assembledSource c file (some text) dir).run
      (.ok source) s') :
    Comes tools s (p.resolve file (some text)) (.outcome (.success source))
      { s' with tree := s'.tree.removeTree dir } := by
  have hstage : Comes tools s (p.realtime (Probe.of file (some text)) (some text)).run (.ok source)
      { s' with tree := s'.tree.removeTree dir } := by
    have hprobe : (Probe.of file (some text)).pathClass = some c := hclass
    unfold realtime
    rw [hprobe]
    refine comes_bind (comes_need _ (comes_assemblerReady (hassembler s))) ?_
    refine comes_bind (comes_need _ (comes_decompilerReady (hdecompiler s))) ?_
    exact comes_withScratch hmade hwork
  have hreport : Comes tools s (p.tryStage (Probe.of file (some text)) (some text) .realtime)
      { result := .ok source } { s' with tree := s'.tree.removeTree dir } :=
    hstage.bind (comes_done _)
  -- The first report is a success, so that no other stage is begun.
  refine comes_isCancelled.bind ?_
  rw [hfresh]
  refine hreport.bind (comes_isCancelled.bind ?_)
  rw [show ({ s' with tree := s'.tree.removeTree dir } : Scene).token.fired = false from hfresh']
  exact comes_done _

end Pipeline

end SmaliView
