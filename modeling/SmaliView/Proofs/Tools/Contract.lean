import SmaliView.Proofs.Files.Standing
import SmaliView.Proofs.Tools.Meets
import SmaliView.Tools.Jadx
import SmaliView.Tools.Smali

/-!
# What tools promise

A tool says that it did its work exactly if it names what it made, and then that is there. Where it
gives no answer it was cancelled, it is missing, or there was trouble that nothing is known about,
and it is cancelled by its token alone. Tools that are programs start nothing once the token has
fired, give no answer if it fired before the end of the program was seen, and have something to say
about every failure.

**`Toolbox.tools_keep_promises`** says so of all tools, whatever programs do, whatever files they
leave, and whenever the token fires.
-/

namespace SmaliView

open FileTree

variable {α : Type}

/-! ## Texts that tell something -/

/-- A text that is not all blank. -/
def Tells (s : String) : Prop := ∃ c ∈ s.toList, Text.isBlank c = false

/-- A text that tells something does so whatever follows. -/
theorem Tells.append {s : String} (h : Tells s) (t : String) : Tells (s ++ t) := by
  obtain ⟨c, hc, hsolid⟩ := h
  exact ⟨c, by rw [String.toList_append]; exact List.mem_append_left _ hc, hsolid⟩

/-- What is left when the blanks around a text are removed tells something, or it is nothing. -/
theorem tells_trimmed {s : String} (h : (Text.trimmed s).isEmpty = false) :
    Tells (Text.trimmed s) := by
  -- If nothing were left, the text would be empty; else its last character is no blank.
  have hne : (s.toList.dropWhile Text.isBlank).reverse.dropWhile Text.isBlank ≠ [] := by
    intro hnil
    rw [Text.trimmed, Text.trim, Text.dropEnd, hnil] at h
    cases h
  refine ⟨_, ?_, List.head_dropWhile_not Text.isBlank hne⟩
  rw [Text.trimmed, String.toList_ofList, Text.trim, Text.dropEnd, List.mem_reverse]
  exact List.head_mem hne

namespace ProgramOutput

/-- How a program ended is always told. -/
theorem tells_ending (o : ProgramOutput) : Tells o.ending := by
  rw [ending]
  cases o.status with
  | some code => exact Tells.append ⟨'e', by decide, by decide⟩ _
  | none => exact ⟨'t', by decide, by decide⟩

/-- There is something to say about every program that has ended. -/
theorem tells_diagnostics (o : ProgramOutput) : Tells o.diagnostics := by
  rw [diagnostics]
  split
  · exact o.tells_ending
  next parts hparts =>
  obtain ⟨part, rest, hrest⟩ := List.exists_cons_of_ne_nil hparts
  have hpart : Tells part := by
    have hmem : part ∈ [Text.trimmed o.stderr, Text.trimmed o.stdout].filter (!·.isEmpty) := by
      rw [hrest]
      exact List.mem_cons_self ..
    obtain ⟨hstream, hfull⟩ := List.mem_filter.mp hmem
    rw [Bool.not_eq_true'] at hfull
    rcases List.mem_cons.mp hstream with rfl | hstream
    · exact tells_trimmed hfull
    · obtain rfl := List.mem_singleton.mp hstream
      exact tells_trimmed hfull
  rw [hrest]
  obtain ⟨c, hc, hsolid⟩ := hpart
  refine ⟨c, ?_, hsolid⟩
  cases rest with
  | nil => simpa using hc
  | cons next rest => simp [hc]

end ProgramOutput

/-! ## The promises -/

/-- An answer as it may be given when a scene is left: the work was done and what was made is named
and is there, or it was not done and nothing is named. -/
inductive Answered (left : Scene) : ToolStatus → Option Path → Prop where
  | success {p : Path} (hstands : left.tree.contains p = true) : Answered left .success (some p)
  | failed : Answered left .failed none

/-- What every tool promises of its reply and of the scene that it leaves. -/
structure Honest (status : α → ToolStatus) (named : α → Option Path) (turn : Reply α × Scene) :
    Prop where
  answer : ∀ a, turn.1 = .ok a → Answered turn.2 (status a) (named a)
  failure : ∀ e, turn.1 = .error e → e.Allowed turn.2

/-- A program was started in a scene, its output was taken when its end was seen, and that was in
another scene. -/
def Host.Sees (host : Host) (l : Launcher) (args : List String) (scene : Scene)
    (output : ProgramOutput) (seen : Scene) : Prop :=
  ∃ running begun ended, host.start l args scene = (.ok running, begun) ∧
    running begun = (.ok output, ended) ∧
    seen = { ended with token := ended.token.later host.noticing }

/-- What a tool that is a program promises besides, if it was called in a scene. -/
structure Prompt (host : Host) (l : Launcher) (args : List String) (scene : Scene)
    (status : α → ToolStatus) (diagnostics : α → String) (turn : Reply α × Scene) : Prop where
  diagnosed : ∀ a, turn.1 = .ok a → status a = .failed → Tells (diagnostics a)
  unstarted : scene.token.fired = true → turn = (.error (.error .cancelled), scene)
  timely : ∀ a, turn.1 = .ok a →
    ∃ output seen, host.Sees l args scene output seen ∧ seen.token.fired = false

/-- Work keeps the promises if its answers do. -/
theorem Work.Meets.honest {x : Work α} {scene : Scene} {post : α → Scene → Prop}
    {status : α → ToolStatus} {named : α → Option Path} (h : Meets (· = scene) x post)
    (hpost : ∀ a left, post a left → Answered left (status a) (named a)) :
    Honest status named (x.run.run scene) :=
  ⟨fun a ha => hpost a _ (h.ok rfl ha), fun _ he => h.allowed rfl he⟩

/-! ## Programs -/

namespace Launcher

variable {host : Host} {l : Launcher} {label : ToolLabel} {args : List String} {scene : Scene}

/-- That a program could not be started is an allowed failure. -/
theorem allowed_startError (e : SystemError) : (Failure.error (startError label e)).Allowed scene := by
  rw [startError]
  split
  · exact .toolUnavailable ..
  · exact .unexpected _

/-- A program that gives an output was seen to end before the token fired. -/
theorem meets_run : Work.Meets (· = scene) (l.run host label args) fun output _ =>
    ∃ seen, host.Sees l args scene output seen ∧ seen.token.fired = false := by
  have hstart : Work.Meets (fun s => s = scene ∧ s.token.fired = false)
      (liftM (host.start l args)) fun started begun => host.start l args scene = (started, begun) :=
    Work.meets_lift fun s hs => hs.1 ▸ rfl
  -- The token is looked at before the start, at the end of the program, and before the output is
  -- handed out.
  refine Work.meets_checkToken.bind fun _ => hstart.bind fun started => ?_
  cases started with
  | error e => exact Work.meets_fail fun s _ => allowed_startError e
  | ok running =>
    -- How the program ended, and which scene that left, before anybody looked.
    let Ends (ended : Except SystemError ProgramOutput) (left : Scene) : Prop :=
      ∃ begun, host.start l args scene = (.ok running, begun) ∧ running begun = (ended, left)
    have hend : Work.Meets (fun begun => host.start l args scene = (.ok running, begun))
        (liftM running) Ends :=
      Work.meets_lift fun begun hbegun => ⟨begun, hbegun, rfl⟩
    refine hend.bind fun ended => Work.meets_checkToken.bind fun _ => ?_
    have hnotice : Work.Meets (fun left => Ends ended left ∧ left.token.fired = false)
        (Work.pass host.noticing) fun _ seen => ∃ left, Ends ended left ∧
          seen = { left with token := left.token.later host.noticing } :=
      Work.meets_pass fun left hleft => ⟨left, hleft.1, rfl⟩
    refine hnotice.bind fun _ => ?_
    cases ended with
    | error e => exact Work.meets_fail fun s _ => .unexpected _
    | ok output =>
      have hreport : Work.Meets (fun seen => ∃ left, Ends (.ok output) left ∧
            seen = { left with token := left.token.later host.noticing })
          (Work.pass host.reporting) fun _ s => ∃ seen, host.Sees l args scene output seen ∧
            s.token = seen.token.later host.reporting :=
        Work.meets_pass fun seen ⟨left, ⟨begun, hbegun, hleft⟩, hseen⟩ =>
          ⟨seen, ⟨running, begun, left, hbegun, hleft, hseen⟩, rfl⟩
      refine hreport.bind fun _ => Work.meets_checkToken.bind fun _ => Work.meets_pure ?_
      rintro s ⟨⟨seen, hsees, htoken⟩, hquiet⟩
      refine ⟨seen, hsees, ?_⟩
      -- A token that had fired when the end was seen would still be so.
      rw [Bool.eq_false_iff]
      intro hfired
      rw [htoken, Token.fired_later hfired] at hquiet
      cases hquiet

/-- A program is not started once the token has fired. -/
theorem run_of_fired (h : scene.token.fired = true) :
    (l.run host label args).run.run scene = (.error (.error .cancelled), scene) := by
  rw [run, Work.run_bind, Work.run_checkToken, if_pos h]

/-- Work that runs a program and makes its answer of the output and of the files that are left. -/
theorem keeps_promises {x : Work α} {status : α → ToolStatus} {named : α → Option Path}
    {diagnostics : α → String} (answer : FileTree → ProgramOutput → α)
    (hx : x = do
      let output ← l.run host label args
      return answer (← get).tree output)
    (hanswered : ∀ left output,
      Answered left (status (answer left.tree output)) (named (answer left.tree output)))
    (htold : ∀ tree output, status (answer tree output) = .failed →
      Tells (diagnostics (answer tree output))) :
    Honest status named (x.run.run scene) ∧
      Prompt host l args scene status diagnostics (x.run.run scene) := by
  -- An answer is made of an output that was seen in time, and of the files that are left.
  have hmeets : Work.Meets (· = scene) x fun a left => ∃ output, a = answer left.tree output ∧
      ∃ seen, host.Sees l args scene output seen ∧ seen.token.fired = false := by
    rw [hx]
    refine meets_run.bind fun output => Work.meets_get.bind fun left => Work.meets_pure ?_
    rintro _ ⟨rfl, hseen⟩
    exact ⟨output, rfl, hseen⟩
  refine ⟨hmeets.honest ?_, ?_, ?_, ?_⟩
  · rintro _ left ⟨output, rfl, -⟩
    exact hanswered left output
  · intro a ha
    obtain ⟨output, rfl, -⟩ := hmeets.ok rfl ha
    exact htold _ output
  · intro hfired
    rw [hx, Work.run_bind, run_of_fired hfired]
  · intro a ha
    obtain ⟨output, -, seen, hseen⟩ := hmeets.ok rfl ha
    exact ⟨output, seen, hseen⟩

end Launcher

theorem AssemblerSettings.answered_answer {r : AssembleRequest} (left : Scene)
    (output : ProgramOutput) : Answered left (answer r (left.tree.contains r.output) output).status
      (answer r (left.tree.contains r.output) output).container := by
  rw [answer]
  split
  · split
    · next hstands => exact .success hstands
    · exact .failed
  · exact .failed

/-- There is something to say about every run of the assembler, also about one that ended well but
made nothing. -/
theorem AssemblerSettings.tells_answer {r : AssembleRequest} {produced : Bool}
    {output : ProgramOutput} : Tells (answer r produced output).diagnostics := by
  have htold := output.tells_diagnostics
  rw [answer]
  split
  · split
    · dsimp only
      exact htold
    · exact Tells.append ⟨'s', by decide, by decide⟩ _
  · dsimp only
    exact htold

theorem DecompilerSettings.answered_answer {r : DecompileRequest} (left : Scene)
    (output : ProgramOutput) : Answered left (answer (sourceTree? left.tree r.output) output).status
      (answer (sourceTree? left.tree r.output) output).tree := by
  rw [sourceTree?]
  split
  · next hlist => exact .success (contains_of_list hlist)
  · exact .failed

theorem DecompilerSettings.tells_answer {sources : Option Path} {output : ProgramOutput} :
    Tells (answer sources output).diagnostics := by
  rw [answer]
  dsimp only
  exact output.tells_diagnostics

/-! ## Mock tools -/

/-- Waiting meets the contract, whether it pays attention or not. -/
theorem Pace.meets_sleep (pace : Pace) :
    Work.Meets (fun _ => True) pace.sleep fun _ _ => True := by
  have hdelay : Work.Meets (fun s => True ∧ s.token.fired = false) (Work.pass pace.delay)
      fun _ _ => True := Work.meets_pass fun _ _ => trivial
  refine Work.meets_checkToken.bind fun _ => hdelay.bind fun _ => ?_
  cases pace.attentive with
  | true => exact Work.meets_checkToken.mono (fun _ h => h) fun _ _ _ => trivial
  | false => exact Work.meets_pure fun _ _ => trivial

/-- A mock tool that does not break begins with its work, or it has failed. -/
theorem MockMode.meets_start {mode : MockMode} (hmode : ∀ message, mode ≠ .panicking message)
    (label : ToolLabel) (pace : Pace) :
    Work.Meets (fun _ => True) (mode.start label pace) fun _ _ => True := by
  cases mode with
  | working => exact pace.meets_sleep.bind fun _ => Work.meets_pure fun _ h => h
  | missing => exact Work.meets_fail fun _ _ => .toolUnavailable ..
  | failing diagnostics => exact pace.meets_sleep.bind fun _ => Work.meets_pure fun _ h => h
  | panicking message => exact absurd rfl (hmode message)

namespace Mock

variable {mode : MockMode}

/-- An answer that is given after the token was looked at once more. -/
theorem meets_finish {pre : Scene → Prop} {ms : Nat} {a : α} {status : α → ToolStatus}
    {named : α → Option Path}
    (h : ∀ s token, pre s → Answered { s with token } (status a) (named a)) :
    Work.Meets pre (do Work.pass ms; Work.checkToken; return a)
      fun a left => Answered left (status a) (named a) := by
  have hpass : Work.Meets pre (Work.pass ms) fun _ s => Answered s (status a) (named a) :=
    Work.meets_pass fun s hs => h s _ hs
  exact hpass.bind fun _ => Work.meets_checkToken.bind fun _ => Work.meets_pure fun _ hs => hs.1

/-- The mock assembler is honest in every mode but the one that panics. -/
theorem assembler_honest (hmode : ∀ message, mode ≠ .panicking message) (pace : Pace)
    (r : AssembleRequest) (scene : Scene) :
    Honest AssembleAnswer.status AssembleAnswer.container
      (((assembler mode pace).assemble r).run.run scene) := by
  have hwork : Work.Meets (fun _ => True) ((assembler mode pace).assemble r)
      fun a left => Answered left a.status a.container := by
    refine (MockMode.meets_start hmode _ pace).bind fun failed => ?_
    cases failed with
    | some diagnostics => exact Work.meets_pure fun _ _ => .failed
    | none =>
      have hcopy : Work.Meets (fun _ => True) (Work.change (·.copy r.unit r.output))
          fun _ s => s.tree.contains r.output = true :=
        Work.meets_change fun _ _ _ hcopied => contains_copy hcopied
      exact hcopy.bind fun _ => meets_finish fun _ _ hstands => .success hstands
  exact (hwork.mono (fun _ _ => trivial) fun _ _ h => h).honest fun _ _ h => h

def HasDirectory (p : Path) (s : Scene) : Prop := s.tree.isDirectory p = true

/-- A directory stays while Java source is written. -/
theorem meets_writeSource (p root : Path) (c : ClassName) (text : String) :
    Work.Meets (HasDirectory p) (writeSource root c text) fun _ => HasDirectory p := by
  have hwrite : Work.Meets (HasDirectory p)
      (Work.change (·.write (root.join c.javaPath) (Text.bytes text))) fun _ => HasDirectory p :=
    Work.meets_change fun _ _ hs hwritten => isDirectory_write hwritten hs
  unfold writeSource
  dsimp only
  -- Directories are made, and a file is written over no directory.
  cases (root.join c.javaPath).parent? with
  | none => exact hwrite
  | some parent =>
    have hmake : Work.Meets (HasDirectory p) (Work.makeDirectories parent)
        fun _ => HasDirectory p := by
      refine Work.meets_makeDirectories fun s tree hs hmade => ?_
      have hextends := extends_makeAll s.tree parent.ancestors
      rw [hmade] at hextends
      exact hextends.isDirectory hs
    exact hmake.bind fun _ => hwrite

/-- The mock decompiler is honest in every mode but the one that panics. -/
theorem decompiler_honest (hmode : ∀ message, mode ≠ .panicking message)
    (outputs : List (ClassName × String)) (pace : Pace) (r : DecompileRequest) (scene : Scene) :
    Honest DecompileAnswer.status DecompileAnswer.tree
      (((decompiler mode outputs pace).decompile r).run.run scene) := by
  have hwork : Work.Meets (fun _ => True) ((decompiler mode outputs pace).decompile r)
      fun a left => Answered left a.status a.tree := by
    refine (MockMode.meets_start hmode _ pace).bind fun failed => ?_
    cases failed with
    | some diagnostics => exact Work.meets_pure fun _ _ => .failed
    | none =>
      -- From here on the directory that the answer names is there.
      have hroot : Work.Meets (fun _ => True) (Work.makeDirectories (r.output / "sources"))
          fun _ => HasDirectory (r.output / "sources") :=
        Work.meets_makeDirectories fun _ _ _ hmade =>
          isDirectory_makeAll ⟨by decide, by decide, by decide⟩ hmade
      have hsource := meets_writeSource (r.output / "sources") (r.output / "sources")
      have hfinish : Work.Meets (HasDirectory (r.output / "sources")) (do
          Work.pass pace.labour
          Work.checkToken
          return ({ status := .success, tree := some (r.output / "sources") } : DecompileAnswer))
          fun a left => Answered left a.status a.tree :=
        meets_finish fun _ _ hstands => .success (contains_of_isDirectory hstands)
      refine hroot.bind fun _ => (Work.meets_forM (fun o => ?_) outputs).bind fun _ =>
        Work.meets_look.bind fun content => ?_
      · exact hsource o.1 o.2
      dsimp only
      cases classIn content r.filter with
      | none => exact hfinish
      | some c =>
        dsimp only
        split
        · exact hfinish
        · exact (hsource c c.stub).bind fun _ => hfinish
  exact (hwork.mono (fun _ _ => trivial) fun _ _ h => h).honest fun _ _ h => h

end Mock

/-! ## All tools -/

/-- Every tool keeps its promises: for every host, so whatever program is started, however it ends
and whatever files it leaves, for every pace of a mock tool that does not break, and for every
scene, so whenever its token fires. -/
theorem Toolbox.tools_keep_promises :
    (∀ (host : Host) (s : AssemblerSettings) (search : List Path) (r : AssembleRequest)
      (scene : Scene),
      Honest AssembleAnswer.status AssembleAnswer.container
          (((s.tool search host).assemble r).run.run scene) ∧
        Prompt host ⟨s.program, search⟩ (s.args r) scene AssembleAnswer.status
          AssembleAnswer.diagnostics (((s.tool search host).assemble r).run.run scene)) ∧
    (∀ (host : Host) (s : DecompilerSettings) (search : List Path) (r : DecompileRequest)
      (scene : Scene),
      Honest DecompileAnswer.status DecompileAnswer.tree
          (((s.tool search host).decompile r).run.run scene) ∧
        Prompt host ⟨s.binaryPath, search⟩ (s.args r) scene DecompileAnswer.status
          DecompileAnswer.diagnostics (((s.tool search host).decompile r).run.run scene)) ∧
    (∀ (mode : MockMode) (pace : Pace) (r : AssembleRequest) (scene : Scene),
      (∀ message, mode ≠ .panicking message) →
      Honest AssembleAnswer.status AssembleAnswer.container
        (((Mock.assembler mode pace).assemble r).run.run scene)) ∧
    ∀ (mode : MockMode) (outputs : List (ClassName × String)) (pace : Pace) (r : DecompileRequest)
      (scene : Scene), (∀ message, mode ≠ .panicking message) →
      Honest DecompileAnswer.status DecompileAnswer.tree
        (((Mock.decompiler mode outputs pace).decompile r).run.run scene) := by
  refine ⟨fun host s search r scene => ?_, fun host s search r scene => ?_, ?_, ?_⟩
  · exact Launcher.keeps_promises
      (fun tree output => AssemblerSettings.answer r (tree.contains r.output) output) rfl
      AssemblerSettings.answered_answer fun _ _ _ => AssemblerSettings.tells_answer
  · exact Launcher.keeps_promises
      (fun tree output => DecompilerSettings.answer (DecompilerSettings.sourceTree? tree r.output) output)
      rfl DecompilerSettings.answered_answer fun _ _ _ => DecompilerSettings.tells_answer
  · exact fun mode pace r scene hmode => Mock.assembler_honest hmode pace r scene
  · exact fun mode outputs pace r scene hmode => Mock.decompiler_honest hmode outputs pace r scene

def idleHost : Host where
  start _ _ := fun scene =>
    (.ok fun running => (.ok ⟨true, some 0, "", ""⟩, running), scene)

/-- A program that ends well but makes nothing has failed, and there is something to say about it;
and a mock tool that works does not break. -/
theorem Toolbox.idle_program_has_failed :
    let request : AssembleRequest := ⟨⟨"/work/A.smali"⟩, default, ⟨"/work/classes.dex"⟩⟩
    let turn := ((({} : AssemblerSettings).tool [] idleHost).assemble request).run.run
      (default : Scene)
    (∃ a, turn.1 = .ok a ∧ a.status = .failed ∧ Tells a.diagnostics) ∧
      (∀ message, MockMode.working ≠ .panicking message) ∧
        Honest DecompileAnswer.status DecompileAnswer.tree
          (((Mock.decompiler .working).decompile default).run.run default) := by
  intro request turn
  have hworking : ∀ message, MockMode.working ≠ .panicking message := nofun
  have hnone : (default : FileTree).contains request.output = false := by decide +kernel
  have hturn : turn.1 = .ok (AssemblerSettings.answer request false ⟨true, some 0, "", ""⟩) := by
    rw [← hnone]
    rfl
  refine ⟨⟨_, hturn, rfl, ?_⟩, hworking, ?_⟩
  · exact (Toolbox.tools_keep_promises.1 idleHost {} [] request default).2.diagnosed _ hturn rfl
  · exact Toolbox.tools_keep_promises.2.2.2 .working [] {} default default hworking

end SmaliView
