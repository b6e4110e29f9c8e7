import SmaliView.Pipeline.Resolve
import SmaliView.Proofs.Files.SourcePaths
import SmaliView.Proofs.Pipeline.Candidates
import SmaliView.Proofs.Pipeline.Twins

/-!
# Indifference to one file

A conversion of editor text is carried out from two states that agree but for the regular file at a
location. If no respondent's answer depends on that file (`Indifferent`) and it stands beside the
way of the conversion at all moments of both runs (`Pipeline.ClearAt`), each stage comes to the same
in both and leaves states that agree as before. There is one rule for each part of a stage; what a
part has to know of the files of both states is said by `Knowing`.
-/

namespace SmaliView

open Plan (Respondent Seen Twins)
open FileTree

variable {α σ κ : Type}

/-! ## Tools that depend on what they are given -/

section

variable (files : σ → FileTree) (rest : σ → κ) (l : Location)

/-- Two states agree but for the regular file at a location. -/
structure Beside (s s' : σ) : Prop where
  rest : rest s = rest s'
  apart : Apart l (files s) (files s')

/-- An action gives the same answer in two states, and they agree afterwards. -/
def ActsAlike (act : σ → α × σ) (s s' : σ) : Prop :=
  (act s).1 = (act s').1 ∧ Beside files rest l (act s).2 (act s').2

/-- What comes of a call of an assembler depends on its unit alone: the answer, and the container
that it names. A call that is answered opens no way through the location. -/
def AssemblesAlike (request : AssembleRequest) (act : σ → Reply AssembleAnswer × σ) : Prop :=
  ∀ s s', Beside files rest l s s' → (files s).find request.unit = (files s').find request.unit →
    Pipeline.Secluded l request.output (files s) →
    ActsAlike files rest l act s s' ∧ ∀ answer, (act s).1 = .ok answer →
      (∀ p, (files (act s).2).Through l p → (files s).Through l p) ∧
        ∀ container, answer.container = some container →
          (files (act s).2).find container = (files (act s').2).find container

/-- What comes of a call of a decompiler depends on its container alone. -/
def DecompilesAlike (request : DecompileRequest) (act : σ → Reply DecompileAnswer × σ) : Prop :=
  ∀ s s', Beside files rest l s s' →
    (files s).find request.container = (files s').find request.container →
    Pipeline.Secluded l request.output (files s) → ActsAlike files rest l act s s'

end

/-- A respondent for whom the file at a location does not matter unless it is passed to a tool. What
there is besides the files, the token among it, takes its course without them. -/
structure Indifferent (respond : Respondent σ) (files : σ → FileTree) (rest : σ → κ)
    (l : Location) : Prop where
  look : ∀ s, (respond .look s).1 = files s ∧ files (respond .look s).2 = files s
  change : ∀ t s, files (respond (.change t) s).2 = t
  check : ∀ s, files (respond .isCancelled s).2 = files s
  rest_look : ∀ s s', rest s = rest s' → rest (respond .look s).2 = rest (respond .look s').2
  rest_change : ∀ t t' s s', rest s = rest s' →
    rest (respond (.change t) s).2 = rest (respond (.change t') s').2
  rest_check : ∀ s s', rest s = rest s' →
    (respond .isCancelled s).1 = (respond .isCancelled s').1 ∧
      rest (respond .isCancelled s).2 = rest (respond .isCancelled s').2
  assemblerReady : ∀ s s', Beside files rest l s s' →
    ActsAlike files rest l (respond .assemblerReady) s s'
  decompilerReady : ∀ s s', Beside files rest l s s' →
    ActsAlike files rest l (respond .decompilerReady) s s'
  assemble : ∀ r, AssemblesAlike files rest l r (respond (.assemble r))
  decompile : ∀ r, DecompilesAlike files rest l r (respond (.decompile r))

namespace Pipeline

/-- Where the Java source of the class that was wanted is looked for, once a decompiler has
answered. -/
def placesFor (request : DecompileRequest) (answer : DecompileAnswer) : List Path :=
  match answer.tree, request.filter with
  | some tree, some c => entriesIn tree c
  | _, _ => []

/-- What a decompiler has answered keeps to its output: the class is looked for below it, and the
call has opened no way through a location. -/
structure KeepsToOutput (l : Location) (request : DecompileRequest) (answer : DecompileAnswer)
    (before after : FileTree) : Prop where
  leadsDown : ∀ c, request.filter = some c → c.LeadsDown
  below : ∀ tree, answer.tree = some tree → Path.Below request.output tree
  ways : ∀ p, after.Through l p → before.Through l p

/-- Where the Java source is looked for lies below the output of the decompiler. -/
theorem KeepsToOutput.below_of_mem_placesFor {l : Location} {request : DecompileRequest}
    {answer : DecompileAnswer} {before after : FileTree}
    (h : KeepsToOutput l request answer before after) {e : Path}
    (he : e ∈ placesFor request answer) : Path.Below request.output e := by
  rw [placesFor] at he
  split at he
  · next tree c htree hfilter =>
    exact (h.below tree htree).trans (below_of_mem_entriesIn (h.leadsDown c hfilter) he)
  · cases he

/-- At a moment of a conversion the file at a location stands beside its way: it does when the files
are looked at, and it is not taken for the Java source that a decompiler has written. The latter
cannot happen while decompilers keep to their output. -/
structure ClearAt (p : Pipeline) (probe : Probe) (l : Location) (respond : Respondent σ)
    (files : σ → FileTree) (m : Moment σ) : Prop where
  look : m.question = .look → p.Clear probe l (files m.state)
  places : ∀ request answer, m.question = .decompile request →
    (respond (.decompile request) m.state).1 = .ok answer →
    ¬ KeepsToOutput l request answer (files m.state)
      (files (respond (.decompile request) m.state).2) →
    ∀ e ∈ placesFor request answer,
      (files (respond (.decompile request) m.state).2).locate e ≠ .ok l

/-- At every moment of a conversion of editor text the file at a location stands beside its way. -/
def StaysClear (p : Pipeline) (file : Path) (text : String) (l : Location)
    (respond : Respondent σ) (files : σ → FileTree) (s : σ) : Prop :=
  ∀ m ∈ (p.resolve file (some text)).moments respond s,
    p.ClearAt (Probe.of file (some text)) l respond files m

end Pipeline

namespace Indifferent

open StagePlan Pipeline

variable {respond : Respondent σ} {files : σ → FileTree} {rest : σ → κ} {l : Location}
  {p : Pipeline} {probe : Probe} {s s' : σ}

section

variable (h : Indifferent respond files rest l)
include h

/-- Looking leaves the two runs beside each other. -/
theorem beside_look (hs : Beside files rest l s s') :
    Beside files rest l (respond .look s).2 (respond .look s').2 := by
  refine ⟨h.rest_look s s' hs.rest, ?_⟩
  rw [(h.look s).2, (h.look s').2]
  exact hs.apart

/-- Questions that only the tools see leave the two runs beside each other. -/
theorem beside_of_seen (hs : Beside files rest l s s') {r r' : σ} (hr : Seen respond s s' r r') :
    Beside files rest l r r' := by
  rw [hr.1, hr.2]
  exact h.beside_look hs

/-- Changes that keep the trees apart at the location keep the runs beside each other. -/
theorem beside_change (hs : Beside files rest l s s') {t u : FileTree} (ht : Apart l t u) :
    Beside files rest l (respond (.change t) s).2 (respond (.change u) s').2 := by
  refine ⟨h.rest_change t u s s' hs.rest, ?_⟩
  rw [h.change, h.change]
  exact ht

theorem beside_check (hs : Beside files rest l s s') :
    Beside files rest l (respond .isCancelled s).2 (respond .isCancelled s').2 := by
  refine ⟨(h.rest_check s s' hs.rest).2, ?_⟩
  rw [h.check, h.check]
  exact hs.apart

end

/-- Two states that agree but for the file at a location, and what is known of their files. -/
def Knowing (files : σ → FileTree) (rest : σ → κ) (l : Location)
    (known : FileTree → FileTree → Prop) (s s' : σ) : Prop :=
  Beside files rest l s s' ∧ known (files s) (files s')

/-- The states agree as before, whether there is an answer or a failure. -/
abbrev Again (files : σ → FileTree) (rest : σ → κ) (l : Location) : Reply α → σ → σ → Prop :=
  Leaves (fun _ => Beside files rest l) (Beside files rest l)

/-- After any reply the two runs are beside each other. -/
theorem Again.beside {r : Reply α} (h : Again files rest l r s s') : Beside files rest l s s' := by
  cases r <;> exact h

section

variable (h : Indifferent respond files rest l) {known : FileTree → FileTree → Prop}
include h

/-! ## Questions -/

section

variable {right : Moment σ → Prop}

theorem twins_isCancelled : Twins respond right (Beside files rest l) Plan.isCancelled
    Plan.isCancelled fun _ => Beside files rest l :=
  Twins.question fun s s' hs _ _ => ⟨(h.rest_check s s' hs.rest).1, h.beside_check hs⟩

theorem twins_assemblerReady : Twins respond right (Beside files rest l)
    (Plan.question .assemblerReady) (Plan.question .assemblerReady) fun _ =>
      Beside files rest l :=
  Twins.question fun s s' hs _ _ => h.assemblerReady s s' hs

theorem twins_decompilerReady : Twins respond right (Beside files rest l)
    (Plan.question .decompilerReady) (Plan.question .decompilerReady) fun _ =>
      Beside files rest l :=
  Twins.question fun s s' hs _ _ => h.decompilerReady s s' hs

/-- Two trees that are apart are put in place of those that have been looked at. -/
theorem twins_change (hs : Beside files rest l s s') {t u : FileTree} (hapart : Apart l t u)
    (hknown : known t u) : Twins respond right (Seen respond s s') (Plan.change t)
      (Plan.change u) fun _ => Knowing files rest l known := by
  refine Twins.change fun r r' hr => ⟨h.beside_change (h.beside_of_seen hs hr) hapart, ?_⟩
  rw [h.change, h.change]
  exact hknown

/-- What is known of the files is known after a check of the token. -/
theorem twins_checkToken_bind {f f' : Unit → StagePlan α}
    (hf : Twins respond right (Knowing files rest l known) (f ()).run (f' ()).run
      (Again files rest l)) :
    Twins respond right (Knowing files rest l known) (checkToken >>= f).run
      (checkToken >>= f').run (Again files rest l) := by
  refine StagePlan.twins_checkToken_bind (fun s s' ⟨hs, hknown⟩ => ?_) (fun _ _ hs => hs.1) hf
  refine ⟨(h.rest_check s s' hs.rest).1, h.beside_check hs, ?_⟩
  rw [h.check, h.check]
  exact hknown

end

/-! ## Out of a container -/

/-- A decompiler that is passed the same container writes the same, and the file at the location is
not taken for what it has written. -/
theorem twins_decompile (c : ClassName) {container dir : Path} :
    Twins respond (p.ClearAt probe l respond files)
      (Knowing files rest l fun t u => t.find container = u.find container ∧ Secluded l dir t)
      (StagePlan.decompile ⟨container, dir / "out", some c⟩).run
      (StagePlan.decompile ⟨container, dir / "out", some c⟩).run
      (Leaves (fun answer => Knowing files rest l fun t _ =>
        ∀ tree, answer.tree = some tree → ∀ e ∈ entriesIn tree c, t.locate e ≠ .ok l)
        (Beside files rest l)) := by
  refine Twins.question fun s s' ⟨hs, hcontainer, hdir⟩ hclear _ => ?_
  have hout : Secluded l (dir / "out") (files s) := hdir.div ⟨by decide, by decide, by decide⟩
  have hplaces := hclear.places ⟨container, dir / "out", some c⟩
  obtain ⟨heq, hs'⟩ := h.decompile ⟨container, dir / "out", some c⟩ s s' hs hcontainer hout
  refine ⟨heq, ?_⟩
  generalize respond (.decompile ⟨container, dir / "out", some c⟩) s = x at hs' hplaces ⊢
  obtain ⟨reply, s₁⟩ := x
  cases reply with
  | error e => exact hs'
  | ok answer =>
    refine ⟨hs', fun tree htree e he => ?_⟩
    have hplace : e ∈ placesFor ⟨container, dir / "out", some c⟩ answer := by
      rw [placesFor, htree]
      exact he
    -- A decompiler that keeps to its output leaves nothing to suppose of the places.
    by_cases hkeeps : KeepsToOutput l ⟨container, dir / "out", some c⟩ answer (files s) (files s₁)
    · refine hs'.apart.locate_ne (fun hthrough => ?_) true
      exact hout e (hkeeps.below_of_mem_placesFor hplace) (hkeeps.ways e hthrough)
    · exact hplaces answer rfl rfl hkeeps e hplace

/-- The container is the same in both runs, and so is the Java source that comes out of it. -/
theorem twins_javaOf (c : ClassName) {container dir : Path} :
    Twins respond (p.ClearAt probe l respond files)
      (Knowing files rest l fun t u => t.find container = u.find container ∧ Secluded l dir t)
      (javaOf c container dir).run (javaOf c container dir).run (Again files rest l) := by
  unfold javaOf
  refine twins_bind (h.twins_decompile c) fun answer => ?_
  unfold javaIn
  split
  · next tree _ htree =>
    refine h.twins_checkToken_bind ?_
    show Twins _ _ _ (Plan.look >>= fun t => .done (extract t tree c))
      (Plan.look >>= fun t => .done (extract t tree c)) _
    refine Twins.look_bind fun s s' hs _ _ => ?_
    have heq := extract_congr hs.1.apart.now fun e he =>
      hs.1.apart.find_toOption (hs.2 tree htree e he)
    rw [(h.look s).1, (h.look s').1, heq]
    refine Twins.done fun r r' hr => ?_
    cases extract (files s') tree c <;> exact h.beside_of_seen hs.1 hr
  · exact twins_fail _ fun _ _ hs => hs.1

/-! ## Scratch directories -/

/-- Work in a scratch directory: what is known of the files and depends on the ways of paths alone
is known in it too. -/
theorem twins_withScratch {work : Path → StagePlan α}
    (hways : ∀ t u t' u', SameWays t t' → Apart l t' u' → known t u → known t' u')
    (hwork : ∀ dir, Twins respond (p.ClearAt probe l respond files)
      (Knowing files rest l fun t u => known t u ∧ Secluded l dir t)
      (work dir).run (work dir).run (Again files rest l)) :
    Twins respond (p.ClearAt probe l respond files) (Knowing files rest l known)
      (p.withScratch work).run (p.withScratch work).run (Again files rest l) := by
  show Twins _ _ _ (Plan.look >>= _) (Plan.look >>= _) _
  refine Twins.look_bind fun s s' ⟨hs, hknown⟩ hclear _ => ?_
  obtain ⟨hmade, hapart, hsame, hdir⟩ := hs.apart.makeScratch (hclear.look rfl)
  rw [(h.look s).1, (h.look s').1]
  generalize p.makeScratch (files s) = x, p.makeScratch (files s') = y at hmade hapart hsame hdir
  obtain ⟨t, r⟩ := x
  obtain ⟨u, r'⟩ := y
  obtain rfl : r = r' := hmade
  -- Making the directory opens no way through the location, so what is known is still true.
  have hplaced : Twins respond (p.ClearAt probe l respond files) (Seen respond s s')
      (Plan.change t) (Plan.change u)
      fun _ => Knowing files rest l fun t u => known t u ∧ ∀ dir, r = .ok dir → Secluded l dir t :=
    h.twins_change hs hapart ⟨hways _ _ _ _ hsame hapart hknown, hdir⟩
  refine hplaced.bind fun _ => ?_
  cases r with
  | error e => exact Twins.done fun r r' hr => hr.1
  | ok dir =>
    refine Twins.bind ((hwork dir).mono (fun r r' hr => ?_) fun _ _ _ hr => hr) fun result => ?_
    · exact ⟨hr.1, hr.2.1, hr.2.2 dir rfl⟩
    refine Twins.look_bind fun s s' hs _ _ => ?_
    rw [(h.look s).1, (h.look s').1]
    have hremoved : Twins respond (p.ClearAt probe l respond files) (Seen respond s s')
        (Plan.change ((files s).removeTree dir)) (Plan.change ((files s').removeTree dir))
        fun _ => Knowing files rest l fun _ _ => True :=
      h.twins_change hs.beside (hs.beside.apart.removeTree dir) trivial
    refine hremoved.bind fun _ => Twins.done fun r r' hr => ?_
    cases result <;> exact hr.1

/-! ## The stages -/

/-- Editor text is written to the same file, and read back alike. -/
theorem twins_unitFor {right : Moment σ → Prop} (c : ClassName) {dir file : Path} (text : String) :
    Twins respond right (Knowing files rest l fun t _ => Secluded l dir t)
      (unitFor c dir file (some text)).run (unitFor c dir file (some text)).run
      (Leaves (fun unit => Knowing files rest l fun t u =>
        t.find unit = u.find unit ∧ Secluded l dir t) (Beside files rest l)) := by
  show Twins _ _ _
    (Plan.look >>= fun t => (orSystem (t.write (dir / unitName c) (Text.bytes text)) >>= fun t =>
      liftM (Plan.change t) >>= fun _ => (pure (dir / unitName c) : StagePlan Path)).run)
    (Plan.look >>= fun t => (orSystem (t.write (dir / unitName c) (Text.bytes text)) >>= fun t =>
      liftM (Plan.change t) >>= fun _ => (pure (dir / unitName c) : StagePlan Path)).run) _
  refine Twins.look_bind fun s s' hs _ _ => ?_
  -- The unit lies in the scratch directory, where nothing leads through the location.
  have hunit : Path.Below dir (dir / unitName c) := .down .here (isName_unitName c)
  have hwritten := hs.1.apart.write (hs.2 _ hunit) (Text.bytes text)
  rw [(h.look s).1, (h.look s').1]
  generalize (files s).write (dir / unitName c) (Text.bytes text) = x,
    (files s').write (dir / unitName c) (Text.bytes text) = y at hwritten
  cases hwritten with
  | error e => exact Twins.done fun r r' hr => h.beside_of_seen hs.1 hr
  | @ok t u hwritten =>
    obtain ⟨hapart, hsame⟩ := hwritten
    have hdir : Secluded l dir t := hs.2.congr hsame
    have hplaced : Twins respond right (Seen respond s s') (Plan.change t) (Plan.change u)
        fun _ => Knowing files rest l fun t u =>
          t.find (dir / unitName c) = u.find (dir / unitName c) ∧ Secluded l dir t :=
      h.twins_change hs.1 hapart ⟨hapart.find (hdir _ hunit), hdir⟩
    show Twins _ _ _
      (liftM (Plan.change t) >>= fun _ => (pure (dir / unitName c) : StagePlan Path)).run
      (liftM (Plan.change u) >>= fun _ => (pure (dir / unitName c) : StagePlan Path)).run _
    exact twins_bind (twins_lift hplaced) fun _ => twins_pure fun _ _ h => h

/-- An assembler that is passed the same unit makes the same container. -/
theorem twins_assemble {right : Moment σ → Prop} (c : ClassName) {unit dir : Path} :
    Twins respond right
      (Knowing files rest l fun t u => t.find unit = u.find unit ∧ Secluded l dir t)
      (StagePlan.assemble ⟨unit, c, dir / "classes.dex"⟩).run
      (StagePlan.assemble ⟨unit, c, dir / "classes.dex"⟩).run
      (Leaves (fun answer => Knowing files rest l fun t u =>
        (∀ container, answer.container = some container → t.find container = u.find container) ∧
          Secluded l dir t) (Beside files rest l)) := by
  refine Twins.question fun s s' ⟨hs, hunit, hdir⟩ _ _ => ?_
  have hout : Secluded l (dir / "classes.dex") (files s) :=
    hdir.div ⟨by decide, by decide, by decide⟩
  obtain ⟨⟨heq, hs'⟩, hanswer⟩ :=
    h.assemble ⟨unit, c, dir / "classes.dex"⟩ s s' hs hunit hout
  refine ⟨heq, ?_⟩
  generalize respond (.assemble ⟨unit, c, dir / "classes.dex"⟩) s = x at hs' hanswer ⊢
  obtain ⟨reply, s₁⟩ := x
  cases reply with
  | error e => exact hs'
  | ok answer =>
    obtain ⟨hways, hnamed⟩ := hanswer answer rfl
    exact ⟨hs', hnamed, fun q hq hthrough => hdir q hq (hways _ hthrough)⟩

/-- The unit that is written is the same in both runs, and so is its container. -/
theorem twins_assembledSource (c : ClassName) (file : Path) (text : String) {dir : Path} :
    Twins respond (p.ClearAt probe l respond files)
      (Knowing files rest l fun t _ => Secluded l dir t)
      (assembledSource c file (some text) dir).run (assembledSource c file (some text) dir).run
      (Again files rest l) := by
  unfold assembledSource
  refine twins_bind (h.twins_unitFor c text) fun unit => ?_
  refine twins_bind (h.twins_assemble c) fun answer => ?_
  split
  · next container _ hcontainer =>
    refine h.twins_checkToken_bind ?_
    refine twins_bind ((h.twins_javaOf c).mono (fun s s' hs => ?_) fun _ _ _ hs => hs)
      fun text => twins_pure fun _ _ hs => hs
    exact ⟨hs.1, hs.2.1 container hcontainer, hs.2.2⟩
  · exact twins_fail _ fun _ _ hs => hs.1

/-- With editor text the first stage runs alike. -/
theorem twins_realtime (text : String) :
    Twins respond (p.ClearAt probe l respond files) (Beside files rest l)
      (p.realtime probe (some text)).run (p.realtime probe (some text)).run
      (Again files rest l) := by
  unfold realtime
  split
  · exact twins_fail _ fun _ _ hs => hs
  · next c _ =>
    refine twins_bind (twins_need h.twins_assemblerReady fun _ _ hs => hs) fun _ => ?_
    refine twins_bind (twins_need h.twins_decompilerReady fun _ _ hs => hs) fun _ => ?_
    have hwork : Twins respond (p.ClearAt probe l respond files)
        (Knowing files rest l fun _ _ => True)
        (p.withScratch (assembledSource c probe.file (some text))).run
        (p.withScratch (assembledSource c probe.file (some text))).run (Again files rest l) := by
      refine h.twins_withScratch (fun _ _ _ _ _ _ _ => trivial) fun dir => ?_
      exact (h.twins_assembledSource c probe.file text).mono
        (fun _ _ hs => ⟨hs.1, hs.2.2⟩) fun _ _ _ hs => hs
    exact hwork.mono (fun _ _ hs => ⟨hs, trivial⟩) fun _ _ _ hs => hs

/-- A container that does not lead through the location is decompiled alike. -/
theorem twins_containerSource (c : ClassName) {container : Path} {info : FileInfo} :
    Twins respond (p.ClearAt probe l respond files)
      (Knowing files rest l fun t _ => ¬ t.Through l container)
      (p.containerSource c container info).run (p.containerSource c container info).run
      (Again files rest l) := by
  have hwork : Twins respond (p.ClearAt probe l respond files)
      (Knowing files rest l fun t u =>
        t.find container = u.find container ∧ ¬ t.Through l container)
      (p.withScratch (javaOf c container)).run (p.withScratch (javaOf c container)).run
      (Again files rest l) := by
    refine h.twins_withScratch (fun t u t' u' hsame hapart hknown => ?_) fun dir => ?_
    · have hcontainer : ¬ t'.Through l container := fun hthrough =>
        hknown.2 (hsame.through_iff.mp hthrough)
      exact ⟨hapart.find hcontainer, hcontainer⟩
    · exact (h.twins_javaOf c).mono (fun _ _ hs => ⟨hs.1, hs.2.1.1, hs.2.2⟩) fun _ _ _ hs => hs
  have horigin : Twins respond (p.ClearAt probe l respond files) (Beside files rest l)
      (ExceptT.mk (pure (Origin.ofInfo p.calendar container info)) : StagePlan Origin).run
      (ExceptT.mk (pure (Origin.ofInfo p.calendar container info)) : StagePlan Origin).run
      (Again files rest l) := by
    refine Twins.done fun s s' hs => ?_
    cases Origin.ofInfo p.calendar container info <;> exact hs
  unfold containerSource
  refine twins_bind (hwork.mono (fun s s' hs => ?_) fun _ _ _ hs => hs) fun text =>
    twins_bind horigin fun origin => twins_pure fun _ _ hs => hs
  exact ⟨hs.1, hs.1.apart.find hs.2, hs.2⟩

/-- The second stage runs alike, for the containers are no units. -/
theorem twins_enclosing :
    Twins respond (p.ClearAt probe l respond files) (Beside files rest l) (p.enclosing probe)
      (p.enclosing probe) fun _ => Beside files rest l := by
  unfold enclosing
  split
  · exact Twins.done fun _ _ hs => hs
  · next c _ =>
    refine h.twins_decompilerReady.bind fun ready => ?_
    split
    swap
    · exact Twins.done fun _ _ hs => hs
    refine Twins.look_bind fun s s' hs hclear hclear' => ?_
    replace hclear := hclear.look rfl
    replace hclear' := hclear'.look rfl
    rw [(h.look s).1, (h.look s').1]
    have hcontainers := hclear.containers hclear' hs.apart
    have hfind : ∀ q ∈ p.layout.containers (files s) probe,
        ((files s).find q).toOption = ((files s').find q).toOption := fun q hq =>
      hs.apart.find_toOption (hclear.locate_container hq)
    -- Both trees have the same candidates, and each of them is the same file in both.
    have hsearched : upTo (files s).isFile (p.layout.containers (files s) probe) =
        upTo (files s').isFile (p.layout.containers (files s') probe) := by
      rw [← hcontainers]
      exact upTo_congr fun q hq => isFile_congr hs.apart.now (hfind q hq)
    have hfound : (p.layout.containers (files s) probe).findSome?
          (fun q => ((files s).fileInfo? q).map (q, ·)) =
        (p.layout.containers (files s') probe).findSome?
          fun q => ((files s').fileInfo? q).map (q, ·) := by
      rw [← hcontainers]
      exact findSome?_congr fun q hq => by rw [fileInfo?_congr hs.apart.now (hfind q hq)]
    dsimp only
    rw [← hsearched, ← hfound]
    split
    · exact Twins.done fun r r' hr => h.beside_of_seen hs hr
    · next container info hsome =>
      obtain ⟨q, hq, hinfo⟩ := List.exists_of_findSome?_eq_some hsome
      obtain ⟨info', hfile, heq⟩ := Option.map_eq_some_iff.mp hinfo
      obtain ⟨rfl, rfl⟩ := Prod.mk.inj heq
      -- The container that is found is a file, so that the way to it ends there.
      have hthrough : ¬ (files s).Through l q := by
        refine not_through_of_isFile ?_ hs.apart.left (hclear.locate_container hq)
        rw [isFile, hfile]
        rfl
      refine Twins.bind ((h.twins_containerSource c).mono (fun r r' hr => ?_)
        fun _ _ _ hs => Again.beside hs) fun result => Twins.done fun _ _ hs => hs
      refine ⟨h.beside_of_seen hs hr, ?_⟩
      rw [hr.1, (h.look s).2]
      exact hthrough

/-- The third stage runs alike, for the candidates are no units. -/
theorem twins_existing :
    Twins respond (p.ClearAt probe l respond files) (Beside files rest l) (p.existing probe)
      (p.existing probe) fun _ => Beside files rest l := by
  unfold existing
  split
  · exact Twins.done fun _ _ hs => hs
  · next c _ =>
    refine Twins.look_bind fun s s' hs hclear _ => ?_
    rw [(h.look s).1, (h.look s').1]
    have hfind : ∀ q ∈ p.layout.sources probe,
        ((files s).find q).toOption = ((files s').find q).toOption := fun q hq =>
      hs.apart.find_toOption ((hclear.look rfl).locate_source hq)
    have hreadable : ∀ q ∈ p.layout.sources probe,
        isReadable (files s) q = isReadable (files s') q := fun q hq =>
      isReadable_congr hs.apart.now (hfind q hq)
    dsimp only
    rw [List.find?_congr hreadable, upTo_congr hreadable]
    split
    · next q hq =>
      -- What is found can be read, hence it is the same file in both trees.
      have hfile : (files s').isFile q = true :=
        (Bool.and_eq_true _ _ ▸ List.find?_some hq : _ ∧ _).1
      have hsame := find_congr_of_isFile (hfind q (List.mem_of_find?_eq_some hq)) hfile
      rw [sourceAt_congr p.calendar hs.apart.now hsame]
      exact Twins.done fun r r' hr => h.beside_of_seen hs hr
    · exact Twins.done fun r r' hr => h.beside_of_seen hs hr

/-! ## The conversion -/

/-- With editor text every stage runs alike. -/
theorem twins_tryStage (text : String) (stage : Stage) :
    Twins respond (p.ClearAt probe l respond files) (Beside files rest l)
      (p.tryStage probe (some text) stage) (p.tryStage probe (some text) stage)
      fun _ => Beside files rest l := by
  cases stage with
  | realtime =>
    exact Twins.bind ((h.twins_realtime text).mono (fun _ _ hs => hs)
      fun _ _ _ hs => Again.beside hs) fun _ => Twins.done fun _ _ hs => hs
  | container => exact h.twins_enclosing
  | existing => exact h.twins_existing

/-- Induction on the stages that are left. -/
theorem twins_tryStages (text : String) (stages : List Stage) (tried : Pipeline.Progress) :
    Twins respond (p.ClearAt probe l respond files) (Beside files rest l)
      (p.tryStages probe (some text) stages tried) (p.tryStages probe (some text) stages tried)
      fun _ => Beside files rest l := by
  induction stages generalizing tried with
  | nil =>
    refine h.twins_isCancelled.bind fun fired => ?_
    split <;> exact Twins.done fun _ _ hs => hs
  | cons stage stages ih =>
    refine h.twins_isCancelled.bind fun fired => ?_
    split
    · exact Twins.done fun _ _ hs => hs
    refine Twins.bind (h.twins_tryStage text stage) fun report => ?_
    split
    · exact Twins.done fun _ _ hs => hs
    · refine h.twins_isCancelled.bind fun fired => ?_
      split <;> exact Twins.done fun _ _ hs => hs
    · refine h.twins_isCancelled.bind fun fired => ?_
      split
      · exact Twins.done fun _ _ hs => hs
      split
      · exact Twins.done fun _ _ hs => hs
      · exact ih _

end

/-- Both conversions come to the same, and leave the files apart as they were. -/
theorem resolve (h : Indifferent respond files rest l) {file : Path} {text : String}
    (hs : Beside files rest l s s') (hclear : p.StaysClear file text l respond files s)
    (hclear' : p.StaysClear file text l respond files s') :
    ActsAlike files rest l ((p.resolve file (some text)).run respond) s s' :=
  h.twins_tryStages text Stage.all {} s s' hs hclear hclear'

end Indifferent

end SmaliView
