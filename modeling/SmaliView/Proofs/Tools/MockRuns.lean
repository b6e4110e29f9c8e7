import SmaliView.Proofs.Pipeline.Extraction

/-!
# What mock tools do

As long as the token has not fired, the mock tools do their work if the files allow it. The
assembler leaves a copy of the unit. The decompiler stores the Java source of its fixed outputs and
then that of the class in the container, unless an output shares its top-level class (`Mock.rest`).
-/

namespace SmaliView

open Text (Bytes)

variable {α β : Type} {s s' : Scene} {u v w : FileTree}

theorem Token.later_zero (token : Token) : token.later 0 = token := by
  obtain ⟨_ | due⟩ := token <;> rfl

namespace Work

/-- Work goes on from the answer of its first part. -/
theorem run_bind_ok {x : Work α} {a : α} (hx : x.run.run s = (.ok a, s')) (f : α → Work β) :
    (x >>= f).run.run s = (f a).run.run s' := by
  rw [run_bind, hx]

/-- A change that is not refused is made. -/
theorem run_change_ok {f : FileTree → Except SystemError FileTree} (hf : f s.tree = .ok u) :
    (change f).run.run s = (.ok (), { s with tree := u }) := by
  rw [run_change, hf]

/-- A look that is not refused is answered. -/
theorem run_look_ok {f : FileTree → Except SystemError α} {a : α} (hf : f s.tree = .ok a) :
    (look f).run.run s = (.ok a, s) := by
  rw [run_look, hf]

/-- Nothing happens in no time. -/
theorem run_pass_zero_bind (f : Unit → Work α) :
    (pass 0 >>= f).run.run s = (f ()).run.run s := by
  refine run_bind_ok ?_ f
  rw [run_pass, Token.later_zero]

variable (hfresh : s.token.fired = false)
include hfresh

/-- With a fresh token work goes on after a check. -/
theorem run_checkToken_of_fresh : checkToken.run.run s = (.ok (), s) := by
  rw [run_checkToken, hfresh]
  rfl

/-- Work that is done ends with its answer. -/
theorem run_finish (a : α) :
    (pass 0 >>= fun _ => checkToken >>= fun _ => (pure a : Work α)).run.run s = (.ok a, s) := by
  rw [run_pass_zero_bind, run_bind_ok (run_checkToken_of_fresh hfresh)]
  rfl

end Work

/-- A working mock starts without a diagnosis. -/
theorem MockMode.run_start (label : ToolLabel) (hfresh : s.token.fired = false) :
    (MockMode.working.start label {}).run.run s = (.ok none, s) := by
  have hcheck := Work.run_checkToken_of_fresh hfresh
  have hsleep : (Pace.sleep {}).run.run s = (.ok (), s) := by
    unfold Pace.sleep
    rw [Work.run_bind_ok hcheck, Work.run_pass_zero_bind]
    exact hcheck
  exact Work.run_bind_ok hsleep _

namespace Mock

variable {c : ClassName} {outputs : List (ClassName × String)} {root : Path} {content : Bytes}

/-- The mock assembler copies the unit. -/
theorem run_assemble {r : AssembleRequest} (hfresh : s.token.fired = false)
    (hcopy : s.tree.copy r.unit r.output = .ok u) :
    ((assembler .working).assemble r).run.run s =
      (.ok { status := .success, container := some r.output }, { s with tree := u }) := by
  have hleft : ({ s with tree := u } : Scene).token.fired = false := hfresh
  unfold assembler
  dsimp only
  rw [Work.run_bind_ok (MockMode.run_start _ hfresh)]
  dsimp only
  rw [Work.run_bind_ok (Work.run_change_ok hcopy)]
  exact Work.run_finish hleft _

def files (outputs : List (ClassName × String)) : List (Path × Bytes) :=
  javaFiles (outputs.map fun o => (o.1, Text.bytes o.2))

/-- What the mock decompiler writes after its fixed outputs. -/
def rest (outputs : List (ClassName × String)) (content : Bytes) (filter : Option ClassName) :
    List (ClassName × String) :=
  match classIn content filter with
  | some c => if outputs.any fun (d, _) => d.topLevel == c.topLevel then [] else [(c, c.stub)]
  | none => []

/-- All that the mock decompiler writes. -/
def written (outputs : List (ClassName × String)) (content : Bytes) (filter : Option ClassName) :
    List (ClassName × String) :=
  outputs ++ rest outputs content filter

theorem files_singleton (c : ClassName) (text : String) :
    files [(c, text)] = [(c.javaPath, Text.bytes text)] := rfl

theorem files_append (outputs outputs' : List (ClassName × String)) :
    files (outputs ++ outputs') = files outputs ++ files outputs' := by
  simp [files, javaFiles]

/-- The files that are written are those of the outputs. -/
theorem mem_files {file : Path × Bytes} :
    file ∈ files outputs ↔ ∃ o ∈ outputs, (o.1.javaPath, Text.bytes o.2) = file := by
  simp [files, javaFiles]

/-- A file that can be stored is written. -/
theorem run_writeSource {text : String}
    (hstore : s.tree.store root (c.javaPath, Text.bytes text) = .ok u) :
    (writeSource root c text).run.run s = (.ok (), { s with tree := u }) := by
  unfold FileTree.store at hstore
  dsimp only at hstore
  unfold writeSource
  cases hparent : (root.join c.javaPath).parent? with
  | none =>
    rw [hparent] at hstore
    dsimp only [bind, Except.bind] at hstore
    simp only [hparent]
    exact Work.run_change_ok (f := (·.write (root.join c.javaPath) (Text.bytes text))) hstore
  | some parent =>
    rw [hparent] at hstore
    dsimp only [bind, Except.bind] at hstore
    rw [FileTree.makeDirectories] at hstore
    simp only [hparent]
    rw [Work.run_bind, Work.run_makeDirectories]
    -- The directories are made in the same way, with a failure kept apart from the tree.
    generalize s.tree.makeAll parent.ancestors = made at hstore
    obtain ⟨v, _ | _⟩ := made
    · cases hstore
    · exact Work.run_change_ok (f := (·.write (root.join c.javaPath) (Text.bytes text))) hstore

/-- So are files that can be stored one after the other. -/
theorem run_forM (hstore : (files outputs).foldlM (FileTree.store root) s.tree = .ok u) :
    (outputs.forM fun (c, text) => writeSource root c text).run.run s =
      (.ok (), { s with tree := u }) := by
  induction outputs generalizing s with
  | nil =>
    cases hstore
    rfl
  | cons o outputs ih =>
    have hcons : files (o :: outputs) = (o.1.javaPath, Text.bytes o.2) :: files outputs := rfl
    rw [hcons, List.foldlM_cons] at hstore
    cases hfirst : s.tree.store root (o.1.javaPath, Text.bytes o.2) with
    | error e =>
      rw [hfirst] at hstore
      cases hstore
    | ok v =>
      rw [hfirst] at hstore
      -- The loop is its first turn and then the rest.
      change (writeSource root o.1 o.2 >>= fun _ => outputs.forM _).run.run s = _
      rw [Work.run_bind_ok (run_writeSource hfirst)]
      exact ih hstore

/-- The mock decompiler stores its outputs, and then the class of the container. -/
theorem run_decompile {r : DecompileRequest} (hfresh : s.token.fired = false)
    (hroot : s.tree.makeAll (r.output / "sources").ancestors = (u, .ok ()))
    (houtputs : (files outputs).foldlM (FileTree.store (r.output / "sources")) u = .ok v)
    (hread : v.read r.container = .ok content)
    (hrest : (files (rest outputs content r.filter)).foldlM
      (FileTree.store (r.output / "sources")) v = .ok w) :
    ((decompiler .working outputs).decompile r).run.run s =
      (.ok { status := .success, tree := some (r.output / "sources") }, { s with tree := w }) := by
  have hmade : (Work.makeDirectories (r.output / "sources")).run.run s =
      (.ok (), { s with tree := u }) := by
    rw [Work.run_makeDirectories, hroot]
  have hleft : ({ s with tree := w } : Scene).token.fired = false := hfresh
  unfold decompiler
  dsimp only
  rw [Work.run_bind_ok (MockMode.run_start _ hfresh)]
  dsimp only
  rw [Work.run_bind_ok hmade, Work.run_bind_ok (run_forM houtputs),
    Work.run_bind_ok (Work.run_look_ok hread)]
  -- What is left to write depends on the class of the container and on the outputs.
  unfold rest at hrest
  cases hclass : classIn content r.filter with
  | none =>
    rw [hclass] at hrest
    cases hrest
    exact Work.run_finish hleft _
  | some c =>
    rw [hclass] at hrest
    dsimp only at hrest ⊢
    split at hrest
    · next hshared =>
      cases hrest
      rw [if_pos hshared]
      exact Work.run_finish hleft _
    · next hshared =>
      rw [files_singleton, List.foldlM_cons, bind_congr fun _ => List.foldlM_nil,
        bind_pure] at hrest
      rw [if_neg hshared, Work.run_bind_ok (run_writeSource (s := { s with tree := v }) hrest)]
      exact Work.run_finish hleft _

end Mock

end SmaliView
