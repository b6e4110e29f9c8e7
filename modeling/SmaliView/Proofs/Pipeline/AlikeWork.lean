import SmaliView.Proofs.Pipeline.Indifference
import SmaliView.Tools.Mock

/-!
# Tools that act alike

The work of a tool is put together from few operations: it looks at the files, changes them, and
checks the token. `Work.Alike` is for work what `Plan.Twins` is for plans, with one rule for each
operation. By these rules the mock assembler depends on its unit alone, in whatever mode it is.
-/

namespace SmaliView

open FileTree
open StagePlan (Leaves)
open Indifferent (Knowing)

variable {α β : Type}

namespace Work

/-! ## Carrying out work -/

/-- Work goes on from the scene that was left, and a failure ends it there. -/
theorem run_bind (x : Work α) (f : α → Work β) (s : Scene) :
    (x >>= f).run.run s =
      match x.run.run s with
      | (.ok a, s') => (f a).run.run s'
      | (.error e, s') => (.error e, s') := by
  show (x.run >>= ExceptT.bindCont f).run s = _
  rw [StateT.run_bind]
  rcases x.run.run s with ⟨_ | _, s'⟩ <;> rfl

/-- A change that is refused leaves the scene as it was. -/
theorem run_change (f : FileTree → Except SystemError FileTree) (s : Scene) :
    (change f).run.run s =
      match f s.tree with
      | .ok tree => (.ok (), { s with tree })
      | .error e => (.error (.system e), s) := by
  show ((match f s.tree with
    | .ok tree => modify fun scene => { scene with tree }
    | .error e => throw (.system e) : Work Unit).run.run s) = _
  cases f s.tree <;> rfl

/-- Looking changes nothing, whether it is refused or not. -/
theorem run_look (f : FileTree → Except SystemError α) (s : Scene) :
    (look f).run.run s =
      match f s.tree with
      | .ok a => (.ok a, s)
      | .error e => (.error (.system e), s) := by
  show ((match f s.tree with
    | .ok a => return a
    | .error e => throw (.system e) : Work α).run.run s) = _
  cases f s.tree <;> rfl

/-- A check ends the work if the token has fired. -/
theorem run_checkToken (s : Scene) :
    checkToken.run.run s = (if s.token.fired then .error (.error .cancelled) else .ok (), s) := by
  show ((if s.token.fired then fail .cancelled else pure () : Work Unit).run.run s) = _
  cases s.token.fired <;> rfl

/-- The tree is taken over even if not all directories can be made. -/
theorem run_makeDirectories (p : Path) (s : Scene) :
    (makeDirectories p).run.run s =
      match s.tree.makeAll p.ancestors with
      | (tree, .ok ()) => (.ok (), { s with tree })
      | (tree, .error e) => (.error (.system e), { s with tree }) := by
  have hget : (get : Work Scene).run.run s = (.ok s, s) := rfl
  rw [makeDirectories, run_bind, hget]
  dsimp only
  rw [run_bind]
  rcases s.tree.makeAll p.ancestors with ⟨tree, _ | _⟩ <;> rfl

/-! ## Work on two scenes -/

/-- Work that comes to the same on two scenes of which `known` is known. If it comes to an answer,
`after` is known of the files that it leaves. -/
def Alike (l : Location) (known : FileTree → FileTree → Prop) (x : Work α)
    (after : α → FileTree → FileTree → Prop) : Prop :=
  ∀ s s', Knowing Scene.tree Scene.token l known s s' →
    (x.run.run s).1 = (x.run.run s').1 ∧
      Leaves (fun a => Knowing Scene.tree Scene.token l (after a))
        (SmaliView.Beside Scene.tree Scene.token l) (x.run.run s).1 (x.run.run s).2
        (x.run.run s').2

variable {l : Location} {known : FileTree → FileTree → Prop}

/-- An answer without work is the same on both scenes. -/
theorem alike_pure {a : α} {after : α → FileTree → FileTree → Prop}
    (h : ∀ t u, known t u → after a t u) : Alike l known (pure a) after :=
  fun _ _ hs => ⟨rfl, hs.1, h _ _ hs.2⟩

/-- So is a failure, after which nothing more is known of the files. -/
theorem alike_throw (e : Failure) (after : α → FileTree → FileTree → Prop) :
    Alike l known (throw e) after :=
  fun _ _ hs => ⟨rfl, hs.1⟩

/-- Work that goes on alike from every answer that both scenes can come to. -/
theorem Alike.bind {x : Work α} {f : α → Work β} {mid : α → FileTree → FileTree → Prop}
    {after : β → FileTree → FileTree → Prop} (hx : Alike l known x mid)
    (hf : ∀ a, Alike l (mid a) (f a) after) : Alike l known (x >>= f) after := by
  intro s s' hs
  obtain ⟨heq, hmid⟩ := hx s s' hs
  rw [run_bind, run_bind]
  generalize x.run.run s = y, x.run.run s' = y' at heq hmid
  obtain ⟨reply, s₁⟩ := y
  obtain ⟨reply', s₁'⟩ := y'
  obtain rfl : reply = reply' := heq
  -- A failure leaves the scenes beside each other, and nothing more is known of them.
  cases reply with
  | ok a => exact hf a s₁ s₁' hmid
  | error e => exact ⟨rfl, hmid⟩

/-- A change that is made in both trees or in neither. -/
theorem alike_change {f : FileTree → Except SystemError FileTree}
    {after : FileTree → FileTree → Prop}
    (hf : ∀ t u, Apart l t u → known t u →
      Agree (fun t' u' => Apart l t' u' ∧ after t' u') (f t) (f u)) :
    Alike l known (change f) fun _ => after := by
  intro s s' ⟨hs, hknown⟩
  have hmade := hf s.tree s'.tree hs.apart hknown
  rw [run_change, run_change]
  generalize f s.tree = x, f s'.tree = y at hmade
  cases hmade with
  | ok h => exact ⟨rfl, ⟨hs.rest, h.1⟩, h.2⟩
  | error e => exact ⟨rfl, hs⟩

/-- A look at what is the same in both trees. -/
theorem alike_look {f : FileTree → Except SystemError α}
    (hf : ∀ t u, Apart l t u → known t u → f t = f u) :
    Alike l known (look f) fun _ => known := by
  intro s s' ⟨hs, hknown⟩
  rw [run_look, run_look, ← hf s.tree s'.tree hs.apart hknown]
  cases f s.tree with
  | ok a => exact ⟨rfl, hs, hknown⟩
  | error e => exact ⟨rfl, hs⟩

/-- The token is the same on both scenes, so a check goes on in both or in none. -/
theorem alike_checkToken : Alike l known checkToken fun _ => known := by
  intro s s' ⟨hs, hknown⟩
  have htoken : s.token = s'.token := hs.rest
  rw [run_checkToken, run_checkToken, ← htoken]
  cases s.token.fired with
  | true => exact ⟨rfl, hs⟩
  | false => exact ⟨rfl, hs, hknown⟩

/-- Time that passes is only seen by the token. -/
theorem run_pass (ms : Nat) (s : Scene) :
    (pass ms).run.run s = (.ok (), { s with token := s.token.later ms }) := rfl

/-- Time passes alike on both scenes. -/
theorem alike_pass (ms : Nat) : Alike l known (pass ms) fun _ => known :=
  fun _ _ ⟨hs, hknown⟩ => ⟨rfl, ⟨congrArg (Token.later · ms) hs.rest, hs.apart⟩, hknown⟩

/-- Work that is alike acts alike. -/
theorem Alike.actsAlike {x : Work α} {after : α → FileTree → FileTree → Prop}
    (hx : Alike l known x after) {s s' : Scene} (hs : SmaliView.Beside Scene.tree Scene.token l s s')
    (hknown : known s.tree s'.tree) : ActsAlike Scene.tree Scene.token l x.run.run s s' := by
  obtain ⟨heq, hleaves⟩ := hx s s' ⟨hs, hknown⟩
  refine ⟨heq, ?_⟩
  cases hreply : (x.run.run s).1 with
  | ok a =>
    rw [hreply] at hleaves
    exact hleaves.1
  | error e =>
    rw [hreply] at hleaves
    exact hleaves

end Work

/-! ## The mock assembler -/

/-- Whether work pays attention to its token or not, it waits alike on both scenes. -/
theorem Pace.alike_sleep (pace : Pace) {l : Location} {known : FileTree → FileTree → Prop} :
    Work.Alike l known pace.sleep fun _ => known := by
  refine Work.alike_checkToken.bind fun _ => (Work.alike_pass _).bind fun _ => ?_
  cases pace.attentive with
  | true => exact Work.alike_checkToken
  | false => exact Work.alike_pure fun _ _ h => h

/-- In every mode the mock starts alike, and leaves what is known of the files. -/
theorem MockMode.alike_start (mode : MockMode) (label : ToolLabel) (pace : Pace) {l : Location}
    {known : FileTree → FileTree → Prop} :
    Work.Alike l known (mode.start label pace) fun _ => known := by
  cases mode with
  | working => exact pace.alike_sleep.bind fun _ => Work.alike_pure fun _ _ h => h
  | missing => exact Work.alike_throw _ _
  | failing diagnostics => exact pace.alike_sleep.bind fun _ => Work.alike_pure fun _ _ h => h
  | panicking message => exact Work.alike_throw _ _

/-- The mock assembler depends on its unit alone. -/
theorem Mock.assemblesAlike (mode : MockMode) {pace : Pace} (l : Location) (r : AssembleRequest) :
    AssemblesAlike Scene.tree Scene.token l r ((assembler mode pace).assemble r).run.run := by
  intro s s' hs hunit hout
  -- What is known is that the unit is the same in both trees, and from the copy on that the
  -- container is.
  let known (t u : FileTree) : Prop := SameWays s.tree t ∧ t.find r.unit = u.find r.unit
  let after (answer : AssembleAnswer) (t u : FileTree) : Prop := SameWays s.tree t ∧
    ∀ container, answer.container = some container → t.find container = u.find container
  have hwork : Work.Alike l known ((assembler mode pace).assemble r) after := by
    refine (mode.alike_start _ pace).bind fun diagnostics => ?_
    cases diagnostics with
    | some diagnostics => exact Work.alike_pure fun t u h => ⟨h.1, nofun⟩
    | none =>
      have hcopied : Work.Alike l known (Work.change (·.copy r.unit r.output)) fun _ t u =>
          SameWays s.tree t ∧ t.find r.output = u.find r.output := by
        refine Work.alike_change fun t u hapart ⟨hways, hsame⟩ => ?_
        have hnot {t' : FileTree} (h : SameWays s.tree t') : ¬ t'.Through l r.output := fun h' =>
          hout.not_through (h.through_iff.mp h')
        refine (hapart.copy hsame (hnot hways)).mono fun t' u' ⟨hapart', hways'⟩ => ?_
        exact ⟨hapart', hways.trans hways', hapart'.find (hnot (hways.trans hways'))⟩
      refine hcopied.bind fun _ => (Work.alike_pass _).bind fun _ => Work.alike_checkToken.bind
        fun _ => Work.alike_pure ?_
      rintro t u ⟨hways, hsame⟩
      exact ⟨hways, fun container hcontainer => Option.some.inj hcontainer ▸ hsame⟩
  refine ⟨hwork.actsAlike hs ⟨.refl _, hunit⟩, fun answer hanswer => ?_⟩
  have hleaves := (hwork s s' ⟨hs, .refl _, hunit⟩).2
  rw [show (((assembler mode pace).assemble r).run.run s).1 = .ok answer from hanswer] at hleaves
  obtain ⟨-, hways, hsame⟩ := hleaves
  exact ⟨fun p hthrough => hways.through_iff.mp hthrough, hsame⟩

end SmaliView
