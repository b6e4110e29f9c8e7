import SmaliView.Proofs.Pipeline.Moments

/-!
# Two runs of a plan

`Twins` compares what two plans come to from two states: from states that are related as `pre` says
they give the same answer, and leave states that are related as `post` says. Often the plans are one
and the same; they differ where a plan goes on from the files that it has looked at. As `Ensures`
does, the triple assumes that all moments of both runs are right.
-/

namespace SmaliView

variable {α β σ : Type}

open Plan (Respondent)

namespace Plan

variable (respond : Respondent σ) (right : Moment σ → Prop)

/-- If all their moments are right, two plans give the same answer from states that are related by
`pre`, and leave states that `post` relates. -/
def Twins (pre : σ → σ → Prop) (p p' : Plan α) (post : α → σ → σ → Prop) : Prop :=
  ∀ s s', pre s s' → (∀ m ∈ p.moments respond s, right m) →
    (∀ m ∈ p'.moments respond s', right m) →
      (p.run respond s).1 = (p'.run respond s').1 ∧
        post (p.run respond s).1 (p.run respond s).2 (p'.run respond s').2

variable {respond right} {pre pre' : σ → σ → Prop}

/-- Plans that ask nothing come to the same. -/
theorem Twins.done {a : α} {post : α → σ → σ → Prop} (h : ∀ s s', pre s s' → post a s s') :
    Twins respond right pre (.done a) (.done a) post :=
  fun s s' hpre _ _ => ⟨rfl, h s s' hpre⟩

/-- One question is answered alike in both runs. -/
theorem Twins.question {q : Question} {post : q.Answer → σ → σ → Prop}
    (h : ∀ s s', pre s s' → right ⟨s, q⟩ → right ⟨s', q⟩ → (respond q s).1 = (respond q s').1 ∧
      post (respond q s).1 (respond q s).2 (respond q s').2) :
    Twins respond right pre (Plan.question q) (Plan.question q) post :=
  fun s s' hpre hs hs' =>
    h s s' hpre (hs _ (List.mem_singleton_self _)) (hs' _ (List.mem_singleton_self _))

/-- Plans go on alike from answers that are the same. -/
theorem Twins.bind {p p' : Plan α} {f f' : α → Plan β} {mid : α → σ → σ → Prop}
    {post : β → σ → σ → Prop} (hp : Twins respond right pre p p' mid)
    (hf : ∀ a, Twins respond right (mid a) (f a) (f' a) post) :
    Twins respond right pre (p >>= f) (p' >>= f') post := by
  intro s s' hpre hs hs'
  rw [moments_bind] at hs hs'
  rw [run_bind, run_bind]
  obtain ⟨heq, hmid⟩ := hp s s' hpre (fun m hm => hs m (List.mem_append_left _ hm))
    fun m hm => hs' m (List.mem_append_left _ hm)
  -- Both first parts give the same answer, so that the plans go on alike.
  rw [← heq] at hs' ⊢
  exact hf _ _ _ hmid (fun m hm => hs m (List.mem_append_right _ hm))
    fun m hm => hs' m (List.mem_append_right _ hm)

/-- What two runs have in common may be said more weakly after them, and more strongly before. -/
theorem Twins.mono {p p' : Plan α} {post post' : α → σ → σ → Prop}
    (h : Twins respond right pre p p' post) (hpre : ∀ s s', pre' s s' → pre s s')
    (hpost : ∀ a s s', post a s s' → post' a s s') : Twins respond right pre' p p' post' := by
  intro s s' hs hm hm'
  obtain ⟨heq, h⟩ := h s s' (hpre s s' hs) hm hm'
  exact ⟨heq, hpost _ _ _ h⟩

/-- The two states that looking at the files leaves behind. -/
def Seen (respond : Respondent σ) (s s' r r' : σ) : Prop :=
  r = (respond .look s).2 ∧ r' = (respond .look s').2

/-- After looking at the files both plans go on from what they have seen. -/
theorem Twins.look_bind {f f' : FileTree → Plan α} {post : α → σ → σ → Prop}
    (h : ∀ s s', pre s s' → right ⟨s, .look⟩ → right ⟨s', .look⟩ →
      Twins respond right (Seen respond s s') (f (respond .look s).1) (f' (respond .look s').1)
        post) :
    Twins respond right pre (look >>= f) (look >>= f') post := by
  intro s s' hpre hs hs'
  have hright := hs ⟨s, .look⟩ (List.mem_cons_self ..)
  have hright' := hs' ⟨s', .look⟩ (List.mem_cons_self ..)
  exact h s s' hpre hright hright' _ _ ⟨rfl, rfl⟩ (fun m hm => hs m (List.mem_cons_of_mem _ hm))
    fun m hm => hs' m (List.mem_cons_of_mem _ hm)

/-- Different files are put in place in the two runs. -/
theorem Twins.change {t t' : FileTree} {post : Unit → σ → σ → Prop}
    (h : ∀ s s', pre s s' → post () (respond (.change t) s).2 (respond (.change t') s').2) :
    Twins respond right pre (change t) (change t') post :=
  fun s s' hpre _ _ => ⟨rfl, h s s' hpre⟩

end Plan

/-! ## Plans that can fail -/

namespace StagePlan

open Plan (Twins)

variable {respond : Respondent σ} {right : Moment σ → Prop} {pre : σ → σ → Prop}

/-- What relates the states after an answer, and after a failure. -/
def Leaves (good : α → σ → σ → Prop) (bad : σ → σ → Prop) : Reply α → σ → σ → Prop
  | .ok a => good a
  | .error _ => bad

variable {good : α → σ → σ → Prop} {bad : σ → σ → Prop}

/-- Plans that can fail go on alike from the same answer, and end alike with the same failure. -/
theorem twins_bind {x x' : StagePlan α} {f f' : α → StagePlan β} {mid : α → σ → σ → Prop}
    {good : β → σ → σ → Prop} (hx : Twins respond right pre x.run x'.run (Leaves mid bad))
    (hf : ∀ a, Twins respond right (mid a) (f a).run (f' a).run (Leaves good bad)) :
    Twins respond right pre (x >>= f).run (x' >>= f').run (Leaves good bad) := by
  refine Twins.bind hx fun r => ?_
  cases r with
  | ok a => exact hf a
  | error e => exact Twins.done fun _ _ h => h

theorem twins_lift {p p' : Plan α} (h : Twins respond right pre p p' good) :
    Twins respond right pre (liftM p : StagePlan α).run (liftM p' : StagePlan α).run
      (Leaves good bad) :=
  Twins.bind h fun _ => Twins.done fun _ _ h => h

theorem twins_pure {a : α} (h : ∀ s s', pre s s' → good a s s') :
    Twins respond right pre (pure a : StagePlan α).run (pure a : StagePlan α).run
      (Leaves good bad) :=
  Twins.done h

theorem twins_fail (e : StageError) (h : ∀ s s', pre s s' → bad s s') :
    Twins respond right pre (StagePlan.fail e : StagePlan α).run
      (StagePlan.fail e : StagePlan α).run (Leaves good bad) :=
  Twins.done h

/-- Plans that go on after a check of the token: both are given up, or none is. -/
theorem twins_checkToken_bind {f f' : Unit → StagePlan α} {mid : σ → σ → Prop}
    (hcheck : ∀ s s', pre s s' → (respond .isCancelled s).1 = (respond .isCancelled s').1 ∧
      mid (respond .isCancelled s).2 (respond .isCancelled s').2)
    (hbad : ∀ s s', mid s s' → bad s s')
    (hf : Twins respond right mid (f ()).run (f' ()).run (Leaves good bad)) :
    Twins respond right pre (checkToken >>= f).run (checkToken >>= f').run (Leaves good bad) := by
  rw [run_checkToken_bind, run_checkToken_bind]
  have hfired : Twins respond right pre Plan.isCancelled Plan.isCancelled fun _ => mid :=
    Twins.question fun s s' hs _ _ => hcheck s s' hs
  refine hfired.bind fun fired => ?_
  split
  · exact Twins.done hbad
  · exact hf

/-- A tool is missing in both runs, or in none. -/
theorem twins_need {ready : Plan Bool} {tool : ToolLabel} {mid : σ → σ → Prop}
    (hready : Twins respond right pre ready ready fun _ => mid)
    (hbad : ∀ s s', mid s s' → bad s s') :
    Twins respond right pre (need ready tool).run (need ready tool).run
      (Leaves (fun _ => mid) bad) := by
  unfold need
  refine twins_bind (twins_lift hready) fun b => ?_
  cases b with
  | true => exact twins_pure fun _ _ hs => hs
  | false => exact twins_fail _ hbad

end StagePlan

end SmaliView
