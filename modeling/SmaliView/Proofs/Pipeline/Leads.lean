import SmaliView.Proofs.Pipeline.Moments

/-!
# Where plans lead

`Leads` is a triple about the states that a plan goes through: begun in a state as `pre` says, the
plan comes to right moments only, and to an answer and a state as `post` says. Where `Ensures`
assumes that the moments are right, `Leads` proves it.
-/

namespace SmaliView

variable {α β σ : Type}

namespace Plan

variable (respond : Respondent σ) (right : Moment σ → Prop)

/-- From a state that satisfies `pre` a plan goes through right moments only, and ends with an
answer and in a state that satisfy `post`. -/
def Leads (pre : σ → Prop) (p : Plan α) (post : α → σ → Prop) : Prop :=
  ∀ s, pre s → (∀ m ∈ p.moments respond s, right m) ∧
    post (p.run respond s).1 (p.run respond s).2

variable {respond right} {pre pre' : σ → Prop}

/-- What holds before a plan that asks nothing holds after it. -/
theorem Leads.done {a : α} {post : α → σ → Prop} (h : ∀ s, pre s → post a s) :
    Leads respond right pre (.done a) post :=
  fun s hs => ⟨nofun, h s hs⟩

/-- One question leads from its state to the next one. -/
theorem Leads.question {q : Question} {post : q.Answer → σ → Prop}
    (h : ∀ s, pre s → right ⟨s, q⟩ ∧ post (respond q s).1 (respond q s).2) :
    Leads respond right pre (Plan.question q) post := by
  intro s hs
  refine ⟨fun m hm => ?_, (h s hs).2⟩
  obtain rfl := List.mem_singleton.mp hm
  exact (h s hs).1

/-- A plan leads on from where its first part has led. -/
theorem Leads.bind {p : Plan α} {f : α → Plan β} {mid : α → σ → Prop} {post : β → σ → Prop}
    (hp : Leads respond right pre p mid) (hf : ∀ a, Leads respond right (mid a) (f a) post) :
    Leads respond right pre (p >>= f) post := by
  intro s hs
  obtain ⟨hfirst, hmid⟩ := hp s hs
  -- The second part begins where the first one has led to.
  obtain ⟨hrest, hpost⟩ := hf _ _ hmid
  rw [moments_bind, run_bind]
  refine ⟨fun m hm => ?_, hpost⟩
  rcases List.mem_append.mp hm with hm | hm
  · exact hfirst m hm
  · exact hrest m hm

/-- What a plan leads to may be said more weakly, and what it starts from more strongly. -/
theorem Leads.mono {right' : Moment σ → Prop} {p : Plan α} {post post' : α → σ → Prop}
    (h : Leads respond right pre p post) (hpre : ∀ s, pre' s → pre s)
    (hright : ∀ m, right m → right' m) (hpost : ∀ a s, post a s → post' a s) :
    Leads respond right' pre' p post' := by
  intro s hs
  obtain ⟨hms, hend⟩ := h s (hpre s hs)
  exact ⟨fun m hm => hright m (hms m hm), hpost _ _ hend⟩

/-- A plan goes on from the files that it has looked at. -/
theorem Leads.look_bind {f : FileTree → Plan α} {post : α → σ → Prop}
    (h : ∀ s, pre s → right ⟨s, .look⟩ ∧
      Leads respond right (· = (respond .look s).2) (f (respond .look s).1) post) :
    Leads respond right pre (look >>= f) post := by
  intro s hs
  obtain ⟨hlook, hf⟩ := h s hs
  obtain ⟨hrest, hpost⟩ := hf _ rfl
  refine ⟨fun m hm => ?_, hpost⟩
  rcases List.mem_cons.mp hm with rfl | hm
  · exact hlook
  · exact hrest m hm

end Plan

/-! ## Plans that can fail -/

namespace StagePlan

open Plan (Leads)

variable {respond : Plan.Respondent σ} {right : Moment σ → Prop} {pre : σ → Prop}

/-- What is said of the state after an answer, and after a failure. -/
def Lands (good : α → σ → Prop) (bad : σ → Prop) : Reply α → σ → Prop
  | .ok a => good a
  | .error _ => bad

variable {good : α → σ → Prop} {bad : σ → Prop}

/-- What is said after an answer and after a failure alike. -/
theorem Lands.alike {r : Reply α} {s : σ} (h : Lands (fun _ => bad) bad r s) : bad s := by
  cases r with
  | ok _ => exact h
  | error _ => exact h

/-- What is said after any reply. -/
theorem leads_reply {x : Plan (Reply α)} {mid : σ → Prop}
    (hx : Leads respond right pre x fun _ => mid) (hbad : ∀ s, mid s → bad s) :
    Leads respond right pre x (Lands (fun _ => mid) bad) := by
  refine hx.mono (fun _ hs => hs) (fun _ hm => hm) fun r s hs => ?_
  cases r with
  | ok _ => exact hs
  | error _ => exact hbad s hs

/-- A plan that can fail leads on from an answer, and a failure is where it ends. -/
theorem leads_bind {x : StagePlan α} {f : α → StagePlan β} {mid : α → σ → Prop}
    {good : β → σ → Prop} (hx : Leads respond right pre x.run (Lands mid bad))
    (hf : ∀ a, Leads respond right (mid a) (f a).run (Lands good bad)) :
    Leads respond right pre (x >>= f).run (Lands good bad) := by
  refine Leads.bind hx fun r => ?_
  cases r with
  | ok a => exact hf a
  -- A failure is handed on with the state it has led to.
  | error e => exact Leads.done fun _ h => h

theorem leads_lift {p : Plan α} (h : Leads respond right pre p good) :
    Leads respond right pre (liftM p : StagePlan α).run (Lands good bad) :=
  Leads.bind h fun _ => Leads.done fun _ h => h

theorem leads_pure {a : α} (h : ∀ s, pre s → good a s) :
    Leads respond right pre (pure a : StagePlan α).run (Lands good bad) :=
  Leads.done h

theorem leads_fail (e : StageError) (h : ∀ s, pre s → bad s) :
    Leads respond right pre (StagePlan.fail e : StagePlan α).run (Lands good bad) :=
  Leads.done h

/-- A check of the token ends the plan, or lets it go on. -/
theorem leads_checkToken_bind {f : Unit → StagePlan α} {mid : σ → Prop}
    (hcheck : Leads respond right pre Plan.isCancelled fun _ => mid)
    (hbad : ∀ s, mid s → bad s) (hf : Leads respond right mid (f ()).run (Lands good bad)) :
    Leads respond right pre (checkToken >>= f).run (Lands good bad) := by
  rw [run_checkToken_bind]
  refine hcheck.bind fun fired => ?_
  split
  · exact Leads.done hbad
  · exact hf

/-- A tool that is missing is a failure. -/
theorem leads_need {ready : Plan Bool} {tool : ToolLabel} {mid : σ → Prop}
    (hready : Leads respond right pre ready fun _ => mid) (hbad : ∀ s, mid s → bad s) :
    Leads respond right pre (need ready tool).run (Lands (fun _ => mid) bad) := by
  unfold need
  refine leads_bind (leads_lift hready) fun b => ?_
  cases b with
  | true => exact leads_pure fun _ hs => hs
  | false => exact leads_fail _ hbad

end StagePlan

end SmaliView
