import SmaliView.Pipeline.Stages
import Mathlib.Data.List.Infix

/-!
# The moments of a plan

Carrying out a plan goes through *moments*: each is a question with the state in which it is asked,
and what the respondent does meanwhile shows in the state of the next one. What a plan comes to is
put together from its parts: `Ensures` is a triple whose precondition is about the moments.
-/

namespace SmaliView

variable {α β σ : Type}

/-- A question with the state it is asked in. -/
structure Moment (σ : Type) where
  state : σ
  question : Question

def Moment.answer (respond : Plan.Respondent σ) (m : Moment σ) : m.question.Answer :=
  (respond m.question m.state).1

namespace Plan

variable (respond : Respondent σ)

/-- The moments a plan goes through while it is carried out, in order. -/
def moments : Plan α → σ → List (Moment σ)
  | .done _, _ => []
  | .ask q next, s => ⟨s, q⟩ :: (next (respond q s).1).moments (respond q s).2

@[simp] theorem run_done (a : α) (s : σ) : (Plan.done a).run respond s = (a, s) := rfl

@[simp] theorem moments_done (a : α) (s : σ) : (Plan.done a).moments respond s = [] := rfl

/-- Whether a check of the token in a state is told that it has fired. -/
def told (s : σ) : Bool := (respond .isCancelled s).1

/-- The state that a check of the token leaves behind. -/
def checked (s : σ) : σ := (respond .isCancelled s).2

/-- A plan goes on with what its check was told. -/
theorem run_isCancelled_bind (f : Bool → Plan α) (s : σ) :
    (isCancelled >>= f).run respond s = (f (told respond s)).run respond (checked respond s) := rfl

theorem moments_isCancelled_bind (f : Bool → Plan α) (s : σ) :
    (isCancelled >>= f).moments respond s =
      ⟨s, .isCancelled⟩ :: (f (told respond s)).moments respond (checked respond s) := rfl

/-- The moments of a plan are those of its parts, one after the other. -/
theorem moments_bind (p : Plan α) (f : α → Plan β) (s : σ) :
    (p >>= f).moments respond s =
      p.moments respond s ++ (f (p.run respond s).1).moments respond (p.run respond s).2 := by
  induction p generalizing s with
  | done a => rfl
  | ask q next ih => exact congrArg (⟨s, q⟩ :: ·) (ih _ _)

section

variable {respond} {holds : σ → Prop} (stays : ∀ q s, holds s → holds (respond q s).2)
include stays

/-- What no question takes away holds at every moment, once it holds at the start. -/
theorem holds_of_mem_moments (p : Plan α) {s : σ} (hs : holds s) {m : Moment σ}
    (hm : m ∈ p.moments respond s) : holds m.state := by
  induction p generalizing s with
  | done a => cases hm
  | ask q next ih =>
    rcases List.mem_cons.mp hm with rfl | hm
    · exact hs
    · exact ih _ (stays q s hs) hm

/-- What no question takes away holds at every later moment, once it holds at one. -/
theorem holds_of_later (p : Plan α) {s : σ} {before after : List (Moment σ)} {m m' : Moment σ}
    (heq : p.moments respond s = before ++ m :: after) (hm : holds m.state) (hm' : m' ∈ after) :
    holds m'.state := by
  induction p generalizing s before with
  | done a => cases before <;> cases heq
  | ask q next ih =>
    -- Either this is the first moment, and the rest comes after it, or it comes later.
    cases before with
    | nil =>
      obtain ⟨rfl, htail⟩ := List.cons.inj heq
      rw [← htail] at hm'
      exact holds_of_mem_moments stays _ (stays q s hm) hm'
    | cons b before => exact ih _ (List.cons.inj heq).2

end

/-! ## What a plan comes to -/

/-- If all its moments are right, the answer of a plan satisfies `post`. -/
def Ensures (right : Moment σ → Prop) (p : Plan α) (post : α → Prop) : Prop :=
  ∀ s, (∀ m ∈ p.moments respond s, right m) → post (p.run respond s).1

variable {respond} {right : Moment σ → Prop}

theorem Ensures.done {post : α → Prop} {a : α} (h : post a) :
    Ensures respond right (.done a) post := fun _ _ => h

/-- A question ensures what its answer has to be. -/
theorem Ensures.question {q : Question} {post : q.Answer → Prop}
    (h : ∀ s, right ⟨s, q⟩ → post (respond q s).1) :
    Ensures respond right (Plan.question q) post :=
  fun s hs => h s (hs _ (List.mem_singleton_self _))

/-- A plan ensures what its second part ensures after the first one. -/
theorem Ensures.bind {p : Plan α} {f : α → Plan β} {mid : α → Prop} {post : β → Prop}
    (hp : Ensures respond right p mid) (hf : ∀ a, mid a → Ensures respond right (f a) post) :
    Ensures respond right (p >>= f) post := by
  intro s hs
  rw [moments_bind] at hs
  rw [run_bind]
  -- The moments of the first part come first, so they are right, too.
  have hmid := hp s fun m hm => hs m (List.mem_append_left _ hm)
  exact hf _ hmid _ fun m hm => hs m (List.mem_append_right _ hm)

/-- What a plan ensures may be said more weakly. -/
theorem Ensures.mono {p : Plan α} {mid post : α → Prop} (hp : Ensures respond right p mid)
    (h : ∀ a, mid a → post a) : Ensures respond right p post :=
  fun s hs => h _ (hp s hs)

theorem Ensures.trivial (p : Plan α) : Ensures respond right p fun _ => True :=
  fun _ _ => True.intro

end Plan

end SmaliView
