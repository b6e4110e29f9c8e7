import SmaliView.Tools.Basic

/-!
# Plans

A conversion asks *questions* and goes on from their answers: it asks whether it was given up,
looks at the files and changes them, and calls tools. A `Plan` is this tree of questions as a
value. Nothing in it says who answers: `Plan.run` takes any respondent, and a plan can be kept at
a question for as long as its answer takes.
-/

namespace SmaliView

/-- What a conversion can ask for. -/
inductive Question where
  /-- Whether the token has fired. -/
  | isCancelled
  /-- The files as they are. -/
  | look
  /-- Put other files in place of those that are there. -/
  | change (tree : FileTree)
  | assemblerReady
  | decompilerReady
  | assemble (request : AssembleRequest)
  | decompile (request : DecompileRequest)

/-- What each question is answered with. -/
@[reducible] def Question.Answer : Question → Type
  | .isCancelled => Bool
  | .look => FileTree
  | .change _ => Unit
  | .assemblerReady => Bool
  | .decompilerReady => Bool
  | .assemble _ => Reply AssembleAnswer
  | .decompile _ => Reply DecompileAnswer

/-- A computation that asks questions. -/
inductive Plan (α : Type) : Type where
  | done (a : α)
  | ask (q : Question) (next : q.Answer → Plan α)

namespace Plan

variable {α β γ σ : Type}

protected def bind : Plan α → (α → Plan β) → Plan β
  | .done a, f => f a
  | .ask q next, f => .ask q fun x => (next x).bind f

instance : Monad Plan where
  pure := .done
  bind := .bind

def question (q : Question) : Plan q.Answer := .ask q .done

def isCancelled : Plan Bool := question .isCancelled

def look : Plan FileTree := question .look

def change (tree : FileTree) : Plan Unit := question (.change tree)

/-- How one question is answered, from a state. -/
abbrev Respondent (σ : Type) := (q : Question) → σ → q.Answer × σ

def run (respond : Respondent σ) : Plan α → σ → α × σ
  | .done a, s => (a, s)
  | .ask q next, s =>
    match respond q s with
    | (x, s') => (next x).run respond s'

/-- The questions that come up while a plan is carried out, in order. -/
def trace (respond : Respondent σ) : Plan α → σ → List Question
  | .done _, _ => []
  | .ask q next, s =>
    match respond q s with
    | (x, s') => q :: (next x).trace respond s'

@[simp] theorem pure_eq (a : α) : (pure a : Plan α) = .done a := rfl

@[simp] theorem done_bind (a : α) (f : α → Plan β) : (Plan.done a >>= f) = f a := rfl

@[simp] theorem ask_bind (q : Question) (next : q.Answer → Plan α) (f : α → Plan β) :
    (Plan.ask q next >>= f) = .ask q fun x => next x >>= f := rfl

instance : LawfulMonad Plan :=
  LawfulMonad.mk' Plan
    (fun x => by
      induction x with
      | done a => rfl
      | ask q next ih => exact congrArg (Plan.ask q) (funext ih))
    (fun _ _ => rfl)
    (fun x f g => by
      induction x with
      | done a => rfl
      | ask q next ih => exact congrArg (Plan.ask q) (funext ih))

/-- Carrying out one plan after another. -/
theorem run_bind (respond : Respondent σ) (p : Plan α) (f : α → Plan β) (s : σ) :
    (p >>= f).run respond s = (f (p.run respond s).1).run respond (p.run respond s).2 := by
  induction p generalizing s with
  | done a => rfl
  | ask q next ih => exact ih _ _

end Plan

end SmaliView
