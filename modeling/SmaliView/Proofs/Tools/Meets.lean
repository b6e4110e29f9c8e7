import SmaliView.Proofs.Pipeline.AlikeWork
import SmaliView.Proofs.Pipeline.Extraction

/-!
# What work comes to

`Work.Meets` says what is true after work that began where something was true: of its answer and the
scene that it leaves, or of its failure, which is one that tools may reply. There is a rule for each
operation that work is put together from.
-/

namespace SmaliView

variable {α β : Type}

/-- A failure that a tool may reply when it leaves a scene: the tool is missing, the token has
fired, or there was trouble that nothing is known about. -/
inductive Failure.Allowed (left : Scene) : Failure → Prop where
  | cancelled (hfired : left.token.fired = true) : Allowed left (.error .cancelled)
  | toolUnavailable (tool hint : String) : Allowed left (.error (.toolUnavailable tool hint))
  | unexpected (message : String) : Allowed left (.error (.unexpected message))

/-- A refusal of the system is always allowed. -/
theorem Failure.allowed_system (e : SystemError) (left : Scene) : (Failure.system e).Allowed left :=
  .unexpected _

namespace Work

/-- Work that begins where `pre` is true ends in an answer with `post`, or in an allowed failure. -/
structure Meets (pre : Scene → Prop) (x : Work α) (post : α → Scene → Prop) : Prop where
  turn : ∀ s, pre s → match x.run.run s with
    | (.ok a, left) => post a left
    | (.error e, left) => e.Allowed left

variable {pre : Scene → Prop} {post : α → Scene → Prop}

/-- What is promised of an answer holds of it. -/
theorem Meets.ok {x : Work α} (h : Meets pre x post) {s : Scene} (hs : pre s) {a : α}
    (ha : (x.run.run s).1 = .ok a) : post a (x.run.run s).2 := by
  have hturn := h.turn s hs
  generalize x.run.run s = turn at ha hturn
  obtain ⟨reply, left⟩ := turn
  obtain rfl : reply = .ok a := ha
  exact hturn

/-- A failure of work that meets its contract is allowed. -/
theorem Meets.allowed {x : Work α} (h : Meets pre x post) {s : Scene} (hs : pre s) {e : Failure}
    (he : (x.run.run s).1 = .error e) : e.Allowed (x.run.run s).2 := by
  have hturn := h.turn s hs
  generalize x.run.run s = turn at he hturn
  obtain ⟨reply, left⟩ := turn
  obtain rfl : reply = .error e := he
  exact hturn

/-- A contract may be weakened at its end and strengthened at its start. -/
theorem Meets.mono {x : Work α} {pre' : Scene → Prop} {post' : α → Scene → Prop}
    (h : Meets pre x post) (hpre : ∀ s, pre' s → pre s) (hpost : ∀ a s, post a s → post' a s) :
    Meets pre' x post' where
  turn s hs := by
    have hturn := h.turn s (hpre s hs)
    generalize x.run.run s = turn at hturn
    obtain ⟨a | e, left⟩ := turn
    · exact hturn
    · exact hpost _ _ hturn

theorem meets_pure {a : α} (h : ∀ s, pre s → post a s) : Meets pre (pure a) post :=
  ⟨fun s hs => h s hs⟩

/-- Work meets its contract if its second part goes on from what the first one promises. -/
theorem Meets.bind {x : Work α} {f : α → Work β} {mid : α → Scene → Prop}
    {post : β → Scene → Prop} (hx : Meets pre x mid) (hf : ∀ a, Meets (mid a) (f a) post) :
    Meets pre (x >>= f) post where
  turn s hs := by
    have hfirst := hx.turn s hs
    rw [run_bind]
    generalize x.run.run s = y at hfirst
    obtain ⟨reply, s'⟩ := y
    cases reply with
    | ok a => exact (hf a).turn s' hfirst
    | error e => exact hfirst

/-- A failure has to be allowed where it happens. -/
theorem meets_fail {e : StageError} (h : ∀ s, pre s → (Failure.error e).Allowed s) :
    Meets pre (fail e) post :=
  ⟨fun s hs => h s hs⟩

theorem meets_get : Meets pre get fun a s => a = s ∧ pre s :=
  ⟨fun _ hs => ⟨rfl, hs⟩⟩

theorem meets_lift {x : Act α} (h : ∀ s, pre s → post (x s).1 (x s).2) :
    Meets pre (liftM x) post :=
  ⟨fun s hs => h s hs⟩

/-- Time that passes is only seen by the token. -/
theorem meets_pass {ms : Nat} {post : Unit → Scene → Prop}
    (h : ∀ s, pre s → post () { s with token := s.token.later ms }) : Meets pre (pass ms) post :=
  ⟨fun s hs => h s hs⟩

/-- After a check the token has not fired, or the work is cancelled. -/
theorem meets_checkToken :
    Meets pre checkToken fun _ s => pre s ∧ s.token.fired = false where
  turn s hs := by
    rw [run_checkToken]
    cases hfired : s.token.fired with
    | true => exact .cancelled hfired
    | false => exact ⟨hs, hfired⟩

/-- A change has to keep the promise where it is made. -/
theorem meets_change {f : FileTree → Except SystemError FileTree} {post : Unit → Scene → Prop}
    (h : ∀ s tree, pre s → f s.tree = .ok tree → post () { s with tree }) :
    Meets pre (change f) post where
  turn s hs := by
    rw [run_change]
    cases hf : f s.tree with
    | ok tree => exact h s tree hs hf
    | error e => exact Failure.allowed_system e _

/-- Looking keeps every promise. -/
theorem meets_look {f : FileTree → Except SystemError α} : Meets pre (look f) fun _ => pre where
  turn s hs := by
    rw [run_look]
    cases hf : f s.tree with
    | ok a => exact hs
    | error e => exact Failure.allowed_system e _

/-- Making directories has to keep the promise when all are made. -/
theorem meets_makeDirectories {p : Path} {post : Unit → Scene → Prop}
    (h : ∀ s tree, pre s → s.tree.makeAll p.ancestors = (tree, .ok ()) →
      post () { s with tree }) :
    Meets pre (makeDirectories p) post where
  turn s hs := by
    rw [run_makeDirectories]
    -- Where a directory is refused those made before it stay, and that is a failure too.
    rcases hmade : s.tree.makeAll p.ancestors with ⟨tree, e | _⟩
    · exact Failure.allowed_system e _
    · exact h s tree hs hmade

/-- What every piece of the work keeps is kept by all of them together. -/
theorem meets_forM {f : α → Work Unit} (h : ∀ a, Meets pre (f a) fun _ => pre) (as : List α) :
    Meets pre (as.forM f) fun _ => pre := by
  induction as with
  | nil => exact meets_pure fun _ hs => hs
  | cons a as ih => exact (h a).bind fun _ => ih

end Work

end SmaliView
