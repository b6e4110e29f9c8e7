import SmaliView.Proofs.Scheduler.Registry

/-!
# What becomes of the tasks of a table

A task table is driven by operations in any order. Every task that is put into it stays registered
until it leaves by one exit, and what has left does not come back. The step lemma is
`Filed.conserve`: what an operation puts in and what was registered are, as a whole, what is
registered afterwards and what has left. Adding this up over a run gives `Filed.conserve_run`, from
which all that is told of single tasks follows, as long as no two of them have one generation.
-/

namespace SmaliView

namespace TaskTable

/-- How a task leaves the table. -/
inductive Exit where
  | displaced
  | removed
  | drained
  | cancelled
  | completed
  | abandoned
deriving DecidableEq, Repr

/-- The tasks that leave the table in an operation. These are the tasks that it hands out. One that
retires a task hands out nothing but says so, and then it is the running task that has left. -/
def leaving (t : TaskTable) : Operation → List (Task × Exit)
  | .replace task => (t.replace task).2.toList.map (·, .displaced)
  | .remove file => (t.remove file).2.toList.map (·, .removed)
  | .cancel file => (t.cancel file).2.toList.map (·, .cancelled)
  | .complete file g =>
    if (t.complete file g).2 then (t.current? file).toList.map (·, .completed) else []
  | .abandon file g =>
    if (t.abandon file g).2 then (t.current? file).toList.map (·, .abandoned) else []
  | .settle _ _ | .forget _ => []
  | .drain => t.drain.2.map (·, .drained)

/-- The generation that an operation says to have retired. -/
def retiring (t : TaskTable) : Operation → List Nat
  | .complete file g => if (t.complete file g).2 then [g] else []
  | .abandon file g => if (t.abandon file g).2 then [g] else []
  | _ => []

/-- The tasks that are put into the table. -/
def given (ops : List Operation) : List Task :=
  ops.filterMap fun
    | .replace task => some task
    | _ => none

/-- The table after some operations. -/
def after (t : TaskTable) (ops : List Operation) : TaskTable :=
  ops.foldl apply t

/-- What each of some operations does, one after the other. -/
def collect {α : Type} (f : TaskTable → Operation → List α) : TaskTable → List Operation → List α
  | _, [] => []
  | t, op :: ops => f t op ++ collect f (t.apply op) ops

variable {t : TaskTable} {ops : List Operation} {op : Operation} {file : Path} {g : Nat}

/-! ## One operation -/

theorem Filed.retire (h : t.Filed) (file : Path) (g : Nat) (state : TaskState) :
    (t.retire file g state).1.Filed := by
  unfold TaskTable.retire
  split
  · exact ⟨(h.remove file).distinct, (h.remove file).filed⟩
  · exact h

/-- Every operation keeps each task under its own place. -/
theorem Filed.apply (h : t.Filed) (op : Operation) : (t.apply op).Filed := by
  cases op with
  | replace task => exact h.replace task
  | remove file => exact h.remove file
  | cancel file =>
    show (t.cancel file).1.Filed
    unfold TaskTable.cancel
    split
    · exact ⟨(h.remove file).distinct, (h.remove file).filed⟩
    · exact h
  | complete file g => exact h.retire file g _
  | abandon file g => exact h.retire file g _
  | settle file state => exact ⟨h.distinct, h.filed⟩
  | forget file => exact ⟨h.distinct, h.filed⟩
  | drain => exact .empty

/-- A table without the task of a file, and this task, are the table of before. -/
theorem Filed.values_remove (h : t.Filed) (file : Path) :
    t.running.values.Perm ((t.remove file).1.running.values ++ (t.current? file).toList) :=
  (h.distinct.values_perm file.place).trans List.perm_append_comm

/-- Cancelling takes the same task as removing; it only notes more. -/
theorem running_cancel (t : TaskTable) (file : Path) :
    (t.cancel file).1.running.values = (t.remove file).1.running.values := by
  unfold cancel
  cases hc : t.current? file with
  | some task => rfl
  | none =>
    -- Where no task runs there is nothing to erase.
    show t.running.values = (t.running.erase file.place).values
    rw [Table.erase_eq_self hc]

/-- Retiring takes the running task, if it says so, and leaves the table alone otherwise. -/
theorem Filed.conserve_retire (h : t.Filed) (file : Path) (g : Nat) (state : TaskState)
    (exit : Exit) :
    t.running.values.Perm ((t.retire file g state).1.running.values ++
      (if (t.retire file g state).2 then (t.current? file).toList.map (·, exit) else []).map
        Prod.fst) := by
  rw [retire_snd]
  unfold TaskTable.retire
  -- Only the current generation of the file is retired, and then its task is what the file has.
  by_cases hc : t.isCurrent file g = true
  · rw [if_pos hc, if_pos hc, List.map_map, Function.comp_def, List.map_id']
    exact h.values_remove file
  · rw [if_neg hc, if_neg hc, List.map_nil, List.append_nil]

/-- What an operation puts in and what was registered are what is registered afterwards and what has
left. -/
theorem Filed.conserve (h : t.Filed) (op : Operation) :
    (given [op] ++ t.running.values).Perm
      ((t.apply op).running.values ++ (t.leaving op).map Prod.fst) := by
  have handed : ∀ (o : Option Task) (exit : Exit),
      (o.toList.map (·, exit)).map Prod.fst = o.toList := by
    intro o exit
    rw [List.map_map, Function.comp_def, List.map_id']
  cases op with
  | replace task =>
    -- The new task comes in at the front, and the one that it displaces goes out at the end.
    have hold := (h.values_remove task.file).cons task
    rw [leaving, handed]
    exact hold
  | remove file => rw [leaving, handed]; exact h.values_remove file
  | cancel file =>
    rw [leaving, handed, cancel_snd]
    show t.running.values.Perm ((t.cancel file).1.running.values ++ _)
    rw [running_cancel]
    exact h.values_remove file
  | complete file g => exact h.conserve_retire file g .completed .completed
  | abandon file g => exact h.conserve_retire file g .cancelled .abandoned
  | settle file state => rw [leaving, List.map_nil, List.append_nil]; exact .refl _
  | forget file => rw [leaving, List.map_nil, List.append_nil]; exact .refl _
  | drain =>
    -- Draining hands out all there is.
    have hall : (t.leaving .drain).map Prod.fst = t.running.values := by
      rw [leaving, List.map_map, Function.comp_def, List.map_id']
      rfl
    rw [hall]
    exact .refl _

/-- An operation that says that it has retired nothing changes nothing. -/
theorem retire_eq_self {state : TaskState} (h : (t.retire file g state).2 = false) :
    (t.retire file g state).1 = t := by
  rw [retire_snd] at h
  rw [retire, h, if_neg Bool.false_ne_true]

/-! ## Exits of one kind -/

/-- The exits of a kind that tasks take in an operation, by generation. -/
def leavingBy (kind : Exit → Bool) (t : TaskTable) (op : Operation) : List Nat :=
  ((t.leaving op).filter (kind ·.2)).map (·.1.generation)

def Exit.isCancellation : Exit → Bool
  | .cancelled => true
  | _ => false

def Exit.isRetirement : Exit → Bool
  | .completed | .abandoned => true
  | _ => false

theorem filter_exit (kind : Exit → Bool) (tasks : List Task) (exit : Exit) :
    ((tasks.map (·, exit)).filter (kind ·.2)).map (·.1.generation) =
      if kind exit then tasks.map Task.generation else [] := by
  cases hkind : kind exit <;> simp [List.filter_map, Function.comp_def, hkind]

/-- Retiring says so exactly if it takes a task, and that has the generation. -/
theorem retired_eq (kind : Exit → Bool) (t : TaskTable) (file : Path) (g : Nat) (state : TaskState)
    (exit : Exit) :
    ((if (t.retire file g state).2 then (t.current? file).toList.map (·, exit) else []).filter
        (kind ·.2)).map (·.1.generation) =
      if kind exit then (if (t.retire file g state).2 then [g] else []) else [] := by
  rw [retire_snd]
  by_cases hc : t.isCurrent file g = true
  · obtain ⟨task, htask, rfl⟩ := (isCurrent_iff ..).mp hc
    rw [if_pos hc, if_pos hc, filter_exit, htask]
    rfl
  · rw [if_neg hc, if_neg hc, ite_self]
    rfl

/-- The tokens that fire are those of the tasks that leave by cancelling. -/
theorem firing_eq : firing = leavingBy Exit.isCancellation := by
  funext t op
  -- Only `cancel` hands out tasks that leave by cancelling.
  cases op with
  | complete file g => exact (retired_eq Exit.isCancellation t file g .completed .completed).symm
  | abandon file g => exact (retired_eq Exit.isCancellation t file g .cancelled .abandoned).symm
  | settle file state => rfl
  | forget file => rfl
  | _ => rw [leavingBy, leaving, filter_exit]; rfl

theorem retiring_eq : retiring = leavingBy Exit.isRetirement := by
  funext t op
  cases op with
  | complete file g => exact (retired_eq Exit.isRetirement t file g .completed .completed).symm
  | abandon file g => exact (retired_eq Exit.isRetirement t file g .cancelled .abandoned).symm
  | settle file state => rfl
  | forget file => rfl
  | _ => rw [leavingBy, leaving, filter_exit]; rfl

/-- The generations that leave by exits of a kind are those of the tasks whose exit is of the kind.
-/
theorem collect_leavingBy (kind : Exit → Bool) (t : TaskTable) (ops : List Operation) :
    collect (leavingBy kind) t ops =
      ((collect leaving t ops).filter (kind ·.2)).map (·.1.generation) := by
  induction ops generalizing t with
  | nil => rfl
  | cons op ops ih =>
    rw [collect, collect, ih, List.filter_append, List.map_append]
    rfl

/-! ## A run of operations -/

theorem given_cons (op : Operation) (ops : List Operation) :
    given (op :: ops) = given [op] ++ given ops := by
  rw [given, ← List.singleton_append, List.filterMap_append]
  rfl

/-- What a run puts in and what was registered are what is registered at its end and what has left
on the way. -/
theorem Filed.conserve_run (h : t.Filed) (ops : List Operation) :
    (given ops ++ t.running.values).Perm
      ((t.after ops).running.values ++ (collect leaving t ops).map Prod.fst) := by
  induction ops generalizing t with
  | nil => rw [collect, List.map_nil, List.append_nil]; exact .refl _
  | cons op ops ih =>
    have hstep := h.conserve op
    have hrest := ih (h.apply op)
    -- Each task is counted: the steps cancel out what is registered in between.
    rw [List.perm_iff_count] at hstep hrest ⊢
    intro task
    have hstep := hstep task
    have hrest := hrest task
    rw [given_cons, collect, List.map_append]
    simp only [List.count_append] at hstep hrest ⊢
    show _ = List.count task ((t.apply op).after ops).running.values + _
    omega

theorem Filed.after (h : t.Filed) (ops : List Operation) : (t.after ops).Filed := by
  induction ops generalizing t with
  | nil => exact h
  | cons op ops ih => exact ih (h.apply op)

/-- All tasks that were given to a new table: those that are registered and those that have left. -/
theorem given_perm (ops : List Operation) :
    (given ops).Perm
      ((after {} ops).running.values ++ (collect leaving {} ops).map Prod.fst) := by
  have hrun := Filed.empty.conserve_run ops
  rwa [show ({} : TaskTable).running.values = [] from rfl, List.append_nil] at hrun

section

variable (distinct : ((given ops).map Task.generation).Nodup)
include distinct

/-- No task is registered or has left twice, nor is one that has left registered. -/
theorem nodup_of_given :
    ((after {} ops).running.values ++ (collect leaving {} ops).map Prod.fst).Nodup :=
  (given_perm ops).nodup_iff.mp distinct.of_map

/-- From a table that was new no generation leaves twice. -/
theorem exits_nodup : ((collect leaving {} ops).map (·.1.generation)).Nodup := by
  have hall := ((given_perm ops).map Task.generation).nodup_iff.mp distinct
  rw [List.map_append, List.map_map] at hall
  exact hall.of_append_right

/-- By its generation a task is found among those that took exits of a kind. -/
theorem generation_mem_collect {kind : Exit → Bool} {task : Task} (ht : task ∈ given ops) :
    task.generation ∈ collect (leavingBy kind) {} ops ↔
      ∃ exit, kind exit = true ∧ (task, exit) ∈ collect leaving {} ops := by
  rw [collect_leavingBy]
  constructor
  · intro hg
    obtain ⟨⟨other, exit⟩, hmem, hsame⟩ := List.mem_map.mp hg
    obtain ⟨hmem, hkind⟩ := List.mem_filter.mp hmem
    -- It was given, too, and its generation belongs to one task only.
    have hother : other ∈ given ops :=
      (given_perm ops).mem_iff.mpr (List.mem_append_right _ (List.mem_map_of_mem hmem))
    obtain rfl := List.inj_on_of_nodup_map distinct hother ht hsame
    exact ⟨exit, hkind, hmem⟩
  · rintro ⟨exit, hkind, hmem⟩
    exact List.mem_map.mpr ⟨(task, exit), List.mem_filter.mpr ⟨hmem, hkind⟩, rfl⟩

/-- **Tasks are conserved.** Whatever is done to a new table, one operation after the other, as long
as no two of the tasks that are put into it have one generation:

* each of them is either registered, and then it is the only one of its place and has not left, or
  it is not registered and has left by exactly one exit;
* none has left twice, and nothing has left that was not put in;
* the table has fired the token of a task exactly if it left by being cancelled;
* no generation is said to be retired twice, and one is said to be exactly if its task left by being
  completed or abandoned;
* an operation that says that it has retired nothing changes nothing;
* the tasks in flight are those that were put in and have not left. -/
theorem tasks_are_conserved :
    (∀ task ∈ given ops,
      ((after {} ops).current? task.file = some task ∧
        (∀ other ∈ (after {} ops).running.values,
          other.file.place = task.file.place → other = task) ∧
        ∀ exit, (task, exit) ∉ collect leaving {} ops) ∨
      ((after {} ops).current? task.file ≠ some task ∧
        ∃! exit, (task, exit) ∈ collect leaving {} ops)) ∧
    (((collect leaving {} ops).map Prod.fst).Nodup ∧
      ∀ task exit, (task, exit) ∈ collect leaving {} ops → task ∈ given ops) ∧
    (∀ task ∈ given ops, task.generation ∈ collect firing {} ops ↔
      (task, .cancelled) ∈ collect leaving {} ops) ∧
    ((collect retiring {} ops).Nodup ∧
      ∀ task ∈ given ops, task.generation ∈ collect retiring {} ops ↔
        (task, .completed) ∈ collect leaving {} ops ∨
          (task, .abandoned) ∈ collect leaving {} ops) ∧
    (∀ (t : TaskTable) file g,
      ((t.complete file g).2 = false → (t.complete file g).1 = t) ∧
      ((t.abandon file g).2 = false → (t.abandon file g).1 = t)) ∧
    (after {} ops).inFlight + (collect leaving {} ops).length = (given ops).length := by
  have hperm := given_perm ops
  have hfiled := Filed.empty.after ops
  obtain ⟨-, hleft, hapart⟩ := List.nodup_append.mp (nodup_of_given distinct)
  have hexit : ∀ {task exit}, (task, exit) ∈ collect leaving {} ops →
      task ∈ (collect leaving {} ops).map Prod.fst := fun hmem => List.mem_map_of_mem hmem
  refine ⟨fun task ht => ?_, ⟨hleft, fun task exit hmem => ?_⟩, fun task ht => ?_,
    ⟨?_, fun task ht => ?_⟩, fun t file g => ⟨?_, ?_⟩, ?_⟩
  -- A task that was given stands on exactly one side: it is registered, or it has left.
  · rcases List.mem_append.mp (hperm.mem_iff.mp ht) with hvalue | hgone
    · have hcurrent := hfiled.mem_values_iff.mp hvalue
      refine Or.inl ⟨hcurrent, fun other hother hplace => ?_, fun exit hmem => ?_⟩
      · have hsame := hfiled.mem_values_iff.mp hother
        rw [current?_congr _ hplace, hcurrent] at hsame
        exact (Option.some.inj hsame).symm
      · exact hapart task hvalue task (hexit hmem) rfl
    · obtain ⟨⟨other, exit⟩, hmem, hother⟩ := List.mem_map.mp hgone
      obtain rfl : other = task := hother
      refine Or.inr ⟨fun hcurrent => ?_, exit, hmem, fun exit' hmem' => ?_⟩
      · exact hapart other (hfiled.mem_values_iff.mpr hcurrent) other hgone rfl
      · have hsame := List.inj_on_of_nodup_map hleft hmem' hmem rfl
        exact congrArg Prod.snd hsame
  · exact hperm.mem_iff.mpr (List.mem_append_right _ (hexit hmem))
  -- Tokens and retirements are exits of a kind, and there a generation stands for its task.
  · rw [firing_eq, generation_mem_collect distinct ht]
    constructor
    · rintro ⟨exit, hkind, hmem⟩
      cases exit with
      | cancelled => exact hmem
      | _ => cases hkind
    · exact fun hmem => ⟨.cancelled, rfl, hmem⟩
  · rw [retiring_eq, collect_leavingBy]
    exact (exits_nodup distinct).sublist (List.filter_sublist.map _)
  · rw [retiring_eq, generation_mem_collect distinct ht]
    constructor
    · rintro ⟨exit, hkind, hmem⟩
      cases exit with
      | completed => exact Or.inl hmem
      | abandoned => exact Or.inr hmem
      | _ => cases hkind
    · rintro (hmem | hmem)
      · exact ⟨.completed, rfl, hmem⟩
      · exact ⟨.abandoned, rfl, hmem⟩
  · exact retire_eq_self
  · exact retire_eq_self
  -- Counting both sides of the permutation.
  · have hlength := hperm.length_eq
    rw [List.length_append, List.length_map] at hlength
    rw [hlength, inFlight, Table.size, Table.values, List.length_map]

end

/-- Generations that are out of date come back to retire the tasks that have taken their places, and
one that was retired comes back as well. -/
def latecomers : List Operation :=
  [.replace ⟨⟨"p/A"⟩, 1⟩, .replace ⟨⟨"p//A"⟩, 2⟩, .complete ⟨"p/A"⟩ 1, .replace ⟨⟨"p/B"⟩, 3⟩,
    .cancel ⟨"p/A"⟩, .abandon ⟨"p/A"⟩ 2, .replace ⟨⟨"p/A"⟩, 4⟩, .complete ⟨"p/A"⟩ 2,
    .complete ⟨"p/A"⟩ 4, .complete ⟨"p/A"⟩ 4, .forget ⟨"p/A"⟩, .settle ⟨"p/B"⟩ .completed,
    .replace ⟨⟨"p/C"⟩, 5⟩, .remove ⟨"p/C"⟩, .drain, .replace ⟨⟨"p/A"⟩, 6⟩]

/-- One of six tasks is left, and the others have left by an exit each. -/
theorem latecomers_retire_nothing :
    ((given latecomers).map Task.generation).Nodup ∧
      (collect leaving {} latecomers).map (fun left => (left.1.generation, left.2)) =
        [(1, .displaced), (2, .cancelled), (4, .completed), (5, .removed), (3, .drained)] ∧
      (collect retiring {} latecomers = [4] ∧ (collect retiring {} latecomers).Nodup) ∧
      (2 ∈ collect firing {} latecomers ↔
        (⟨⟨"p//A"⟩, 2⟩, .cancelled) ∈ collect leaving {} latecomers) ∧
      (∃! exit, (⟨⟨"p/B"⟩, 3⟩, exit) ∈ collect leaving {} latecomers) ∧
      (after {} latecomers).inFlight + 5 = 6 := by
  have hdistinct : ((given latecomers).map Task.generation).Nodup := by decide +kernel
  have hgiven : ⟨⟨"p//A"⟩, 2⟩ ∈ given latecomers ∧ ⟨⟨"p/B"⟩, 3⟩ ∈ given latecomers := by
    decide +kernel
  have hgone : (after {} latecomers).current? ⟨"p/B"⟩ = none := by decide +kernel
  obtain ⟨htasks, -, hfired, ⟨hretired, -⟩, -, hcount⟩ := tasks_are_conserved hdistinct
  refine ⟨hdistinct, by decide +kernel, ⟨by decide +kernel, hretired⟩, hfired _ hgiven.1, ?_,
    hcount⟩
  rcases htasks _ hgiven.2 with ⟨hcurrent, -⟩ | ⟨-, hexit⟩
  · rw [hgone] at hcurrent
    cases hcurrent
  · exact hexit

end TaskTable

end SmaliView
