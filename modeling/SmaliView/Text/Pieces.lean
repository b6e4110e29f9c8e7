/-!
# Cutting a text at a separator

`cut sep` keeps every piece, empty ones included, and `joinWith sep` undoes it:
`joinWith_cut` and `cut_joinWith` say that the two are inverse as long as no piece holds the
separator. `lines` is the cut at line feeds that a reader of source text sees.
-/

namespace SmaliView.Text

/-- One step of `cut`, from the right: a separator opens a new piece in front. -/
def cutStep (sep c : Char) (pieces : List (List Char)) : List (List Char) :=
  if c = sep then [] :: pieces
  else match pieces with
    | [] => [[c]]
    | p :: ps => (c :: p) :: ps

/-- The pieces between the separators, empty pieces included. Never an empty list. -/
def cut (sep : Char) (cs : List Char) : List (List Char) :=
  cs.foldr (cutStep sep) [[]]

/-- The pieces with one separator between each two neighbours. -/
def joinWith (sep : Char) : List (List Char) → List Char
  | [] => []
  | [p] => p
  | p :: q :: ps => p ++ sep :: joinWith sep (q :: ps)

/-- The lines of a text: cut at line feeds, a carriage return before a line feed belongs to
the line end, and nothing follows a line feed that ends the text. -/
def lines (cs : List Char) : List (List Char) :=
  let pieces := cut '\n' cs
  let closed := pieces.dropLast.map fun line =>
    if line.getLast? = some '\r' then line.dropLast else line
  -- What follows the last line feed is a line of its own, unless it is empty.
  match pieces.getLast? with
  | none | some [] => closed
  | some rest => closed ++ [rest]

/-! ## Cutting and joining are inverse -/

@[simp] theorem cut_nil (sep : Char) : cut sep [] = [[]] := rfl

theorem cut_cons (sep c : Char) (cs : List Char) :
    cut sep (c :: cs) = cutStep sep c (cut sep cs) := rfl

theorem cutStep_ne_nil (sep c : Char) (ps : List (List Char)) : cutStep sep c ps ≠ [] := by
  unfold cutStep
  split
  · simp
  · split <;> simp

theorem cut_ne_nil (sep : Char) (cs : List Char) : cut sep cs ≠ [] := by
  cases cs with
  | nil => simp
  | cons c cs => exact cutStep_ne_nil sep c _

/-- What was cut at one separator and is joined with another has the one replaced by the other. -/
theorem joinWith_cut_eq_map (sep sep' : Char) (cs : List Char) :
    joinWith sep' (cut sep cs) = cs.map fun c => if c = sep then sep' else c := by
  induction cs with
  | nil => rfl
  | cons c cs ih =>
    rw [cut_cons]
    obtain ⟨p, ps, hp⟩ := List.exists_cons_of_ne_nil (cut_ne_nil sep cs)
    rw [hp] at ih ⊢
    by_cases hc : c = sep
    · simp [cutStep, hc, joinWith, ih]
    · cases ps with
      | nil => simp_all [cutStep, joinWith]
      | cons q qs => simp_all [cutStep, joinWith]

/-- Joining what was cut gives the text back. -/
theorem joinWith_cut (sep : Char) (cs : List Char) : joinWith sep (cut sep cs) = cs := by
  rw [joinWith_cut_eq_map]
  exact List.map_id'' (fun c => by split <;> simp_all) cs

/-- One more piece stands after one more separator. -/
theorem joinWith_concat (sep : Char) {ps : List (List Char)} (hne : ps ≠ []) (p : List Char) :
    joinWith sep (ps ++ [p]) = joinWith sep ps ++ sep :: p := by
  induction ps with
  | nil => exact absurd rfl hne
  | cons q ps ih =>
    cases ps with
    | nil => rfl
    | cons r ps =>
      have hrest := ih (List.cons_ne_nil r ps)
      rw [List.cons_append] at hrest
      simp only [List.cons_append, joinWith, hrest, List.append_assoc]

/-- What stands before the last of several pieces does not depend on it. -/
theorem exists_joinWith_concat (sep : Char) (ps : List (List Char)) :
    ∃ front, ∀ last, joinWith sep (ps ++ [last]) = front ++ last := by
  cases ps with
  | nil => exact ⟨[], fun _ => rfl⟩
  | cons p ps =>
    refine ⟨joinWith sep (p :: ps) ++ [sep], fun last => ?_⟩
    rw [joinWith_concat sep (List.cons_ne_nil p ps), List.append_assoc, List.singleton_append]

/-- A text without the separator is its own only piece. -/
theorem cut_of_not_mem {sep : Char} {cs : List Char} (h : sep ∉ cs) : cut sep cs = [cs] := by
  induction cs with
  | nil => rfl
  | cons c cs ih =>
    simp only [List.mem_cons, not_or] at h
    rw [cut_cons, ih h.2, cutStep, if_neg (Ne.symm h.1)]

/-- The cut of a text that starts with a piece and a separator starts with that piece. -/
theorem cut_append {sep : Char} {p : List Char} (h : sep ∉ p) (cs : List Char) :
    cut sep (p ++ sep :: cs) = p :: cut sep cs := by
  induction p with
  | nil => simp [cut_cons, cutStep]
  | cons c p ih =>
    simp only [List.mem_cons, not_or] at h
    rw [List.cons_append, cut_cons, ih h.2, cutStep, if_neg (Ne.symm h.1)]

/-- A cut at one separator and then at the others is the cut at all of them. -/
theorem cut_append_sep (sep : Char) (as bs : List Char) :
    cut sep (as ++ sep :: bs) = cut sep as ++ cut sep bs := by
  induction as with
  | nil => simp [cut_cons, cutStep]
  | cons c as ih =>
    rw [List.cons_append, cut_cons, ih, cut_cons]
    obtain ⟨p, ps, hp⟩ := List.exists_cons_of_ne_nil (cut_ne_nil sep as)
    by_cases hc : c = sep <;> simp [cutStep, hc, hp]

/-- Cutting what was joined gives the pieces back, if none of them holds the separator. -/
theorem cut_joinWith {sep : Char} {ps : List (List Char)} (hne : ps ≠ [])
    (h : ∀ p ∈ ps, sep ∉ p) : cut sep (joinWith sep ps) = ps := by
  induction ps with
  | nil => exact absurd rfl hne
  | cons p ps ih =>
    cases ps with
    | nil => exact cut_of_not_mem (h p (by simp))
    | cons q qs =>
      rw [joinWith, cut_append (h p (by simp)),
        ih (by simp) (fun r hr => h r (List.mem_cons_of_mem _ hr))]

/-- No piece of a cut holds the separator. -/
theorem not_mem_of_mem_cut {sep : Char} {cs p : List Char} (h : p ∈ cut sep cs) : sep ∉ p := by
  induction cs generalizing p with
  | nil => simp_all
  | cons c cs ih =>
    rw [cut_cons] at h
    obtain ⟨q, qs, hq⟩ := List.exists_cons_of_ne_nil (cut_ne_nil sep cs)
    rw [hq] at h ih
    by_cases hc : c = sep
    · simp only [cutStep, hc, if_true, List.mem_cons] at h
      rcases h with rfl | h
      · simp
      · exact ih (by simpa using h)
    · simp only [cutStep, hc, if_false, List.mem_cons] at h
      rcases h with rfl | h
      · simp only [List.mem_cons, not_or]
        exact ⟨Ne.symm hc, ih (by simp)⟩
      · exact ih (List.mem_cons_of_mem _ h)

/-- What stands before the first separator stays in front of the first piece. -/
theorem cut_lead {sep : Char} {lead : List Char} (h : sep ∉ lead) (cs : List Char) :
    cut sep (lead ++ cs) = (cut sep cs).modifyHead (lead ++ ·) := by
  obtain ⟨p, ps, hp⟩ := List.exists_cons_of_ne_nil (cut_ne_nil sep cs)
  induction lead with
  | nil => simp [hp]
  | cons c lead ih =>
    simp only [List.mem_cons, not_or] at h
    rw [List.cons_append, cut_cons, ih h.2, hp]
    simp [cutStep, Ne.symm h.1]

/-- Texts that are closed by a separator each are cut one by one. -/
theorem cut_flatMap_closed (sep : Char) (texts : List (List Char)) :
    cut sep (texts.flatMap (· ++ [sep])) = texts.flatMap (cut sep) ++ [[]] := by
  induction texts with
  | nil => rfl
  | cons t texts ih =>
    rw [List.flatMap_cons, List.append_assoc, List.singleton_append, cut_append_sep, ih,
      List.flatMap_cons, List.append_assoc]

/-- The lines of a text that ends with a line feed. -/
theorem lines_of_closed {cs : List Char} {ps : List (List Char)} (h : cut '\n' cs = ps ++ [[]]) :
    lines cs = ps.map fun line => if line.getLast? = some '\r' then line.dropLast else line := by
  simp [lines, h]

end SmaliView.Text
