import SmaliView.Text.Blank
import SmaliView.Text.Pieces

/-!
# Words and lines

A text is made of words if these stand in it in order, with blanks between each two of them. There is
one way only to read a text like this, and `words` finds it (`words_eq_iff`). Blanks at the end of a
text make no word, so that it does not matter for the words of a line how the line is closed.
-/

namespace SmaliView.Text

variable {cs gap word rest pre line tail : List Char} {ws : List (List Char)} {c : Char}

/-! ## Words -/

/-- Blanks alone, or nothing. -/
def IsGap (gap : List Char) : Prop :=
  ∀ c ∈ gap, isBlank c = true

theorem isGap_nil : IsGap [] := nofun

/-- A run of characters of which none is blank. -/
structure IsWord (word : List Char) : Prop where
  nonempty : word ≠ []
  solid : ∀ c ∈ word, isBlank c = false

/-- A text that is made of words: blanks stand between each two of them, and may stand around them.
-/
inductive MadeOf : List (List Char) → List Char → Prop where
  | gap {gap : List Char} (h : IsGap gap) : MadeOf [] gap
  | word {gap word rest : List Char} {ws : List (List Char)} (hgap : IsGap gap)
      (hword : IsWord word) (hends : ∀ c ∈ rest.head?, isBlank c = true) (hrest : MadeOf ws rest) :
      MadeOf (word :: ws) (gap ++ word ++ rest)

/-- The words when all is read: the one under construction is the first, if there is one. -/
def close : List Char × List (List Char) → List (List Char)
  | (current, done) => if current.isEmpty then done else current :: done

theorem words_eq_close (cs : List Char) : words cs = close (cs.foldr wordStep ([], [])) := rfl

/-- A blank ends the word before it. -/
theorem wordStep_blank (h : isBlank c = true) (s : List Char × List (List Char)) :
    wordStep c s = ([], close s) := by
  simp [wordStep, h, close]

theorem close_foldr_gap (h : IsGap gap) (s : List Char × List (List Char)) :
    close (gap.foldr wordStep s) = close s := by
  induction gap with
  | nil => rfl
  | cons c gap ih =>
    rw [List.foldr_cons, wordStep_blank (h c (List.mem_cons_self ..))]
    exact ih fun c hc => h c (List.mem_cons_of_mem _ hc)

/-- Characters that are not blank make up a word. -/
theorem foldr_solid (h : ∀ c ∈ word, isBlank c = false) (done : List (List Char)) :
    word.foldr wordStep ([], done) = (word, done) := by
  induction word with
  | nil => rfl
  | cons c word ih =>
    rw [List.foldr_cons, ih fun c hc => h c (List.mem_cons_of_mem _ hc)]
    simp [wordStep, h c (List.mem_cons_self ..)]

/-- No word is under construction in front of a blank. -/
theorem foldr_of_blank_head (h : ∀ c ∈ rest.head?, isBlank c = true) :
    rest.foldr wordStep ([], []) = ([], words rest) := by
  cases rest with
  | nil => rfl
  | cons c rest => rw [words_eq_close, List.foldr_cons, wordStep_blank (h c rfl)]; rfl

theorem words_of_gap (h : IsGap gap) : words gap = [] :=
  close_foldr_gap h ([], [])

/-- A word between blanks is the next one. -/
theorem words_append (hgap : IsGap gap) (hword : IsWord word)
    (hends : ∀ c ∈ rest.head?, isBlank c = true) :
    words (gap ++ word ++ rest) = word :: words rest := by
  -- The text is read from its end: the rest, the word, and the gap in front of it.
  rw [words_eq_close, List.foldr_append, List.foldr_append, foldr_of_blank_head hends,
    foldr_solid hword.solid, close_foldr_gap hgap, close,
    if_neg (by simpa using hword.nonempty)]

/-- A text that is made of words with gaps has these words. -/
theorem MadeOf.words_eq (h : MadeOf ws cs) : words cs = ws := by
  induction h with
  | gap h => exact words_of_gap h
  | word hgap hword hends _ ih => rw [words_append hgap hword hends, ih]

/-- A blank in front does not change the words. -/
theorem MadeOf.cons_blank (hc : isBlank c = true) (h : MadeOf ws cs) : MadeOf ws (c :: cs) := by
  have hcons {gap : List Char} (hgap : IsGap gap) : IsGap (c :: gap) :=
    List.forall_mem_cons.mpr ⟨hc, hgap⟩
  cases h with
  | gap h => exact .gap (hcons h)
  | word hgap hword hends hrest => exact .word (hcons hgap) hword hends hrest

/-- Every text is made of words, in one way. -/
theorem exists_madeOf (cs : List Char) : ∃ ws, MadeOf ws cs := by
  induction cs with
  | nil => exact ⟨[], .gap nofun⟩
  | cons c cs ih =>
    obtain ⟨ws, hws⟩ := ih
    by_cases hc : isBlank c = true
    · exact ⟨ws, hws.cons_blank hc⟩
    rw [Bool.not_eq_true] at hc
    have hone : IsWord [c] := ⟨List.cons_ne_nil _ _, List.forall_mem_singleton.mpr hc⟩
    -- The character is a word of its own, or the first one of the first word.
    cases hws with
    | gap h =>
      exact ⟨[[c]], .word isGap_nil hone (fun d hd => h d (List.mem_of_mem_head? hd)) (.gap h)⟩
    | @word gap word rest ws hgap hword hends hrest =>
      cases gap with
      | nil =>
        exact ⟨(c :: word) :: ws, .word isGap_nil
          ⟨List.cons_ne_nil _ _, List.forall_mem_cons.mpr ⟨hc, hword.solid⟩⟩ hends hrest⟩
      | cons d gap =>
        refine ⟨[c] :: word :: ws, .word isGap_nil hone ?_ (.word hgap hword hends hrest)⟩
        intro e he
        obtain rfl := Option.some.inj he
        exact hgap _ (List.mem_cons_self ..)

/-- The words of a text are those that it is made of. -/
theorem words_eq_iff : words cs = ws ↔ MadeOf ws cs := by
  refine ⟨?_, MadeOf.words_eq⟩
  rintro rfl
  obtain ⟨ws, hws⟩ := exists_madeOf cs
  exact hws.words_eq.symm ▸ hws

/-- No character of a word is blank. -/
theorem MadeOf.isWord (h : MadeOf ws cs) (hmem : word ∈ ws) : IsWord word := by
  induction h with
  | gap => cases hmem
  | word _ hword _ _ ih =>
    rcases List.mem_cons.mp hmem with rfl | hmem
    · exact hword
    · exact ih hmem

/-- A blank at the end does not change the words. -/
theorem words_concat_blank (hc : isBlank c = true) (cs : List Char) :
    words (cs ++ [c]) = words cs := by
  rw [words_eq_close, List.foldr_append, List.foldr_cons, List.foldr_nil, wordStep_blank hc]
  rfl

/-- Trimming leaves a text without blanks as it is. -/
theorem trim_of_solid (h : ∀ c ∈ cs, isBlank c = false) : trim cs = cs := by
  have hstart {cs : List Char} (h : ∀ c ∈ cs, isBlank c = false) : cs.dropWhile isBlank = cs := by
    cases cs with
    | nil => rfl
    | cons c cs => rw [List.dropWhile_cons_of_neg (by simp [h c (List.mem_cons_self ..)])]
  rw [trim, hstart h, dropEnd, hstart fun c hc => h c (List.mem_reverse.mp hc), List.reverse_reverse]

/-! ## Lines -/

/-- A text that ends where a line does, or is empty. -/
def IsClosed (pre : List Char) : Prop :=
  pre = [] ∨ pre.getLast? = some '\n'

/-- A text that starts where a line ends, or is empty. -/
def IsBreak (tail : List Char) : Prop :=
  tail = [] ∨ tail.head? = some '\n'

/-- How lines are closed does not matter for their words. -/
theorem map_words_lines (cs : List Char) :
    ∃ last : List (List (List Char)), (∀ ws ∈ last, ws = []) ∧
      (cut '\n' cs).map words = (lines cs).map words ++ last := by
  obtain ⟨front, rest, hpieces⟩ :=
    (List.eq_nil_or_concat (cut '\n' cs)).resolve_left (cut_ne_nil _ _)
  rw [List.concat_eq_append] at hpieces
  -- Only a return is taken off the end of a piece, and that is a blank.
  have hline (line : List Char) :
      words (if line.getLast? = some '\r' then line.dropLast else line) = words line := by
    split
    · next hreturn =>
      obtain ⟨line, rfl⟩ := List.getLast?_eq_some_iff.mp hreturn
      rw [List.dropLast_concat, words_concat_blank (by decide)]
    · rfl
  have hclosed : (front.map fun line : List Char =>
      if line.getLast? = some '\r' then line.dropLast else line).map words = front.map words := by
    rw [List.map_map]
    exact List.map_congr_left fun line _ => hline line
  rw [lines, hpieces, List.dropLast_concat, List.getLast?_concat]
  cases rest with
  | nil =>
    -- The text is closed: behind its last line there is an empty piece that is no line.
    refine ⟨[[]], by simp, ?_⟩
    dsimp only
    rw [hclosed, List.map_append]
    rfl
  | cons c rest =>
    refine ⟨[], by simp, ?_⟩
    dsimp only
    rw [List.map_append, List.map_append, hclosed, List.append_nil]

/-- The pieces of a text around one of its lines. -/
theorem cut_around (hpre : IsClosed pre) (hline : '\n' ∉ line) (htail : IsBreak tail) :
    ∃ before after, cut '\n' (pre ++ line ++ tail) = before ++ line :: after ∧
      (cut '\n' pre = before ++ [[]]) := by
  have hrest : ∃ after, cut '\n' (line ++ tail) = line :: after := by
    rcases htail with rfl | hhead
    · exact ⟨[], by rw [List.append_nil, cut_of_not_mem hline]⟩
    · obtain ⟨more, rfl⟩ := List.head?_eq_some_iff.mp hhead
      exact ⟨cut '\n' more, cut_append hline more⟩
  obtain ⟨after, hafter⟩ := hrest
  rw [List.append_assoc]
  -- What stands before ends in a line break, so that a piece begins behind it.
  rcases hpre with rfl | hlast
  · exact ⟨[], after, hafter, rfl⟩
  · obtain ⟨front, rfl⟩ := List.getLast?_eq_some_iff.mp hlast
    refine ⟨cut '\n' front, after, ?_, cut_append_sep '\n' front []⟩
    rw [List.append_assoc, List.singleton_append, cut_append_sep, hafter]

end SmaliView.Text
