import SmaliView.Outcome
import SmaliView.Tools.ProgramOutput
import Mathlib.Data.List.Basic

/-!
# The comment in place of Java source

An explanation is rendered as entries, each of which opens a comment. A comment ends with its line,
so that an entry is a comment as a whole only if the text in it goes on, after each line break, with
a comment of its own. `render_is_comment_iff` says so of the whole rendering. What a tool has
printed to both its streams stands on lines below each other in one entry.
-/

namespace SmaliView

open Text (cut)

/-- A line that a reader of Java source skips. -/
def IsComment (line : List Char) : Prop :=
  ['/', '/'] <+: line

instance (line : List Char) : Decidable (IsComment line) :=
  inferInstanceAs (Decidable (_ <+: _))

/-- Every line of the text is a comment. -/
def AllComment (text : String) : Prop :=
  ∀ line ∈ Text.lines text.toList, IsComment line

instance (text : String) : Decidable (AllComment text) :=
  inferInstanceAs (Decidable (∀ line ∈ _, IsComment line))

/-- What stands after the first line break of a text, line by line. -/
def laterLines (text : String) : List (List Char) :=
  (cut '\n' text.toList).tail

/-- The parts stand one behind the other in the text, with anything between them. -/
inductive InOrder : List String → List Char → Prop where
  | done (rest : List Char) : InOrder [] rest
  | next {part : String} {parts : List String} {rest : List Char} (front : List Char)
      (h : InOrder parts rest) : InOrder (part :: parts) (front ++ (part.toList ++ rest))

namespace InOrder

variable {parts parts' : List String} {text text' : List Char}

theorem after (front : List Char) (h : InOrder parts text) : InOrder parts (front ++ text) := by
  cases h with
  | done => exact .done _
  | next front' h =>
    rw [← List.append_assoc]
    exact .next _ h

/-- What is told in order in two texts is told in order in both. -/
theorem append (h : InOrder parts text) (h' : InOrder parts' text') :
    InOrder (parts ++ parts') (text ++ text') := by
  induction h with
  | done rest => exact h'.after rest
  | next front _ ih =>
    rw [List.append_assoc, List.append_assoc]
    exact .next front ih

/-- A part alone, with something before it and something after it. -/
theorem single (front : List Char) (part : String) (rest : List Char) :
    InOrder [part] (front ++ (part.toList ++ rest)) :=
  .next front (.done rest)

/-- What is told in order of each member is told in order of all. -/
theorem flatMap {α : Type} {f : α → List String} {g : α → List Char} (as : List α)
    (h : ∀ a, InOrder (f a) (g a)) : InOrder (as.flatMap f) (as.flatMap g) := by
  induction as with
  | nil => exact .done []
  | cons a as ih => exact (h a).append ih

end InOrder

/-! ## Lines -/

/-- A lead on one line adds no later lines. -/
theorem laterLines_append {lead : String} (h : '\n' ∉ lead.toList) (text : String) :
    laterLines (lead ++ text) = laterLines text := by
  rw [laterLines, laterLines, String.toList_append, Text.cut_lead h]
  cases cut '\n' text.toList <;> rfl

theorem laterLines_of_not_mem {text : String} (h : '\n' ∉ text.toList) : laterLines text = [] := by
  rw [laterLines, Text.cut_of_not_mem h]
  rfl

/-- A carriage return that belongs to the line end is none of the two characters. -/
theorem isComment_shortened (line : List Char) :
    IsComment (if line.getLast? = some '\r' then line.dropLast else line) ↔ IsComment line := by
  split
  · next hlast =>
    obtain ⟨front, rfl⟩ := List.getLast?_eq_some_iff.mp hlast
    rw [List.dropLast_concat, IsComment, IsComment]
    constructor
    · intro h
      exact h.trans (List.prefix_append _ _)
    · intro h
      rcases List.prefix_concat_iff.mp h with heq | h
      · -- The line would end in a slash.
        have hend := congrArg List.getLast? heq
        rw [List.getLast?_concat] at hend
        exact absurd hend (by decide)
      · exact h
  · exact Iff.rfl

/-- An entry is a comment on its first line, and on the others if the text in it makes them so. -/
theorem forall_isComment_entry (lead : String) (hopen : IsComment lead.toList)
    (hline : '\n' ∉ lead.toList) (text : String) :
    (∀ line ∈ cut '\n' (lead ++ text).toList, IsComment line) ↔
      ∀ line ∈ laterLines text, IsComment line := by
  obtain ⟨first, rest, hcut⟩ := List.exists_cons_of_ne_nil (Text.cut_ne_nil '\n' text.toList)
  have hlater : laterLines text = rest := by rw [laterLines, hcut, List.tail_cons]
  have hpieces : cut '\n' (lead ++ text).toList = (lead.toList ++ first) :: rest := by
    rw [String.toList_append, Text.cut_lead hline, hcut]
    rfl
  rw [hpieces, hlater, List.forall_mem_cons]
  exact and_iff_right (hopen.trans (List.prefix_append _ _))

/-! ## What programs say -/

namespace ProgramOutput

/-- What the program said, stream by stream. -/
def said (o : ProgramOutput) : List String :=
  [Text.trimmed o.stderr, Text.trimmed o.stdout].filter (!·.isEmpty)

theorem newline_not_mem_nat (n : Nat) : '\n' ∉ (toString n).toList := by
  intro h
  have hdigits : (toString n).toList = Nat.toDigits 10 n := by simp
  rw [hdigits] at h
  exact absurd (Nat.isDigit_of_mem_toDigits (by decide) (by decide) h) (by decide)

theorem newline_not_mem_ending (o : ProgramOutput) : '\n' ∉ o.ending.toList := by
  rw [ending]
  cases o.status with
  | none => decide
  | some code =>
    rw [String.toList_append, List.mem_append, not_or]
    refine ⟨by decide, ?_⟩
    cases code with
    | ofNat n => exact newline_not_mem_nat n
    | negSucc n =>
      show '\n' ∉ ("-" ++ toString (n + 1)).toList
      rw [String.toList_append, List.mem_append, not_or]
      exact ⟨by decide, newline_not_mem_nat (n + 1)⟩

/-- The lines of the streams stand below each other, those of the errors first. -/
theorem laterLines_diagnostics (o : ProgramOutput) :
    laterLines o.diagnostics = (o.said.flatMap fun part => cut '\n' part.toList).tail := by
  rw [diagnostics, ← said]
  -- Each stream is said as one part at most.
  have hsaid : o.said = [] ∨ (∃ part, o.said = [part]) ∨ ∃ first second, o.said = [first, second] := by
    have hlength : o.said.length ≤ 2 := List.length_filter_le _ _
    match o.said, hlength with
    | [], _ => exact Or.inl rfl
    | [part], _ => exact Or.inr (Or.inl ⟨part, rfl⟩)
    | [first, second], _ => exact Or.inr (Or.inr ⟨first, second, rfl⟩)
  rcases hsaid with h | ⟨part, h⟩ | ⟨first, second, h⟩
  · rw [h]
    exact laterLines_of_not_mem o.newline_not_mem_ending
  · rw [h]
    simp [laterLines]
  · rw [h]
    have hjoin : ("\n".intercalate [first, second]).toList =
        first.toList ++ '\n' :: second.toList := by
      simp
    show laterLines ("\n".intercalate [first, second]) = _
    rw [laterLines, hjoin, Text.cut_append_sep]
    simp

end ProgramOutput

/-! ## The rendering -/

namespace Explanation

variable {e : Explanation}

def texts (e : Explanation) : List String :=
  e.summary :: (e.attempts.map (·.error.message) ++ e.searched.map Path.text ++ e.hints)

/-- What a reader is told, in order. -/
def told (e : Explanation) : List String :=
  e.summary :: (e.attempts.flatMap (fun a => [a.stage.label, a.error.message])
    ++ e.searched.map Path.text ++ e.hints)

/-- A placeholder is its entries, each with a line feed. -/
theorem toList_render (e : Explanation) :
    e.render.toList = (e.entries.map String.toList).flatMap (· ++ ['\n']) := by
  simp [render, String.toList_join, List.flatMap_map]

/-- The lines of the rendering are those of its entries. -/
theorem allComment_render (e : Explanation) :
    AllComment e.render ↔
      ∀ entry ∈ e.entries, ∀ line ∈ cut '\n' entry.toList, IsComment line := by
  -- Every entry is closed by a line break, so the lines are those of the entries.
  have hlines := Text.lines_of_closed
    (Text.cut_flatMap_closed '\n' (e.entries.map String.toList))
  rw [AllComment, toList_render, hlines, List.forall_mem_map, List.flatMap_map]
  simp only [isComment_shortened, List.mem_flatMap]
  exact ⟨fun h entry hentry line hline => h line ⟨entry, hentry, hline⟩,
    fun h line ⟨entry, hentry, hline⟩ => h entry hentry line hline⟩

/-- A titled list is a comment if its items are. -/
theorem forall_isComment_block {title : String} (htitle : '\n' ∉ title.toList)
    (items : List String) :
    (∀ entry ∈ block title items, ∀ line ∈ cut '\n' entry.toList, IsComment line) ↔
      ∀ item ∈ items, ∀ line ∈ laterLines item, IsComment line := by
  -- What the program writes itself holds no line break.
  have hheading : ∀ line ∈ cut '\n' ("// " ++ title ++ ":").toList, IsComment line := by
    rw [String.append_assoc, forall_isComment_entry "// " (by decide) (by decide)]
    have hnone : '\n' ∉ (title ++ ":").toList := by
      rw [String.toList_append, List.mem_append, not_or]
      exact ⟨htitle, by decide⟩
    simp [laterLines_of_not_mem hnone]
  have hrule : ∀ line ∈ cut '\n' "//".toList, IsComment line := by decide
  have hitem := forall_isComment_entry "//   - " (by decide) (by decide)
  cases items with
  | nil => simp [block]
  | cons item items =>
    rw [block, List.isEmpty_cons, if_neg Bool.false_ne_true, List.forall_mem_append,
      List.forall_mem_map, List.forall_mem_cons, List.forall_mem_singleton]
    simp only [hitem]
    exact and_iff_right ⟨hrule, hheading⟩

/-- The later lines of an attempt are those of its message. -/
theorem laterLines_item (a : Attempt) : laterLines (item a) = laterLines a.error.message := by
  have hlabel : '\n' ∉ (a.stage.label ++ ": ").toList := by cases a.stage <;> decide
  rw [item, laterLines_append hlabel]

/-- A block tells its items in order. -/
theorem inOrder_block (title : String) (items : List String) :
    InOrder items ((block title items).flatMap fun entry => entry.toList ++ ['\n']) := by
  cases items with
  | nil => exact .done _
  | cons item items =>
    rw [block, List.isEmpty_cons, if_neg Bool.false_ne_true, List.flatMap_append, List.flatMap_map]
    refine InOrder.after _ ?_
    have hone (item : String) : InOrder [item] (("//   - " ++ item).toList ++ ['\n']) := by
      rw [String.toList_append, List.append_assoc]
      exact .single _ item _
    have hitems := InOrder.flatMap (item :: items) hone
    rwa [List.flatMap_singleton'] at hitems

/-- A placeholder tells everything in order. -/
theorem inOrder_render (e : Explanation) : InOrder e.told e.render.toList := by
  have hsummary : InOrder [e.summary] (("// " ++ e.summary).toList ++ ['\n']) := by
    rw [String.toList_append, List.append_assoc]
    exact .single _ e.summary _
  -- An attempt tells two things, one behind the other on its line.
  have hone (a : Attempt) :
      InOrder [a.stage.label, a.error.message] (("//   - " ++ item a).toList ++ ['\n']) := by
    rw [item, String.toList_append, String.toList_append, String.toList_append, List.append_assoc,
      List.append_assoc, List.append_assoc]
    exact .next _ (.single _ _ _)
  have hattempts : InOrder (e.attempts.flatMap fun a => [a.stage.label, a.error.message])
      ((block "Tried" (e.attempts.map item)).flatMap fun entry => entry.toList ++ ['\n']) := by
    cases hattempts : e.attempts with
    | nil => exact .done _
    | cons a rest =>
      rw [block, List.map_cons, List.isEmpty_cons, if_neg Bool.false_ne_true, List.flatMap_append,
        List.flatMap_map, ← List.map_cons, List.flatMap_map]
      exact (InOrder.flatMap (a :: rest) hone).after _
  have htold := (hsummary.append ((hattempts.append (inOrder_block "Searched"
    (e.searched.map Path.text))).append (inOrder_block "Check" e.hints)))
  rw [toList_render, entries, List.flatMap_map]
  simpa [told, List.flatMap_append] using htold

/-- **The rendering is all comment exactly if each text in it comments its own later lines.** The
first line of a text always stands in a comment; a line break in the summary, in the message of an
attempt, in a path or in a hint ends the comment. The message of a failed tool has such breaks
wherever a stream has, and one between its two streams. All that is told stands in the rendering, in
order. -/
theorem render_is_comment_iff (e : Explanation) :
    (AllComment e.render ↔ ∀ text ∈ e.texts, ∀ line ∈ laterLines text, IsComment line) ∧
      (∀ o : ProgramOutput,
        laterLines (StageError.assembleFailed o.diagnostics).message =
            (o.said.flatMap fun part => cut '\n' part.toList).tail ∧
          laterLines (StageError.decompileFailed o.diagnostics).message =
            (o.said.flatMap fun part => cut '\n' part.toList).tail) ∧
      InOrder e.told e.render.toList := by
  have hassemble : '\n' ∉ "Assembler failed: ".toList := by decide
  have hdecompile : '\n' ∉ "Decompiler failed: ".toList := by decide
  refine ⟨?_, fun o => ⟨?_, ?_⟩, e.inOrder_render⟩
  · rw [allComment_render, entries, List.forall_mem_append, List.forall_mem_append,
      List.forall_mem_append, List.forall_mem_singleton,
      forall_isComment_entry "// " (by decide) (by decide), forall_isComment_block (by decide),
      forall_isComment_block (by decide), forall_isComment_block (by decide), texts,
      List.forall_mem_cons, List.forall_mem_append, List.forall_mem_append, List.forall_mem_map,
      List.forall_mem_map, List.forall_mem_map]
    simp only [laterLines_item, and_assoc]
  · exact (laterLines_append hassemble o.diagnostics).trans o.laterLines_diagnostics
  · exact (laterLines_append hdecompile o.diagnostics).trans o.laterLines_diagnostics

/-- What an assembler has printed to its second stream stands in the rendering as no comment. -/
theorem second_stream_is_no_comment :
    ¬ AllComment (Explanation.render
      { summary := "Unable to convert A.smali to Java"
        attempts := [⟨.realtime, .assembleFailed (ProgramOutput.diagnostics
          { success := false, status := some 1, stdout := "progress",
            stderr := "error: bad opcode" })⟩] }) := by
  intro h
  have hlater := (render_is_comment_iff _).1.mp h
  revert hlater
  decide +kernel

end Explanation

end SmaliView
