import SmaliView.Pipeline.Stages
import Mathlib.Data.List.Basic

/-!
# Names at the end of paths

A name in the sense of `Path.IsName` is a piece of a path that leads one step down. `steps_div`
says what appending one does to the steps of a path. What a path ends in is such a name, and so are
the names of scratch directories, which differ with their numbers.
-/

namespace SmaliView

open Text (cut joinWith dropEnd)

namespace Path

/-- A piece that leads down: it is not idle, does not lead up and holds no separator. -/
structure IsName (s : String) : Prop where
  whole : '/' ∉ s.toList
  moves : idle s.toList = false
  descends : s.toList ≠ ['.', '.']

/-! ## Appending a name -/

/-- A name is not empty. -/
theorem IsName.ne_nil {s : String} (h : IsName s) : s.toList ≠ [] := by
  intro hnil
  have hmoves := h.moves
  rw [hnil] at hmoves
  cases hmoves

/-- A name starts no path at the root. -/
theorem IsName.not_rooted {s : String} (h : IsName s) : (Path.mk s).rooted = false := by
  obtain ⟨c, cs, hcs⟩ := List.exists_cons_of_ne_nil h.ne_nil
  have hc : c ≠ '/' := by
    intro hc
    exact h.whole (by simp [hcs, hc])
  simpa [rooted, hcs] using hc

/-- The text of a path is its body, after a separator if the path starts at the root. -/
theorem text_eq (p : Path) : p.text.toList = (if p.rooted then ['/'] else []) ++ p.body := by
  cases h : p.rooted with
  | false => simp [body, h]
  | true =>
    cases hp : p.text.toList with
    | nil => simp [rooted, hp] at h
    | cons c cs =>
      have hc : c = '/' := by simpa [rooted, hp] using h
      simp [body, h, hp, hc]

/-- A relative path is appended after a separator, unless there is one already or nothing stands
before. -/
theorem text_join {q : Path} (hq : q.rooted = false) (p : Path) :
    (p.join q).text.toList = p.text.toList ++
      (if p.text.toList = [] ∨ p.text.toList.getLast? = some '/' then [] else ['/']) ++
      q.text.toList := by
  have hempty : p.text.isEmpty = true ↔ p.text.toList = [] := by
    rw [String.isEmpty_iff, ← String.toList_inj]
    rfl
  rw [join, hq, if_neg Bool.false_ne_true]
  have hiff : (p.text.isEmpty || p.text.toList.getLast? == some '/') = true ↔
      p.text.toList = [] ∨ p.text.toList.getLast? = some '/' := by
    rw [Bool.or_eq_true, hempty, beq_iff_eq]
  by_cases h : p.text.toList = [] ∨ p.text.toList.getLast? = some '/'
  · rw [if_pos h, if_pos (hiff.mpr h), String.toList_append, List.append_nil]
  · rw [if_neg h, if_neg (fun h' => h (hiff.mp h')), String.toList_append, String.toList_append]
    rfl

/-- A name is appended behind one separator. -/
theorem text_div {s : String} (hs : IsName s) (p : Path) :
    (p / s).text.toList = p.text.toList ++
      (if p.text.toList = [] ∨ p.text.toList.getLast? = some '/' then [] else ['/']) ++
      s.toList :=
  text_join hs.not_rooted p

/-- Appending a relative path leaves the start of a path as it is. -/
theorem rooted_join {q : Path} (hq : q.rooted = false) (p : Path) :
    (p.join q).rooted = p.rooted := by
  have htext := text_join hq p
  cases hp : p.text.toList with
  | nil =>
    simp only [rooted, htext, hp] at hq ⊢
    simpa using hq
  | cons c cs => simp [rooted, htext, hp]

theorem rooted_div {s : String} (hs : IsName s) (p : Path) : (p / s).rooted = p.rooted :=
  rooted_join hs.not_rooted p

/-- A name becomes the last piece, in place of an empty one. -/
theorem pieces_div {s : String} (hs : IsName s) (p : Path) :
    ∃ ps, (p / s).pieces = ps ++ [s.toList] ∧ (p.pieces = ps ∨ p.pieces = ps ++ [[]]) := by
  have htext := text_div hs p
  rw [text_eq (p / s), rooted_div hs, text_eq p, List.append_assoc, List.append_assoc,
    List.append_cancel_left_eq] at htext
  have hcut : cut '/' s.toList = [s.toList] := Text.cut_of_not_mem hs.whole
  have hpieces : (p / s).pieces = cut '/' (p / s).body := by
    rw [pieces, if_neg]
    rw [htext]
    simp [hs.ne_nil]
  rcases List.eq_nil_or_concat p.body with hnil | ⟨b, c, hb⟩
  · -- Nothing stands in front of the name, or the root alone.
    refine ⟨[], ?_, Or.inl (by simp [pieces, hnil])⟩
    have hbody : (p / s).body = s.toList := by
      rw [htext, hnil]
      cases p.rooted <;> simp
    rw [hpieces, hbody, hcut, List.nil_append]
  · rw [List.concat_eq_append] at hb
    have hlast : ((if p.rooted then ['/'] else []) ++ p.body).getLast? = some c := by
      rw [hb, ← List.append_assoc, List.getLast?_concat]
    have hne : ¬ ((if p.rooted then ['/'] else []) ++ p.body) = [] := by
      intro h
      rw [h] at hlast
      cases hlast
    have hold : p.pieces = cut '/' p.body := by
      rw [pieces, if_neg (by simp [hb])]
    simp only [hne, hlast, false_or, Option.some.injEq] at htext
    by_cases hc : c = '/'
    · refine ⟨cut '/' b, ?_, Or.inr ?_⟩
      · rw [hpieces, htext, if_pos hc, List.nil_append, hb, hc, List.append_assoc,
          List.singleton_append, Text.cut_append_sep, hcut]
      · rw [hold, hb, hc, Text.cut_append_sep]
        rfl
    · refine ⟨cut '/' p.body, ?_, Or.inl hold⟩
      rw [hpieces, htext, if_neg hc, List.singleton_append, Text.cut_append_sep, hcut]

end Path

/-- Appending a name leads one step down, from where the path leads. -/
theorem FileTree.steps_div {s : String} (hs : Path.IsName s) (p : Path) :
    ∃ moves, steps (p / s) = moves ++ [.down s] ∧
      (steps p = moves ∨ steps p = moves ++ [.here]) := by
  obtain ⟨ps, hnew, hold⟩ := Path.pieces_div hs p
  let step (piece : List Char) : Step :=
    if Path.idle piece then .here
    else if piece = ['.', '.'] then .up
    else .down (String.ofList piece)
  have hstep : step s.toList = .down s := by
    simp [step, hs.moves, hs.descends]
  refine ⟨ps.map step, ?_, hold.imp ?_ ?_⟩
  · show (p / s).pieces.map step = _
    rw [hnew, List.map_append, List.map_singleton, hstep]
  · intro h
    show p.pieces.map step = _
    rw [h]
  · intro h
    show p.pieces.map step = _
    rw [h, List.map_append]
    rfl

/-! ## What paths end in -/

namespace Path

/-- A path that goes on by names from a directory, or ends there. -/
inductive Below (dir : Path) : Path → Prop where
  | here : Below dir dir
  | down {p : Path} {name : String} (h : Below dir p) (hname : IsName name) : Below dir (p / name)

/-- What lies below a path below a directory lies below the directory. -/
theorem Below.trans {dir p q : Path} (h : Below dir p) (h' : Below p q) : Below dir q := by
  induction h' with
  | here => exact h
  | down _ hname ih => exact .down ih hname

theorem Below.div {dir p : Path} {name : String} (hname : IsName name)
    (h : Below (dir / name) p) : Below dir p :=
  .trans (.down .here hname) h

/-- No piece of a path holds a separator. -/
theorem not_mem_of_mem_pieces {p : Path} {piece : List Char} (h : piece ∈ p.pieces) :
    '/' ∉ piece := by
  rw [pieces] at h
  split at h
  · cases h
  · exact Text.not_mem_of_mem_cut h

/-- A piece that is no idle one stands for a name if it does not lead up. -/
theorem isName_of_ofPiece {piece : List Char} {s : String} (hwhole : '/' ∉ piece)
    (hmoves : idle piece = false) (h : Component.ofPiece piece = .name s) : IsName s := by
  rw [Component.ofPiece] at h
  split at h
  · cases h
  · next hup =>
    obtain rfl := Component.name.inj h
    exact ⟨by simpa using hwhole, by simpa using hmoves, by simpa using hup⟩

theorem isName_of_mem_inner {ps : List (List Char)} {s : String}
    (hwhole : ∀ piece ∈ ps, '/' ∉ piece) (h : Component.name s ∈ inner ps) : IsName s := by
  obtain ⟨piece, hpiece, hs⟩ := List.mem_map.mp h
  obtain ⟨hmem, hmoves⟩ := List.mem_filter.mp hpiece
  exact isName_of_ofPiece (hwhole piece hmem) (by simpa using hmoves) hs

/-- A relative path that starts with an empty piece would start with a separator. -/
theorem ne_nil_of_pieces_eq_cons {p : Path} {piece : List Char} {rest : List (List Char)}
    (hrooted : p.rooted = false) (h : p.pieces = piece :: rest) : piece ≠ [] := by
  rintro rfl
  have hbody : cut '/' p.body = [] :: rest := by
    rw [pieces] at h
    split at h
    · cases h
    · exact h
  have hjoin := Text.joinWith_cut '/' p.body
  rw [hbody] at hjoin
  have htext : p.text.toList = p.body := by simp [text_eq p, hrooted]
  cases rest with
  | nil =>
    rw [joinWith] at hjoin
    simp [pieces, ← hjoin] at h
  | cons q rest =>
    rw [joinWith, List.nil_append] at hjoin
    simp [rooted, htext, ← hjoin] at hrooted

/-- Every name among the components of a path leads down. -/
theorem isName_of_mem_components {p : Path} {s : String} (h : Component.name s ∈ p.components) :
    IsName s := by
  have hwhole : ∀ piece ∈ p.pieces, '/' ∉ piece := fun _ => not_mem_of_mem_pieces
  rw [components] at h
  split at h
  · rcases List.mem_cons.mp h with h | h
    · cases h
    · exact isName_of_mem_inner hwhole h
  · next hrooted =>
    split at h
    · cases h
    · next piece rest hpieces =>
      have hne := ne_nil_of_pieces_eq_cons (Bool.eq_false_iff.mpr hrooted) hpieces
      rw [hpieces] at hwhole
      rcases List.mem_cons.mp h with h | h
      · rw [Component.ofFirst] at h
        split at h
        · cases h
        · next hdot =>
          have hmoves : idle piece = false := by simp [idle, hne, hdot]
          exact isName_of_ofPiece (hwhole piece (List.mem_cons_self ..)) hmoves h.symm
      · exact isName_of_mem_inner (fun q hq => hwhole q (List.mem_cons_of_mem _ hq)) h

/-- The file name of a path is a name. -/
theorem isName_of_fileName? {p : Path} {s : String} (h : p.fileName? = some s) : IsName s := by
  rw [fileName?] at h
  split at h
  · next s' hlast =>
    obtain rfl := Option.some.inj h
    exact isName_of_mem_components (List.mem_of_getLast? hlast)
  · cases h

end Path

/-! ## Names in scratch directories -/

namespace Pipeline

theorem isName_unitName (c : ClassName) : Path.IsName (unitName c) := by
  unfold unitName
  cases h : c.smaliPath.fileName? with
  | some s => exact Path.isName_of_fileName? h
  | none => exact ⟨by decide, by decide, by decide⟩

theorem toList_padded (width n : Nat) :
    (Instant.padded width n).toList =
      List.replicate (width - (toString n).length) '0' ++ Nat.toDigits 10 n := by
  simp [Instant.padded]

/-- Numbers with leading zeros can be read back. -/
theorem padded_injective (width : Nat) : Function.Injective (Instant.padded width) := by
  -- The zeros in front do not change the number that is read.
  have hread (n : Nat) : Nat.ofDigitChars 10 (Instant.padded width n).toList 0 = n := by
    rw [toList_padded, Nat.ofDigitChars_append, Nat.ofDigitChars_replicate_zero, Nat.mul_zero,
      Nat.ofDigitChars_ten_toDigits]
  intro m n h
  rw [← hread m, h, hread]

/-- The name of the scratch directory with a number. -/
def scratchName (n : Nat) : String := scratchStem ++ Instant.padded 6 n

/-- No two numbers give one name. -/
theorem scratchName_injective : Function.Injective scratchName := by
  intro m n h
  have hlist := congrArg String.toList h
  rw [scratchName, scratchName, String.toList_append, String.toList_append,
    List.append_cancel_left_eq] at hlist
  exact padded_injective 6 (String.toList_inj.mp hlist)

theorem isName_scratchName (n : Nat) : Path.IsName (scratchName n) := by
  have hlist : (scratchName n).toList = scratchStem.toList ++ (Instant.padded 6 n).toList :=
    String.toList_append ..
  have hdigits : ∀ c ∈ (Instant.padded 6 n).toList, c.isDigit = true := by
    intro c hc
    rw [toList_padded, List.mem_append] at hc
    rcases hc with hc | hc
    · obtain ⟨-, rfl⟩ := List.mem_replicate.mp hc
      rfl
    · exact Nat.isDigit_of_mem_toDigits (by decide) (by decide) hc
  have hstart : scratchStem.toList = 's' :: "mali2java-".toList := by decide
  refine ⟨?_, ?_, ?_⟩
  · rw [hlist, List.mem_append, not_or]
    exact ⟨by decide, fun h => absurd (hdigits _ h) (by decide)⟩
  · rw [hlist, hstart]
    rfl
  · rw [hlist, hstart]
    simp

end Pipeline

end SmaliView
