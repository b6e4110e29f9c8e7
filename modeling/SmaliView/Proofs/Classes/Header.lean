import SmaliView.ClassName
import SmaliView.Proofs.Text.Words

/-!
# The header of a smali unit

The header of a unit is its first line whose first word is the directive, and the last word of this
line describes the class. `header_names_class` says which texts have a header that can be read, what
is read from it, and that nothing else in the text matters; a header that is written for a class name
is read back, whatever stands before, between and after its words.
-/

namespace SmaliView

open Text (cut joinWith words lines IsClosed IsBreak IsWord MadeOf)

namespace ClassName

variable {c : ClassName} {n line : List Char} {text : String}

/-- A sequence of segments, none of them empty, with `/` between each two. -/
def IsBinary (n : List Char) : Prop :=
  ∃ segments, segments ≠ [] ∧ (∀ s ∈ segments, s ≠ [] ∧ '/' ∉ s) ∧ n = joinWith '/' segments

/-- The description of the class with a binary name. -/
def descriptor (n : List Char) : List Char :=
  'L' :: n ++ [';']

/-- The first word of the line is the directive. -/
def Heads (line : List Char) : Prop :=
  ∃ ws, MadeOf (directive :: ws) line

/-- A name is one of a class if none of its segments is empty. -/
theorem isBinary_iff : IsBinary n ↔ [] ∉ cut '/' n := by
  constructor
  · rintro ⟨segments, hne, hsegments, rfl⟩
    rw [Text.cut_joinWith hne fun s hs => (hsegments s hs).2]
    exact fun hmem => (hsegments [] hmem).1 rfl
  · intro h
    refine ⟨cut '/' n, Text.cut_ne_nil _ _, fun s hs => ⟨?_, Text.not_mem_of_mem_cut hs⟩,
      (Text.joinWith_cut '/' n).symm⟩
    rintro rfl
    exact h hs

/-- A line is a header if its first word is the directive. -/
theorem heads_iff : Heads line ↔ (words line).head? = some directive := by
  rw [List.head?_eq_some_iff]
  exact exists_congr fun ws => Text.words_eq_iff.symm

instance (line : List Char) : Decidable (Heads line) :=
  decidable_of_iff _ heads_iff.symm

/-! ## Names and descriptors -/

/-- A name without blanks is read as it stands. -/
theorem ofBinary?_eq_some_iff (hsolid : ∀ ch ∈ n, Text.isBlank ch = false) :
    ofBinary? n = some c ↔ IsBinary n ∧ c = ⟨String.ofList n⟩ := by
  rw [ofBinary?, Text.trim_of_solid hsolid, isBinary_iff]
  split
  · next h => exact ⟨nofun, fun hn => absurd h hn.1⟩
  · next h => exact ⟨fun hc => ⟨h, (Option.some.inj hc).symm⟩, fun hc => congrArg some hc.2.symm⟩

/-- A descriptor is read as the name between its ends. -/
theorem ofDescriptor?_descriptor (n : List Char) : ofDescriptor? (descriptor n) = ofBinary? n := by
  rw [descriptor, List.cons_append, ofDescriptor?, List.getLast?_concat, if_pos rfl,
    List.dropLast_concat]

/-- Nothing else is a descriptor. -/
theorem exists_of_ofDescriptor? {d : List Char} (h : ofDescriptor? d = some c) :
    ∃ n, d = descriptor n := by
  rw [ofDescriptor?.eq_def] at h
  split at h
  · split at h
    · next rest hlast =>
      obtain ⟨n, rfl⟩ := List.getLast?_eq_some_iff.mp hlast
      exact ⟨n, rfl⟩
    · cases h
  · cases h

theorem solid_of_isWord_descriptor (h : IsWord (descriptor n)) :
    ∀ ch ∈ n, Text.isBlank ch = false :=
  fun ch hch => h.solid ch (List.mem_append_left _ (List.mem_cons_of_mem _ hch))

/-! ## The first line with the directive -/

def leads (ws : List (List Char)) : Bool :=
  ws.head? = some directive

/-- The header is the first line that leads with the directive; its last word is the descriptor. -/
theorem ofHeader?_eq (text : String) :
    ofHeader? text =
      ((((lines text.toList).map words).find? leads).bind List.getLast?).bind ofDescriptor? := rfl

theorem leads_words_iff : leads (words line) = true ↔ Heads line := by
  rw [leads, decide_eq_true_iff, heads_iff]

/-- The header that is found is the first line with the directive. -/
theorem find?_leads_eq_some_iff {ls : List (List Char)} {ws : List (List Char)} :
    (ls.map words).find? leads = some ws ↔
      ∃ before line after, ls = before ++ line :: after ∧ (∀ l ∈ before, ¬ Heads l) ∧
        Heads line ∧ MadeOf ws line := by
  rw [List.find?_eq_some_iff_append]
  constructor
  · rintro ⟨hleads, before, after, hmap, hbefore⟩
    -- What is found among the words of the lines is found at a line.
    obtain ⟨front, rest, rfl, rfl, hrest⟩ := List.map_eq_append_iff.mp hmap
    obtain ⟨line, after, rfl, rfl, -⟩ := List.map_eq_cons_iff.mp hrest
    refine ⟨front, line, after, rfl, fun l hl hheads => ?_, leads_words_iff.mp hleads,
      Text.words_eq_iff.mp rfl⟩
    have hnot := hbefore _ (List.mem_map_of_mem hl)
    rw [leads_words_iff.mpr hheads] at hnot
    cases hnot
  · rintro ⟨before, line, after, rfl, hbefore, hheads, hws⟩
    obtain rfl := hws.words_eq
    refine ⟨leads_words_iff.mpr hheads, before.map words, after.map words, by simp, fun ws hws => ?_⟩
    obtain ⟨l, hl, rfl⟩ := List.mem_map.mp hws
    rw [Bool.not_eq_true', Bool.eq_false_iff]
    exact fun hleads => hbefore l hl (leads_words_iff.mp hleads)

/-- Only the words of the header matter. -/
theorem ofHeader?_of_lines {before after : List (List Char)} {ws : List (List Char)}
    (hlines : lines text.toList = before ++ line :: after) (hbefore : ∀ l ∈ before, ¬ Heads l)
    (hheads : Heads line) (hws : MadeOf ws line) :
    ofHeader? text = ws.getLast?.bind ofDescriptor? := by
  have hfind := find?_leads_eq_some_iff.mpr ⟨before, line, after, hlines, hbefore, hheads, hws⟩
  rw [ofHeader?_eq, hfind]
  rfl

/-- The pieces between line feeds tell the header as well as the lines do. -/
theorem find?_leads_lines (cs : List Char) :
    ((lines cs).map words).find? leads = ((cut '\n' cs).map words).find? leads := by
  obtain ⟨last, hlast, hpieces⟩ := Text.map_words_lines cs
  -- The piece behind the last line has no words.
  have hnone : last.find? leads = none := by
    rw [List.find?_eq_none]
    intro ws hws
    rw [hlast ws hws]
    decide
  rw [hpieces, List.find?_append, hnone, Option.or_none]

/-- A text with one more line after others has the header of the others, or the line for it. -/
theorem ofHeader?_around {pre tail : List Char} {ws : List (List Char)} (hpre : IsClosed pre)
    (hnone : ∀ l ∈ lines pre, ¬ Heads l) (hline : '\n' ∉ line) (hheads : Heads line)
    (hws : MadeOf ws line) (htail : IsBreak tail) :
    ofHeader? (String.ofList (pre ++ line ++ tail)) = ws.getLast?.bind ofDescriptor? := by
  obtain ⟨before, after, hcut, hbefore⟩ := Text.cut_around hpre hline htail
  -- No piece before the line is a header, as no line there is.
  have hfree : (before.map words).find? leads = none := by
    have hpieces := find?_leads_lines pre
    rw [hbefore, List.map_append, List.find?_append] at hpieces
    have hlines : ((lines pre).map words).find? leads = none := by
      rw [List.find?_eq_none]
      intro ws hws hleads
      obtain ⟨l, hl, rfl⟩ := List.mem_map.mp hws
      exact hnone l hl (leads_words_iff.mp hleads)
    rw [hlines] at hpieces
    exact (Option.or_eq_none_iff.mp hpieces.symm).1
  have hfind : ((cut '\n' (pre ++ line ++ tail)).map words).find? leads = some ws := by
    rw [hcut, List.map_append, List.map_cons, List.find?_append, hfree, Option.none_or,
      List.find?_cons_of_pos (leads_words_iff.mpr hheads), hws.words_eq]
  rw [ofHeader?_eq, String.toList_ofList, find?_leads_lines, hfind]
  rfl

/-! ## What headers are read as -/

/-- The words of the line that is read, and what it is read as. -/
theorem ofHeader?_eq_some_iff : ofHeader? text = some c ↔
    ∃ before line after ws n, lines text.toList = before ++ line :: after ∧
      (∀ l ∈ before, ¬ Heads l) ∧ MadeOf (directive :: ws) line ∧
      (directive :: ws).getLast? = some (descriptor n) ∧ IsBinary n ∧ c.binary = String.ofList n := by
  constructor
  · intro h
    rw [ofHeader?_eq, Option.bind_eq_some_iff] at h
    obtain ⟨d, hd, hc⟩ := h
    obtain ⟨all, hfind, hlast⟩ := Option.bind_eq_some_iff.mp hd
    obtain ⟨before, line, after, hlines, hbefore, ⟨ws, hws⟩, hall⟩ :=
      find?_leads_eq_some_iff.mp hfind
    obtain rfl : directive :: ws = all := hws.words_eq.symm.trans hall.words_eq
    obtain ⟨n, rfl⟩ := exists_of_ofDescriptor? hc
    -- A word has no blanks, so that its name is read as it stands.
    have hsolid := solid_of_isWord_descriptor (hws.isWord (List.mem_of_getLast? hlast))
    rw [ofDescriptor?_descriptor, ofBinary?_eq_some_iff hsolid] at hc
    exact ⟨before, line, after, ws, n, hlines, hbefore, hws, hlast, hc.1, by rw [hc.2]⟩
  · rintro ⟨before, line, after, ws, n, hlines, hbefore, hws, hlast, hn, hc⟩
    have hsolid := solid_of_isWord_descriptor (hws.isWord (List.mem_of_getLast? hlast))
    rw [ofHeader?_of_lines hlines hbefore ⟨ws, hws⟩ hws, hlast, Option.bind_some,
      ofDescriptor?_descriptor, ofBinary?_eq_some_iff hsolid]
    exact ⟨hn, congrArg ClassName.mk hc⟩

/-- **The header of a unit names its class** if the last word of the first line that starts with the
directive is a descriptor, and only then. Nothing but this line matters. What is written as a header
for a name without blanks is read as this name, whatever words stand before the descriptor, as long
as no line before it starts with the directive. -/
theorem header_names_class :
    (∀ (text : String) (c : ClassName), ofHeader? text = some c ↔
      ∃ before line after ws n, lines text.toList = before ++ line :: after ∧
        (∀ l ∈ before, ¬ Heads l) ∧ MadeOf (directive :: ws) line ∧
        (directive :: ws).getLast? = some (descriptor n) ∧ IsBinary n ∧
        c.binary = String.ofList n) ∧
    (∀ (text text' : String) (line : List Char) (before before' after after' : List (List Char)),
      lines text.toList = before ++ line :: after →
      lines text'.toList = before' ++ line :: after' →
      (∀ l ∈ before ++ before', ¬ Heads l) → Heads line → ofHeader? text = ofHeader? text') ∧
    ∀ (pre line tail n : List Char) (flags : List (List Char)) (c : ClassName),
      IsClosed pre → (∀ l ∈ lines pre, ¬ Heads l) → '\n' ∉ line →
      MadeOf (directive :: flags ++ [descriptor n]) line → IsBreak tail →
      ofBinary? n = some c → (∀ ch ∈ n, Text.isBlank ch = false) →
        ofHeader? (String.ofList (pre ++ line ++ tail)) = some c ∧ c.binary = String.ofList n := by
  refine ⟨fun _ _ => ofHeader?_eq_some_iff, ?_, ?_⟩
  · intro text text' line before before' after after' hlines hlines' hnone hheads
    obtain ⟨ws, hws⟩ := hheads
    have hnone := List.forall_mem_append.mp hnone
    rw [ofHeader?_of_lines hlines hnone.1 ⟨ws, hws⟩ hws,
      ofHeader?_of_lines hlines' hnone.2 ⟨ws, hws⟩ hws]
  · intro pre line tail n flags c hpre hnone hline hws htail hc hsolid
    refine ⟨?_, ?_⟩
    · rw [ofHeader?_around hpre hnone hline ⟨_, hws⟩ hws htail, List.getLast?_concat,
        Option.bind_some, ofDescriptor?_descriptor, hc]
    · rw [((ofBinary?_eq_some_iff hsolid).mp hc).2]

/-- A word that only starts like the directive heads no line, and what follows the header does not
matter. -/
theorem header_after_near_miss_is_read :
    ofHeader? "# a.class\n.classy Lfoo;\n\t.class public  final Lcom/example/Main$1;\r\n.super" =
        some ⟨"com/example/Main$1"⟩ ∧
      ofHeader? "# a.class\n.classy Lfoo;\n\t.class public  final Lcom/example/Main$1;\r\n.super" =
        ofHeader? ".classy\n\t.class public  final Lcom/example/Main$1;\n.class L;" := by
  obtain ⟨-, hsame, hwritten⟩ := header_names_class
  have hread := (hwritten "# a.class\n.classy Lfoo;\n".toList
    "\t.class public  final Lcom/example/Main$1;\r".toList "\n.super".toList
    "com/example/Main$1".toList ["public".toList, "final".toList] ⟨"com/example/Main$1"⟩
    (Or.inr (by decide +kernel)) (by decide +kernel) (by decide +kernel)
    (Text.words_eq_iff.mp (by decide +kernel)) (Or.inr (by decide +kernel)) (by decide +kernel)
    (by simp [Text.isBlank])).1
  refine ⟨hread, hsame _ _ "\t.class public  final Lcom/example/Main$1;".toList
    ["# a.class".toList, ".classy Lfoo;".toList] [".classy".toList] [".super".toList]
    [".class L;".toList] (by decide +kernel) (by decide +kernel) (by decide +kernel)
    (by decide +kernel)⟩

end ClassName

end SmaliView
