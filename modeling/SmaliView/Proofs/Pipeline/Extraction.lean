import SmaliView.Proofs.Files.Storing
import SmaliView.Proofs.Pipeline.AlikeWork
import SmaliView.Proofs.Pipeline.ClearCheck
import SmaliView.Proofs.Pipeline.SourceDirectories

/-!
# Java source out of a decompiled tree

A decompiler stores the Java files of its classes below a directory, each at its own path. The Java
source of a class is read from the file with its path, if there is one. If not, it is read from the
file of a class of the package `sources`, though that one has another path.
-/

namespace SmaliView

open Text (Bytes)
open FileTree (lastAt)

variable {c : ClassName} {name : List Char}

/-- The files that are written for the Java source of some classes. -/
def javaFiles (outputs : List (ClassName × Bytes)) : List (Path × Bytes) :=
  outputs.map fun o => (o.1.javaPath, o.2)

/-- What was stored last at a path was stored as one of the files. -/
theorem FileTree.exists_of_lastAt {files : List (Path × Bytes)} {q : Path} {content : Bytes}
    (h : lastAt files q = some content) :
    ∃ o ∈ files, o.1.same q = true ∧ o.2 = content := by
  obtain ⟨o, ho, hcontent⟩ := Option.map_eq_some_iff.mp h
  have hsame : o.1.same q = true := by simpa using List.find?_some ho
  exact ⟨o, List.mem_reverse.mp (List.mem_of_find?_eq_some ho), hsame, hcontent⟩

/-- Nothing was stored at a path if no file has it. -/
theorem FileTree.lastAt_eq_none_iff {files : List (Path × Bytes)} {q : Path} :
    lastAt files q = none ↔ ∀ o ∈ files, o.1.same q = false := by
  rw [lastAt, Option.map_eq_none_iff, List.find?_eq_none]
  simp

theorem mem_javaFiles {outputs : List (ClassName × Bytes)} {file : Path × Bytes} :
    file ∈ javaFiles outputs ↔ ∃ o ∈ outputs, (o.1.javaPath, o.2) = file :=
  List.mem_map

/-- The path of the Java file of a class goes down by names, and so does the same path below another
directory. -/
theorem ClassName.IsPlain.exists_names (hc : c.IsPlain) (hsimple : c.simple ≠ "") :
    ∃ names, names ≠ [] ∧ (∀ r ∈ "sources" :: names, Path.IsName r) ∧
      c.javaPath = Path.ofNames names ∧
      (Path.mk "sources").join c.javaPath = Path.ofNames ("sources" :: names) := by
  have hne : Path.javaNames c.fileNames ≠ [] := by
    rw [fileNames_eq hc.nonempty, if_neg hsimple, Path.javaNames_concat]
    simp
  have hnames : ∀ r ∈ "sources" :: Path.javaNames c.fileNames, Path.IsName r := by
    intro r hr
    rcases List.mem_cons.mp hr with rfl | hr
    · exact ⟨by decide, by decide, by decide⟩
    · exact hc.isName_of_mem_javaNames hr
  refine ⟨_, hne, hnames, hc.javaPath_eq, ?_⟩
  rw [hc.javaPath_eq, Path.join_ofNames hne hnames]

/-- The path of the Java file of a plain class leads down only. -/
theorem ClassName.IsPlain.descends (hc : c.IsPlain) (hsimple : c.simple ≠ "") :
    c.javaPath.Descends := by
  obtain ⟨names, hne, hnames, hpath, -⟩ := hc.exists_names hsimple
  exact ⟨names, hne, fun r hr => hnames r (List.mem_cons_of_mem _ hr), hpath⟩

/-! ## Extraction -/

namespace Pipeline

section

variable {files : FileTree} {tree : Path} {content : Bytes}

/-- The first entry that is a file is read. -/
theorem extract_of_find? {q : Path} (hfind : (entriesIn tree c).find? files.isFile = some q)
    (hread : files.read q = .ok content) :
    extract files tree c = .ok (Text.decodeLossy content) := by
  unfold extract
  rw [hfind]
  dsimp only
  rw [hread]
  rfl

/-- A file at the path of the class itself is read. -/
theorem extract_of_own (hfile : files.isFile (tree.join c.javaPath) = true)
    (hread : files.read (tree.join c.javaPath) = .ok content) :
    extract files tree c = .ok (Text.decodeLossy content) := by
  refine extract_of_find? ?_ hread
  rw [entriesIn_eq, List.find?_cons_of_pos hfile]

variable (hown : files.isFile (tree.join c.javaPath) = false)
include hown

/-- Without a file of its own the class is read from below `sources`. -/
theorem extract_of_nested
    (hfile : files.isFile (tree.join ((Path.mk "sources").join c.javaPath)) = true)
    (hread : files.read (tree.join ((Path.mk "sources").join c.javaPath)) = .ok content) :
    extract files tree c = .ok (Text.decodeLossy content) := by
  refine extract_of_find? ?_ hread
  rw [entriesIn_eq, List.find?_cons_of_neg (Bool.eq_false_iff.mp hown),
    List.find?_cons_of_pos hfile]

/-- Without either file the decompiler has failed, and the message names the own one. -/
theorem extract_of_none
    (hnested : files.isFile (tree.join ((Path.mk "sources").join c.javaPath)) = false) :
    extract files tree c = .error (.error (.decompileFailed
      (c.javaPath.text ++ " is missing from the decompiler output"))) := by
  have hfind : (entriesIn tree c).find? files.isFile = none := by
    rw [entriesIn_eq, List.find?_cons_of_neg (Bool.eq_false_iff.mp hown),
      List.find?_cons_of_neg (Bool.eq_false_iff.mp hnested), List.find?_nil]
  unfold extract
  rw [hfind]

end

/-- Below a directory in which files are stored, the Java source of a class is read from its own
file, or else from that of the same path below `sources`. -/
theorem extract_of_holds {stored : Path → Option Bytes} {k : Location}
    (h : FileTree.Holds files tree k stored) (hplain : c.IsPlain) (hsimple : c.simple ≠ "") :
    extract files tree c =
      match (stored c.javaPath).or (stored ((Path.mk "sources").join c.javaPath)) with
      | some content => .ok (Text.decodeLossy content)
      | none => .error (.error (.decompileFailed
          (c.javaPath.text ++ " is missing from the decompiler output"))) := by
  obtain ⟨names, hne, hnames, hown, hnested⟩ := hplain.exists_names hsimple
  have hfirst := h.reads hne fun r hr => hnames r (List.mem_cons_of_mem _ hr)
  have hsecond := h.reads (List.cons_ne_nil "sources" names) hnames
  rw [← hown] at hfirst
  rw [← hnested] at hsecond
  -- The two places are tried in turn.
  cases hstored : stored c.javaPath with
  | some content =>
    rw [hstored] at hfirst
    exact extract_of_own hfirst.1 hfirst.2
  | none =>
    rw [hstored] at hfirst
    rw [Option.none_or]
    cases hbelow : stored ((Path.mk "sources").join c.javaPath) with
    | some content =>
      rw [hbelow] at hsecond
      exact extract_of_nested hfirst hsecond.1 hsecond.2
    | none =>
      rw [hbelow] at hsecond
      exact extract_of_none hfirst hsecond

/-- **The Java source of a class is read from its own file, or else from that of a class of the
package `sources`.** The files of some classes are stored below an empty directory. What is read
from there for a class is the last file with its path. If there is none, it is the last file with
that path below `sources`, which is the file of another class, and an error only if there is none of
these either. -/
theorem extraction_reads_own_file_first (hc : ClassName.ofBinary? name = some c)
    (hdotless : c.Undotted) (hsimple : c.simple ≠ "") {files files' : FileTree} {tree : Path}
    {k : Location} (hground : files.Grounded) (hlocated : files.locate tree = .ok k)
    (hdir : files.entryAt? k = some .directory)
    (hempty : ∀ name rest, files.entryAt? (k ++ name :: rest) = none)
    {outputs : List (ClassName × Bytes)} (hdown : ∀ o ∈ outputs, o.1.javaPath.Descends)
    (hstored : (javaFiles outputs).foldlM (FileTree.store tree) files = .ok files') :
    (extract files' tree c =
      match (lastAt (javaFiles outputs) c.javaPath).or
        (lastAt (javaFiles outputs) ((Path.mk "sources").join c.javaPath)) with
      | some content => .ok (Text.decodeLossy content)
      | none => .error (.error (.decompileFailed
          (c.javaPath.text ++ " is missing from the decompiler output")))) ∧
      ∀ text, extract files' tree c = .ok text → ∃ o ∈ outputs, Text.decodeLossy o.2 = text ∧
        (o.1.javaPath.same c.javaPath = true ∨
          o.1.javaPath.same ((Path.mk "sources").join c.javaPath) = true ∧
            ∀ o' ∈ outputs, o'.1.javaPath.same c.javaPath = false) := by
  have hplain : c.IsPlain := ⟨ClassName.not_mem_segments_of_ofBinary? hc, hdotless⟩
  have hdescends : ∀ file ∈ javaFiles outputs, file.1.Descends := by
    intro file hfile
    obtain ⟨o, ho, rfl⟩ := mem_javaFiles.mp hfile
    dsimp only
    exact hdown o ho
  have hholds := (FileTree.holds_of_empty hground hlocated hdir hempty).storeAll (fun _ => rfl)
    hdescends hstored
  have hextract := extract_of_holds hholds hplain hsimple
  refine ⟨hextract, fun text htext => ?_⟩
  rw [hextract] at htext
  cases hlast : lastAt (javaFiles outputs) c.javaPath with
  | some content =>
    rw [hlast, Option.some_or] at htext
    obtain ⟨file, hfile, hsame, rfl⟩ := FileTree.exists_of_lastAt hlast
    obtain ⟨o, ho, rfl⟩ := mem_javaFiles.mp hfile
    dsimp only at hsame htext
    exact ⟨o, ho, Except.ok.inj htext, Or.inl hsame⟩
  | none =>
    -- No output has the path of the class: what is read is that of another class.
    have hother (o : ClassName × Bytes) (ho : o ∈ outputs) :
        o.1.javaPath.same c.javaPath = false := by
      have hsame := FileTree.lastAt_eq_none_iff.mp hlast _ (mem_javaFiles.mpr ⟨o, ho, rfl⟩)
      dsimp only at hsame
      exact hsame
    rw [hlast, Option.none_or] at htext
    cases hlast' : lastAt (javaFiles outputs) ((Path.mk "sources").join c.javaPath) with
    | none =>
      rw [hlast'] at htext
      cases htext
    | some content =>
      rw [hlast'] at htext
      obtain ⟨file, hfile, hsame, rfl⟩ := FileTree.exists_of_lastAt hlast'
      obtain ⟨o, ho, rfl⟩ := mem_javaFiles.mp hfile
      dsimp only at hsame htext
      exact ⟨o, ho, Except.ok.inj htext, Or.inr ⟨hsame, hother⟩⟩

def emptyOutput : FileTree where
  entries := ⟨[(["out"], .directory), (["out", "sources"], .directory)]⟩

def nestedOutput : List (ClassName × Bytes) :=
  [(⟨"sources/com/A"⟩, Text.bytes "class A {}")]

/-- The file of one class is read as the Java source of another, which is not there. -/
theorem nested_class_is_read_for_another :
    ∃ files', (javaFiles nestedOutput).foldlM (FileTree.store ⟨"/out/sources"⟩) emptyOutput =
        .ok files' ∧
      (ClassName.mk "sources/com/A").javaPath.same (ClassName.mk "com/A").javaPath = false ∧
      extract files' ⟨"/out/sources"⟩ ⟨"com/A"⟩ = .ok "class A {}" := by
  obtain ⟨files', hstored⟩ : ∃ files',
      (javaFiles nestedOutput).foldlM (FileTree.store ⟨"/out/sources"⟩) emptyOutput =
        .ok files' := by
    have hok : ((javaFiles nestedOutput).foldlM (FileTree.store ⟨"/out/sources"⟩)
        emptyOutput).toBool = true := by
      decide +kernel
    cases h : (javaFiles nestedOutput).foldlM (FileTree.store ⟨"/out/sources"⟩) emptyOutput with
    | error e =>
      rw [h] at hok
      cases hok
    | ok files' => exact ⟨files', rfl⟩
  have hclass : ClassName.ofBinary? "com/A".toList = some ⟨"com/A"⟩ := by decide +kernel
  have hground : emptyOutput.Grounded :=
    ⟨FileTree.sound_of_isSound (by decide +kernel), by decide +kernel⟩
  have hempty (name : String) (rest : Location) :
      emptyOutput.entryAt? (["out", "sources"] ++ name :: rest) = none := by
    rw [FileTree.entryAt?, if_neg (by simp)]
    rfl
  have hdown : ∀ o ∈ nestedOutput, o.1.javaPath.Descends := by
    intro o ho
    obtain rfl := List.mem_singleton.mp ho
    exact ClassName.IsPlain.descends ⟨by decide +kernel, by decide +kernel⟩ (by decide +kernel)
  have hlocated : emptyOutput.locate ⟨"/out/sources"⟩ = .ok ["out", "sources"] := by decide +kernel
  obtain ⟨hextract, -⟩ := extraction_reads_own_file_first hclass (by decide +kernel)
    (by decide +kernel) hground hlocated (by decide +kernel) hempty hdown hstored
  have hlast : (FileTree.lastAt (javaFiles nestedOutput) (ClassName.mk "com/A").javaPath).or
      (FileTree.lastAt (javaFiles nestedOutput)
        ((Path.mk "sources").join (ClassName.mk "com/A").javaPath)) =
        some (Text.bytes "class A {}") := by
    decide +kernel
  have hdecode : Text.decodeLossy (Text.bytes "class A {}") = "class A {}" := by decide +kernel
  rw [hlast] at hextract
  exact ⟨files', hstored, by decide +kernel, hextract.trans (congrArg Except.ok hdecode)⟩

end Pipeline

end SmaliView
