import SmaliView.Proofs.Classes.JavaFile
import SmaliView.Proofs.Files.Descent
import SmaliView.Proofs.Pipeline.Candidates
import SmaliView.Proofs.Pipeline.Fallback

/-!
# Source directories

The Java source of a unit is looked for below the directories that hold Java source, and in a
decompiled tree. The name of its class may have a segment `..`, and then the search leads out of the
directory that it starts from; without one it stays below it.
-/

namespace SmaliView

/-! ## The path of the Java file -/

namespace ClassName

/-- No segment of the top-level class holds a separator. -/
theorem topNames_whole (c : ClassName) : ∀ r ∈ c.topSegments.map String.ofList, '/' ∉ r.toList := by
  intro r hr
  obtain ⟨segment, hsegment, rfl⟩ := List.mem_map.mp hr
  rw [String.toList_ofList]
  exact whole_of_mem_topSegments hsegment

/-- The path of a Java file is relative. -/
theorem rooted_javaPath (c : ClassName) : c.javaPath.rooted = false := by
  obtain ⟨hrooted, -⟩ := Path.inner_ofNames c.topNames_whole
  rw [javaPath]
  -- A path without a last name keeps its extension, and is left as it is.
  cases hname : (Path.ofNames (c.topSegments.map String.ofList)).fileName? with
  | none =>
    rw [Path.withExtension, hname]
    exact hrooted
  | some s => rw [(Path.inner_withExtension hname (by decide) (by decide)).1, hrooted]

/-- The path of the Java file leads up where a segment does. -/
theorem up_mem_javaPath (c : ClassName) :
    .up ∈ Path.inner c.javaPath.pieces ↔ ['.', '.'] ∈ c.topSegments := by
  have hsegments : .up ∈ Path.inner (Path.ofNames (c.topSegments.map String.ofList)).pieces ↔
      ['.', '.'] ∈ c.topSegments := by
    rw [(Path.inner_ofNames c.topNames_whole).2, Text.map_toList_ofList, Path.up_mem_inner]
  rw [← hsegments, javaPath]
  cases hname : (Path.ofNames (c.topSegments.map String.ofList)).fileName? with
  | none => rw [Path.withExtension, hname]
  | some s =>
    -- The last name alone is another one.
    have hlong : 1 < "java".toList.length := by decide
    obtain ⟨-, above, s', hold, hnew⟩ := Path.inner_withExtension hname hlong (by decide)
    rw [hold, hnew]
    simp

end ClassName

/-! ## Directories -/

/-- The directories beside the bytecode root that may hold its Java source. -/
def BytecodeRoot.siblings (root : BytecodeRoot) : List Path :=
  match root.dir.parent? with
  | none => []
  | some parent => root.siblingNames.map fun (name : String) => parent / name

/-- The directories that Java source is looked for in, in order. -/
def Layout.sourceRoots (layout : Layout) (probe : Probe) : List Path :=
  match probe.anchor with
  | none => []
  | some anchor =>
    (probe.root.map BytecodeRoot.siblings).getD [] ++
      (layout.searched anchor).flatMap fun dir =>
        sourceDirectories.map fun (name : String) => dir / name

/-- Java source is looked for at the same path below each directory. -/
theorem Layout.sources_eq (layout : Layout) {probe : Probe} {c : ClassName}
    (hc : probe.className = some c) :
    layout.sources probe = Path.dedup ((layout.sourceRoots probe).map (·.join c.javaPath)) := by
  rw [sources, sourceRoots, hc]
  cases probe.anchor with
  | none => rfl
  | some anchor =>
    refine congrArg Path.dedup ?_
    rw [List.map_append, List.map_flatMap]
    congr 1
    cases probe.root with
    | none => rfl
    | some root =>
      show besideRoot root c.javaPath = root.siblings.map _
      rw [besideRoot, BytecodeRoot.siblings]
      cases root.dir.parent? with
      | none => rfl
      | some parent => simp

namespace Pipeline

/-- The places in a decompiled tree are paths below it as well. -/
theorem entriesIn_eq (tree : Path) (c : ClassName) :
    entriesIn tree c = [tree.join c.javaPath, tree.join ((Path.mk "sources").join c.javaPath)] := by
  have hsources : (Path.mk "sources").rooted = false := rfl
  rw [← Path.join_assoc hsources c.rooted_javaPath]
  rfl

/-- **What is looked for below a directory stays below it, unless the name of the class leads up.**
All places where Java source is looked for are one path below several directories: below those that
hold Java source, and below a decompiled tree and its `sources`. They lie below these directories
exactly if the path returns to them. If no segment up to the top-level class is `..`, it does unless
it ends in no name at all, and every file that is read lies below the directory it was looked for
in. -/
theorem search_stays_below_unless_name_leads_up (layout : Layout) {probe : Probe} {c : ClassName}
    (hc : probe.className = some c) :
    layout.sources probe = Path.dedup ((layout.sourceRoots probe).map (·.join c.javaPath)) ∧
      (∀ tree, entriesIn tree c =
        [tree.join c.javaPath, tree.join ((Path.mk "sources").join c.javaPath)]) ∧
      (∀ dir : Path, dir.Under (dir.join c.javaPath) ↔ c.javaPath.Returns dir) ∧
      (∀ tree : Path, tree.Under (tree.join ((Path.mk "sources").join c.javaPath)) ↔
        ((Path.mk "sources").join c.javaPath).Returns tree) ∧
      (['.', '.'] ∉ c.topSegments →
        (∀ dir : Path,
          dir.Under (dir.join c.javaPath) ↔ c.javaPath.fileName?.isSome = true) ∧
        (∀ files q, (layout.sources probe).find? (isReadable files) = some q →
          ∃ dir ∈ layout.sourceRoots probe, q = dir.join c.javaPath ∧ dir.Under q) ∧
        ∀ (files : FileTree) tree e, (entriesIn tree c).find? files.isFile = some e → tree.Under e) := by
  have hjava := c.rooted_javaPath
  refine ⟨layout.sources_eq hc, fun tree => entriesIn_eq tree c, Path.under_join_iff hjava,
    Path.under_join_iff ((Path.rooted_join hjava _).trans rfl), fun hsegments => ?_⟩
  have hup := mt c.up_mem_javaPath.mp hsegments
  refine ⟨fun dir => Path.under_join_iff_of_not_up hjava hup, fun files q hq => ?_,
    fun files tree e he => ?_⟩
  · have hmem := List.mem_of_find?_eq_some hq
    rw [layout.sources_eq hc] at hmem
    obtain ⟨dir, hdir, rfl⟩ := List.mem_map.mp (Path.dedup_subset _ hmem)
    have hreadable := List.find?_some hq
    rw [isReadable, Bool.and_eq_true] at hreadable
    exact ⟨dir, hdir, rfl, Path.under_of_isFile hjava hup hreadable.1⟩
  · have hfile := List.find?_some he
    have hmem := List.mem_of_find?_eq_some he
    rw [entriesIn, List.mem_cons, List.mem_singleton] at hmem
    rcases hmem with heq | heq
    · rw [heq] at hfile ⊢
      exact Path.under_of_isFile hjava hup hfile
    · rw [heq] at hfile ⊢
      have hbelow : (tree / "sources").Under ((tree / "sources").join c.javaPath) :=
        Path.under_of_isFile hjava hup hfile
      exact hbelow.of_div ⟨by decide, by decide, by decide⟩

def besideTree : FileTree where
  entries := ⟨[(["u"], .directory), (["u", "sources"], .directory),
    (["secret.java"], .file (Text.bytes "text") ⟨0, 0⟩ {})]⟩

/-- A header whose class leads up has a file delivered that lies in no directory for Java source. -/
theorem header_leads_out_of_directories :
    (Probe.of ⟨"u/A.smali"⟩ (some ".class L../../secret;")).className = some ⟨"../../secret"⟩ ∧
      Path.mk "u/sources" ∈
        plain.layout.sourceRoots (Probe.of ⟨"u/A.smali"⟩ (some ".class L../../secret;")) ∧
      ¬ (Path.mk "u/sources").Under ((Path.mk "u/sources").join ⟨"../../secret.java"⟩) ∧
      ((plain.resolve ⟨"u/A.smali"⟩ (some ".class L../../secret;")).run toolless besideTree).1 =
        .outcome (.success ⟨"text", .existing,
          some ⟨⟨"u/sources/../../secret.java"⟩, some ⟨0, 0⟩, 4⟩⟩) := by
  have hclass : (Probe.of ⟨"u/A.smali"⟩ (some ".class L../../secret;")).className =
      some ⟨"../../secret"⟩ := by
    decide +kernel
  obtain ⟨-, -, hunder, -, -⟩ := search_stays_below_unless_name_leads_up plain.layout hclass
  refine ⟨hclass, by decide +kernel, fun h => ?_, by decide +kernel⟩
  have hpath : (ClassName.mk "../../secret").javaPath = ⟨"../../secret.java"⟩ := by decide +kernel
  rw [← hpath] at h
  obtain ⟨-, below, -, hnames⟩ := (hunder ⟨"u/sources"⟩).mp h
  -- The path goes two names up and one down, and this is not the way back.
  have hdown : (ClassName.mk "../../secret").javaPath.descent = ⟨false, 2, ["secret.java"]⟩ := by
    decide +kernel
  have hdir : (Path.mk "u/sources").descent = ⟨false, 0, ["u", "sources"]⟩ := by decide +kernel
  rw [hdown, hdir] at hnames
  simp at hnames

end Pipeline

end SmaliView
