import SmaliView.Proofs.Files.Shelf
import SmaliView.Proofs.Pipeline.BenchRuns
import SmaliView.Proofs.Pipeline.ReadOnly
import SmaliView.Proofs.Text.Encoding
import SmaliView.Proofs.Tools.MockRuns

/-!
# The first stage with mock tools

The name of a class travels a long way through the first stage: into the name of the unit, by its
header into the container and out of it again, into the path of the Java file that the decompiler
writes and into the one that is read. With the mock tools it comes back as it was
(`mock_tools_round_trip`).
-/

namespace SmaliView

open Text (Bytes)
open SmaliView.Path (ofNames IsName)

variable {t u : FileTree} {dir file : Path} {k : Location} {stored : Path → Option Bytes}
  {c : ClassName} {outputs : List (ClassName × String)} {text java : String} {s : Scene}

/-- A file with a path can be created below a directory. -/
def FileTree.Takes (t : FileTree) (dir q : Path) : Prop :=
  ∃ content u, t.store dir (q, content) = .ok u

namespace Mock

open FileTree

/-- The names that lead from a scratch directory to the Java source of the mock decompiler. -/
def rootNames : List String := ["out", "sources"]

/-- Where the mock decompiler writes the Java source of a class, seen from the scratch directory. -/
def sourcePath (c : ClassName) : Path := (ofNames rootNames).join c.javaPath

theorem isName_rootNames : ∀ r ∈ rootNames, IsName r := by
  intro r hr
  simp only [rootNames, List.mem_cons, List.not_mem_nil, or_false] at hr
  rcases hr with rfl | rfl <;> exact ⟨by decide, by decide, by decide⟩

theorem isName_container : IsName "classes.dex" := ⟨by decide, by decide, by decide⟩

theorem undotted_rootNames : ∀ r ∈ rootNames, '.' ∉ r.toList := by decide

/-! ## Names that fit -/

/-- A name fits if a file can be created that goes by it. -/
theorem fits_of_takes {r : String} (h : Shelf t dir k stored) (hr : IsName r)
    (ht : t.Takes dir ⟨r⟩) : Fits dir [r] := by
  obtain ⟨content, u, hu⟩ := ht
  -- A single name is a path of one name.
  rw [show Path.mk r = ofNames [r] from (Path.empty_join hr.not_rooted).symm] at hu
  exact h.fits_of_store (by simp) (List.forall_mem_singleton.mpr hr) hu

section

variable (hc : c.IsPlain) (hsimple : c.simple ≠ "")
include hc hsimple

/-- The last name on the path of a Java file is the only one with a dot. -/
theorem exists_javaNames : ∃ names s, Path.javaNames c.fileNames = names ++ [s] ∧
    (∀ r ∈ rootNames ++ names, '.' ∉ r.toList) ∧ '.' ∈ s.toList := by
  have hfile : c.fileNames = c.packageNames ++ [c.simple] := by
    rw [ClassName.fileNames_eq hc.nonempty, if_neg hsimple]
  refine ⟨c.packageNames, c.simple ++ ".java", ?_, fun r hr => ?_, ?_⟩
  · rw [hc.javaNames_eq, hfile, List.dropLast_concat, List.getLast?_concat]
    rfl
  · rcases List.mem_append.mp hr with hr | hr
    · exact undotted_rootNames r hr
    · exact hc.dotless_of_mem_fileNames (hfile ▸ List.mem_append_left _ hr)
  · rw [String.toList_append]
    exact List.mem_append_right _ (by decide)

omit hsimple in
theorem isName_source : ∀ r ∈ rootNames ++ Path.javaNames c.fileNames, IsName r :=
  List.forall_mem_append.mpr ⟨isName_rootNames, fun _ => hc.isName_of_mem_javaNames⟩

/-- The Java file of a class goes down by the names of the class. -/
theorem sourcePath_eq : sourcePath c = ofNames (rootNames ++ Path.javaNames c.fileNames) := by
  obtain ⟨names, s, hjava, -, -⟩ := exists_javaNames hc hsimple
  rw [sourcePath, hc.javaPath_eq, Path.join_ofNames_eq_downBy (by simp [hjava])
    fun _ => hc.isName_of_mem_javaNames]
  exact (Path.downBy_append ..).symm

/-- Names that fit on the way to the Java file leave room for the file. -/
theorem fileFits_of_fits (hfits : Fits dir (rootNames ++ Path.javaNames c.fileNames)) :
    FileFits dir rootNames c.javaPath := by
  obtain ⟨names, s, hjava, hplain, hdot⟩ := exists_javaNames hc hsimple
  rw [hjava] at hfits
  exact ⟨names, s, by rw [hc.javaPath_eq, hjava], hfits, hplain, hdot⟩

/-- The Java file of a class can be created if its names fit. -/
theorem takes_sourcePath_iff (h : Shelf t dir k stored) :
    t.Takes dir (sourcePath c) ↔ Fits dir (rootNames ++ Path.javaNames c.fileNames) := by
  obtain ⟨names, s, hjava, hplain, hdot⟩ := exists_javaNames hc hsimple
  rw [sourcePath_eq hc hsimple]
  constructor
  · rintro ⟨content, u, hu⟩
    exact h.fits_of_store (by simp [hjava]) (isName_source hc) hu
  · intro hfits
    rw [hjava, ← List.append_assoc] at hfits ⊢
    obtain ⟨u, hu, -⟩ := h.exists_store (by simp [rootNames]) hfits hplain hdot []
    exact ⟨[], u, hu⟩

end

/-! ## The way through the tools -/

/-- The files of classes whose Java files fit. -/
theorem fileFits_of_mem_files (h : ∀ o ∈ outputs, FileFits dir rootNames o.1.javaPath) :
    ∀ file ∈ files outputs, FileFits dir rootNames file.1 := by
  intro file hfile
  obtain ⟨o, ho, rfl⟩ := mem_files.mp hfile
  dsimp only
  exact h o ho

/-- The mock decompiler writes the Java source of a class below the scratch directory. -/
theorem exists_decompiled {content : Bytes} (h : Shelf s.tree dir k stored)
    (hfresh : s.token.fired = false) (hc : c.IsPlain) (hsimple : c.simple ≠ "")
    (hcontainer : stored (ofNames ["classes.dex"]) = some content)
    (hempty : ∀ names, names ≠ [] → (∀ r ∈ names, IsName r) →
      stored (ofNames (rootNames ++ names)) = none)
    (hfits : ∀ o ∈ written outputs content (some c), FileFits dir rootNames o.1.javaPath)
    (hlast : lastAt (files (written outputs content (some c))) c.javaPath =
      some (Text.bytes java)) :
    ∃ w, ((decompiler .working outputs).decompile
        ⟨dir / "classes.dex", dir / "out", some c⟩).run.run s =
          (.ok { status := .success, tree := some (dir / "out" / "sources") },
            { s with tree := w }) ∧
      Pipeline.extract w (dir / "out" / "sources") c = .ok java := by
  have hfiles := fileFits_of_mem_files hfits
  -- The root can be made, as a file below it can.
  obtain ⟨file, hfile, -, -⟩ := FileTree.exists_of_lastAt hlast
  obtain ⟨names, name, -, hway, -, -⟩ := hfiles file hfile
  have hroot : Fits dir rootNames := hway.of_append h.text_ne_empty
  obtain ⟨t, ht, hdir, hmade⟩ := h.exists_makeAll (by decide) hroot undotted_rootNames
  have hlocated : t.locate (dir.downBy rootNames) = .ok (k ++ rootNames) :=
    ht.locate_of_entry (by decide) hroot hdir
  have hbelow : Holds t (dir.downBy rootNames) (k ++ rootNames) fun _ => none :=
    ht.below isName_rootNames hlocated hdir fun names hne hnames => (hempty names hne hnames).symm
  rw [written, files_append] at hfiles hlast
  -- The container lies beside all that is stored, and is read as it was.
  obtain ⟨u, stored₁, houtputs, hu, hkept⟩ := ht.exists_storeAll (by decide) fun file hfile =>
    hfiles file (List.mem_append_left _ hfile)
  obtain ⟨w, stored₂, hrest, hw, -⟩ := hu.exists_storeAll (by decide) fun file hfile =>
    hfiles file (List.mem_append_right _ hfile)
  have hread : u.read (dir / "classes.dex") = .ok content :=
    hu.read_div isName_container ((hkept _ isName_container).trans hcontainer)
  -- Seen from the root all files are stored in one go, and so the last one with the path is read.
  have hall : (files outputs ++ files (rest outputs content (some c))).foldlM
      (FileTree.store (dir.downBy rootNames)) t = .ok w := by
    rw [List.foldlM_append, houtputs]
    dsimp only [bind, Except.bind]
    exact hrest
  have hdown : ∀ file ∈ files outputs ++ files (rest outputs content (some c)), file.1.Descends :=
    fun file hfile => (hfiles file hfile).descends
  have hholds := hbelow.storeAll (fun _ => rfl) hdown hall
  refine ⟨w, run_decompile hfresh hmade houtputs hread hrest, ?_⟩
  have hextract := Pipeline.extract_of_holds hholds hc hsimple
  rw [hlast, Option.some_or] at hextract
  dsimp only at hextract
  rw [Text.decodeLossy_bytes] at hextract
  exact hextract

def toolbox (outputs : List (ClassName × String)) : Toolbox where
  assembler := assembler .working
  decompiler := decompiler .working outputs

/-- In a new scratch directory the mock tools make Java source of editor text. -/
theorem exists_assembledSource (h : Shelf s.tree dir k fun _ => none)
    (hfresh : s.token.fired = false) (hc : c.IsPlain) (hsimple : c.simple ≠ "")
    (hunit : Fits dir [Pipeline.unitName c]) (hcontainer : Fits dir ["classes.dex"])
    (hfits : ∀ o ∈ written outputs (Text.bytes text) (some c), FileFits dir rootNames o.1.javaPath)
    (hlast : lastAt (files (written outputs (Text.bytes text) (some c))) c.javaPath =
      some (Text.bytes java)) :
    ∃ s', Bench.Comes (toolbox outputs) s (Pipeline.assembledSource c file (some text) dir).run
      (.ok ⟨java, .realtime, none⟩) s' ∧ s'.token.fired = false := by
  have hname : IsName (Pipeline.unitName c) := Pipeline.isName_unitName c
  -- The name of the unit has a dot, so that it is no directory for Java source.
  have hdot : '.' ∈ (Pipeline.unitName c).toList := by
    obtain ⟨stem, hstem⟩ := Pipeline.exists_unitName c
    rw [hstem]
    exact List.mem_append_right _ (by decide)
  have hdir (t : FileTree) (stored : Path → Option Bytes) (ht : Shelf t dir k stored) :
      t.entryAt? (k ++ []) = some .directory := by
    rw [List.append_nil, ht.directory]
  -- Both files lie directly in the scratch directory.
  rw [← List.nil_append [_]] at hunit hcontainer
  obtain ⟨t, hwrite, ht⟩ := h.exists_write hunit hdot (hdir _ _ h) (Text.bytes text)
  have hread : t.read (dir / Pipeline.unitName c) = .ok (Text.bytes text) :=
    ht.read_div hname (if_pos (Path.same_self _))
  obtain ⟨u, hcopy, hu⟩ := ht.exists_copy hcontainer (by decide) (hdir _ _ ht) hread
  have hassemble := run_assemble (s := { s with tree := t })
    (r := ⟨dir / Pipeline.unitName c, c, dir / "classes.dex"⟩) hfresh hcopy
  -- Nothing is stored yet at a path of several names.
  have hempty (names : List String) (hne : names ≠ []) (hnames : ∀ r ∈ names, IsName r) {r : String}
      (hr : IsName r) : ¬ (ofNames [r]).same (ofNames (rootNames ++ names)) = true := by
    rw [Path.same_ofNames_iff (List.forall_mem_singleton.mpr hr)
      (List.forall_mem_append.mpr ⟨isName_rootNames, hnames⟩)]
    exact fun heq => by simpa [rootNames] using congrArg List.length heq
  obtain ⟨w, hdecompile, hextract⟩ := exists_decompiled (s := { s with tree := u }) hu hfresh hc
    hsimple (if_pos (Path.same_self _)) (fun names hne hnames =>
      (if_neg (hempty names hne hnames isName_container)).trans
        (if_neg (hempty names hne hnames hname)))
    hfits hlast
  refine ⟨{ s with tree := w }, ?_, hfresh⟩
  exact Pipeline.comes_assembledSource hwrite hassemble hdecompile hfresh hfresh hextract

/-! ## What is written -/

/-- The last output with a path is the last file with it. -/
theorem lastAt_files (outputs : List (ClassName × String)) (q : Path) :
    lastAt (files outputs) q =
      (outputs.reverse.find? (·.1.javaPath.same q)).map fun o => Text.bytes o.2 := by
  simp only [lastAt, files, javaFiles, List.map_map, ← List.map_reverse, List.find?_map,
    Option.map_map, Function.comp_def]

/-- The class in a container that holds a text is that of its header, or else the one that is
wanted. -/
theorem classIn_bytes (text : String) (c : ClassName) :
    classIn (Text.bytes text) (some c) = some ((ClassName.ofHeader? text).getD c) := by
  rw [classIn, Text.decodeLossy_bytes]
  cases ClassName.ofHeader? text <;> rfl

/-- A class has its stub written if there are no outputs. -/
theorem written_nil (text : String) (c : ClassName) :
    written [] (Text.bytes text) (some c) =
      [((ClassName.ofHeader? text).getD c, ((ClassName.ofHeader? text).getD c).stub)] := by
  rw [written, rest, classIn_bytes]
  rfl

/-- Nothing more than outputs is written for a class that shares its top-level class with one. -/
theorem written_of_shared
    (h : ∃ o ∈ outputs, o.1.topLevel = ((ClassName.ofHeader? text).getD c).topLevel) :
    written outputs (Text.bytes text) (some c) = outputs := by
  have hany : (outputs.any fun o =>
      o.1.topLevel == ((ClassName.ofHeader? text).getD c).topLevel) = true := by
    obtain ⟨o, ho, hsame⟩ := h
    exact List.any_eq_true.mpr ⟨o, ho, beq_iff_eq.mpr hsame⟩
  rw [written, rest, classIn_bytes]
  dsimp only
  rw [if_pos hany, List.append_nil]

end Mock

/-! ## The theorem -/

/-- A conversion of editor text can begin: the path names a class with a simple name, nothing is
known against the tools, and there can be a scratch directory in which the unit and the container
can be created. -/
structure Pipeline.Begins (p : Pipeline) (file : Path) (c : ClassName) (turn : Bench.Turn)
    (t : FileTree) (dir : Path) : Prop where
  named : ClassName.ofPath? file = some c
  undotted : c.Undotted
  simple : c.simple ≠ ""
  grounded : turn.1.tree.Grounded
  fresh : turn.2.fired = false
  assembler : turn.1.assemblerReady ≠ some false
  decompiler : turn.1.decompilerReady ≠ some false
  scratch : p.makeScratch turn.1.tree = (t, .ok dir)
  unit : t.Takes dir ⟨Pipeline.unitName c⟩
  container : t.Takes dir ⟨"classes.dex"⟩

/-- No segment of a class that a path names is empty. -/
theorem ClassName.nonempty_of_ofPath? (h : ofPath? file = some c) : [] ∉ c.segments := by
  rw [ofPath?] at h
  obtain ⟨-, -, hroot⟩ := Option.bind_eq_some_iff.mp h
  obtain ⟨root, -, hway⟩ := Option.bind_eq_some_iff.mp hroot
  obtain ⟨way, -, hread⟩ := Option.bind_eq_some_iff.mp hway
  exact not_mem_segments_of_ofBinary? hread

namespace Pipeline.Begins

open Mock FileTree

variable {p : Pipeline} {turn : Bench.Turn} (h : p.Begins file c turn t dir)
include h

theorem isPlain : c.IsPlain := ⟨ClassName.nonempty_of_ofPath? h.named, h.undotted⟩

/-- The scratch directory is empty. -/
theorem exists_shelf : ∃ k, Shelf t dir k fun _ => none := by
  rcases (Furnished.refl p.homes turn.1.tree).makeScratch h.grounded with
    ⟨e, herror, -⟩ | ⟨dir', u, k, hok, -, hsite, heq⟩
  · rw [h.scratch] at herror
    cases herror
  · rw [h.scratch] at hok heq
    obtain rfl := Except.ok.inj hok
    obtain rfl := heq
    exact ⟨k, hsite.shelf⟩

/-- The conversion ends with the last Java source that is written to the file of the class, if all
that is written belongs to classes whose files can be created. -/
theorem perform_eq
    (hwritten : ∀ o ∈ written outputs (Text.bytes text) (some c), ∃ d : ClassName,
      d.IsPlain ∧ d.simple ≠ "" ∧ t.Takes dir (sourcePath d) ∧ o.1.javaPath = d.javaPath)
    (hlast : lastAt (files (written outputs (Text.bytes text) (some c))) c.javaPath =
      some (Text.bytes java)) :
    (Bench.perform (toolbox outputs) (p.resolve file (some text)) turn).1 =
      .outcome (.success ⟨java, .realtime, none⟩) := by
  obtain ⟨k, hshelf⟩ := h.exists_shelf
  -- A class may stand for another one whose Java file has the same path.
  have hfits : ∀ o ∈ written outputs (Text.bytes text) (some c),
      FileFits dir rootNames o.1.javaPath := by
    intro o ho
    obtain ⟨d, hd, hsimple, ht, hpath⟩ := hwritten o ho
    rw [hpath]
    exact fileFits_of_fits hd hsimple ((takes_sourcePath_iff hd hsimple hshelf).mp ht)
  have hunit := fits_of_takes hshelf (isName_unitName c) h.unit
  have hcontainer := fits_of_takes hshelf isName_container h.container
  obtain ⟨s', hwork, hfresh⟩ : ∃ s', Bench.Comes (toolbox outputs) ⟨t, turn.2⟩
      (assembledSource c file (some text) dir).run (.ok ⟨java, .realtime, none⟩) s' ∧
        s'.token.fired = false :=
    exists_assembledSource hshelf h.fresh h.isPlain h.simple hunit hcontainer hfits hlast
  have hcomes := comes_resolve (s := turn.scene) (p := p) h.scratch h.named (fun _ => rfl)
    (fun _ => rfl) h.fresh hfresh hwork
  exact hcomes.run_eq ⟨rfl, h.assembler, h.decompiler⟩

end Pipeline.Begins

open Mock in
/-- **With the mock tools the first stage gives back the class of the path.** A conversion of editor
text begins, and the files that its tools write can be created in the scratch directory. If the text
has no header, or one of the same top-level class, the Java source is the stub of the class. If the
decompiler has outputs, one of them with the Java file of the class and one with the top-level class
of the header, the Java source is the last output with that file. -/
theorem mock_tools_round_trip {p : Pipeline} {turn : Bench.Turn} (h : p.Begins file c turn t dir)
    (text : String) :
    ((∀ d, ClassName.ofHeader? text = some d → d.topLevel = c.topLevel) →
      t.Takes dir (sourcePath c) →
        (Bench.perform (toolbox []) (p.resolve file (some text)) turn).1 =
          .outcome (.success ⟨c.stub, .realtime, none⟩)) ∧
    ∀ outputs : List (ClassName × String),
      (∀ o ∈ outputs, o.1.IsPlain ∧ o.1.simple ≠ "" ∧ t.Takes dir (sourcePath o.1)) →
      (∃ o ∈ outputs, o.1.javaPath.same c.javaPath = true) →
      (∃ o ∈ outputs, o.1.topLevel = ((ClassName.ofHeader? text).getD c).topLevel) →
        ∃ o, outputs.reverse.find? (·.1.javaPath.same c.javaPath) = some o ∧
          (Bench.perform (toolbox outputs) (p.resolve file (some text)) turn).1 =
            .outcome (.success ⟨o.2, .realtime, none⟩) := by
  refine ⟨fun hheader ht => ?_, fun outputs hplain ⟨o, ho, hsame⟩ hshared => ?_⟩
  · -- The class that is read from the container has the file and the stub of the class.
    have htop : ((ClassName.ofHeader? text).getD c).topLevel = c.topLevel := by
      cases hd : ClassName.ofHeader? text with
      | none => rfl
      | some d => exact hheader d hd
    have hpath := ClassName.javaPath_eq_of_topLevel htop
    refine h.perform_eq (fun o ho => ?_) ?_
    · rw [written_nil] at ho
      obtain rfl := List.mem_singleton.mp ho
      exact ⟨c, h.isPlain, h.simple, ht, hpath⟩
    · rw [written_nil, ClassName.stub_eq_of_topLevel htop, lastAt_files, List.reverse_singleton,
        List.find?_cons_of_pos (by rw [hpath]; exact Path.same_self _), Option.map_some]
  · obtain ⟨o', hfind⟩ : ∃ o', outputs.reverse.find? (·.1.javaPath.same c.javaPath) = some o' :=
      Option.isSome_iff_exists.mp (List.find?_isSome.mpr ⟨o, List.mem_reverse.mpr ho, hsame⟩)
    refine ⟨o', hfind, h.perform_eq (fun o ho => ?_) ?_⟩
    · rw [written_of_shared hshared] at ho
      obtain ⟨hdplain, hsimple, ht⟩ := hplain o ho
      exact ⟨o.1, hdplain, hsimple, ht, rfl⟩
    · rw [written_of_shared hshared, lastAt_files, hfind, Option.map_some]

/-- A tree with nothing but a directory for temporary files. -/
def temporaryTree : FileTree where
  entries := ⟨[(["tmp"], .directory)]⟩

/-- A file that can be stored in a try can be created. -/
theorem FileTree.takes_of_toBool {q : Path} (h : (t.store dir (q, [])).toBool = true) :
    t.Takes dir q := by
  cases hstore : t.store dir (q, []) with
  | error e =>
    rw [hstore] at h
    cases h
  | ok u => exact ⟨[], u, hstore⟩

/-- The text of a nested class comes back as the stub of the class around it. With outputs the last
one with the file of that class comes back, though a header names another class. -/
theorem nested_class_round_trips :
    let file : Path := ⟨"/w/smali/com/example/Main$1.smali"⟩
    let turn : Bench.Turn := ({ tree := temporaryTree }, {})
    let outputs : List (ClassName × String) :=
      [(⟨"com/example/Main"⟩, "first"), (⟨"Other"⟩, "other"), (⟨"com/example/Main$2"⟩, "last")]
    (Bench.perform (Mock.toolbox [])
        (Pipeline.plain.resolve file (some ".class Lcom/example/Main$1;")) turn).1 =
      .outcome (.success
        ⟨"package com.example;\n\npublic class Main \x7b\n\x7d\n", .realtime, none⟩) ∧
    (Bench.perform (Mock.toolbox outputs)
        (Pipeline.plain.resolve file (some ".class LOther$Inner;")) turn).1 =
      .outcome (.success ⟨"last", .realtime, none⟩) := by
  intro file turn outputs
  let t : FileTree := (Pipeline.plain.makeScratch temporaryTree).1
  let dir : Path := ⟨"/tmp/smali2java-000000"⟩
  have hbegins : Pipeline.plain.Begins file ⟨"com/example/Main$1"⟩ turn t dir := {
    named := by decide +kernel
    undotted := by decide +kernel
    simple := by decide +kernel
    grounded := ⟨FileTree.sound_of_isSound (by decide +kernel), by decide +kernel⟩
    fresh := rfl
    assembler := nofun
    decompiler := nofun
    scratch := Prod.ext rfl (by decide +kernel)
    unit := FileTree.takes_of_toBool (by decide +kernel)
    container := FileTree.takes_of_toBool (by decide +kernel) }
  obtain ⟨k, hshelf⟩ := hbegins.exists_shelf
  have htakes (d : ClassName) (hd : d.IsPlain) (hsimple : d.simple ≠ "")
      (hshort : ∀ r ∈ Mock.rootNames ++ Path.javaNames d.fileNames,
        ¬ FileTree.nameLimit < r.utf8ByteSize)
      (hcheck : FileTree.check (dir.downBy (Mock.rootNames ++ Path.javaNames d.fileNames)) =
        .ok ()) : t.Takes dir (Mock.sourcePath d) :=
    (Mock.takes_sourcePath_iff hd hsimple hshelf).mpr ⟨Mock.isName_source hd, hshort, hcheck⟩
  constructor
  · have hheader : ClassName.ofHeader? ".class Lcom/example/Main$1;" =
        some ⟨"com/example/Main$1"⟩ := by
      decide +kernel
    obtain ⟨hstub, -⟩ := mock_tools_round_trip hbegins ".class Lcom/example/Main$1;"
    refine (hstub (fun d hd => ?_) ?_).trans (by decide +kernel)
    · rw [hheader] at hd
      rw [← Option.some.inj hd]
    · exact htakes _ hbegins.isPlain hbegins.simple (by decide +kernel) (by decide +kernel)
  · have hplain : ∀ o ∈ outputs, [] ∉ o.1.segments ∧ o.1.Undotted ∧ o.1.simple ≠ "" ∧
        (∀ r ∈ Mock.rootNames ++ Path.javaNames o.1.fileNames,
          ¬ FileTree.nameLimit < r.utf8ByteSize) ∧
        FileTree.check (dir.downBy (Mock.rootNames ++ Path.javaNames o.1.fileNames)) = .ok () := by
      decide +kernel
    obtain ⟨-, houtputs⟩ := mock_tools_round_trip hbegins ".class LOther$Inner;"
    obtain ⟨o, hfind, htrip⟩ := houtputs outputs (fun o ho => by
      obtain ⟨hnonempty, hundotted, hsimple, hshort, hcheck⟩ := hplain o ho
      have hd : o.1.IsPlain := ⟨hnonempty, hundotted⟩
      exact ⟨hd, hsimple, htakes o.1 hd hsimple hshort hcheck⟩)
      (by decide +kernel) (by decide +kernel)
    have hlast : (outputs.reverse.find? fun o =>
        o.1.javaPath.same (ClassName.mk "com/example/Main$1").javaPath) =
          some (⟨"com/example/Main$2"⟩, "last") := by
      decide +kernel
    rw [hlast] at hfind
    rw [← Option.some.inj hfind] at htrip
    exact htrip

end SmaliView
