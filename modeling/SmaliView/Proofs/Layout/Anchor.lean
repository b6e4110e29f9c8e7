import SmaliView.Proofs.Layout.SearchOrder

/-!
# The anchor of a search

A search starts from the directory that holds the bytecode root, or from that of the unit where
there is no such root (`Probe.anchor_of`). What belongs to it is searched at every depth, with one
exception: a path of one component has the empty path above it. This stands for the current
directory, but a search takes no step through it, and finds nothing there.
-/

namespace SmaliView

theorem Path.exists_parent? {p : Path} {s : String} (h : p.fileName? = some s) :
    ∃ q, p.parent? = some q := by
  have hne : settle p.rooted p.pieces ≠ [] := by
    intro hnil
    -- Without pieces there is the root at most, and the root has no name.
    rw [fileName?, components_eq_view, ← view_settle, hnil] at h
    cases hrooted : p.rooted <;> simp [hrooted, view, inner] at h
  rw [parent?]
  exact ⟨_, if_neg hne⟩

/-! ## Where the anchor is -/

/-- A bytecode root lies in a directory. -/
theorem BytecodeRoot.exists_parent_of_above? {file : Path} {root : BytecodeRoot}
    (h : above? file = some root) : ∃ q, root.dir.parent? = some q := by
  obtain ⟨dir, -, hdir⟩ := List.exists_of_findSome?_eq_some h
  obtain ⟨index, hindex, rfl⟩ := Option.map_eq_some_iff.mp hdir
  obtain ⟨s, hname, -⟩ := Option.bind_eq_some_iff.mp hindex
  exact Path.exists_parent? hname

namespace Probe

/-- What lies in the anchor: the bytecode root, or the unit itself where there is none. -/
def base (probe : Probe) : Path :=
  match probe.root with
  | none => probe.file
  | some root => root.dir

/-- The searches start in the directory of the base. -/
theorem anchor_of (file : Path) (text : Option String) :
    (Probe.of file text).anchor = (Probe.of file text).base.parent? := by
  show ((BytecodeRoot.above? file).bind (·.dir.parent?) <|> file.parent?) = _
  rw [base, show (Probe.of file text).root = BytecodeRoot.above? file by rfl]
  cases hroot : BytecodeRoot.above? file with
  | none => rfl
  | some root =>
    -- A bytecode root has a name, hence a directory that it lies in.
    obtain ⟨q, hq⟩ := BytecodeRoot.exists_parent_of_above? hroot
    simp only [Option.bind_some, hq]
    rfl

end Probe

namespace Layout

variable {tree : FileTree} {probe : Probe} {anchor : Path} {c : ClassName}

/-! ## What is searched -/

/-- The APKs in a directory are its entries that are called so and are files. -/
theorem mem_apkNames {dir : Path} {names : List String} (hlist : tree.list dir = .ok names)
    {name : String} : name ∈ apkNames tree dir ↔
      name ∈ names ∧ isApkName name = true ∧ tree.isFile (dir / name) = true := by
  rw [apkNames, hlist]
  simp

/-- A search of any depth goes through the directory that it starts from. -/
theorem mem_flatMap_upwards {p q : Path} (hne : p.text ≠ "") (n : Nat) {places : Path → List Path}
    (h : q ∈ places p) : q ∈ (p.upwards (max n 1)).flatMap places := by
  obtain ⟨m, hm⟩ : ∃ m, max n 1 = m + 1 := ⟨max n 1 - 1, by omega⟩
  rw [hm, Path.upwards, if_neg hne, List.flatMap_cons]
  exact List.mem_append_left _ h

/-- Upwards of the empty path there is nothing to search. -/
theorem upwards_of_empty {p : Path} (h : p.text = "") (n : Nat) : p.upwards n = [] := by
  cases n with
  | zero => rfl
  | succ n => rw [Path.upwards, if_pos h]

/-- What belongs to the anchor of a unit is among the places of a search. -/
structure Covers (layout : Layout) (tree : FileTree) (probe : Probe) (anchor : Path)
    (c : ClassName) : Prop where
  built : (anchor / "build" / "apk" / probe.dexName).Among (layout.containers tree probe)
  unpacked : (anchor / probe.dexName).Among (layout.containers tree probe)
  apks : ∀ dir ∈ [anchor / "dist", anchor], ∀ names, tree.list dir = .ok names →
    ∀ name ∈ names, isApkName name = true → tree.isFile (dir / name) = true →
      (dir / name).Among (layout.containers tree probe)
  sources : ∀ name ∈ sourceDirectories,
    ((anchor / name).join c.javaPath).Among (layout.sources probe)

/-- The APKs beside the anchor and in `dist` are places for a container. -/
theorem apk_mem_containerPlaces {dir : Path} (hdir : dir ∈ [anchor / "dist", anchor]) {name : String}
    (h : name ∈ apkNames tree dir) (dex : String) :
    dir / name ∈ containerPlaces tree dex anchor := by
  have hlisted : dir / name ∈ (apkNames tree dir).map fun (name : String) => dir / name :=
    List.mem_map_of_mem h
  rw [containerPlaces]
  rcases List.mem_pair.mp hdir with rfl | rfl
  · exact List.mem_append_left _ (List.mem_append_left _ (List.mem_append_right _ hlisted))
  · exact List.mem_append_left _ (List.mem_append_right _ hlisted)

/-- With an anchor that has a text, everything around it is searched at every depth. -/
theorem covers_of_ne (hsound : tree.Sound) (hanchor : probe.anchor = some anchor)
    (hclass : probe.className = some c) (hne : anchor.text ≠ "") (n : Nat) :
    (ofDepth n).Covers tree probe anchor c := by
  have hcontainer {p : Path} (h : p ∈ containerPlaces tree probe.dexName anchor) :
      p.Among ((ofDepth n).containers tree probe) := by
    -- A place that was listed before is listed all the same.
    rw [containers_eq_novel hsound, ← Path.dedup_eq_novel, containerWalk, hanchor]
    exact Path.among_dedup (mem_flatMap_upwards hne n h)
  constructor
  · exact hcontainer (by simp [containerPlaces])
  · exact hcontainer (by simp [containerPlaces])
  · intro dir hdir names hlist name hname happ hfile
    have hlisted : name ∈ apkNames tree dir := (mem_apkNames hlist).mpr ⟨hname, happ, hfile⟩
    exact hcontainer (apk_mem_containerPlaces hdir hlisted _)
  · intro name hname
    have hplace : anchor / name ∈ sourceWalk (max n 1) probe := by
      rw [sourceWalk, hanchor]
      exact List.mem_append_right _ (mem_flatMap_upwards hne n (List.mem_map_of_mem hname))
    rw [sources_eq _ hclass, sourceRoots_eq]
    exact Path.among_dedup (List.mem_map_of_mem hplace)

/-- With an empty anchor no container is searched, and of the sources only those beside the root. -/
theorem searched_of_empty (hanchor : probe.anchor = some anchor)
    (hclass : probe.className = some c) (hempty : anchor.text = "") (n : Nat) :
    (ofDepth n).containers tree probe = [] ∧
      (ofDepth n).sources probe =
        Path.dedup (((probe.root.map BytecodeRoot.siblings).getD []).map (·.join c.javaPath)) := by
  constructor
  · rw [containers_eq, encountered, hanchor]
    dsimp only
    rw [searched_eq, upwards_of_empty hempty]
    rfl
  · rw [sources_eq _ hclass, sourceRoots_eq, sourceWalk, hanchor]
    dsimp only
    rw [upwards_of_empty hempty, List.flatMap_nil, List.append_nil]

/-- **The anchor is searched unless it is the empty path.** At every depth the places that belong to
the anchor are listed exactly if it is another path than the empty one. It is the empty one for a
bytecode root, or a unit without such a root, whose path has one component. No container is listed
then, and Java source beside the bytecode root only. -/
theorem anchor_is_searched_unless_empty (hsound : tree.Sound) {file : Path} {text : Option String}
    (hanchor : (Probe.of file text).anchor = some anchor)
    (hclass : (Probe.of file text).className = some c) (n : Nat) :
    let probe := Probe.of file text
    ((ofDepth n).Covers tree probe anchor c ↔ anchor.text ≠ "") ∧
      (anchor.text = "" ↔ probe.base.components.length = 1) ∧
      (anchor.text = "" → (ofDepth n).containers tree probe = [] ∧
        (ofDepth n).sources probe = Path.dedup
          (((probe.root.map BytecodeRoot.siblings).getD []).map (·.join c.javaPath))) := by
  intro probe
  refine ⟨⟨fun hcovers hempty => ?_, fun hne => covers_of_ne hsound hanchor hclass hne n⟩,
    Path.text_of_parent?_eq_empty_iff (Probe.anchor_of file text ▸ hanchor),
    fun hempty => searched_of_empty hanchor hclass hempty n⟩
  -- An empty list has nothing among it.
  have hnone : (ofDepth n).containers tree probe = [] :=
    (searched_of_empty hanchor hclass hempty n).1
  have hbuilt := hcovers.built
  rw [hnone] at hbuilt
  cases hbuilt

/-- A project that is the current directory, with a container and Java source. -/
def hereTree : FileTree where
  entries := ⟨[(["w"], .directory), (["w", "smali"], .directory),
    (["w", "smali", "A.smali"], .file (Text.bytes ".class LA;") ⟨0, 0⟩ {}),
    (["w", "classes.dex"], .file (Text.bytes "dex") ⟨0, 0⟩ {}),
    (["w", "sources"], .directory),
    (["w", "sources", "A.java"], .file (Text.bytes "class A \x7b\x7d") ⟨0, 0⟩ {})]⟩
  cwd := ["w"]

/-- The project is found if its directory is named, be it by `.` alone. -/
theorem unnamed_project_is_not_searched :
    let probe := Probe.of ⟨"smali/A.smali"⟩ none
    hereTree.Sound ∧ hereTree.isFile ⟨"classes.dex"⟩ = true ∧
      hereTree.isFile ⟨"sources/A.java"⟩ = true ∧ probe.anchor = some ⟨""⟩ ∧
      (ofDepth 4).containers hereTree probe = [] ∧
      (ofDepth 4).sources probe = [⟨"java_src/A.java"⟩, ⟨"java/A.java"⟩, ⟨"src/A.java"⟩] ∧
      (ofDepth 4).Covers hereTree (Probe.of ⟨"./smali/A.smali"⟩ none) ⟨"."⟩ ⟨"A"⟩ := by
  intro probe
  have hsound : hereTree.Sound := FileTree.sound_of_isSound (by decide +kernel)
  have hanchor : probe.anchor = some ⟨""⟩ := by decide +kernel
  have hclass : probe.className = some ⟨"A"⟩ := by decide +kernel
  obtain ⟨-, -, hempty⟩ := anchor_is_searched_unless_empty hsound hanchor hclass 4
  obtain ⟨hcontainers, hsources⟩ := hempty rfl
  have hnamed : (Probe.of ⟨"./smali/A.smali"⟩ none).anchor = some ⟨"."⟩ := by decide +kernel
  have hsame : (Probe.of ⟨"./smali/A.smali"⟩ none).className = some ⟨"A"⟩ := by decide +kernel
  obtain ⟨hcovers, -⟩ := anchor_is_searched_unless_empty hsound hnamed hsame 4
  refine ⟨hsound, by decide +kernel, by decide +kernel, hanchor, hcontainers, ?_,
    hcovers.mpr (by decide)⟩
  rw [hsources]
  decide +kernel

end Layout

end SmaliView
