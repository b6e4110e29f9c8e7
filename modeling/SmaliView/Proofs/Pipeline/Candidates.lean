import SmaliView.Proofs.Files.Making
import Mathlib.Data.List.Find

/-!
# Where a conversion looks, and one file beside it

`Clear` says of a file tree and a location that a conversion does not come upon the file there: it
is no candidate of the searches, and no directory that the conversion makes lies behind it. In trees
that differ in such a file alone the searches find the same, and scratch directories are made alike.
-/

namespace SmaliView

variable {t u : FileTree} {l : Location} {p : Path}

/-- The containers that a search comes upon, each place as often as it does. -/
def Layout.encountered (layout : Layout) (tree : FileTree) (probe : Probe) : List Path :=
  match probe.anchor with
  | none => []
  | some anchor =>
    let dex := (probe.root.map BytecodeRoot.dexName).getD "classes.dex"
    (layout.searched anchor).flatMap (containersIn tree dex)

/-- The containers are those that are met on the way upwards, each once. -/
theorem Layout.containers_eq (layout : Layout) (tree : FileTree) (probe : Probe) :
    layout.containers tree probe = Path.dedup (layout.encountered tree probe) := by
  rw [containers, encountered]
  cases probe.anchor <;> rfl

namespace Pipeline

/-- The directories that a conversion may make for its tools to work in. -/
inductive WorksIn (p : Pipeline) (tree : FileTree) : Path → Prop where
  | configured {base dir : Path} (h : p.workDirectory = some base) (hdir : dir ∈ base.ancestors) :
      WorksIn p tree dir
  | scratch (n : Nat) :
      WorksIn p tree (tree.absolute (p.workDirectory.getD p.temporary) / scratchName n)

/-- What can lie below a directory does not lead through a location. -/
def Secluded (l : Location) (dir : Path) (tree : FileTree) : Prop :=
  ∀ q, Path.Below dir q → ¬ tree.Through l q

/-- A name below a secluded directory is secluded. -/
theorem Secluded.div {dir : Path} {name : String} (h : Secluded l dir t)
    (hname : Path.IsName name) : Secluded l (dir / name) t :=
  fun q hq => h q (hq.div hname)

/-- Only the links decide whether a directory is secluded. -/
theorem Secluded.congr {dir : Path} (h : Secluded l dir t) (hways : FileTree.SameWays t u) :
    Secluded l dir u :=
  fun q hq hthrough => h q hq (hways.through_iff.mp hthrough)

/-- The way to a secluded directory does not lead through the location. -/
theorem Secluded.not_through {dir : Path} (h : Secluded l dir t) : ¬ t.Through l dir :=
  h dir .here

/-- The file at a location, if there is one, stands beside the way of a conversion: no candidate
names it, whether directly or through a link, and it is no prefix of a directory to work in. -/
structure Clear (p : Pipeline) (probe : Probe) (l : Location) (tree : FileTree) : Prop where
  sound : tree.Sound
  home : tree.entryAt? l.dropLast = some .directory
  unnamed : ∀ c ∈ p.layout.encountered tree probe ++ p.layout.sources probe,
    tree.locate c ≠ .ok l
  aside : ∀ dir, p.WorksIn tree dir → ¬ tree.Through l dir

end Pipeline

/-! ## Scratch directories -/

namespace FileTree

/-- What is new in the larger tree was not there before. -/
theorem Grows.newAt {dir : Path} (h : Grows t u) (hnew : u.NewAt dir) : t.NewAt dir := by
  obtain ⟨m, hm, hway⟩ := hnew
  refine ⟨m, h.none hm, ?_⟩
  rw [h.cwd] at hway
  exact Reaches.congr h.symm.links hway

/-- A scratch directory is made in both trees with the same name, or in neither; what can lie below
it does not lead through the file in which the trees differ. -/
theorem Apart.makeScratch (h : Apart l t u) {pipeline : Pipeline} {probe : Probe}
    (hclear : pipeline.Clear probe l t) :
    (pipeline.makeScratch t).2 = (pipeline.makeScratch u).2 ∧
      Apart l (pipeline.makeScratch t).1 (pipeline.makeScratch u).1 ∧
      SameWays t (pipeline.makeScratch t).1 ∧
      ∀ dir, (pipeline.makeScratch t).2 = .ok dir →
        Pipeline.Secluded l dir (pipeline.makeScratch t).1 := by
  -- The new directory, made after those that it lies in.
  have hfresh {t' u' : FileTree} (h' : Apart l t' u') (hgrows : Grows t t') :
      Agree (fun a b => a.1 = b.1 ∧ Apart l a.2 b.2 ∧ SameWays t a.2 ∧
          Pipeline.Secluded l a.1 a.2)
        (t'.makeFresh (pipeline.workDirectory.getD pipeline.temporary) Pipeline.scratchStem)
        (u'.makeFresh (pipeline.workDirectory.getD pipeline.temporary)
          Pipeline.scratchStem) := by
    have habsolute (base : Path) : t'.absolute base = t.absolute base := by
      rw [FileTree.absolute, FileTree.absolute, hgrows.cwd]
    have haside (n : Nat) := hclear.aside _ (.scratch n)
    refine (h'.makeFresh (hgrows.kept _ _ hclear.home) Pipeline.scratchName_injective
      Pipeline.isName_scratchName fun n hn => ?_).mono ?_
    · rw [hgrows.through_iff, habsolute] at hn
      exact haside n hn
    · rintro ⟨dir, t''⟩ ⟨dir', u''⟩ ⟨heq, h'', hgrows', ⟨n, hn⟩, hnew⟩
      refine ⟨heq, h'', hgrows.toSameWays.trans hgrows'.toSameWays, fun q hq hthrough => ?_⟩
      rw [(hgrows.trans hgrows').through_iff] at hthrough
      refine hclear.sound.not_through_below hclear.home ?_ (hgrows.newAt hnew) hq hthrough
      rw [show dir = t'.absolute _ / Pipeline.scratchName n from hn, habsolute]
      exact haside n
  -- The directories that it lies in are made alike, since none of them is the file.
  have hhome : (pipeline.makeHome t).2 = (pipeline.makeHome u).2 ∧
      Apart l (pipeline.makeHome t).1 (pipeline.makeHome u).1 ∧
      Grows t (pipeline.makeHome t).1 := by
    rw [Pipeline.makeHome, Pipeline.makeHome]
    cases hwork : pipeline.workDirectory with
    | none => exact ⟨rfl, h, .refl t⟩
    | some base => exact h.makeAll fun dir hdir => hclear.aside dir (.configured hwork hdir)
  -- Either making them fails in both trees, or the two calls of `makeFresh` are compared.
  obtain ⟨hmade, h', hgrows⟩ := hhome
  have hfresh := hfresh h' hgrows
  rw [Pipeline.makeScratch, Pipeline.makeScratch]
  generalize pipeline.makeHome t = x, pipeline.makeHome u = y at hmade h' hgrows hfresh
  obtain ⟨t', r⟩ := x
  obtain ⟨u', r'⟩ := y
  obtain rfl : r = r' := hmade
  cases r with
  | error e => exact ⟨rfl, h', hgrows.toSameWays, by simp⟩
  | ok _ =>
    dsimp only at hfresh ⊢
    generalize t'.makeFresh _ _ = x, u'.makeFresh _ _ = y at hfresh
    cases hfresh with
    | error e => exact ⟨rfl, h', hgrows.toSameWays, by simp⟩
    | ok hfresh =>
      obtain ⟨heq, h'', hsame, hdir⟩ := hfresh
      refine ⟨congrArg Except.ok heq, h'', hsame, fun dir hok => ?_⟩
      exact Except.ok.inj hok ▸ hdir

end FileTree

/-! ## Lists of candidates -/

/-- Leaving out duplicates adds nothing. -/
theorem Path.dedup_subset (paths : List Path) : dedup paths ⊆ paths := by
  -- Of what was kept before, too, nothing is added: that makes the induction go through.
  have hfold (kept : List Path) :
      paths.foldl (fun kept p => if kept.any (same p) then kept else p :: kept) kept ⊆
        paths ++ kept := by
    induction paths generalizing kept with
    | nil => exact List.Subset.refl kept
    | cons a paths ih =>
      refine List.Subset.trans (ih _) ?_
      intro q hq
      rw [List.mem_append] at hq
      rcases hq with hq | hq
      · exact List.mem_append_left _ (List.mem_cons_of_mem a hq)
      · change q ∈ (if kept.any (same a) then kept else a :: kept) at hq
        split at hq
        · exact List.mem_append_right _ hq
        · rcases List.mem_cons.mp hq with rfl | hq
          · exact List.mem_append_left _ (List.mem_cons_self ..)
          · exact List.mem_append_right _ hq
  intro q hq
  simpa using hfold [] (List.mem_reverse.mp hq)

/-- Dropping items that give nothing that is wanted changes nothing. -/
theorem filter_filterMap_filter {α β : Type} (wanted : β → Bool) (f : α → Option β)
    (keep : α → Bool) (xs : List α)
    (h : ∀ x ∈ xs, keep x = false → ∀ y, f x = some y → wanted y = false) :
    ((xs.filter keep).filterMap f).filter wanted = (xs.filterMap f).filter wanted := by
  induction xs with
  | nil => rfl
  | cons x xs ih =>
    have ih := ih fun y hy => h y (List.mem_cons_of_mem x hy)
    have hx := h x (List.mem_cons_self ..)
    -- An item that is dropped gives nothing or something that is not wanted.
    cases hkeep : keep x with
    | true =>
      rw [List.filter_cons_of_pos hkeep]
      cases hf : f x with
      | none => rw [List.filterMap_cons_none hf, List.filterMap_cons_none hf, ih]
      | some y =>
        rw [List.filterMap_cons_some hf, List.filterMap_cons_some hf, List.filter_cons,
          List.filter_cons, ih]
    | false =>
      rw [List.filter_cons_of_neg (Bool.eq_false_iff.mp hkeep), ih]
      cases hf : f x with
      | none => rw [List.filterMap_cons_none hf]
      | some y =>
        rw [List.filterMap_cons_some hf,
          List.filter_cons_of_neg (Bool.eq_false_iff.mp (hx hkeep y hf))]

namespace Layout

/-- The path of an entry of a tree as one of what lies in a directory at a location. -/
def listed (dir : Path) (m : Location) (e : Location × Entry) : Option Path :=
  if e.1.dropLast = m then e.1.getLast?.map fun (name : String) => dir / name else none

/-- Whether a path leads to a file that passes for an APK. -/
def isApkFile (tree : FileTree) (p : Path) : Bool := isApk p && tree.isFile p

theorem map_namesIn (tree : FileTree) (dir : Path) (m : Location) :
    (tree.namesIn m).map (fun (name : String) => dir / name) =
      tree.entries.entries.filterMap (listed dir m) := by
  rw [FileTree.namesIn, List.map_filterMap]
  refine List.filterMap_congr fun x _ => ?_
  show Option.map _ (if x.1.dropLast = m then x.1.getLast? else none) =
    if x.1.dropLast = m then x.1.getLast?.map _ else none
  split <;> rfl

/-- What is listed in a directory is a name in it. -/
theorem listed_eq_some {dir q : Path} {m : Location} {e : Location × Entry}
    (h : listed dir m e = some q) : ∃ name : String, e.1 = m ++ [name] ∧ q = dir / name := by
  rw [listed] at h
  split at h
  · next hdir =>
    obtain ⟨name, hname, rfl⟩ := Option.map_eq_some_iff.mp h
    obtain ⟨above, habove⟩ := List.getLast?_eq_some_iff.mp hname
    rw [habove, List.dropLast_concat] at hdir
    exact ⟨name, hdir ▸ habove, rfl⟩
  · cases h

theorem list_eq {tree : FileTree} {dir : Path} {m : Location} (hm : tree.locate dir = .ok m) :
    tree.list dir = match tree.entryAt? m with
      | some .directory => .ok (tree.namesIn m)
      | some _ => .error .notDirectory
      | none => .error .noEntry := by
  rw [FileTree.list, hm]
  rfl

/-- The APKs in a directory are its entries that pass for one, in the order of their paths. -/
theorem apksIn_of_directory {tree : FileTree} {dir : Path} {m : Location}
    (hm : tree.locate dir = .ok m) (hdir : tree.entryAt? m = some .directory) :
    apksIn tree dir = ((tree.entries.entries.filterMap (listed dir m)).filter
      (isApkFile tree)).mergeSort fun p q => p.compare q != .gt := by
  rw [apksIn, list_eq hm, hdir]
  dsimp only
  rw [map_namesIn]
  rfl

/-- Where there is no directory, there are no APKs. -/
theorem apksIn_of_not_directory {tree : FileTree} {dir : Path}
    (h : ∀ m, tree.locate dir = .ok m → tree.entryAt? m ≠ some .directory) :
    apksIn tree dir = [] := by
  rw [apksIn]
  cases hm : tree.locate dir with
  | error e =>
    have hlist : tree.list dir = .error e := by
      rw [FileTree.list, hm]
      rfl
    rw [hlist]
  | ok m =>
    rw [list_eq hm]
    rcases hentry : tree.entryAt? m with _ | _ | _ | _
    · rfl
    · rfl
    · exact absurd hentry (h m hm)
    · rfl

/-- A path that is listed leads where its entry stands, if it leads to a file. -/
theorem locate_of_listed {tree : FileTree} (hsound : tree.Sound) {dir q : Path} {m : Location}
    {e : Location × Entry} (hm : tree.locate dir = .ok m) (hdir : tree.entryAt? m = some .directory)
    (he : e ∈ tree.entries.entries) (hq : listed dir m e = some q)
    (hlink : tree.link? e.1 = none) (hfile : tree.isFile q = true) : tree.locate q = .ok e.1 := by
  obtain ⟨k, entry⟩ := e
  obtain ⟨name, hk, rfl⟩ := listed_eq_some hq
  obtain rfl : k = m ++ [name] := hk
  have hname : Path.IsName name := by
    obtain ⟨entry', hentry⟩ := Table.exists_get?_of_mem he
    refine hsound.names m name entry' ?_
    rw [FileTree.entryAt?, if_neg (by simp), hentry]
  obtain ⟨content, modified, may, hfind⟩ := FileTree.exists_find_of_isFile hfile
  obtain ⟨r, hr, hentry⟩ := FileTree.exists_locate_of_find hfind
  -- Two ways of the same path: where it leads by `locate`, and one name below the directory.
  have hway := FileTree.reaches_of_locate hr (by rw [FileTree.link?, hentry])
  have hdown := (FileTree.reaches_of_locate hm (by rw [FileTree.link?, hdir])).div hname hlink
  rw [hr, FileTree.Reaches.end_unique hway hdown]

end Layout

namespace FileTree

open Layout

/-- An APK that is listed in one tree passes for one in the other. -/
theorem Apart.isApkFile (h : Apart l t u) {q : Path} (hq : t.locate q ≠ .ok l)
    (hfile : isApkFile t q = true) : isApkFile u q = true := by
  rw [Layout.isApkFile, Bool.and_eq_true] at hfile ⊢
  rw [← isFile_congr h.now (h.find_toOption hq)]
  exact hfile

/-- The APKs in a directory are the same in both trees, if the file in which they differ is none of
them and none of them is a link to it. -/
theorem Apart.apksIn (h : Apart l t u) (ht : t.Sound) (hu : u.Sound) {dir : Path}
    (hct : ∀ q ∈ apksIn t dir, t.locate q ≠ .ok l)
    (hcu : ∀ q ∈ apksIn u dir, u.locate q ≠ .ok l) : apksIn t dir = apksIn u dir := by
  by_cases hdir : ∃ m, t.locate dir = .ok m ∧ t.entryAt? m = some .directory
  swap
  · rw [apksIn_of_not_directory fun m hm hentry => hdir ⟨m, hm, hentry⟩,
      apksIn_of_not_directory fun m hm hentry => hdir ⟨m, h.directory_iff.mpr ⟨hm, hentry⟩⟩]
  obtain ⟨m, hm, hentry⟩ := hdir
  obtain ⟨hm', hentry'⟩ := h.directory_iff.mp ⟨hm, hentry⟩
  -- Without the file in which the trees differ the list is the same, and the file is not wanted.
  have hwithout {t : FileTree} (hsound : t.Sound) (hlink : t.link? l = none)
      (hm : t.locate dir = .ok m) (hentry : t.entryAt? m = some .directory)
      (hc : ∀ q ∈ Layout.apksIn t dir, t.locate q ≠ .ok l) :
      (t.entries.entries.filterMap (listed dir m)).filter (Layout.isApkFile t) =
        ((t.entries.erase l).entries.filterMap (listed dir m)).filter (Layout.isApkFile t) := by
    refine (filter_filterMap_filter _ _ _ _ fun e he hkey q hq => ?_).symm
    obtain rfl : e.1 = l := by simpa using hkey
    refine Bool.eq_false_iff.mpr fun hfile => ?_
    refine hc q ?_ ?_
    · rw [apksIn_of_directory hm hentry, List.mem_mergeSort, List.mem_filter]
      exact ⟨List.mem_filterMap.mpr ⟨e, he, hq⟩, hfile⟩
    · exact locate_of_listed hsound hm hentry he hq hlink (Bool.and_eq_true _ _ ▸ hfile).2
  have hmem {t : FileTree} (hm : t.locate dir = .ok m) (hentry : t.entryAt? m = some .directory)
      {q : Path} (hq : q ∈ (t.entries.erase l).entries.filterMap (listed dir m))
      (hfile : Layout.isApkFile t q = true) : q ∈ Layout.apksIn t dir := by
    rw [apksIn_of_directory hm hentry, List.mem_mergeSort, List.mem_filter]
    refine ⟨?_, hfile⟩
    obtain ⟨e, he, hq⟩ := List.mem_filterMap.mp hq
    exact List.mem_filterMap.mpr ⟨e, List.mem_of_mem_filter he, hq⟩
  rw [apksIn_of_directory hm hentry, apksIn_of_directory hm' hentry',
    hwithout ht h.left.link? hm hentry hct, hwithout hu h.right.link? hm' hentry' hcu, h.others]
  -- The lists are filtered by what each tree says of a path, and on their members the two agree.
  refine congrArg (List.mergeSort · _) (List.filter_congr fun q hq => ?_)
  refine Bool.eq_iff_iff.mpr ⟨fun hfile => ?_, fun hfile => ?_⟩
  · exact h.isApkFile (hct q (hmem hm hentry (h.others ▸ hq) hfile)) hfile
  · exact h.symm.isApkFile (hcu q (hmem hm' hentry' hq hfile)) hfile

end FileTree

/-! ## Searches -/

namespace Pipeline

open FileTree

variable {pipeline : Pipeline} {probe : Probe}

/-- No container of a clear unit is the unit itself. -/
theorem Clear.locate_container (ht : pipeline.Clear probe l t)
    (hp : p ∈ pipeline.layout.containers t probe) : t.locate p ≠ .ok l := by
  rw [Layout.containers_eq] at hp
  exact ht.unnamed p (List.mem_append_left _ (Path.dedup_subset _ hp))

/-- No candidate for the Java source of a clear unit is the unit itself. -/
theorem Clear.locate_source (ht : pipeline.Clear probe l t)
    (hp : p ∈ pipeline.layout.sources probe) : t.locate p ≠ .ok l :=
  ht.unnamed p (List.mem_append_right _ hp)

/-- The containers of a unit are the same in both trees. -/
theorem Clear.containers (ht : pipeline.Clear probe l t) (hu : pipeline.Clear probe l u)
    (h : Apart l t u) :
    pipeline.layout.containers t probe = pipeline.layout.containers u probe := by
  rw [Layout.containers_eq, Layout.containers_eq]
  refine congrArg Path.dedup ?_
  rw [Layout.encountered, Layout.encountered]
  cases hanchor : probe.anchor with
  | none => rfl
  | some anchor =>
    refine List.flatMap_congr fun dir hdir => ?_
    -- Every APK that is listed in a searched directory is encountered.
    have hfound {tree : FileTree} (hclear : pipeline.Clear probe l tree) {q : Path}
        (hq : q ∈ Layout.apksIn tree (dir / "dist") ∨ q ∈ Layout.apksIn tree dir) :
        tree.locate q ≠ .ok l := by
      refine hclear.unnamed q (List.mem_append_left _ ?_)
      rw [Layout.encountered, hanchor]
      refine List.mem_flatMap.mpr ⟨dir, hdir, ?_⟩
      rw [Layout.containersIn, List.mem_append, List.mem_append, List.mem_append]
      rcases hq with hq | hq
      · exact Or.inl (Or.inl (Or.inr hq))
      · exact Or.inl (Or.inr hq)
    have hdist := h.apksIn ht.sound hu.sound (fun q hq => hfound ht (Or.inl hq))
      fun q hq => hfound hu (Or.inl hq)
    have hhere := h.apksIn ht.sound hu.sound (fun q hq => hfound ht (Or.inr hq))
      fun q hq => hfound hu (Or.inr hq)
    rw [Layout.containersIn, Layout.containersIn, hdist, hhere]

theorem upTo_congr {α : Type} {f g : α → Bool} {as : List α} (h : ∀ a ∈ as, f a = g a) :
    upTo f as = upTo g as := by
  induction as with
  | nil => rfl
  | cons a as ih =>
    rw [upTo, upTo, h a (List.mem_cons_self ..), ih fun b hb => h b (List.mem_cons_of_mem a hb)]

theorem findSome?_congr {α β : Type} {f g : α → Option β} {as : List α}
    (h : ∀ a ∈ as, f a = g a) : as.findSome? f = as.findSome? g := by
  induction as with
  | nil => rfl
  | cons a as ih =>
    rw [List.findSome?_cons, List.findSome?_cons, h a (List.mem_cons_self ..),
      ih fun b hb => h b (List.mem_cons_of_mem a hb)]

/-- A path to a regular file leads to the same in both trees, if it leads to the same or to nothing.
-/
theorem find_congr_of_isFile (h : (t.find p).toOption = (u.find p).toOption)
    (hfile : u.isFile p = true) : t.find p = u.find p := by
  obtain ⟨content, modified, may, hfind⟩ := exists_find_of_isFile hfile
  rw [hfind, find_of_toOption h.symm hfind]

/-- Whether a file can be read depends on what its path leads to. -/
theorem isReadable_congr (hnow : t.now = u.now) (h : (t.find p).toOption = (u.find p).toOption) :
    isReadable t p = isReadable u p := by
  rw [isReadable, isReadable, isFile_congr hnow h]
  cases hfile : u.isFile p with
  | false => rfl
  | true => rw [FileTree.read, FileTree.read, find_congr_of_isFile h hfile]

/-- The source that is read depends on what its path leads to. -/
theorem sourceAt_congr (cal : Calendar) (hnow : t.now = u.now) (h : t.find p = u.find p) :
    sourceAt cal t p = sourceAt cal u p := by
  rw [sourceAt, sourceAt, info_congr hnow h, FileTree.read, FileTree.read, h]

/-- A file that can be read is Java source, if its time has a date. -/
theorem sourceAt_of_isReadable (cal : Calendar) (h : isReadable t p = true) :
    ∃ content info, t.read p = .ok content ∧ t.info p = .ok info ∧
      sourceAt cal t p = (Origin.ofInfo cal p info).map fun origin =>
        ⟨Text.decodeLossy content, .existing, some origin⟩ := by
  rw [isReadable, Bool.and_eq_true] at h
  obtain ⟨hfile, hread⟩ := h
  obtain ⟨content, modified, may, hfind⟩ := exists_find_of_isFile hfile
  have hinfo : t.info p = .ok (t.describe (.file content modified may)) := by
    rw [info, hfind]
    rfl
  cases hcontent : t.read p with
  | error e =>
    rw [hcontent] at hread
    cases hread
  | ok content =>
    refine ⟨content, _, rfl, hinfo, ?_⟩
    rw [sourceAt, hinfo, hcontent]
    rfl

/-- Extraction depends on what the places that it looks at lead to. -/
theorem extract_congr (hnow : t.now = u.now) {tree : Path} {c : ClassName}
    (h : ∀ e ∈ entriesIn tree c, (t.find e).toOption = (u.find e).toOption) :
    extract t tree c = extract u tree c := by
  have hfound : (entriesIn tree c).find? t.isFile = (entriesIn tree c).find? u.isFile :=
    List.find?_congr fun e he => isFile_congr hnow (h e he)
  unfold extract
  rw [hfound]
  split
  · next e he =>
    have hsame := find_congr_of_isFile (h e (List.mem_of_find?_eq_some he)) (List.find?_some he)
    rw [FileTree.read, FileTree.read, hsame]
  · rfl

end Pipeline

end SmaliView
