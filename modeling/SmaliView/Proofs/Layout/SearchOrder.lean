import SmaliView.Proofs.Files.Ancestors
import SmaliView.Proofs.Pipeline.ClearCheck
import SmaliView.Proofs.Pipeline.SourceDirectories

/-!
# The order of a search

A search walks upwards from a directory (`Path.upwards`) and lists, directory by directory, the
places that belong to it. A place that was listed before is left out (`Path.novel`): the first
mention counts, so that a longer walk only adds to the end of a list. The files in a directory are
listed by name.
-/

namespace SmaliView

namespace Path

variable {p q r : Path} {ps qs : List Path}

/-! ## Walking upwards -/

/-- At most `n` directories on the way upwards. The empty path is none, and ends the way. -/
def upwards : Nat → Path → List Path
  | 0, _ => []
  | n + 1, p =>
    if p.text = "" then []
    else p :: (match p.parent? with
      | none => []
      | some q => upwards n q)

theorem isEmpty_text_eq_false (h : p.text ≠ "") : p.text.isEmpty = false := by
  rw [Bool.eq_false_iff, ne_eq, String.isEmpty_iff]
  exact h

/-- The directories that are searched are the first ones on the way upwards. -/
theorem take_ancestors_eq (n : Nat) (p : Path) :
    (p.ancestors.filter fun dir => !dir.text.isEmpty).take n = upwards n p := by
  induction n generalizing p with
  | zero => rfl
  | succ n ih =>
    rw [upwards, ancestors_eq]
    by_cases hempty : p.text = ""
    · -- Nothing stands above the empty path, so that what the filter drops is the end of the way.
      rw [if_pos hempty, parent?_of_components_eq_nil (text_eq_empty_iff.mp hempty)]
      simp [hempty]
    · rw [if_neg hempty, List.filter_cons_of_pos (by simp [isEmpty_text_eq_false hempty]),
        List.take_succ_cons]
      cases p.parent? with
      | none => exact congrArg (p :: ·) List.take_nil
      | some q => exact congrArg (p :: ·) (ih q)

theorem same_iff_components : p.same q = true ↔ p.components = q.components := beq_iff_eq

theorem any_same_congr (h : p.same q = true) (ps : List Path) : ps.any (same p) = ps.any (same q) := by
  have hsame : same p = same q := by
    funext r
    rw [same, same, same_iff_components.mp h]
  rw [hsame]

/-- The paths of which no earlier one names the same place. -/
def novel (ps : List Path) : List Path :=
  (ps.zipIdx.filter fun x => !(ps.take x.2).any (same x.1)).map Prod.fst

/-- A path is novel if none of those before it is the same. -/
theorem novel_concat (ps : List Path) (p : Path) :
    novel (ps ++ [p]) = if ps.any (same p) then novel ps else novel ps ++ [p] := by
  have hearlier : ps.zipIdx.filter (fun x => !((ps ++ [p]).take x.2).any (same x.1)) =
      ps.zipIdx.filter fun x => !(ps.take x.2).any (same x.1) := by
    refine List.filter_congr fun x hx => ?_
    have hi := (List.mem_zipIdx' hx).1
    rw [List.take_append_of_le_length (Nat.le_of_lt hi)]
  rw [novel, List.zipIdx_append, List.filter_append, hearlier, List.map_append, ← novel]
  cases h : ps.any (same p) <;> simp [h]

/-- A path is kept unless the same one was kept. -/
theorem dedup_concat_kept (ps : List Path) (p : Path) :
    dedup (ps ++ [p]) = if (dedup ps).any (same p) then dedup ps else dedup ps ++ [p] := by
  -- The list is built from its end, and turned around when it is done.
  rw [dedup, List.foldl_concat, ← List.reverse_reverse (ps.foldl _ []), ← dedup, List.any_reverse]
  split <;> simp

/-- A place that was mentioned before is still among the places. -/
theorem any_dedup (p : Path) (ps : List Path) : (dedup ps).any (same p) = ps.any (same p) := by
  induction ps using List.reverseRecOn with
  | nil => rfl
  | append_singleton ps q ih =>
    rw [dedup_concat_kept, List.any_append]
    split
    · next hq =>
      cases hpq : p.same q with
      | false => simp [ih, hpq]
      | true => rw [any_same_congr hpq, hq]; simp [hpq]
    · rw [List.any_append, ih]

/-- A path is kept unless the same one came before. -/
theorem dedup_concat (ps : List Path) (p : Path) :
    dedup (ps ++ [p]) = if ps.any (same p) then dedup ps else dedup ps ++ [p] := by
  rw [dedup_concat_kept, any_dedup]

/-- Leaving out duplicates keeps the novel paths in their order. -/
theorem dedup_eq_novel (ps : List Path) : dedup ps = novel ps := by
  induction ps using List.reverseRecOn with
  | nil => rfl
  | append_singleton ps p ih => rw [dedup_concat, novel_concat, ih]

/-- The place that the path names is among the paths. -/
def Among (p : Path) (ps : List Path) : Prop :=
  ps.any (same p) = true

/-- Every path is among those that are kept, up to being the same. -/
theorem among_dedup (h : p ∈ ps) : p.Among (dedup ps) := by
  rw [Among, any_dedup, List.any_eq_true]
  exact ⟨p, h, same_iff_components.mpr rfl⟩

/-! ## By name -/

theorem Component.compare_self (a : Component) : a.compare a = .eq := by
  cases a with
  | name s => simp [Component.compare, compareOfLessAndEq]
  | _ => rfl

theorem compareOfLessAndEq_ne_gt (a b : String) :
    (compareOfLessAndEq a b != .gt) = decide (a ≤ b) := by
  rw [compareOfLessAndEq]
  by_cases hlt : a < b
  · have hle : a ≤ b := String.not_lt.mp fun h => String.lt_irrefl a (String.lt_trans hlt h)
    simp [hlt, hle]
  · have hle : b ≤ a := String.not_lt.mp hlt
    by_cases heq : a = b
    · simp [heq]
    · have hgt : ¬ a ≤ b := fun h => heq (String.le_antisymm h hle)
      simp [hlt, heq, hgt]

/-- In one directory the names decide. -/
theorem compare_div {a b : String} (ha : IsName a) (hb : IsName b) (dir : Path) :
    (dir / a).compare (dir / b) = compareOfLessAndEq a b := by
  have hgo (cs : List Component) :
      compare.go (cs ++ [.name a]) (cs ++ [.name b]) = compareOfLessAndEq a b := by
    induction cs with
    | nil =>
      show (compareOfLessAndEq a b).then .eq = _
      cases compareOfLessAndEq a b <;> rfl
    | cons c cs ih =>
      show (c.compare c).then (compare.go (cs ++ [.name a]) (cs ++ [.name b])) = _
      rw [Component.compare_self, ih]
      rfl
  rw [compare, components_div ha, components_div hb, hgo]

end Path

/-- The name of the DEX file that a unit belongs to. -/
def Probe.dexName (probe : Probe) : String :=
  (probe.root.map BytecodeRoot.dexName).getD "classes.dex"

/-! ## APKs -/

namespace Layout

/-- Whether a name is that of an APK: something, and then `.apk` in letters of any case. -/
def isApkName (name : String) : Bool :=
  4 < name.toList.length &&
    (name.toList.drop (name.toList.length - 4)).map Char.toLower == ".apk".toList

/-- The names of the APKs that are files directly in a directory, in order. -/
def apkNames (tree : FileTree) (dir : Path) : List String :=
  match tree.list dir with
  | .error _ => []
  | .ok names =>
    (names.filter fun name => isApkName name && tree.isFile (dir / name)).mergeSort

theorem toLower_eq_dot {c : Char} (h : c.toLower = '.') : c = '.' := by
  delta Char.toLower at h
  split at h
  · next hupper =>
    -- A letter becomes a letter.
    have hval : c.val + ('a'.val - 'A'.val) = '.'.val := congrArg Char.val h
    have hnat := congrArg UInt32.toNat hval
    have hge : 65 ≤ c.val.toNat := UInt32.le_iff_toNat_le.mp hupper.1
    have hle : c.val.toNat ≤ 90 := UInt32.le_iff_toNat_le.mp hupper.2
    rw [UInt32.toNat_add, show ('a'.val - 'A'.val).toNat = 32 by rfl,
      show '.'.val.toNat = 46 by rfl] at hnat
    omega
  · exact h

/-- A name is that of an APK by its extension, whatever its case. -/
theorem isApkName_iff {name : String} :
    isApkName name = true ↔ ∃ stem ext, stem ≠ [] ∧ name.toList = stem ++ '.' :: ext ∧
      ext.map Char.toLower = "apk".toList := by
  rw [isApkName, Bool.and_eq_true, decide_eq_true_eq, beq_iff_eq]
  constructor
  · rintro ⟨hlength, htail⟩
    obtain ⟨c, ext, hdrop⟩ : ∃ c ext, name.toList.drop (name.toList.length - 4) = c :: ext := by
      refine List.exists_cons_of_ne_nil fun hnil => ?_
      rw [hnil] at htail
      cases htail
    rw [hdrop, List.map_cons] at htail
    obtain ⟨hdot, hext⟩ := List.cons.inj htail
    refine ⟨name.toList.take (name.toList.length - 4), ext, ?_, ?_, hext⟩
    · rw [ne_eq, List.take_eq_nil_iff, not_or]
      exact ⟨by omega, List.ne_nil_of_length_pos (by omega)⟩
    · rw [← toLower_eq_dot hdot, ← hdrop, List.take_append_drop]
  · rintro ⟨stem, ext, hstem, hname, hext⟩
    have hthree : ext.length = 3 := by simpa using congrArg List.length hext
    have hpos := List.length_pos_of_ne_nil hstem
    have hlength : name.toList.length = stem.length + 4 := by
      rw [hname, List.length_append, List.length_cons, hthree]
    refine ⟨by omega, ?_⟩
    rw [hlength, Nat.add_sub_cancel, hname, List.drop_left, List.map_cons, hext]
    rfl

/-- A path has the extension if its last name is that of an APK. -/
theorem isApk_div {name : String} (hname : Path.IsName name) (dir : Path) :
    isApk (dir / name) = isApkName name := by
  have hpath : isApk (dir / name) =
      (Path.splitName name.toList).2.any fun ext => decide (ext.map Char.toLower = "apk".toList) := by
    rw [isApk, Path.extension?, Path.fileName?_div hname, Option.bind_some]
    cases (Path.splitName name.toList).2 with
    | none => rfl
    | some ext =>
      rw [Option.map_some, Option.any_some, Option.any_some, decide_eq_decide,
        ← String.toList_inj, String.toList_map, String.toList_ofList]
  rw [hpath, Bool.eq_iff_iff, isApkName_iff]
  constructor
  · intro h
    -- The extension is what follows the last dot.
    by_cases hdot : '.' ∈ name.toList
    · obtain ⟨after, before, hsplit, hafter⟩ :=
        List.eq_append_cons_of_mem (List.mem_reverse.mpr hdot)
      have heq : name.toList = before.reverse ++ '.' :: after.reverse := by
        rw [← List.reverse_reverse name.toList, hsplit]
        simp
      rw [heq, Path.splitName_append _ (by simpa using hafter)] at h
      split at h
      · cases h
      · next hstem =>
        exact ⟨before.reverse, after.reverse, hstem, heq, by simpa using h⟩
    · rw [Path.splitName_of_undotted hdot] at h
      cases h
  · rintro ⟨stem, ext, hstem, heq, hext⟩
    have hdotless : '.' ∉ ext := by
      intro hdot
      have hmem := List.mem_map_of_mem (f := Char.toLower) hdot
      rw [hext] at hmem
      exact absurd hmem (by decide)
    rw [heq, Path.splitName_append stem hdotless, if_neg hstem]
    simpa using hext

/-- The names in a directory are names. -/
theorem isName_of_list {tree : FileTree} (hsound : tree.Sound) {dir : Path} {names : List String}
    (h : tree.list dir = .ok names) {name : String} (hname : name ∈ names) : Path.IsName name := by
  cases hm : tree.locate dir with
  | error e =>
    rw [FileTree.list, hm] at h
    cases h
  | ok m =>
    rw [list_eq hm] at h
    split at h
    · obtain rfl := Except.ok.inj h
      obtain ⟨e, he⟩ := FileTree.mem_namesIn.mp hname
      obtain ⟨entry, hentry⟩ := Table.exists_get?_of_mem he
      refine hsound.names m name entry ?_
      rw [FileTree.entryAt?, if_neg (by simp), hentry]
    · cases h
    · cases h

/-- The APKs in a directory are listed by name. -/
theorem apksIn_eq {tree : FileTree} (hsound : tree.Sound) (dir : Path) :
    apksIn tree dir = (apkNames tree dir).map fun (name : String) => dir / name := by
  rw [apksIn, apkNames]
  cases hlist : tree.list dir with
  | error e => rfl
  | ok names =>
    dsimp only
    have hnames : ∀ name ∈ names, Path.IsName name := fun _ => isName_of_list hsound hlist
    have hfilter : names.filter ((fun p => isApk p && tree.isFile p) ∘ fun (name : String) => dir / name) =
        names.filter fun name => isApkName name && tree.isFile (dir / name) := by
      refine List.filter_congr fun name hname => ?_
      rw [Function.comp_apply, isApk_div (hnames name hname)]
    rw [List.filter_map, hfilter]
    -- All paths are in one directory, so that sorting them is sorting their names.
    refine (List.map_mergeSort fun a ha b hb => ?_).symm
    rw [Path.compare_div (hnames a (List.mem_of_mem_filter ha))
      (hnames b (List.mem_of_mem_filter hb)), Path.compareOfLessAndEq_ne_gt]

/-! ## The places of a search -/

/-- The containers that belong to a directory, in order. -/
def containerPlaces (tree : FileTree) (dex : String) (dir : Path) : List Path :=
  [dir / "build" / "apk" / dex, dir / dex]
    ++ (apkNames tree (dir / "dist")).map (fun (name : String) => dir / "dist" / name)
    ++ (apkNames tree dir).map (fun (name : String) => dir / name)
    ++ (match dir.parent?, dir.fileName? with
      | some parent, some name => [parent / (name ++ ".apk")]
      | _, _ => [])

/-- The containers of a walk, as often as the walk comes upon them. -/
def containerWalk (depth : Nat) (tree : FileTree) (probe : Probe) : List Path :=
  match probe.anchor with
  | none => []
  | some anchor =>
    (anchor.upwards depth).flatMap (containerPlaces tree probe.dexName)

/-- The directories for Java source of a walk: those beside the bytecode root, and four in each
directory that the walk comes through. -/
def sourceWalk (depth : Nat) (probe : Probe) : List Path :=
  match probe.anchor with
  | none => []
  | some anchor =>
    (probe.root.map BytecodeRoot.siblings).getD [] ++
      (anchor.upwards depth).flatMap fun dir =>
        [dir / "sources", dir / "java_src", dir / "jadx/sources", dir / "src/main/java"]

theorem searched_eq (n : Nat) (anchor : Path) :
    (ofDepth n).searched anchor = anchor.upwards (max n 1) :=
  Path.take_ancestors_eq (max n 1) anchor

/-- The containers are the novel places of the walk upwards. -/
theorem containers_eq_novel {tree : FileTree} (hsound : tree.Sound) (probe : Probe) (n : Nat) :
    (ofDepth n).containers tree probe = Path.novel (containerWalk (max n 1) tree probe) := by
  rw [containers_eq, Path.dedup_eq_novel, encountered, containerWalk]
  cases probe.anchor with
  | none => rfl
  | some anchor =>
    dsimp only
    rw [searched_eq]
    refine congrArg Path.novel (List.flatMap_congr fun dir _ => ?_)
    rw [containersIn, apksIn_eq hsound, apksIn_eq hsound, containerPlaces, apkBeside]
    rfl

/-- The source roots are those of the walk upwards. -/
theorem sourceRoots_eq (probe : Probe) (n : Nat) :
    (ofDepth n).sourceRoots probe = sourceWalk (max n 1) probe := by
  rw [sourceRoots, sourceWalk]
  cases probe.anchor with
  | none => rfl
  | some anchor =>
    dsimp only
    rw [searched_eq]
    rfl

end Layout

end SmaliView
