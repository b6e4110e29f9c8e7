import SmaliView.Proofs.Files.Segments
import Mathlib.Data.List.TakeWhile

/-!
# The Java file of a class

The Java file of a class lies in the directory of its package and goes by the simple name of the
top-level class. A last segment that starts with `$` leaves no simple name: then the file is the
one beside the directory of the package, which goes by the last segment of the package.
-/

namespace SmaliView

open Text (cut joinWith)

namespace ClassName

variable {c d : ClassName} {name : List Char} {s : String}

/-- No segment of the name holds a dot. -/
def Undotted (c : ClassName) : Prop :=
  ∀ segment ∈ c.segments, '.' ∉ segment

instance (c : ClassName) : Decidable c.Undotted :=
  inferInstanceAs (Decidable (∀ segment ∈ c.segments, '.' ∉ segment))

/-- The segments of the package. -/
def packageNames (c : ClassName) : List String :=
  c.segments.dropLast.map String.ofList

/-- The segments of the top-level class that are not empty. -/
def fileNames (c : ClassName) : List String :=
  (c.topSegments.map String.ofList).filter (· ≠ "")

/-! ## Segments -/

/-- A class that was read has no empty segments. -/
theorem not_mem_segments_of_ofBinary? (h : ofBinary? name = some c) : [] ∉ c.segments := by
  rw [ofBinary?] at h
  split at h
  · cases h
  · next hempty =>
    obtain rfl := Option.some.inj h
    rwa [segments, String.toList_ofList]

/-- The segments of a class and of its top-level class differ in the last one only. -/
theorem exists_segments (c : ClassName) :
    ∃ above last, c.segments = above ++ [last] ∧
      c.topSegments = above ++ [last.takeWhile (· != '$')] := by
  obtain ⟨above, last, hsegments⟩ :=
    (List.eq_nil_or_concat c.segments).resolve_left (Text.cut_ne_nil _ _)
  rw [List.concat_eq_append] at hsegments
  refine ⟨above, last, hsegments, ?_⟩
  rw [topSegments, hsegments, List.dropLast_concat, List.getLastD_concat]

/-- What holds of all characters of the segments holds of those of the top-level class. -/
theorem not_mem_topSegments {ch : Char} (h : ∀ segment ∈ c.segments, ch ∉ segment) :
    ∀ segment ∈ c.topSegments, ch ∉ segment := by
  obtain ⟨above, last, hsegments, htop⟩ := exists_segments c
  rw [hsegments] at h
  rw [htop]
  intro segment hsegment
  rcases List.mem_append.mp hsegment with hmem | hmem
  · exact h segment (List.mem_append_left _ hmem)
  · obtain rfl := List.mem_singleton.mp hmem
    exact fun hch => h last (by simp) ((List.takeWhile_prefix _).subset hch)

theorem whole_of_mem_topSegments {segment : List Char} (h : segment ∈ c.topSegments) :
    '/' ∉ segment :=
  not_mem_topSegments (fun _ => Text.not_mem_of_mem_cut) segment h

/-- The top-level class is its segments with separators between them. -/
theorem cut_topLevel (c : ClassName) : cut '/' c.topLevel.toList = c.topSegments := by
  obtain ⟨above, last, -, htop⟩ := exists_segments c
  rw [topLevel_eq, String.toList_ofList]
  exact Text.cut_joinWith (by simp [htop]) fun _ => whole_of_mem_topSegments

/-- The simple name is the last segment of the top-level class. -/
theorem getLast?_topLevel (c : ClassName) :
    (cut '/' c.topLevel.toList).getLast? = some c.simple.toList := by
  obtain ⟨above, last, -, htop⟩ := exists_segments c
  rw [cut_topLevel, simple, String.toList_ofList, htop, List.getLast?_concat, List.getLastD_concat]

/-- The segments of the package are the same for the class and its top-level class. -/
theorem package_eq (c : ClassName) :
    c.package = String.ofList (joinWith '.' c.topSegments.dropLast) := by
  obtain ⟨above, last, hsegments, htop⟩ := exists_segments c
  rw [package, hsegments, htop, List.dropLast_concat, List.dropLast_concat]

section

variable (h : c.topLevel = d.topLevel)
include h

theorem topSegments_eq_of_topLevel : c.topSegments = d.topSegments := by
  rw [← cut_topLevel c, h, cut_topLevel]

theorem package_eq_of_topLevel : c.package = d.package := by
  rw [package_eq, package_eq, topSegments_eq_of_topLevel h]

theorem simple_eq_of_topLevel : c.simple = d.simple := by
  rw [simple, simple, topSegments_eq_of_topLevel h]

theorem javaPath_eq_of_topLevel : c.javaPath = d.javaPath := by
  rw [javaPath, javaPath, topSegments_eq_of_topLevel h]

/-- What the Java source of a class declares depends on its top-level class alone. -/
theorem stub_eq_of_topLevel : c.stub = d.stub := by
  rw [stub, stub, package_eq_of_topLevel h, simple_eq_of_topLevel h]

end

/-- The simple name is empty if the last segment starts with `$`. -/
theorem simple_eq_empty_iff (h : [] ∉ c.segments) :
    c.simple = "" ↔ ∃ rest, c.segments.getLast? = some ('$' :: rest) := by
  obtain ⟨above, last, hsegments, htop⟩ := exists_segments c
  have hlast : last ≠ [] := by
    rintro rfl
    exact h (by simp [hsegments])
  obtain ⟨ch, rest, rfl⟩ := List.exists_cons_of_ne_nil hlast
  rw [simple, htop, List.getLastD_concat, hsegments, List.getLast?_concat,
    ← String.toList_eq_nil_iff, String.toList_ofList]
  by_cases hch : ch = '$' <;> simp [hch]

/-! ## Names -/

/-- A segment without a dot is a name. -/
theorem isName_of_undotted (hwhole : '/' ∉ s.toList) (hdot : '.' ∉ s.toList) (hne : s ≠ "") :
    Path.IsName s := by
  refine ⟨hwhole, ?_, ?_⟩
  · rw [Bool.eq_false_iff]
    intro hidle
    rw [Path.idle, Bool.or_eq_true, beq_iff_eq, beq_iff_eq] at hidle
    rcases hidle with hnil | hhere
    · exact hne (String.toList_eq_nil_iff.mp hnil)
    · exact hdot (by simp [hhere])
  · intro hup
    exact hdot (by simp [hup])

/-- A name without a dot is followed by the extension. -/
theorem javaName_of_undotted (hdot : '.' ∉ s.toList) : Path.javaName s = s ++ ".java" := by
  refine String.toList_inj.mp ?_
  rw [Path.toList_javaName, Path.splitName_of_undotted hdot, String.toList_append]
  rfl

/-- The Java file lies in the package and is called like the simple name, if there is one. -/
theorem fileNames_eq (h : [] ∉ c.segments) :
    c.fileNames = if c.simple = "" then c.packageNames else c.packageNames ++ [c.simple] := by
  obtain ⟨above, last, hsegments, htop⟩ := exists_segments c
  -- Only the simple name can be empty.
  have hkept : (above.map String.ofList).filter (· ≠ "") = above.map String.ofList := by
    rw [List.filter_eq_self]
    intro r hr
    obtain ⟨segment, hsegment, rfl⟩ := List.mem_map.mp hr
    have hne : segment ≠ [] := by
      rintro rfl
      exact h (by simp [hsegments, hsegment])
    simpa [← String.toList_eq_nil_iff] using hne
  have hsimple : c.simple = String.ofList (last.takeWhile (· != '$')) := by
    rw [simple, htop, List.getLastD_concat]
  rw [fileNames, packageNames, htop, hsegments, List.dropLast_concat, List.map_append,
    List.filter_append, hkept, List.map_singleton, ← hsimple]
  by_cases hempty : c.simple = "" <;> simp [hempty]

/-- The class is read from a binary name, without a dot in a segment. -/
structure IsPlain (c : ClassName) : Prop where
  nonempty : [] ∉ c.segments
  undotted : c.Undotted

namespace IsPlain

variable (hc : c.IsPlain) (hd : d.IsPlain)

include hc

/-- Without dots in the class there are none in the names of its Java file. -/
theorem dotless_of_mem_fileNames (h : s ∈ c.fileNames) : '.' ∉ s.toList := by
  obtain ⟨hmem, -⟩ := List.mem_filter.mp h
  obtain ⟨segment, hsegment, rfl⟩ := List.mem_map.mp hmem
  rw [String.toList_ofList]
  exact not_mem_topSegments hc.undotted segment hsegment

theorem isName_of_mem_fileNames (h : s ∈ c.fileNames) : Path.IsName s := by
  have hdot := hc.dotless_of_mem_fileNames h
  obtain ⟨hmem, hne⟩ := List.mem_filter.mp h
  obtain ⟨segment, hsegment, rfl⟩ := List.mem_map.mp hmem
  refine isName_of_undotted ?_ hdot (by simpa using hne)
  rw [String.toList_ofList]
  exact whole_of_mem_topSegments hsegment

/-- The names on the path of the Java file. -/
theorem isName_of_mem_javaNames (h : s ∈ Path.javaNames c.fileNames) : Path.IsName s :=
  Path.isName_of_mem_javaNames (fun _ => hc.isName_of_mem_fileNames) s h

/-- The path of the Java file goes down by the names of the file. -/
theorem javaPath_eq : c.javaPath = Path.ofNames (Path.javaNames c.fileNames) := by
  refine Path.withExtension_ofNames_filter fun r hr => ?_
  by_cases hempty : r = ""
  · exact Or.inl hempty
  · exact Or.inr (hc.isName_of_mem_fileNames (List.mem_filter.mpr ⟨hr, by simpa using hempty⟩))

theorem components_javaPath :
    c.javaPath.components = (Path.javaNames c.fileNames).map Component.name := by
  rw [hc.javaPath_eq, Path.components_ofNames fun _ => hc.isName_of_mem_javaNames]

theorem javaNames_eq : Path.javaNames c.fileNames =
    c.fileNames.dropLast ++ (c.fileNames.getLast?.map (· ++ ".java")).toList := by
  rw [Path.javaNames]
  cases hlast : c.fileNames.getLast? with
  | none => rw [Option.map_none, Option.map_none]
  | some s =>
    have hdot := hc.dotless_of_mem_fileNames (List.mem_of_getLast? hlast)
    rw [Option.map_some, Option.map_some, javaName_of_undotted hdot]

/-- The package is told by its dotted name. -/
theorem cut_package (hne : c.packageNames ≠ []) :
    cut '.' c.package.toList = c.packageNames.map String.toList := by
  rw [package, String.toList_ofList, packageNames, Text.map_toList_ofList]
  refine Text.cut_joinWith (fun hnil => hne (by rw [packageNames, hnil]; rfl)) fun p hp => ?_
  exact hc.undotted p (List.dropLast_subset _ hp)

theorem package_ne_empty (hne : c.packageNames ≠ []) : c.package ≠ "" := by
  intro hempty
  have hcut := hc.cut_package hne
  rw [hempty] at hcut
  have hmem : [] ∈ c.packageNames.map String.toList := hcut ▸ List.mem_singleton_self _
  obtain ⟨r, hr, hnil⟩ := List.mem_map.mp hmem
  obtain ⟨segment, hsegment, rfl⟩ := List.mem_map.mp hr
  rw [String.toList_ofList] at hnil
  exact hc.nonempty (hnil ▸ List.dropLast_subset _ hsegment)

include hd

/-- Packages are the same exactly if their names are. -/
theorem package_eq_iff : c.package = d.package ↔ c.packageNames = d.packageNames := by
  -- The text of the package is empty for no package, and for no other.
  have hnone (e : ClassName) (h : e.packageNames = []) : e.package = "" := by
    rw [packageNames, List.map_eq_nil_iff] at h
    rw [package, h]
    rfl
  constructor
  · intro h
    by_cases hcn : c.packageNames = []
    · by_contra hne
      rw [hcn] at hne
      exact hd.package_ne_empty (Ne.symm hne) (h ▸ hnone c hcn)
    · by_cases hdn : d.packageNames = []
      · exact absurd (h.trans (hnone d hdn)) (hc.package_ne_empty hcn)
      · have hcut := hc.cut_package hcn
        rw [h, hd.cut_package hdn] at hcut
        exact (List.map_injective_iff.mpr fun _ _ => String.toList_inj.mp) hcut.symm
  · intro h
    have hmap := congrArg (List.map String.toList) h
    rw [packageNames, packageNames, Text.map_toList_ofList, Text.map_toList_ofList] at hmap
    rw [package, package, hmap]

/-- Two classes have one Java file if they go by the same names up to their top-level classes. -/
theorem same_javaPath_iff : c.javaPath.same d.javaPath = true ↔ c.fileNames = d.fileNames := by
  rw [Path.same, beq_iff_eq, hc.components_javaPath, hd.components_javaPath,
    (List.map_injective_iff.mpr fun _ _ => Component.name.inj).eq_iff]
  refine ⟨fun h => ?_, fun h => by rw [h]⟩
  rw [hc.javaNames_eq, hd.javaNames_eq] at h
  -- The last names differ if they do without the extension.
  rcases List.eq_nil_or_concat c.fileNames with hcn | ⟨above, s, hcn⟩
  · rcases List.eq_nil_or_concat d.fileNames with hdn | ⟨above', s', hdn⟩
    · rw [hcn, hdn]
    · simp [hcn, hdn] at h
  · rcases List.eq_nil_or_concat d.fileNames with hdn | ⟨above', s', hdn⟩
    · simp [hcn, hdn] at h
    · simpa [hcn, hdn] using h

end IsPlain

/-- **The Java file of a class lies in the directory of its package**, and goes by the simple name,
which is the last segment of the top-level class. Two classes have one file if they have the package
and the simple name in common. It is otherwise for classes whose last segment starts with `$`: the
simple name is empty then, and the file is that of a class that goes by the name of the package. -/
theorem java_file_lies_in_package {name name' : List Char} (hc : ofBinary? name = some c)
    (hd : ofBinary? name' = some d) (hdotless : c.Undotted) (hdotless' : d.Undotted) :
    (cut '/' c.topLevel.toList).getLast? = some c.simple.toList ∧
      (c.simple = "" ↔ ∃ rest, c.segments.getLast? = some ('$' :: rest)) ∧
      (c.simple ≠ "" →
        c.javaPath.components = (c.packageNames ++ [c.simple ++ ".java"]).map Component.name) ∧
      (c.simple = "" →
        c.javaPath.components = (c.packageNames.dropLast ++
          (c.packageNames.getLast?.map (· ++ ".java")).toList).map Component.name) ∧
      (c.javaPath.same d.javaPath = true ↔
        if c.simple = "" then
          if d.simple = "" then c.package = d.package else c.packageNames = d.packageNames ++ [d.simple]
        else
          if d.simple = "" then c.packageNames ++ [c.simple] = d.packageNames
          else c.package = d.package ∧ c.simple = d.simple) := by
  have hplain : c.IsPlain := ⟨not_mem_segments_of_ofBinary? hc, hdotless⟩
  have hplain' : d.IsPlain := ⟨not_mem_segments_of_ofBinary? hd, hdotless'⟩
  have hnames := fileNames_eq hplain.nonempty
  have hcomponents := hplain.components_javaPath
  rw [hplain.javaNames_eq, hnames] at hcomponents
  refine ⟨getLast?_topLevel c, simple_eq_empty_iff hplain.nonempty, fun hsimple => ?_,
    fun hsimple => ?_, ?_⟩
  · simpa [hsimple] using hcomponents
  · simpa [hsimple] using hcomponents
  · rw [hplain.same_javaPath_iff hplain', hnames, fileNames_eq hplain'.nonempty,
      hplain.package_eq_iff hplain']
    split <;> split <;> simp

/-- A generated class is looked for in the file of a class that goes by the name of its package. -/
theorem generated_class_shares_file :
    ofBinary? "com/example/$Proxy0".toList = some ⟨"com/example/$Proxy0"⟩ ∧
      ofBinary? "com/example".toList = some ⟨"com/example"⟩ ∧
      (ClassName.mk "com/example/$Proxy0").simple = "" ∧
      (ClassName.mk "com/example/$Proxy0").package ≠ (ClassName.mk "com/example").package ∧
      (ClassName.mk "com/example/$Proxy0").javaPath.same (ClassName.mk "com/example").javaPath =
        true := by
  have hproxy : ofBinary? "com/example/$Proxy0".toList = some ⟨"com/example/$Proxy0"⟩ := by
    decide +kernel
  have hother : ofBinary? "com/example".toList = some ⟨"com/example"⟩ := by decide +kernel
  obtain ⟨-, -, -, -, hsame⟩ := java_file_lies_in_package hproxy hother (by decide +kernel)
    (by decide +kernel)
  refine ⟨hproxy, hother, by decide +kernel, by decide +kernel, hsame.mpr ?_⟩
  decide +kernel

end ClassName

end SmaliView
