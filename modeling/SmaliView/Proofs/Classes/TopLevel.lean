import SmaliView.Proofs.Classes.JavaFile

/-!
# The top-level class as a normal form

The name of the top-level class is a slice of the binary name whose end is a sum of offsets from two
searches, one for the last `/` and one for the first `$` behind it. For every string, well formed or
not, the end lies between two characters. Package, simple name, the path of the Java file and the
stub are functions of the slice.
-/

namespace SmaliView.ClassName

open Text (cut joinWith)

variable {c d : ClassName}

/-- The package as it stands in the binary name, with the `/` behind it. -/
def lead (c : ClassName) : List Char :=
  (c.split.1.map (· ++ ['/'])).getD []

/-! ## The parts of the slice -/

/-- The package stands in front of the last segment, whatever becomes of it. -/
theorem exists_lead (c : ClassName) :
    ∃ above last, c.segments = above ++ [last] ∧ '/' ∉ last ∧
      (∀ piece, joinWith '/' (above ++ [piece]) = c.lead ++ piece) ∧
      joinWith '.' above = c.lead.dropLast.map fun ch => if ch = '/' then '.' else ch := by
  rw [lead]
  rcases split_cases c with ⟨hsplit, hwhole⟩ | ⟨above, last, hsplit, hbinary, hwhole⟩
  · rw [hsplit]
    exact ⟨[], c.binary.toList, Text.cut_of_not_mem hwhole, hwhole, fun _ => rfl, rfl⟩
  · have hlead : (c.split.1.map (· ++ ['/'])).getD [] = above ++ ['/'] := by rw [hsplit]; rfl
    rw [hlead, List.dropLast_concat]
    refine ⟨cut '/' above, last, ?_, hwhole, fun piece => ?_, Text.joinWith_cut_eq_map _ _ _⟩
    · rw [segments, hbinary, Text.cut_append_sep, Text.cut_of_not_mem hwhole]
    · rw [Text.joinWith_concat _ (Text.cut_ne_nil _ _), Text.joinWith_cut, List.append_assoc,
        List.singleton_append]

/-- The dotted package is what stands before the last `/`. -/
theorem package_eq_lead (c : ClassName) :
    c.package.toList = c.lead.dropLast.map fun ch => if ch = '/' then '.' else ch := by
  obtain ⟨above, last, hsegments, -, -, hdotted⟩ := exists_lead c
  rw [package, String.toList_ofList, hsegments, List.dropLast_concat, hdotted]

/-- The slice holds the package and the simple name, and leaves out what starts with a `$`. -/
theorem parts_topLevel (c : ClassName) :
    ∃ rest, c.binary.toList = c.topLevel.toList ++ rest ∧
      c.topLevel.toList = c.lead ++ c.simple.toList ∧ '/' ∉ c.simple.toList ++ rest ∧
      '$' ∉ c.simple.toList ∧ (rest = [] ∨ rest.head? = some '$') := by
  obtain ⟨above, last, hsegments, hwhole, hjoin, -⟩ := exists_lead c
  have hbinary : c.binary.toList = c.lead ++ last := by
    rw [← hjoin, ← hsegments, segments, Text.joinWith_cut]
  have hsimple : c.simple.toList = last.takeWhile (· != '$') := by
    rw [simple, String.toList_ofList, topSegments, hsegments, List.getLastD_concat,
      List.getLastD_concat]
  have htop : c.topLevel.toList = c.lead ++ c.simple.toList := by
    rw [topLevel_eq, String.toList_ofList, topSegments, hsegments, List.dropLast_concat,
      List.getLastD_concat, hjoin, hsimple]
  refine ⟨last.dropWhile (· != '$'), ?_, htop, ?_, ?_, ?_⟩
  · rw [htop, hbinary, hsimple, List.append_assoc, List.takeWhile_append_dropWhile]
  · rwa [hsimple, List.takeWhile_append_dropWhile]
  · rw [hsimple]
    intro hmem
    simpa using List.mem_takeWhile_imp hmem
  -- What is left out starts with the first `$` of the last segment.
  · cases hrest : last.dropWhile (· != '$') with
    | nil => exact .inl rfl
    | cons ch rest =>
      have hch := List.head?_dropWhile_not (· != '$') last
      rw [hrest] at hch
      exact .inr (by simpa using hch)

/-! ## Positions -/

/-- The end of the slice is a position of the string: not past its end, not inside a character. -/
theorem exists_pos_topEnd (c : ClassName) :
    ∃ pos : c.binary.Pos, pos.offset.byteIdx = c.topEnd ∧
      (c.binary.sliceTo pos).copy = c.topLevel := by
  obtain ⟨⟨rest, hrest⟩, hsize⟩ := slice_topLevel c
  have hbinary : c.binary = c.topLevel ++ String.ofList rest :=
    String.toList_inj.mp (by rw [String.toList_append, String.toList_ofList, hrest])
  -- Where a prefix ends there is a position.
  have hvalid : c.topLevel.rawEndPos.IsValid c.binary :=
    String.Pos.Raw.isValid_iff_exists_append.mpr ⟨_, _, hbinary, rfl⟩
  refine ⟨⟨c.topLevel.rawEndPos, hvalid⟩, ?_, ?_⟩
  · rw [← hsize, ← Text.utf8ByteSize_eq, String.ofList_toList]
    rfl
  · exact (String.Pos.splits _).eq_left ⟨hbinary, rfl⟩

/-! ## The normal form -/

/-- A top-level class is its own top-level class. -/
theorem topLevel_topLevel (c : ClassName) : (ClassName.mk c.topLevel).topLevel = c.topLevel := by
  obtain ⟨above, last, -, htop⟩ := exists_segments c
  have hsegments : (ClassName.mk c.topLevel).segments = above ++ [last.takeWhile (· != '$')] := by
    rw [segments, cut_topLevel, htop]
  rw [topLevel_eq, topSegments, hsegments, List.dropLast_concat, List.getLastD_concat,
    List.takeWhile_idem, topLevel_eq, htop]

/-- **The name of the top-level class is a normal form of the binary name**, for every string: its
end lies between two characters of the string; it holds the package and, behind it, no `$`; it is
its own normal form; and classes that have it in common agree on package, simple name, Java file and
stub. -/
theorem top_level_is_normal_form (c : ClassName) :
    (c.topEnd ≤ c.binary.utf8ByteSize ∧
        Text.upTo? c.topEnd c.binary.toList = some c.topLevel.toList ∧
        ∃ pos : c.binary.Pos, pos.offset.byteIdx = c.topEnd ∧
          (c.binary.sliceTo pos).copy = c.topLevel) ∧
      (∃ rest, c.binary.toList = c.topLevel.toList ++ rest ∧
        c.topLevel.toList = c.lead ++ c.simple.toList ∧ '/' ∉ c.simple.toList ++ rest ∧
        '$' ∉ c.simple.toList ∧ (rest = [] ∨ rest.head? = some '$')) ∧
      c.package.toList = c.lead.dropLast.map (fun ch => if ch = '/' then '.' else ch) ∧
      (ClassName.mk c.topLevel).topLevel = c.topLevel ∧
      ∀ d : ClassName, c.topLevel = d.topLevel →
        c.package = d.package ∧ c.simple = d.simple ∧
          c.javaPath = d.javaPath ∧ c.stub = d.stub := by
  have hslice : Text.upTo? c.topEnd c.binary.toList = some c.topLevel.toList :=
    Text.upTo?_eq_some_iff.mpr (slice_topLevel c)
  refine ⟨⟨?_, hslice, exists_pos_topEnd c⟩, parts_topLevel c, package_eq_lead c,
    topLevel_topLevel c, fun d h => ⟨package_eq_of_topLevel h, simple_eq_of_topLevel h,
      javaPath_eq_of_topLevel h, stub_eq_of_topLevel h⟩⟩
  obtain ⟨pos, hpos, -⟩ := exists_pos_topEnd c
  exact hpos ▸ pos.isValid.le_rawEndPos

/-- Two classes nested in `ß`, which takes two bytes, in a package with a `$`. -/
theorem classes_with_common_top_level :
    (ClassName.mk "a$b/ß$é").topLevel = "a$b/ß" ∧ (ClassName.mk "a$b/ß$é").topEnd = 6 ∧
      (ClassName.mk "a$b/ß$é").topLevel = (ClassName.mk "a$b/ß$ü$1").topLevel ∧
      (ClassName.mk "a$b/ß$é").package = (ClassName.mk "a$b/ß$ü$1").package ∧
      (ClassName.mk "a$b/ß$é").stub = (ClassName.mk "a$b/ß$ü$1").stub := by
  have hcommon : (ClassName.mk "a$b/ß$é").topLevel = (ClassName.mk "a$b/ß$ü$1").topLevel := by
    decide +kernel
  obtain ⟨-, -, -, -, hagree⟩ := top_level_is_normal_form ⟨"a$b/ß$é"⟩
  obtain ⟨hpackage, -, -, hstub⟩ := hagree _ hcommon
  exact ⟨by decide +kernel, by decide +kernel, hcommon, hpackage, hstub⟩

end SmaliView.ClassName
