import SmaliView.Layout
import SmaliView.Proofs.Classes.JavaFile
import SmaliView.Proofs.Files.Ancestors

/-!
# The smali file of a class

The path of a smali unit is written from the name of its class and read back by the way down from
the nearest bytecode root. `path_tells_class` says that reading undoes writing, wherever the
bytecode root lies, as long as the package has no segment that is the name of a bytecode root.
-/

namespace SmaliView

open Text (cut joinWith dropEnd)

/-- Trimming leaves nothing to trim. -/
theorem Text.trim_trim (cs : List Char) : trim (trim cs) = trim cs := by
  have hstart : (trim cs).dropWhile isBlank = trim cs := by
    rw [List.dropWhile_eq_self_iff]
    intro hpos
    -- Trimming takes characters from the end alone, once those at the start are gone.
    have hprefix : trim cs <+: cs.dropWhile isBlank := List.rdropWhile_prefix isBlank _
    have hlonger : 0 < (cs.dropWhile isBlank).length := Nat.lt_of_lt_of_le hpos hprefix.length_le
    have hblank := List.dropWhile_get_zero_not isBlank cs hlonger
    have hsame : (trim cs)[0] = (cs.dropWhile isBlank)[0] := hprefix.getElem hpos
    simpa [hsame] using hblank
  have hend : dropEnd isBlank (trim cs) = trim cs :=
    List.rdropWhile_idempotent isBlank (cs.dropWhile isBlank)
  show dropEnd isBlank ((trim cs).dropWhile isBlank) = trim cs
  rw [hstart, hend]

/-! ## The nearest bytecode root -/

namespace BytecodeRoot

variable {r : String} {index : Option String}

/-- What a root is called is a name. -/
theorem isName_of_indexOfName? (h : indexOfName? r = some index) : Path.IsName r := by
  rw [indexOfName?] at h
  split at h
  · next heq =>
    rw [heq]
    exact ⟨by decide, by decide, by decide⟩
  · dsimp only at h
    split at h
    · next hread =>
      rw [Bool.and_eq_true, Bool.and_eq_true, List.isPrefixOf_iff_prefix] at hread
      obtain ⟨⟨⟨digits, hdigits⟩, -⟩, hall⟩ := hread
      rw [← hdigits, List.drop_left] at hall
      -- The stem is a name, and digits do not make it end or turn.
      have hstart : numberedStem.toList = 's' :: "mali_classes".toList := by decide
      refine ⟨?_, ?_, ?_⟩
      · rw [← hdigits, List.mem_append, not_or]
        exact ⟨by decide, fun hslash => absurd (List.all_eq_true.mp hall _ hslash) (by decide)⟩
      · rw [← hdigits, hstart]
        rfl
      · rw [← hdigits, hstart]
        simp
    · cases h

/-- Whether a directory is a root is decided by its name. -/
theorem ofDirectory?_div {s : String} (hs : Path.IsName s) (p : Path) :
    ofDirectory? (p / s) = (indexOfName? s).map fun index => ⟨p / s, index⟩ := by
  rw [ofDirectory?, Path.fileName?_div hs]
  rfl

/-- Names that no bytecode root has do not stop the search upwards. -/
theorem findSome?_ancestors_downBy {names : List String} (hr : indexOfName? r = some index)
    (hnames : ∀ s ∈ names, Path.IsName s) (hplain : ∀ s ∈ names, indexOfName? s = none) (p : Path) :
    ((p / r).downBy names).ancestors.findSome? ofDirectory? = some ⟨p / r, index⟩ := by
  have hname := isName_of_indexOfName? hr
  induction names using List.reverseRecOn with
  | nil =>
    show (p / r).ancestors.findSome? ofDirectory? = _
    rw [Path.ancestors_eq, List.findSome?_cons, ofDirectory?_div hname, hr]
    rfl
  | append_singleton names s ih =>
    have hnone : ofDirectory? ((p / r).downBy (names ++ [s])) = none := by
      rw [Path.downBy_concat, ofDirectory?_div (hnames s (by simp)), hplain s (by simp)]
      rfl
    rw [Path.ancestors_downBy_concat hname hnames, List.findSome?_cons, hnone]
    exact ih (fun t ht => hnames t (List.mem_append_left _ ht))
      fun t ht => hplain t (List.mem_append_left _ ht)

end BytecodeRoot

/-! ## Writing and reading -/

namespace ClassName

variable {c : ClassName} {name : List Char}

/-- A class that was read from a name is read from its own name. -/
theorem ofBinary?_binary (h : ofBinary? name = some c) : ofBinary? c.binary.toList = some c := by
  rw [ofBinary?] at h
  split at h
  · cases h
  · next hempty =>
    obtain rfl := Option.some.inj h
    rw [String.toList_ofList, ofBinary?, Text.trim_trim]
    exact if_neg hempty

def smaliName (s : String) : String := s ++ ".smali"

/-- A name without a dot gets the extension `smali`. -/
theorem smaliName_eq {s : String} (hdot : '.' ∉ s.toList) :
    String.ofList ((Path.splitName s.toList).1 ++ '.' :: "smali".toList) = smaliName s := by
  refine String.toList_inj.mp ?_
  rw [Path.splitName_of_undotted hdot, String.toList_ofList, smaliName, String.toList_append]
  rfl

namespace IsPlain

variable (hc : c.IsPlain)
include hc

theorem isName_of_mem_segments {segment : List Char} (h : segment ∈ c.segments) :
    Path.IsName (String.ofList segment) := by
  refine isName_of_undotted ?_ ?_ ?_
  · rw [String.toList_ofList]
    exact Text.not_mem_of_mem_cut h
  · rw [String.toList_ofList]
    exact hc.undotted segment h
  · rw [ne_eq, ← String.toList_eq_nil_iff, String.toList_ofList]
    rintro rfl
    exact hc.nonempty h

/-- The path of a unit goes down by the packages to the file of the class. -/
theorem exists_smaliPath : ∃ s : String,
    c.segments = c.packageNames.map String.toList ++ [s.toList] ∧ '.' ∉ s.toList ∧
      (∀ t ∈ c.packageNames, Path.IsName t) ∧ Path.IsName s ∧ Path.IsName (smaliName s) ∧
      c.smaliPath = Path.ofNames (c.packageNames ++ [smaliName s]) := by
  obtain ⟨above, last, hsegments, -⟩ := exists_segments c
  have hpackage : c.packageNames = above.map String.ofList := by
    rw [packageNames, hsegments, List.dropLast_concat]
  have hnames : ∀ t ∈ above.map String.ofList ++ [String.ofList last], Path.IsName t := by
    intro t ht
    rw [← List.map_singleton, ← List.map_append, ← hsegments] at ht
    obtain ⟨segment, hsegment, rfl⟩ := List.mem_map.mp ht
    exact hc.isName_of_mem_segments hsegment
  have hdot : '.' ∉ (String.ofList last).toList := by
    rw [String.toList_ofList]
    exact hc.undotted last (by simp [hsegments])
  have hlast : Path.IsName (String.ofList last) := hnames _ (by simp)
  have hlong : 1 < "smali".toList.length := by decide
  have hwhole : '/' ∉ "smali".toList := by decide
  have hfile := Path.isName_extended hlast hlong hwhole
  rw [smaliName_eq hdot] at hfile
  refine ⟨String.ofList last, ?_, hdot, fun t ht => ?_, hlast, hfile, ?_⟩
  · rw [hpackage, Text.map_toList_ofList, hsegments, String.toList_ofList]
  · rw [hpackage] at ht
    exact hnames t (List.mem_append_left _ ht)
  · rw [smaliPath, hsegments, List.map_append, List.map_singleton,
      Path.withExtension_ofNames_concat hnames hlong hwhole, smaliName_eq hdot, hpackage]

end IsPlain

/-- What a unit at the end of a way down from a bytecode root is read as. -/
theorem ofPath?_downBy {root : BytecodeRoot} {above : List String} {s : String} {p : Path}
    (habove : ∀ t ∈ above, Path.IsName t) (hfile : Path.IsName (smaliName s)) (hs : Path.IsName s)
    (hroot : BytecodeRoot.above? (p.downBy (above ++ [smaliName s])) = some root)
    (hdir : root.dir = p) :
    ofPath? (p.downBy (above ++ [smaliName s])) =
      ofBinary? (joinWith '/' (above.map String.toList ++ [s.toList])) := by
  have hsplit : Path.splitName (smaliName s).toList = (s.toList, some "smali".toList) := by
    rw [smaliName, String.toList_append]
    exact (Path.splitName_append s.toList (by decide)).trans
      (if_neg hs.ne_nil)
  have hextension : (p.downBy (above ++ [smaliName s])).extension? = some "smali" := by
    rw [Path.extension?, Path.downBy_concat, Path.fileName?_div hfile, Option.bind_some, hsplit,
      Option.map_some, String.ofList_toList]
  have hnames : ∀ t ∈ above ++ [smaliName s], Path.IsName t :=
    List.forall_mem_append.mpr ⟨habove, List.forall_mem_singleton.mpr hfile⟩
  have hway : (p.downBy (above ++ [smaliName s])).relativeTo? root.dir =
      some ((above ++ [smaliName s]).map Component.name) := by
    rw [hdir, Path.relativeTo?, Path.components_downBy hnames,
      if_pos (List.isPrefixOf_iff_prefix.mpr (List.prefix_append _ _)), List.drop_left]
  -- The extension is taken off the last name alone, and what is left of that is a name.
  have hstem : s.toList ≠ ['.'] := by
    intro heq
    have hmoves := hs.moves
    rw [heq] at hmoves
    cases hmoves
  have hbare : withoutExtension ((above ++ [smaliName s]).map Component.name) =
      (above ++ [s]).map Component.name := by
    rw [withoutExtension, List.map_append, List.map_singleton, List.getLast?_concat]
    simp [Component.bare, hsplit, hstem]
  rw [ofPath?, hextension, hroot]
  simp only [guard, if_true, Option.pure_def, Option.bind_eq_bind, Option.bind_some, hway, hbare]
  congr 2
  simp [Component.text]

/-- **The path of a smali unit tells its class.** The file of a class below a bytecode root is read
back as that class, and the root is found, whatever stands above it: also a directory that is itself
called like a bytecode root. -/
theorem path_tells_class (hc : ofBinary? name = some c) (hdotless : c.Undotted)
    (hpackage : ∀ s ∈ c.packageNames, BytecodeRoot.indexOfName? s = none) (dir : Path)
    {r : String} {index : Option String} (hr : BytecodeRoot.indexOfName? r = some index) :
    BytecodeRoot.above? ((dir / r).join c.smaliPath) = some ⟨dir / r, index⟩ ∧
      ofPath? ((dir / r).join c.smaliPath) = some c := by
  have hplain : c.IsPlain := ⟨not_mem_segments_of_ofBinary? hc, hdotless⟩
  obtain ⟨s, hsegments, -, habove, hname, hfile, hpath⟩ := hplain.exists_smaliPath
  have hnames : ∀ t ∈ c.packageNames ++ [smaliName s], Path.IsName t :=
    List.forall_mem_append.mpr ⟨habove, List.forall_mem_singleton.mpr hfile⟩
  -- The path goes down from the root, name by name.
  have hdown : (dir / r).join c.smaliPath = (dir / r).downBy (c.packageNames ++ [smaliName s]) := by
    rw [hpath, Path.join_ofNames_eq_downBy (by simp) hnames]
  have hroot : BytecodeRoot.above? ((dir / r).join c.smaliPath) = some ⟨dir / r, index⟩ := by
    rw [hdown, BytecodeRoot.above?,
      Path.ancestors_downBy_concat (BytecodeRoot.isName_of_indexOfName? hr) hnames, List.tail_cons]
    exact BytecodeRoot.findSome?_ancestors_downBy hr habove hpackage dir
  refine ⟨hroot, ?_⟩
  rw [hdown] at hroot ⊢
  rw [ofPath?_downBy habove hfile hname hroot rfl, ← hsegments, segments, Text.joinWith_cut]
  exact ofBinary?_binary hc

/-- A nested class, below a bytecode root in a directory that is itself called like one. -/
theorem nested_class_is_told :
    (BytecodeRoot.above? ((Path.mk "/w/smali" / "smali_classes2").join
        (ClassName.mk "com/example/Main$1").smaliPath) =
      some ⟨⟨"/w/smali/smali_classes2"⟩, some "2"⟩) ∧
    ofPath? ⟨"/w/smali/smali_classes2/com/example/Main$1.smali"⟩ = some ⟨"com/example/Main$1"⟩ := by
  have hname : ofBinary? "com/example/Main$1".toList = some ⟨"com/example/Main$1"⟩ := by
    decide +kernel
  have hr : BytecodeRoot.indexOfName? "smali_classes2" = some (some "2") := by decide +kernel
  obtain ⟨hroot, hclass⟩ := path_tells_class hname (by decide +kernel) (by decide +kernel)
    ⟨"/w/smali"⟩ hr
  have hdir : Path.mk "/w/smali" / "smali_classes2" = ⟨"/w/smali/smali_classes2"⟩ := by
    decide +kernel
  have hfile : (Path.mk "/w/smali" / "smali_classes2").join
      (ClassName.mk "com/example/Main$1").smaliPath =
        ⟨"/w/smali/smali_classes2/com/example/Main$1.smali"⟩ := by
    decide +kernel
  rw [hfile] at hclass
  exact ⟨hdir ▸ hroot, hclass⟩

end ClassName

end SmaliView
