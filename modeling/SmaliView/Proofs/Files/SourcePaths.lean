import SmaliView.Proofs.Files.Segments

/-!
# Where the Java source of a class lies

The path of the Java source of a class is built from the segments of its name. If each of them is a
name in the sense of `Path.IsName`, the path leads down from whatever directory it is taken from
(`below_of_mem_entriesIn`). A segment `..` leads up.
-/

namespace SmaliView

namespace Path

variable {names : List String}

/-- A path of names leads down, one name after the other. -/
theorem below_join (hne : names ≠ []) (h : ∀ r ∈ names, IsName r) (dir : Path) :
    Below dir (dir.join (ofNames names)) := by
  induction names using List.reverseRecOn with
  | nil => exact absurd rfl hne
  | append_singleton names s ih =>
    have hs : IsName s := h s (by simp)
    have hnames : ∀ r ∈ names, IsName r := fun r hr => h r (List.mem_append_left _ hr)
    rcases eq_or_ne names [] with rfl | hne
    · rw [List.nil_append, join_ofNames_singleton hs]
      exact .down .here hs
    · rw [join_ofNames_concat h]
      exact .down (ih hne hnames) hs

end Path

/-- A class whose path leads down: each segment of its name, up to the top-level class, is a name.
-/
def ClassName.LeadsDown (c : ClassName) : Prop :=
  ∀ segment ∈ c.topSegments, Path.IsName (String.ofList segment)

theorem ClassName.LeadsDown.below_join {c : ClassName} (h : c.LeadsDown) (dir : Path) :
    Path.Below dir (dir.join c.javaPath) := by
  obtain ⟨above, simple, hsegments⟩ : ∃ above simple, c.topSegments = above ++ [simple] :=
    ⟨_, _, rfl⟩
  have hnames : ∀ r ∈ above.map String.ofList ++ [String.ofList simple], Path.IsName r := by
    intro r hr
    rw [← List.map_singleton, ← List.map_append, ← hsegments] at hr
    obtain ⟨segment, hsegment, rfl⟩ := List.mem_map.mp hr
    exact h segment hsegment
  -- Only the last name is another one, with the extension.
  have hpath : c.javaPath =
      Path.ofNames (above.map String.ofList ++ [Path.javaName (String.ofList simple)]) := by
    rw [javaPath, hsegments, List.map_append, List.map_singleton,
      Path.withExtension_ofNames hnames]
  rw [hpath]
  refine Path.below_join (by simp) (fun r hr => ?_) dir
  rcases List.mem_append.mp hr with hr | hr
  · exact hnames r (List.mem_append_left _ hr)
  · rw [List.mem_singleton.mp hr]
    exact Path.isName_javaName (hnames _ (by simp))

/-- What editor text is called, whatever its class is called. -/
theorem Pipeline.exists_unitName (c : ClassName) :
    ∃ stem, (unitName c).toList = stem ++ ".smali".toList := by
  unfold unitName
  cases hname : (Path.ofNames (c.segments.map String.ofList)).fileName? with
  | none =>
    have hpath : c.smaliPath.fileName? = none := by
      rw [ClassName.smaliPath, Path.withExtension, hname]
      exact hname
    rw [hpath]
    exact ⟨"unit".toList, rfl⟩
  | some s =>
    obtain ⟨stem, hstem⟩ := Path.exists_fileName?_withExtension hname "smali"
      (by decide) (by decide)
    refine ⟨stem, ?_⟩
    rw [ClassName.smaliPath, hstem, Option.getD_some, String.toList_ofList]
    rfl

/-- The Java source of such a class is looked for below the decompiled tree. -/
theorem Pipeline.below_of_mem_entriesIn {c : ClassName} (h : c.LeadsDown) {tree e : Path}
    (he : e ∈ entriesIn tree c) : Path.Below tree e := by
  rw [entriesIn, List.mem_cons, List.mem_singleton] at he
  rcases he with he | he
  · rw [he]
    exact h.below_join tree
  · rw [he]
    exact (h.below_join (tree / "sources")).div ⟨by decide, by decide, by decide⟩

end SmaliView
