import SmaliView.Layout
import SmaliView.Proofs.Files.Ancestors

/-!
# The nearest bytecode root

The directories above a path are the initial parts of what it says, the longest first
(`exists_mem_ancestors_tail_iff`, `pairwise_ancestors`). The bytecode root of a unit is the first of
them that goes by the name of one. Such a name is written from the digits in it and read back, digit
by digit (`indexOfName?_eq_some_iff`).
-/

namespace SmaliView

/-! ## Directories above, by what they say -/

namespace Path

variable {p q : Path} {cs : List Component}

/-- A path that lies in no directory has one component at most. -/
theorem length_components_of_parent? (h : p.parent? = none) : p.components.length ≤ 1 := by
  have hsettle : settle p.rooted p.pieces = [] := by
    rw [parent?] at h
    split at h
    · next hnil => exact hnil
    · cases h
  rw [components_eq_view, ← view_settle, hsettle]
  cases p.rooted <;> decide

/-- What stands above a path are its directory and what stands above that. -/
theorem tail_ancestors (p : Path) :
    p.ancestors.tail = (match p.parent? with | none => [] | some q => q.ancestors) := by
  refine (congrArg List.tail (ancestors_eq p)).trans ?_
  cases p.parent? <;> rfl

/-- A walk upwards by induction: what holds of the directory above holds of the path. -/
theorem parent_induction {motive : Path → Prop}
    (h : ∀ p, (∀ q, p.parent? = some q → motive q) → motive p) (p : Path) : motive p := by
  -- By the number of components, which is smaller above.
  obtain ⟨n, hn⟩ : ∃ n, p.components.length = n := ⟨_, rfl⟩
  induction n using Nat.strongRecOn generalizing p with
  | _ n ih =>
    refine h p fun q hq => ?_
    obtain ⟨hne, hcomponents⟩ := components_of_parent? hq
    have hpos := List.length_pos_of_ne_nil hne
    refine ih q.components.length ?_ q rfl
    rw [hcomponents, List.length_dropLast]
    omega

/-- The path and the directories above it are the initial parts of what the path says. -/
theorem exists_mem_ancestors_iff (hcs : cs ≠ []) (p : Path) :
    (∃ dir ∈ p.ancestors, dir.components = cs) ↔ cs <+: p.components := by
  induction p using parent_induction with
  | _ p ih =>
    rw [ancestors_eq]
    cases hp : p.parent? with
    | none =>
      simp only [List.mem_singleton, exists_eq_left]
      -- There is one component at most, so that the path is its only initial part.
      refine ⟨fun h => h ▸ List.prefix_rfl, fun h => ?_⟩
      have hlength := length_components_of_parent? hp
      have hpos := List.length_pos_of_ne_nil hcs
      exact (h.eq_of_length_le (by omega)).symm
    | some q =>
      obtain ⟨hne, hq⟩ := components_of_parent? hp
      obtain ⟨above, last, hlast⟩ := (List.eq_nil_or_concat p.components).resolve_left hne
      rw [List.concat_eq_append] at hlast
      have hbefore := ih q hp
      rw [hq, hlast, List.dropLast_concat] at hbefore
      -- An initial part is the whole, or one of what is said above.
      simp only [List.mem_cons, exists_eq_or_imp]
      rw [hbefore, hlast, List.prefix_concat_iff]
      exact or_congr_left eq_comm

/-- A way stands above a path exactly if it is a proper beginning of it. -/
theorem exists_mem_ancestors_tail_iff (hcs : cs ≠ []) (p : Path) :
    (∃ dir ∈ p.ancestors.tail, dir.components = cs) ↔ cs <+: p.components.dropLast := by
  rw [tail_ancestors]
  cases hp : p.parent? with
  | none =>
    have hlength := length_components_of_parent? hp
    have hnil : p.components.dropLast = [] := by
      rw [← List.length_eq_zero_iff, List.length_dropLast]
      omega
    rw [hnil, List.prefix_nil]
    simp [hcs]
  | some q => rw [exists_mem_ancestors_iff hcs, (components_of_parent? hp).2]

/-- No directory above a path is longer than it. -/
theorem length_components_of_mem_ancestors (p : Path) {dir : Path} (h : dir ∈ p.ancestors) :
    dir.components.length ≤ p.components.length := by
  by_cases hne : dir.components = []
  · rw [hne]
    exact Nat.zero_le _
  · exact ((exists_mem_ancestors_iff hne p).mp ⟨dir, h, rfl⟩).length_le

/-- The nearest directories come first. -/
theorem pairwise_ancestors (p : Path) :
    p.ancestors.Pairwise fun a b => b.components.length < a.components.length := by
  induction p using parent_induction with
  | _ p ih =>
    rw [ancestors_eq]
    cases hp : p.parent? with
    | none => exact List.pairwise_singleton _ _
    | some q =>
      refine List.pairwise_cons.mpr ⟨fun dir hdir => ?_, ih q hp⟩
      obtain ⟨hne, hq⟩ := components_of_parent? hp
      have hpos := List.length_pos_of_ne_nil hne
      have hle := length_components_of_mem_ancestors q hdir
      rw [hq, List.length_dropLast] at hle
      omega

end Path

/-! ## The names of bytecode roots -/

namespace BytecodeRoot

variable {s : String} {index : Option String} {dir file : Path} {root : BytecodeRoot}

/-- Decimal digits, at least one of them. -/
def IsDigits (s : String) : Prop :=
  s ≠ "" ∧ ∀ d ∈ s.toList, '0' ≤ d ∧ d ≤ '9'

/-- What a bytecode root can be numbered with: nothing, or digits. -/
def IsIndex (index : Option String) : Prop :=
  ∀ digits ∈ index, IsDigits digits

/-- The names of bytecode roots. -/
def IsRootName (s : String) : Prop :=
  s = "smali" ∨ ∃ digits, IsDigits digits ∧ s = "smali_classes" ++ digits

theorem isDigits_iff : IsDigits s ↔ s.toList ≠ [] ∧ s.toList.all Char.isDigit = true := by
  rw [IsDigits, ne_eq, ne_eq, String.toList_eq_nil_iff, List.all_eq_true]
  refine and_congr_right fun _ => forall₂_congr fun d _ => ?_
  rw [Char.isDigit, Bool.and_eq_true, decide_eq_true_iff, decide_eq_true_iff]
  rfl

/-- What follows the stem is the index if it is all digits. -/
theorem indexOfName?_of_stem (digits : String) :
    indexOfName? (numberedStem ++ digits) =
      if digits.toList ≠ [] ∧ digits.toList.all Char.isDigit = true then some (some digits)
      else none := by
  -- The plain name is shorter than the stem.
  have hne : numberedStem ++ digits ≠ plainName := by
    intro h
    have hlength := congrArg (·.toList.length) h
    simp only [String.toList_append, List.length_append] at hlength
    have hlong : plainName.toList.length < numberedStem.toList.length := by decide
    omega
  rw [indexOfName?, if_neg hne]
  simp only [String.toList_append, List.drop_left, String.ofList_toList]
  have hstem : numberedStem.toList.isPrefixOf (numberedStem.toList ++ digits.toList) = true :=
    List.isPrefixOf_iff_prefix.mpr (List.prefix_append _ _)
  rw [hstem, Bool.true_and]
  refine if_congr ?_ rfl rfl
  rw [Bool.and_eq_true, Bool.not_eq_true', List.isEmpty_eq_false_iff]

/-- A name is read as that of a bytecode root if it is written like that. -/
theorem indexOfName?_eq_some_iff (dir : Path) :
    indexOfName? s = some index ↔ IsIndex index ∧ s = (BytecodeRoot.mk dir index).name := by
  constructor
  · intro h
    by_cases hplain : s = plainName
    · subst hplain
      obtain rfl := Option.some.inj h
      exact ⟨nofun, rfl⟩
    -- A name that is read and is not the plain one starts with the stem.
    · have hstem : ∃ digits, s = numberedStem ++ digits := by
        rw [indexOfName?, if_neg hplain] at h
        dsimp only at h
        split at h
        · next hread =>
          rw [Bool.and_eq_true, Bool.and_eq_true, List.isPrefixOf_iff_prefix] at hread
          obtain ⟨digits, hdigits⟩ := hread.1.1
          refine ⟨String.ofList digits, String.toList_inj.mp ?_⟩
          rw [String.toList_append, String.toList_ofList, hdigits]
        · cases h
      obtain ⟨digits, rfl⟩ := hstem
      rw [indexOfName?_of_stem] at h
      split at h
      · next hdigits =>
        obtain rfl := Option.some.inj h
        refine ⟨fun d hd => ?_, rfl⟩
        obtain rfl := Option.some.inj hd
        exact isDigits_iff.mpr hdigits
      · cases h
  · rintro ⟨hindex, rfl⟩
    cases index with
    | none => rfl
    | some digits =>
      show indexOfName? (numberedStem ++ digits) = _
      rw [indexOfName?_of_stem, if_pos (isDigits_iff.mp (hindex digits rfl))]

/-- A name is called like a root exactly if it has an index, which may be none. -/
theorem isRootName_iff : IsRootName s ↔ ∃ index, indexOfName? s = some index := by
  constructor
  · rintro (rfl | ⟨digits, hdigits, rfl⟩)
    · exact ⟨none, rfl⟩
    · refine ⟨some digits, (indexOfName?_eq_some_iff ⟨""⟩).mpr ⟨fun d hd => ?_, rfl⟩⟩
      exact Option.some.inj hd ▸ hdigits
  · rintro ⟨index, h⟩
    obtain ⟨hindex, rfl⟩ := (indexOfName?_eq_some_iff ⟨""⟩).mp h
    cases index with
    | none => exact Or.inl rfl
    | some digits => exact Or.inr ⟨digits, hindex digits rfl, rfl⟩

/-! ## The first directory with such a name -/

/-- A directory is a root exactly if its name is that of a root. -/
theorem ofDirectory?_eq_some_iff : ofDirectory? dir = some root ↔
    root.dir = dir ∧ dir.fileName? = some root.name ∧ IsIndex root.index := by
  obtain ⟨rdir, index⟩ := root
  rw [ofDirectory?, Option.map_eq_some_iff]
  constructor
  · rintro ⟨index', h, heq⟩
    obtain ⟨rfl, rfl⟩ := BytecodeRoot.mk.inj heq
    obtain ⟨s, hname, hs⟩ := Option.bind_eq_some_iff.mp h
    obtain ⟨hindex, rfl⟩ := (indexOfName?_eq_some_iff dir).mp hs
    exact ⟨rfl, hname, hindex⟩
  · rintro ⟨rfl, hname, hindex⟩
    refine ⟨index, Option.bind_eq_some_iff.mpr ⟨_, hname, ?_⟩, rfl⟩
    exact (indexOfName?_eq_some_iff rdir).mpr ⟨hindex, rfl⟩

/-- A directory is no root exactly if it is not called like one. -/
theorem ofDirectory?_eq_none_iff :
    ofDirectory? dir = none ↔ ∀ s, dir.fileName? = some s → ¬ IsRootName s := by
  rw [ofDirectory?, Option.map_eq_none_iff, Option.bind_eq_none_iff]
  refine forall₂_congr fun s _ => ?_
  rw [isRootName_iff, Option.eq_none_iff_forall_ne_some, not_exists]

/-- **The bytecode root of a file is the nearest directory above it that goes by the name of one**,
and is missing only if there is none. The directories above are the initial parts of the path; those
that end in no name are passed over. The name of a root is read back as its index, whatever digits
are in it, and a name that is read as that of a root is the one that such a root has. -/
theorem nearest_root_is_found (file : Path) :
    (∀ cs, cs ≠ [] →
      ((∃ dir ∈ file.ancestors.tail, dir.components = cs) ↔ cs <+: file.components.dropLast)) ∧
    (above? file = none ↔
      ∀ dir ∈ file.ancestors.tail, ∀ s, dir.fileName? = some s → ¬ IsRootName s) ∧
    (∀ root, above? file = some root →
      root.dir ∈ file.ancestors.tail ∧ root.dir.fileName? = some root.name ∧
        IsRootName root.name ∧ indexOfName? root.name = some root.index ∧
        ∀ dir ∈ file.ancestors.tail, root.dir.components.length < dir.components.length →
          ∀ s, dir.fileName? = some s → ¬ IsRootName s) ∧
    (∀ root : BytecodeRoot, IsIndex root.index → indexOfName? root.name = some root.index) ∧
    ∀ s index, indexOfName? s = some index →
      IsIndex index ∧ ∀ dir, s = (BytecodeRoot.mk dir index).name := by
  have hread (root : BytecodeRoot) (hindex : IsIndex root.index) :
      indexOfName? root.name = some root.index :=
    (indexOfName?_eq_some_iff root.dir).mpr ⟨hindex, rfl⟩
  refine ⟨fun cs hcs => Path.exists_mem_ancestors_tail_iff hcs file, ?_, fun root h => ?_, hread,
    fun s index h => ⟨((indexOfName?_eq_some_iff file).mp h).1,
      fun dir => ((indexOfName?_eq_some_iff dir).mp h).2⟩⟩
  · rw [above?, List.findSome?_eq_none_iff]
    exact forall₂_congr fun dir _ => ofDirectory?_eq_none_iff
  · obtain ⟨below, dir, above, hsplit, hdir, hbelow⟩ := List.findSome?_eq_some_iff.mp h
    obtain ⟨rfl, hname, hindex⟩ := ofDirectory?_eq_some_iff.mp hdir
    refine ⟨by rw [hsplit]; simp, hname, isRootName_iff.mpr ⟨_, hread root hindex⟩, hread root hindex,
      fun dir hmem hnearer => ?_⟩
    -- What is nearer than the root comes before it in the walk.
    have hsorted := (Path.pairwise_ancestors file).tail
    rw [hsplit] at hmem hsorted
    rcases List.mem_append.mp hmem with hmem | hmem
    · exact ofDirectory?_eq_none_iff.mp (hbelow dir hmem)
    · rcases List.mem_cons.mp hmem with rfl | hmem
      · omega
      · have hfarther := (List.pairwise_cons.mp (List.pairwise_append.mp hsorted).2.1).1 dir hmem
        omega

/-- A way that leads up again is passed over, leading zeros are kept, and a name with no digits is
none. -/
theorem nearest_root_with_leading_zeros :
    above? ⟨"/a/smali/b/smali_classes007/../c/smali_classes/D.smali"⟩ =
        some ⟨⟨"/a/smali/b/smali_classes007"⟩, some "007"⟩ ∧
      indexOfName? "smali_classes007" = some (some "007") := by
  have hroot : above? ⟨"/a/smali/b/smali_classes007/../c/smali_classes/D.smali"⟩ =
      some ⟨⟨"/a/smali/b/smali_classes007"⟩, some "007"⟩ := by
    decide +kernel
  obtain ⟨-, -, -, hread, -⟩ :=
    (nearest_root_is_found ⟨"/a/smali/b/smali_classes007/../c/smali_classes/D.smali"⟩).2.2.1 _ hroot
  exact ⟨hroot, hread⟩

end BytecodeRoot

end SmaliView
