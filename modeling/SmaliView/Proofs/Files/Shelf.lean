import SmaliView.Proofs.Files.Standing

/-!
# Directories that take every file

In a directory whose files have a dot in their names and whose directories have none, no file is in
the way of another: a file can be stored there if its names fit, whatever else is stored
(`Shelf.exists_store`). A `Shelf` is such a directory with the files in it.
-/

namespace SmaliView

open Text (Bytes)

namespace FileTree

open SmaliView.Path (ofNames IsName)

variable {t u v : FileTree} {dir : Path} {k l m : Location} {above names : List String}
  {name s : String} {content : Bytes} {follow : Bool} {links : Nat} {e : Entry}

/-! ## Walks by names -/

/-- Every name on the way of a walk is short enough. -/
theorem Walks.short {moves : List Step} (h : Walks t follow links l moves m)
    (hname : .down name ∈ moves) : ¬ nameLimit < name.utf8ByteSize := by
  induction h with
  | nil => cases hname
  | here hdir hway ih => exact ih (by simpa using hname)
  | up hdir hway ih => exact ih (by simpa using hname)
  | down hdir hshort hlink hway ih =>
    rcases List.mem_cons.mp hname with heq | hname
    · cases heq
      exact hshort
    · exact ih hname
  | last hdir hshort hlink hends =>
    rcases List.mem_cons.mp hname with heq | hname
    · cases heq
      exact hshort
    · rw [Bool.and_eq_true, List.isEmpty_iff] at hends
      rw [hends.1] at hname
      cases hname
  | follow hdir hshort hlink hgoes htarget hway ih =>
    rcases List.mem_cons.mp hname with heq | hname
    · cases heq
      exact hshort
    · exact ih (List.mem_append_right _ hname)

/-- A walk goes on from where its first part ends, with the links that are left. -/
theorem Walks.walk_append {moves : List Step} (h : Walks t true links l moves m) :
    ∃ links', ∀ follow rest, rest ≠ [] ∨ follow = true →
      t.walk follow links l (moves ++ rest) = t.walk follow links' m rest := by
  induction h with
  | nil links l => exact ⟨links, fun _ _ _ => rfl⟩
  | here hdir hway ih =>
    obtain ⟨links', hrest⟩ := ih
    exact ⟨links', fun follow rest hgoes => by
      rw [List.cons_append, walk_here hdir, hrest follow rest hgoes]⟩
  | up hdir hway ih =>
    obtain ⟨links', hrest⟩ := ih
    exact ⟨links', fun follow rest hgoes => by
      rw [List.cons_append, walk_up hdir, hrest follow rest hgoes]⟩
  | down hdir hshort hlink hway ih =>
    obtain ⟨links', hrest⟩ := ih
    exact ⟨links', fun follow rest hgoes => by
      rw [List.cons_append, walk_down hdir hshort hlink, hrest follow rest hgoes]⟩
  | last hdir hshort hlink hends =>
    simp at hends
  | @follow _ _ _ _ passed _ hdir hshort hlink hfollows htarget hway ih =>
    obtain ⟨links', hrest⟩ := ih
    refine ⟨links', fun follow rest hgoes => ?_⟩
    -- A link is followed also where it was the last step, since the walk goes on.
    have hnot : ¬ ((passed ++ rest).isEmpty && !follow) = true := by
      rcases hgoes with hgoes | rfl
      · simp [hgoes]
      · simp
    rw [List.cons_append, walk_follow hdir hshort hlink, if_neg hnot, if_neg htarget,
      ← List.append_assoc, ← hrest follow rest hgoes]
    rfl

/-- What something lies in is a directory. -/
theorem Sound.directory_above (ht : t.Sound) (hne : names ≠ [])
    (he : t.entryAt? (k ++ names) = some e) : t.entryAt? k = some .directory := by
  -- The names are taken from the end: each thing lies in a directory, which is something itself.
  induction names using List.reverseRecOn generalizing e with
  | nil => exact absurd rfl hne
  | append_singleton names s ih =>
    have hparent := ht.parent _ _ he
    rw [← List.append_assoc, List.dropLast_concat] at hparent
    rcases eq_or_ne names [] with rfl | hmore
    · rwa [List.append_nil] at hparent
    · exact ih hmore hparent

section

variable (hplain : ∀ names, t.link? (k ++ names) = none)
  (hshort : ∀ r ∈ names, ¬ nameLimit < r.utf8ByteSize)
include hplain hshort

/-- Short names lead down through directories. -/
theorem walk_names (ht : t.Sound) (hdir : t.entryAt? (k ++ names.dropLast) = some .directory) :
    t.walk follow links k (names.map .down) = .ok (k ++ names) := by
  induction names generalizing k with
  | nil => rw [List.map_nil, walk_nil, List.append_nil]
  | cons s rest ih =>
    have hlink : t.link? (k ++ [s]) = none := hplain [s]
    have hhere : t.entryAt? k = some .directory := by
      rcases eq_or_ne (s :: rest).dropLast [] with hnil | hne
      · rwa [hnil, List.append_nil] at hdir
      · exact ht.directory_above hne hdir
    rw [List.map_cons, walk_down hhere (hshort s (List.mem_cons_self ..)) hlink]
    -- The names that are left go down from the directory with the first name.
    rcases eq_or_ne rest [] with rfl | hne
    · rw [List.map_nil, walk_nil]
    rw [List.dropLast_cons_of_ne_nil hne] at hdir
    rw [ih (fun names => by rw [List.append_assoc]; exact hplain _)
      (fun r hr => hshort r (List.mem_cons_of_mem _ hr)) (by rwa [List.append_assoc]),
      List.append_assoc]
    rfl

/-- Short names lead nowhere if there is nothing to go down through. -/
theorem walk_names_missing (hne : names ≠ [])
    (hclear : ∀ first e, first <+: names.dropLast → t.entryAt? (k ++ first) = some e →
      e = .directory)
    (hmissing : t.entryAt? (k ++ names.dropLast) = none) :
    t.walk follow links k (names.map .down) = .error .noEntry := by
  induction names generalizing k with
  | nil => exact absurd rfl hne
  | cons s rest ih =>
    have hlink : t.link? (k ++ [s]) = none := hplain [s]
    rw [List.map_cons]
    cases hhere : t.entryAt? k with
    | none =>
      -- The walk stops at the first place where nothing stands.
      rw [walk_of_not_directory (by rw [hhere]; nofun), hhere]
      rfl
    | some e =>
      obtain rfl := hclear [] e (List.nil_prefix) (by rwa [List.append_nil])
      rw [walk_down hhere (hshort s (List.mem_cons_self ..)) hlink]
      rcases eq_or_ne rest [] with rfl | hmore
      · rw [List.dropLast_singleton, List.append_nil, hhere] at hmissing
        cases hmissing
      rw [List.dropLast_cons_of_ne_nil hmore] at hclear hmissing
      refine ih (fun names => by rw [List.append_assoc]; exact hplain _)
        (fun r hr => hshort r (List.mem_cons_of_mem _ hr)) hmore (fun first e hfirst he => ?_)
        (by rwa [List.append_assoc])
      refine hclear (s :: first) e ((List.cons_prefix_cons).mpr ⟨rfl, hfirst⟩) ?_
      rwa [List.append_assoc] at he

end

/-! ## Shelves -/

/-- A directory in which files are stored, and in which files and directories are told apart by
their names: those of files have a dot. -/
structure Shelf (t : FileTree) (dir : Path) (k : Location) (stored : Path → Option Bytes) : Prop
    extends Holds t dir k stored where
  named : ∃ (base : Path) (name : String), IsName name ∧ dir = base / name
  tidy : ∀ names s e, t.entryAt? (k ++ (names ++ [s])) = some e → (e = .directory ↔ '.' ∉ s.toList)

/-- Names that can be gone down by from a directory. -/
structure Fits (dir : Path) (names : List String) : Prop where
  isName : ∀ r ∈ names, IsName r
  short : ∀ r ∈ names, ¬ nameLimit < r.utf8ByteSize
  check : check (dir.downBy names) = .ok ()

/-- A path that can be gone down by from a directory below, and told to be that of a file: the last
name is the only one with a dot. -/
def FileFits (dir : Path) (above : List String) (q : Path) : Prop :=
  ∃ names s, q = ofNames (names ++ [s]) ∧ Fits dir (above ++ (names ++ [s])) ∧
    (∀ r ∈ above ++ names, '.' ∉ r.toList) ∧ '.' ∈ s.toList

theorem FileFits.descends {q : Path} (h : FileFits dir above q) : q.Descends := by
  obtain ⟨names, s, rfl, hfits, -, -⟩ := h
  exact ⟨_, by simp, fun r hr => hfits.isName r (List.mem_append_right _ hr), rfl⟩

/-- A path passes the check if it has a text, no NUL in it, and is not too long. -/
theorem check_eq_ok_iff {p : Path} : FileTree.check p = .ok () ↔
    '\x00' ∉ p.text.toList ∧ p.text ≠ "" ∧ p.text.utf8ByteSize ≤ pathLimit := by
  rw [FileTree.check]
  split
  · next hnul => simp [hnul]
  next hnul =>
  split
  · next hempty => simp [String.isEmpty_iff.mp hempty]
  next hempty =>
  rw [String.isEmpty_iff] at hempty
  split
  · next hlong => simp [hlong]
  · next hshort => simp [hnul, hempty, Nat.not_lt.mp hshort]

/-- What is not refused for a path is not refused for the one that it goes on from. -/
theorem check_of_div (hs : IsName s) {p : Path} (hne : p.text ≠ "")
    (h : FileTree.check (p / s) = .ok ()) : FileTree.check p = .ok () := by
  obtain ⟨rest, hrest⟩ : ∃ rest, (p / s).text = p.text ++ rest := by
    have htext := Path.text_div hs p
    rw [List.append_assoc] at htext
    exact ⟨String.ofList _, String.toList_inj.mp
      (htext.trans (by rw [String.toList_append, String.toList_ofList]))⟩
  obtain ⟨hnul, -, hshort⟩ := check_eq_ok_iff.mp h
  rw [hrest, String.toList_append, List.mem_append, not_or] at hnul
  rw [hrest, String.utf8ByteSize_append] at hshort
  exact check_eq_ok_iff.mpr ⟨hnul.1, hne, by omega⟩

theorem text_downBy_ne_empty (hdir : dir.text ≠ "") (hnames : ∀ r ∈ names, IsName r) :
    (dir.downBy names).text ≠ "" := by
  rw [ne_eq, Path.text_eq_empty_iff, Path.components_downBy hnames, List.append_eq_nil_iff, not_and]
  exact fun h => absurd (Path.text_eq_empty_iff.mpr h) hdir

/-- Names below a directory leave the start of its path. -/
theorem start_downBy (hnames : ∀ r ∈ names, IsName r) (l : Location) :
    start (dir.downBy names) l = start dir l := by
  induction names using List.reverseRecOn with
  | nil => rfl
  | append_singleton names s ih =>
    rw [Path.downBy_concat, start, Path.rooted_div (hnames s (by simp)), ← start,
      ih fun r hr => hnames r (List.mem_append_left _ hr)]

/-- The way to a directory fits if the way to a name in it does. -/
theorem Fits.dropLast (h : Fits dir (names ++ [s])) (hdir : dir.text ≠ "") : Fits dir names where
  isName r hr := h.isName r (List.mem_append_left _ hr)
  short r hr := h.short r (List.mem_append_left _ hr)
  check := by
    have hcheck := h.check
    rw [Path.downBy_concat] at hcheck
    exact check_of_div (h.isName s (by simp))
      (text_downBy_ne_empty hdir fun r hr => h.isName r (List.mem_append_left _ hr)) hcheck

/-- A part of the way fits if the whole way does. -/
theorem Fits.of_append (h : Fits dir (above ++ names)) (hdir : dir.text ≠ "") : Fits dir above := by
  induction names using List.reverseRecOn with
  | nil => rwa [List.append_nil] at h
  | append_singleton names s ih =>
    rw [← List.append_assoc] at h
    exact ih (h.dropLast hdir)

/-- It is the same to store a file below a directory further down. -/
theorem store_downBy (hne : names ≠ []) (hnames : ∀ r ∈ above ++ names, IsName r) :
    t.store (dir.downBy above) (ofNames names, content) =
      t.store dir (ofNames (above ++ names), content) := by
  have hpath : (dir.downBy above).join (ofNames names) = dir.join (ofNames (above ++ names)) := by
    rw [Path.join_ofNames_eq_downBy hne fun r hr => hnames r (List.mem_append_right _ hr),
      Path.join_ofNames_eq_downBy (List.append_ne_nil_of_right_ne_nil _ hne) hnames,
      Path.downBy_append]
  unfold FileTree.store
  dsimp only
  rw [hpath]

namespace Shelf

variable {stored : Path → Option Bytes} (h : Shelf t dir k stored)
include h

theorem text_ne_empty : dir.text ≠ "" := by
  obtain ⟨base, name, hname, rfl⟩ := h.named
  rw [ne_eq, Path.text_eq_empty_iff, Path.components_div hname]
  simp

/-- The steps of names below the directory follow those of the directory. -/
theorem steps_downBy (hnames : ∀ r ∈ names, IsName r) :
    steps (dir.downBy names) = steps dir ++ names.map .down := by
  obtain ⟨base, last, hlast, rfl⟩ := h.named
  induction names using List.reverseRecOn with
  | nil => exact (List.append_nil _).symm
  | append_singleton names s ih =>
    have hs : IsName s := hnames s (by simp)
    specialize ih fun r hr => hnames r (List.mem_append_left _ hr)
    obtain ⟨moves, hsteps, hsame⟩ := steps_div hs ((base / last).downBy names)
    -- Neither the directory nor any path of names below it ends in a step that stays.
    obtain ⟨front, final, hfront⟩ : ∃ front final,
        steps ((base / last).downBy names) = front ++ [.down final] := by
      rw [ih]
      rcases List.eq_nil_or_concat names with rfl | ⟨front, final, rfl⟩
      · obtain ⟨moves, hmoves, -⟩ := steps_div hlast base
        exact ⟨moves, last, by rw [List.map_nil, List.append_nil, hmoves]⟩
      · exact ⟨_, final, by rw [List.concat_eq_append, List.map_append, ← List.append_assoc]; rfl⟩
    have hmoves : steps ((base / last).downBy names) = moves := by
      refine hsame.resolve_right fun hhere => ?_
      rw [hfront] at hhere
      cases (List.append_singleton_inj.mp hhere).2
    rw [Path.downBy_concat, hsteps, ← hmoves, ih, List.map_append, List.append_assoc]
    rfl

/-- A walk along names below the directory is one from the directory. -/
theorem walk_downBy (hnames : ∀ r ∈ names, IsName r) (hgoes : names ≠ [] ∨ follow = true) :
    ∃ links, t.walk follow linkLimit (start (dir.downBy names) t.cwd) (steps (dir.downBy names)) =
      t.walk follow links k (names.map .down) := by
  obtain ⟨links, hrest⟩ := (walk_eq_ok_iff.mp (locate_eq_ok h.located)).walk_append
  refine ⟨links, ?_⟩
  rw [h.steps_downBy hnames, start_downBy hnames]
  exact hrest follow _ (hgoes.imp_left fun hne => by simpa using hne)

/-- A path of names leads down from a directory. -/
theorem walk_of_directory (hfits : Fits dir names) (hgoes : names ≠ [] ∨ follow = true)
    (hdir : t.entryAt? (k ++ names.dropLast) = some .directory) :
    t.walk follow linkLimit (start (dir.downBy names) t.cwd) (steps (dir.downBy names)) =
      .ok (k ++ names) := by
  obtain ⟨links, hwalk⟩ := h.walk_downBy hfits.isName hgoes
  rw [hwalk, walk_names h.plain hfits.short h.grounded.toSound hdir]

/-- A path of names leads to what stands there. -/
theorem locate_of_entry (hne : names ≠ []) (hfits : Fits dir names)
    (he : t.entryAt? (k ++ names) = some e) : t.locate (dir.downBy names) = .ok (k ++ names) := by
  have hparent := h.grounded.parent _ _ he
  rw [List.dropLast_append_of_ne_nil hne] at hparent
  rw [locate_eq hfits.check]
  exact h.walk_of_directory hfits (Or.inl hne) hparent

/-- Names without dots lead to directories, if to anything. -/
theorem directory_of_plain (hplain : ∀ r ∈ names, '.' ∉ r.toList)
    (he : t.entryAt? (k ++ names) = some e) : e = .directory := by
  rcases List.eq_nil_or_concat names with rfl | ⟨above, s, rfl⟩
  · rw [List.append_nil, h.directory] at he
    exact (Option.some.inj he).symm
  · rw [List.concat_eq_append] at hplain he
    exact (h.tidy above s e he).mpr (hplain s (by simp))

/-! ### Directories -/

section

variable (hfits : Fits dir (names ++ [s]))
include hfits

theorem dropEnd_here_downBy :
    Text.dropEnd (· == Step.here) (steps (dir.downBy (names ++ [s]))) =
      steps (dir.downBy (names ++ [s])) := by
  rw [h.steps_downBy hfits.isName, List.map_append, List.map_singleton, ← List.append_assoc,
    dropEnd_here_concat]

/-- A directory is made in one that is there, unless there is one already. -/
theorem makeDirectory_of_directory (hdir : t.entryAt? (k ++ names) = some .directory) :
    t.makeDirectory (dir.downBy (names ++ [s])) =
      if t.entryAt? (k ++ (names ++ [s])) = none then
        .ok (t.put (k ++ (names ++ [s])) .directory)
      else .error .alreadyExists := by
  have hwalk : t.walk false linkLimit (start (dir.downBy (names ++ [s])) t.cwd)
      (steps (dir.downBy (names ++ [s]))) = .ok (k ++ (names ++ [s])) :=
    h.walk_of_directory hfits (Or.inl (by simp)) (by rwa [List.dropLast_concat])
  rw [makeDirectory, hfits.check]
  dsimp only [bind, Except.bind]
  rw [h.dropEnd_here_downBy hfits, hwalk]
  dsimp only
  cases t.entryAt? (k ++ (names ++ [s])) <;> rfl

/-- A name in a directory of the shelf is where its path leads. -/
theorem locate_of_directory (hdir : t.entryAt? (k ++ names) = some .directory) :
    t.locate (dir.downBy (names ++ [s])) = .ok (k ++ (names ++ [s])) := by
  rw [locate_eq hfits.check]
  exact h.walk_of_directory hfits (Or.inl (by simp)) (by rwa [List.dropLast_concat])

variable (hplain : ∀ r ∈ names ++ [s], '.' ∉ r.toList)
include hplain

/-- No directory is made where there is none to lie in. -/
theorem makeDirectory_of_none (hmissing : t.entryAt? (k ++ names) = none) :
    t.makeDirectory (dir.downBy (names ++ [s])) = .error .noEntry := by
  obtain ⟨links, hwalk⟩ : ∃ links, t.walk false linkLimit (start (dir.downBy (names ++ [s])) t.cwd)
      (steps (dir.downBy (names ++ [s]))) = t.walk false links k ((names ++ [s]).map .down) :=
    h.walk_downBy hfits.isName (Or.inl (by simp))
  rw [makeDirectory, hfits.check]
  dsimp only [bind, Except.bind]
  rw [h.dropEnd_here_downBy hfits, hwalk, walk_names_missing h.plain hfits.short (by simp) ?_
    (by rwa [List.dropLast_concat])]
  intro first e hfirst he
  rw [List.dropLast_concat] at hfirst
  exact h.directory_of_plain (fun r hr => hplain r (List.mem_append_left _ (hfirst.subset hr))) he

/-- A new directory whose name has no dot. -/
theorem put_directory (hdir : t.entryAt? (k ++ names) = some .directory)
    (hfree : t.entryAt? (k ++ (names ++ [s])) = none) :
    Shelf (t.put (k ++ (names ++ [s])) .directory) dir k stored := by
  have hmade := h.makeDirectory_of_directory hfits hdir
  rw [if_pos hfree] at hmade
  obtain ⟨hfurnished, hground⟩ :=
    (Furnished.refl [dir.downBy (names ++ [s])] t).makeDirectory h.grounded
      (List.mem_singleton_self _) hmade
  refine ⟨h.furnished hfurnished hground, h.named, fun names' s' e he => ?_⟩
  rw [entryAt?_put t (by simp)] at he
  split at he
  · next heq =>
    obtain rfl := Option.some.inj he
    obtain ⟨-, rfl⟩ := List.append_singleton_inj.mp (List.append_cancel_left heq)
    exact iff_of_true rfl (hplain s' (by simp))
  · exact h.tidy names' s' e he

/-- In a directory that is there another one is made, or it is there already. -/
theorem exists_makeDirectory (hdir : t.entryAt? (k ++ names) = some .directory) :
    ∃ u, Shelf u dir k stored ∧ u.entryAt? (k ++ (names ++ [s])) = some .directory ∧
      (t.makeDirectory (dir.downBy (names ++ [s])) = .ok u ∨
        t.makeDirectory (dir.downBy (names ++ [s])) = .error .alreadyExists ∧ u = t ∧
          t.isDirectory (dir.downBy (names ++ [s])) = true) := by
  have hmade := h.makeDirectory_of_directory hfits hdir
  -- What stands at a name without a dot is a directory, so that it is no obstacle.
  cases hentry : t.entryAt? (k ++ (names ++ [s])) with
  | none =>
    rw [if_pos hentry] at hmade
    refine ⟨_, h.put_directory hfits hplain hdir hentry, ?_, Or.inl hmade⟩
    rw [entryAt?_put t (by simp), if_pos rfl]
  | some e =>
    obtain rfl := h.directory_of_plain hplain hentry
    rw [if_neg (by rw [hentry]; nofun)] at hmade
    exact ⟨t, h, hentry, Or.inr ⟨hmade, rfl,
      isDirectory_iff.mpr ⟨_, h.locate_of_directory hfits hdir, hentry⟩⟩⟩

/-- A directory on the shelf can be ensured below one that is there. -/
theorem exists_ensureDirectory (hdir : t.entryAt? (k ++ names) = some .directory) :
    ∃ u, Shelf u dir k stored ∧ u.entryAt? (k ++ (names ++ [s])) = some .directory ∧
      t.ensureDirectory (dir.downBy (names ++ [s])) = (u, .ok ()) := by
  obtain ⟨u, hu, hentry, hmade | ⟨hmade, rfl, hthere⟩⟩ := h.exists_makeDirectory hfits hplain hdir
  · exact ⟨u, hu, hentry, by rw [ensureDirectory, hmade]⟩
  · exact ⟨u, hu, hentry, by rw [ensureDirectory, hmade]; dsimp only; rw [if_pos hthere]⟩

end

/-- All directories can be made that names without dots lead down through. -/
theorem exists_makeAll (hne : names ≠ []) (hfits : Fits dir names)
    (hplain : ∀ r ∈ names, '.' ∉ r.toList) :
    ∃ u, Shelf u dir k stored ∧ u.entryAt? (k ++ names) = some .directory ∧
      t.makeAll (dir.downBy names).ancestors = (u, .ok ()) := by
  induction names using List.reverseRecOn with
  | nil => exact absurd rfl hne
  | append_singleton above s ih =>
    have hstep : (dir.downBy (above ++ [s])).ancestors =
        dir.downBy (above ++ [s]) :: (dir.downBy above).ancestors := by
      obtain ⟨base, last, hlast, rfl⟩ := h.named
      exact Path.ancestors_downBy_concat hlast hfits.isName base
    have hcomponents : (dir.downBy (above ++ [s])).components ≠ [] := by
      rw [Path.components_downBy hfits.isName]
      simp
    rw [hstep, makeAll, if_neg hcomponents]
    cases hparent : t.entryAt? (k ++ above) with
    | some e =>
      obtain rfl := h.directory_of_plain (fun r hr => hplain r (List.mem_append_left _ hr)) hparent
      obtain ⟨u, hu, hentry, hmade | ⟨hmade, rfl, hthere⟩⟩ :=
        h.exists_makeDirectory hfits hplain hparent
      · exact ⟨u, hu, hentry, by rw [hmade]⟩
      · refine ⟨u, hu, hentry, ?_⟩
        rw [hmade]
        dsimp only
        rw [if_neg (by decide), ensureDirectory, hmade]
        dsimp only
        rw [if_pos hthere]
    | none =>
      -- The directory that it lies in is made first, and then it is tried once more.
      have hmore : above ≠ [] := by
        rintro rfl
        rw [List.append_nil, h.directory] at hparent
        cases hparent
      obtain ⟨u, hu, hthere, hall⟩ := ih hmore (hfits.dropLast h.text_ne_empty)
        fun r hr => hplain r (List.mem_append_left _ hr)
      obtain ⟨v, hv, hentry, hmade⟩ := hu.exists_ensureDirectory hfits hplain hthere
      refine ⟨v, hv, hentry, ?_⟩
      rw [h.makeDirectory_of_none hfits hplain hparent]
      dsimp only
      rw [if_pos rfl, hall]
      exact hmade

/-! ### Files -/

/-- Where a name with a dot leads there is no directory. -/
theorem atMostFile (hdot : '.' ∈ s.toList) : t.AtMostFile (k ++ (names ++ [s])) := by
  intro e he
  cases e with
  | file content modified may => exact ⟨content, modified, may, rfl⟩
  | directory => exact absurd hdot ((h.tidy names s _ he).mp rfl)
  | link target =>
    have hlink := h.plain (names ++ [s])
    rw [link?, he] at hlink
    cases hlink

section

variable (hfits : Fits dir (names ++ [s])) (hdot : '.' ∈ s.toList)
  (hdir : t.entryAt? (k ++ names) = some .directory)
include hfits hdot hdir

/-- A file whose name has a dot. -/
theorem put_file (content : Bytes) (modified : Instant) {may : Permissions}
    (hreadable : may.readable = true) :
    Shelf (t.put (k ++ (names ++ [s])) (.file content modified may)) dir k
      fun q => if (ofNames (names ++ [s])).same q = true then some content else stored q := by
  have hlocate := h.locate_of_directory hfits hdir
  rw [← Path.join_ofNames_eq_downBy (by simp) hfits.isName] at hlocate
  refine ⟨h.put (by simp) hfits.isName modified hlocate (h.atMostFile hdot) hreadable,
    h.named, fun names' s' e he => ?_⟩
  rw [entryAt?_put t (by simp)] at he
  split at he
  -- The new name has a dot, and what stands there is a file.
  · next heq =>
    obtain rfl := Option.some.inj he
    obtain ⟨-, rfl⟩ := List.append_singleton_inj.mp (List.append_cancel_left heq)
    exact iff_of_false nofun fun hnot => hnot hdot
  · exact h.tidy names' s' e he

/-- A file can be written on the shelf below a directory that is there. -/
theorem exists_write (content : Bytes) :
    ∃ u, t.write (dir.downBy (names ++ [s])) content = .ok u ∧
      Shelf u dir k fun q =>
        if (ofNames (names ++ [s])).same q = true then some content else stored q := by
  have hlocate := h.locate_of_directory hfits hdir
  have hfile : t.AtMostFile (k ++ (names ++ [s])) := h.atMostFile hdot
  rw [FileTree.write, hlocate]
  dsimp only [bind, Except.bind]
  -- A file is written anew or over another one, never over a directory.
  cases hentry : t.entryAt? (k ++ (names ++ [s])) with
  | none => exact ⟨_, rfl, h.put_file hfits hdot hdir content t.now rfl⟩
  | some e =>
    obtain ⟨old, modified, may, rfl⟩ := hfile e hentry
    exact ⟨_, rfl, h.put_file hfits hdot hdir content t.now
      (h.only (names ++ [s]) old modified may hfits.isName hentry).1⟩

/-- A file is copied to a name with a dot. -/
theorem exists_copy {source : Path} (hread : t.read source = .ok content) :
    ∃ u, t.copy source (dir.downBy (names ++ [s])) = .ok u ∧
      Shelf u dir k fun q =>
        if (ofNames (names ++ [s])).same q = true then some content else stored q := by
  obtain ⟨modified, may, hfind, hreadable⟩ := read_eq_ok hread
  have hlocate := h.locate_of_directory hfits hdir
  have hfile : t.AtMostFile (k ++ (names ++ [s])) := h.atMostFile hdot
  have hput := h.put_file hfits hdot hdir content t.now hreadable
  rw [FileTree.copy, hfind]
  dsimp only [bind, Except.bind]
  rw [if_neg (by simp [hreadable]), hlocate]
  dsimp only
  cases hentry : t.entryAt? (k ++ (names ++ [s])) with
  | none => exact ⟨_, rfl, hput⟩
  | some e =>
    obtain ⟨old, modified', may', rfl⟩ := hfile e hentry
    exact ⟨_, rfl, hput⟩

end

/-- A file is stored in directories whose names have no dots. -/
theorem exists_store (hne : names ≠ []) (hfits : Fits dir (names ++ [s]))
    (hplain : ∀ r ∈ names, '.' ∉ r.toList) (hdot : '.' ∈ s.toList) (content : Bytes) :
    ∃ u, t.store dir (ofNames (names ++ [s]), content) = .ok u ∧
      Shelf u dir k fun q =>
        if (ofNames (names ++ [s])).same q = true then some content else stored q := by
  obtain ⟨u, hu, hdir, hmade⟩ := h.exists_makeAll hne (hfits.dropLast h.text_ne_empty) hplain
  obtain ⟨v, hwritten, hv⟩ := hu.exists_write hfits hdot hdir content
  have hparent : (dir.downBy (names ++ [s])).parent? = some (dir.downBy names) := by
    obtain ⟨front, r, rfl⟩ := (List.eq_nil_or_concat names).resolve_left hne
    rw [List.concat_eq_append] at hfits ⊢
    rw [Path.downBy_concat, Path.downBy_concat]
    exact Path.parent?_div_div (hfits.isName r (by simp)) (hfits.isName s (by simp)) _
  -- Both parts of storing succeed, one after the other.
  refine ⟨v, ?_, hv⟩
  unfold FileTree.store
  dsimp only
  rw [Path.join_ofNames_eq_downBy (by simp) hfits.isName, hparent]
  dsimp only [bind, Except.bind]
  rw [makeDirectories, hmade]
  exact hwritten

/-- All files are stored that fit, and those with other paths stay. -/
theorem exists_storeAll (habove : above ≠ []) {files : List (Path × Bytes)}
    (hfiles : ∀ file ∈ files, FileFits dir above file.1) :
    ∃ u stored', files.foldlM (FileTree.store (dir.downBy above)) t = .ok u ∧
      Shelf u dir k stored' ∧ ∀ r, IsName r → stored' (ofNames [r]) = stored (ofNames [r]) := by
  -- Each file leaves a shelf behind, on which the next ones are stored.
  induction files generalizing t stored with
  | nil => exact ⟨t, stored, rfl, h, fun _ _ => rfl⟩
  | cons file files ih =>
    obtain ⟨path, content⟩ := file
    obtain ⟨names, s, rfl, hfits, hplain, hdot⟩ := hfiles _ (List.mem_cons_self ..)
    rw [← List.append_assoc] at hfits
    obtain ⟨u, hu, hshelf⟩ := h.exists_store (List.append_ne_nil_of_left_ne_nil habove names) hfits
      hplain hdot content
    obtain ⟨v, stored', hv, hlast, hkept⟩ :=
      ih hshelf fun file hfile => hfiles file (List.mem_cons_of_mem _ hfile)
    rw [List.append_assoc] at hfits hu
    refine ⟨v, stored', ?_, hlast, fun r hr => ?_⟩
    · rw [List.foldlM_cons, store_downBy (by simp) hfits.isName, hu]
      exact hv
    · -- The file has at least two names on its path.
      have hother : ¬ (ofNames (above ++ (names ++ [s]))).same (ofNames [r]) = true := by
        rw [Path.same_ofNames_iff hfits.isName (List.forall_mem_singleton.mpr hr)]
        intro heq
        have hlength := congrArg List.length heq
        have hpos := List.length_pos_of_ne_nil habove
        simp at hlength
        omega
      rw [hkept r hr, List.append_assoc, if_neg hother]

/-- Names fit if a file can be stored by them in any state of the directory. -/
theorem fits_of_store (hne : names ≠ []) (hnames : ∀ r ∈ names, IsName r)
    (hu : t.store dir (ofNames names, content) = .ok u) : Fits dir names := by
  unfold FileTree.store at hu
  dsimp only at hu
  rw [Path.join_ofNames_eq_downBy hne hnames] at hu
  -- Whatever was made for it, the file was written in the end, and its path is the same.
  obtain ⟨v, hv⟩ : ∃ v : FileTree, v.write (dir.downBy names) content = .ok u := by
    cases hparent : (dir.downBy names).parent? with
    | none =>
      rw [hparent] at hu
      exact ⟨t, hu⟩
    | some parent =>
      rw [hparent] at hu
      dsimp only [bind, Except.bind] at hu
      cases hmade : t.makeDirectories parent with
      | error e =>
        rw [hmade] at hu
        cases hu
      | ok v =>
        rw [hmade] at hu
        exact ⟨v, hu⟩
  obtain ⟨l, -, hl, -⟩ := write_eq_ok hv
  refine ⟨hnames, fun r hr => ?_, check_of_locate hl⟩
  have hwalks := walk_eq_ok_iff.mp (locate_eq_ok hl)
  rw [h.steps_downBy hnames] at hwalks
  exact hwalks.short (List.mem_append_right _ (List.mem_map_of_mem hr))

end Shelf

/-- A file that is stored directly in the directory is read. -/
theorem Holds.read_div {stored : Path → Option Bytes} (h : Holds t dir k stored) (hs : IsName s)
    (hstored : stored (ofNames [s]) = some content) : t.read (dir / s) = .ok content := by
  have hreads := h.reads (List.cons_ne_nil s []) (List.forall_mem_singleton.mpr hs)
  rw [hstored, Path.join_ofNames_singleton hs] at hreads
  exact hreads.2

/-- What is stored in a directory further down. -/
theorem Holds.below {stored stored' : Path → Option Bytes} (h : Holds t dir k stored)
    (habove : ∀ r ∈ above, IsName r) (hlocated : t.locate (dir.downBy above) = .ok (k ++ above))
    (hdir : t.entryAt? (k ++ above) = some .directory)
    (hsame : ∀ names, names ≠ [] → (∀ r ∈ names, IsName r) →
      stored' (ofNames names) = stored (ofNames (above ++ names))) :
    Holds t (dir.downBy above) (k ++ above) stored' where
  grounded := h.grounded
  located := hlocated
  directory := hdir
  plain names := List.append_assoc k .. ▸ h.plain (above ++ names)
  only names content modified may hnames hentry := by
    rcases eq_or_ne names [] with rfl | hne
    · rw [List.append_nil, hdir] at hentry
      cases hentry
    · have hall : ∀ r ∈ above ++ names, IsName r :=
        fun r hr => (List.mem_append.mp hr).elim (habove r) (hnames r)
      rw [List.append_assoc] at hentry
      rw [hsame names hne hnames]
      exact h.only _ content modified may hall hentry
  written names content hne hnames hstored := by
    have hall : ∀ r ∈ above ++ names, IsName r := List.forall_mem_append.mpr ⟨habove, hnames⟩
    rw [hsame names hne hnames] at hstored
    have hmore : above ++ names ≠ [] := List.append_ne_nil_of_right_ne_nil _ hne
    have hfound := h.written _ content hmore hall hstored
    rwa [Path.join_ofNames_eq_downBy hmore hall, Path.downBy_append,
      ← Path.join_ofNames_eq_downBy hne hnames] at hfound

/-- A new directory is a shelf on which nothing is stored. -/
theorem Site.shelf (h : Site u dir k) : Shelf (u.put k .directory) dir k fun _ => none := by
  have hin := h.inside
  -- The directory is new, so that nothing can lie in it.
  have hempty (name : String) (rest : Location) :
      (u.put k .directory).entryAt? (k ++ name :: rest) = none := by
    cases hentry : (u.put k .directory).entryAt? (k ++ name :: rest) with
    | none => rfl
    | some e => cases hin.holds name rest e hentry
  have hground : (u.put k .directory).Grounded := by
    have hwalk := walk_eq_ok_iff.mp (locate_eq_ok h.located)
    obtain ⟨m, name, rfl, hname, hdir⟩ := h.grounded.walks_new
      (fun _ => isName_of_mem_steps) hwalk (h.grounded.start dir) h.free
    exact h.grounded.put hdir (by rw [h.free]; nofun) hname _
  -- Nothing at the end of the path is a link, so that it leads there when links are followed.
  have hlead : (u.put k .directory).locate dir = .ok k := by
    have hlocated := h.locate hin
    have hwalk := walk_eq_ok_iff.mp (locate_eq_ok hlocated)
    rw [locate_eq (check_of_locate hlocated)]
    exact (hwalk.following (by rw [link?, hin.stands])).walk
  refine ⟨holds_of_empty hground hlead hin.stands hempty, h.named, fun names s e he => ?_⟩
  obtain ⟨name, rest, hnames⟩ := List.exists_cons_of_ne_nil
    (List.append_ne_nil_of_right_ne_nil names (List.cons_ne_nil s []))
  rw [hnames, hempty] at he
  cases he

end FileTree

end SmaliView
