import SmaliView.Proofs.Files.Ancestors
import SmaliView.Proofs.Files.Storing

/-!
# What stands after a change

A file that was copied is there, and so is a directory that was made with all that it lies in. A
directory stays where it is when files are written and directories are made elsewhere. None of this
asks how the tree came about.
-/

namespace SmaliView.FileTree

open Text (Bytes)

variable {t u : FileTree} {p : Path} {name : String} {k : Location}

/-- A path that leads to an entry is contained in the tree. -/
theorem contains_of_entry {e : Entry} (hk : t.locate p = .ok k) (he : t.entryAt? k = some e) :
    t.contains p = true := by
  rw [contains, find_of_locate hk, he]
  rfl

/-- A directory at a path, by the location that the path leads to. -/
theorem isDirectory_iff :
    t.isDirectory p = true ↔ ∃ k, t.locate p = .ok k ∧ t.entryAt? k = some .directory := by
  rw [isDirectory]
  constructor
  · intro h
    split at h
    · next hfind => exact exists_locate_of_find hfind
    · cases h
  · rintro ⟨k, hk, he⟩
    rw [find_of_locate hk, he]

theorem contains_of_isDirectory (h : t.isDirectory p = true) : t.contains p = true := by
  obtain ⟨k, hk, he⟩ := isDirectory_iff.mp h
  exact contains_of_entry hk he

theorem contains_of_list {names : List String} (h : t.list p = .ok names) :
    t.contains p = true := by
  rw [list] at h
  cases hk : t.locate p with
  | error e =>
    rw [hk] at h
    cases h
  | ok k =>
    rw [hk] at h
    cases he : t.entryAt? k with
    | none =>
      dsimp only [bind, Except.bind] at h
      rw [he] at h
      cases h
    | some e => exact contains_of_entry hk he

/-! ## Files -/

/-- What it takes to read a file. -/
theorem read_eq_ok {content : Bytes} (h : t.read p = .ok content) :
    ∃ modified may, t.find p = .ok (.file content modified may) ∧ may.readable = true := by
  rw [read] at h
  rcases hfind : t.find p with e | (⟨content', modified, may⟩ | _ | link)
  · rw [hfind] at h
    cases h
  · rw [hfind] at h
    dsimp only [bind, Except.bind] at h
    split at h
    · next hreadable =>
      cases h
      exact ⟨modified, may, rfl, hreadable⟩
    · cases h
  · rw [hfind] at h
    cases h
  · rw [hfind] at h
    cases h

/-- What it takes to copy a file, and what comes of it. -/
theorem copy_eq_ok {source target : Path} (h : t.copy source target = .ok u) :
    ∃ content modified may l, t.find source = .ok (.file content modified may) ∧
      may.readable = true ∧ t.locate target = .ok l ∧ t.AtMostFile l ∧
      u = t.put l (.file content t.now may) := by
  rw [copy] at h
  rcases hfind : t.find source with e | (⟨content, modified, may⟩ | _ | link)
  · rw [hfind] at h
    cases h
  · rw [hfind] at h
    dsimp only [bind, Except.bind] at h
    split at h
    · cases h
    next hreadable =>
    cases hl : t.locate target with
    | error e =>
      rw [hl] at h
      cases h
    | ok l =>
      rw [hl] at h
      dsimp only at h
      refine ⟨content, modified, may, l, rfl, by simpa using hreadable, rfl, ?_⟩
      rcases hentry : t.entryAt? l with _ | (⟨old, modified', may'⟩ | _ | link)
      · rw [hentry] at h
        exact ⟨atMostFile_of_none hentry, (Except.ok.inj h).symm⟩
      · rw [hentry] at h
        exact ⟨atMostFile_of_file hentry, (Except.ok.inj h).symm⟩
      · rw [hentry] at h
        cases h
      · rw [hentry] at h
        cases h
  · rw [hfind] at h
    cases h
  · rw [hfind] at h
    cases h

/-- The target of a copy is there afterwards. -/
theorem contains_copy {source target : Path} (h : t.copy source target = .ok u) :
    u.contains target = true := by
  obtain ⟨content, -, may, l, -, -, hl, hfile, rfl⟩ := copy_eq_ok h
  have hentry := entryAt?_put t hfile.ne_nil (.file content t.now may) l
  rw [if_pos rfl] at hentry
  exact contains_of_entry ((hfile.apart_put t.now may).locate_iff.mp hl) hentry

/-- A file is written where no directory stands. -/
theorem isDirectory_write {q : Path} {content : Bytes} (h : t.write q content = .ok u)
    (hp : t.isDirectory p = true) : u.isDirectory p = true := by
  obtain ⟨l, may, -, rfl, hold⟩ := write_eq_ok h
  have hfile : t.AtMostFile l := by
    rcases hold with ⟨hfree, -⟩ | ⟨old, modified, hold⟩
    · exact atMostFile_of_none hfree
    · exact atMostFile_of_file hold
  obtain ⟨k, hk⟩ := isDirectory_iff.mp hp
  exact isDirectory_iff.mpr ⟨k, (hfile.apart_put t.now may).directory_iff.mp hk⟩

/-! ## Directories -/

/-- A directory stays one in a tree that extends the first. -/
theorem Extends.isDirectory (h : Extends t u) (hp : t.isDirectory p = true) :
    u.isDirectory p = true := by
  obtain ⟨k, hk, he⟩ := isDirectory_iff.mp hp
  exact isDirectory_iff.mpr ⟨k, h.locate hk, h.kept k _ he⟩

theorem extends_makeDirectory (h : t.makeDirectory p = .ok u) : Extends t u := by
  obtain ⟨-, k, hk, rfl, -⟩ := makeDirectory_eq_ok h
  exact (grows_put_directory hk).extends

theorem extends_refl (t : FileTree) : Extends t t := (Grows.refl t).extends

theorem extends_ensureDirectory (t : FileTree) (p : Path) : Extends t (t.ensureDirectory p).1 := by
  rw [ensureDirectory]
  cases hmade : t.makeDirectory p with
  | ok u => exact extends_makeDirectory hmade
  | error e => exact extends_refl t

/-- Making directories leaves what was there before. -/
theorem extends_makeAll (t : FileTree) (ps : List Path) : Extends t (t.makeAll ps).1 := by
  induction ps with
  | nil => exact extends_refl t
  | cons p above ih =>
    rw [makeAll]
    split
    · exact extends_refl t
    split
    · next u hmade => exact extends_makeDirectory hmade
    split
    · split
      · next u habove =>
        rw [habove] at ih
        exact ih.trans (extends_ensureDirectory u p)
      · next u e habove =>
        rw [habove] at ih
        exact ih
    · exact extends_ensureDirectory t p

/-- A directory that was made at a name stands there. -/
theorem isDirectory_makeDirectory (hname : Path.IsName name) (h : t.makeDirectory (p / name) = .ok u) :
    u.isDirectory (p / name) = true := by
  obtain ⟨hcheck, k, hk, rfl, hwalk⟩ := makeDirectory_eq_ok h
  have hgrows := grows_put_directory hk
  have hdir : (t.put k .directory).entryAt? k = some .directory := by
    have hnil : k ≠ [] := by
      rintro rfl
      cases hk.symm.trans (entryAt?_nil t)
    rw [entryAt?_put t hnil, if_pos rfl]
  obtain ⟨moves, hsteps, -, -⟩ := exists_moves hname t p
  rw [hsteps, dropEnd_here_concat, ← hsteps, walk_eq_ok_iff] at hwalk
  refine isDirectory_iff.mpr ⟨k, ?_, hdir⟩
  rw [locate_eq hcheck, hgrows.cwd, walk_eq_ok_iff]
  -- The walk that found the place ends at the directory now, whether or not the last link is
  -- followed.
  exact (hgrows.extends.walks hwalk).following (by rw [link?, hdir])

/-- A directory that was ensured is one. -/
theorem isDirectory_ensureDirectory (hname : Path.IsName name)
    (h : t.ensureDirectory (p / name) = (u, .ok ())) : u.isDirectory (p / name) = true := by
  rw [ensureDirectory] at h
  cases hmade : t.makeDirectory (p / name) with
  | ok v =>
    rw [hmade] at h
    obtain rfl : v = u := congrArg Prod.fst h
    exact isDirectory_makeDirectory hname hmade
  | error e =>
    rw [hmade] at h
    obtain ⟨rfl, hdone⟩ := Prod.mk.inj h
    -- It was refused, but a directory stands there already.
    split at hdone
    · next hdir => exact hdir
    · cases hdone

/-- A directory at a name that was made with all that it lies in stands there. -/
theorem isDirectory_makeAll (hname : Path.IsName name)
    (h : t.makeAll (p / name).ancestors = (u, .ok ())) : u.isDirectory (p / name) = true := by
  have hne : (p / name).components ≠ [] := by
    rw [Path.components_div hname]
    simp
  obtain ⟨above, habove⟩ : ∃ above, (p / name).ancestors = p / name :: above := by
    rw [Path.ancestors_eq]
    exact ⟨_, rfl⟩
  rw [habove, makeAll, if_neg hne] at h
  cases hmade : t.makeDirectory (p / name) with
  | ok v =>
    rw [hmade] at h
    obtain rfl : v = u := congrArg Prod.fst h
    exact isDirectory_makeDirectory hname hmade
  | error e =>
    rw [hmade] at h
    dsimp only at h
    split at h
    -- The directories above are made, and then this one once more.
    · rcases hall : t.makeAll above with ⟨v, e' | _⟩
      · rw [hall] at h
        cases h
      · rw [hall] at h
        exact isDirectory_ensureDirectory hname h
    · exact isDirectory_ensureDirectory hname h

end SmaliView.FileTree
