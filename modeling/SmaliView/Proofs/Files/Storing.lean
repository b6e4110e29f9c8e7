import SmaliView.Proofs.Files.Growth
import SmaliView.Proofs.Files.Segments

/-!
# Files stored below a directory

Files are stored below a directory one after another, each in directories that are made for it.
`Holds` says which files lie there. Storing one more changes what it says at the path of the file and
nowhere else (`Holds.store`), so that in the end the last file with a path is the one that lies
there (`Holds.storeAll`).
-/

namespace SmaliView

open Text (Bytes)

/-- A path that leads down by names, at least one of them. -/
def Path.Descends (q : Path) : Prop :=
  ∃ names, names ≠ [] ∧ (∀ r ∈ names, IsName r) ∧ q = ofNames names

theorem Path.same_self (p : Path) : p.same p = true := beq_self_eq_true p.components

/-- Paths of names are the same exactly if the names are. -/
theorem Path.same_ofNames_iff {names names' : List String} (h : ∀ r ∈ names, IsName r)
    (h' : ∀ r ∈ names', IsName r) :
    (ofNames names).same (ofNames names') = true ↔ names = names' := by
  rw [same, beq_iff_eq, components_ofNames h, components_ofNames h',
    (List.map_injective_iff.mpr fun _ _ => Component.name.inj).eq_iff]

namespace FileTree

open SmaliView.Path (ofNames IsName)

variable {t u v : FileTree} {dir : Path} {k l m : Location} {names : List String} {name : String}
  {content : Bytes}

/-- Write a file below a directory, in directories that are made for it. -/
def store (dir : Path) (t : FileTree) (output : Path × Bytes) : Except SystemError FileTree := do
  let t ← match (dir.join output.1).parent? with
    | some parent => t.makeDirectories parent
    | none => .ok t
  t.write (dir.join output.1) output.2

/-- What the last of several files with a path holds. -/
def lastAt (outputs : List (Path × Bytes)) (q : Path) : Option Bytes :=
  (outputs.reverse.find? (·.1.same q)).map Prod.snd

/-- A file that is stored later at the same path counts. -/
theorem lastAt_concat (outputs : List (Path × Bytes)) (output : Path × Bytes) (q : Path) :
    lastAt (outputs ++ [output]) q =
      if output.1.same q = true then some output.2 else lastAt outputs q := by
  rw [lastAt, List.reverse_concat, List.find?_cons, lastAt]
  cases output.1.same q <;> rfl

/-- Below a directory without links lie just the given files, by the paths that lead down to
them. -/
structure Holds (t : FileTree) (dir : Path) (k : Location) (stored : Path → Option Bytes) :
    Prop where
  grounded : t.Grounded
  located : t.locate dir = .ok k
  directory : t.entryAt? k = some .directory
  plain : ∀ names, t.link? (k ++ names) = none
  only : ∀ names content modified may, (∀ r ∈ names, IsName r) →
    t.entryAt? (k ++ names) = some (.file content modified may) →
      may.readable = true ∧ stored (ofNames names) = some content
  written : ∀ names content, names ≠ [] → (∀ r ∈ names, IsName r) →
    stored (ofNames names) = some content →
      ∃ modified may, t.find (dir.join (ofNames names)) = .ok (.file content modified may)

/-! ## Where the files lie -/

section

variable (hway : t.Reaches (start dir t.cwd, steps dir) (k, []))
  (plain : ∀ names, t.link? (k ++ names) = none) (hnames : ∀ r ∈ names, IsName r)
include hway plain hnames

/-- Without links, names lead from a directory down to what they name. -/
theorem reaches_join_ofNames (hne : names ≠ []) :
    t.Reaches (start (dir.join (ofNames names)) t.cwd, steps (dir.join (ofNames names)))
      (k ++ names, []) := by
  induction names using List.reverseRecOn with
  | nil => exact absurd rfl hne
  | append_singleton names s ih =>
    have hs : IsName s := hnames s (by simp)
    have hlink : t.link? (k ++ names ++ [s]) = none := List.append_assoc k .. ▸ plain _
    rw [← List.append_assoc]
    rcases eq_or_ne names [] with rfl | hmore
    · rw [List.append_nil] at hlink ⊢
      rw [List.nil_append, Path.join_ofNames_singleton hs]
      exact Reaches.div hs hway hlink
    · rw [Path.join_ofNames_concat hnames]
      exact Reaches.div hs (ih (fun r hr => hnames r (List.mem_append_left _ hr)) hmore) hlink

/-- They lead nowhere else, and the last one is looked up in a directory. -/
theorem locate_join_ofNames (hne : names ≠ [])
    (hl : t.locate (dir.join (ofNames names)) = .ok l) :
    l = k ++ names ∧ t.entryAt? (k ++ names.dropLast) = some .directory := by
  obtain ⟨above, s, rfl⟩ := (List.eq_nil_or_concat names).resolve_left hne
  rw [List.concat_eq_append] at hnames hne hl ⊢
  have hs : IsName s := hnames s (by simp)
  obtain ⟨base, hbase, habove⟩ : ∃ base : Path, dir.join (ofNames (above ++ [s])) = base / s ∧
      t.Reaches (start base t.cwd, steps base) (k ++ above, []) := by
    rcases eq_or_ne above [] with rfl | hmore
    · refine ⟨dir, Path.join_ofNames_singleton hs dir, ?_⟩
      rw [List.append_nil]
      exact hway
    · exact ⟨_, Path.join_ofNames_concat hnames dir, reaches_join_ofNames hway plain
        (fun r hr => hnames r (List.mem_append_left _ hr)) hmore⟩
  -- The walk comes to the directory of the last name, and takes one step down from it.
  obtain ⟨moves, hsteps, -, hend⟩ := exists_moves hs t base
  have hwalk := locate_eq_ok hl
  rw [hbase, hsteps, walk_eq_ok_iff] at hwalk
  obtain ⟨m, hm, hdir, hlast⟩ := hwalk.concat
  have hreach := reaches_of_treads (treads_of_walk t true _ _ _ hm.walk (by rw [link?, hdir]))
  obtain rfl : m = k ++ above := Reaches.end_unique hreach (hend _ habove)
  rw [List.dropLast_concat]
  exact ⟨(hlast (Or.inr (List.append_assoc k .. ▸ plain _))).trans (List.append_assoc ..), hdir⟩

end

/-! ## Writing -/

/-- What it takes to write a file, and what comes of it. -/
theorem write_eq_ok {p : Path} (h : t.write p content = .ok u) :
    ∃ l may, t.locate p = .ok l ∧ u = t.put l (.file content t.now may) ∧
      (t.entryAt? l = none ∧ may.readable = true ∨
        ∃ old modified, t.entryAt? l = some (.file old modified may)) := by
  rw [write] at h
  cases hl : t.locate p with
  | error e =>
    rw [hl] at h
    cases h
  | ok l =>
    rw [hl] at h
    dsimp only [bind, Except.bind] at h
    rcases hentry : t.entryAt? l with _ | (⟨old, modified, may⟩ | _ | target)
    · rw [hentry] at h
      exact ⟨l, {}, rfl, (Except.ok.inj h).symm, Or.inl ⟨hentry, rfl⟩⟩
    · rw [hentry] at h
      exact ⟨l, may, rfl, (Except.ok.inj h).symm, Or.inr ⟨old, modified, hentry⟩⟩
    · rw [hentry] at h
      cases h
    · rw [hentry] at h
      cases h

/-- Only the file that is put at a location is another one. -/
theorem AtMostFile.apart_put (hl : t.AtMostFile l) (modified : Instant) (may : Permissions) :
    Apart l t (t.put l (.file content modified may)) := by
  have hput := entryAt?_put t hl.ne_nil (.file content modified may) l
  rw [if_pos rfl] at hput
  exact ⟨(t.entries.keep_put (by simp) _).symm, rfl, rfl, hl, atMostFile_of_file hput⟩

namespace Holds

variable {stored : Path → Option Bytes} (h : Holds t dir k stored)
include h

/-- The path of the directory leads to it. -/
theorem way : t.Reaches (start dir t.cwd, steps dir) (k, []) :=
  reaches_of_locate h.located (by rw [link?, h.directory])

/-- What is found below the directory is what is stored there. -/
theorem reads (hne : names ≠ []) (hnames : ∀ r ∈ names, IsName r) :
    match stored (ofNames names) with
    | some content => t.isFile (dir.join (ofNames names)) = true ∧
        t.read (dir.join (ofNames names)) = .ok content
    | none => t.isFile (dir.join (ofNames names)) = false := by
  cases hstored : stored (ofNames names) with
  | none =>
    dsimp only
    rw [Bool.eq_false_iff]
    intro hfile
    obtain ⟨content, modified, may, hfind⟩ := exists_find_of_isFile hfile
    obtain ⟨l, hl, hentry⟩ := exists_locate_of_find hfind
    rw [(locate_join_ofNames h.way h.plain hnames hne hl).1] at hentry
    have honly := (h.only names content modified may hnames hentry).2
    rw [hstored] at honly
    cases honly
  | some content =>
    obtain ⟨modified, may, hfind⟩ := h.written names content hne hnames hstored
    obtain ⟨l, hl, hentry⟩ := exists_locate_of_find hfind
    rw [(locate_join_ofNames h.way h.plain hnames hne hl).1] at hentry
    have hreadable := (h.only names content modified may hnames hentry).1
    constructor
    · rw [isFile, fileInfo?_of_find hfind, Option.isSome_some]
    · rw [read, hfind]
      exact if_pos hreadable

/-- New directories change nothing about the files. -/
theorem furnished {dirs : List Path} (hu : Furnished dirs t u) (hground : u.Grounded) :
    Holds u dir k stored where
  grounded := hground
  located := hu.grows.extends.locate h.located
  directory := hu.entryAt? h.directory
  plain names := (hu.grows.links _).trans (h.plain names)
  only := by
    intro names content modified may hnames hentry
    cases hold : t.entryAt? (k ++ names) with
    | none => cases (hu.added _ _ hold hentry).1
    | some e =>
      obtain rfl : e = .file content modified may :=
        Option.some.inj ((hu.entryAt? hold).symm.trans hentry)
      exact h.only names content modified may hnames hold
  written := by
    intro names content hne hnames hstored
    obtain ⟨modified, may, hfind⟩ := h.written names content hne hnames hstored
    obtain ⟨l, hl, hentry⟩ := exists_locate_of_find hfind
    refine ⟨modified, may, ?_⟩
    rw [find_of_locate (hu.grows.extends.locate hl), hu.entryAt? hentry]

/-- A file that is put where no directory stands takes the place of one with its path. -/
theorem put (hne : names ≠ []) (hnames : ∀ r ∈ names, IsName r) (modified : Instant)
    {may : Permissions} (hl : t.locate (dir.join (ofNames names)) = .ok (k ++ names))
    (hfile : t.AtMostFile (k ++ names)) (hreadable : may.readable = true) :
    Holds (t.put (k ++ names) (.file content modified may)) dir k
      fun q => if (ofNames names).same q = true then some content else stored q := by
  have hparent := (locate_join_ofNames h.way h.plain hnames hne hl).2
  have hapart : Apart (k ++ names) t (t.put (k ++ names) (.file content modified may)) :=
    hfile.apart_put modified may
  have hself := entryAt?_put t hapart.ne_nil (.file content modified may) (k ++ names)
  rw [if_pos rfl] at hself
  -- Other names lead to other locations, so all else stays as it was.
  have hother {names' : List String} (hn : names ≠ names') : k ++ names' ≠ k ++ names :=
    fun heq => hn (List.append_cancel_left heq).symm
  have hground : (t.put (k ++ names) (.file content modified may)).Grounded := by
    obtain ⟨above, s, rfl⟩ := (List.eq_nil_or_concat names).resolve_left hne
    rw [List.concat_eq_append] at *
    rw [List.dropLast_concat] at hparent
    rw [← List.append_assoc] at hfile ⊢
    exact h.grounded.put hparent hfile.ne_directory (hnames s (by simp)) _
  refine ⟨hground, hapart.locate_iff.mp h.located, ?_, fun names' => ?_, ?_, ?_⟩
  · rw [← hapart.entryAt? (by simpa using hne), h.directory]
  · rw [← hapart.link?, h.plain]
  · intro names' content' modified' may' hnames' hentry
    have hsame := Path.same_ofNames_iff hnames hnames'
    by_cases hn : names = names'
    · subst hn
      rw [hself] at hentry
      cases hentry
      exact ⟨hreadable, if_pos (hsame.mpr rfl)⟩
    · rw [← hapart.entryAt? (hother hn)] at hentry
      rw [if_neg (mt hsame.mp hn)]
      exact h.only names' content' modified' may' hnames' hentry
  · intro names' content' hne' hnames' hstored
    have hsame := Path.same_ofNames_iff hnames hnames'
    by_cases hn : names = names'
    · subst hn
      rw [if_pos (hsame.mpr rfl)] at hstored
      obtain rfl := Option.some.inj hstored
      exact ⟨modified, may, by rw [find_of_locate (hapart.locate_iff.mp hl), hself]⟩
    · rw [if_neg (mt hsame.mp hn)] at hstored
      obtain ⟨modified', may', hfind⟩ := h.written names' content' hne' hnames' hstored
      obtain ⟨l', hl', -⟩ := exists_locate_of_find hfind
      -- The path of the other file leads to another place.
      have hplace := (locate_join_ofNames h.way h.plain hnames' hne' hl').1
      refine ⟨modified', may', find_of_toOption (hapart.find_toOption ?_) hfind⟩
      rw [hl', hplace]
      exact fun heq => hother hn (Except.ok.inj heq)

/-- A file that is written takes the place of one with its path. -/
theorem write (hne : names ≠ []) (hnames : ∀ r ∈ names, IsName r)
    (hu : t.write (dir.join (ofNames names)) content = .ok u) :
    Holds u dir k fun q => if (ofNames names).same q = true then some content else stored q := by
  obtain ⟨l, may, hl, rfl, hold⟩ := write_eq_ok hu
  obtain rfl := (locate_join_ofNames h.way h.plain hnames hne hl).1
  -- An old file lies in the directory and can be read, so the new one can.
  rcases hold with ⟨hfree, hnew⟩ | ⟨old, modified, hold⟩
  · exact h.put hne hnames t.now hl (atMostFile_of_none hfree) hnew
  · exact h.put hne hnames t.now hl (atMostFile_of_file hold)
      (h.only names old modified may hnames hold).1

/-- One more file is stored. -/
theorem store (hne : names ≠ []) (hnames : ∀ r ∈ names, IsName r)
    (hu : t.store dir (ofNames names, content) = .ok u) :
    Holds u dir k fun q => if (ofNames names).same q = true then some content else stored q := by
  unfold FileTree.store at hu
  dsimp only at hu
  cases hparent : (dir.join (ofNames names)).parent? with
  | none =>
    rw [hparent] at hu
    exact h.write hne hnames hu
  | some parent =>
    rw [hparent] at hu
    obtain ⟨hmore, hground⟩ :=
      (Furnished.refl parent.ancestors t).makeAll h.grounded fun p hp => hp
    dsimp only [bind, Except.bind] at hu
    rw [makeDirectories] at hu
    generalize t.makeAll parent.ancestors = made at hu hmore hground
    obtain ⟨v, r⟩ := made
    cases r with
    | error e => cases hu
    | ok _ => exact (h.furnished hmore hground).write hne hnames hu

/-- After all files are stored, the last one with a path lies there. -/
theorem storeAll {outputs : List (Path × Bytes)} (hempty : ∀ q, stored q = none)
    (hdown : ∀ o ∈ outputs, o.1.Descends) (hu : outputs.foldlM (FileTree.store dir) t = .ok u) :
    Holds u dir k (lastAt outputs) := by
  -- The last file is split off, since it is the one that counts.
  induction outputs using List.reverseRecOn generalizing u with
  | nil =>
    obtain rfl := Except.ok.inj hu
    have hnone : stored = lastAt [] := funext hempty
    exact hnone ▸ h
  | append_singleton outputs output ih =>
    rw [List.foldlM_append] at hu
    cases hv : outputs.foldlM (FileTree.store dir) t with
    | error e =>
      rw [hv] at hu
      cases hu
    | ok v =>
      rw [hv] at hu
      change FileTree.store dir v output >>= pure = .ok u at hu
      rw [bind_pure] at hu
      obtain ⟨path, content⟩ := output
      obtain ⟨names, hne, hnames, rfl⟩ := hdown (path, content) (by simp)
      have hholds := ih (fun o ho => hdown o (List.mem_append_left _ ho)) hv
      have hlast : lastAt (outputs ++ [(ofNames names, content)]) = _ :=
        funext (lastAt_concat outputs (ofNames names, content))
      rw [hlast]
      exact hholds.store hne hnames hu

end Holds

/-- In an empty directory nothing is stored yet. -/
theorem holds_of_empty (hground : t.Grounded) (hlocated : t.locate dir = .ok k)
    (hdir : t.entryAt? k = some .directory)
    (hempty : ∀ name rest, t.entryAt? (k ++ name :: rest) = none) :
    Holds t dir k fun _ => none where
  grounded := hground
  located := hlocated
  directory := hdir
  plain names := by
    cases names with
    | nil => rw [List.append_nil, link?, hdir]
    | cons name rest => exact link?_of_entryAt?_none (hempty name rest)
  only names content modified may hnames hentry := by
    cases names with
    | nil =>
      rw [List.append_nil, hdir] at hentry
      cases hentry
    | cons name rest =>
      rw [hempty] at hentry
      cases hentry
  written := nofun

end FileTree

end SmaliView
