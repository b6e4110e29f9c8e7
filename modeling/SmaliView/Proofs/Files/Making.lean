import SmaliView.Proofs.Files.Apart
import Mathlib.Data.List.Induction
import Mathlib.Data.List.Nodup
import Mathlib.Data.List.Perm.Subperm
import Mathlib.Data.List.TakeWhile

/-!
# Making directories in trees that differ in one file

Directories that are made along paths which do not lead through the location of the difference are
made in both trees or in neither, and what was there before stays. A new directory gets the same
number in both trees, and what can lie below it does not lead through the location
(`not_through_below`).
-/

namespace SmaliView.FileTree

open Relation (ReflTransGen)

variable {t u : FileTree} {l m : Location} {p : Path}

/-- A tree as a file system has it: whatever stands in it lies in a directory and has a name. -/
structure Sound (t : FileTree) : Prop where
  parent : ∀ m e, t.entryAt? m = some e → t.entryAt? m.dropLast = some .directory
  names : ∀ m name e, t.entryAt? (m ++ [name]) = some e → Path.IsName name

/-- What was there before has stayed, and paths take the same ways. -/
structure Grows (t u : FileTree) : Prop extends SameWays t u where
  kept : ∀ m e, t.entryAt? m = some e → u.entryAt? m = some e

theorem Grows.refl (t : FileTree) : Grows t t := ⟨.refl t, fun _ _ h => h⟩

theorem Grows.trans {v : FileTree} (h : Grows t u) (h' : Grows u v) : Grows t v :=
  ⟨h.toSameWays.trans h'.toSameWays, fun m e he => h'.kept m e (h.kept m e he)⟩

/-- Where nothing stands in the larger tree nothing stood before. -/
theorem Grows.none (h : Grows t u) (hm : u.entryAt? m = none) : t.entryAt? m = none := by
  cases ht : t.entryAt? m with
  | none => rfl
  | some e => cases hm.symm.trans (h.kept m e ht)

/-- A directory at a free place makes the tree grow. -/
theorem grows_put_directory (hm : t.entryAt? m = none) : Grows t (t.put m .directory) := by
  have hnil : m ≠ [] := by
    rintro rfl
    cases hm.symm.trans (entryAt?_nil t)
  refine ⟨sameWays_put t hnil nofun (link?_of_entryAt?_none hm), fun k e he => ?_⟩
  rw [entryAt?_put t hnil, if_neg, he]
  rintro rfl
  cases hm.symm.trans he

/-! ## Directories -/

/-- What is dropped from the end is what fulfils the condition. -/
theorem exists_dropEnd_append {α : Type} (f : α → Bool) (xs : List α) :
    ∃ ys, xs = Text.dropEnd f xs ++ ys ∧ ∀ y ∈ ys, f y = true := by
  refine ⟨(xs.reverse.takeWhile f).reverse, ?_, fun y hy => ?_⟩
  · rw [Text.dropEnd, ← List.reverse_append, List.takeWhile_append_dropWhile,
      List.reverse_reverse]
  · exact List.mem_takeWhile_imp (List.mem_reverse.mp hy)

theorem reaches_heres {heres : List Step} (h : ∀ step ∈ heres, step = .here) :
    t.Reaches (m, heres) (m, []) := by
  induction heres with
  | nil => exact .refl
  | cons step heres ih =>
    obtain rfl := h step (List.mem_cons_self ..)
    exact .head (.here ..) (ih fun step hstep => h step (List.mem_cons_of_mem _ hstep))

/-- A directory is made in both trees or in neither, where nothing stood. -/
theorem Apart.makeDirectory (h : Apart l t u) (hp : ¬ t.Through l p) :
    Agree (fun t' u' => Apart l t' u' ∧ Grows t t' ∧
        ∃ m, t.entryAt? m = none ∧ t.Reaches (start p t.cwd, steps p) (m, []))
      (t.makeDirectory p) (u.makeDirectory p) := by
  obtain ⟨heres, hsteps, hheres⟩ := exists_dropEnd_append (· == Step.here) (steps p)
  rw [FileTree.makeDirectory, FileTree.makeDirectory, ← h.cwd]
  generalize Text.dropEnd (· == Step.here) (steps p) = moves at hsteps
  -- The steps that are dropped stay where they are.
  have hlead {m : Location} {rest : List Step}
      (hm : t.Reaches (start p t.cwd, moves) (m, rest)) :
      t.Reaches (start p t.cwd, steps p) (m, rest ++ heres) := by
    rw [hsteps]
    exact Reaches.append hm heres
  cases check p with
  | error e => exact .error e
  | ok _ =>
    show Agree _ (t.walk false linkLimit (start p t.cwd) moves >>= _)
      (u.walk false linkLimit (start p t.cwd) moves >>= _)
    rcases h.walk false linkLimit (start p t.cwd) moves with heq | ⟨⟨rest, hway⟩, -⟩
    swap
    · exact absurd ⟨_, hlead hway⟩ hp
    rw [← heq]
    cases hwalk : t.walk false linkLimit (start p t.cwd) moves with
    | error e => exact .error e
    | ok m =>
      dsimp only [bind, Except.bind]
      -- Else the path would lead through the location.
      have hne : m ≠ l := by
        rintro rfl
        have hway := reaches_of_treads (treads_of_walk t false _ _ _ hwalk h.left.link?)
        exact hp ⟨_, hlead hway⟩
      rw [← h.entryAt? hne]
      cases hentry : t.entryAt? m with
      | some e => exact .error _
      | none =>
        have hnil : m ≠ [] := by
          rintro rfl
          cases hentry.symm.trans (entryAt?_nil t)
        have hlink := link?_of_entryAt?_none hentry
        have hway := reaches_of_treads (treads_of_walk t false _ _ _ hwalk hlink)
        have hheres : ∀ step ∈ heres, step = .here := fun step hstep =>
          eq_of_beq (hheres step hstep)
        exact .ok ⟨h.put hnil hne _, grows_put_directory hentry, m, hentry,
          (hlead hway).trans (reaches_heres hheres)⟩

theorem isDirectory_congr (h : t.find p = u.find p) : t.isDirectory p = u.isDirectory p := by
  rw [isDirectory, isDirectory, h]

/-- Both trees come to the same when a directory is to be there, and paths go on as before. -/
theorem Apart.ensureDirectory (h : Apart l t u) (hp : ¬ t.Through l p) :
    (t.ensureDirectory p).2 = (u.ensureDirectory p).2 ∧
      Apart l (t.ensureDirectory p).1 (u.ensureDirectory p).1 ∧
      Grows t (t.ensureDirectory p).1 := by
  have hmade := h.makeDirectory hp
  rw [FileTree.ensureDirectory, FileTree.ensureDirectory, isDirectory_congr (h.find hp)]
  generalize t.makeDirectory p = x, u.makeDirectory p = y at hmade
  cases hmade with
  | ok hmade => exact ⟨rfl, hmade.1, hmade.2.1⟩
  | error e => exact ⟨rfl, h, .refl t⟩

/-- Directories that keep clear of the location are made in both trees alike. -/
theorem Apart.makeAll (h : Apart l t u) {ps : List Path} (hps : ∀ p ∈ ps, ¬ t.Through l p) :
    (t.makeAll ps).2 = (u.makeAll ps).2 ∧ Apart l (t.makeAll ps).1 (u.makeAll ps).1 ∧
      Grows t (t.makeAll ps).1 := by
  induction ps with
  | nil => exact ⟨rfl, h, .refl t⟩
  | cons p above ih =>
    have hp := hps p (List.mem_cons_self ..)
    obtain ⟨hmade, h', hgrows⟩ := ih fun q hq => hps q (List.mem_cons_of_mem _ hq)
    have hhere := h.ensureDirectory hp
    have hdirectory := h.makeDirectory hp
    rw [FileTree.makeAll, FileTree.makeAll]
    by_cases hroot : p.components = []
    · rw [if_pos hroot, if_pos hroot]
      exact ⟨rfl, h, .refl t⟩
    rw [if_neg hroot, if_neg hroot]
    generalize t.makeDirectory p = x, u.makeDirectory p = y at hdirectory
    cases hdirectory with
    | ok hdirectory => exact ⟨rfl, hdirectory.1, hdirectory.2.1⟩
    | error e =>
      dsimp only
      split
      swap
      · exact hhere
      -- The directories above are made first, and may be refused.
      have hagain := h'.ensureDirectory fun h => hp (hgrows.through_iff.mp h)
      generalize t.makeAll above = x, u.makeAll above = y at hmade h' hgrows hagain
      obtain ⟨t', r⟩ := x
      obtain ⟨u', r'⟩ := y
      obtain rfl : r = r' := hmade
      cases r with
      | ok _ => exact ⟨hagain.1, hagain.2.1, hgrows.trans hagain.2.2⟩
      | error e => exact ⟨rfl, h', hgrows⟩

/-! ## The first free number -/

def firstFree (name : Nat → String) (taken : List String) : Nat :=
  ((List.range (taken.length + 1)).find? fun n => name n ∉ taken).getD 0

/-- There are more names than can be taken. -/
theorem firstFree_spec {name : Nat → String} (hinj : Function.Injective name)
    (taken : List String) :
    name (firstFree name taken) ∉ taken ∧ ∀ n < firstFree name taken, name n ∈ taken := by
  rw [firstFree]
  cases hfind : (List.range (taken.length + 1)).find? fun n => name n ∉ taken with
  | none =>
    -- Were all taken, there would be more names than are taken.
    have hall : (List.range (taken.length + 1)).map name ⊆ taken := by
      intro s hs
      obtain ⟨n, hn, rfl⟩ := List.mem_map.mp hs
      simpa using List.find?_eq_none.mp hfind n hn
    have hlength := (((List.nodup_range).map hinj).subperm hall).length_le
    rw [List.length_map, List.length_range] at hlength
    omega
  | some n =>
    obtain ⟨hfree, -, hbefore⟩ := List.find?_range_eq_some.mp hfind
    exact ⟨by simpa using hfree, fun k hk => by simpa using hbefore k hk⟩

/-- The first free name depends on which names of its kind are taken. -/
theorem firstFree_congr {name : Nat → String} (hinj : Function.Injective name)
    {taken taken' : List String} (h : ∀ n, name n ∈ taken ↔ name n ∈ taken') :
    firstFree name taken = firstFree name taken' := by
  obtain ⟨hfree, hbefore⟩ := firstFree_spec hinj taken
  obtain ⟨hfree', hbefore'⟩ := firstFree_spec hinj taken'
  rcases Nat.lt_trichotomy (firstFree name taken) (firstFree name taken') with hlt | heq | hlt
  · exact absurd ((h _).mpr (hbefore' _ hlt)) hfree
  · exact heq
  · exact absurd ((h _).mp (hbefore _ hlt)) hfree'

/-! ## New directories -/

/-- The names in a directory are those of the entries right below it. -/
theorem mem_namesIn {name : String} :
    name ∈ t.namesIn m ↔ ∃ e, (m ++ [name], e) ∈ t.entries.entries := by
  rw [namesIn, List.mem_filterMap]
  constructor
  · rintro ⟨⟨k, e⟩, hmem, hk⟩
    dsimp only at hk
    split at hk
    · next hdir =>
      obtain ⟨above, rfl⟩ := List.getLast?_eq_some_iff.mp hk
      rw [List.dropLast_concat] at hdir
      exact ⟨e, hdir ▸ hmem⟩
    · cases hk
  · rintro ⟨e, hmem⟩
    refine ⟨_, hmem, ?_⟩
    simp

/-- Entries elsewhere are in both trees or in none. -/
theorem Apart.mem_entries (h : Apart l t u) (hm : m ≠ l) (e : Entry) :
    (m, e) ∈ t.entries.entries ↔ (m, e) ∈ u.entries.entries := by
  have herase (t : FileTree) : (m, e) ∈ (t.entries.erase l).entries ↔ (m, e) ∈ t.entries.entries := by
    simp [Table.erase, Table.keep, hm]
  rw [← herase t, h.others, herase u]

/-- Where a new directory is made: nothing stood there. -/
def NewAt (t : FileTree) (dir : Path) : Prop :=
  ∃ m, t.entryAt? m = none ∧ t.Reaches (start dir t.cwd, steps dir) (m, [])

/-- A new directory is made in both trees with the same name, or in neither. -/
theorem Apart.makeFresh (h : Apart l t u) (hhome : t.entryAt? l.dropLast = some .directory)
    {base : Path} {stem : String}
    (hinj : Function.Injective fun n => stem ++ Instant.padded 6 n)
    (hname : ∀ n, Path.IsName (stem ++ Instant.padded 6 n))
    (hdir : ∀ n, ¬ t.Through l (t.absolute base / (stem ++ Instant.padded 6 n))) :
    Agree (fun a b => a.1 = b.1 ∧ Apart l a.2 b.2 ∧ Grows t a.2 ∧
        (∃ n, a.1 = t.absolute base / (stem ++ Instant.padded 6 n)) ∧ t.NewAt a.1)
      (t.makeFresh base stem) (u.makeFresh base stem) := by
  rw [FileTree.makeFresh, FileTree.makeFresh, ← h.absolute]
  have hbase : ¬ t.Through l (t.absolute base) := fun hbase => hdir 0 (hbase.div (hname 0))
  rw [← h.locate hbase]
  cases hm : t.locate (t.absolute base) with
  | error e => exact .error e
  | ok m =>
    let name (n : Nat) : String := stem ++ Instant.padded 6 n
    -- The same names are taken in both trees, and so the same number is free.
    have htaken (n : Nat) : name n ∈ t.namesIn m ↔ name n ∈ u.namesIn m := by
      rw [mem_namesIn, mem_namesIn]
      refine exists_congr fun e => h.mem_entries ?_ e
      -- Else a directory with this name would be made where the trees differ.
      rintro rfl
      rw [List.dropLast_concat] at hhome
      have hlink : t.link? m = none := by rw [FileTree.link?, hhome]
      have hway := (reaches_of_locate hm hlink).div (hname n) h.left.link?
      exact hdir n ⟨[], hway⟩
    have hn : firstFree name (u.namesIn m) = firstFree name (t.namesIn m) :=
      (firstFree_congr hinj htaken).symm
    show Agree _
      (t.makeDirectory (t.absolute base / name (firstFree name (t.namesIn m))) >>= fun t' =>
        .ok (t.absolute base / name (firstFree name (t.namesIn m)), t'))
      (u.makeDirectory (t.absolute base / name (firstFree name (u.namesIn m))) >>= fun u' =>
        .ok (t.absolute base / name (firstFree name (u.namesIn m)), u'))
    rw [hn]
    have hmade := h.makeDirectory (hdir (firstFree name (t.namesIn m)))
    revert hmade
    generalize t.makeDirectory _ = x, u.makeDirectory _ = y
    intro hmade
    cases hmade with
    | error e => exact .error e
    | ok hmade => exact .ok ⟨rfl, hmade.1, hmade.2.1, ⟨_, rfl⟩, hmade.2.2⟩

/-- Nothing stands below a place where nothing stands. -/
theorem Sound.entryAt?_append (h : t.Sound) (hm : t.entryAt? m = none) (names : List String) :
    t.entryAt? (m ++ names) = none := by
  induction names using List.reverseRecOn with
  | nil => rwa [List.append_nil]
  | append_singleton names name ih =>
    rw [← List.append_assoc]
    cases hentry : t.entryAt? (m ++ names ++ [name]) with
    | none => rfl
    | some e =>
      have hparent := h.parent _ e hentry
      rw [List.dropLast_concat, ih] at hparent
      cases hparent

/-- What can lie below a new directory does not lead through the file in which the trees differ. -/
theorem Sound.not_through_below (hsound : t.Sound)
    (hhome : t.entryAt? l.dropLast = some .directory) {dir q : Path} (hdir : ¬ t.Through l dir)
    (hnew : t.NewAt dir) (hq : Path.Below dir q) : ¬ t.Through l q := by
  obtain ⟨m, hm, hway⟩ := hnew
  -- Name by name, the way ends where nothing stands and has not come to the location.
  suffices h : ∃ names, t.Reaches (start q t.cwd, steps q) (m ++ names, []) ∧ ¬ t.Through l q from
    h.choose_spec.2
  induction hq with
  | here => exact ⟨[], by rwa [List.append_nil], hdir⟩
  | @down p name _ hname ih =>
    obtain ⟨names, hend, hnot⟩ := ih
    have hnone := hsound.entryAt?_append hm
    have hlink : t.link? (m ++ names ++ [name]) = none := by
      rw [List.append_assoc]
      exact link?_of_entryAt?_none (hnone _)
    refine ⟨names ++ [name], ?_, fun hthrough => ?_⟩
    · rw [← List.append_assoc]
      exact Reaches.div hname hend hlink
    · rcases hthrough.of_div hname hend hlink with hthrough | rfl
      · exact hnot hthrough
      · rw [List.dropLast_concat, hnone] at hhome
        cases hhome

end SmaliView.FileTree
