import SmaliView.Proofs.Files.Making

/-!
# Trees that grow

What stands in a tree still stands in one that `Extends` it, and a walk that ends there ends at the
same place in the other. `Furnished` says that a tree has grown by directories alone, made where
some paths lead. A directory that is made and removed with all that was put into it leaves no trace
(`Site.removeTree`).
-/

namespace SmaliView.FileTree

open Relation (ReflTransGen)

variable {t u v : FileTree} {l m k : Location} {p dir : Path} {name : String} {dirs : List Path}

/-! ## Where walks end -/

/-- The tree has all that another one has, and no link is new in a directory of the other. -/
structure Extends (t u : FileTree) : Prop where
  cwd : u.cwd = t.cwd
  kept : ∀ m e, t.entryAt? m = some e → u.entryAt? m = some e
  fresh : ∀ m name, t.entryAt? m = some .directory → t.entryAt? (m ++ [name]) = none →
    u.link? (m ++ [name]) = none

/-- A tree that has grown extends the one before. -/
theorem Grows.extends (h : Grows t u) : Extends t u := by
  refine ⟨h.cwd, h.kept, fun m name _ hfree => ?_⟩
  rw [h.links, link?_of_entryAt?_none hfree]

/-- What lies in a directory of the first tree is a link in both trees or in neither. -/
theorem Extends.link? (h : Extends t u) (hdir : t.entryAt? m = some .directory) (name : String) :
    u.link? (m ++ [name]) = t.link? (m ++ [name]) := by
  cases hentry : t.entryAt? (m ++ [name]) with
  | none => rw [h.fresh m name hdir hentry, link?_of_entryAt?_none hentry]
  | some e => rw [FileTree.link?, FileTree.link?, hentry, h.kept _ _ hentry]

theorem Extends.trans (h : Extends t u) (h' : Extends u v) : Extends t v := by
  refine ⟨h'.cwd.trans h.cwd, fun m e he => h'.kept m e (h.kept m e he), ?_⟩
  intro m name hdir hfree
  rw [h'.link? (h.kept m _ hdir), h.fresh m name hdir hfree]

/-- A walk that ends in the first tree ends at the same place in the second. -/
theorem Extends.walks (h : Extends t u) {follow : Bool} {links : Nat} {s : List Step}
    (hw : Walks t follow links l s k) : Walks u follow links l s k := by
  induction hw with
  | nil => exact .nil ..
  | here hdir _ ih => exact .here (h.kept _ _ hdir) ih
  | up hdir _ ih => exact .up (h.kept _ _ hdir) ih
  | down hdir hname hlink _ ih =>
    exact .down (h.kept _ _ hdir) hname ((h.link? hdir _).trans hlink) ih
  | last hdir hname hlink hends =>
    exact .last (h.kept _ _ hdir) hname ((h.link? hdir _).trans hlink) hends
  | follow hdir hname hlink hgoes htarget _ ih =>
    exact .follow (h.kept _ _ hdir) hname ((h.link? hdir _).trans hlink) hgoes htarget ih

/-- A path that passes the check is walked from its start. -/
theorem locate_eq {follow : Bool} (hcheck : check p = .ok ()) :
    t.locate p follow = t.walk follow linkLimit (start p t.cwd) (steps p) := by
  rw [locate, hcheck]
  rfl

/-- A path that is found passes the check. -/
theorem check_of_locate {follow : Bool} (h : t.locate p follow = .ok m) : check p = .ok () := by
  rw [locate] at h
  cases hcheck : check p with
  | error e => rw [hcheck] at h; cases h
  | ok _ => rfl

/-- What a path names it still names in a tree that extends the first. -/
theorem Extends.locate (h : Extends t u) {follow : Bool} (hm : t.locate p follow = .ok m) :
    u.locate p follow = .ok m := by
  rw [locate_eq (check_of_locate hm), h.cwd, walk_eq_ok_iff]
  exact h.walks (walk_eq_ok_iff.mp (locate_eq_ok hm))

/-- A file is the same in a tree that has more. -/
theorem Extends.fileInfo? (h : Extends t u) {info : FileInfo} (hinfo : t.fileInfo? p = some info) :
    u.fileInfo? p = some info := by
  have hfile : t.isFile p = true := by rw [isFile, hinfo, Option.isSome_some]
  obtain ⟨content, modified, may, hfind⟩ := exists_find_of_isFile hfile
  obtain ⟨m, hm, hentry⟩ := exists_locate_of_find hfind
  -- Where the path leads in the first tree it leads in the second, and to the same file.
  have hfind' : u.find p = .ok (.file content modified may) := by
    rw [find_of_locate (h.locate hm), h.kept m _ hentry]
  rw [fileInfo?_of_find hfind', ← hinfo, fileInfo?_of_find hfind]

/-- Not following the last link matters only where the walk ends at a link. -/
theorem Walks.following {links : Nat} {s : List Step} (h : Walks t false links l s k)
    (hk : t.link? k = none) : Walks t true links l s k := by
  induction h with
  | nil => exact .nil ..
  | here hdir _ ih => exact .here hdir (ih hk)
  | up hdir _ ih => exact .up hdir (ih hk)
  | down hdir hname hlink _ ih => exact .down hdir hname hlink (ih hk)
  | last _ _ hlink => cases hk.symm.trans hlink
  | follow hdir hname hlink _ htarget _ ih =>
    exact .follow hdir hname hlink (by simp) htarget (ih hk)

/-- A longer walk goes the way of a shorter one first, and follows the links on it. -/
theorem Walks.split {follow : Bool} {links : Nat} {s rest : List Step}
    (h : Walks t follow links l (s ++ rest) k) (hrest : rest ≠ []) :
    ∃ m links', Walks t true links l s m ∧ Walks t follow links' m rest k := by
  generalize hs : s ++ rest = moves at h
  -- The first step is that of the rest, or one before it.
  induction h generalizing s with
  | nil => exact absurd (List.append_eq_nil_iff.mp hs).2 hrest
  | here hdir hway ih =>
    obtain ⟨rfl, rfl⟩ | ⟨s, rfl, rfl⟩ := List.append_eq_cons_iff.mp hs
    · exact ⟨_, _, .nil .., .here hdir hway⟩
    · obtain ⟨m, links', hm, hafter⟩ := ih rfl
      exact ⟨m, links', .here hdir hm, hafter⟩
  | up hdir hway ih =>
    obtain ⟨rfl, rfl⟩ | ⟨s, rfl, rfl⟩ := List.append_eq_cons_iff.mp hs
    · exact ⟨_, _, .nil .., .up hdir hway⟩
    · obtain ⟨m, links', hm, hafter⟩ := ih rfl
      exact ⟨m, links', .up hdir hm, hafter⟩
  | down hdir hname hlink hway ih =>
    obtain ⟨rfl, rfl⟩ | ⟨s, rfl, rfl⟩ := List.append_eq_cons_iff.mp hs
    · exact ⟨_, _, .nil .., .down hdir hname hlink hway⟩
    · obtain ⟨m, links', hm, hafter⟩ := ih rfl
      exact ⟨m, links', .down hdir hname hlink hm, hafter⟩
  | last hdir hname hlink hends =>
    obtain ⟨rfl, rfl⟩ | ⟨s, rfl, rfl⟩ := List.append_eq_cons_iff.mp hs
    · exact ⟨_, links, .nil .., .last hdir hname hlink hends⟩
    · simp [hrest] at hends
  | follow hdir hname hlink hgoes htarget hway ih =>
    obtain ⟨rfl, rfl⟩ | ⟨s, rfl, rfl⟩ := List.append_eq_cons_iff.mp hs
    · exact ⟨_, _, .nil .., .follow hdir hname hlink hgoes htarget hway⟩
    · obtain ⟨m, links', hm, hafter⟩ := ih (List.append_assoc ..)
      exact ⟨m, links', .follow hdir hname hlink (by simp) htarget hm, hafter⟩

/-- A walk whose last step goes down comes to a directory first. It ends in this directory, unless
it follows a link there. -/
theorem Walks.concat {follow : Bool} {links : Nat} {s : List Step}
    (h : Walks t follow links l (s ++ [.down name]) k) :
    ∃ m, Walks t true links l s m ∧ t.entryAt? m = some .directory ∧
      (follow = false ∨ t.link? (m ++ [name]) = none → k = m ++ [name]) := by
  obtain ⟨m, links', hm, hlast⟩ := h.split (List.cons_ne_nil _ _)
  refine ⟨m, hm, ?_⟩
  -- The last step is taken from a directory, or along a link that lies in one.
  cases hlast with
  | down hdir hname hlink hway =>
    cases hway
    exact ⟨hdir, fun _ => rfl⟩
  | last hdir _ _ hends => exact ⟨hdir, fun _ => rfl⟩
  | follow hdir hname hlink hgoes =>
    refine ⟨hdir, fun hends => ?_⟩
    obtain rfl := hends.resolve_right (by simp [hlink])
    simp at hgoes

/-- A walk whose last step stays where it is ends in a directory. -/
theorem Walks.directory_of_here {follow : Bool} {links : Nat} {s : List Step}
    (h : Walks t follow links l (s ++ [.here]) k) : t.entryAt? k = some .directory := by
  obtain ⟨m, links', -, hlast⟩ := h.split (List.cons_ne_nil _ _)
  cases hlast with
  | here hdir hway =>
    cases hway
    exact hdir

/-! ## Making a directory -/

/-- A sound tree that is seen from one of its directories. -/
structure Grounded (t : FileTree) : Prop extends Sound t where
  cwd : t.entryAt? t.cwd = some .directory

theorem entryAt?_congr (h : u.entries = t.entries) (m : Location) :
    u.entryAt? m = t.entryAt? m := by
  rw [FileTree.entryAt?, FileTree.entryAt?, h]

theorem Grounded.congr (h : t.Grounded) (hentries : u.entries = t.entries)
    (hcwd : u.cwd = t.cwd) : u.Grounded := by
  have hsame := entryAt?_congr hentries
  refine ⟨⟨fun m e he => ?_, fun m name e he => ?_⟩, ?_⟩
  · rw [hsame] at he ⊢
    exact h.parent m e he
  · rw [hsame] at he
    exact h.names m name e he
  · rw [hsame, hcwd]
    exact h.cwd

/-- Every path starts at a directory. -/
theorem Grounded.start (h : t.Grounded) (p : Path) :
    t.entryAt? (start p t.cwd) = some .directory := by
  rw [FileTree.start]
  split
  · exact entryAt?_nil t
  · exact h.cwd

/-- The names that a path goes down by are names. -/
theorem isName_of_mem_steps (h : Step.down name ∈ steps p) : Path.IsName name := by
  obtain ⟨piece, hpiece, hstep⟩ := List.mem_map.mp h
  split at hstep
  · cases hstep
  next hmoves =>
  split at hstep
  · cases hstep
  next hup =>
  obtain rfl := Step.down.inj hstep
  refine ⟨?_, ?_, ?_⟩
  · rw [String.toList_ofList]
    exact Path.not_mem_of_mem_pieces hpiece
  · rw [String.toList_ofList]
    exact Bool.eq_false_iff.mpr hmoves
  · rw [String.toList_ofList]
    exact hup

/-- A walk from a directory to a place where nothing stands ends with a name in a directory. -/
theorem Sound.walks_new (ht : t.Sound) {follow : Bool} {links : Nat} {s : List Step}
    (hs : ∀ name, Step.down name ∈ s → Path.IsName name)
    (h : Walks t follow links l s k) (hl : t.entryAt? l = some .directory)
    (hk : t.entryAt? k = none) :
    ∃ m name, k = m ++ [name] ∧ Path.IsName name ∧ t.entryAt? m = some .directory := by
  -- Along the walk it is kept that it stands in a directory; a walk that ends where it began would
  -- end in one.
  induction h with
  | nil => cases hk.symm.trans hl
  | here _ _ ih => exact ih (fun name hname => hs name (List.mem_cons_of_mem _ hname)) hl hk
  | up _ _ ih =>
    exact ih (fun name hname => hs name (List.mem_cons_of_mem _ hname)) (ht.parent _ _ hl) hk
  | down _ _ _ hway ih =>
    -- The walk ends here, or goes on from a directory.
    obtain ⟨rfl, rfl⟩ | hdir := hway.eq_or_directory
    · exact ⟨_, _, rfl, hs _ (List.mem_cons_self ..), hl⟩
    · exact ih (fun name hname => hs name (List.mem_cons_of_mem _ hname)) hdir hk
  | last _ _ hlink => cases (link?_of_entryAt?_none hk).symm.trans hlink
  | @follow _ l _ _ rest target _ _ _ _ _ _ ih =>
    refine ih (fun name hname => ?_) ?_ hk
    · rcases List.mem_append.mp hname with hname | hname
      · exact isName_of_mem_steps hname
      · exact hs name (List.mem_cons_of_mem _ hname)
    · rw [FileTree.start]
      split
      · exact entryAt?_nil t
      · exact hl

/-- What it takes to make a directory. -/
theorem makeDirectory_eq_ok (h : t.makeDirectory p = .ok u) :
    check p = .ok () ∧ ∃ k, t.entryAt? k = none ∧ u = t.put k .directory ∧
      t.walk false linkLimit (FileTree.start p t.cwd)
        (Text.dropEnd (· == Step.here) (steps p)) = .ok k := by
  rw [FileTree.makeDirectory] at h
  cases hcheck : check p with
  | error e => rw [hcheck] at h; cases h
  | ok _ =>
    rw [hcheck] at h
    dsimp only [bind, Except.bind] at h
    cases hwalk : t.walk false linkLimit (FileTree.start p t.cwd)
        (Text.dropEnd (· == Step.here) (steps p)) with
    | error e => rw [hwalk] at h; cases h
    | ok k =>
      rw [hwalk] at h
      dsimp only at h
      cases hfree : t.entryAt? k with
      | some e => rw [hfree] at h; cases h
      | none =>
        rw [hfree] at h
        exact ⟨rfl, k, hfree, (Except.ok.inj h).symm, rfl⟩

/-- No step that stays is dropped after one that goes down. -/
theorem dropEnd_here_concat (moves : List Step) (name : String) :
    Text.dropEnd (· == Step.here) (moves ++ [.down name]) = moves ++ [.down name] := by
  rw [Text.dropEnd, List.reverse_concat, List.dropWhile_cons_of_neg (by simp), List.reverse_cons,
    List.reverse_reverse]

/-- A directory is made where the path leads, in a directory, and nothing stood there. -/
theorem Grounded.makeDirectory (ht : t.Grounded) (h : t.makeDirectory p = .ok u) :
    ∃ m name, u = t.put (m ++ [name]) .directory ∧ t.entryAt? m = some .directory ∧
      t.entryAt? (m ++ [name]) = none ∧ Path.IsName name ∧
      t.Reaches (FileTree.start p t.cwd, steps p) (m ++ [name], []) ∧
      ∀ moves name', steps p = moves ++ [.down name'] → t.locate p false = .ok (m ++ [name]) := by
  obtain ⟨hcheck, k, hfree, rfl, hwalk⟩ := makeDirectory_eq_ok h
  -- The walk is without the steps at the end that stay where they are.
  obtain ⟨heres, hsteps, hheres⟩ := exists_dropEnd_append (· == Step.here) (steps p)
  have hnames : ∀ name, Step.down name ∈ Text.dropEnd (· == Step.here) (steps p) →
      Path.IsName name := by
    intro name hname
    refine isName_of_mem_steps (p := p) ?_
    rw [hsteps]
    exact List.mem_append_left _ hname
  obtain ⟨m, name, rfl, hname, hdir⟩ :=
    ht.walks_new hnames (walk_eq_ok_iff.mp hwalk) (ht.start p) hfree
  have hway : t.Reaches (FileTree.start p t.cwd, steps p) (m ++ [name], []) := by
    have hfirst := reaches_of_treads
      (treads_of_walk t false _ _ _ hwalk (link?_of_entryAt?_none hfree))
    rw [hsteps]
    exact (Reaches.append hfirst heres).trans
      (reaches_heres fun step hstep => eq_of_beq (hheres step hstep))
  refine ⟨m, name, rfl, hdir, hfree, hname, hway, fun moves name' heq => ?_⟩
  rw [heq, dropEnd_here_concat, ← heq] at hwalk
  rw [locate_eq hcheck]
  exact hwalk

/-- An entry is put in a directory, not in the place of one. -/
theorem Grounded.put (ht : t.Grounded) (hdir : t.entryAt? m = some .directory)
    (hold : t.entryAt? (m ++ [name]) ≠ some .directory) (hname : Path.IsName name) (e : Entry) :
    (t.put (m ++ [name]) e).Grounded := by
  have hput := entryAt?_put t (l := m ++ [name]) (by simp) e
  -- A directory is not lost, since nothing is put in the place of one.
  have hkept : ∀ k, t.entryAt? k = some .directory →
      (t.put (m ++ [name]) e).entryAt? k = some .directory := by
    intro k hk
    rw [hput, if_neg, hk]
    rintro rfl
    exact hold hk
  refine ⟨⟨fun k e' he => ?_, fun k name' e' he => ?_⟩, hkept _ ht.cwd⟩
  · rw [hput] at he
    split at he
    · next hk => rw [hk, List.dropLast_concat]; exact hkept m hdir
    · exact hkept _ (ht.parent k e' he)
  · rw [hput] at he
    split at he
    · next hk => exact (List.append_singleton_inj.mp hk).2 ▸ hname
    · exact ht.names k name' e' he

/-! ## Trees with more directories -/

/-- A tree has grown by nothing but directories, and each stands where one of some paths leads. -/
structure Furnished (dirs : List Path) (t u : FileTree) : Prop where
  kept : u.entries.keep (fun m => (t.entryAt? m).isSome) = t.entries
  cwd : u.cwd = t.cwd
  added : ∀ m e, t.entryAt? m = none → u.entryAt? m = some e →
    e = .directory ∧ ∃ dir ∈ dirs, t.Reaches (start dir t.cwd, steps dir) (m, [])

theorem isSome_of_mem_entries {e : Entry} (h : (m, e) ∈ t.entries.entries) :
    (t.entryAt? m).isSome = true := by
  rw [FileTree.entryAt?]
  split
  · rfl
  · obtain ⟨e', he'⟩ := Table.exists_get?_of_mem h
    rw [he']
    rfl

theorem Furnished.refl (dirs : List Path) (t : FileTree) : Furnished dirs t t := by
  refine ⟨?_, rfl, fun m e hm he => by cases hm.symm.trans he⟩
  exact Table.keep_eq_self fun _ h => isSome_of_mem_entries h

/-- What stood there stands there still. -/
theorem Furnished.entryAt? (h : Furnished dirs t u) {e : Entry} (he : t.entryAt? m = some e) :
    u.entryAt? m = some e := by
  rw [FileTree.entryAt?] at he ⊢
  split
  · next hm => rw [if_pos hm] at he; exact he
  next hm =>
  have hget := Table.get?_keep u.entries (fun m => (t.entryAt? m).isSome) m
  rw [if_neg hm] at he
  rw [h.kept, he, if_pos (by rw [FileTree.entryAt?, if_neg hm, he]; rfl)] at hget
  exact hget.symm

/-- A tree with directories added has grown. -/
theorem Furnished.grows (h : Furnished dirs t u) : Grows t u := by
  refine ⟨⟨fun m => ?_, h.cwd⟩, fun m e he => h.entryAt? he⟩
  cases ht : t.entryAt? m with
  | some e => rw [link?, link?, ht, h.entryAt? ht]
  | none =>
    rw [link?_of_entryAt?_none ht]
    cases hu : u.entryAt? m with
    | none => exact link?_of_entryAt?_none hu
    | some e =>
      obtain ⟨rfl, -⟩ := h.added m e ht hu
      rw [link?, hu]

/-- Only entries and the working directory count. -/
theorem Furnished.congr (h : Furnished dirs t u) (hentries : v.entries = u.entries)
    (hcwd : v.cwd = u.cwd) : Furnished dirs t v := by
  refine ⟨hentries ▸ h.kept, hcwd.trans h.cwd, fun m e hm he => h.added m e hm ?_⟩
  rw [← entryAt?_congr hentries]
  exact he

/-- One more directory is made where one of the paths leads. -/
theorem Furnished.put (h : Furnished dirs t u) (hfree : u.entryAt? k = none)
    (hway : ∃ dir ∈ dirs, u.Reaches (start dir u.cwd, steps dir) (k, [])) :
    Furnished dirs t (u.put k .directory) := by
  have hk : t.entryAt? k = none := h.grows.none hfree
  have hnil : k ≠ [] := by
    rintro rfl
    cases hfree.symm.trans (entryAt?_nil u)
  -- What was there is kept, since the place was free before.
  refine ⟨?_, h.cwd, fun m e hm he => ?_⟩
  · exact (u.entries.keep_put (by rw [hk]; rfl) _).trans h.kept
  · rw [entryAt?_put u hnil] at he
    split at he
    · next heq =>
      subst heq
      obtain ⟨dir, hdir, hway⟩ := hway
      refine ⟨(Option.some.inj he).symm, dir, hdir, ?_⟩
      -- Only links bend a way, and those are the same in both trees.
      rw [h.cwd] at hway
      exact Reaches.congr h.grows.symm.links hway
    · exact h.added m e hm he

/-- One of the directories is made, or is not. -/
theorem Furnished.makeDirectory (h : Furnished dirs t u) (hu : u.Grounded) (hp : p ∈ dirs)
    (hmade : u.makeDirectory p = .ok v) : Furnished dirs t v ∧ v.Grounded := by
  obtain ⟨m, name, rfl, hdir, hfree, hname, hway, -⟩ := hu.makeDirectory hmade
  exact ⟨h.put hfree ⟨p, hp, hway⟩, hu.put hdir (by rw [hfree]; nofun) hname _⟩

/-- One of the directories that is ensured is added or was there. -/
theorem Furnished.ensureDirectory (h : Furnished dirs t u) (hu : u.Grounded) (hp : p ∈ dirs) :
    Furnished dirs t (u.ensureDirectory p).1 ∧ (u.ensureDirectory p).1.Grounded := by
  rw [FileTree.ensureDirectory]
  cases hmade : u.makeDirectory p with
  | ok v => exact h.makeDirectory hu hp hmade
  | error e => exact ⟨h, hu⟩

/-- Whether all directories are made or one is refused, nothing but directories is new. -/
theorem Furnished.makeAll (h : Furnished dirs t u) (hu : u.Grounded) {ps : List Path}
    (hps : ∀ p ∈ ps, p ∈ dirs) :
    Furnished dirs t (u.makeAll ps).1 ∧ (u.makeAll ps).1.Grounded := by
  induction ps with
  | nil => exact ⟨h, hu⟩
  | cons p above ih =>
    have hp := hps p (List.mem_cons_self ..)
    obtain ⟨habove, hgrounded⟩ := ih fun q hq => hps q (List.mem_cons_of_mem _ hq)
    rw [FileTree.makeAll]
    split
    · exact ⟨h, hu⟩
    -- The directory is made at once, or after those that it lies in.
    cases hmade : u.makeDirectory p with
    | ok v => exact h.makeDirectory hu hp hmade
    | error e =>
      dsimp only
      split
      swap
      · exact h.ensureDirectory hu hp
      generalize u.makeAll above = x at habove hgrounded
      obtain ⟨v, r⟩ := x
      cases r with
      | ok _ => exact habove.ensureDirectory hgrounded hp
      | error e => exact ⟨habove, hgrounded⟩

/-! ## A directory that comes and goes -/

theorem entries_erase (t : FileTree) (k : Location) :
    (t.erase k).entries = t.entries.keep fun m => !k.isPrefixOf m := rfl

/-- The trees differ in nothing but what stands at a location or below it. -/
structure Within (k : Location) (t u : FileTree) : Prop where
  others : (u.erase k).entries = (t.erase k).entries
  cwd : u.cwd = t.cwd

theorem Within.refl (k : Location) (t : FileTree) : Within k t t := ⟨rfl, rfl⟩

theorem Within.trans (h : Within k t u) (h' : Within k u v) : Within k t v :=
  ⟨h'.others.trans h.others, h'.cwd.trans h.cwd⟩

/-- What is not below the location is as it was. -/
theorem Within.entryAt? (h : Within k t u) (hm : ¬ k <+: m) :
    u.entryAt? m = t.entryAt? m := by
  by_cases hnil : m = []
  · rw [hnil, entryAt?_nil, entryAt?_nil]
  have hnot : k.isPrefixOf m = false := by
    rw [Bool.eq_false_iff, ne_eq, List.isPrefixOf_iff_prefix]
    exact hm
  have hsame := entryAt?_congr h.others m
  rw [entryAt?_erase u k hnil, entryAt?_erase t k hnil, hnot] at hsame
  exact hsame

/-- What is changed below a location is changed below those that it lies under. -/
theorem Within.mono (h : Within (k ++ l) t u) : Within k t u := by
  have hboth (t : FileTree) :
      (t.erase k).entries = (t.erase (k ++ l)).entries.keep fun m => !k.isPrefixOf m := by
    rw [entries_erase, entries_erase, Table.keep_keep]
    refine Table.keep_congr fun e _ => ?_
    cases hk : k.isPrefixOf e.1 with
    | true => exact (Bool.and_false _).symm
    | false =>
      have hnot : (k ++ l).isPrefixOf e.1 = false := by
        rw [Bool.eq_false_iff, ne_eq, List.isPrefixOf_iff_prefix] at hk ⊢
        exact fun h => hk ((List.prefix_append k l).trans h)
      rw [hnot]
      rfl
  exact ⟨by rw [hboth u, hboth t, h.others], h.cwd⟩

/-- Putting an entry at a location changes nothing outside of it. -/
theorem within_put (t : FileTree) (k : Location) (e : Entry) : Within k t (t.put k e) := by
  refine ⟨?_, rfl⟩
  rw [entries_erase, entries_erase]
  exact t.entries.keep_put (by simp) e

/-- A place where a directory is made for a time: nothing stands there yet. -/
structure Site (u : FileTree) (dir : Path) (k : Location) : Prop where
  grounded : u.Grounded
  free : u.entryAt? k = none
  located : u.locate dir false = .ok k
  named : ∃ (base : Path) (name : String), Path.IsName name ∧ dir = base / name

/-- The directory stands at its place, and only things with the given names lie in it; all else is
as it was. -/
structure Inside (u : FileTree) (k : Location) (taken : List String) (v : FileTree) : Prop where
  within : Within k u v
  stands : v.entryAt? k = some .directory
  holds : ∀ name rest e, v.entryAt? (k ++ name :: rest) = some e → name ∈ taken

section

variable {taken : List String}

/-- Nothing stands at a name that is not taken. -/
theorem Inside.entryAt?_none (hin : Inside u k taken v) (hname : name ∉ taken) :
    v.entryAt? (k ++ [name]) = none := by
  cases hentry : v.entryAt? (k ++ [name]) with
  | none => rfl
  | some e => exact absurd (hin.holds name [] e hentry) hname

/-- What is changed at a name in the directory, or below, stays in the directory. -/
theorem Inside.change (hin : Inside u k taken v) {w : FileTree} (hw : Within (k ++ [name]) v w) :
    Inside u k (name :: taken) w := by
  refine ⟨hin.within.trans hw.mono, ?_, fun name' rest e he => ?_⟩
  -- The directory itself does not lie at the name or below it.
  · rw [hw.entryAt?, hin.stands]
    intro hk
    have hlength := hk.length_le
    rw [List.length_append, List.length_singleton] at hlength
    omega
  -- At another name everything is as it was.
  · by_cases hname : name' = name
    · rw [hname]
      exact List.mem_cons_self ..
    · refine List.mem_cons_of_mem _ (hin.holds name' rest e ?_)
      rw [← hw.entryAt?, he]
      intro hprefix
      rw [List.prefix_append_right_inj, List.cons_prefix_cons] at hprefix
      exact hname hprefix.1.symm

variable (h : Site u dir k)
include h

theorem Site.ne_nil : k ≠ [] := by
  rintro rfl
  cases h.free.symm.trans (entryAt?_nil u)

/-- Before the directory is made nothing stands at its place or below. -/
theorem Site.entryAt?_none (hm : k <+: m) : u.entryAt? m = none := by
  obtain ⟨names, rfl⟩ := hm
  exact h.grounded.entryAt?_append h.free names

/-- The directory is made. -/
theorem Site.inside : Inside u k [] (u.put k .directory) := by
  refine ⟨within_put u k _, ?_, fun name rest e he => ?_⟩
  · rw [entryAt?_put u h.ne_nil, if_pos rfl]
  · rw [entryAt?_put u h.ne_nil, if_neg (by simp), h.entryAt?_none (List.prefix_append ..)] at he
    cases he

/-- What happens in the new directory leaves what was there before. -/
theorem Site.extends (hin : Inside u k taken v) : Extends u v := by
  refine ⟨hin.within.cwd, fun m e he => ?_, fun m name hdir hfree => ?_⟩
  · rw [hin.within.entryAt?, he]
    intro hm
    cases he.symm.trans (h.entryAt?_none hm)
  · -- All that is new is the directory itself, which is no link, or lies below it.
    by_cases hk : k <+: m ++ [name]
    · have hlast : k = m ++ [name] := by
        rcases List.prefix_concat_iff.mp hk with hk | hk
        · exact hk
        · cases hdir.symm.trans (h.entryAt?_none hk)
      rw [link?, ← hlast, hin.stands]
    · rw [link?, hin.within.entryAt? hk, hfree]

/-- The path of the directory names it, whatever happens in it. -/
theorem Site.locate (hin : Inside u k taken v) : v.locate dir false = .ok k :=
  (h.extends hin).locate h.located

/-- A name in the directory leads one step down from its place. -/
theorem Site.locate_div (hin : Inside u k taken v) {follow : Bool} (hname : Path.IsName name)
    (hfree : v.entryAt? (k ++ [name]) = none) (hl : v.locate (dir / name) follow = .ok l) :
    l = k ++ [name] := by
  obtain ⟨moves, hnew, hold⟩ := steps_div hname dir
  obtain ⟨base, last, hlast, rfl⟩ := h.named
  have hsteps : steps (base / last) = moves := by
    refine hold.resolve_right fun hhere => ?_
    obtain ⟨moves', hdown, -⟩ := steps_div hlast base
    rw [hdown] at hhere
    cases (List.append_singleton_inj.mp hhere).2
  have hstart : start (base / last / name) v.cwd = start (base / last) v.cwd := by
    rw [start, Path.rooted_div hname, ← start]
  have hdir : Walks v true linkLimit (start (base / last) v.cwd) moves k := by
    rw [← hsteps]
    refine (walk_eq_ok_iff.mp (locate_eq_ok (h.locate hin))).following ?_
    rw [link?, hin.stands]
  have hwalk := locate_eq_ok hl
  rw [hnew, hstart, walk_eq_ok_iff] at hwalk
  obtain ⟨m, hm, -, hends⟩ := hwalk.concat
  -- Both walks lead to the directory.
  obtain rfl : k = m := Except.ok.inj (hdir.walk.symm.trans hm.walk)
  exact hends (Or.inr (link?_of_entryAt?_none hfree))

/-- A file is written at a name that is not taken. -/
theorem Site.write (hin : Inside u k taken v) (hname : Path.IsName name) (hfree : name ∉ taken)
    {content : Text.Bytes} {w : FileTree} (hw : v.write (dir / name) content = .ok w) :
    Inside u k (name :: taken) w := by
  have hplace := hin.entryAt?_none hfree
  rw [FileTree.write] at hw
  cases hl : v.locate (dir / name) with
  | error e => rw [hl] at hw; cases hw
  | ok l =>
    obtain rfl := h.locate_div hin hname hplace hl
    rw [hl] at hw
    dsimp only [bind, Except.bind] at hw
    rw [hplace] at hw
    obtain rfl := Except.ok.inj hw
    exact hin.change (within_put v _ _)

/-- With the directory all that was put into it is removed, and the tree is as it was. -/
theorem Site.removeTree (hin : Inside u k taken v) :
    (v.removeTree dir).entries = u.entries ∧ (v.removeTree dir).cwd = u.cwd := by
  rw [FileTree.removeTree, h.locate hin]
  refine ⟨hin.within.others.trans ?_, hin.within.cwd⟩
  rw [entries_erase]
  -- Nothing of the tree before lay at the place, hence nothing of it is removed.
  refine Table.keep_eq_self fun e he => ?_
  rw [Bool.not_eq_true', Bool.eq_false_iff, ne_eq, List.isPrefixOf_iff_prefix]
  intro hprefix
  have hsome := isSome_of_mem_entries he
  rw [h.entryAt?_none hprefix] at hsome
  cases hsome

end

/-- A new directory is made at a place of its own. -/
theorem Grounded.makeFresh (ht : t.Grounded) {base : Path} {stem : String}
    (hname : ∀ n, Path.IsName (stem ++ Instant.padded 6 n))
    (h : t.makeFresh base stem = .ok (dir, u)) :
    ∃ k, Site t dir k ∧ u = t.put k .directory := by
  rw [FileTree.makeFresh] at h
  cases hbase : t.locate (t.absolute base) with
  | error e => rw [hbase] at h; cases h
  | ok l =>
    rw [hbase] at h
    dsimp only [bind, Except.bind] at h
    -- Which of the free names is taken does not matter.
    generalize Option.getD _ 0 = n at h
    cases hmade : t.makeDirectory (t.absolute base / (stem ++ Instant.padded 6 n)) with
    | error e => rw [hmade] at h; cases h
    | ok u' =>
      rw [hmade] at h
      obtain ⟨rfl, rfl⟩ := Prod.mk.inj (Except.ok.inj h)
      obtain ⟨m, name, rfl, hdir, hfree, -, -, hlocated⟩ := ht.makeDirectory hmade
      obtain ⟨moves, hsteps, -⟩ := steps_div (hname n) (t.absolute base)
      exact ⟨m ++ [name], ⟨ht, hfree, hlocated _ _ hsteps, _, _, hname n, rfl⟩, rfl⟩

end SmaliView.FileTree
