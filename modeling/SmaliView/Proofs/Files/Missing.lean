import SmaliView.Proofs.Files.Growth

/-!
# Looking where directories were missing

When a tree grows by directories, a path may come to lead where it did not: through a directory that
was missing, and back up from it. A path that does not turn back at such a place leads to the same
files as before (`Furnished.find_file_iff`).
-/

namespace SmaliView.FileTree

open Relation (ReflTransGen)

variable {t u : FileTree} {l k : Location} {p : Path} {dirs : List Path} {s : List Step}

/-- One of some paths leads to the location, and nothing stands there. -/
def Missing (dirs : List Path) (t : FileTree) (l : Location) : Prop :=
  t.entryAt? l = none ∧ ∃ dir ∈ dirs, t.Reaches (start dir t.cwd, steps dir) (l, [])

/-- The way from a location along steps leads up again from where a directory is missing. -/
def TurnsBack (dirs : List Path) (t : FileTree) (l : Location) (s : List Step) : Prop :=
  ∃ m rest, Missing dirs t m ∧ t.Reaches (l, s) (m, .up :: rest)

/-- A way turns back if it does after its first steps. -/
theorem TurnsBack.head {a : Location} {s' : List Step} (hgoes : Goes t (l, s) (a, s'))
    (h : TurnsBack dirs t a s') : TurnsBack dirs t l s := by
  obtain ⟨m, rest, hm, hway⟩ := h
  exact ⟨m, rest, hm, .head hgoes hway⟩

/-- Two walks end alike, or none of them ends where something stands. -/
def EndAlike (t : FileTree) (x y : Except SystemError Location) : Prop :=
  x = y ∨ (∀ k, x = .ok k → t.entryAt? k = none) ∧ ∀ k, y = .ok k → t.entryAt? k = none

variable {follow : Bool} {links : Nat}

/-- In a tree that has grown by directories a walk goes on where nothing stood. It does not come
back to what stood before unless it turns back. -/
theorem Furnished.walks_missing (h : Furnished dirs t u) (ht : t.Sound) (hl : t.entryAt? l = none)
    (hs : ¬ TurnsBack dirs t l s) (hw : Walks u follow links l s k) :
    t.entryAt? k = none := by
  induction hw with
  | nil => exact hl
  | here _ _ ih => exact ih hl fun hback => hs (hback.head (.here ..))
  | @up _ l _ rest hdir =>
    obtain ⟨-, hhome⟩ := h.added l _ hl hdir
    exact absurd ⟨l, rest, ⟨hl, hhome⟩, .refl⟩ hs
  | @down _ l _ name rest _ _ _ _ ih =>
    have hbelow : t.entryAt? (l ++ [name]) = none := ht.entryAt?_append hl [name]
    exact ih hbelow fun hback => hs (hback.head (.down rest (link?_of_entryAt?_none hbelow)))
  -- No link is new, and none was where nothing stood.
  | last _ _ hlink =>
    rw [h.grows.links, link?_of_entryAt?_none (ht.entryAt?_append hl _)] at hlink
    cases hlink
  | follow _ _ hlink =>
    rw [h.grows.links, link?_of_entryAt?_none (ht.entryAt?_append hl _)] at hlink
    cases hlink

/-- A walk that does not turn back ends alike in both trees, or in neither where something stood. -/
theorem Furnished.walk_alike (h : Furnished dirs t u) (ht : t.Sound)
    (hs : ¬ TurnsBack dirs t l s) :
    EndAlike t (t.walk follow links l s) (u.walk follow links l s) := by
  induction links, l, s using walk_induction with
  | nil links l => exact Or.inl (by rw [walk_nil, walk_nil])
  | cons links l step rest ih ihlink =>
    cases hentry : t.entryAt? l with
    | none =>
      -- Where nothing stood the walk fails in the smaller tree, and comes to nothing old in the
      -- larger.
      refine Or.inr ⟨fun k hw => ?_, fun k hw =>
        h.walks_missing ht hentry hs (walk_eq_ok_iff.mp hw)⟩
      rw [walk_of_not_directory (by rw [hentry]; nofun)] at hw
      cases hw
    | some e =>
      have hentry' := h.entryAt? hentry
      by_cases hdir : e = .directory
      swap
      · have hne : some e ≠ some Entry.directory := fun heq => hdir (Option.some.inj heq)
        refine Or.inl ?_
        rw [walk_of_not_directory (hentry ▸ hne), walk_of_not_directory (hentry' ▸ hne), hentry,
          hentry']
      subst hdir
      cases step with
      | here =>
        rw [walk_here hentry, walk_here hentry']
        exact ih l fun hback => hs (hback.head (.here ..))
      | up =>
        rw [walk_up hentry, walk_up hentry']
        exact ih _ fun hback => hs (hback.head (.up ..))
      | down name =>
        by_cases hname : nameLimit < name.utf8ByteSize
        · rw [walk_down_long hentry hname, walk_down_long hentry' hname]
          exact Or.inl rfl
        have hsame := h.grows.links (l ++ [name])
        cases hlink : t.link? (l ++ [name]) with
        | none =>
          rw [walk_down hentry hname hlink, walk_down hentry' hname (hsame.trans hlink)]
          exact ih _ fun hback => hs (hback.head (.down rest hlink))
        | some target =>
          rw [walk_follow hentry hname hlink, walk_follow hentry' hname (hsame.trans hlink)]
          split
          · exact Or.inl rfl
          split
          · exact Or.inl rfl
          cases links with
          | zero => exact Or.inl rfl
          | succ links =>
            exact ihlink links _ _ rfl fun hback => hs (hback.head (.follow rest hlink))

/-- A path that fails the check is refused for that reason. -/
theorem locate_of_check {e : SystemError} (hcheck : check p = .error e) :
    t.locate p follow = .error e := by
  rw [locate, hcheck]
  rfl

/-- The path does not lead up again from where a directory is missing. -/
def Straight (dirs : List Path) (t : FileTree) (p : Path) : Prop :=
  ¬ TurnsBack dirs t (start p t.cwd) (steps p)

/-- Without links a way has only the steps of its path. -/
theorem Reaches.up_not_mem (hlinks : ∀ l, t.link? l = none) {a b : Location × List Step}
    (h : t.Reaches a b) (ha : Step.up ∉ a.2) : Step.up ∉ b.2 := by
  induction h with
  | refl => exact ha
  | tail _ hgoes ih =>
    cases hgoes with
    | here l rest => exact fun hup => ih (List.mem_cons_of_mem _ hup)
    | up l rest => exact absurd (List.mem_cons_self ..) ih
    | down rest hlink => exact fun hup => ih (List.mem_cons_of_mem _ hup)
    | follow rest hlink =>
      rw [hlinks] at hlink
      cases hlink

/-- Without links only a path that leads up itself can turn back. -/
theorem straight_of_up_not_mem (hlinks : ∀ l, t.link? l = none) (hp : Step.up ∉ steps p) :
    Straight dirs t p := by
  rintro ⟨m, rest, -, hway⟩
  exact hway.up_not_mem hlinks hp (List.mem_cons_self ..)

section

variable (h : Furnished dirs t u) (ht : t.Sound) (hp : Straight dirs t p)
include h ht hp

/-- A straight path ends alike in both trees, or in neither of them where something stood before. -/
theorem Furnished.locate_alike : EndAlike t (t.locate p) (u.locate p) := by
  cases hcheck : check p with
  | error e => exact Or.inl (by rw [locate_of_check hcheck, locate_of_check hcheck])
  | ok _ =>
    rw [locate_eq hcheck, locate_eq hcheck, h.cwd]
    exact h.walk_alike ht hp

/-- The path leads to the same file as before, or to none as before. -/
theorem Furnished.find_file_iff (content : Text.Bytes) (modified : Instant) (may : Permissions) :
    u.find p = .ok (.file content modified may) ↔ t.find p = .ok (.file content modified may) := by
  -- A file is nothing new.
  have hold {k : Location} (hentry : u.entryAt? k = some (.file content modified may)) :
      t.entryAt? k ≠ none := by
    intro hfree
    obtain ⟨hdir, -⟩ := h.added k _ hfree hentry
    cases hdir
  constructor
  · intro hfind
    obtain ⟨k, hk, hentry⟩ := exists_locate_of_find hfind
    rcases h.locate_alike ht hp with heq | ⟨-, hnone⟩
    · rw [find_of_locate (heq.trans hk)]
      cases hsome : t.entryAt? k with
      | none => exact absurd hsome (hold hentry)
      | some e =>
        rw [h.entryAt? hsome] at hentry
        exact congrArg Except.ok (Option.some.inj hentry)
    · exact absurd (hnone k hk) (hold hentry)
  · intro hfind
    obtain ⟨k, hk, hentry⟩ := exists_locate_of_find hfind
    rw [find_of_locate (h.grows.extends.locate hk), h.entryAt? hentry]

/-- New directories change nothing about what is told of a file at a straight path. -/
theorem Furnished.fileInfo? : u.fileInfo? p = t.fileInfo? p := by
  have hiff := h.find_file_iff ht hp
  -- Only of a file anything is told.
  have hnone {v : FileTree}
      (hv : ∀ content modified may, v.find p ≠ .ok (.file content modified may)) :
      v.fileInfo? p = none := by
    rw [FileTree.fileInfo?, info]
    rcases hfind : v.find p with e | (⟨content, modified, may⟩ | _ | _)
    · rfl
    · exact absurd hfind (hv content modified may)
    · rfl
    · rfl
  by_cases hfile : ∃ content modified may, t.find p = .ok (.file content modified may)
  · obtain ⟨content, modified, may, hfind⟩ := hfile
    rw [fileInfo?_of_find ((hiff _ _ _).mpr hfind), fileInfo?_of_find hfind]
  · rw [hnone fun _ _ _ hfind => hfile ⟨_, _, _, hfind⟩,
      hnone fun _ _ _ hfind => hfile ⟨_, _, _, (hiff _ _ _).mp hfind⟩]

theorem Furnished.isFile : u.isFile p = t.isFile p := by
  rw [FileTree.isFile, FileTree.isFile, h.fileInfo? ht hp]

end

end SmaliView.FileTree
