import SmaliView.Proofs.Files.Ways

/-!
# Trees that differ in one file

Two trees are *apart* at a location if they agree in everything but the regular file that stands
there in one of them or in both. What a path leads to is the same in both unless it is that file,
and a path that does not lead through the location cannot tell the trees apart. Operations along
such paths succeed in both trees or fail in both with the same error, and leave trees that are
apart as before.
-/

namespace SmaliView

/-- Two results agree: both are the same error, or their values are related. -/
inductive Agree {ε α β : Type} (related : α → β → Prop) : Except ε α → Except ε β → Prop where
  | ok {a : α} {b : β} (h : related a b) : Agree related (.ok a) (.ok b)
  | error (e : ε) : Agree related (.error e) (.error e)

theorem Agree.mono {ε α β : Type} {related related' : α → β → Prop} {x : Except ε α}
    {y : Except ε β} (h : Agree related x y) (himp : ∀ a b, related a b → related' a b) :
    Agree related' x y := by
  cases h with
  | ok h => exact .ok (himp _ _ h)
  | error e => exact .error e

namespace FileTree

variable {t u : FileTree} {l m : Location} {p : Path}

/-- There is nothing at a location but a regular file, if there is anything. -/
def AtMostFile (t : FileTree) (l : Location) : Prop :=
  ∀ e, t.entryAt? l = some e → ∃ content modified may, e = .file content modified may

/-- Where at most a file stands there is no directory. -/
theorem AtMostFile.ne_directory (h : t.AtMostFile l) : t.entryAt? l ≠ some .directory := by
  intro hentry
  obtain ⟨_, _, _, he⟩ := h _ hentry
  cases he

/-- Where at most a file stands there is no link. -/
theorem AtMostFile.link? (h : t.AtMostFile l) : t.link? l = none := by
  rw [FileTree.link?]
  split
  · next target hentry =>
    obtain ⟨_, _, _, he⟩ := h _ hentry
    cases he
  · rfl

/-- The top directory is no file. -/
theorem AtMostFile.ne_nil (h : t.AtMostFile l) : l ≠ [] := by
  rintro rfl
  exact h.ne_directory (entryAt?_nil t)

theorem atMostFile_of_none (h : t.entryAt? l = none) : t.AtMostFile l := by
  intro e he
  cases h.symm.trans he

theorem atMostFile_of_file {content : Text.Bytes} {modified : Instant} {may : Permissions}
    (h : t.entryAt? l = some (.file content modified may)) : t.AtMostFile l := by
  intro e he
  exact ⟨content, modified, may, Option.some.inj (he.symm.trans h)⟩

/-- The trees differ at most in the regular file at a location. -/
structure Apart (l : Location) (t u : FileTree) : Prop where
  others : t.entries.erase l = u.entries.erase l
  cwd : t.cwd = u.cwd
  now : t.now = u.now
  left : t.AtMostFile l
  right : u.AtMostFile l

/-- The tree has other files or directories than another one, but paths take the same ways. -/
structure SameWays (t u : FileTree) : Prop where
  links : ∀ m, u.link? m = t.link? m
  cwd : u.cwd = t.cwd

theorem SameWays.refl (t : FileTree) : SameWays t t := ⟨fun _ => rfl, rfl⟩

theorem SameWays.symm (h : SameWays t u) : SameWays u t :=
  ⟨fun m => (h.links m).symm, h.cwd.symm⟩

theorem SameWays.trans {v : FileTree} (h : SameWays t u) (h' : SameWays u v) : SameWays t v :=
  ⟨fun m => (h'.links m).trans (h.links m), h'.cwd.trans h.cwd⟩

/-- Paths lead through the same locations in trees with the same ways. -/
theorem SameWays.through_iff (h : SameWays t u) : u.Through l p ↔ t.Through l p :=
  ⟨Through.congr h.symm.links h.symm.cwd, Through.congr h.links h.cwd⟩

/-! ## What stands elsewhere -/

theorem Apart.symm (h : Apart l t u) : Apart l u t :=
  ⟨h.others.symm, h.cwd.symm, h.now.symm, h.right, h.left⟩

theorem Apart.ne_nil (h : Apart l t u) : l ≠ [] := h.left.ne_nil

/-- Apart from the location both trees are the same. -/
theorem Apart.entryAt? (h : Apart l t u) (hm : m ≠ l) : t.entryAt? m = u.entryAt? m := by
  have hget : (t.entries.erase l).get? m = (u.entries.erase l).get? m := by rw [h.others]
  rw [Table.get?_erase, Table.get?_erase, if_neg hm, if_neg hm] at hget
  rw [FileTree.entryAt?, FileTree.entryAt?, hget]

/-- At the location there are no links, so the ways are the same. -/
theorem Apart.sameWays (h : Apart l t u) : SameWays t u := by
  refine ⟨fun m => ?_, h.cwd.symm⟩
  by_cases hm : m = l
  · rw [hm, h.left.link?, h.right.link?]
  · rw [FileTree.link?, FileTree.link?, h.entryAt? hm]

theorem Apart.link? (h : Apart l t u) (m : Location) : t.link? m = u.link? m :=
  (h.sameWays.links m).symm

theorem Apart.absolute (h : Apart l t u) (p : Path) : t.absolute p = u.absolute p := by
  rw [FileTree.absolute, FileTree.absolute, h.cwd]

/-! ## Walking -/

/-- A walk ends alike in both trees, or in both it is stopped where they differ. -/
theorem Apart.walk (h : Apart l t u) (follow : Bool) (links : Nat) (m : Location)
    (s : List Step) : t.walk follow links m s = u.walk follow links m s ∨
      (∃ rest, t.Reaches (m, s) (l, rest)) ∧
        (∃ e, t.walk follow links m s = .error e) ∧ ∃ e, u.walk follow links m s = .error e := by
  induction links, m, s using walk_induction with
  | nil links m => exact Or.inl (by rw [walk_nil, walk_nil])
  | cons links m step rest ih ihlink =>
    by_cases hm : m = l
    -- A walk with a step to go is stopped at a file and at nothing.
    · subst hm
      refine Or.inr ⟨⟨_, .refl⟩, ⟨_, walk_of_not_directory h.left.ne_directory⟩, ?_⟩
      exact ⟨_, walk_of_not_directory h.right.ne_directory⟩
    have hentry := h.entryAt? hm
    by_cases hdir : t.entryAt? m = some .directory
    swap
    · refine Or.inl ?_
      rw [walk_of_not_directory hdir, walk_of_not_directory (hentry ▸ hdir), hentry]
    have hdir' : u.entryAt? m = some .directory := hentry ▸ hdir
    cases step with
    | here =>
      rw [walk_here hdir, walk_here hdir']
      refine (ih m).imp_right fun ⟨⟨rest', hway⟩, herrors⟩ => ?_
      exact ⟨⟨rest', .head (.here ..) hway⟩, herrors⟩
    | up =>
      rw [walk_up hdir, walk_up hdir']
      refine (ih m.dropLast).imp_right fun ⟨⟨rest', hway⟩, herrors⟩ => ?_
      exact ⟨⟨rest', .head (.up ..) hway⟩, herrors⟩
    | down name =>
      by_cases hname : nameLimit < name.utf8ByteSize
      · rw [walk_down_long hdir hname, walk_down_long hdir' hname]
        exact Or.inl rfl
      have hsame := h.link? (m ++ [name])
      cases hlink : t.link? (m ++ [name]) with
      | none =>
        rw [walk_down hdir hname hlink, walk_down hdir' hname (hsame ▸ hlink)]
        refine (ih (m ++ [name])).imp_right fun ⟨⟨rest', hway⟩, herrors⟩ => ?_
        exact ⟨⟨rest', .head (.down _ hlink) hway⟩, herrors⟩
      | some target =>
        rw [walk_follow hdir hname hlink, walk_follow hdir' hname (hsame ▸ hlink)]
        split
        · exact Or.inl rfl
        split
        · exact Or.inl rfl
        cases links with
        | zero => exact Or.inl rfl
        | succ links =>
          refine (ihlink links _ _ rfl).imp_right fun ⟨⟨rest', hway⟩, herrors⟩ => ?_
          exact ⟨⟨rest', .head (.follow _ hlink) hway⟩, herrors⟩

/-- A path that does not lead through the location names the same place in both trees. -/
theorem Apart.locate (h : Apart l t u) (hp : ¬ t.Through l p) (follow : Bool) :
    t.locate p follow = u.locate p follow := by
  rw [FileTree.locate, FileTree.locate, ← h.cwd]
  rcases h.walk follow linkLimit (start p t.cwd) (steps p) with heq | ⟨hway, -⟩
  · rw [heq]
  · exact absurd hway hp

/-- Every path names the same place in both trees, if it names any. -/
theorem Apart.locate_iff (h : Apart l t u) {follow : Bool} :
    t.locate p follow = .ok m ↔ u.locate p follow = .ok m := by
  rw [FileTree.locate, FileTree.locate, ← h.cwd]
  rcases h.walk follow linkLimit (start p t.cwd) (steps p) with heq | ⟨-, ⟨e, ht⟩, e', hu⟩
  · rw [heq]
  · rw [ht, hu]
    cases check p with
    | error e => exact Iff.rfl
    | ok _ =>
      constructor
      · intro hm
        cases hm
      · intro hm
        cases hm

/-- A path that does not lead through the location does not name it. -/
theorem Apart.locate_ne (h : Apart l t u) (hp : ¬ t.Through l p) (follow : Bool) :
    t.locate p follow ≠ .ok l :=
  fun hl => hp ⟨_, reaches_of_locate hl h.left.link?⟩

/-! ## Looking -/

theorem find_of_locate (hm : t.locate p = .ok m) :
    t.find p = match t.entryAt? m with | some e => .ok e | none => .error .noEntry := by
  rw [FileTree.find, hm]
  rfl

theorem find_of_error {e : SystemError} (he : t.locate p = .error e) : t.find p = .error e := by
  rw [FileTree.find, he]
  rfl

/-- A path that does not lead through the location leads to the same in both trees, or to nothing
for the same reason. -/
theorem Apart.find (h : Apart l t u) (hp : ¬ t.Through l p) : t.find p = u.find p := by
  have hlocate := h.locate hp true
  cases hm : t.locate p with
  | error e => rw [find_of_error hm, find_of_error (hlocate ▸ hm)]
  | ok m =>
    have hne : m ≠ l := by
      rintro rfl
      exact h.locate_ne hp true hm
    rw [find_of_locate hm, find_of_locate (hlocate ▸ hm), h.entryAt? hne]

/-- A path leads to the same in both trees unless it names the location. -/
theorem Apart.find_toOption (h : Apart l t u) (hp : t.locate p ≠ .ok l) :
    (t.find p).toOption = (u.find p).toOption := by
  cases hm : t.locate p with
  | ok m =>
    have hne : m ≠ l := by
      rintro rfl
      exact hp hm
    rw [find_of_locate hm, find_of_locate (h.locate_iff.mp hm), h.entryAt? hne]
  | error e =>
    -- Neither path names anything, though the errors may differ.
    cases hm' : u.locate p with
    | ok m => cases hm.symm.trans (h.locate_iff.mpr hm')
    | error e' => rw [find_of_error hm, find_of_error hm']; rfl

/-- A path that names a directory in one tree does so in the other. -/
theorem Apart.directory_iff (h : Apart l t u) :
    (t.locate p = .ok m ∧ t.entryAt? m = some .directory) ↔
      u.locate p = .ok m ∧ u.entryAt? m = some .directory := by
  refine and_congr h.locate_iff ?_
  by_cases hm : m = l
  · rw [hm]
    exact iff_of_false h.left.ne_directory h.right.ne_directory
  · rw [h.entryAt? hm]

theorem find_of_toOption {e : Entry} (h : (t.find p).toOption = (u.find p).toOption)
    (ht : t.find p = .ok e) : u.find p = .ok e := by
  rw [ht] at h
  cases hu : u.find p with
  | error e' => rw [hu] at h; cases h
  | ok e' =>
    rw [hu] at h
    exact congrArg Except.ok (Option.some.inj h).symm

/-- What is told of a path depends on what it leads to. -/
theorem info_congr (hnow : t.now = u.now) (h : t.find p = u.find p) : t.info p = u.info p := by
  have hdescribe : t.describe = u.describe := by
    funext e
    cases e <;> simp [describe, hnow]
  rw [info, info, h, hdescribe]

theorem fileInfo?_congr (hnow : t.now = u.now) (h : (t.find p).toOption = (u.find p).toOption) :
    t.fileInfo? p = u.fileInfo? p := by
  rw [fileInfo?, fileInfo?]
  cases ht : t.find p with
  | ok e => rw [info_congr hnow (ht.trans (find_of_toOption h ht).symm)]
  | error e =>
    cases hu : u.find p with
    | ok e' => cases ht.symm.trans (find_of_toOption h.symm hu)
    | error e' => rw [info, info, ht, hu]; rfl

theorem isFile_congr (hnow : t.now = u.now) (h : (t.find p).toOption = (u.find p).toOption) :
    t.isFile p = u.isFile p := by
  rw [isFile, isFile, fileInfo?_congr hnow h]

/-- What a path leads to, where it leads to a regular file. -/
theorem exists_find_of_isFile (h : t.isFile p = true) :
    ∃ content modified may, t.find p = .ok (.file content modified may) := by
  rw [isFile, fileInfo?, info] at h
  cases ht : t.find p with
  | error e =>
    rw [ht] at h
    cases h
  | ok e =>
    cases e with
    | file content modified may => exact ⟨content, modified, may, rfl⟩
    | directory =>
      rw [ht] at h
      cases h
    | link target =>
      rw [ht] at h
      cases h

theorem fileInfo?_of_find {content : Text.Bytes} {modified : Instant} {may : Permissions}
    (h : t.find p = .ok (.file content modified may)) :
    t.fileInfo? p = some ⟨true, modified, content.length, may.executable⟩ := by
  rw [fileInfo?, info, h]
  rfl

/-- What is read of a file has the length that is told of it. -/
theorem fileInfo?_of_read {content : Text.Bytes} {info : FileInfo} (hread : t.read p = .ok content)
    (hinfo : t.info p = .ok info) :
    t.fileInfo? p = some info ∧ info.length = content.length := by
  rw [FileTree.info] at hinfo
  rw [FileTree.read] at hread
  rcases hfind : t.find p with e | (⟨content', modified, may⟩ | _ | _)
  · rw [hfind] at hread
    cases hread
  · rw [hfind] at hread hinfo
    obtain rfl := Except.ok.inj hinfo
    refine ⟨fileInfo?_of_find hfind, ?_⟩
    dsimp only [bind, Except.bind] at hread
    split at hread
    · obtain rfl := Except.ok.inj hread
      rfl
    · cases hread
  all_goals
    rw [hfind] at hread
    cases hread

theorem exists_locate_of_find {e : Entry} (h : t.find p = .ok e) :
    ∃ m, t.locate p = .ok m ∧ t.entryAt? m = some e := by
  cases hm : t.locate p with
  | error e' => cases h.symm.trans (find_of_error hm)
  | ok m =>
    refine ⟨m, rfl, ?_⟩
    rw [find_of_locate hm] at h
    cases hentry : t.entryAt? m with
    | none =>
      rw [hentry] at h
      cases h
    | some e' =>
      rw [hentry] at h
      exact congrArg some (Except.ok.inj h)

/-- A path to a regular file leads through no other. -/
theorem not_through_of_isFile (h : t.isFile p = true) (hl : t.AtMostFile l)
    (hp : t.locate p ≠ .ok l) : ¬ t.Through l p := by
  intro hthrough
  obtain ⟨content, modified, may, hfind⟩ := exists_find_of_isFile h
  obtain ⟨m, hm, hentry⟩ := exists_locate_of_find hfind
  have hlink : t.link? m = none := by rw [FileTree.link?, hentry]
  -- On the way to a file all else is directories.
  rcases hthrough.eq_or_directory hm hlink with rfl | hdir
  · exact hp hm
  · exact hl.ne_directory hdir

/-! ## Changing -/

/-- An entry that is no link, put where none was, leaves all links as they were. -/
theorem link?_put (t : FileTree) (hm : m ≠ []) {e : Entry} (he : ∀ target, e ≠ .link target)
    (hlink : t.link? m = none) (k : Location) : (t.put m e).link? k = t.link? k := by
  rw [FileTree.link?, entryAt?_put t hm]
  by_cases hk : k = m
  · rw [if_pos hk, hk, hlink]
    cases e with
    | link target => exact absurd rfl (he target)
    | file => rfl
    | directory => rfl
  · rw [if_neg hk]
    rfl

theorem sameWays_put (t : FileTree) (hm : m ≠ []) {e : Entry} (he : ∀ target, e ≠ .link target)
    (hlink : t.link? m = none) : SameWays t (t.put m e) :=
  ⟨link?_put t hm he hlink, rfl⟩

/-- What is put elsewhere in both trees keeps them apart. -/
theorem Apart.put (h : Apart l t u) (hm : m ≠ []) (hne : m ≠ l) (e : Entry) :
    Apart l (t.put m e) (u.put m e) := by
  refine ⟨?_, h.cwd, h.now, ?_, ?_⟩
  · show (t.entries.put m e).erase l = (u.entries.put m e).erase l
    rw [Table.erase_put _ hne, Table.erase_put _ hne, h.others]
  · intro e' he'
    rw [entryAt?_put t hm, if_neg (Ne.symm hne)] at he'
    exact h.left e' he'
  · intro e' he'
    rw [entryAt?_put u hm, if_neg (Ne.symm hne)] at he'
    exact h.right e' he'

theorem AtMostFile.erase (h : t.AtMostFile l) (m : Location) : (t.erase m).AtMostFile l := by
  intro e he
  rw [entryAt?_erase t m h.ne_nil] at he
  split at he
  · cases he
  · exact h e he

/-- What is removed in both trees keeps them apart. -/
theorem Apart.erase (h : Apart l t u) (m : Location) : Apart l (t.erase m) (u.erase m) := by
  refine ⟨?_, h.cwd, h.now, h.left.erase m, h.right.erase m⟩
  show (t.entries.keep _).erase l = (u.entries.keep _).erase l
  rw [Table.erase, Table.erase, Table.keep_comm, Table.keep_comm u.entries]
  exact congrArg (Table.keep · _) h.others

/-- Removing whatever stands at a path leaves the trees apart, or takes their difference away. -/
theorem Apart.removeTree (h : Apart l t u) (p : Path) :
    Apart l (t.removeTree p) (u.removeTree p) := by
  rw [FileTree.removeTree, FileTree.removeTree]
  cases ht : t.locate p false with
  | ok m =>
    rw [h.locate_iff.mp ht]
    -- What is removed is the same location in both, that of the difference or one above it
    -- included.
    exact h.erase m
  | error e =>
    cases hu : u.locate p false with
    | ok m => cases ht.symm.trans (h.locate_iff.mpr hu)
    | error e' => exact h

/-- A file is put where none or another one stands. -/
theorem Apart.put_file (h : Apart l t u) (hne : m ≠ l) (hm : t.AtMostFile m) {e : Entry}
    (he : ∀ target, e ≠ .link target) :
    Apart l (t.put m e) (u.put m e) ∧ SameWays t (t.put m e) :=
  ⟨h.put hm.ne_nil hne e, sameWays_put t hm.ne_nil he hm.link?⟩

/-- Writing at a path that keeps clear of the location is done in both trees or in none. -/
theorem Apart.write (h : Apart l t u) (hp : ¬ t.Through l p) (content : Text.Bytes) :
    Agree (fun t' u' => Apart l t' u' ∧ SameWays t t') (t.write p content)
      (u.write p content) := by
  rw [FileTree.write, FileTree.write, ← h.locate hp]
  cases hm : t.locate p with
  | error e => exact .error e
  | ok m =>
    have hne : m ≠ l := by
      rintro rfl
      exact h.locate_ne hp true hm
    dsimp only [bind, Except.bind]
    rw [← h.entryAt? hne, ← h.now]
    -- A file is written where nothing or a file stands, the same in both trees.
    rcases hentry : t.entryAt? m with _ | ⟨old, modified, may⟩ | _ | target
    · exact .ok (h.put_file hne (atMostFile_of_none hentry) (by simp))
    · exact .ok (h.put_file hne (atMostFile_of_file hentry) (by simp))
    · exact .error _
    · exact .error _

/-- What is the same file in both trees is copied to the same place. -/
theorem Apart.copy {q : Path} (h : Apart l t u) (hp : t.find p = u.find p)
    (hq : ¬ t.Through l q) :
    Agree (fun t' u' => Apart l t' u' ∧ SameWays t t') (t.copy p q) (u.copy p q) := by
  rw [FileTree.copy, FileTree.copy, ← hp, ← h.locate hq]
  cases t.find p with
  | error e => exact .error e
  | ok source =>
    cases source with
    | directory => exact .error _
    | link target => exact .error _
    | file content modified may =>
      show Agree _ (if !may.readable then _ else _) (if !may.readable then _ else _)
      split
      · exact .error _
      cases hm : t.locate q with
      | error e => exact .error e
      | ok m =>
        have hne : m ≠ l := by
          rintro rfl
          exact h.locate_ne hq true hm
        dsimp only [bind, Except.bind]
        rw [← h.entryAt? hne, ← h.now]
        rcases hentry : t.entryAt? m with _ | ⟨old, modified, may⟩ | _ | target
        · exact .ok (h.put_file hne (atMostFile_of_none hentry) (by simp))
        · exact .ok (h.put_file hne (atMostFile_of_file hentry) (by simp))
        · exact .error _
        · exact .error _

end FileTree

end SmaliView
