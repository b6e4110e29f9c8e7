import SmaliView.Proofs.Pipeline.Indifference

/-!
# Checking that a file stands beside the way

`Pipeline.Clear` speaks of all names and of all scratch directories. In a tree that has the
directory to work in, with no link in it and not the file either, entry by entry is enough:
`Pipeline.seemsClear` is the check, and `clear_of_seemsClear` says that it suffices.
-/

namespace SmaliView

variable {t : FileTree} {l m : Location} {p : Path}

instance (s : String) : Decidable (Path.IsName s) :=
  decidable_of_iff ('/' ∉ s.toList ∧ Path.idle s.toList = false ∧ s.toList ≠ ['.', '.'])
    ⟨fun h => ⟨h.1, h.2.1, h.2.2⟩, fun h => ⟨h.whole, h.moves, h.descends⟩⟩

namespace FileTree

/-- Whether each entry lies in a directory and has a name. -/
def isSound (t : FileTree) : Bool :=
  t.entries.entries.all fun (m, _) =>
    decide (t.entryAt? m.dropLast = some .directory) &&
      m.getLast?.all fun name => decide (Path.IsName name)

theorem mem_entries_of_entryAt? {e : Entry} (hm : m ≠ []) (h : t.entryAt? m = some e) :
    (m, e) ∈ t.entries.entries := by
  rw [entryAt?, if_neg hm] at h
  exact Table.mem_of_get?_eq_some h

/-- The check for soundness is right. -/
theorem sound_of_isSound (h : t.isSound = true) : t.Sound := by
  -- Every entry but the root is in the list that was checked.
  have hall {m : Location} {e : Entry} (hm : m ≠ []) (he : t.entryAt? m = some e) :
      t.entryAt? m.dropLast = some .directory ∧ ∀ name ∈ m.getLast?, Path.IsName name := by
    have hentry := List.all_eq_true.mp h (m, e) (mem_entries_of_entryAt? hm he)
    simpa [Option.all_eq_true] using hentry
  refine ⟨fun m e he => ?_, fun m name e he => ?_⟩
  · by_cases hm : m = []
    · rw [hm]
      exact entryAt?_nil t
    · exact (hall hm he).1
  · exact (hall (by simp) he).2 name (by simp)

/-- Whether there is nothing at a location but a regular file, if there is anything. -/
def atMostFile (t : FileTree) (l : Location) : Bool :=
  match t.entryAt? l with
  | some (.file ..) | none => true
  | some .directory | some (.link _) => false

/-- The check that at most a file stands at a location is right. -/
theorem atMostFile_of_check (h : t.atMostFile l = true) : t.AtMostFile l := by
  intro e he
  rw [atMostFile, he] at h
  cases e with
  | file content modified may => exact ⟨content, modified, may, rfl⟩
  | directory => cases h
  | link target => cases h

/-- A path to a directory leads through directories only. -/
theorem not_through_of_isDirectory (h : t.isDirectory p = true) (hl : t.AtMostFile l) :
    ¬ t.Through l p := by
  intro hthrough
  have hfind : t.find p = .ok .directory := by
    rw [isDirectory] at h
    split at h
    · assumption
    · cases h
  obtain ⟨m, hm, hentry⟩ := exists_locate_of_find hfind
  -- Where the way leads through there is a directory, and at the location is none.
  rcases hthrough.eq_or_directory hm (by rw [link?, hentry]) with rfl | hdir
  · exact hl.ne_directory hentry
  · exact hl.ne_directory hdir

/-- Whether a path names another place than a location, or none. -/
def namesOther (t : FileTree) (l : Location) (p : Path) : Bool :=
  match t.locate p with
  | .ok m => m != l
  | .error _ => true

/-- A path that is found to name another location does. -/
theorem locate_ne_of_namesOther (h : t.namesOther l p = true) : t.locate p ≠ .ok l := by
  intro hl
  rw [namesOther, hl] at h
  simp at h

/-- Whether a path leads to a directory in which no link lies, nor what is at a location. -/
def holdsNeither (t : FileTree) (l : Location) (p : Path) : Bool :=
  match t.locate p with
  | .ok m => decide (t.entryAt? m = some .directory) && l.dropLast != m &&
      t.entries.entries.all fun (k, _) => k.dropLast != m || (t.link? k).isNone
  | .error _ => false

/-- The ways below a directory keep clear of a location that it neither is nor leads through. -/
theorem not_through_of_holdsNeither (h : t.holdsNeither l p = true) (hl : t.AtMostFile l)
    {name : String} (hname : Path.IsName name) : ¬ t.Through l (p / name) := by
  rw [holdsNeither] at h
  split at h
  swap
  · cases h
  next m hm =>
  obtain ⟨⟨hdir, hfile⟩, hlinks⟩ : (t.entryAt? m = some .directory ∧ l.dropLast ≠ m) ∧
      ∀ k e, (k, e) ∈ t.entries.entries → k.dropLast ≠ m ∨ t.link? k = none := by
    simpa using h
  have hway := reaches_of_locate hm (by rw [link?, hdir])
  -- No link stands in the directory, so the name is taken as it is.
  have hlink : t.link? (m ++ [name]) = none := by
    cases hentry : t.entryAt? (m ++ [name]) with
    | none => exact link?_of_entryAt?_none hentry
    | some e =>
      have hmem := mem_entries_of_entryAt? (by simp) hentry
      exact (hlinks _ e hmem).resolve_left fun hne => hne (List.dropLast_concat ..)
  intro hthrough
  -- The location is neither on the way to the directory nor in it.
  rcases hthrough.of_div hname hway hlink with hthrough | rfl
  · refine not_through_of_isDirectory ?_ hl hthrough
    rw [isDirectory, find_of_locate hm, hdir]
  · exact hfile (List.dropLast_concat ..)

end FileTree

namespace Pipeline

/-- Whether a tree is seen to be clear: what is to be worked in is there. -/
def seemsClear (p : Pipeline) (probe : Probe) (l : Location) (t : FileTree) : Bool :=
  t.isSound && t.atMostFile l && decide (t.entryAt? l.dropLast = some .directory) &&
    (p.layout.encountered t probe ++ p.layout.sources probe).all (t.namesOther l) &&
    (p.workDirectory.toList.flatMap Path.ancestors).all t.isDirectory &&
    t.holdsNeither l (t.absolute (p.workDirectory.getD p.temporary))

/-- A pipeline that passes the check is clear of the location. -/
theorem clear_of_seemsClear {p : Pipeline} {probe : Probe} (h : p.seemsClear probe l t = true) :
    p.Clear probe l t := by
  simp only [seemsClear, Bool.and_eq_true, decide_eq_true_eq, List.all_eq_true] at h
  obtain ⟨⟨⟨⟨⟨hsound, hfile⟩, hhome⟩, hnamed⟩, hdirs⟩, hscratch⟩ := h
  have hfile := FileTree.atMostFile_of_check hfile
  refine ⟨FileTree.sound_of_isSound hsound, hhome,
    fun c hc => FileTree.locate_ne_of_namesOther (hnamed c hc), fun dir hdir => ?_⟩
  cases hdir with
  | @configured base dir hbase hdir =>
    refine FileTree.not_through_of_isDirectory (hdirs dir ?_) hfile
    rw [hbase]
    exact List.mem_flatMap.mpr ⟨base, List.mem_singleton_self _, hdir⟩
  | scratch n =>
    exact FileTree.not_through_of_holdsNeither hscratch hfile (isName_scratchName n)

variable {σ : Type} (respond : Plan.Respondent σ) (files : σ → FileTree)

/-- Whether the files are seen to be clear at a moment at which they are looked at. -/
def looksClear (p : Pipeline) (probe : Probe) (l : Location) (m : Moment σ) : Bool :=
  match m.question with
  | .look => p.seemsClear probe l (files m.state)
  | _ => true

/-- Whether the places where Java source is looked for name others at a moment at which a container
is decompiled. -/
def placesOther (l : Location) (m : Moment σ) : Bool :=
  match m.question with
  | .decompile request =>
    match respond (.decompile request) m.state with
    | (.ok answer, s) => (placesFor request answer).all ((files s).namesOther l)
    | (.error _, _) => true
  | _ => true

/-- Whether a file is seen to stand beside the way of a conversion of editor text. -/
def seemsClearOn (p : Pipeline) (file : Path) (text : String) (l : Location) (s : σ) : Bool :=
  ((p.resolve file (some text)).moments respond s).all fun m =>
    p.looksClear files (Probe.of file (some text)) l m && placesOther respond files l m

variable {respond files}

/-- A moment that passes the check is clear when it looks at the files. -/
theorem clear_of_looksClear {p : Pipeline} {probe : Probe} {m : Moment σ}
    (h : p.looksClear files probe l m = true) (hm : m.question = .look) :
    p.Clear probe l (files m.state) := by
  rw [looksClear, hm] at h
  exact clear_of_seemsClear h

/-- A conversion whose moments pass the check stays clear of the location. -/
theorem staysClear_of_seemsClearOn {p : Pipeline} {file : Path} {text : String} {s : σ}
    (h : p.seemsClearOn respond files file text l s = true) :
    p.StaysClear file text l respond files s := by
  intro m hm
  obtain ⟨hlooks, hplaces⟩ := (Bool.and_eq_true _ _).mp (List.all_eq_true.mp h m hm)
  refine ⟨clear_of_looksClear hlooks, fun request answer hq hanswer _ e he => ?_⟩
  rw [placesOther, hq] at hplaces
  dsimp only at hplaces
  -- The answer is the one for which the places were checked.
  generalize respond (.decompile request) m.state = x at hplaces hanswer ⊢
  obtain ⟨reply, s'⟩ := x
  obtain rfl : reply = .ok answer := hanswer
  exact FileTree.locate_ne_of_namesOther (List.all_eq_true.mp hplaces e he)

end Pipeline

end SmaliView
