import SmaliView.Proofs.Files.Names
import Mathlib.Logic.Relation

/-!
# The ways of paths

Where a walk comes past on its way from a directory along steps is said by moves, `Goes`, one for
each step. A move looks at nothing but the links, so that a way goes on through files and through
places where nothing stands. A walk that ends has taken such a way (`reaches_of_walk`). A location
that a path leads *through* is one on the way of it, its end included.
-/

namespace SmaliView.FileTree

open Relation (ReflTransGen)

variable {t u : FileTree} {l m r : Location} {s s' rest : List Step} {p : Path}

/-! ## Moves -/

/-- The target of the link at a location. -/
def link? (t : FileTree) (l : Location) : Option Path :=
  match t.entryAt? l with
  | some (.link target) => some target
  | _ => none

/-- A move of a walk, from a directory with steps to go to the next one. -/
inductive Goes (t : FileTree) : Location × List Step → Location × List Step → Prop where
  | here (l : Location) (rest : List Step) : Goes t (l, .here :: rest) (l, rest)
  | up (l : Location) (rest : List Step) : Goes t (l, .up :: rest) (l.dropLast, rest)
  | down {l : Location} {name : String} (rest : List Step) (h : t.link? (l ++ [name]) = none) :
      Goes t (l, .down name :: rest) (l ++ [name], rest)
  | follow {l : Location} {name : String} {target : Path} (rest : List Step)
      (h : t.link? (l ++ [name]) = some target) :
      Goes t (l, .down name :: rest) (start target l, steps target ++ rest)

/-- Where a walk comes past, with the steps that it has to go from there. -/
abbrev Reaches (t : FileTree) : Location × List Step → Location × List Step → Prop :=
  ReflTransGen (Goes t)

def Treads (t : FileTree) (a b : Location × List Step) : Prop :=
  t.entryAt? a.1 = some .directory ∧ Goes t a b

/-- The location lies on the way that a path takes, or is its end. -/
def Through (t : FileTree) (l : Location) (p : Path) : Prop :=
  ∃ rest, t.Reaches (start p t.cwd, steps p) (l, rest)

theorem Goes.congr {a b : Location × List Step} (hlink : ∀ l, u.link? l = t.link? l)
    (h : Goes t a b) : Goes u a b := by
  cases h with
  | here => exact .here ..
  | up => exact .up ..
  | down rest h => exact .down rest ((hlink _).trans h)
  | follow rest h => exact .follow rest ((hlink _).trans h)

/-- Ways depend on the links alone. -/
theorem Reaches.congr {a b : Location × List Step} (hlink : ∀ l, u.link? l = t.link? l)
    (h : t.Reaches a b) : u.Reaches a b :=
  ReflTransGen.mono (fun _ _ => Goes.congr hlink) _ _ h

/-- What a path leads through depends on links and the working directory alone. -/
theorem Through.congr (hlink : ∀ l, u.link? l = t.link? l) (hcwd : u.cwd = t.cwd)
    (h : t.Through l p) : u.Through l p := by
  obtain ⟨rest, hrest⟩ := h
  refine ⟨rest, ?_⟩
  rw [hcwd]
  exact Reaches.congr hlink hrest

/-- There is one way on. -/
theorem goes_rightUnique (t : FileTree) : Relator.RightUnique (Goes t) := by
  intro a b c hb hc
  cases hb with
  | here => cases hc; rfl
  | up => cases hc; rfl
  | down rest h =>
    cases hc with
    | down => rfl
    | follow _ h' => cases h.symm.trans h'
  | follow rest h =>
    cases hc with
    | down _ h' => cases h.symm.trans h'
    | follow _ h' => cases h.symm.trans h'; rfl

theorem not_goes_nil {b : Location × List Step} : ¬ Goes t (l, []) b := nofun

/-- A walk has one end. -/
theorem Reaches.end_unique {a : Location × List Step} (hl : t.Reaches a (l, []))
    (hm : t.Reaches a (m, [])) : l = m := by
  have hstays {l : Location} {b : Location × List Step} (h : t.Reaches (l, []) b) :
      b = (l, []) := by
    rcases ReflTransGen.cases_head h with rfl | ⟨c, hc, -⟩
    · rfl
    · exact absurd hc not_goes_nil
  -- There is only one way to go on, so one of the ends lies on the way to the other.
  rcases ReflTransGen.total_of_right_unique (goes_rightUnique t) hl hm with h | h
  · exact (Prod.mk.inj (hstays h)).1.symm
  · exact (Prod.mk.inj (hstays h)).1

/-! ## Longer walks -/

/-- The steps that are left come along. -/
theorem Goes.append (h : Goes t (l, s) (m, s')) (rest : List Step) :
    Goes t (l, s ++ rest) (m, s' ++ rest) := by
  cases h with
  | here => exact .here ..
  | up => exact .up ..
  | down _ h => exact .down _ h
  | follow _ h =>
    rw [List.append_assoc]
    exact .follow _ h

/-- A longer walk begins like the shorter one. -/
theorem Reaches.append (h : t.Reaches (l, s) (m, s')) (rest : List Step) :
    t.Reaches (l, s ++ rest) (m, s' ++ rest) :=
  ReflTransGen.lift (fun a : Location × List Step => (a.1, a.2 ++ rest))
    (fun _ _ hgoes => Goes.append hgoes rest) _ _ h

/-- Where a longer walk comes past, the shorter one does too, unless it has come to its end. -/
theorem Reaches.append_cases (h : t.Reaches (l, s ++ rest) (m, s')) :
    (∃ left, s' = left ++ rest ∧ t.Reaches (l, s) (m, left)) ∨
    ∃ r, t.Reaches (l, s) (r, []) ∧ t.Reaches (r, rest) (m, s') := by
  obtain ⟨b, hb⟩ : ∃ b, b = (m, s') := ⟨_, rfl⟩
  rw [← hb] at h
  induction h generalizing m s' with
  | refl =>
    cases hb
    exact Or.inl ⟨s, rfl, .refl⟩
  | @tail c b _ hgoes ih =>
    obtain ⟨n, s''⟩ := c
    subst hb
    rcases ih rfl with ⟨left, rfl, hleft⟩ | ⟨r, hr, hafter⟩
    · cases left with
      | nil => exact Or.inr ⟨n, hleft, .single hgoes⟩
      | cons step left =>
        refine Or.inl ?_
        -- The move is one of the shorter walk: its step stands before the steps added.
        cases hgoes with
        | here => exact ⟨left, rfl, hleft.tail (.here ..)⟩
        | up => exact ⟨left, rfl, hleft.tail (.up ..)⟩
        | down _ h => exact ⟨left, rfl, hleft.tail (.down _ h)⟩
        | @follow _ _ target _ h =>
          exact ⟨steps target ++ left, (List.append_assoc ..).symm, hleft.tail (.follow _ h)⟩
    · exact Or.inr ⟨r, hr, hafter.tail hgoes⟩

/-! ## Walks -/

/-- How a walk goes on at a link, with one link less to be followed. -/
def onward (t : FileTree) (follow : Bool) :
    (links : Nat) → Location → List Step → Except SystemError Location
  | 0 => fun _ _ => .error .linkLoop
  | links + 1 => t.walk follow links

theorem walk_eq (t : FileTree) (follow : Bool) (links : Nat) :
    t.walk follow links = t.walkBy follow (t.onward follow links) := by
  cases links <;> rfl

/-- Walks are followed step by step; a link costs one of those that may be followed. -/
theorem walk_induction {motive : Nat → Location → List Step → Prop}
    (nil : ∀ links l, motive links l [])
    (cons : ∀ links l step rest, (∀ m, motive links m rest) →
      (∀ links' m s, links = links' + 1 → motive links' m s) → motive links l (step :: rest))
    (links : Nat) (l : Location) (s : List Step) : motive links l s := by
  -- First on the links that are left, then on the steps.
  induction links generalizing l s with
  | zero =>
    induction s generalizing l with
    | nil => exact nil _ _
    | cons step rest ih => exact cons _ _ _ _ ih nofun
  | succ links ihlinks =>
    induction s generalizing l with
    | nil => exact nil _ _
    | cons step rest ih =>
      refine cons _ _ _ _ ih fun links' m s h => ?_
      obtain rfl := Nat.succ.inj h
      exact ihlinks m s

section

variable {follow : Bool} {links : Nat} {name : String} {step : Step}

@[simp] theorem walk_nil (t : FileTree) : t.walk follow links l [] = .ok l := by
  rw [walk_eq]
  rfl

/-- A walk with a step to go stops where no directory stands. -/
theorem walk_of_not_directory (h : t.entryAt? l ≠ some .directory) :
    t.walk follow links l (step :: rest) =
      .error (if (t.entryAt? l).isNone then .noEntry else .notDirectory) := by
  rw [walk_eq, walkBy.eq_def]
  dsimp only
  cases hentry : t.entryAt? l with
  | none => rfl
  | some e =>
    cases e with
    | file => rfl
    | directory => exact absurd hentry h
    | link => rfl

section

variable (hdir : t.entryAt? l = some .directory)
include hdir

theorem walk_here : t.walk follow links l (.here :: rest) = t.walk follow links l rest := by
  rw [walk_eq, walkBy, hdir]

theorem walk_up : t.walk follow links l (.up :: rest) = t.walk follow links l.dropLast rest := by
  rw [walk_eq, walkBy, hdir]

theorem walk_down_long (hname : nameLimit < name.utf8ByteSize) :
    t.walk follow links l (.down name :: rest) = .error .nameTooLong := by
  rw [walk_eq, walkBy, hdir]
  exact if_pos hname

/-- A name that is no link leads one level down. -/
theorem walk_down (hname : ¬ nameLimit < name.utf8ByteSize)
    (hlink : t.link? (l ++ [name]) = none) :
    t.walk follow links l (.down name :: rest) = t.walk follow links (l ++ [name]) rest := by
  rw [walk_eq, walkBy, hdir]
  refine (if_neg hname).trans ?_
  split
  · next target h => simp [link?, h] at hlink
  · rfl

/-- A link is followed, but for the last one of a path whose links are not to be followed. -/
theorem walk_follow {target : Path} (hname : ¬ nameLimit < name.utf8ByteSize)
    (hlink : t.link? (l ++ [name]) = some target) :
    t.walk follow links l (.down name :: rest) =
      if rest.isEmpty && !follow then .ok (l ++ [name])
      else if target.text.isEmpty then .error .noEntry
      else t.onward follow links (start target l) (steps target ++ rest) := by
  rw [walk_eq, walkBy, hdir]
  refine (if_neg hname).trans ?_
  split
  · next target' h =>
    have htarget : target' = target := by simpa [link?, h] using hlink
    rw [htarget]
  · next h =>
    rw [link?] at hlink
    split at hlink
    · next target' h' => exact absurd h' (h target')
    · cases hlink

end

/-- How a walk that ends has gone, step by step. -/
inductive Walks (t : FileTree) (follow : Bool) : Nat → Location → List Step → Location → Prop
  | nil (links : Nat) (l : Location) : Walks t follow links l [] l
  | here {links : Nat} {l r : Location} {rest : List Step}
      (hdir : t.entryAt? l = some .directory) (hway : Walks t follow links l rest r) :
      Walks t follow links l (.here :: rest) r
  | up {links : Nat} {l r : Location} {rest : List Step}
      (hdir : t.entryAt? l = some .directory) (hway : Walks t follow links l.dropLast rest r) :
      Walks t follow links l (.up :: rest) r
  | down {links : Nat} {l r : Location} {name : String} {rest : List Step}
      (hdir : t.entryAt? l = some .directory) (hname : ¬ nameLimit < name.utf8ByteSize)
      (hlink : t.link? (l ++ [name]) = none) (hway : Walks t follow links (l ++ [name]) rest r) :
      Walks t follow links l (.down name :: rest) r
  | last {links : Nat} {l : Location} {name : String} {rest : List Step} {target : Path}
      (hdir : t.entryAt? l = some .directory) (hname : ¬ nameLimit < name.utf8ByteSize)
      (hlink : t.link? (l ++ [name]) = some target) (hends : (rest.isEmpty && !follow) = true) :
      Walks t follow links l (.down name :: rest) (l ++ [name])
  | follow {links : Nat} {l r : Location} {name : String} {rest : List Step} {target : Path}
      (hdir : t.entryAt? l = some .directory) (hname : ¬ nameLimit < name.utf8ByteSize)
      (hlink : t.link? (l ++ [name]) = some target) (hgoes : ¬ (rest.isEmpty && !follow) = true)
      (htarget : ¬ target.text.isEmpty = true)
      (hway : Walks t follow links (start target l) (steps target ++ rest) r) :
      Walks t follow (links + 1) l (.down name :: rest) r

/-- What the walk computes is a walk. -/
theorem walks_of_walk {s : List Step} (h : t.walk follow links l s = .ok r) :
    Walks t follow links l s r := by
  induction links, l, s using walk_induction with
  | nil links l =>
    rw [walk_nil] at h
    obtain rfl := Except.ok.inj h
    exact .nil ..
  | cons links l step rest ih ihlink =>
    -- A walk with a step to go ends only if it stands in a directory.
    have hdir : t.entryAt? l = some .directory := Decidable.byContradiction fun hdir => by
      rw [walk_of_not_directory hdir] at h
      cases h
    cases step with
    | here =>
      rw [walk_here hdir] at h
      exact .here hdir (ih _ h)
    | up =>
      rw [walk_up hdir] at h
      exact .up hdir (ih _ h)
    | down name =>
      have hname : ¬ nameLimit < name.utf8ByteSize := by
        intro hname
        rw [walk_down_long hdir hname] at h
        cases h
      cases hlink : t.link? (l ++ [name]) with
      | none =>
        rw [walk_down hdir hname hlink] at h
        exact .down hdir hname hlink (ih _ h)
      | some target =>
        rw [walk_follow hdir hname hlink] at h
        split at h
        · next hends =>
          obtain rfl := Except.ok.inj h
          exact .last hdir hname hlink hends
        next hgoes =>
        split at h
        · cases h
        next htarget =>
        cases links with
        | zero => cases h
        | succ links => exact .follow hdir hname hlink hgoes htarget (ihlink _ _ _ rfl h)

/-- The walk is computed. -/
theorem Walks.walk {s : List Step} (h : Walks t follow links l s r) :
    t.walk follow links l s = .ok r := by
  induction h with
  | nil links l => exact walk_nil t
  | here hdir _ ih => rw [walk_here hdir, ih]
  | up hdir _ ih => rw [walk_up hdir, ih]
  | down hdir hname hlink _ ih => rw [walk_down hdir hname hlink, ih]
  | last hdir hname hlink hends => rw [walk_follow hdir hname hlink, if_pos hends]
  | follow hdir hname hlink hgoes htarget _ ih =>
    rw [walk_follow hdir hname hlink, if_neg hgoes, if_neg htarget]
    exact ih

/-- A walk ends at a location exactly if there is a walk to it. -/
theorem walk_eq_ok_iff {s : List Step} :
    t.walk follow links l s = .ok r ↔ Walks t follow links l s r := ⟨walks_of_walk, Walks.walk⟩

/-- A walk that has a step to go starts in a directory. -/
theorem Walks.eq_or_directory {s : List Step} (h : Walks t follow links l s r) :
    s = [] ∧ r = l ∨ t.entryAt? l = some .directory := by
  cases h with
  | nil => exact Or.inl ⟨rfl, rfl⟩
  | here hdir => exact Or.inr hdir
  | up hdir => exact Or.inr hdir
  | down hdir => exact Or.inr hdir
  | last hdir => exact Or.inr hdir
  | follow hdir => exact Or.inr hdir

/-- A walk that ends, and not at a link, has taken its way from directory to directory. -/
theorem treads_of_walk (t : FileTree) (follow : Bool) (links : Nat) (l : Location)
    (s : List Step) (h : t.walk follow links l s = .ok r) (hr : t.link? r = none) :
    ReflTransGen (Treads t) (l, s) (r, []) := by
  replace h := walks_of_walk h
  induction h with
  | nil => exact .refl
  | here hdir _ ih => exact .head ⟨hdir, .here ..⟩ (ih hr)
  | up hdir _ ih => exact .head ⟨hdir, .up ..⟩ (ih hr)
  | down hdir _ hlink _ ih => exact .head ⟨hdir, .down _ hlink⟩ (ih hr)
  | last _ _ hlink => cases hr.symm.trans hlink
  | follow hdir _ hlink _ _ _ ih => exact .head ⟨hdir, .follow _ hlink⟩ (ih hr)

end

theorem locate_eq_ok {follow : Bool} (h : t.locate p follow = .ok r) :
    t.walk follow linkLimit (start p t.cwd) (steps p) = .ok r := by
  rw [locate] at h
  cases hcheck : check p with
  | error e =>
    rw [hcheck] at h
    cases h
  | ok _ =>
    rw [hcheck] at h
    exact h

theorem reaches_of_treads {a b : Location × List Step} (h : ReflTransGen (Treads t) a b) :
    t.Reaches a b :=
  ReflTransGen.mono (fun _ _ htreads => htreads.2) _ _ h

/-- The way to an end leads past directories only. -/
theorem eq_or_directory_of_treads {a : Location × List Step}
    (h : ReflTransGen (Treads t) a (r, [])) (hm : t.Reaches a (m, rest)) :
    m = r ∨ t.entryAt? m = some .directory := by
  -- Both are ways from the same start, of which there is one: the first is followed move by move.
  induction h using ReflTransGen.head_induction_on with
  | refl =>
    rcases ReflTransGen.cases_head hm with heq | ⟨b, hb, -⟩
    · exact Or.inl (Prod.mk.inj heq).1.symm
    · exact absurd hb not_goes_nil
  | head htreads _ ih =>
    rcases ReflTransGen.cases_head hm with rfl | ⟨b, hb, hafter⟩
    · exact Or.inr htreads.1
    · exact ih (goes_rightUnique t htreads.2 hb ▸ hafter)

/-- A path leads through the location that it names. -/
theorem reaches_of_locate {follow : Bool} (h : t.locate p follow = .ok r)
    (hr : t.link? r = none) : t.Reaches (start p t.cwd, steps p) (r, []) :=
  reaches_of_treads (treads_of_walk t follow _ _ _ (locate_eq_ok h) hr)

/-- A path that names something leads through it and through directories. -/
theorem Through.eq_or_directory {follow : Bool} (hm : t.Through m p)
    (h : t.locate p follow = .ok r) (hr : t.link? r = none) :
    m = r ∨ t.entryAt? m = some .directory := by
  obtain ⟨rest, hrest⟩ := hm
  exact eq_or_directory_of_treads (treads_of_walk t follow _ _ _ (locate_eq_ok h) hr) hrest

theorem link?_of_entryAt?_none (h : t.entryAt? l = none) : t.link? l = none := by
  rw [link?, h]

/-! ## Going down by a name -/

/-- A step that stays can be left out at the end. -/
theorem Reaches.drop_here (h : t.Reaches (l, s ++ [.here]) (m, [])) : t.Reaches (l, s) (m, []) := by
  rcases Reaches.append_cases h with ⟨left, hleft, -⟩ | ⟨r, hr, hlast⟩
  · cases left <;> cases hleft
  · obtain rfl : r = m := Reaches.end_unique (.single (.here ..)) hlast
    exact hr

/-- A last step that stays where it is leads through nothing else. -/
theorem through_iff_of_moves {moves : List Step}
    (hsteps : steps p = moves ∨ steps p = moves ++ [.here]) :
    t.Through l p ↔ ∃ rest, t.Reaches (start p t.cwd, moves) (l, rest) := by
  rw [Through]
  rcases hsteps with hsteps | hsteps
  · rw [hsteps]
  · rw [hsteps]
    constructor
    · rintro ⟨rest, hrest⟩
      rcases Reaches.append_cases hrest with ⟨left, -, hleft⟩ | ⟨r, hr, hlast⟩
      · exact ⟨left, hleft⟩
      · obtain ⟨rfl, rfl⟩ | ⟨rfl, rfl⟩ : (l = r ∧ rest = [.here]) ∨ (l = r ∧ rest = []) := by
          rcases ReflTransGen.cases_head hlast with heq | ⟨b, hb, hafter⟩
          · cases heq
            exact Or.inl ⟨rfl, rfl⟩
          · cases hb
            rcases ReflTransGen.cases_head hafter with heq | ⟨b, hb, -⟩
            · cases heq
              exact Or.inr ⟨rfl, rfl⟩
            · exact absurd hb not_goes_nil
        · exact ⟨[], hr⟩
        · exact ⟨[], hr⟩
    · rintro ⟨rest, hrest⟩
      exact ⟨_, Reaches.append hrest [.here]⟩

section

variable {name : String} (hname : Path.IsName name)
include hname

/-- The way to what lies in a directory goes on from the way to the directory. -/
theorem exists_moves (t : FileTree) (p : Path) :
    ∃ moves, steps (p / name) = moves ++ [.down name] ∧
      (∀ l, t.Through l p ↔ ∃ rest, t.Reaches (start (p / name) t.cwd, moves) (l, rest)) ∧
      ∀ m, t.Reaches (start p t.cwd, steps p) (m, []) →
        t.Reaches (start (p / name) t.cwd, moves) (m, []) := by
  obtain ⟨moves, hnew, hold⟩ := steps_div hname p
  have hstart : start (p / name) t.cwd = start p t.cwd := by
    rw [start, Path.rooted_div hname, ← start]
  refine ⟨moves, hnew, fun l => hstart ▸ through_iff_of_moves hold, fun m hm => ?_⟩
  rw [hstart]
  rcases hold with hold | hold
  · rwa [hold] at hm
  · rw [hold] at hm
    exact Reaches.drop_here hm

/-- A path leads through what its directory leads through. -/
theorem Through.div (h : t.Through l p) : t.Through l (p / name) := by
  obtain ⟨moves, hnew, hthrough, -⟩ := exists_moves hname t p
  obtain ⟨rest, hrest⟩ := (hthrough l).mp h
  rw [Through, hnew]
  exact ⟨_, Reaches.append hrest [.down name]⟩

section

variable (hm : t.Reaches (start p t.cwd, steps p) (m, []))
  (hlink : t.link? (m ++ [name]) = none)
include hm hlink

/-- A name in a directory leads one level down from it. -/
theorem Reaches.div : t.Reaches (start (p / name) t.cwd, steps (p / name)) (m ++ [name], []) := by
  obtain ⟨moves, hnew, -, hend⟩ := exists_moves hname t p
  rw [hnew]
  exact (Reaches.append (hend m hm) [.down name]).tail (.down [] hlink)

/-- The way to what lies in a directory leads through the way to the directory, and to its end. -/
theorem Through.of_div (h : t.Through l (p / name)) : t.Through l p ∨ l = m ++ [name] := by
  obtain ⟨moves, hnew, hthrough, hend⟩ := exists_moves hname t p
  obtain ⟨rest, hrest⟩ := h
  rw [hnew] at hrest
  rcases Reaches.append_cases hrest with ⟨left, -, hleft⟩ | ⟨r, hr, hlast⟩
  · exact Or.inl ((hthrough l).mpr ⟨left, hleft⟩)
  · obtain rfl : r = m := Reaches.end_unique hr (hend m hm)
    -- Of the last step, only its start and its end are on the way.
    rcases ReflTransGen.cases_head hlast with heq | ⟨b, hb, hafter⟩
    · obtain ⟨rfl, -⟩ := Prod.mk.inj heq
      exact Or.inl ((hthrough _).mpr ⟨_, hr⟩)
    · obtain rfl := goes_rightUnique t hb (.down [] hlink)
      rcases ReflTransGen.cases_head hafter with heq | ⟨b, hb, -⟩
      · exact Or.inr (Prod.mk.inj heq).1.symm
      · exact absurd hb not_goes_nil

end

end

end SmaliView.FileTree
