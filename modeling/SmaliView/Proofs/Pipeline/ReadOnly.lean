import SmaliView.Proofs.Files.Growth
import SmaliView.Proofs.Files.SourcePaths
import SmaliView.Proofs.Pipeline.ClearCheck
import SmaliView.Proofs.Pipeline.Cancellation
import SmaliView.Proofs.Pipeline.Leads

/-!
# Conversions only read

A conversion writes in its scratch directories and nowhere else. All that it leaves is the directory
to work in, where one is configured, with those that it lies in. Tools are assumed to write where
they are told to (`Orderly`); how they end does not matter.
-/

namespace SmaliView

variable {α β σ : Type}

open FileTree Plan

/-- Where a tool is told to write. -/
def Question.output? : Question → Option Path
  | .assemble request => some request.output
  | .decompile request => some request.output
  | _ => none

/-- A tool that is told to write where nothing stands has changed nothing but what stands there or
below. It changes nothing at all if the path names no place. -/
def FileTree.WritesAt (t : FileTree) (p : Path) (u : FileTree) : Prop :=
  match t.locate p false with
  | .ok l => t.entryAt? l = none → Within l t u
  | .error _ => u.entries = t.entries ∧ u.cwd = t.cwd

/-- Only the conversion changes the files, and its tools where they are told to write. -/
structure Orderly (respond : Respondent σ) (files : σ → FileTree) : Prop where
  look : ∀ s, (respond .look s).1 = files s ∧ files (respond .look s).2 = files s
  change : ∀ tree s, files (respond (.change tree) s).2 = tree
  isCancelled : ∀ s, files (respond .isCancelled s).2 = files s
  assemblerReady : ∀ s, files (respond .assemblerReady s).2 = files s
  decompilerReady : ∀ s, files (respond .decompilerReady s).2 = files s
  tools : ∀ q out s, q.output? = some out → (files s).WritesAt out (files (respond q s).2)

namespace Pipeline

open StagePlan

/-- The directory to work in and those that it lies in. -/
def homes (p : Pipeline) : List Path :=
  match p.workDirectory with
  | some base => base.ancestors
  | none => []

/-! ## What a moment finds -/

/-- The conversion has written nothing but directories to work in, and no tool is called. -/
def Quiet (files : σ → FileTree) (homes : List Path) (t : FileTree) (m : Moment σ) : Prop :=
  Furnished homes t (files m.state) ∧ m.question.output? = none

/-- There is a scratch directory besides, at a place where nothing stood. A tool that is called
writes at a name in it that is not taken; and if the scratch directory is to be a tool's alone, then
nothing else lies in it. -/
def Busy (files : σ → FileTree) (homes : List Path) (t : FileTree) (alone : Prop) (dir : Path)
    (k : Location) (m : Moment σ) : Prop :=
  ∃ u taken, Furnished homes t u ∧ Site u dir k ∧ Inside u k taken (files m.state) ∧
    ∀ out, m.question.output? = some out → (alone → taken = []) ∧
      ∃ name, Path.IsName name ∧ name ∉ taken ∧ out = dir / name

/-- What a stage does to the files, seen against those that the conversion has started from: it
leaves them as they were but for directories to work in, and all it writes besides goes into one
scratch directory, of which nothing is left at its end. -/
structure Confined (files : σ → FileTree) (homes : List Path) (t : FileTree) (r : StageRun σ) :
    Prop where
  before : Furnished homes t (files r.before)
  after : Furnished homes t (files r.after)
  inside : (∀ m ∈ r.inside, Quiet files homes t m) ∨
    ∃ dir k, (files r.after).entryAt? k = none ∧
      ∀ m ∈ r.inside, Quiet files homes t m ∨
        Busy files homes t (r.stage = .container) dir k m

end Pipeline

/-! ## Making scratch directories -/

namespace FileTree

open Pipeline

/-- Making the working directory adds it and what is missing above it. -/
theorem Furnished.makeHome {p : Pipeline} {t u : FileTree} (h : Furnished p.homes t u)
    (hu : u.Grounded) : Furnished p.homes t (p.makeHome u).1 ∧ (p.makeHome u).1.Grounded := by
  unfold Pipeline.makeHome
  cases hwork : p.workDirectory with
  | none => exact ⟨h, hu⟩
  | some base =>
    refine h.makeAll hu fun q hq => ?_
    rw [homes, hwork]
    exact hq

/-- A scratch directory is made at a place of its own, or nothing is made but directories for it to
lie in. -/
theorem Furnished.makeScratch {p : Pipeline} {t u : FileTree} (h : Furnished p.homes t u)
    (hu : u.Grounded) :
    (∃ e, (p.makeScratch u).2 = .error e ∧ Furnished p.homes t (p.makeScratch u).1 ∧
      (p.makeScratch u).1.Grounded) ∨
    ∃ dir v k, (p.makeScratch u).2 = .ok dir ∧ Furnished p.homes t v ∧ Site v dir k ∧
      (p.makeScratch u).1 = v.put k .directory := by
  obtain ⟨hv, hgrounded⟩ := h.makeHome hu
  unfold Pipeline.makeScratch
  generalize p.makeHome u = x at hv hgrounded
  obtain ⟨v, r⟩ := x
  cases r with
  | error e => exact Or.inl ⟨e, rfl, hv, hgrounded⟩
  | ok _ =>
    dsimp only at hv hgrounded ⊢
    cases hmade : v.makeFresh (p.workDirectory.getD p.temporary) scratchStem with
    | error e => exact Or.inl ⟨e, rfl, hv, hgrounded⟩
    | ok made =>
      obtain ⟨dir, w⟩ := made
      obtain ⟨k, hsite, rfl⟩ := hgrounded.makeFresh isName_scratchName hmade
      exact Or.inr ⟨dir, v, k, rfl, hv, hsite, rfl⟩

end FileTree

namespace Orderly

open Pipeline StagePlan

variable {respond : Respondent σ} {files : σ → FileTree} {p : Pipeline} {t u : FileTree}
  {homes : List Path} {alone : Prop} {dir : Path} {k : Location} {taken : List String}

/-! ## Work in a scratch directory -/

/-- A question without output may be asked at any time in a scratch directory. -/
theorem busy_of_inside (hfurnished : Furnished homes t u) (hsite : Site u dir k) {s : σ}
    {q : Question} (hs : Inside u k taken (files s)) (hq : q.output? = none) :
    Busy files homes t alone dir k ⟨s, q⟩ :=
  ⟨u, taken, hfurnished, hsite, hs, fun out hout => by rw [hq] at hout; cases hout⟩

/-- What a tool writes at a name that is not taken stays in the scratch directory. -/
theorem inside_of_output (h : Orderly respond files) (hsite : Site u dir k) {s : σ} {q : Question}
    {name : String} (hname : Path.IsName name) (hfree : name ∉ taken)
    (hs : Inside u k taken (files s)) (hout : q.output? = some (dir / name)) :
    Inside u k (name :: taken) (files (respond q s).2) := by
  have hplace := hs.entryAt?_none hfree
  have hwrites := h.tools q _ s hout
  unfold FileTree.WritesAt at hwrites
  cases hl : (files s).locate (dir / name) false with
  | ok l =>
    rw [hl] at hwrites
    obtain rfl := hsite.locate_div hs hname hplace hl
    exact hs.change (hwrites hplace)
  | error e =>
    -- The path names no place, and nothing at all is changed.
    rw [hl] at hwrites
    obtain ⟨hentries, hcwd⟩ := hwrites
    refine hs.change ⟨?_, hcwd⟩
    rw [entries_erase, entries_erase, hentries]

/-- The files are changed as the conversion says. -/
theorem leads_change (h : Orderly respond files) {right : Moment σ → Prop} {s : σ} {v : FileTree}
    {post : σ → Prop} (hnow : right ⟨s, .change v⟩) (hthen : ∀ s', files s' = v → post s') :
    Leads respond right (· = s) (Plan.change v) fun _ => post := by
  refine Leads.question ?_
  rintro _ rfl
  exact ⟨hnow, hthen _ (h.change v _)⟩

section

variable (h : Orderly respond files) (hfurnished : Furnished homes t u) (hsite : Site u dir k)
include h hfurnished hsite

theorem leads_isCancelled :
    Leads respond (Busy files homes t alone dir k) (fun s => Inside u k taken (files s))
      Plan.isCancelled fun _ s => Inside u k taken (files s) :=
  Leads.question fun s hs =>
    ⟨busy_of_inside hfurnished hsite hs rfl, by rw [h.isCancelled]; exact hs⟩

/-- A tool is called to write at a name that is not taken. -/
theorem leads_tool {q : Question} (name : String) (hname : Path.IsName name) (hfree : name ∉ taken)
    (halone : alone → taken = []) (hout : q.output? = some (dir / name)) :
    Leads respond (Busy files homes t alone dir k) (fun s => Inside u k taken (files s))
      (Plan.question q) fun _ s => Inside u k (name :: taken) (files s) := by
  refine Leads.question fun s hs => ⟨?_, h.inside_of_output hsite hname hfree hs hout⟩
  refine ⟨u, taken, hfurnished, hsite, hs, fun out hout' => ⟨halone, name, hname, hfree, ?_⟩⟩
  rw [hout] at hout'
  exact (Option.some.inj hout').symm

/-- A decompiler is called for a container, and what it has written is read. -/
theorem leads_javaOf (c : ClassName) (container : Path) (hfree : "out" ∉ taken)
    (halone : alone → taken = []) :
    Leads respond (Busy files homes t alone dir k) (fun s => Inside u k taken (files s))
      (javaOf c container dir).run
      (Lands (fun _ s => ∃ taken, Inside u k taken (files s))
        fun s => ∃ taken, Inside u k taken (files s)) := by
  -- Whether the decompiler answers or not, the name is taken from now on.
  have hcall : Leads respond (Busy files homes t alone dir k)
      (fun s => Inside u k taken (files s)) (decompile ⟨container, dir / "out", some c⟩).run
      (Lands (fun _ s => Inside u k ("out" :: taken) (files s))
        fun s => ∃ taken, Inside u k taken (files s)) :=
    leads_reply (h.leads_tool hfurnished hsite "out" ⟨by decide, by decide, by decide⟩ hfree
      halone rfl) fun s hs => ⟨_, hs⟩
  unfold javaOf
  refine leads_bind hcall fun answer => ?_
  unfold javaIn
  split
  · refine leads_checkToken_bind (h.leads_isCancelled hfurnished hsite) (fun s hs => ⟨_, hs⟩) ?_
    refine Leads.look_bind fun s hs => ⟨busy_of_inside hfurnished hsite hs rfl, Leads.done ?_⟩
    rintro _ rfl
    have hread : ∃ taken, Inside u k taken (files (respond .look s).2) := by
      rw [(h.look s).2]
      exact ⟨_, hs⟩
    cases extract (respond .look s).1 _ c <;> exact hread
  · exact leads_fail _ fun s hs => ⟨_, hs⟩

/-- Editor text is written to a file in the scratch directory. -/
theorem leads_unitFor (c : ClassName) (file : Path) (text : Option String) :
    Leads respond (Busy files homes t alone dir k) (fun s => Inside u k [] (files s))
      (unitFor c dir file text).run
      (Lands (fun _ s => ∃ taken ⊆ [unitName c], Inside u k taken (files s))
        fun s => ∃ taken, Inside u k taken (files s)) := by
  cases text with
  | none => exact leads_pure fun s hs => ⟨[], by simp, hs⟩
  | some text =>
    -- The plan is unrolled to the question that writes the file.
    show Leads _ _ _ (Plan.look >>= fun v =>
      (orSystem (v.write (dir / unitName c) (Text.bytes text)) >>= fun w =>
        liftM (Plan.change w) >>= fun _ => (pure (dir / unitName c) : StagePlan Path)).run) _
    refine Leads.look_bind fun s hs => ⟨busy_of_inside hfurnished hsite hs rfl, ?_⟩
    rw [(h.look s).1]
    cases hwrite : (files s).write (dir / unitName c) (Text.bytes text) with
    | error e =>
      refine Leads.done ?_
      rintro _ rfl
      exact ⟨[], by rw [(h.look s).2]; exact hs⟩
    | ok w =>
      -- The file is the first thing in the directory, so its name is not taken.
      have hw := hsite.write hs (isName_unitName c) (by simp) hwrite
      have hseen : Inside u k [] (files (respond .look s).2) := (h.look s).2 ▸ hs
      have hchange : Leads respond (Busy files homes t alone dir k) (· = (respond .look s).2)
          (Plan.change w) fun _ s => Inside u k [unitName c] (files s) :=
        h.leads_change (busy_of_inside hfurnished hsite hseen rfl) fun s' hs' => hs'.symm ▸ hw
      show Leads _ _ _
        (liftM (Plan.change w) >>= fun _ => (pure (dir / unitName c) : StagePlan Path)).run _
      refine leads_bind (leads_lift hchange) fun _ => leads_pure fun s hs => ?_
      exact ⟨_, List.Subset.refl _, hs⟩

/-- The names in a scratch directory of the first stage are different. -/
theorem leads_assembledSource (c : ClassName) (file : Path) (text : Option String)
    (halone : ¬ alone) :
    Leads respond (Busy files homes t alone dir k) (fun s => Inside u k [] (files s))
      (assembledSource c file text dir).run
      (Lands (fun _ s => ∃ taken, Inside u k taken (files s))
        fun s => ∃ taken, Inside u k taken (files s)) := by
  obtain ⟨stem, hstem⟩ := exists_unitName c
  have hunit {name : String} (hname : name.toList.getLast? ≠ some 'i') : name ≠ unitName c := by
    rintro rfl
    refine hname ?_
    rw [hstem, List.getLast?_append]
    rfl
  unfold assembledSource
  refine leads_bind (h.leads_unitFor hfurnished hsite c file text) fun unit => ?_
  -- Which names are taken depends on whether there is editor text.
  intro s ⟨taken, hsub, hs⟩
  -- The unit is called `*.smali`, so neither the container nor the tree clashes with it.
  have hdex : "classes.dex" ∉ taken := fun hmem =>
    hunit (by decide) (List.mem_singleton.mp (hsub hmem))
  have hout : "out" ∉ "classes.dex" :: taken := by
    intro hmem
    rcases List.mem_cons.mp hmem with hmem | hmem
    · exact absurd hmem (by decide)
    · exact hunit (by decide) (List.mem_singleton.mp (hsub hmem))
  have hcall : Leads respond (Busy files homes t alone dir k)
      (fun s => Inside u k taken (files s)) (assemble ⟨unit, c, dir / "classes.dex"⟩).run
      (Lands (fun _ s => Inside u k ("classes.dex" :: taken) (files s))
        fun s => ∃ taken, Inside u k taken (files s)) :=
    leads_reply (h.leads_tool hfurnished hsite "classes.dex" ⟨by decide, by decide, by decide⟩
      hdex (fun ha => absurd ha halone) rfl) fun s hs => ⟨_, hs⟩
  refine leads_bind hcall (fun answer => ?_) s hs
  split
  · refine leads_checkToken_bind (h.leads_isCancelled hfurnished hsite) (fun s hs => ⟨_, hs⟩) ?_
    refine leads_bind (h.leads_javaOf hfurnished hsite c _ hout fun ha => absurd ha halone)
      fun text => leads_pure fun s hs => hs
  · exact leads_fail _ fun s hs => ⟨_, hs⟩

end

/-! ## Stages -/

/-- Between its scratch directories a conversion has made nothing but directories to work in. -/
def Calm (files : σ → FileTree) (homes : List Path) (t : FileTree) (s : σ) : Prop :=
  Furnished homes t (files s) ∧ (files s).Grounded

/-- A plan whose writing stays in one scratch directory, of which nothing is left at the end. -/
def Confines (respond : Respondent σ) (files : σ → FileTree) (homes : List Path) (t : FileTree)
    (alone : Prop) (plan : Plan α) : Prop :=
  ∀ s, Calm files homes t s → Calm files homes t (plan.run respond s).2 ∧
    ((∀ m ∈ plan.moments respond s, Quiet files homes t m) ∨
      ∃ dir k, (files (plan.run respond s).2).entryAt? k = none ∧
        ∀ m ∈ plan.moments respond s, Quiet files homes t m ∨ Busy files homes t alone dir k m)

/-- Questions that leave all as it is confine a plan. -/
theorem Confines.of_leads {plan : Plan α}
    (h : Leads respond (Quiet files homes t) (Calm files homes t) plan
      fun _ => Calm files homes t) : Confines respond files homes t alone plan := by
  intro s hs
  obtain ⟨hms, hend⟩ := h s hs
  exact ⟨hend, Or.inl hms⟩

/-- What is asked before changes nothing. -/
theorem Confines.after {x : Plan α} {f : α → Plan β}
    (hx : Leads respond (Quiet files homes t) (Calm files homes t) x fun _ => Calm files homes t)
    (hf : ∀ a, Confines respond files homes t alone (f a)) :
    Confines respond files homes t alone (x >>= f) := by
  intro s hs
  obtain ⟨hfirst, hmid⟩ := hx s hs
  obtain ⟨hend, hrest⟩ := hf _ _ hmid
  rw [moments_bind, run_bind]
  refine ⟨hend, ?_⟩
  rcases hrest with hrest | ⟨dir, k, hgone, hrest⟩
  · refine Or.inl fun m hm => ?_
    rcases List.mem_append.mp hm with hm | hm
    · exact hfirst m hm
    · exact hrest m hm
  · refine Or.inr ⟨dir, k, hgone, fun m hm => ?_⟩
    rcases List.mem_append.mp hm with hm | hm
    · exact Or.inl (hfirst m hm)
    · exact hrest m hm

/-- Nothing is asked afterwards. -/
theorem Confines.before {x : Plan α} {f : α → Plan β} (hx : Confines respond files homes t alone x)
    (hf : ∀ a, ∃ b, f a = .done b) : Confines respond files homes t alone (x >>= f) := by
  intro s hs
  obtain ⟨b, hb⟩ := hf (x.run respond s).1
  rw [moments_bind, run_bind, hb, moments_done, run_done, List.append_nil]
  exact hx s hs

/-- A plan is confined if nothing is changed before a part that is confined. -/
theorem confines_bind {x : StagePlan α} {f : α → StagePlan β}
    (hx : Leads respond (Quiet files homes t) (Calm files homes t) x.run
      (Lands (fun _ => Calm files homes t) (Calm files homes t)))
    (hf : ∀ a, Confines respond files homes t alone (f a).run) :
    Confines respond files homes t alone (x >>= f).run := by
  refine Confines.after (hx.mono (fun _ hs => hs) (fun _ hm => hm) fun _ _ => Lands.alike)
    fun r => ?_
  -- A first part that fails ends the plan, and nothing was written.
  cases r with
  | ok a => exact hf a
  | error e => exact Confines.of_leads (Leads.done fun _ hs => hs)

section

variable (h : Orderly respond files)
include h

/-- Questions that only read. -/
theorem leads_reading {q : Question}
    (hq : q = .isCancelled ∨ q = .look ∨ q = .assemblerReady ∨ q = .decompilerReady) :
    Leads respond (Quiet files homes t) (Calm files homes t) (Plan.question q)
      fun _ => Calm files homes t := by
  refine Leads.question fun s hs => ⟨⟨hs.1, ?_⟩, ?_⟩
  · rcases hq with rfl | rfl | rfl | rfl <;> rfl
  · have hfiles : files (respond q s).2 = files s := by
      rcases hq with rfl | rfl | rfl | rfl
      · exact h.isCancelled s
      · exact (h.look s).2
      · exact h.assemblerReady s
      · exact h.decompilerReady s
    rw [Calm, hfiles]
    exact hs

/-- Whatever is in it, a scratch directory is removed at the end. -/
theorem leads_removeScratch (hfurnished : Furnished homes t u) (hsite : Site u dir k) (a : α) :
    Leads respond (Busy files homes t alone dir k)
      (fun s => ∃ taken, Inside u k taken (files s))
      (Plan.look >>= fun v => Plan.change (v.removeTree dir) >>= fun _ => Plan.done a)
      fun _ s => Calm files homes t s ∧ (files s).entryAt? k = none := by
  refine Leads.look_bind fun s ⟨taken, hin⟩ => ⟨busy_of_inside hfurnished hsite hin rfl, ?_⟩
  have hlooked : Inside u k taken (files (respond .look s).2) := (h.look s).2 ▸ hin
  -- What is left is the tree from before the scratch directory was made.
  obtain ⟨hentries, hcwd⟩ := hsite.removeTree hin
  rw [(h.look s).1]
  refine (h.leads_change (busy_of_inside hfurnished hsite hlooked rfl) fun s' hs' => ?_).bind
    fun _ => Leads.done fun _ hs => hs
  rw [Calm, hs', entryAt?_congr hentries, hsite.free]
  exact ⟨⟨hfurnished.congr hentries hcwd, hsite.grounded.congr hentries hcwd⟩, rfl⟩

/-- Whatever is done with a scratch directory, it is removed with all that is in it. -/
theorem confines_withScratch {work : Path → StagePlan α}
    (hwork : ∀ u dir k, Furnished p.homes t u → Site u dir k →
      Leads respond (Busy files p.homes t alone dir k) (fun s => Inside u k [] (files s))
        (work dir).run
        (Lands (fun _ s => ∃ taken, Inside u k taken (files s))
          fun s => ∃ taken, Inside u k taken (files s))) :
    Confines respond files p.homes t alone (p.withScratch work).run := by
  intro s hs
  have hlooked : Furnished p.homes t (files (respond .look s).2) := (h.look s).2.symm ▸ hs.1
  -- Whether there is a scratch directory is settled before anything is done with it.
  rcases hs.1.makeScratch hs.2 with ⟨e, herror, hv⟩ | ⟨dir, u, k, hok, hu, hsite, heq⟩
  · have hleads : Leads respond (Quiet files p.homes t) (· = s) (p.withScratch work).run
        fun _ => Calm files p.homes t := by
      refine Leads.look_bind fun s' hs' => ?_
      subst hs'
      refine ⟨⟨hs.1, rfl⟩, ?_⟩
      rw [(h.look s').1]
      dsimp only
      rw [herror]
      refine (h.leads_change ⟨hlooked, rfl⟩ fun s'' hs'' => ?_).bind
        fun _ => Leads.done fun _ hs => hs
      rw [Calm, hs'']
      exact hv
    obtain ⟨hms, hend⟩ := hleads s rfl
    exact ⟨hend, Or.inl hms⟩
  -- There is one: what is asked before it is made is quiet, all that comes after is busy.
  · let R (m : Moment σ) : Prop :=
      Quiet files p.homes t m ∨ Busy files p.homes t alone dir k m
    have hleads : Leads respond R (· = s) (p.withScratch work).run
        fun _ s' => Calm files p.homes t s' ∧ (files s').entryAt? k = none := by
      refine Leads.look_bind fun s' hs' => ?_
      subst hs'
      refine ⟨Or.inl ⟨hs.1, rfl⟩, ?_⟩
      rw [(h.look s').1]
      dsimp only
      rw [hok, heq]
      have hmake : Leads respond R (· = (respond .look s').2)
          (Plan.change (u.put k .directory)) fun _ s => Inside u k [] (files s) :=
        h.leads_change (Or.inl ⟨hlooked, rfl⟩) fun s' hs' => hs'.symm ▸ hsite.inside
      have hdone : Leads respond R (fun s => Inside u k [] (files s)) (work dir).run
          fun _ s => ∃ taken, Inside u k taken (files s) :=
        (hwork u dir k hu hsite).mono (fun _ hs => hs) (fun _ hm => Or.inr hm)
          fun _ _ => Lands.alike
      refine hmake.bind fun _ => hdone.bind fun result => ?_
      exact (h.leads_removeScratch hu hsite result).mono (fun _ hs => hs) (fun _ hm => Or.inr hm)
        fun _ _ hs => hs
    obtain ⟨hms, hend, hgone⟩ := hleads s rfl
    exact ⟨hend, Or.inr ⟨dir, k, hgone, hms⟩⟩

/-- The first stage works in its scratch directory only. -/
theorem confines_realtime (probe : Probe) (text : Option String) (halone : ¬ alone) :
    Confines respond files p.homes t alone (p.realtime probe text).run := by
  have hfail (e : StageError) : Confines respond files p.homes t alone
      (StagePlan.fail e : StagePlan JavaSource).run :=
    Confines.of_leads (Leads.done fun _ hs => hs)
  unfold realtime
  split
  · exact hfail _
  · next c _ =>
    refine confines_bind (leads_need (h.leads_reading (by simp)) fun _ hs => hs) fun _ => ?_
    refine confines_bind (leads_need (h.leads_reading (by simp)) fun _ hs => hs) fun _ => ?_
    exact h.confines_withScratch fun u dir k hu hsite =>
      h.leads_assembledSource hu hsite c probe.file text halone

/-- Decompiling a container works in its scratch directory only. -/
theorem confines_containerSource (c : ClassName) (container : Path) (info : FileInfo) :
    Confines respond files p.homes t alone (p.containerSource c container info).run := by
  have hscratch : Confines respond files p.homes t alone
      (p.withScratch (javaOf c container)).run :=
    h.confines_withScratch fun u dir k hu hsite =>
      h.leads_javaOf hu hsite c container (by simp) fun _ => rfl
  refine Confines.before hscratch fun r => ?_
  -- What comes after the scratch directory reads only what was known of the file before.
  cases r with
  | error e => exact ⟨_, rfl⟩
  | ok text =>
    show ∃ b, ((ExceptT.mk (pure (Origin.ofInfo p.calendar container info)) : StagePlan Origin) >>=
      fun origin => (pure ⟨text, .container, some origin⟩ : StagePlan JavaSource)).run = .done b
    cases Origin.ofInfo p.calendar container info <;> exact ⟨_, rfl⟩

/-- The second stage works in its scratch directory only. -/
theorem confines_enclosing (probe : Probe) :
    Confines respond files p.homes t alone (p.enclosing probe) := by
  have hdone (r : Report) : Confines respond files p.homes t alone (.done r) :=
    Confines.of_leads (Leads.done fun _ hs => hs)
  unfold enclosing
  split
  · exact hdone _
  · next c _ =>
    refine Confines.after (h.leads_reading (by simp)) fun ready => ?_
    split
    swap
    · exact hdone _
    refine Confines.after (h.leads_reading (by simp)) fun tree => ?_
    dsimp only
    split
    · exact hdone _
    · next container info _ =>
      exact Confines.before (h.confines_containerSource c container info) fun _ => ⟨_, rfl⟩

/-- Every stage works in its scratch directory only. -/
theorem confines_tryStage (probe : Probe) (text : Option String) (stage : Stage) :
    Confines respond files p.homes t (stage = .container) (p.tryStage probe text stage) := by
  cases stage with
  | realtime =>
    exact Confines.before (h.confines_realtime probe text (by simp)) fun _ => ⟨_, rfl⟩
  | container => exact h.confines_enclosing probe
  | existing =>
    show Confines respond files p.homes t _ (p.existing probe)
    unfold existing
    split
    · exact Confines.of_leads (Leads.done fun _ hs => hs)
    · refine Confines.after (h.leads_reading (by simp)) fun tree => ?_
      dsimp only
      split <;> exact Confines.of_leads (Leads.done fun _ hs => hs)

/-! ## Conversions -/

/-- A check leaves the files calm. -/
theorem calm_checked {s : σ} (hs : Calm files homes t s) :
    Calm files homes t (checked respond s) := by
  rw [Calm, checked, h.isCancelled]
  exact hs

/-- A stage leaves the files calm for the next one. -/
theorem calm_stageRun (probe : Probe) (text : Option String) (stage : Stage) {s : σ}
    (hs : Calm files p.homes t s) :
    Calm files p.homes t (checked respond (stageRun respond p probe text stage s).after) :=
  h.calm_checked (h.confines_tryStage probe text stage _ (h.calm_checked hs)).1

/-- Each stage starts from where the one before it ends. -/
theorem confined_of_mem_stageRuns {probe : Probe} {text : Option String} {stages : List Stage}
    {s : σ} (hs : Calm files p.homes t s) {r : StageRun σ}
    (hr : r ∈ stageRuns respond p probe text stages s) : Confined files p.homes t r := by
  induction stages generalizing s with
  | nil => cases hr
  | cons stage rest ih =>
    rcases List.mem_cons.mp hr with rfl | hr
    · obtain ⟨hend, hinside⟩ := h.confines_tryStage probe text stage _ (h.calm_checked hs)
      exact ⟨hs.1, hend.1, hinside⟩
    · exact ih (h.calm_stageRun probe text stage hs) hr

/-- Whatever the stages come to, the files are left calm. -/
theorem leads_tryStages (probe : Probe) (text : Option String) (stages : List Stage)
    (tried : Pipeline.Progress) :
    Leads respond (fun _ => True) (Calm files p.homes t) (p.tryStages probe text stages tried)
      fun _ => Calm files p.homes t := by
  have hcheck : Leads respond (fun _ => True) (Calm files p.homes t) Plan.isCancelled
      fun _ => Calm files p.homes t :=
    (h.leads_reading (by simp)).mono (fun _ hs => hs) (fun _ _ => trivial) fun _ _ hs => hs
  have hdone (r : Resolution) : Leads respond (fun _ => True) (Calm files p.homes t) (.done r)
      fun _ => Calm files p.homes t :=
    Leads.done fun _ hs => hs
  -- A stage may end the conversion; where it does not, the files are calm for the stages left.
  induction stages generalizing tried with
  | nil =>
    refine hcheck.bind fun fired => ?_
    split <;> exact hdone _
  | cons stage rest ih =>
    refine hcheck.bind fun fired => ?_
    split
    · exact hdone _
    have hstage : Leads respond (fun _ => True) (Calm files p.homes t)
        (p.tryStage probe text stage) fun _ => Calm files p.homes t := fun s hs =>
      ⟨fun _ _ => trivial, (h.confines_tryStage probe text stage s hs).1⟩
    refine hstage.bind fun report => ?_
    split
    · exact hdone _
    · refine hcheck.bind fun fired => ?_
      split <;> exact hdone _
    · refine hcheck.bind fun fired => ?_
      split
      · exact hdone _
      split
      · exact hdone _
      · exact ih _

/-- Reading the header leaves the files calm. -/
theorem calm_headerText {file : Path} {text : Option String} {s : σ}
    (hs : Calm files homes t s) :
    Calm files homes t ((headerText file text).run respond s).2 := by
  unfold headerText
  cases text with
  | some text => exact hs
  | none =>
    dsimp only
    cases ClassName.ofPath? file with
    | some c => exact hs
    | none =>
      show Calm files homes t (respond .look s).2
      rw [Calm, (h.look s).2]
      exact hs

end

end Orderly

/-- **A conversion writes in its scratch directories only.** However it ends, with tools that write
where they are told to:

* the files are those that it has found, in a tree that has grown by nothing but the directory to
  work in and the directories that this lies in;
* it looks for the header, goes through stages of the chain and checks the token. Each stage leaves
  the files so as well, and while it works they differ from that in one scratch directory alone, at a
  place where nothing stood and nothing is left. Each tool writes there, under a name of its own;
* in the stage that looks for a container the scratch directory is empty when the tool is called.
-/
theorem Pipeline.resolve_writes_in_scratch_only {respond : Respondent σ} {files : σ → FileTree}
    (h : Orderly respond files) (p : Pipeline) (file : Path) (text : Option String) (s : σ)
    (hs : (files s).Grounded) :
    Furnished p.homes (files s) (files ((p.resolve file text).run respond s).2) ∧
    ∃ begun last, begun <+: chain respond p file text s ∧
      (p.resolve file text).moments respond s = (headerText file text).moments respond s ++
        (begun.flatMap StageRun.moments ++ last) ∧
      (∀ m ∈ (headerText file text).moments respond s, m.question = .look) ∧
      (∀ m ∈ last, m.question = .isCancelled) ∧
      ∀ r ∈ begun, Confined files p.homes (files s) r := by
  have hheader : Orderly.Calm files p.homes (files s) ((headerText file text).run respond s).2 :=
    h.calm_headerText ⟨.refl _ _, hs⟩
  constructor
  · have hend := (h.leads_tryStages (Probe.of file ((headerText file text).run respond s).1) text
      Stage.all {} _ hheader).2
    unfold resolve
    rw [run_bind]
    exact hend.1
  -- The stages that were begun are the first of the chain, and every stage of it is confined.
  · obtain ⟨ms, htried, hmoments⟩ := tried_resolve respond p file text s
    obtain ⟨begun, last, hbegin, rfl, hlast, -⟩ := htried.begun
    refine ⟨begun, last, hbegin, hmoments, fun m hm => question_of_mem_headerText hm, hlast, ?_⟩
    intro r hr
    exact h.confined_of_mem_stageRuns hheader (hbegin.subset hr)

/-! ## The bench -/

/-- Tools that write where they are told to. -/
structure Toolbox.Neat (tools : Toolbox) : Prop where
  assemblerReady : ∀ scene : Scene, (tools.assembler.ready.run scene).2.tree = scene.tree
  decompilerReady : ∀ scene : Scene, (tools.decompiler.ready.run scene).2.tree = scene.tree
  assemble : ∀ request (scene : Scene), scene.tree.WritesAt request.output
    ((tools.assembler.assemble request).run.run scene).2.tree
  decompile : ∀ request (scene : Scene), scene.tree.WritesAt request.output
    ((tools.decompiler.decompile request).run.run scene).2.tree

/-- Finding out whether a tool is ready leaves the files as they are. -/
theorem Bench.tree_known {memory : Bench → Option Bool} {remember : Bench → Bool → Bench}
    {ask : Act Bool} (hask : ∀ scene : Scene, (ask.run scene).2.tree = scene.tree)
    (hremember : ∀ bench b, (remember bench b).tree = bench.tree) (turn : Bench.Turn) :
    ((Bench.known memory remember ask).run turn).2.1.tree = turn.1.tree := by
  obtain ⟨bench, token⟩ := turn
  unfold Bench.known
  cases hm : memory bench with
  | some ready =>
    simp only [StateT.run_bind, StateT.run_get, pure_bind, hm]
    rfl
  | none =>
    simp only [StateT.run_bind, StateT.run_get, pure_bind, hm]
    exact (hremember _ _).trans (hask ⟨bench.tree, token⟩)

/-- Neat tools make the bench orderly. -/
theorem Toolbox.Neat.orderly {tools : Toolbox} (neat : tools.Neat) :
    Orderly (Bench.respond tools) fun turn => turn.1.tree where
  look _ := ⟨rfl, rfl⟩
  change _ _ := rfl
  isCancelled _ := rfl
  assemblerReady turn := by
    refine Bench.tree_known neat.assemblerReady ?_ turn
    exact fun _ _ => rfl
  decompilerReady turn := by
    refine Bench.tree_known neat.decompilerReady ?_ turn
    exact fun _ _ => rfl
  tools q out turn hout := by
    cases q with
    | assemble request =>
      obtain rfl := Option.some.inj hout
      exact neat.assemble request ⟨turn.1.tree, turn.2⟩
    | decompile request =>
      obtain rfl := Option.some.inj hout
      exact neat.decompile request ⟨turn.1.tree, turn.2⟩
    | _ => cases hout

/-- The tree with entries put at a place and below it. -/
def FileTree.placed (t : FileTree) (p : Path) (entries : List (Location × Entry)) : FileTree :=
  match t.locate p false with
  | .ok l => entries.foldl (fun t e => t.put (l ++ e.1) e.2) t
  | .error _ => t

theorem FileTree.writesAt_placed (t : FileTree) (p : Path) (entries : List (Location × Entry)) :
    t.WritesAt p (t.placed p entries) := by
  have hfold (l : Location) :
      Within l t (entries.foldl (fun t e => t.put (l ++ e.1) e.2) t) := by
    induction entries generalizing t with
    | nil => exact .refl l t
    | cons e entries ih => exact .trans (within_put t (l ++ e.1) e.2).mono (ih _)
  unfold WritesAt placed
  cases t.locate p false with
  | ok l => exact fun _ => hfold l
  | error e => exact ⟨rfl, rfl⟩

/-- What an assembler writes. -/
def containerEntries : List (Location × Entry) := [([], .file [] ⟨0, 0⟩ {})]

/-- What a decompiler writes: Java source of the class `A`. -/
def sourceEntries : List (Location × Entry) :=
  [([], .directory), (["A.java"], .file (Text.bytes "class A") ⟨0, 0⟩ {})]

def diligentTools : Toolbox where
  assembler := {
    label := ⟨"assembler", "install it"⟩
    ready := return true
    assemble := fun request => do
      modify fun scene =>
        { scene with tree := scene.tree.placed request.output containerEntries }
      return { status := .success, container := some request.output } }
  decompiler := {
    label := ⟨"decompiler", "install it"⟩
    ready := return true
    decompile := fun request => do
      modify fun scene => { scene with tree := scene.tree.placed request.output sourceEntries }
      return { status := .success, tree := some request.output } }

theorem diligentTools_neat : diligentTools.Neat where
  assemblerReady _ := rfl
  decompilerReady _ := rfl
  assemble _ _ := FileTree.writesAt_placed _ _ _
  decompile _ _ := FileTree.writesAt_placed _ _ _

/-- A pipeline that works in a directory which is not there at first. -/
def Pipeline.settling : Pipeline := { plain with workDirectory := some ⟨"/w/x"⟩ }

/-- Both tools do their work, and of all that was written the directory to work in is left. -/
theorem diligent_conversion_leaves_work_directory :
    Orderly (Bench.respond diligentTools) (fun turn => turn.1.tree) ∧ unitTree.Grounded ∧
      ((Pipeline.settling.resolve ⟨"/p/smali/A.smali"⟩ none).run (Bench.respond diligentTools)
        ({ tree := unitTree }, {})).1 = .outcome (.success ⟨"class A", .realtime, none⟩) ∧
      Furnished [⟨"/w/x"⟩, ⟨"/w"⟩, ⟨"/"⟩] unitTree
        ((Pipeline.settling.resolve ⟨"/p/smali/A.smali"⟩ none).run (Bench.respond diligentTools)
          ({ tree := unitTree }, {})).2.1.tree := by
  have hgrounded : unitTree.Grounded :=
    ⟨FileTree.sound_of_isSound (by decide +kernel), by decide +kernel⟩
  have hresult : ((Pipeline.settling.resolve ⟨"/p/smali/A.smali"⟩ none).run
      (Bench.respond diligentTools) ({ tree := unitTree }, {})).1 =
        .outcome (.success ⟨"class A", .realtime, none⟩) := by
    decide +kernel
  have hhomes : Pipeline.settling.homes = [⟨"/w/x"⟩, ⟨"/w"⟩, ⟨"/"⟩] := by decide +kernel
  have h := Pipeline.resolve_writes_in_scratch_only diligentTools_neat.orderly Pipeline.settling
    ⟨"/p/smali/A.smali"⟩ none ({ tree := unitTree }, {}) hgrounded
  exact ⟨diligentTools_neat.orderly, hgrounded, hresult, hhomes ▸ h.1⟩

end SmaliView
