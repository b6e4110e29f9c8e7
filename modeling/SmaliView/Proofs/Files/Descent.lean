import SmaliView.Proofs.Files.Growth
import SmaliView.Proofs.Files.Segments

/-!
# Where paths lead by their text

`Path.descent` resolves the `.` and the `..` of a path without a look at any files. A relative path
below a directory first climbs as far as it leads up, and then goes down by the names that are left
(`descent_join`): it ends below the directory if it comes back to it on the way down.
-/

namespace SmaliView

open Text (cut joinWith dropEnd)

/-- The way that a path leads: up from where it starts, then down by names. -/
structure Path.Descent where
  rooted : Bool
  up : Nat := 0
  names : List String := []
deriving DecidableEq, Repr

namespace Path.Descent

variable {x : Descent} {cs : List Component}

/-- Go on by a component. There is nothing above the root. -/
def move (x : Descent) : Component → Descent
  | .root => { rooted := true }
  | .here => x
  | .up =>
    if x.names ≠ [] then { x with names := x.names.dropLast }
    else if x.rooted then x
    else { x with up := x.up + 1 }
  | .name s => { x with names := x.names ++ [s] }

def climb (x : Descent) (n : Nat) : Descent where
  rooted := x.rooted
  up := if x.rooted then x.up else x.up + (n - x.names.length)
  names := x.names.take (x.names.length - n)

def descend (x : Descent) (below : List String) : Descent :=
  { x with names := x.names ++ below }

theorem climb_zero (x : Descent) : x.climb 0 = x := by
  simp [climb]

/-- Climbing one step more is one more step up. -/
theorem climb_succ (x : Descent) (n : Nat) : x.climb (n + 1) = (x.climb n).move .up := by
  by_cases h : n < x.names.length
  · -- There is a name left to take away.
    have hne : x.names.take (x.names.length - n) ≠ [] := by
      rw [ne_eq, List.take_eq_nil_iff, not_or]
      exact ⟨by omega, List.ne_nil_of_length_pos (by omega)⟩
    have hdrop : (x.names.take (x.names.length - n)).dropLast =
        x.names.take (x.names.length - (n + 1)) := by
      rcases Nat.eq_zero_or_pos n with rfl | hn
      · simp [List.dropLast_eq_take]
      · rw [List.dropLast_take (by omega), Nat.sub_add_eq]
    have hup : n + 1 - x.names.length = n - x.names.length := by omega
    simp [climb, move, hne, hdrop, hup]
  · have hnone : x.names.length - n = 0 := by omega
    have hnone' : x.names.length - (n + 1) = 0 := by omega
    have hup : n + 1 - x.names.length = n - x.names.length + 1 := by omega
    cases hrooted : x.rooted <;> simp [climb, move, hnone, hnone', hup, hrooted, Nat.add_assoc]

/-- No component but the root makes a descent start there. -/
theorem rooted_move {a : Component} (ha : a ≠ .root) (x : Descent) : (x.move a).rooted = x.rooted := by
  cases a with
  | root => exact absurd rfl ha
  | here => rfl
  | up =>
    rw [move]
    split
    · rfl
    · split <;> rfl
  | name s => rfl

theorem rooted_foldl_move (hcs : .root ∉ cs) (x : Descent) : (cs.foldl move x).rooted = x.rooted := by
  induction cs generalizing x with
  | nil => rfl
  | cons a cs ih =>
    rw [List.mem_cons, not_or] at hcs
    rw [List.foldl_cons, ih hcs.2, rooted_move (Ne.symm hcs.1)]

/-- Components without a root lead from any place first up and then down. -/
theorem foldl_move (hcs : .root ∉ cs) (x : Descent) :
    cs.foldl move x = (x.climb (cs.foldl move { rooted := false }).up).descend
      (cs.foldl move { rooted := false }).names := by
  induction cs using List.reverseRecOn with
  | nil => simp [climb_zero, descend]
  | append_singleton cs a ih =>
    rw [List.mem_append, List.mem_singleton, not_or] at hcs
    have hrooted := rooted_foldl_move hcs.1 { rooted := false }
    rw [List.foldl_append, List.foldl_append, ih hcs.1]
    generalize cs.foldl move { rooted := false } = y at hrooted
    cases a with
    | root => exact absurd rfl hcs.2
    | here => rfl
    | name s => simp [move, descend]
    | up =>
      -- A step up takes away one of the names below, or climbs one further.
      by_cases hy : y.names = []
      · simp [move, hy, hrooted, descend, climb_succ]
      · simp [move, hy, descend, List.dropLast_append_of_ne_nil]

/-- Names lead down. -/
theorem foldl_move_names (names : List String) (x : Descent) :
    (names.map Component.name).foldl move x = x.descend names := by
  induction names generalizing x with
  | nil => simp [descend]
  | cons s names ih =>
    rw [List.map_cons, List.foldl_cons, ih]
    simp [descend, move]

end Path.Descent

/-- A path that leads to a regular file does not end in a piece that stays where it is. -/
theorem FileTree.moves_of_isFile {t : FileTree} {q : Path} {piece : List Char}
    (h : t.isFile q = true) (hlast : (cut '/' q.body).getLast? = some piece) :
    Path.idle piece = false := by
  obtain ⟨content, modified, may, hfind⟩ := exists_find_of_isFile h
  obtain ⟨m, hm, hentry⟩ := exists_locate_of_find hfind
  have hwalk := walk_eq_ok_iff.mp (locate_eq_ok hm)
  rw [Bool.eq_false_iff]
  intro hidle
  by_cases hbody : q.body = []
  · -- The path is the root, which is a directory, or empty.
    have hsteps : steps q = [] := by simp [steps, Path.pieces, hbody]
    rw [hsteps] at hwalk
    cases hwalk
    cases hrooted : q.rooted with
    | true =>
      rw [start, hrooted, if_pos rfl, entryAt?_nil] at hentry
      cases hentry
    | false =>
      have hempty : q = ⟨""⟩ := Path.eq_of_toList_text (by simp [Path.text_eq q, hrooted, hbody])
      rw [hempty] at hm
      cases hm
  · obtain ⟨above, hcut⟩ := List.getLast?_eq_some_iff.mp hlast
    have hsteps : ∃ moves, steps q = moves ++ [.here] := by
      rw [steps, Path.pieces, if_neg hbody, hcut, List.map_append, List.map_singleton, if_pos hidle]
      exact ⟨_, rfl⟩
    obtain ⟨moves, hmoves⟩ := hsteps
    rw [hmoves] at hwalk
    cases hentry.symm.trans hwalk.directory_of_here

namespace Path

variable {p q dir r : Path} {s : String}

/-- Where the path leads if nothing on the way is a link. -/
def descent (p : Path) : Descent :=
  p.components.foldl Descent.move { rooted := false }

/-- The path leads to a place below the directory. -/
def Under (dir q : Path) : Prop :=
  ∃ below, below ≠ [] ∧ q.descent = dir.descent.descend below

/-- From the directory the path leads up no further than it then comes down again. -/
def Returns (r dir : Path) : Prop :=
  (dir.rooted = true ∨ r.descent.up ≤ dir.descent.names.length) ∧
    ∃ below, below ≠ [] ∧
      r.descent.names = dir.descent.names.drop (dir.descent.names.length - r.descent.up) ++ below

/-! ## Components -/

/-- The root is only at the front of a path. -/
theorem root_not_mem_inner (ps : List (List Char)) : .root ∉ inner ps := by
  intro h
  obtain ⟨piece, -, hpiece⟩ := List.mem_map.mp h
  rw [Component.ofPiece] at hpiece
  split at hpiece <;> cases hpiece

theorem inner_append (ps qs : List (List Char)) : inner (ps ++ qs) = inner ps ++ inner qs := by
  rw [inner, List.filter_append, List.map_append, inner, inner]

/-- What stands before the first piece that moves: a root, a leading `.` or nothing. -/
theorem exists_components (p : Path) :
    ∃ front, p.components = front ++ inner p.pieces ∧ (∀ s, .name s ∉ front) ∧ .up ∉ front ∧
      front.foldl Descent.move { rooted := false } = { rooted := p.rooted } := by
  rw [components]
  cases hrooted : p.rooted with
  | true => exact ⟨[.root], rfl, by simp, by simp, rfl⟩
  | false =>
    rw [if_neg Bool.false_ne_true]
    cases hpieces : p.pieces with
    | nil => exact ⟨[], rfl, by simp, by simp, rfl⟩
    | cons piece rest =>
      have hne := ne_nil_of_pieces_eq_cons hrooted hpieces
      by_cases hdot : piece = ['.']
      · subst hdot
        exact ⟨[.here], rfl, by simp, by simp, rfl⟩
      · have hmoves : idle piece = false := by simp [idle, hne, hdot]
        refine ⟨[], ?_, by simp, by simp, rfl⟩
        simp [inner, Component.ofFirst, hmoves, hdot]

/-- The descent of a path goes by its components after the start. -/
theorem descent_eq (p : Path) :
    p.descent = (inner p.pieces).foldl Descent.move { rooted := p.rooted } := by
  obtain ⟨front, hcomponents, -, -, hfront⟩ := exists_components p
  rw [descent, hcomponents, List.foldl_append, hfront]

theorem rooted_descent (p : Path) : p.descent.rooted = p.rooted := by
  rw [descent_eq, Descent.rooted_foldl_move (root_not_mem_inner _)]

/-- An empty body has one piece that says nothing. -/
theorem inner_pieces (p : Path) : inner p.pieces = inner (cut '/' p.body) := by
  rw [pieces]
  split
  · next hnil =>
    rw [hnil]
    rfl
  · rfl

/-- The pieces of a relative path stand at the end of the path that it is appended to. -/
theorem exists_cut_join (hq : q.rooted = false) (p : Path) :
    ∃ front, cut '/' (p.join q).body = front ++ cut '/' q.body ∧ inner front = inner p.pieces := by
  have htext := text_join hq p
  have hbody : q.body = q.text.toList := by simp [text_eq q, hq]
  rw [text_eq (p.join q), rooted_join hq, text_eq p, List.append_assoc, List.append_assoc,
    List.append_cancel_left_eq, ← hbody] at htext
  rw [inner_pieces, htext]
  rcases List.eq_nil_or_concat p.body with hnil | ⟨front, c, hfront⟩
  · -- Nothing stands in front, or the root alone.
    have hclosed : (if p.rooted then ['/'] else []) ++ [] = [] ∨
        ((if p.rooted then ['/'] else []) ++ []).getLast? = some '/' := by
      cases p.rooted <;> simp
    rw [hnil, if_pos hclosed]
    exact ⟨[], rfl, rfl⟩
  · rw [List.concat_eq_append] at hfront
    have hlast : ((if p.rooted then ['/'] else []) ++ p.body).getLast? = some c := by
      rw [hfront, ← List.append_assoc, List.getLast?_concat]
    -- A separator at the end is the one that would be added.
    by_cases hc : c = '/'
    · refine ⟨cut '/' front, ?_, ?_⟩
      · rw [if_pos (Or.inr (hc ▸ hlast)), hfront, hc, List.nil_append, List.append_assoc,
          List.singleton_append, Text.cut_append_sep]
      · rw [hfront, hc, Text.cut_append_sep, inner_append]
        exact (List.append_nil _).symm
    · refine ⟨cut '/' p.body, ?_, rfl⟩
      rw [if_neg, List.singleton_append, Text.cut_append_sep]
      rintro (hnil | hslash)
      · rw [hnil] at hlast
        cases hlast
      · exact hc (Option.some.inj (hlast.symm.trans hslash))

/-- A relative path that is appended adds its components. -/
theorem inner_join (hq : q.rooted = false) (p : Path) :
    inner (p.join q).pieces = inner p.pieces ++ inner q.pieces := by
  obtain ⟨front, hcut, hfront⟩ := exists_cut_join hq p
  rw [inner_pieces, hcut, inner_append, hfront, ← inner_pieces]

theorem inner_ofNames {names : List String} (h : ∀ r ∈ names, '/' ∉ r.toList) :
    (ofNames names).rooted = false ∧
      inner (ofNames names).pieces = inner (names.map String.toList) := by
  induction names using List.reverseRecOn with
  | nil => exact ⟨rfl, rfl⟩
  | append_singleton names s ih =>
    have hs := h s (by simp)
    have hrelative := not_rooted_of_not_mem hs
    obtain ⟨hrooted, hinner⟩ := ih fun r hr => h r (List.mem_append_left _ hr)
    rw [ofNames_concat]
    refine ⟨(rooted_join hrelative _).trans hrooted, (inner_join hrelative _).trans ?_⟩
    have hone : inner (Path.mk s).pieces = inner [s.toList] := by
      rw [inner_pieces, body, hrelative, if_neg Bool.false_ne_true, Text.cut_of_not_mem hs]
    rw [hone, hinner, List.map_append, List.map_singleton, inner_append]

/-! ## Below a directory -/

/-- A relative path that is appended climbs first and descends then. -/
theorem descent_join (hr : r.rooted = false) (dir : Path) :
    (dir.join r).descent = (dir.descent.climb r.descent.up).descend r.descent.names := by
  rw [descent_eq (dir.join r), rooted_join hr, inner_join hr, List.foldl_append, ← descent_eq dir,
    Descent.foldl_move (root_not_mem_inner _), descent_eq r, hr]

/-- What is looked for below a directory lies below it if its path comes back to it. -/
theorem under_join_iff (hr : r.rooted = false) (dir : Path) :
    dir.Under (dir.join r) ↔ r.Returns dir := by
  -- Of the names of the directory some are climbed over, and have to come back.
  have hsplit : dir.descent.names = dir.descent.names.take (dir.descent.names.length - r.descent.up) ++
      dir.descent.names.drop (dir.descent.names.length - r.descent.up) :=
    (List.take_append_drop ..).symm
  rw [Under, Returns, descent_join hr, ← rooted_descent dir]
  generalize dir.descent = x, r.descent.up = n, r.descent.names = names at hsplit
  constructor
  · rintro ⟨below, hne, heq⟩
    obtain ⟨-, hup, hnames⟩ := Descent.mk.inj heq
    refine ⟨?_, below, hne, ?_⟩
    -- What is left to climb above a relative directory is not come back from.
    · cases hrooted : x.rooted with
      | true => exact Or.inl rfl
      | false =>
        refine Or.inr ?_
        have hup : x.up + (n - x.names.length) = x.up := by
          simpa [Descent.climb, Descent.descend, hrooted] using hup
        omega
    · rw [hsplit, List.append_assoc] at hnames
      exact List.append_cancel_left hnames
  · rintro ⟨hup, below, hne, hnames⟩
    refine ⟨below, hne, ?_⟩
    have hstays : (x.climb n).up = x.up := by
      rcases hup with hrooted | hle
      · simp [Descent.climb, hrooted]
      · simp [Descent.climb, Nat.sub_eq_zero_of_le hle]
    rw [Descent.descend, hstays, hnames, Descent.climb, ← List.append_assoc, ← hsplit]
    rfl

/-- The second directory is a name further down. -/
theorem Under.of_div (hs : IsName s) (h : (dir / s).Under q) : dir.Under q := by
  obtain ⟨below, -, hdescent⟩ := h
  refine ⟨s :: below, List.cons_ne_nil _ _, ?_⟩
  have hdown : (Path.mk s).descent = { rooted := false, names := [s] } := by
    have hnames : ∀ r ∈ [s], IsName r := by simpa using hs
    have hone : (Path.mk s).components = [.name s] := by
      simpa [ofNames, join, rooted] using components_ofNames hnames
    rw [descent, hone]
    rfl
  have hdiv : (dir / s).descent = dir.descent.descend [s] := by
    refine (descent_join hs.not_rooted dir).trans ?_
    rw [hdown, Descent.climb_zero]
  rw [hdescent, hdiv]
  simp [Descent.descend]

/-- A path that does not climb returns if it leads somewhere. -/
theorem returns_iff_of_up_eq_zero (hup : r.descent.up = 0) :
    r.Returns dir ↔ r.descent.names ≠ [] := by
  rw [Returns, hup]
  constructor
  · rintro ⟨-, below, hne, hnames⟩
    simpa [hnames] using hne
  · intro hne
    exact ⟨Or.inr (Nat.zero_le _), _, hne, by simp⟩

/-! ## Paths that do not lead up -/

/-- A path leads up where a piece is `..`. -/
theorem up_mem_inner {ps : List (List Char)} : .up ∈ inner ps ↔ ['.', '.'] ∈ ps := by
  constructor
  · intro h
    obtain ⟨piece, hpiece, hup⟩ := List.mem_map.mp h
    rw [Component.ofPiece] at hup
    split at hup
    · next heq => exact heq ▸ List.mem_of_mem_filter hpiece
    · cases hup
  · intro h
    exact List.mem_map.mpr ⟨['.', '.'], List.mem_filter.mpr ⟨h, rfl⟩, rfl⟩

/-- Without a `..` all that moves is a name. -/
theorem exists_names {ps : List (List Char)} (h : .up ∉ inner ps) :
    ∃ names : List String, inner ps = names.map Component.name := by
  refine ⟨(inner ps).map Component.text, ?_⟩
  rw [List.map_map]
  refine (List.map_id _).symm.trans (List.map_congr_left fun a ha => ?_)
  obtain ⟨piece, -, rfl⟩ := List.mem_map.mp ha
  rw [Component.ofPiece]
  split
  · next hup =>
    rw [Component.ofPiece, if_pos hup] at ha
    exact absurd ha h
  · rfl

section

variable (hr : r.rooted = false) (hup : .up ∉ inner r.pieces)
include hr hup

/-- A relative path without a `..` leads to what it ends in, if it ends in a name. -/
theorem descent_of_not_up :
    r.descent.up = 0 ∧ (r.descent.names = [] ↔ inner r.pieces = []) ∧
      (r.descent.names ≠ [] ↔ r.fileName?.isSome = true) := by
  obtain ⟨names, hnames⟩ := exists_names hup
  obtain ⟨front, hcomponents, hfront, -⟩ := exists_components r
  have hdescent : r.descent = { rooted := false, names } := by
    rw [descent_eq, hnames, Descent.foldl_move_names, hr]
    rfl
  refine ⟨by rw [hdescent], by simp [hdescent, hnames], ?_⟩
  rw [hdescent, fileName?, hcomponents, hnames]
  -- Without names only what stands in front is left, which is no name.
  rcases List.eq_nil_or_concat names with rfl | ⟨above, s, rfl⟩
  · rw [List.map_nil, List.append_nil]
    split
    · next s hlast => exact absurd (List.mem_of_getLast? hlast) (hfront s)
    · simp
  · rw [List.concat_eq_append, List.map_append, List.map_singleton, ← List.append_assoc,
      List.getLast?_concat]
    simp

/-- Such a path leads below every directory if it ends in a name. -/
theorem under_join_iff_of_not_up : dir.Under (dir.join r) ↔ r.fileName?.isSome = true := by
  obtain ⟨hzero, -, hname⟩ := descent_of_not_up hr hup
  rw [under_join_iff hr, returns_iff_of_up_eq_zero hzero, hname]

/-- A regular file that such a path leads to lies below the directory. -/
theorem under_of_isFile {t : FileTree} (h : t.isFile (dir.join r) = true) :
    dir.Under (dir.join r) := by
  obtain ⟨hzero, hnil, -⟩ := descent_of_not_up hr hup
  rw [under_join_iff hr, returns_iff_of_up_eq_zero hzero]
  intro hempty
  -- All pieces are idle, and so is the last one.
  have hidle : inner (cut '/' r.body) = [] := by rw [← inner_pieces, hnil.mp hempty]
  obtain ⟨above, piece, hcut⟩ :=
    (List.eq_nil_or_concat (cut '/' r.body)).resolve_left (Text.cut_ne_nil _ _)
  rw [List.concat_eq_append] at hcut
  obtain ⟨front, hjoin, -⟩ := exists_cut_join hr dir
  have hlast : (cut '/' (dir.join r).body).getLast? = some piece := by
    rw [hjoin, hcut, ← List.append_assoc, List.getLast?_concat]
  have hmoves := FileTree.moves_of_isFile h hlast
  have hmem := List.filter_eq_nil_iff.mp (List.map_eq_nil_iff.mp hidle) piece (by simp [hcut])
  rw [hmoves] at hmem
  exact hmem rfl

end

/-! ## Another extension -/

/-- A path that ends in a name has it as its last piece but for idle ones. -/
theorem exists_pieces_of_fileName? (h : p.fileName? = some s) :
    ∃ above idles, p.pieces = above ++ s.toList :: idles ∧ ∀ piece ∈ idles, idle piece = true := by
  obtain ⟨front, hcomponents, hfront, -⟩ := exists_components p
  obtain ⟨names, hinner⟩ : ∃ names, inner p.pieces = names ++ [.name s] := by
    rw [fileName?, hcomponents] at h
    split at h
    swap
    · cases h
    next s' hlast =>
    obtain rfl := Option.some.inj h
    rcases List.eq_nil_or_concat (inner p.pieces) with hnil | ⟨names, last, hlast'⟩
    · rw [hnil, List.append_nil] at hlast
      exact absurd (List.mem_of_getLast? hlast) (hfront s')
    · rw [List.concat_eq_append] at hlast'
      rw [hlast', ← List.append_assoc, List.getLast?_concat] at hlast
      exact ⟨names, hlast' ▸ congrArg (names ++ [·]) (Option.some.inj hlast)⟩
  -- The last component comes from a piece that moves, with idle ones behind it.
  obtain ⟨kept, last, hkept, -, hlast⟩ := List.map_eq_append_iff.mp hinner
  obtain ⟨piece, rfl, hpiece⟩ := List.map_eq_singleton_iff.mp hlast
  obtain ⟨before, after, hpieces, -, hafter⟩ := List.filter_eq_append_iff.mp hkept
  obtain ⟨idles, idles', rfl, -, hmoves, hidle⟩ := List.filter_eq_cons_iff.mp hafter
  have hs : piece = s.toList := by
    rw [Component.ofPiece] at hpiece
    split at hpiece
    · cases hpiece
    · rw [← Component.name.inj hpiece, String.toList_ofList]
  refine ⟨before ++ idles, idles', by rw [hpieces, hs, List.append_assoc], fun r hr => ?_⟩
  simpa using List.filter_eq_nil_iff.mp hidle r hr

/-- The name with the extension takes the place of the last one. -/
theorem inner_withExtension (h : p.fileName? = some s) {ext : String}
    (hext : 1 < ext.toList.length) (hwhole : '/' ∉ ext.toList) :
    (p.withExtension ext).rooted = p.rooted ∧ ∃ above s',
      inner p.pieces = above ++ [.name s] ∧
        inner (p.withExtension ext).pieces = above ++ [.name s'] := by
  have hs := isName_of_fileName? h
  have hs' := isName_extended hs hext hwhole
  obtain ⟨above, idles, hpieces, hidles⟩ := exists_pieces_of_fileName? h
  obtain ⟨last, hlast⟩ : ∃ last, last = (splitName s.toList).1 ++ '.' :: ext.toList := ⟨_, rfl⟩
  rw [← hlast] at hs'
  have hpath : p.withExtension ext = ofPieces p.rooted (above ++ [last]) := by
    rw [withExtension_eq h hext, ← hlast, hpieces,
      settle_concat_append hs.moves p.rooted above hidles, List.dropLast_concat]
  have hnil : last ≠ [] := by simpa using hs'.ne_nil
  have hpieces' : ∀ piece ∈ above ++ [last], '/' ∉ piece := by
    intro piece hpiece
    rcases List.mem_append.mp hpiece with hmem | hmem
    · exact not_mem_of_mem_pieces (hpieces ▸ List.mem_append_left _ hmem)
    · rw [List.mem_singleton.mp hmem]
      simpa using hs'.whole
  -- The new last piece is not empty, so the path is cut into the same pieces again.
  have htext : joinWith '/' (above ++ [last]) ≠ [] := by
    obtain ⟨front, hfront⟩ := Text.exists_joinWith_concat '/' above
    simp [hfront, hnil]
  have hstart : p.rooted = true ∨ (above ++ [last]).head? ≠ some [] := by
    cases hroot : p.rooted with
    | true => exact Or.inl rfl
    | false =>
      refine Or.inr ?_
      cases above with
      | nil => simpa using hnil
      | cons first above => simpa using ne_nil_of_pieces_eq_cons hroot hpieces
  obtain ⟨hrooted, hnew⟩ := pieces_ofPieces hpieces' htext hstart
  have hidle : inner idles = [] := by
    rw [inner, List.filter_eq_nil_iff.mpr fun piece hpiece => by simp [hidles piece hpiece]]
    rfl
  rw [hpath]
  refine ⟨hrooted, inner above, String.ofList last, ?_, ?_⟩
  · rw [hpieces, ← List.singleton_append, ← List.append_assoc, inner_append, hidle,
      List.append_nil, inner_concat hs]
  · rw [hnew]
    simpa using inner_concat hs' above

end Path

end SmaliView
