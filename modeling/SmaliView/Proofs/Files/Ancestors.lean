import SmaliView.Proofs.Files.Segments
import Mathlib.Data.List.DropRight
import Mathlib.Data.List.Induction

/-!
# The directories above a path

`parent?` takes the last component of a path away (`components_of_parent?`), so that a path has as
many directories above it as it has components, and the walk upwards ends (`ancestors_eq`). What is
left of the text is kept as it is, but for a separator or a `.` at its end: the directory above
`p / r / s` is `p / r`, letter by letter (`parent?_div_div`).
-/

namespace SmaliView

open Text (cut joinWith dropEnd)

theorem Text.dropEnd_concat {α : Type} (f : α → Bool) (xs : List α) (x : α) :
    dropEnd f (xs ++ [x]) = if f x then dropEnd f xs else xs ++ [x] :=
  List.rdropWhile_concat f xs x

namespace Path

variable {p q : Path} {s r : String} {rooted : Bool} {ps : List (List Char)} {piece : List Char}

/-! ## Pieces and components -/

/-- The components of a path with the given pieces. -/
def view (rooted : Bool) (ps : List (List Char)) : List Component :=
  if rooted then .root :: inner ps
  else match ps with
    | [] => []
    | piece :: rest => .ofFirst piece :: inner rest

theorem components_eq_view (p : Path) : p.components = view p.rooted p.pieces := rfl

theorem inner_dropEnd (ps : List (List Char)) : inner (dropEnd idle ps) = inner ps := by
  induction ps using List.reverseRecOn with
  | nil => rfl
  | append_singleton ps piece ih =>
    rw [Text.dropEnd_concat]
    split
    · next hidle =>
      rw [ih, inner, inner, List.filter_append, List.filter_cons_of_neg (by simp [hidle]),
        List.filter_nil, List.append_nil]
    · rfl

/-- What is taken from the end of the pieces says nothing. -/
theorem view_settle (rooted : Bool) (ps : List (List Char)) :
    view rooted (settle rooted ps) = view rooted ps := by
  cases rooted with
  | true => exact congrArg (.root :: ·) (inner_dropEnd ps)
  | false =>
    cases ps with
    | nil => rfl
    | cons piece rest => exact congrArg (.ofFirst piece :: ·) (inner_dropEnd rest)

/-- A piece that moves is the last component, unless it starts a relative path. -/
theorem view_concat (hmoves : idle piece = false) (h : rooted = true ∨ ps ≠ []) :
    view rooted (ps ++ [piece]) = view rooted ps ++ [.ofPiece piece] := by
  have hinner (qs : List (List Char)) : inner (qs ++ [piece]) = inner qs ++ [.ofPiece piece] := by
    simp [inner, hmoves]
  cases rooted with
  | true => exact congrArg (.root :: ·) (hinner ps)
  | false =>
    obtain ⟨first, rest, rfl⟩ := List.exists_cons_of_ne_nil (h.resolve_left Bool.false_ne_true)
    exact congrArg (.ofFirst first :: ·) (hinner rest)

/-- Settled pieces end in one that moves, or are the one piece of a relative path. -/
theorem settle_cases (rooted : Bool) (ps : List (List Char)) :
    settle rooted ps = [] ∨ (rooted = false ∧ ∃ piece, settle rooted ps = [piece]) ∨
      ∃ above piece, settle rooted ps = above ++ [piece] ∧ idle piece = false ∧
        (rooted = true ∨ above ≠ []) := by
  have hdrop (qs : List (List Char)) : dropEnd idle qs = [] ∨
      ∃ above piece, dropEnd idle qs = above ++ [piece] ∧ idle piece = false := by
    induction qs using List.reverseRecOn with
    | nil => exact Or.inl rfl
    | append_singleton qs piece ih =>
      rw [Text.dropEnd_concat]
      split
      · exact ih
      · next hmoves => exact Or.inr ⟨qs, piece, rfl, Bool.eq_false_iff.mpr hmoves⟩
  cases rooted with
  | true =>
    rcases hdrop ps with hnil | ⟨above, piece, heq, hmoves⟩
    · exact Or.inl hnil
    · exact Or.inr (Or.inr ⟨above, piece, heq, hmoves, Or.inl rfl⟩)
  | false =>
    cases ps with
    | nil => exact Or.inl rfl
    | cons first rest =>
      right
      rcases hdrop rest with hnil | ⟨above, piece, heq, hmoves⟩
      · exact Or.inl ⟨rfl, first, congrArg (first :: ·) hnil⟩
      · exact Or.inr ⟨first :: above, piece, congrArg (first :: ·) heq, hmoves,
          Or.inr (List.cons_ne_nil _ _)⟩

/-- Settling adds no pieces. -/
theorem settle_subset (rooted : Bool) (ps : List (List Char)) : settle rooted ps ⊆ ps := by
  have hdrop (qs : List (List Char)) : dropEnd idle qs ⊆ qs :=
    (List.rdropWhile_prefix idle qs).subset
  cases rooted with
  | true => exact hdrop ps
  | false =>
    cases ps with
    | nil => exact List.Subset.refl _
    | cons first rest => exact List.cons_subset_cons first (hdrop rest)

/-- A path is its pieces with separators between them. -/
theorem ofPieces_pieces (p : Path) : ofPieces p.rooted p.pieces = p := by
  refine eq_of_toList_text ?_
  rw [ofPieces, String.toList_ofList, text_eq p, List.append_cancel_left_eq, pieces]
  split
  · next hnil => exact hnil.symm
  · exact Text.joinWith_cut '/' p.body

/-- A path that is made from settled pieces says what they say. -/
theorem components_ofPieces_settle (hwhole : ∀ piece ∈ ps, '/' ∉ piece)
    (hstart : rooted = true ∨ ps.head? ≠ some []) :
    (ofPieces rooted (settle rooted ps)).components = view rooted ps := by
  rw [← view_settle]
  by_cases hnil : settle rooted ps = []
  · rw [hnil]
    cases rooted <;> rfl
  have hhead : rooted = true ∨ (settle rooted ps).head? ≠ some [] := by
    cases rooted with
    | true => exact Or.inl rfl
    | false =>
      have hne := hstart.resolve_left Bool.false_ne_true
      cases ps with
      | nil => exact Or.inr hne
      | cons first rest => exact Or.inr hne
  -- One empty piece alone would leave no text.
  have htext : joinWith '/' (settle rooted ps) ≠ [] := by
    rcases settle_cases rooted ps with h | ⟨hrelative, piece, h⟩ | ⟨above, piece, h, hmoves, -⟩
    · exact absurd h hnil
    · have hne := hhead.resolve_left (by simp [hrelative])
      rw [h] at hne ⊢
      simpa [joinWith] using hne
    · obtain ⟨front, hfront⟩ := Text.exists_joinWith_concat '/' above
      rw [h, hfront]
      intro hempty
      rw [(List.append_eq_nil_iff.mp hempty).2] at hmoves
      cases hmoves
  obtain ⟨hrooted, hpieces⟩ := pieces_ofPieces
    (fun piece hpiece => hwhole piece (settle_subset rooted ps hpiece)) htext hhead
  rw [components_eq_view, hrooted, hpieces]

/-! ## The directory above -/

/-- The directory above a path says what the path says, but for its last component. -/
theorem components_of_parent? (h : p.parent? = some q) :
    p.components ≠ [] ∧ q.components = p.components.dropLast := by
  have hwhole : ∀ piece ∈ settle p.rooted p.pieces, '/' ∉ piece := fun piece hpiece =>
    not_mem_of_mem_pieces (settle_subset _ _ hpiece)
  have hstart : p.rooted = true ∨ (settle p.rooted p.pieces).head? ≠ some [] := by
    cases hrooted : p.rooted with
    | true => exact Or.inl rfl
    | false =>
      cases hpieces : p.pieces with
      | nil => exact Or.inr (by simp [settle])
      | cons first rest =>
        exact Or.inr (by simpa [settle] using ne_nil_of_pieces_eq_cons hrooted hpieces)
  rw [parent?] at h
  split at h
  · cases h
  · next hne =>
    obtain rfl := Option.some.inj h
    rw [components_eq_view p, ← view_settle]
    -- The first piece is the same, unless the last piece was the only one.
    have hfirst : p.rooted = true ∨ (settle p.rooted p.pieces).dropLast.head? ≠ some [] := by
      refine hstart.imp_right fun hhead hdrop => hhead ?_
      obtain ⟨tail, htail⟩ := List.head?_eq_some_iff.mp hdrop
      have hprefix := List.dropLast_prefix (settle p.rooted p.pieces)
      obtain ⟨last, hlast⟩ := htail ▸ hprefix
      rw [← hlast]
      rfl
    rw [components_ofPieces_settle (fun piece hpiece => hwhole piece (List.dropLast_subset _ hpiece))
      hfirst]
    rcases settle_cases p.rooted p.pieces with hnil | ⟨hrooted, piece, heq⟩ |
      ⟨above, piece, heq, hmoves, habove⟩
    · exact absurd hnil hne
    · rw [heq, hrooted]
      exact ⟨List.cons_ne_nil _ _, rfl⟩
    · rw [heq, view_concat hmoves habove, List.dropLast_concat, List.dropLast_concat]
      exact ⟨by simp, rfl⟩

/-- The empty path lies in no directory. -/
theorem parent?_of_components_eq_nil (h : p.components = []) : p.parent? = none := by
  cases hp : p.parent? with
  | none => rfl
  | some q => exact absurd h (components_of_parent? hp).1

/-- A path that a name is appended to is kept, but for idle pieces at its end. -/
theorem parent?_div (hs : IsName s) (p : Path) :
    (p / s).parent? = some (ofPieces p.rooted (settle p.rooted p.pieces)) := by
  obtain ⟨ps, hpieces, hold⟩ := pieces_div hs p
  have hsettle : settle (p / s).rooted (p / s).pieces = ps ++ [s.toList] := by
    rw [hpieces, settle_concat_append hs.moves _ ps (List.forall_mem_nil _)]
  -- An empty piece at the end of the path is idle.
  have hsame : settle p.rooted ps = settle p.rooted p.pieces := by
    rcases hold with hold | hold <;> rw [hold]
    cases hrooted : p.rooted with
    | true => exact (Text.dropEnd_concat idle ps []).symm
    | false =>
      cases ps with
      | nil => exact absurd rfl (ne_nil_of_pieces_eq_cons hrooted hold)
      | cons first rest => exact congrArg (first :: ·) (Text.dropEnd_concat idle rest []).symm
  rw [parent?, hsettle, if_neg (by simp), List.dropLast_concat, rooted_div hs, hsame]

/-- Nothing is idle at the end of a path that ends in a name. -/
theorem parent?_div_div (hr : IsName r) (hs : IsName s) (p : Path) :
    (p / r / s).parent? = some (p / r) := by
  obtain ⟨ps, hpieces, -⟩ := pieces_div hr p
  have hsettle : settle (p / r).rooted (p / r).pieces = (p / r).pieces := by
    rw [hpieces, settle_concat_append hr.moves _ ps (List.forall_mem_nil _)]
  rw [parent?_div hs, hsettle, ofPieces_pieces]

/-- Only the empty path has no components. -/
theorem text_eq_empty_iff : p.text = "" ↔ p.components = [] := by
  constructor
  · intro h
    obtain rfl : p = ⟨""⟩ := congrArg Path.mk h
    rfl
  · intro h
    rw [components] at h
    split at h
    · cases h
    · next hrooted =>
      -- A relative path without components has no pieces.
      have hpieces : p.pieces = [] := by
        cases hps : p.pieces with
        | nil => rfl
        | cons first rest => simp [hps] at h
      have hp := ofPieces_pieces p
      rw [hpieces, Bool.eq_false_iff.mpr hrooted] at hp
      rw [← hp]
      rfl

/-- The directory above is the empty path if there is one component only. -/
theorem text_of_parent?_eq_empty_iff (h : p.parent? = some q) :
    q.text = "" ↔ p.components.length = 1 := by
  obtain ⟨hne, hq⟩ := components_of_parent? h
  have hpos := List.length_pos_of_ne_nil hne
  rw [text_eq_empty_iff, hq, ← List.length_eq_zero_iff, List.length_dropLast]
  omega

/-! ## All directories above -/

theorem ancestorsFrom_succ (n : Nat) (p : Path) :
    ancestorsFrom (n + 1) p =
      p :: (match p.parent? with | none => [] | some q => ancestorsFrom n q) := rfl

/-- There are no more directories above a path than it has components. -/
theorem ancestorsFrom_eq {n : Nat} (h : p.components.length ≤ n) : ancestorsFrom n p = p.ancestors := by
  -- One more step upwards finds nothing more.
  have hstep (m : Nat) (p : Path) (hm : p.components.length ≤ m) :
      ancestorsFrom (m + 1) p = ancestorsFrom m p := by
    induction m generalizing p with
    | zero =>
      rw [ancestorsFrom_succ,
        parent?_of_components_eq_nil (List.length_eq_zero_iff.mp (Nat.le_zero.mp hm))]
      rfl
    | succ m ih =>
      rw [ancestorsFrom_succ, ancestorsFrom_succ]
      cases hp : p.parent? with
      | none => rfl
      | some q =>
        obtain ⟨-, hq⟩ := components_of_parent? hp
        refine congrArg (p :: ·) (ih q ?_)
        rw [hq, List.length_dropLast]
        omega
  induction h with
  | refl => rfl
  | step h ih => rw [hstep _ p h, ih]

/-- The walk upwards goes on from the directory above. -/
theorem ancestors_eq (p : Path) :
    p.ancestors = p :: (match p.parent? with | none => [] | some q => q.ancestors) := by
  rw [← ancestorsFrom_eq (Nat.le_succ _), ancestorsFrom_succ]
  cases hp : p.parent? with
  | none => rfl
  | some q =>
    obtain ⟨-, hq⟩ := components_of_parent? hp
    refine congrArg (p :: ·) (ancestorsFrom_eq ?_)
    rw [hq, List.length_dropLast]
    omega

/-- The directories above a name in a directory are those of that directory, and itself. -/
theorem ancestors_div_div (hr : IsName r) (hs : IsName s) (p : Path) :
    (p / r / s).ancestors = (p / r / s) :: (p / r).ancestors := by
  rw [ancestors_eq, parent?_div_div hr hs]

/-! ## Down by names -/

/-- The path that leads down from a directory by names. -/
def downBy (dir : Path) (names : List String) : Path :=
  names.foldl (fun (p : Path) (s : String) => p / s) dir

theorem downBy_concat (dir : Path) (names : List String) (s : String) :
    dir.downBy (names ++ [s]) = dir.downBy names / s :=
  List.foldl_concat ..

theorem downBy_append (dir : Path) (above names : List String) :
    dir.downBy (above ++ names) = (dir.downBy above).downBy names :=
  List.foldl_append ..

/-- Appending a path of names goes down by these names. -/
theorem join_ofNames_eq_downBy {names : List String} (hne : names ≠ []) (h : ∀ s ∈ names, IsName s)
    (dir : Path) : dir.join (ofNames names) = dir.downBy names := by
  induction names using List.reverseRecOn with
  | nil => exact absurd rfl hne
  | append_singleton names s ih =>
    rcases eq_or_ne names [] with rfl | hne
    · exact join_ofNames_singleton (h s (by simp)) dir
    · rw [join_ofNames_concat h, downBy_concat,
        ih hne fun r hr => h r (List.mem_append_left _ hr)]

/-- Going down by names adds them as components. -/
theorem components_downBy {names : List String} (h : ∀ s ∈ names, IsName s) (dir : Path) :
    (dir.downBy names).components = dir.components ++ names.map Component.name := by
  induction names using List.reverseRecOn with
  | nil => exact (List.append_nil _).symm
  | append_singleton names s ih =>
    rw [downBy_concat, components_div (h s (by simp)),
      ih fun r hr => h r (List.mem_append_left _ hr), List.map_append, List.append_assoc]
    rfl

/-- Above a path of names stand the paths of fewer names, and then what stands above the directory
that they lead down from. -/
theorem ancestors_downBy_concat {names : List String} (hr : IsName r)
    (h : ∀ t ∈ names ++ [s], IsName t) (p : Path) :
    ((p / r).downBy (names ++ [s])).ancestors =
      ((p / r).downBy (names ++ [s])) :: ((p / r).downBy names).ancestors := by
  rw [downBy_concat]
  rcases List.eq_nil_or_concat names with rfl | ⟨above, t, rfl⟩
  · exact ancestors_div_div hr (h s (by simp)) p
  · rw [List.concat_eq_append] at h ⊢
    rw [downBy_concat]
    exact ancestors_div_div (h t (by simp)) (h s (by simp)) _

end Path

end SmaliView
