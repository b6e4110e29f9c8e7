import SmaliView.Proofs.Files.Names
import Mathlib.Data.List.Induction
import Mathlib.Data.List.TakeWhile

/-!
# Paths from segments

A path that is built from segments has them as its pieces, one after the other. An empty segment
leaves no trace in it but a separator at its end, and another extension takes that one away. If the
segments are names, the path leads down by them.
-/

namespace SmaliView

open Text (cut joinWith dropEnd)

theorem Text.map_toList_ofList (ps : List (List Char)) :
    (ps.map String.ofList).map String.toList = ps := by
  rw [List.map_map]
  exact (List.map_congr_left fun _ _ => String.toList_ofList).trans (List.map_id _)

namespace Path

variable {s : String} {names : List String}

/-! ## Paths of names -/

theorem ofNames_concat (names : List String) (s : String) :
    ofNames (names ++ [s]) = ofNames names / s := by
  rw [ofNames, List.foldl_append]
  rfl

/-- A path of names is relative. -/
theorem rooted_ofNames (h : ∀ s ∈ names, IsName s) : (ofNames names).rooted = false := by
  induction names using List.reverseRecOn with
  | nil => rfl
  | append_singleton names s ih =>
    rw [ofNames_concat, rooted_div (h s (by simp))]
    exact ih fun r hr => h r (List.mem_append_left _ hr)

/-- The pieces of a path of names are the names. -/
theorem pieces_ofNames (h : ∀ s ∈ names, IsName s) :
    (ofNames names).pieces = names.map String.toList := by
  induction names using List.reverseRecOn with
  | nil => rfl
  | append_singleton names s ih =>
    have hnames : ∀ r ∈ names, IsName r := fun r hr => h r (List.mem_append_left _ hr)
    obtain ⟨ps, hnew, hold⟩ := pieces_div (h s (by simp)) (ofNames names)
    rw [ofNames_concat, hnew, List.map_append, List.map_singleton]
    rcases hold with hold | hold
    · rw [← hold, ih hnames]
    · -- No name is empty.
      have hmem : [] ∈ names.map String.toList := by
        rw [← ih hnames, hold]
        exact List.mem_append_right _ (List.mem_singleton_self _)
      obtain ⟨r, hr, hempty⟩ := List.mem_map.mp hmem
      exact absurd hempty (hnames r hr).ne_nil

theorem ofPiece_of_isName (hs : IsName s) : Component.ofPiece s.toList = .name s := by
  rw [Component.ofPiece, if_neg hs.descends, String.ofList_toList]

theorem ofFirst_of_isName (hs : IsName s) : Component.ofFirst s.toList = .name s := by
  rw [Component.ofFirst, if_neg, ofPiece_of_isName hs]
  intro hdot
  have hmoves := hs.moves
  rw [hdot] at hmoves
  cases hmoves

theorem inner_names (h : ∀ s ∈ names, IsName s) :
    inner (names.map String.toList) = names.map Component.name := by
  have hkeep : ∀ piece ∈ names.map String.toList, (!idle piece) = true := by
    intro piece hpiece
    obtain ⟨r, hr, rfl⟩ := List.mem_map.mp hpiece
    rw [(h r hr).moves]
    rfl
  rw [inner, List.filter_eq_self.mpr hkeep, List.map_map]
  exact List.map_congr_left fun r hr => ofPiece_of_isName (h r hr)

/-- The components of a path of names are the names. -/
theorem components_ofNames (h : ∀ s ∈ names, IsName s) :
    (ofNames names).components = names.map Component.name := by
  rw [components, rooted_ofNames h, if_neg Bool.false_ne_true, pieces_ofNames h]
  cases names with
  | nil => rfl
  | cons s rest =>
    show Component.ofFirst s.toList :: inner (rest.map String.toList) = _
    rw [ofFirst_of_isName (h s (List.mem_cons_self ..)),
      inner_names fun r hr => h r (List.mem_cons_of_mem _ hr)]
    rfl

theorem inner_concat (hs : IsName s) (ps : List (List Char)) :
    inner (ps ++ [s.toList]) = inner ps ++ [.name s] := by
  rw [inner, inner, List.filter_append, List.filter_cons_of_pos (by simp [hs.moves]),
    List.filter_nil, List.map_append, List.map_singleton, ofPiece_of_isName hs]

/-- A separator at the end says nothing. -/
theorem inner_closed (ps : List (List Char)) : inner (ps ++ [[]]) = inner ps := by
  rw [inner, List.filter_append, List.filter_cons_of_neg (by decide), List.filter_nil,
    List.append_nil, inner]

/-- A name that is appended becomes the last component. -/
theorem components_div (hs : IsName s) (p : Path) :
    (p / s).components = p.components ++ [.name s] := by
  obtain ⟨ps, hpieces, hold⟩ := pieces_div hs p
  have hinner : inner p.pieces = inner ps := by
    rcases hold with hold | hold <;> rw [hold]
    exact inner_closed ps
  rw [components, components, hpieces, rooted_div hs]
  cases hrooted : p.rooted with
  | true =>
    rw [if_pos rfl, if_pos rfl, inner_concat hs, hinner]
    rfl
  | false =>
    rw [if_neg Bool.false_ne_true, if_neg Bool.false_ne_true]
    cases ps with
    | nil =>
      -- A relative path does not start with an empty piece, so nothing stood before.
      have hnil : p.pieces = [] :=
        hold.resolve_right fun h => ne_nil_of_pieces_eq_cons hrooted h rfl
      rw [hnil]
      exact congrArg ([·]) (ofFirst_of_isName hs)
    | cons piece ps =>
      rcases hold with hold | hold <;> rw [hold] <;>
        simp only [List.cons_append, inner_concat hs, inner_closed]

/-- The name that was appended is the file name. -/
theorem fileName?_div (hs : IsName s) (p : Path) : (p / s).fileName? = some s := by
  rw [fileName?, components_div hs, List.getLast?_concat]

/-- Pieces that end in a name make a path that ends in it. -/
theorem exists_ofPieces_concat (hs : IsName s) (rooted : Bool) (ps : List (List Char)) :
    ∃ dir : Path, ofPieces rooted (ps ++ [s.toList]) = dir / s := by
  obtain ⟨front, hjoin, hfront⟩ : ∃ front, joinWith '/' (ps ++ [s.toList]) = front ++ s.toList ∧
      (front = [] ∨ front.getLast? = some '/') := by
    rcases eq_or_ne ps [] with rfl | hne
    · exact ⟨[], rfl, Or.inl rfl⟩
    · refine ⟨joinWith '/' ps ++ ['/'], ?_, Or.inr List.getLast?_concat⟩
      rw [Text.joinWith_concat '/' hne, List.append_assoc, List.singleton_append]
  -- What stands before the last piece is empty or ends in a separator, so that none is added.
  have hclosed : ((if rooted then ['/'] else []) ++ front) = [] ∨
      ((if rooted then ['/'] else []) ++ front).getLast? = some '/' := by
    rcases hfront with rfl | hfront
    · cases rooted
      · exact Or.inl rfl
      · exact Or.inr rfl
    · exact Or.inr (by rw [List.getLast?_append, hfront]; rfl)
  refine ⟨⟨String.ofList ((if rooted then ['/'] else []) ++ front)⟩, ?_⟩
  have htext := text_div hs ⟨String.ofList ((if rooted then ['/'] else []) ++ front)⟩
  rw [String.toList_ofList, if_pos hclosed, List.append_nil] at htext
  refine congrArg Path.mk (String.toList_inj.mp ?_)
  rw [String.toList_ofList, hjoin, ← List.append_assoc]
  exact htext.symm

/-! ## The text -/

/-- A piece of a path: it is not empty and holds no separator. -/
structure IsSegment (s : String) : Prop where
  whole : '/' ∉ s.toList
  ne_nil : s.toList ≠ []

theorem IsName.isSegment (h : IsName s) : IsSegment s := ⟨h.whole, h.ne_nil⟩

theorem not_rooted_of_not_mem (h : '/' ∉ s.toList) : (Path.mk s).rooted = false := by
  cases hs : s.toList with
  | nil => simp [rooted, hs]
  | cons c cs =>
    have hc : c ≠ '/' := by
      rintro rfl
      exact h (by simp [hs])
    simpa [rooted, hs] using hc

theorem eq_of_toList_text {p q : Path} (h : p.text.toList = q.text.toList) : p = q := by
  obtain ⟨text⟩ := p
  exact congrArg Path.mk (String.toList_inj.mp h)

/-- What is joined from segments ends in the last one, so that no separator stands at its end. -/
theorem not_closed_joinWith (hne : names ≠ []) (h : ∀ r ∈ names, IsSegment r) :
    joinWith '/' (names.map String.toList) ≠ [] ∧
      (joinWith '/' (names.map String.toList)).getLast? ≠ some '/' := by
  obtain ⟨init, last, rfl⟩ := (List.eq_nil_or_concat names).resolve_left hne
  rw [List.concat_eq_append] at h ⊢
  have hlast := h last (by simp)
  obtain ⟨front, hfront⟩ := Text.exists_joinWith_concat '/' (init.map String.toList)
  rw [List.map_append, List.map_singleton, hfront]
  constructor
  · simp [hlast.ne_nil]
  · rw [List.getLast?_append]
    cases hend : last.toList.getLast? with
    | none => exact absurd (List.getLast?_eq_none_iff.mp hend) hlast.ne_nil
    | some c =>
      intro hc
      obtain rfl : c = '/' := by simpa using hc
      exact hlast.whole (List.mem_of_getLast? hend)

/-- A path of segments is the segments with separators between them. -/
theorem text_ofNames (h : ∀ r ∈ names, IsSegment r) :
    (ofNames names).text.toList = joinWith '/' (names.map String.toList) := by
  induction names using List.reverseRecOn with
  | nil => rfl
  | append_singleton names s ih =>
    have hnames : ∀ r ∈ names, IsSegment r := fun r hr => h r (List.mem_append_left _ hr)
    have hs : IsSegment s := h s (by simp)
    have htext := text_join (not_rooted_of_not_mem hs.whole) (ofNames names)
    rw [ih hnames] at htext
    rw [ofNames_concat]
    refine htext.trans ?_
    rcases eq_or_ne names [] with rfl | hne
    · simp [joinWith]
    · obtain ⟨hnil, hlast⟩ := not_closed_joinWith hne hnames
      rw [List.map_append, List.map_singleton, Text.joinWith_concat '/' (by simp [hne]),
        if_neg (by simp [hnil, hlast])]
      simp

theorem ofNames_eq_ofPieces (h : ∀ r ∈ names, IsSegment r) :
    ofNames names = ofPieces false (names.map String.toList) := by
  refine eq_of_toList_text ?_
  rw [text_ofNames h, ofPieces, String.toList_ofList]
  rfl

/-- The separator that a path is given before something is appended to it. -/
def closing (text : List Char) : List Char :=
  if text = [] ∨ text.getLast? = some '/' then [] else ['/']

/-- Whether a path is closed is decided at its end. -/
theorem closing_append (front : List Char) {text : List Char} (hne : text ≠ []) :
    closing (front ++ text) = closing text := by
  have hlast : (front ++ text).getLast? = text.getLast? := by
    obtain ⟨init, c, rfl⟩ := (List.eq_nil_or_concat text).resolve_left hne
    rw [List.concat_eq_append, ← List.append_assoc, List.getLast?_concat, List.getLast?_concat]
  rw [closing, closing, hlast]
  simp [hne]

/-- A path is closed once. -/
theorem closing_closing (text : List Char) : closing (text ++ closing text) = [] := by
  by_cases h : text = [] ∨ text.getLast? = some '/'
  · rw [closing, closing, if_pos h, List.append_nil, if_pos h]
  · rw [closing, closing, if_neg h, if_pos (by simp)]

/-- Appending relative paths in turn is appending them at once. -/
theorem join_assoc {q r : Path} (hq : q.rooted = false) (hr : r.rooted = false) (p : Path) :
    (p.join q).join r = p.join (q.join r) := by
  have htext {a b : Path} (hb : b.rooted = false) :
      (a.join b).text.toList = a.text.toList ++ closing a.text.toList ++ b.text.toList :=
    text_join hb a
  refine eq_of_toList_text ?_
  rw [htext hr, htext hq, htext ((rooted_join hr q).trans hq), htext hr]
  -- If nothing stands in the middle, the separator before it is not doubled.
  rcases eq_or_ne q.text.toList [] with hnil | hne
  · rw [hnil, List.append_nil, closing_closing]
    simp [closing]
  · rw [closing_append _ hne]
    simp

theorem empty_join {q : Path} (hq : q.rooted = false) : (Path.mk "").join q = q :=
  eq_of_toList_text (text_join hq ⟨""⟩)

/-- A directory, and below it a path of names: one name after the other. -/
theorem join_ofNames_concat (h : ∀ r ∈ names ++ [s], IsName r) (dir : Path) :
    dir.join (ofNames (names ++ [s])) = dir.join (ofNames names) / s := by
  have hs : IsName s := h s (by simp)
  rw [ofNames_concat]
  exact (join_assoc (rooted_ofNames fun r hr => h r (List.mem_append_left _ hr)) hs.not_rooted
    dir).symm

theorem join_ofNames_singleton (hs : IsName s) (dir : Path) :
    dir.join (ofNames [s]) = dir / s :=
  congrArg dir.join (empty_join hs.not_rooted)

/-- A path of names below a name is the path of all of them. -/
theorem join_ofNames (hne : names ≠ []) (h : ∀ r ∈ s :: names, IsName r) :
    (Path.mk s).join (ofNames names) = ofNames (s :: names) := by
  have hs : IsName s := h s (List.mem_cons_self ..)
  have hone : ofNames [s] = ⟨s⟩ := empty_join hs.not_rooted
  induction names using List.reverseRecOn with
  | nil => exact absurd rfl hne
  | append_singleton names r ih =>
    have hr : ∀ r' ∈ names ++ [r], IsName r' := fun r' hr' => h r' (List.mem_cons_of_mem _ hr')
    have hold : ∀ r' ∈ s :: names, IsName r' := by
      intro r' hr'
      rw [← List.cons_append] at h
      exact h r' (List.mem_append_left _ hr')
    -- A single name is appended to the first, more names go on from a path of names.
    rcases eq_or_ne names [] with rfl | hnames
    · have hlast := join_ofNames_singleton (hr r (by simp)) ⟨s⟩
      rw [← hone] at hlast
      exact hone ▸ hlast
    · rw [join_ofNames_concat hr, ih hnames hold, ← List.cons_append, ofNames_concat (s :: names)]

theorem text_ofNames_concat (names : List String) (hs : '/' ∉ s.toList) :
    (ofNames (names ++ [s])).text.toList =
      (ofNames names).text.toList ++ closing (ofNames names).text.toList ++ s.toList := by
  rw [ofNames_concat]
  exact text_join (not_rooted_of_not_mem hs) (ofNames names)

/-- Of the empty segments at most one leaves a trace: the separator at the end. -/
theorem text_ofNames_filter (h : ∀ r ∈ names, '/' ∉ r.toList) :
    ∃ tail, (ofNames names).text.toList =
        (ofNames (names.filter (· ≠ ""))).text.toList ++ tail ∧
      (tail = [] ∨ tail = ['/'] ∧ names.filter (· ≠ "") ≠ []) := by
  induction names using List.reverseRecOn with
  | nil => exact ⟨[], rfl, Or.inl rfl⟩
  | append_singleton names s ih =>
    obtain ⟨tail, htail, hcases⟩ := ih fun r hr => h r (List.mem_append_left _ hr)
    have hs : '/' ∉ s.toList := h s (by simp)
    have hkept : ∀ r ∈ names.filter (· ≠ ""), IsSegment r := by
      intro r hr
      obtain ⟨hmem, hne⟩ := List.mem_filter.mp hr
      refine ⟨h r (List.mem_append_left _ hmem), fun hnil => ?_⟩
      simp [String.toList_eq_nil_iff.mp hnil] at hne
    have hopen : names.filter (· ≠ "") ≠ [] →
        closing (ofNames (names.filter (· ≠ ""))).text.toList = ['/'] := by
      intro hne
      obtain ⟨hnil, hlast⟩ := not_closed_joinWith hne hkept
      rw [text_ofNames hkept, closing, if_neg (not_or.mpr ⟨hnil, hlast⟩)]
    -- Whether or not the separator is there already, it is there before the next segment.
    have hclosed : (ofNames names).text.toList ++ closing (ofNames names).text.toList =
        (ofNames (names.filter (· ≠ ""))).text.toList ++
          closing (ofNames (names.filter (· ≠ ""))).text.toList := by
      rcases hcases with rfl | ⟨rfl, hne⟩
      · rw [htail, List.append_nil]
      · rw [htail, hopen hne, closing, if_pos (Or.inr (by simp)), List.append_nil]
    rw [text_ofNames_concat names hs, hclosed, List.filter_append]
    -- An empty segment closes the path, any other one is appended to the closed path.
    by_cases hempty : s = ""
    · subst hempty
      refine ⟨closing (ofNames (names.filter (· ≠ ""))).text.toList, by simp, ?_⟩
      rcases eq_or_ne (names.filter (· ≠ "")) [] with hnil | hne
      · exact Or.inl (by rw [hnil]; rfl)
      · exact Or.inr ⟨hopen hne, by simpa using hne⟩
    · refine ⟨[], ?_, Or.inl rfl⟩
      have hself : [s].filter (· ≠ "") = [s] := by simp [hempty]
      rw [hself, text_ofNames_concat _ hs, List.append_nil]

/-! ## Pieces -/

theorem head?_joinWith {ps : List (List Char)} (hwhole : ∀ piece ∈ ps, '/' ∉ piece)
    (hstart : ps.head? ≠ some []) : (joinWith '/' ps).head? ≠ some '/' := by
  cases ps with
  | nil => simp [joinWith]
  | cons piece rest =>
    have hne : piece ≠ [] := by simpa using hstart
    obtain ⟨c, cs, rfl⟩ := List.exists_cons_of_ne_nil hne
    have hc : c ≠ '/' := by
      rintro rfl
      exact hwhole _ (List.mem_cons_self ..) (List.mem_cons_self ..)
    cases rest <;> simpa [joinWith] using hc

/-- A path has the pieces that it is made from, if it starts as it should. -/
theorem pieces_ofPieces {rooted : Bool} {ps : List (List Char)}
    (hwhole : ∀ piece ∈ ps, '/' ∉ piece) (hne : joinWith '/' ps ≠ [])
    (hstart : rooted = true ∨ ps.head? ≠ some []) :
    (ofPieces rooted ps).rooted = rooted ∧ (ofPieces rooted ps).pieces = ps := by
  have hrooted : (ofPieces rooted ps).rooted = rooted := by
    cases rooted with
    | true => simp [Path.rooted, ofPieces]
    | false =>
      have hhead := head?_joinWith hwhole (hstart.resolve_left Bool.false_ne_true)
      simpa [Path.rooted, ofPieces] using hhead
  have hbody : (ofPieces rooted ps).body = joinWith '/' ps := by
    rw [body, hrooted]
    cases rooted <;> simp [ofPieces]
  have hps : ps ≠ [] := by
    rintro rfl
    exact hne rfl
  -- Cutting gives back the pieces, since none holds a separator.
  refine ⟨hrooted, ?_⟩
  rw [pieces, hbody, if_neg hne, Text.cut_joinWith hps hwhole]

/-- A separator at the end is an empty last piece. -/
theorem pieces_of_closed (hne : names ≠ []) (h : ∀ r ∈ names, IsSegment r) :
    (ofPieces false (names.map String.toList ++ [[]])).rooted = false ∧
      (ofPieces false (names.map String.toList ++ [[]])).pieces =
        names.map String.toList ++ [[]] := by
  obtain ⟨s, rest, rfl⟩ := List.exists_cons_of_ne_nil hne
  refine pieces_ofPieces (fun piece hpiece => ?_) ?_ (Or.inr ?_)
  · rcases List.mem_append.mp hpiece with hmem | hmem
    · obtain ⟨r, hr, rfl⟩ := List.mem_map.mp hmem
      exact (h r hr).whole
    · rw [List.mem_singleton.mp hmem]
      exact List.not_mem_nil
  · rw [Text.joinWith_concat '/' (by simp)]
    simp
  · simpa using (h s (List.mem_cons_self ..)).ne_nil

/-! ## Another extension -/

/-- The stem of a name has characters of the name only. -/
theorem mem_of_mem_splitName {name : List Char} {c : Char} (h : c ∈ (splitName name).1) :
    c ∈ name := by
  have hstem : (splitName name).1 = name ∨
      (splitName name).1 = (name.reverse.dropWhile (· != '.')).reverse.dropLast := by
    rw [splitName]
    split
    · exact Or.inl rfl
    · exact Or.inr rfl
  rcases hstem with hstem | hstem
  · exact hstem ▸ h
  · rw [hstem] at h
    have hmem := List.mem_reverse.mp ((List.dropLast_subset _) h)
    exact List.mem_reverse.mp ((List.dropWhile_sublist _).subset hmem)

/-- Without a dot there is no extension. -/
theorem splitName_of_undotted {name : List Char} (h : '.' ∉ name) :
    splitName name = (name, none) := by
  have hnone : name.reverse.dropWhile (· != '.') = [] := by
    rw [List.dropWhile_eq_nil_iff]
    intro c hc
    simpa using fun heq : c = '.' => h (heq ▸ List.mem_reverse.mp hc)
  rw [splitName, hnone]
  rfl

/-- What follows the last dot is the extension, unless the dot comes first. -/
theorem splitName_append (stem : List Char) {ext : List Char} (hext : '.' ∉ ext) :
    splitName (stem ++ '.' :: ext) =
      if stem = [] then (stem ++ '.' :: ext, none) else (stem, some ext) := by
  have hreverse : (stem ++ '.' :: ext).reverse = ext.reverse ++ '.' :: stem.reverse := by simp
  have hdotless : ∀ c ∈ ext.reverse, (c != '.') = true := by
    intro c hc
    simpa using fun heq : c = '.' => hext (heq ▸ List.mem_reverse.mp hc)
  -- Seen from the end, the extension reaches up to the first dot.
  have htake : (stem ++ '.' :: ext).reverse.takeWhile (· != '.') = ext.reverse := by
    rw [hreverse, List.takeWhile_append_of_pos hdotless, List.takeWhile_cons_of_neg (by simp),
      List.append_nil]
  have hdrop : (stem ++ '.' :: ext).reverse.dropWhile (· != '.') = '.' :: stem.reverse := by
    rw [hreverse, List.dropWhile_append_of_pos hdotless, List.dropWhile_cons_of_neg (by simp)]
  have hbefore : ('.' :: stem.reverse).reverse.dropLast = stem := by simp
  rw [splitName, htake, hdrop, hbefore, List.reverse_reverse]
  cases stem with
  | nil => rfl
  | cons c stem => rfl

/-- A name with another extension is a name. -/
theorem isName_extended (hs : IsName s) {ext : List Char} (hext : 1 < ext.length)
    (hwhole : '/' ∉ ext) : IsName (String.ofList ((splitName s.toList).1 ++ '.' :: ext)) := by
  -- The name is too long for one that stays or goes up.
  have hlength : 2 < ((splitName s.toList).1 ++ '.' :: ext).length := by
    rw [List.length_append, List.length_cons]
    omega
  refine ⟨?_, ?_, fun hup => ?_⟩
  · rw [String.toList_ofList, List.mem_append, not_or, List.mem_cons, not_or]
    exact ⟨fun h => hs.whole (mem_of_mem_splitName h), by decide, hwhole⟩
  · rw [String.toList_ofList, Bool.eq_false_iff]
    intro hidle
    rw [idle, Bool.or_eq_true, beq_iff_eq, beq_iff_eq] at hidle
    rcases hidle with h | h <;> simp [h] at hlength
  · rw [String.toList_ofList] at hup
    simp [hup] at hlength

/-- The last piece that moves is given the extension. -/
theorem withExtension_eq {p : Path} (hp : p.fileName? = some s) {ext : String}
    (hext : 1 < ext.toList.length) :
    p.withExtension ext = ofPieces p.rooted
      ((settle p.rooted p.pieces).dropLast ++ [(splitName s.toList).1 ++ '.' :: ext.toList]) := by
  have hempty : ext.isEmpty = false := by
    rw [Bool.eq_false_iff, ne_eq, String.isEmpty_iff]
    rintro rfl
    exact absurd hext (by decide)
  rw [withExtension, hp]
  dsimp only
  rw [hempty, if_neg Bool.false_ne_true]

/-- The extension of a path that ends in a name is what follows its stem. -/
theorem exists_fileName?_withExtension {p : Path} (hp : p.fileName? = some s) (ext : String)
    (hext : 1 < ext.toList.length) (hwhole : '/' ∉ ext.toList) :
    ∃ stem, (p.withExtension ext).fileName? = some (String.ofList (stem ++ '.' :: ext.toList)) := by
  have hlast := isName_extended (isName_of_fileName? hp) hext hwhole
  obtain ⟨dir, hdir⟩ := exists_ofPieces_concat hlast p.rooted
    (settle p.rooted p.pieces).dropLast
  rw [String.toList_ofList] at hdir
  refine ⟨(splitName s.toList).1, ?_⟩
  rw [withExtension_eq hp hext, hdir, fileName?_div hlast]

/-- The name of a file of Java source. -/
def javaName (s : String) : String :=
  String.ofList ((splitName s.toList).1 ++ '.' :: "java".toList)

/-- The Java file of a name is its stem with the extension `java`. -/
theorem toList_javaName (s : String) :
    (javaName s).toList = (splitName s.toList).1 ++ '.' :: "java".toList :=
  String.toList_ofList ..

/-- The Java file of a name has a name. -/
theorem isName_javaName (hs : IsName s) : IsName (javaName s) :=
  isName_extended hs (by decide) (by decide)

theorem dropEnd_idle {f : List Char → Bool} {ps : List (List Char)} (h : ∀ piece ∈ ps, f piece = true) :
    dropEnd f ps = [] := by
  rw [dropEnd, List.reverse_eq_nil_iff, List.dropWhile_eq_nil_iff]
  exact fun piece hpiece => h piece (List.mem_reverse.mp hpiece)

/-- Only the idle pieces at the end are taken away. -/
theorem settle_concat_append {piece : List Char} (hmoves : idle piece = false) (rooted : Bool)
    (above : List (List Char)) {idles : List (List Char)}
    (hidles : ∀ piece ∈ idles, idle piece = true) :
    settle rooted (above ++ piece :: idles) = above ++ [piece] := by
  -- Idle pieces are dropped from the end until one moves.
  have hdrop (ps : List (List Char)) : dropEnd idle (ps ++ piece :: idles) = ps ++ [piece] := by
    rw [dropEnd, List.reverse_append, List.reverse_cons, List.append_assoc,
      List.dropWhile_append_of_pos fun p hp => hidles p (List.mem_reverse.mp hp),
      List.singleton_append, List.dropWhile_cons_of_neg (by simp [hmoves]), List.reverse_cons,
      List.reverse_reverse]
  rw [settle.eq_def]
  split
  · exact hdrop above
  · cases above with
    | nil => exact congrArg (piece :: ·) (dropEnd_idle hidles)
    | cons first above => exact congrArg (first :: ·) (hdrop above)

/-- There are no idle pieces at the end of names. -/
theorem settle_names (h : ∀ r ∈ names, IsName r) :
    settle false (names.map String.toList) = names.map String.toList := by
  rcases List.eq_nil_or_concat names with rfl | ⟨above, s, rfl⟩
  · rfl
  · rw [List.concat_eq_append, List.map_append, List.map_singleton,
      settle_concat_append (h s (by simp)).moves false _ (List.forall_mem_nil _)]

/-- Only the last name changes. -/
theorem withExtension_ofNames_concat (h : ∀ r ∈ names ++ [s], IsName r) {ext : String}
    (hext : 1 < ext.toList.length) (hwhole : '/' ∉ ext.toList) :
    (ofNames (names ++ [s])).withExtension ext =
      ofNames (names ++ [String.ofList ((splitName s.toList).1 ++ '.' :: ext.toList)]) := by
  have hname : (ofNames (names ++ [s])).fileName? = some s := by
    rw [fileName?, components_ofNames h, List.map_append, List.map_singleton,
      List.getLast?_concat]
  have hlast := isName_extended (h s (by simp)) hext hwhole
  have hsegments : ∀ r ∈ names ++ [String.ofList ((splitName s.toList).1 ++ '.' :: ext.toList)],
      IsSegment r := by
    intro r hr
    rcases List.mem_append.mp hr with hr | hr
    · exact (h r (List.mem_append_left _ hr)).isSegment
    · rw [List.mem_singleton.mp hr]
      exact hlast.isSegment
  rw [withExtension_eq hname hext, ofNames_eq_ofPieces hsegments, rooted_ofNames h,
    pieces_ofNames h, settle_names h, List.map_append, List.map_singleton, List.dropLast_concat,
    List.map_append, List.map_singleton, String.toList_ofList]

/-- The extension is put in place at the last name. -/
theorem withExtension_ofNames (h : ∀ r ∈ names ++ [s], IsName r) :
    (ofNames (names ++ [s])).withExtension "java" = ofNames (names ++ [javaName s]) :=
  withExtension_ofNames_concat h (by decide) (by decide)

/-- A separator at the end of a path that ends in a name makes no difference to another extension.
-/
theorem withExtension_of_closed {p q : Path} (hrooted : p.rooted = q.rooted)
    (hpieces : p.pieces = q.pieces ++ [[]]) (hname : q.fileName? = some s) (ext : String) :
    p.withExtension ext = q.withExtension ext := by
  have hdrop (rest : List (List Char)) : dropEnd idle (rest ++ [[]]) = dropEnd idle rest := by
    rw [dropEnd, List.reverse_concat, List.dropWhile_cons_of_pos rfl, dropEnd]
  have hne : q.pieces ≠ [] := by
    intro hnil
    rw [fileName?, components, hnil] at hname
    cases hq : q.rooted <;> simp [hq, inner] at hname
  obtain ⟨piece, rest, hq⟩ := List.exists_cons_of_ne_nil hne
  have hcomponents : p.components = q.components := by
    rw [components, components, hrooted, hpieces, inner_closed, hq, List.cons_append]
    dsimp only
    rw [inner_closed]
  -- The empty piece at the end is dropped before the last name is replaced.
  have hsettle : settle p.rooted p.pieces = settle q.rooted q.pieces := by
    have hwhole := hdrop (piece :: rest)
    rw [List.cons_append] at hwhole
    simp only [settle.eq_def, hrooted, hpieces, hdrop, hwhole, hq, List.cons_append]
  have hname' : p.fileName? = some s := by
    rw [fileName?, hcomponents, ← fileName?, hname]
  rw [withExtension, withExtension, hname, hname', hsettle, hrooted]

/-- The names of a path whose last one is that of a file of Java source. -/
def javaNames (names : List String) : List String :=
  names.dropLast ++ (names.getLast?.map javaName).toList

theorem javaNames_concat (names : List String) (s : String) :
    javaNames (names ++ [s]) = names ++ [javaName s] := by
  simp [javaNames]

/-- The names on the way to a Java file are names. -/
theorem isName_of_mem_javaNames (h : ∀ r ∈ names, IsName r) : ∀ r ∈ javaNames names, IsName r := by
  intro r hr
  rcases List.eq_nil_or_concat names with rfl | ⟨init, last, rfl⟩
  · cases hr
  · rw [List.concat_eq_append] at h hr
    rw [javaNames_concat, List.mem_append, List.mem_singleton] at hr
    rcases hr with hr | rfl
    · exact h r (List.mem_append_left _ hr)
    · exact isName_javaName (h last (by simp))

/-- A path that is built from names and empty segments, as a file of Java source: it goes by the
names, of which the last one has the extension. -/
theorem withExtension_ofNames_filter (h : ∀ r ∈ names, r = "" ∨ IsName r) :
    (ofNames names).withExtension "java" = ofNames (javaNames (names.filter (· ≠ ""))) := by
  have hwhole : ∀ r ∈ names, '/' ∉ r.toList := by
    intro r hr
    rcases h r hr with rfl | hname
    · simp
    · exact hname.whole
  have hkept : ∀ r ∈ names.filter (· ≠ ""), IsName r := by
    intro r hr
    obtain ⟨hmem, hne⟩ := List.mem_filter.mp hr
    exact (h r hmem).resolve_left (by simpa using hne)
  obtain ⟨tail, htext, hcases⟩ := text_ofNames_filter hwhole
  generalize names.filter (· ≠ "") = kept at *
  rcases List.eq_nil_or_concat kept with rfl | ⟨init, last, rfl⟩
  · -- There is no name at all, and the path is empty.
    obtain rfl : tail = [] := hcases.resolve_right fun hslash => hslash.2 rfl
    have hempty : ofNames names = ⟨""⟩ := eq_of_toList_text htext
    rw [hempty]
    rfl
  rw [List.concat_eq_append] at *
  have hnamed : (ofNames (init ++ [last])).fileName? = some last := by
    rw [fileName?, components_ofNames hkept, List.map_append, List.map_singleton,
      List.getLast?_concat]
  have hplain : (ofNames (init ++ [last])).withExtension "java" =
      ofNames (javaNames (init ++ [last])) := by
    rw [withExtension_ofNames hkept, javaNames_concat]
  have hsegments := fun r hr => (hkept r hr).isSegment
  have hne : (init ++ [last]).map String.toList ≠ [] := by simp
  rw [← hplain]
  -- The path is that of the names, or that with a separator at its end.
  rcases hcases with rfl | ⟨rfl, -⟩
  · rw [eq_of_toList_text (htext.trans (List.append_nil _))]
  · have hclosed : ofNames names = ofPieces false ((init ++ [last]).map String.toList ++ [[]]) := by
      refine eq_of_toList_text ?_
      rw [htext, text_ofNames hsegments, ofPieces, String.toList_ofList,
        Text.joinWith_concat '/' hne]
      rfl
    obtain ⟨hrooted, hpieces⟩ := pieces_of_closed (by simp) hsegments
    rw [hclosed]
    refine withExtension_of_closed ?_ ?_ hnamed "java"
    · rw [hrooted, rooted_ofNames hkept]
    · rw [hpieces, pieces_ofNames hkept]

end Path

end SmaliView
