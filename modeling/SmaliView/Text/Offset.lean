/-!
# Byte offsets

Searches and slices that count in UTF-8 bytes. An offset that comes from a search lies between two
characters, and so do sums of such offsets: `upTo?_size` is what a slice needs.
-/

namespace SmaliView.Text

def size : List Char → Nat
  | [] => 0
  | c :: cs => c.utf8Size + size cs

/-- Where the first occurrence of a character starts. -/
def offset? (ch : Char) : List Char → Option Nat
  | [] => none
  | c :: cs => if c = ch then some 0 else (offset? ch cs).map (c.utf8Size + ·)

/-- What stands before and after the last separator. -/
def cutLast? (sep : Char) : List Char → Option (List Char × List Char)
  | [] => none
  | c :: cs =>
    match cutLast? sep cs with
    | some (before, after) => some (c :: before, after)
    | none => if c = sep then some ([], cs) else none

/-- The text up to an offset; `none` past the end and inside a character. -/
def upTo? : Nat → List Char → Option (List Char)
  | 0, _ => some []
  | _ + 1, [] => none
  | n + 1, c :: cs =>
    if c.utf8Size ≤ n + 1 then (upTo? (n + 1 - c.utf8Size) cs).map (c :: ·) else none

/-! ## Sizes -/

@[simp] theorem size_nil : size [] = 0 := rfl

@[simp] theorem size_cons (c : Char) (cs : List Char) : size (c :: cs) = c.utf8Size + size cs := rfl

@[simp] theorem size_append (as bs : List Char) : size (as ++ bs) = size as + size bs := by
  induction as with
  | nil => rw [List.nil_append, size_nil, Nat.zero_add]
  | cons c as ih => rw [List.cons_append, size_cons, size_cons, ih, Nat.add_assoc]

/-- The size of a text is that of the string. -/
theorem utf8ByteSize_eq (cs : List Char) : (String.ofList cs).utf8ByteSize = size cs := by
  induction cs with
  | nil => rfl
  | cons c cs ih =>
    rw [String.ofList_cons, String.utf8ByteSize_append, String.utf8ByteSize_singleton, ih,
      size_cons]

/-! ## Searches -/

/-- The first occurrence starts where the characters before it end. -/
theorem offset?_getD (ch : Char) (cs : List Char) :
    (offset? ch cs).getD (size cs) = size (cs.takeWhile (· != ch)) := by
  induction cs with
  | nil => rfl
  | cons c cs ih =>
    by_cases hc : c = ch
    · simp [offset?, hc]
    · rw [offset?, if_neg hc, List.takeWhile_cons_of_pos (by simpa using hc), size_cons, size_cons,
        ← ih]
      cases offset? ch cs <;> rfl

theorem cutLast?_eq_none {sep : Char} {cs : List Char} (h : cutLast? sep cs = none) : sep ∉ cs := by
  induction cs with
  | nil => exact List.not_mem_nil
  | cons c cs ih =>
    rw [cutLast?] at h
    split at h
    · cases h
    · next hrest =>
      split at h
      · cases h
      · next hc => exact fun hmem => (List.mem_cons.mp hmem).elim (fun e => hc e.symm) (ih hrest)

theorem cutLast?_eq_some {sep : Char} {cs before after : List Char}
    (h : cutLast? sep cs = some (before, after)) :
    cs = before ++ sep :: after ∧ sep ∉ after := by
  induction cs generalizing before with
  | nil => cases h
  | cons c cs ih =>
    rw [cutLast?] at h
    split at h
    · next front back hrest =>
      cases h
      obtain ⟨hcs, hback⟩ := ih hrest
      exact ⟨by rw [hcs, List.cons_append], hback⟩
    · next hrest =>
      split at h
      · next hc =>
        cases h
        exact ⟨by rw [hc, List.nil_append], cutLast?_eq_none hrest⟩
      · cases h

/-! ## Slices -/

/-- Where an initial part of a text ends, the text can be sliced. -/
theorem upTo?_size {as cs : List Char} (h : as <+: cs) : upTo? (size as) cs = some as := by
  obtain ⟨rest, rfl⟩ := h
  induction as with
  | nil => cases rest <;> rfl
  | cons c as ih =>
    have hpos := c.utf8Size_pos
    obtain ⟨n, hn⟩ : ∃ n, size (c :: as) = n + 1 :=
      Nat.exists_eq_add_one.mpr (by rw [size_cons]; omega)
    have hrest : n + 1 - c.utf8Size = size as := by rw [← hn, size_cons]; omega
    have hfits : c.utf8Size ≤ n + 1 := by rw [← hn, size_cons]; omega
    rw [hn, List.cons_append, upTo?, if_pos hfits, hrest, ih, Option.map_some]

/-- A slice is an initial part of the text and ends where it should. -/
theorem upTo?_eq_some_iff {n : Nat} {as cs : List Char} :
    upTo? n cs = some as ↔ as <+: cs ∧ size as = n := by
  refine ⟨fun h => ?_, fun ⟨hpre, hn⟩ => hn ▸ upTo?_size hpre⟩
  induction cs generalizing n as with
  | nil =>
    cases n with
    | zero => cases h; exact ⟨List.nil_prefix, rfl⟩
    | succ n => cases h
  | cons c cs ih =>
    cases n with
    | zero => cases h; exact ⟨List.nil_prefix, rfl⟩
    | succ n =>
      rw [upTo?] at h
      split at h
      · next hfits =>
        obtain ⟨front, hfront, rfl⟩ := Option.map_eq_some_iff.mp h
        obtain ⟨hpre, hsize⟩ := ih hfront
        exact ⟨List.cons_prefix_cons.mpr ⟨rfl, hpre⟩, by rw [size_cons]; omega⟩
      · cases h

end SmaliView.Text
