/-!
# Tables

A table is a finite map kept as a list of keys and values. Putting a value replaces the one of the
same key. `get?_put` and `get?_erase` say what a table holds. No operation lets a key stand twice
(`Distinct`), so that the values of a table are those that its keys have.
-/

namespace SmaliView

/-- A finite map from keys to values. -/
structure Table (κ α : Type) where
  entries : List (κ × α) := []
deriving Repr, Inhabited

namespace Table

variable {κ α : Type} [DecidableEq κ]

def get? (t : Table κ α) (k : κ) : Option α :=
  t.entries.lookup k

def contains (t : Table κ α) (k : κ) : Bool :=
  (t.get? k).isSome

def keep (t : Table κ α) (f : κ → Bool) : Table κ α :=
  ⟨t.entries.filter fun e => f e.1⟩

def erase (t : Table κ α) (k : κ) : Table κ α :=
  t.keep (· != k)

def put (t : Table κ α) (k : κ) (a : α) : Table κ α :=
  ⟨(k, a) :: (t.erase k).entries⟩

def values (t : Table κ α) : List α :=
  t.entries.map (·.2)

def size (t : Table κ α) : Nat :=
  t.entries.length

/-- No key stands twice in the list. -/
def Distinct (t : Table κ α) : Prop :=
  (t.entries.map (·.1)).Nodup

@[simp] theorem get?_empty (k : κ) : ({} : Table κ α).get? k = none := rfl

/-- Keeping some keys takes the values of all others. -/
theorem get?_keep (t : Table κ α) (f : κ → Bool) (k : κ) :
    (t.keep f).get? k = if f k then t.get? k else none := by
  simp only [get?, keep]
  induction t.entries with
  | nil => simp
  | cons e es ih =>
    obtain ⟨key, a⟩ := e
    by_cases hk : k = key
    · subst hk
      cases hf : f k
      · simpa [List.filter, hf] using ih
      · simp [List.filter, hf]
    · have hb : (k == key) = false := by simpa using hk
      cases hf : f key <;> simp [List.filter, hf, List.lookup_cons, hb, ih]

/-- Erasing a key takes its value and no other. -/
theorem get?_erase (t : Table κ α) (k k' : κ) :
    (t.erase k).get? k' = if k' = k then none else t.get? k' := by
  by_cases h : k' = k <;> simp [erase, get?_keep, h]

/-- Putting a value changes its own key and no other. -/
theorem get?_put (t : Table κ α) (k : κ) (a : α) (k' : κ) :
    (t.put k a).get? k' = if k' = k then some a else t.get? k' := by
  by_cases h : k' = k
  · subst h; simp [get?, put]
  · have hb : (k' == k) = false := by simpa using h
    have := get?_erase t k k'
    simp only [h, if_false] at this ⊢
    simpa [get?, put, List.lookup_cons, hb] using this

theorem mem_of_get?_eq_some {t : Table κ α} {k : κ} {a : α} (h : t.get? k = some a) :
    (k, a) ∈ t.entries := by
  obtain ⟨before, after, heq, -⟩ := List.lookup_eq_some_iff.mp h
  rw [heq]
  exact List.mem_append_right _ (List.mem_cons_self ..)

/-- A key that stands in the list has a value. -/
theorem exists_get?_of_mem {t : Table κ α} {k : κ} {a : α} (h : (k, a) ∈ t.entries) :
    ∃ b, t.get? k = some b := by
  rw [← Option.isSome_iff_exists, get?, List.lookup_isSome_iff]
  exact ⟨(k, a), h, beq_self_eq_true k⟩

omit [DecidableEq κ] in
theorem keep_comm (t : Table κ α) (f g : κ → Bool) : (t.keep f).keep g = (t.keep g).keep f := by
  simp only [keep, List.filter_filter, Bool.and_comm]

omit [DecidableEq κ] in
theorem keep_keep (t : Table κ α) (f g : κ → Bool) :
    (t.keep f).keep g = t.keep fun k => f k && g k := by
  simp only [keep, List.filter_filter, Bool.and_comm]

omit [DecidableEq κ] in
theorem keep_congr {t : Table κ α} {f g : κ → Bool} (h : ∀ e ∈ t.entries, f e.1 = g e.1) :
    t.keep f = t.keep g :=
  congrArg Table.mk (List.filter_congr h)

omit [DecidableEq κ] in
theorem keep_eq_self {t : Table κ α} {f : κ → Bool} (h : ∀ e ∈ t.entries, f e.1 = true) :
    t.keep f = t :=
  congrArg Table.mk (List.filter_eq_self.mpr h)

/-- Where a key has no value there is nothing to erase. -/
theorem erase_eq_self {t : Table κ α} {k : κ} (h : t.get? k = none) : t.erase k = t := by
  refine keep_eq_self fun e he => bne_iff_ne.mpr ?_
  rintro rfl
  obtain ⟨b, hb⟩ := exists_get?_of_mem he
  rw [h] at hb
  cases hb

/-- What is put at a key that is not kept does not show. -/
theorem keep_put (t : Table κ α) {k : κ} {f : κ → Bool} (h : f k = false) (a : α) :
    (t.put k a).keep f = t.keep f := by
  have hput : (t.put k a).keep f = (t.keep (· != k)).keep f := by
    refine congrArg Table.mk ?_
    rw [put, List.filter_cons_of_neg (by simp [h])]
    rfl
  rw [hput, keep_keep]
  refine keep_congr fun e _ => ?_
  by_cases he : e.1 = k
  · rw [he, h, Bool.and_false]
  · rw [bne_iff_ne.mpr he, Bool.true_and]

/-- Putting and erasing do not get into each other's way at different keys. -/
theorem erase_put (t : Table κ α) {k k' : κ} (h : k ≠ k') (a : α) :
    (t.put k a).erase k' = (t.erase k').put k a := by
  have hcomm := keep_comm t (· != k) (· != k')
  simp only [erase, put, keep, mk.injEq] at hcomm ⊢
  rw [List.filter_cons_of_pos (by simpa using h), hcomm]

omit [DecidableEq κ] in
theorem distinct_empty : ({} : Table κ α).Distinct := by simp [Distinct]

omit [DecidableEq κ] in
theorem Distinct.keep {t : Table κ α} (h : t.Distinct) (f : κ → Bool) : (t.keep f).Distinct :=
  List.Nodup.sublist (List.Sublist.map _ List.filter_sublist) h

theorem Distinct.erase {t : Table κ α} (h : t.Distinct) (k : κ) : (t.erase k).Distinct :=
  h.keep _

theorem not_mem_keys_erase (t : Table κ α) (k : κ) : k ∉ (t.erase k).entries.map (·.1) := by
  simp [Table.erase, Table.keep]

theorem Distinct.put {t : Table κ α} (h : t.Distinct) (k : κ) (a : α) : (t.put k a).Distinct := by
  simp only [Distinct, Table.put, List.map_cons, List.nodup_cons]
  exact ⟨not_mem_keys_erase t k, h.erase k⟩

theorem Distinct.get?_eq_some_iff {t : Table κ α} (h : t.Distinct) {k : κ} {a : α} :
    t.get? k = some a ↔ (k, a) ∈ t.entries := by
  obtain ⟨entries⟩ := t
  simp only [Distinct, get?] at h ⊢
  induction entries with
  | nil => simp
  | cons e es ih =>
    obtain ⟨key, b⟩ := e
    obtain ⟨hkey, hes⟩ := List.nodup_cons.mp h
    by_cases hk : k = key
    · subst hk
      have hnot : (k, a) ∉ es := fun hmem => hkey (List.mem_map.mpr ⟨_, hmem, rfl⟩)
      simp [hnot, eq_comm]
    · have hb : (k == key) = false := by simpa using hk
      simp [List.lookup_cons, hb, ih hes, hk]

/-- Erasing a key takes its value from the values, and leaves the others. -/
theorem Distinct.values_perm {t : Table κ α} (h : t.Distinct) (k : κ) :
    t.values.Perm ((t.get? k).toList ++ (t.erase k).values) := by
  obtain ⟨entries⟩ := t
  simp only [Distinct, get?, values, Table.erase, Table.keep] at h ⊢
  induction entries with
  | nil => exact .nil
  | cons e es ih =>
    obtain ⟨key, a⟩ := e
    obtain ⟨hkey, hes⟩ := List.nodup_cons.mp h
    by_cases hk : key = k
    · subst hk
      have hrest : es.filter (fun e => e.1 != key) = es := by
        refine List.filter_eq_self.mpr fun e he => bne_iff_ne.mpr fun heq => hkey ?_
        exact List.mem_map.mpr ⟨e, he, heq⟩
      simp [hrest]
    · have hb : (k == key) = false := by simpa using Ne.symm hk
      have hkept : ((key, a) :: es).filter (fun e => e.1 != k) =
          (key, a) :: es.filter (fun e => e.1 != k) :=
        List.filter_cons_of_pos (by simpa using hk)
      rw [List.lookup_cons, hb, hkept, List.map_cons, List.map_cons]
      exact ((ih hes).cons a).trans List.perm_middle.symm

/-- The values of a table are what its keys have. -/
theorem Distinct.mem_values_iff {t : Table κ α} (h : t.Distinct) {a : α} :
    a ∈ t.values ↔ ∃ k, t.get? k = some a := by
  simp only [values, List.mem_map, h.get?_eq_some_iff]
  constructor
  · rintro ⟨⟨k, b⟩, hmem, rfl⟩
    exact ⟨k, hmem⟩
  · rintro ⟨k, hmem⟩
    exact ⟨(k, a), hmem, rfl⟩

end Table

end SmaliView
