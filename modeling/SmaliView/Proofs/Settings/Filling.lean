import Mathlib.Data.List.Nodup
import Mathlib.Data.String.Basic
import SmaliView.Document
import SmaliView.Table

/-!
# Documents that are filled up

What a document leaves out can be taken from another one, the base. `fill` does so and keeps nothing
that the base has no place for. Laying the document over the base first, as the layers of settings
are laid over the defaults, changes nothing about the outcome (`Stable.fill_merge`).
-/

namespace SmaliView.Document

variable {fields lower upper bs : Fields} {f : String × Document} {key : String} {b d v : Document}

def isDict : Document → Bool
  | .dict _ => true
  | _ => false

/-- The value that is written under keys, through dictionaries alone. -/
def written? : List String → Document → Option Document
  | [], d => some d
  | key :: keys, .dict fields => (field? fields key).bind (written? keys)
  | _ :: _, _ => none

mutual

/-- A document with what it leaves out taken from the base, and without what the base has no place
for. What is no dictionary leaves out all of a dictionary. -/
def fill : Document → Document → Document
  | .dict bs, d =>
    match d with
    | .dict fields => .dict (fillFields fields bs)
    | _ => .dict bs
  | _, d => d

/-- The fields of the base with what is written in their places. -/
def fillFields (fields : Fields) : Fields → Fields
  | [] => []
  | (key, b) :: rest => (key, ((field? fields key).map (fill b)).getD b) :: fillFields fields rest

end

/-- Every key once, in alphabetical order. -/
def Ordered (fields : Fields) : Prop :=
  (fields.map Prod.fst).Pairwise (· < ·)

instance : Decidable (Ordered fields) :=
  inferInstanceAs (Decidable (List.Pairwise _ _))

/-! ## Fields -/

theorem field?_cons (key : String) (v : Document) (rest : Fields) (key' : String) :
    field? ((key, v) :: rest) key' = if key' = key then some v else field? rest key' := by
  rw [field?, List.lookup_cons, field?]
  by_cases h : key' = key
  · rw [beq_iff_eq.mpr h, if_pos h]
  · rw [beq_eq_false_iff_ne.mpr h, if_neg h]

theorem mem_of_field? (h : field? fields key = some v) : (key, v) ∈ fields :=
  Table.mem_of_get?_eq_some (t := ⟨fields⟩) h

/-- A field that is there once is found by its key. -/
theorem field?_of_mem (hnodup : (fields.map Prod.fst).Nodup) (h : (key, v) ∈ fields) :
    field? fields key = some v :=
  (Table.Distinct.get?_eq_some_iff (t := ⟨fields⟩) hnodup).mpr h

theorem field?_eq_none (h : key ∉ fields.map Prod.fst) : field? fields key = none := by
  rw [Option.eq_none_iff_forall_ne_some]
  exact fun v hv => h (List.mem_map_of_mem (mem_of_field? hv))

/-- Inserting a field changes that field and no other. -/
theorem field?_insertField (key : String) (v : Document) (fields : Fields) (key' : String) :
    field? (insertField key v fields) key' = if key' = key then some v else field? fields key' := by
  induction fields with
  | nil => rw [insertField, field?_cons]
  | cons f rest ih =>
    obtain ⟨k, w⟩ := f
    rw [insertField]
    split
    · next heq => rw [field?_cons, field?_cons, ← heq]; split <;> rfl
    · next hne =>
      split
      · rw [field?_cons]
      · rw [field?_cons, ih, field?_cons]
        by_cases hkey : key' = key
        · rw [if_pos hkey, if_pos hkey, if_neg fun heq => hne (hkey ▸ heq)]
        · rw [if_neg hkey, if_neg hkey]

/-- A merged dictionary has the fields of both; those they share are merged. -/
theorem field?_mergeFields (hnodup : (upper.map Prod.fst).Nodup) (lower : Fields) (key : String) :
    field? (mergeFields lower upper) key =
      ((field? upper key).map fun v => ((field? lower key).map (merge · v)).getD v).or
        (field? lower key) := by
  induction upper generalizing lower with
  | nil => rfl
  | cons f rest ih =>
    obtain ⟨k, v⟩ := f
    obtain ⟨hout, hrest⟩ := List.nodup_cons.mp hnodup
    rw [mergeFields, ih hrest, field?_cons, field?_insertField]
    by_cases hkey : key = k
    · -- no later field has this key, so what was inserted for it stays
      rw [hkey, field?_eq_none hout, if_pos rfl, if_pos rfl]
      cases field? lower k <;> rfl
    · rw [if_neg hkey, if_neg hkey]

/-- Inserting a field adds no other one. -/
theorem mem_insertField (h : f ∈ insertField key v fields) : f = (key, v) ∨ f ∈ fields := by
  induction fields with
  | nil => exact .inl (List.mem_singleton.mp h)
  | cons g rest ih =>
    rw [insertField] at h
    split at h
    · exact (List.mem_cons.mp h).imp_right (List.mem_cons_of_mem _)
    · split at h
      · exact List.mem_cons.mp h
      · rcases List.mem_cons.mp h with rfl | hmem
        · exact .inr (List.mem_cons_self ..)
        · exact (ih hmem).imp_right (List.mem_cons_of_mem _)

namespace Ordered

/-- Ordered fields have different keys. -/
theorem nodup (h : Ordered fields) : (fields.map Prod.fst).Nodup :=
  h.imp fun hlt => ne_of_lt hlt

/-- Inserting a field keeps the order. -/
theorem insertField (h : Ordered fields) (key : String) (v : Document) :
    Ordered (insertField key v fields) := by
  induction fields with
  | nil => exact List.pairwise_singleton _ _
  | cons f rest ih =>
    obtain ⟨k, w⟩ := f
    obtain ⟨hfirst, hrest⟩ := List.pairwise_cons.mp h
    rw [Document.insertField]
    split
    · next heq => rw [heq]; exact h
    · next hne =>
      split
      · next hlt =>
        refine List.pairwise_cons.mpr ⟨fun k' hk' => ?_, h⟩
        rcases List.mem_cons.mp hk' with rfl | hmem
        · exact hlt
        · exact hlt.trans (hfirst k' hmem)
      -- The key goes in behind the first one, which is smaller.
      · next hge =>
        refine List.pairwise_cons.mpr ⟨fun k' hk' => ?_, ih hrest⟩
        obtain ⟨f, hf, rfl⟩ := List.mem_map.mp hk'
        rcases mem_insertField hf with rfl | hmem
        · exact lt_of_le_of_ne (not_lt.mp hge) (Ne.symm hne)
        · exact hfirst _ (List.mem_map_of_mem hmem)

/-- Merging keeps the order. -/
theorem mergeFields (h : Ordered lower) (upper : Fields) : Ordered (mergeFields lower upper) := by
  induction upper generalizing lower with
  | nil => exact h
  | cons f rest ih =>
    obtain ⟨k, v⟩ := f
    rw [Document.mergeFields]
    exact ih (h.insertField _ _)

end Ordered

/-! ## Filling up -/

theorem fillFields_eq_map (fields bs : Fields) :
    fillFields fields bs = bs.map fun f => (f.1, ((field? fields f.1).map f.2.fill).getD f.2) := by
  induction bs with
  | nil => rfl
  | cons f rest ih =>
    obtain ⟨k, b⟩ := f
    rw [fillFields, ih, List.map_cons]

/-- A key is filled from the fields if it is there, and is the default otherwise. -/
theorem field?_fillFields (fields bs : Fields) (key : String) :
    field? (fillFields fields bs) key =
      (field? bs key).map fun b => ((field? fields key).map b.fill).getD b := by
  induction bs with
  | nil => rfl
  | cons f rest ih =>
    obtain ⟨k, b⟩ := f
    rw [fillFields, field?_cons, field?_cons, ih]
    by_cases hkey : key = k
    · rw [if_pos hkey, if_pos hkey, hkey, Option.map_some]
    · rw [if_neg hkey, if_neg hkey]

theorem fill_of_not_dict (h : b.isDict = false) (d : Document) : b.fill d = d := by
  cases b <;> first | rfl | cases h

theorem merge_of_not_dict (h : d.isDict = false) (b : Document) : b.merge d = d := by
  cases d <;> first | rfl | cases h

/-- **A value of the base that is written is as written, and otherwise as in the base.** -/
theorem written?_fill {keys : List String} (h : b.written? keys = some v)
    (hleaf : v.isDict = false) :
    (b.fill d).written? keys = some ((d.written? keys).getD v) := by
  induction keys generalizing b d with
  | nil =>
    cases h
    rw [fill_of_not_dict hleaf]
    rfl
  | cons key keys ih =>
    cases b with
    | dict bs =>
      obtain ⟨b, hb, hv⟩ := Option.bind_eq_some_iff.mp h
      cases d with
      | dict fields =>
        rw [fill, written?, field?_fillFields, hb, Option.map_some, Option.bind_some, written?]
        -- A key that is not written is filled up with all that the base has under it.
        cases field? fields key with
        | none => exact hv
        | some w => exact ih hv
      | _ => exact h
    | _ => cases h

/-! ## Merging and filling -/

/-- A dictionary with every key once whose values pass the checks of their keys. -/
def isGroup (P : String → Document → Bool) : Document → Bool
  | .dict fields => decide (fields.map Prod.fst).Nodup && fields.all fun f => P f.1 f.2
  | _ => false

/-- A base that is not changed by what passes a check. -/
structure Stable (P : Document → Bool) (b : Document) : Prop where
  base : P b = true
  fill_base : b.fill b = b
  merge {d : Document} (h : P d = true) : P (b.merge d) = true
  fill_merge {d : Document} (h : P d = true) : b.fill (b.merge d) = b.fill d

/-- A group has different keys, each with what its key asks for. -/
theorem isGroup_dict {P : String → Document → Bool} : isGroup P (.dict fields) = true ↔
    (fields.map Prod.fst).Nodup ∧ ∀ key v, field? fields key = some v → P key v = true := by
  rw [isGroup, Bool.and_eq_true, decide_eq_true_iff, List.all_eq_true]
  refine and_congr_right fun hnodup => ⟨fun h key v hv => h _ (mem_of_field? hv), fun h f hf => ?_⟩
  exact h _ _ (field?_of_mem hnodup hf)

/-- Filling a single value takes what is given, and that fits. -/
theorem Stable.leaf {P : Document → Bool} (hleaf : ∀ fields, P (.dict fields) = false)
    (hb : P b = true) : Stable P b := by
  -- What passes the check replaces the base, and nothing of it is filled up.
  have hisDict {d : Document} (h : P d = true) : d.isDict = false := by
    cases d with
    | dict fields => rw [hleaf] at h; cases h
    | _ => rfl
  refine ⟨hb, fill_of_not_dict (hisDict hb) b, fun h => ?_, fun h => ?_⟩
  · rwa [merge_of_not_dict (hisDict h)]
  · rw [merge_of_not_dict (hisDict h)]

/-- Filling a group keeps it one if each of its defaults is stable. -/
theorem Stable.group {P : String → Document → Bool} (hordered : Ordered bs)
    (h : ∀ key b, field? bs key = some b → Stable (P key) b) : Stable (isGroup P) (.dict bs) where
  base := isGroup_dict.mpr ⟨hordered.nodup, fun key b hb => (h key b hb).base⟩
  fill_base := by
    rw [fill, fillFields_eq_map]
    refine congrArg dict ((List.map_congr_left fun f hf => ?_).trans (List.map_id _))
    have hf := field?_of_mem hordered.nodup hf
    rw [hf]
    exact congrArg (f.1, ·) (h _ _ hf).fill_base
  merge := by
    intro d hd
    cases d with
    | dict fields =>
      obtain ⟨hnodup, hfields⟩ := isGroup_dict.mp hd
      refine isGroup_dict.mpr ⟨(hordered.mergeFields _).nodup, fun key v hv => ?_⟩
      rw [field?_mergeFields hnodup] at hv
      cases hwritten : field? fields key with
      | none =>
        rw [hwritten] at hv
        exact (h key v hv).base
      | some w =>
        rw [hwritten] at hv
        obtain rfl := Option.some.inj hv
        cases hb : field? bs key with
        | none => exact hfields key w hwritten
        | some b => exact (h key b hb).merge (hfields key w hwritten)
    | _ => cases hd
  fill_merge := by
    intro d hd
    cases d with
    | dict fields =>
      obtain ⟨hnodup, hfields⟩ := isGroup_dict.mp hd
      rw [Document.merge, fill, fill, fillFields_eq_map, fillFields_eq_map]
      refine congrArg dict (List.map_congr_left fun f hf => ?_)
      have hf := field?_of_mem hordered.nodup hf
      rw [field?_mergeFields hnodup, hf]
      refine congrArg (f.1, ·) ?_
      cases hwritten : field? fields f.1 with
      | none => exact (h _ _ hf).fill_base
      | some w => exact (h _ _ hf).fill_merge (hfields _ _ hwritten)
    | _ => cases hd

end SmaliView.Document
