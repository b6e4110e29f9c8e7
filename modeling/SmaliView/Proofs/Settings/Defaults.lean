import SmaliView.Proofs.Settings.Filling
import SmaliView.Settings.Load

/-!
# The two sources of defaults

What a file leaves out of the settings is decided twice: the file is laid over the document of the
defaults, and the reader of the merged document falls back to the `missing` values of every group.
The two agree. Reading a document fills it up with the document of the defaults (`Reads`), so
merging first makes no difference.
-/

namespace SmaliView

open Document

variable {α ρ : Type}

/-! ## What fits -/

namespace Document

def isText : Document → Bool
  | .text _ => true
  | _ => false

def isBool : Document → Bool
  | .bool _ => true
  | _ => false

/-- A natural number below a bound. -/
def isNatBelow (bound : Nat) : Document → Bool
  | .int n => decide (0 ≤ n ∧ n < bound)
  | _ => false

/-- Null, or what passes a check. -/
def isOptional (P : Document → Bool) : Document → Bool
  | .null => true
  | d => P d

/-- A list of texts. -/
def isTexts : Document → Bool
  | .list ds => ds.all isText
  | _ => false

end Document

def CacheSettings.fits : Document → Bool := isGroup fun
  | "max_entries" => isNatBelow (wordSize 64)
  | _ => fun _ => true

def LayoutSettings.fits : Document → Bool := isGroup fun
  | "max_ancestor_depth" => isNatBelow (wordSize 64)
  | _ => fun _ => true

def AssemblerSettings.fits : Document → Bool := isGroup fun
  | "binary_path" => isText
  | "jar" => isOptional isText
  | "java_path" => isText
  | "api_level" => isOptional (isNatBelow (wordSize 32))
  | "extra_flags" => isTexts
  | _ => fun _ => true

def DecompilerSettings.fits : Document → Bool := isGroup fun
  | "binary_path" => isText
  | "single_class" => isBool
  | "threads" => isOptional (isNatBelow (wordSize 32))
  | "extra_flags" => isTexts
  | _ => fun _ => true

def ToolSettings.fits : Document → Bool := isGroup fun
  | "assembler" => AssemblerSettings.fits
  | "decompiler" => DecompilerSettings.fits
  | _ => fun _ => true

def LoggingSettings.fits : Document → Bool := isGroup fun
  | "level" => isText
  | "format" => isText
  | "log_dir" => isOptional isText
  | "rotation" => isText
  | _ => fun _ => true

/-- A dictionary with any of the settings, every one of its kind, and with unknown keys besides. -/
def Settings.fits : Document → Bool := isGroup fun
  | "max_workers" => isNatBelow (wordSize 64)
  | "work_dir" => isOptional isText
  | "cache" => CacheSettings.fits
  | "layout" => LayoutSettings.fits
  | "tools" => ToolSettings.fits
  | "logging" => LoggingSettings.fits
  | _ => fun _ => true

/-! ## Single values -/

namespace Document

/-- What passes the check is no dictionary, and is read as it is written. -/
structure Recovers (decode : Decoder α) (P : Document → Bool) (write : α → Document) : Prop where
  leaf (fields : Fields) : P (.dict fields) = false
  read {d : Document} (h : P d = true) : ∃ a, decode d = .ok a ∧ write a = d

/-- A text is read as it was written. -/
theorem recovers_text : Recovers asText isText .text where
  leaf _ := rfl
  read {d} h := by
    cases d with
    | text s => exact ⟨s, rfl, rfl⟩
    | _ => cases h

theorem recovers_path : Recovers asPath isText ofPath where
  leaf _ := rfl
  read {d} h := by
    cases d with
    | text s => exact ⟨⟨s⟩, rfl, rfl⟩
    | _ => cases h

theorem recovers_bool : Recovers asBool isBool .bool where
  leaf _ := rfl
  read {d} h := by
    cases d with
    | bool b => exact ⟨b, rfl, rfl⟩
    | _ => cases h

/-- A number in bounds is read as it was written. -/
theorem recovers_natBelow {bound : Nat} (hbound : bound ≤ wordSize 64) (expected : String) :
    Recovers (natBelow bound expected) (isNatBelow bound) ofNat where
  leaf _ := rfl
  read {d} h := by
    cases d with
    | int n =>
      obtain ⟨hpos, hlt⟩ := of_decide_eq_true h
      -- A number below the bound fits in a word, so that it is found unsigned.
      have hfound : foundInt n = .unsigned n.toNat := by
        have hword : n < wordSize 64 := by omega
        simp [foundInt, hpos, hword]
      have hnat : n.toNat < bound := by omega
      refine ⟨n.toNat, ?_, congrArg Document.int (Int.toNat_of_nonneg hpos)⟩
      rw [natBelow, hfound]
      exact if_pos hnat
    | _ => cases h

/-- What may be missing is read as it was written, if what is there is. -/
theorem Recovers.optional {decode : Decoder α} {P : Document → Bool} {write : α → Document}
    (h : Recovers decode P write) :
    Recovers (asOptional decode) (isOptional P) (ofOption write) where
  leaf := h.leaf
  read {d} hd := by
    by_cases hnull : d = .null
    · subst hnull
      exact ⟨none, rfl, rfl⟩
    · rw [isOptional.eq_2 P d hnull] at hd
      obtain ⟨a, ha, hwrite⟩ := h.read hd
      refine ⟨some a, ?_, hwrite⟩
      rw [asOptional.eq_2 decode d hnull, ha]
      rfl

theorem items_texts {ds : List Document} (h : ds.all isText = true) (n : Nat) :
    ∃ texts, items asText n ds = .ok texts ∧ texts.map .text = ds := by
  induction ds generalizing n with
  | nil => exact ⟨[], rfl, rfl⟩
  | cons d ds ih =>
    obtain ⟨hd, hds⟩ := Bool.and_eq_true_iff.mp h
    obtain ⟨s, hs, rfl⟩ := recovers_text.read hd
    obtain ⟨texts, htexts, rfl⟩ := ih hds (n + 1)
    refine ⟨s :: texts, ?_, rfl⟩
    rw [items, hs, htexts]
    rfl

/-- A list of texts is read as it was written. -/
theorem recovers_texts : Recovers (asList asText) isTexts fun texts => .list (texts.map .text) where
  leaf _ := rfl
  read {d} h := by
    cases d with
    | list ds =>
      obtain ⟨texts, hitems, hmap⟩ := items_texts h 0
      exact ⟨texts, hitems, congrArg Document.list hmap⟩
    | _ => cases h

/-! ## Groups -/

def withField (d : Document) (key : String) (v : Document) : Document :=
  match d with
  | .dict fields => .dict (fields.map fun f => if f.1 = key then (key, v) else f)
  | _ => d

/-- What passes the check is read as what it says over a base. -/
structure Reads (decode : Decoder α) (P : Document → Bool) (write : α → Document) (b : Document) :
    Prop where
  stable : Stable P b
  read {d : Document} (h : P d = true) : ∃ a, decode d = .ok a ∧ write a = b.fill d

/-- A field of a group is read as what it says over a base; nothing else of the group changes. -/
structure Field.Reads (field : Field ρ) (P : Document → Bool) (write : ρ → Document)
    (b : Document) : Prop where
  stable : Stable P b
  update {d : Document} (h : P d = true) (r : ρ) : ∃ r', field.update d r = .ok r' ∧
    write r' = (write r).withField field.key (b.fill d)

/-- A value that is recovered is read over any default. -/
theorem Recovers.reads {decode : Decoder α} {P : Document → Bool} {write : α → Document}
    {b : Document} (h : Recovers decode P write) (hb : P b = true) : Reads decode P write b where
  stable := .leaf h.leaf hb
  read {d} hd := by
    obtain ⟨a, ha, hwrite⟩ := h.read hd
    refine ⟨a, ha, hwrite.trans (fill_of_not_dict ?_ d).symm⟩
    cases b with
    | dict fields => rw [h.leaf] at hb; cases hb
    | _ => rfl

/-- A setting is read into its field and leaves the other ones. -/
theorem Reads.setting {decode : Decoder α} {P : Document → Bool} {enc : α → Document}
    {b : Document} (h : Reads decode P enc b) {key : String} {set : ρ → α → ρ}
    {write : ρ → Document} (hset : ∀ r a, write (set r a) = (write r).withField key (enc a)) :
    (setting key decode set).Reads P write b where
  stable := h.stable
  update {d} hd r := by
    obtain ⟨a, ha, hwrite⟩ := h.read hd
    refine ⟨set r a, ?_, by rw [hset, hwrite]; rfl⟩
    change set r <$> decode d = .ok (set r a)
    rw [ha]
    rfl

section

variable {known : List (Field ρ)} {P : String → Document → Bool} {write : ρ → Document}
  {fields bs : Fields}

/-- The fields are read one by one. What is not read yet stands as in the base. -/
theorem readFields_fills
    (hknown : ∀ field ∈ known, ∃ b, field? bs field.key = some b ∧
      field.Reads (P field.key) write b)
    (hnodup : (fields.map Prod.fst).Nodup)
    (hfields : ∀ key v, field? fields key = some v → P key v = true) (r : ρ) {now : Fields}
    (hnow : write r = .dict now) (hkeys : ∀ f ∈ now, f.1 ∈ known.map Field.key) :
    ∃ r', readFields known fields r = .ok r' ∧
      write r' = .dict (now.map fun f =>
        (f.1, ((field? fields f.1).map ((field? bs f.1).getD .null).fill).getD f.2)) := by
  -- Induction on what is written; the record that was read so far is any.
  induction fields generalizing r now with
  | nil => exact ⟨r, rfl, by rw [hnow]; exact congrArg dict (List.map_id' now).symm⟩
  | cons f rest ih =>
    obtain ⟨key, v⟩ := f
    obtain ⟨hout, hrest⟩ := List.nodup_cons.mp hnodup
    have hv : P key v = true := hfields key v (by rw [field?_cons, if_pos rfl])
    have hfields' : ∀ key' w, field? rest key' = some w → P key' w = true := by
      intro key' w hw
      refine hfields key' w ?_
      rw [field?_cons, if_neg, hw]
      rintro rfl
      rw [field?_eq_none hout] at hw
      cases hw
    rw [readFields]
    cases hfind : known.find? (·.key == key) with
    | none =>
      -- an unknown key: the group has no such field
      obtain ⟨r', hr', hwrite⟩ := ih hrest hfields' r hnow hkeys
      refine ⟨r', hr', hwrite.trans (congrArg dict (List.map_congr_left fun f hf => ?_))⟩
      have hne : f.1 ≠ key := by
        obtain ⟨field, hfield, hkey⟩ := List.mem_map.mp (hkeys f hf)
        rw [← hkey]
        simpa using List.find?_eq_none.mp hfind field hfield
      rw [field?_cons, if_neg hne]
    | some field =>
      -- no later field has this key, so the value that is put in now stays
      have hkey : field.key = key := by simpa using List.find?_some hfind
      obtain ⟨b, hb, hreads⟩ := hknown field (List.mem_of_find?_eq_some hfind)
      rw [hkey] at hb hreads
      obtain ⟨r₁, hr₁, hwrite₁⟩ := hreads.update hv r
      rw [hnow, withField, hkey] at hwrite₁
      have hkeys₁ : ∀ f ∈ now.map (fun f => if f.1 = key then (key, b.fill v) else f),
          f.1 ∈ known.map Field.key := by
        intro f hf
        obtain ⟨g, hg, rfl⟩ := List.mem_map.mp hf
        split
        · next heq => exact heq ▸ hkeys g hg
        · exact hkeys g hg
      obtain ⟨r', hr', hwrite⟩ := ih hrest hfields' r₁ hwrite₁ hkeys₁
      refine ⟨r', ?_, hwrite.trans ?_⟩
      · change (located key (field.update v r) >>= readFields known rest) = .ok r'
        rw [hr₁]
        exact hr'
      rw [List.map_map]
      refine congrArg dict (List.map_congr_left fun f hf => ?_)
      rw [Function.comp_apply, field?_cons]
      by_cases heq : f.1 = key
      · rw [if_pos heq, if_pos heq, field?_eq_none hout, heq, hb]
        rfl
      · rw [if_neg heq, if_neg heq]

/-- A group is read as what it says over the values that it starts from. -/
theorem Reads.group {start : ρ} (hstart : write start = .dict bs) (hordered : Ordered bs)
    (hkeys : ∀ f ∈ bs, f.1 ∈ known.map Field.key)
    (hknown : ∀ field ∈ known, ∃ b, field? bs field.key = some b ∧
      field.Reads (P field.key) write b) (expected : String) :
    Reads (Document.group expected known start) (isGroup P) write (.dict bs) where
  stable := by
    refine .group hordered fun key b hb => ?_
    obtain ⟨field, hfield, hkey⟩ := List.mem_map.mp (hkeys _ (mem_of_field? hb))
    obtain ⟨b', hb', hreads⟩ := hknown field hfield
    rw [hkey] at hb' hreads
    rw [hb] at hb'
    exact Option.some.inj hb' ▸ hreads.stable
  read {d} hd := by
    cases d with
    | dict fields =>
      obtain ⟨hnodup, hfields⟩ := isGroup_dict.mp hd
      obtain ⟨r, hr, hwrite⟩ := readFields_fills hknown hnodup hfields start hstart hkeys
      refine ⟨r, hr, hwrite.trans ?_⟩
      rw [fill, fillFields_eq_map]
      refine congrArg dict (List.map_congr_left fun f hf => ?_)
      rw [field?_of_mem hordered.nodup hf, Option.getD_some]
    | _ => cases hd

end

end Document

/-! ## The groups of settings -/

theorem CacheSettings.reads :
    Reads CacheSettings.decode CacheSettings.fits CacheSettings.document
      (CacheSettings.document {}) := by
  apply Reads.group
  · rfl
  · decide
  · decide
  · rw [List.forall_mem_singleton]
    exact ⟨_, rfl, ((recovers_natBelow le_rfl _).reads rfl).setting fun _ _ => rfl⟩

theorem LayoutSettings.reads :
    Reads LayoutSettings.decode LayoutSettings.fits LayoutSettings.document
      (LayoutSettings.document {}) := by
  apply Reads.group
  · rfl
  · decide
  · decide
  · rw [List.forall_mem_singleton]
    exact ⟨_, rfl, ((recovers_natBelow le_rfl _).reads rfl).setting fun _ _ => rfl⟩

theorem AssemblerSettings.reads :
    Reads AssemblerSettings.decode AssemblerSettings.fits AssemblerSettings.document
      (AssemblerSettings.document {}) := by
  have hbound : wordSize 32 ≤ wordSize 64 := by decide
  apply Reads.group
  · rfl
  · decide
  · decide
  -- One goal for each field: the document of the defaults has it, and it is read as its kind is.
  · simp only [List.forall_mem_cons]
    refine ⟨⟨_, rfl, ?_⟩, ⟨_, rfl, ?_⟩, ⟨_, rfl, ?_⟩, ⟨_, rfl, ?_⟩, ⟨_, rfl, ?_⟩, by simp⟩
    · exact (recovers_text.reads rfl).setting fun _ _ => rfl
    · exact (recovers_path.optional.reads rfl).setting fun _ _ => rfl
    · exact (recovers_text.reads rfl).setting fun _ _ => rfl
    · exact ((recovers_natBelow hbound _).optional.reads rfl).setting fun _ _ => rfl
    · exact (recovers_texts.reads rfl).setting fun _ _ => rfl

theorem DecompilerSettings.reads :
    Reads DecompilerSettings.decode DecompilerSettings.fits DecompilerSettings.document
      (DecompilerSettings.document {}) := by
  have hbound : wordSize 32 ≤ wordSize 64 := by decide
  apply Reads.group
  · rfl
  · decide
  · decide
  · simp only [List.forall_mem_cons]
    refine ⟨⟨_, rfl, ?_⟩, ⟨_, rfl, ?_⟩, ⟨_, rfl, ?_⟩, ⟨_, rfl, ?_⟩, by simp⟩
    · exact (recovers_text.reads rfl).setting fun _ _ => rfl
    · exact (recovers_bool.reads rfl).setting fun _ _ => rfl
    · exact ((recovers_natBelow hbound _).optional.reads rfl).setting fun _ _ => rfl
    · exact (recovers_texts.reads rfl).setting fun _ _ => rfl

theorem ToolSettings.reads :
    Reads ToolSettings.decode ToolSettings.fits ToolSettings.document
      (ToolSettings.document {}) := by
  apply Reads.group
  · rfl
  · decide
  · decide
  · simp only [List.forall_mem_cons]
    refine ⟨⟨_, rfl, ?_⟩, ⟨_, rfl, ?_⟩, by simp⟩
    · exact AssemblerSettings.reads.setting fun _ _ => rfl
    · exact DecompilerSettings.reads.setting fun _ _ => rfl

theorem LoggingSettings.reads :
    Reads LoggingSettings.decode LoggingSettings.fits LoggingSettings.document
      (LoggingSettings.document {}) := by
  apply Reads.group
  · rfl
  · decide
  · decide
  · simp only [List.forall_mem_cons]
    refine ⟨⟨_, rfl, ?_⟩, ⟨_, rfl, ?_⟩, ⟨_, rfl, ?_⟩, ⟨_, rfl, ?_⟩, by simp⟩
    · exact (recovers_text.reads rfl).setting fun _ _ => rfl
    · exact (recovers_text.reads rfl).setting fun _ _ => rfl
    · exact (recovers_path.optional.reads rfl).setting fun _ _ => rfl
    · exact (recovers_text.reads rfl).setting fun _ _ => rfl

/-- The reader of the settings fills a document up with the document of the defaults: for no group
do the `missing` values differ from those that stand with the fields. -/
theorem Settings.reads :
    Reads Settings.decode Settings.fits Settings.document (Settings.document {}) := by
  apply Reads.group
  · rfl
  · decide
  · decide
  · simp only [List.forall_mem_cons]
    refine ⟨⟨_, rfl, ?_⟩, ⟨_, rfl, ?_⟩, ⟨_, rfl, ?_⟩, ⟨_, rfl, ?_⟩, ⟨_, rfl, ?_⟩, ⟨_, rfl, ?_⟩,
      by simp⟩
    · exact ((recovers_natBelow le_rfl _).reads rfl).setting fun _ _ => rfl
    · exact (recovers_path.optional.reads rfl).setting fun _ _ => rfl
    · exact CacheSettings.reads.setting fun _ _ => rfl
    · exact LayoutSettings.reads.setting fun _ _ => rfl
    · exact ToolSettings.reads.setting fun _ _ => rfl
    · exact LoggingSettings.reads.setting fun _ _ => rfl

/-! ## A document tells the settings -/

namespace Document

@[simp] theorem ofNat_inj {m n : Nat} : ofNat m = ofNat n ↔ m = n := by
  rw [ofNat, ofNat, int.injEq, Int.ofNat_inj]

@[simp] theorem ofPath_inj {p q : Path} : ofPath p = ofPath q ↔ p = q := by
  cases p
  cases q
  simp [ofPath]

/-- Two optional values are written the same only if they are. -/
theorem ofOption_inj {f : α → Document} (hf : ∀ a b, f a = f b ↔ a = b) (hnull : ∀ a, f a ≠ .null)
    {a b : Option α} : ofOption f a = ofOption f b ↔ a = b := by
  cases a <;> cases b <;> simp [ofOption, hf, hnull, Ne.symm (hnull _)]

@[simp] theorem optionalNat_inj {m n : Option Nat} : ofOption ofNat m = ofOption ofNat n ↔ m = n :=
  ofOption_inj (fun _ _ => ofNat_inj) fun _ h => nomatch h

@[simp] theorem optionalPath_inj {p q : Option Path} :
    ofOption ofPath p = ofOption ofPath q ↔ p = q :=
  ofOption_inj (fun _ _ => ofPath_inj) fun _ h => nomatch h

@[simp] theorem texts_inj {as bs : List String} : as.map text = bs.map text ↔ as = bs :=
  (List.map_injective_iff.mpr fun _ _ => text.inj).eq_iff

end Document

@[simp] theorem CacheSettings.document_inj {s s' : CacheSettings} :
    s.document = s'.document ↔ s = s' := by
  cases s
  cases s'
  simp [document]

@[simp] theorem LayoutSettings.document_inj {s s' : LayoutSettings} :
    s.document = s'.document ↔ s = s' := by
  cases s
  cases s'
  simp [document]

@[simp] theorem AssemblerSettings.document_inj {s s' : AssemblerSettings} :
    s.document = s'.document ↔ s = s' := by
  cases s
  cases s'
  simp [document, and_comm, and_left_comm, and_assoc]

@[simp] theorem DecompilerSettings.document_inj {s s' : DecompilerSettings} :
    s.document = s'.document ↔ s = s' := by
  cases s
  cases s'
  simp [document, and_comm, and_left_comm]

@[simp] theorem ToolSettings.document_inj {s s' : ToolSettings} :
    s.document = s'.document ↔ s = s' := by
  cases s
  cases s'
  simp [document]

@[simp] theorem LoggingSettings.document_inj {s s' : LoggingSettings} :
    s.document = s'.document ↔ s = s' := by
  cases s
  cases s'
  simp [document, and_comm, and_left_comm]

/-- No two settings are written as one document. -/
theorem Settings.document_inj {s s' : Settings} : s.document = s'.document ↔ s = s' := by
  cases s
  cases s'
  simp [document, and_comm, and_left_comm, and_assoc]

/-! ## Loading -/

namespace Settings

/-- A document that fits gives the same settings whether it is laid over the defaults or not. -/
theorem ofLayers_eq_decode {d : Document} {s : Settings} (hfits : fits d = true)
    (hs : decode d = .ok s) (source : Source) : ofLayers [⟨source, d⟩] = .ok s := by
  obtain ⟨s₁, hs₁, hdocument₁⟩ := reads.read hfits
  obtain rfl : s₁ = s := Except.ok.inj (hs₁.symm.trans hs)
  obtain ⟨s₂, hs₂, hdocument₂⟩ := reads.read (reads.stable.merge hfits)
  -- both documents fill up to the same one, and that one tells the settings
  have hsame : s₂ = s₁ :=
    document_inj.mp (hdocument₂.trans ((reads.stable.fill_merge hfits).trans hdocument₁.symm))
  rw [ofLayers, List.foldl_cons, List.foldl_nil, hs₂, hsame]
  rfl

/-- **The two sources of defaults agree.** A document that is a dictionary with any of the settings,
each with a value of its kind, and with unknown keys besides gives the same settings whether it is
read for itself, with the values that are missing from its groups, or from a file over the defaults;
then these settings come out if the check has nothing against them, and its fault if it has. What is
written in the document is set so, and what is left out is as in the defaults. -/
theorem loaded_as_decoded {d : Document} (hfits : fits d = true) :
    ∃ s, decode d = .ok s ∧
      (∀ source, ofLayers [⟨source, d⟩] = .ok s) ∧
      (∀ t p source, fileLayer t p = .ok [⟨source, d⟩] →
        loadFile t p = match s.fault? with
          | none => .ok s
          | some fault => .error (.invalid fault)) ∧
      ∀ keys v, (document {}).written? keys = some v → v.isDict = false →
        s.document.written? keys = some ((d.written? keys).getD v) := by
  obtain ⟨s, hs, hdocument⟩ := reads.read hfits
  have hlayers := ofLayers_eq_decode hfits hs
  refine ⟨s, hs, hlayers, fun t p source hfile => ?_, fun keys v hv hleaf => ?_⟩
  · have hload : loadFile t p = s.check.mapError .invalid := by
      rw [loadFile, hfile]
      change finish _ (ofLayers _) = _
      rw [hlayers]
      rfl
    rw [hload, check]
    cases s.fault? <;> rfl
  · rw [hdocument]
    exact written?_fill hv hleaf

/-- A file that sets the size of the cache and the jar of the assembler, with an unknown key. -/
def jarTree : FileTree where
  entries := ⟨[(["c.yaml"], .file (Text.bytes
    "cache:\n  max_entries: 32\nshade: dark\ntools:\n  assembler:\n    jar: s.jar\n")
    ⟨0, 0⟩ {})]⟩

/-- The rest of the cache and tool settings is as in the defaults. -/
theorem jar_file_is_laid_over_defaults :
    ∃ d source s, fileLayer jarTree ⟨"c.yaml"⟩ = .ok [⟨source, d⟩] ∧ fits d = true ∧
      decode d = .ok s ∧ loadFile jarTree ⟨"c.yaml"⟩ = .ok s ∧
      s.document.written? ["cache", "max_entries"] = d.written? ["cache", "max_entries"] ∧
      s = { cache := ⟨32⟩, tools := { assembler := { jar := some ⟨"s.jar"⟩ } } } := by
  have hcheck : (fileLayer jarTree ⟨"c.yaml"⟩).toOption.map (fun layers =>
      (layers.length, layers.all fun layer => fits layer.document &&
        (layer.document.written? ["cache", "max_entries"]).isSome &&
        (decode layer.document).toOption ==
          some { cache := ⟨32⟩, tools := { assembler := { jar := some ⟨"s.jar"⟩ } } })) =
      some (1, true) := by
    decide +kernel
  -- What was computed of the file is taken apart; the settings come from the theorem.
  cases hlayers : fileLayer jarTree ⟨"c.yaml"⟩ with
  | error why =>
    rw [hlayers] at hcheck
    cases hcheck
  | ok layers =>
    rw [hlayers] at hcheck
    obtain ⟨hlength, hall⟩ := Prod.mk.inj (Option.some.inj hcheck)
    obtain ⟨⟨source, d⟩, rfl⟩ := List.length_eq_one_iff.mp hlength
    rw [List.all_cons, List.all_nil, Bool.and_true, Bool.and_eq_true, Bool.and_eq_true,
      beq_iff_eq] at hall
    obtain ⟨⟨hfits, hwritten⟩, hdecode⟩ := hall
    obtain ⟨s, hs, -, hload, hkeys⟩ := loaded_as_decoded hfits
    rw [hs] at hdecode
    obtain rfl := Option.some.inj hdecode
    obtain ⟨v, hv⟩ := Option.isSome_iff_exists.mp hwritten
    refine ⟨d, source, _, rfl, hfits, hs, hload _ _ _ hlayers, ?_, rfl⟩
    rw [hkeys _ _ rfl rfl, hv, Option.getD_some]

end Settings

end SmaliView
