import SmaliView.Outcome
import SmaliView.Snapshot
import SmaliView.TaskTable

/-!
# The cache of conversions

For every place the cache holds at most one conversion, with the snapshot it was made from. It
answers only for that very snapshot.
-/

namespace SmaliView

structure CacheEntry where
  snapshot : Snapshot
  source : JavaSource
deriving DecidableEq, Repr, Inhabited

/-- The last conversion of every place. -/
structure Cache where
  entries : Table Place CacheEntry := {}
deriving Repr, Inhabited

namespace Cache

/-- What is held for a file, whatever snapshot it was made from. -/
def held? (c : Cache) (file : Path) : Option CacheEntry :=
  c.entries.get? file.place

def contains (c : Cache) (file : Path) : Bool :=
  c.entries.contains file.place

/-- The conversion of a file that was made from a snapshot. -/
def lookup? (c : Cache) (file : Path) (snapshot : Snapshot) : Option JavaSource :=
  match c.held? file with
  | some e => if e.snapshot = snapshot then some e.source else none
  | none => none

def store (c : Cache) (file : Path) (snapshot : Snapshot) (source : JavaSource) : Cache :=
  ⟨c.entries.put file.place ⟨snapshot, source⟩⟩

def drop (c : Cache) (file : Path) : Cache :=
  ⟨c.entries.erase file.place⟩

/-- Storing puts what is held for the place of a file, and nothing else changes. -/
theorem held?_store (c : Cache) (file : Path) (snapshot : Snapshot) (source : JavaSource)
    (file' : Path) :
    (c.store file snapshot source).held? file' =
      if file'.place = file.place then some ⟨snapshot, source⟩ else c.held? file' :=
  Table.get?_put ..

/-- Dropping takes what is held for the place of a file, and nothing else changes. -/
theorem held?_drop (c : Cache) (file file' : Path) :
    (c.drop file).held? file' = if file'.place = file.place then none else c.held? file' :=
  Table.get?_erase ..

/-- A lookup finds what is held, if it was made from that very snapshot. -/
theorem lookup?_eq_some_iff (c : Cache) (file : Path) (snapshot : Snapshot) (source : JavaSource) :
    c.lookup? file snapshot = some source ↔ c.held? file = some ⟨snapshot, source⟩ := by
  unfold lookup?
  cases h : c.held? file with
  | none => simp
  | some e =>
    obtain ⟨sn, src⟩ := e
    by_cases hs : sn = snapshot <;> simp [hs]

end Cache

end SmaliView
