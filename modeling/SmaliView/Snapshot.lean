import SmaliView.ContentHash
import SmaliView.Instant

/-!
# Snapshots

A snapshot is what a cached conversion is checked against: it stands for the state of a source
unit at the time of a request. Editor text is told apart by hash and length, a file on disk by
modification time and length; the two kinds never agree.
-/

namespace SmaliView

inductive Snapshot where
  /-- Editor text, with its length in bytes. -/
  | text (hash : ContentHash) (length : Nat)
  /-- A file, with its length in bytes. -/
  | disk (modified : Instant) (length : Nat)
deriving DecidableEq, Repr, Inhabited

namespace Snapshot

def ofText (s : String) : Snapshot :=
  .text (ContentHash.ofText s) s.utf8ByteSize

def inMemory : Snapshot → Bool
  | .text .. => true
  | .disk .. => false

/-- The snapshot in one line. It breaks off at a time that has no date. -/
def render (cal : Calendar) : Snapshot → Except String String
  | .text hash length => .ok ("text:" ++ hash.render ++ ":" ++ toString length)
  | .disk modified length =>
    (cal.dateTime modified).map fun t => "disk:" ++ t.render ++ ":" ++ toString length

end Snapshot

end SmaliView
