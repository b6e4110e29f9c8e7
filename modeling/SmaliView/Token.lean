/-!
# Tokens

A request can be given up while it is worked on. Its *token* says when: it counts down while tools
run and, once it has fired, stays so.
-/

namespace SmaliView

/-- The milliseconds until a request is given up; none, if it is not. -/
structure Token where
  due : Option Nat := none
deriving DecidableEq, Repr, Inhabited

namespace Token

/-- The token of a request that is given up now. -/
def spent : Token := ⟨some 0⟩

def fired (t : Token) : Bool :=
  t.due == some 0

def later (t : Token) (ms : Nat) : Token :=
  ⟨t.due.map (· - ms)⟩

/-- A token that has fired stays so. -/
theorem fired_later {t : Token} (h : t.fired = true) (ms : Nat) : (t.later ms).fired = true := by
  simp only [fired, beq_iff_eq] at h
  simp [fired, later, h]

end Token

end SmaliView
