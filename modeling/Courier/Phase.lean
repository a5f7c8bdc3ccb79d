/-!
# Phases of a conversation

A peer asks to be let in, is admitted and then plays.
-/

namespace Courier

inductive Phase where
  | idle
  /-- Credentials are under review. -/
  | asking
  | admitted
  | playing
  deriving DecidableEq, Repr

namespace Phase

def name : Phase → String
  | .idle => "none"
  | .asking => "trying auth"
  | .admitted => "auth"
  | .playing => "in game"

def all : List Phase := [.idle, .asking, .admitted, .playing]

theorem mem_all (p : Phase) : p ∈ all := by cases p <;> simp [all]

theorem name_inj {p q : Phase} (h : p.name = q.name) : p = q := by
  revert h
  cases p <;> cases q <;> simp [name]

end Phase

end Courier
