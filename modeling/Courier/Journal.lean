/-!
# Journals

Lines of text with a level of importance. A journal keeps the latest lines.
-/

namespace Courier

inductive Level where
  | error
  | warn
  | info
  | debug
  | trace
  deriving DecidableEq, Repr

namespace Level

def name : Level → String
  | .error => "ERROR"
  | .warn => "WARN"
  | .info => "INFO"
  | .debug => "DEBUG"
  | .trace => "TRACE"

def all : List Level := [.error, .warn, .info, .debug, .trace]

def ofName? (text : String) : Option Level := all.find? (·.name == text)

def isShown : Level → Bool
  | .error | .warn | .info => true
  | .debug | .trace => false

theorem ofName?_name (l : Level) : ofName? l.name = some l := by cases l <;> decide

end Level

structure Line where
  level : Level
  text : String
  deriving DecidableEq, Repr

structure Journal where
  capacity : Nat
  /-- Oldest first. -/
  lines : List Line := []
  deriving DecidableEq, Repr

namespace Journal

def make (capacity : Nat) : Journal := { capacity := max capacity 1 }

def push (j : Journal) (line : Line) : Journal :=
  let kept := if j.lines.length = j.capacity then j.lines.drop 1 else j.lines
  { j with lines := kept ++ [line] }

def pushInfo (j : Journal) (text : String) : Journal := j.push ⟨.info, text⟩

def latest (j : Journal) (count : Nat) : List Line := j.lines.drop (j.lines.length - count)

theorem length_push_le (j : Journal) (line : Line) (h0 : 0 < j.capacity)
    (h : j.lines.length ≤ j.capacity) : (j.push line).lines.length ≤ j.capacity := by
  simp only [push]
  split
  · simp only [List.length_append, List.length_drop, List.length_cons, List.length_nil]
    omega
  · simp only [List.length_append, List.length_cons, List.length_nil]
    omega

end Journal

end Courier
