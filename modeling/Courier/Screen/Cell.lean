/-!
# Cells of a screen

A screen is made of rows, and a row of cells: a character with a style each.
Every character takes one cell.
-/

namespace Courier.Screen

inductive Color where
  | reset
  | red
  | green
  | yellow
  | blue
  | magenta
  | cyan
  | gray
  | darkGray
  | white
  deriving DecidableEq, Repr

def Color.name : Color → String
  | .reset => "Reset"
  | .red => "Red"
  | .green => "Green"
  | .yellow => "Yellow"
  | .blue => "Blue"
  | .magenta => "Magenta"
  | .cyan => "Cyan"
  | .gray => "Gray"
  | .darkGray => "DarkGray"
  | .white => "White"

inductive Emphasis where
  | plain
  | bold
  | italic
  deriving DecidableEq, Repr

def Emphasis.name : Emphasis → String
  | .plain => "NONE"
  | .bold => "BOLD"
  | .italic => "ITALIC"

structure Style where
  foreground : Color := .reset
  background : Color := .reset
  emphasis : Emphasis := .plain
  deriving DecidableEq, Repr

namespace Style

def colored (foreground : Color) : Style := { foreground }

def swapped (s : Style) : Style :=
  { s with foreground := s.background, background := s.foreground }

def name (s : Style) : String :=
  s.foreground.name ++ "/" ++ s.background.name ++ "/" ++ s.emphasis.name

end Style

structure Cell where
  glyph : Char := ' '
  style : Style := {}
  deriving DecidableEq, Repr

abbrev Row := List Cell

namespace Row

def ofText (style : Style) (text : String) : Row := text.toList.map fun glyph => { glyph, style }

def fit (width : Nat) (blank : Style) (row : Row) : Row :=
  row.take width ++ List.replicate (width - row.length) { style := blank }

def text (row : Row) : String := String.ofList (row.map (·.glyph))

def runs : Row → List (Nat × Style)
  | [] => []
  | cell :: rest =>
    match runs rest with
    | (count, style) :: others =>
      if style == cell.style then (count + 1, style) :: others
      else (1, cell.style) :: (count, style) :: others
    | [] => [(1, cell.style)]

@[simp] theorem length_fit (width : Nat) (blank : Style) (row : Row) :
    (row.fit width blank).length = width := by
  simp only [fit, List.length_append, List.length_take, List.length_replicate]
  omega

theorem flatMap_runs (row : Row) :
    (runs row).flatMap (fun run => List.replicate run.1 run.2) = row.map (·.style) := by
  induction row with
  | nil => rfl
  | cons cell rest ih =>
    simp only [runs]
    split
    · rename_i count style others h
      rw [h] at ih
      by_cases hs : style = cell.style
      · simp [hs, List.replicate_succ, ← ih]
      · simp [hs, ← ih]
    · rename_i h
      rw [h] at ih
      simp_all

end Row

end Courier.Screen
