import Courier.Screen.Cell

/-!
# Panes

A pane is a bordered block of rows with a title. Panes are put together from
rows of text, gauges and table rows.
-/

namespace Courier.Screen

/-- The rows of a bordered block: `height` rows of `width` cells in all. What
is inside is cut or filled with blanks of the style `inside`. -/
def frame (width height : Nat) (border inside : Style) (title : String) (content : List Row) :
    List Row :=
  let inner := width - 2
  let side : Cell := ⟨'│', border⟩
  let line (first last : Char) (between : Row) : Row :=
    ⟨first, border⟩ :: (between ++ List.replicate (inner - between.length) ⟨'─', border⟩) ++
      [⟨last, border⟩]
  let top := line '┌' '┐' ((Row.ofText border title).take inner)
  let bottom := line '└' '┘' []
  let rows := content.take (height - 2) ++ List.replicate (height - 2 - content.length) []
  top :: rows.map (fun row => side :: row.fit inner inside ++ [side]) ++ [bottom]

def filledCells (width part whole : Nat) : Nat :=
  let ratio := part.toUInt64.toFloat / whole.toUInt64.toFloat
  let ratio := if 1.0 < ratio then 1.0 else ratio
  (width.toUInt64.toFloat * ratio).round.toUInt64.toNat

/-- A bar with a label in the middle. Where the bar meets the label, and one
cell further, the label is shown with its colours exchanged. -/
def gauge (width : Nat) (style : Style) (part whole : Nat) (label : String) : Row :=
  let filled := filledCells width part whole
  let label := label.toList
  let start := (width - label.length) / 2
  (List.range width).map fun x =>
    let glyph := if start ≤ x then label.getD (x - start) ' ' else ' '
    -- beyond the bar the label keeps its colours
    if filled ≤ x then ⟨glyph, style⟩
    else if start ≤ x ∧ x ≤ start + label.length then ⟨glyph, style.swapped⟩
    else ⟨'█', style⟩

def columns (gap : Style) : (widths : List Nat) → List (String × Style) → Row
  | width :: widths, (text, style) :: texts =>
    let cell := (Row.ofText style text).fit width style
    match widths, texts with
    | _ :: _, _ :: _ => cell ++ { style := gap } :: columns gap widths texts
    | _, _ => cell
  | _, _ => []

end Courier.Screen
