/-!
# Splitting text

Text is split at every separator or at the last one.
-/

namespace Courier.Split

def parts (separator : Char) : List Char → List (List Char)
  | [] => [[]]
  | c :: rest =>
    if c = separator then [] :: parts separator rest
    else
      match parts separator rest with
      | [] => [[c]]
      | first :: others => (c :: first) :: others

def last? (separator : Char) : List Char → Option (List Char × List Char)
  | [] => none
  | c :: rest =>
    match last? separator rest with
    | some (before, after) => some (c :: before, after)
    | none => if c = separator then some ([], rest) else none

theorem parts_ne_nil (separator : Char) (text : List Char) : parts separator text ≠ [] := by
  cases text with
  | nil => simp [parts]
  | cons c rest =>
    simp only [parts]
    split
    · simp
    · split <;> simp

theorem intercalate_parts (separator : Char) (text : List Char) :
    [separator].intercalate (parts separator text) = text := by
  induction text with
  | nil => simp [parts]
  | cons c rest ih =>
    have hne := parts_ne_nil separator rest
    cases hp : parts separator rest with
    | nil => exact absurd hp hne
    | cons first others =>
      rw [hp] at ih
      by_cases hc : c = separator
      · simp [parts, hp, hc, List.intercalate_cons_cons, ih]
      · cases others with
        | nil => simpa [parts, hp, hc] using ih
        | cons second others =>
          rw [List.intercalate_cons_cons] at ih
          simp [parts, hp, hc, List.intercalate_cons_cons, ih]

theorem last?_eq_none {separator : Char} {text : List Char} (h : separator ∉ text) :
    last? separator text = none := by
  induction text with
  | nil => rfl
  | cons c rest ih =>
    have hc : c ≠ separator := fun e => h (e ▸ List.mem_cons_self)
    simp [last?, ih (List.not_mem_of_not_mem_cons h), hc]

theorem last?_append {separator : Char} (before : List Char) {after : List Char}
    (h : separator ∉ after) :
    last? separator (before ++ separator :: after) = some (before, after) := by
  induction before with
  | nil => simp [last?, last?_eq_none h]
  | cons c rest ih => simp [last?, ih]

end Courier.Split
