import Mathlib.Data.List.Basic

/-!
# Ordered lists (`lib/kernel/list.c`)

A list is the sequence of its elements, and `less` the caller's comparison with its auxiliary data.
-/

namespace Pintos

variable {α : Type*} (less : α → α → Bool)

/-- `list_insert_ordered`: the loop stops at the first element that `elem` is less than, or at the end, and `elem` goes in
before it. -/
def listInsertOrdered (elem : α) : List α → List α
  | [] => [elem]
  | e :: rest => if less elem e then elem :: e :: rest else e :: listInsertOrdered elem rest

/-- The loop of `list_unique`: `before` was passed, `elem` is the element that is kept and the list goes on from there. -/
def uniqueLoop (before : List α) (elem : α) : List α → Option (List α) → List α × Option (List α)
  | [], duplicates => (before ++ [elem], duplicates)
  | next :: rest, duplicates =>
    if !less elem next && !less next elem then uniqueLoop before elem rest (duplicates.map (· ++ [next]))
    else uniqueLoop (before ++ [elem]) next rest duplicates

/-- `list_unique`: the list and the duplicates after the call; `none` is a null pointer for `duplicates`. -/
def listUnique (list : List α) (duplicates : Option (List α)) : List α × Option (List α) :=
  match list with
  | [] => ([], duplicates)
  | elem :: rest => uniqueLoop less [] elem rest duplicates

end Pintos
