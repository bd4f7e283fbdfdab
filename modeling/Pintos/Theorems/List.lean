import Mathlib.Data.List.SplitBy
import Pintos.Lib.List

/-!
# Ordered insertion is stable, and unique keeps the first of every run

For a strict weak order `less`, two elements are equal when neither is less than the other. The runs of adjacent equal
elements are those of `List.splitBy`.
-/

namespace Pintos

open List

variable {α : Type*} (less : α → α → Bool)

/-- Neither element is less than the other. -/
def equal (a b : α) : Bool := !less a b && !less b a

/-- The elements are in nondecreasing order. -/
def Nondecreasing (list : List α) : Prop := list.Pairwise fun a b => less b a = false

/-- `list_insert_ordered` for each element in turn, into an empty list. -/
def insertAll (elems : List α) : List α := elems.foldl (fun list elem => listInsertOrdered less elem list) []

/-- The runs of adjacent equal elements, each as long as possible. -/
def runs (list : List α) : List (List α) := list.splitBy (equal less)

section Insert

theorem equal_comm (a b : α) : equal less a b = equal less b a := Bool.and_comm _ _

theorem listInsertOrdered_perm (elem : α) (list : List α) : (listInsertOrdered less elem list).Perm (elem :: list) := by
  induction list with
  | nil => exact .refl _
  | cons e rest ih =>
    unfold listInsertOrdered
    split
    · exact .refl _
    exact (ih.cons e).trans (.swap elem e rest)

variable {less} [order : IsStrictWeakOrder α fun a b => less a b]

theorem less_irrefl (a : α) : less a a = false := by simpa using order.irrefl a

theorem less_asymm {a b : α} (h : less a b) : less b a = false := by
  by_contra hba
  exact order.irrefl a (order.trans a b a h (by simpa using hba))

theorem not_less_trans {a b c : α} (hab : less a b = false) (hbc : less b c = false) : less a c = false := by
  have htrans := order.trans
  have hincomp := order.incomp_trans a b c
  grind

theorem equal_trans {a b c : α} (hab : equal less a b) (hbc : equal less b c) : equal less a c := by
  simp only [equal, Bool.and_eq_true, Bool.not_eq_true'] at *
  exact ⟨not_less_trans hab.1 hbc.1, not_less_trans hbc.2 hab.2⟩

/-- Nothing behind an element that `elem` is less than equals `elem`, so that `elem` joins its equals at their end. -/
theorem listInsertOrdered_spec {list : List α} (h : Nondecreasing less list) (elem : α) :
    Nondecreasing less (listInsertOrdered less elem list) ∧
      ∀ x, (listInsertOrdered less elem list).filter (equal less x) = (list ++ [elem]).filter (equal less x) := by
  induction list with
  | nil => exact ⟨pairwise_singleton _ _, fun _ => rfl⟩
  | cons e rest ih =>
    obtain ⟨hall, hrest⟩ := pairwise_cons.mp h
    unfold listInsertOrdered
    split
    next hless =>
      have hbelow : ∀ a ∈ e :: rest, less elem a := by
        intro a ha
        by_contra hna
        have hea : less a e = false := by
          rcases mem_cons.mp ha with rfl | ha
          · exact less_irrefl a
          exact hall a ha
        simp [not_less_trans (by simpa using hna) hea] at hless
      refine ⟨pairwise_cons.mpr ⟨fun a ha => less_asymm (hbelow a ha), h⟩, fun x => ?_⟩
      rw [filter_append]
      cases hx : equal less x elem with
      | false => simp [filter_cons_of_neg, hx]
      | true =>
        have hnone : (e :: rest).filter (equal less x) = [] := by
          refine filter_eq_nil_iff.mpr fun a ha hxa => ?_
          simp only [equal, Bool.and_eq_true, Bool.not_eq_true'] at hx hxa
          simpa [hbelow a ha] using not_less_trans hx.2 hxa.1
        simp [filter_cons_of_pos hx, hnone]
    next hless =>
      obtain ⟨hsorted, hfilter⟩ := ih hrest
      refine ⟨pairwise_cons.mpr ⟨fun a ha => ?_, hsorted⟩, fun x => by simp [filter_cons, hfilter]⟩
      rcases mem_cons.mp ((listInsertOrdered_perm less elem rest).subset ha) with rfl | ha
      · simpa using hless
      exact hall a ha

/-- Inserting one by one keeps the order and, among equals, the order of insertion. -/
theorem insertAll_spec (elems : List α) :
    Nondecreasing less (insertAll less elems) ∧ (insertAll less elems).Perm elems ∧
      ∀ x, (insertAll less elems).filter (equal less x) = elems.filter (equal less x) := by
  induction elems using reverseRecOn with
  | nil => exact ⟨.nil, .refl _, fun _ => rfl⟩
  | append_singleton elems elem ih =>
    obtain ⟨hsorted, hperm, hfilter⟩ := ih
    obtain ⟨hsorted', hfilter'⟩ := listInsertOrdered_spec hsorted elem
    simp only [insertAll, foldl_append, foldl_cons, foldl_nil] at *
    refine ⟨hsorted', ?_, fun x => by rw [hfilter', filter_append, hfilter, filter_append]⟩
    exact (listInsertOrdered_perm less elem _).trans ((hperm.cons elem).trans (perm_append_singleton elem elems).symm)

end Insert

section Unique

variable [order : IsStrictWeakOrder α fun a b => less a b]

/-- The loop and the search for runs go side by side: `gs` are the runs that ended and `last :: g` the one at hand, both from
the back, and `elem` is the first of it, and equal to `last`. -/
theorem uniqueLoop_spec (elem last : α) (g : List α) (gs : List (List α)) (tl rest : List α) (d : Option (List α))
    (hrun : (last :: g).reverse = elem :: tl) (heq : equal less elem last) :
    uniqueLoop less (gs.reverse.filterMap head?) elem rest (d.map (· ++ (gs.reverse.flatMap tail ++ tl))) =
      ((splitBy.loop (equal less) rest last g gs).filterMap head?,
        d.map (· ++ (splitBy.loop (equal less) rest last g gs).flatMap tail)) := by
  induction rest generalizing elem last g gs tl with
  | nil => simp [uniqueLoop, splitBy.loop, hrun]
  | cons next rest ih =>
    have hback : equal less last elem := by rwa [equal_comm]
    have hsame : equal less last next = equal less elem next := Bool.eq_iff_iff.mpr ⟨equal_trans heq, equal_trans hback⟩
    have hcond : (!less elem next && !less next elem) = equal less elem next := rfl
    unfold uniqueLoop splitBy.loop
    rw [hsame, hcond]
    cases hnext : equal less elem next with
    | true =>
      have hlonger := ih elem next (last :: g) gs (tl ++ [next]) (by simp_all) hnext
      simpa [Function.comp_def] using hlonger
    | false =>
      have hended := ih next next [] ((last :: g).reverse :: gs) [] rfl (by simp [equal, less_irrefl])
      simpa [hrun] using hended

/-- What is kept is the first of each run, and the others go to the duplicates. -/
theorem listUnique_runs (list : List α) (duplicates : Option (List α)) :
    listUnique less list duplicates =
      ((runs less list).filterMap head?, duplicates.map (· ++ (runs less list).flatMap tail)) := by
  cases list with
  | nil => simp [listUnique, runs]
  | cons elem rest =>
    have h := uniqueLoop_spec less elem elem [] [] [] rest duplicates rfl (by simp [equal, less_irrefl])
    simpa [listUnique, runs, splitBy] using h

/-- On a list in order the loop goes on only to a greater element. -/
theorem uniqueLoop_increasing {before : List α} {elem : α} {rest : List α} (d : Option (List α))
    (hbefore : (before ++ [elem]).Pairwise fun a b => less a b) (hrest : Nondecreasing less (elem :: rest)) :
    (uniqueLoop less before elem rest d).1.Pairwise fun a b => less a b := by
  induction rest generalizing before elem d with
  | nil => exact hbefore
  | cons next rest ih =>
    unfold uniqueLoop
    split
    · exact ih _ hbefore (hrest.sublist (by simp))
    next hnext =>
      have hless : less elem next := by
        simpa [rel_of_pairwise_cons hrest mem_cons_self] using hnext
      refine ih d (pairwise_append.mpr ⟨hbefore, pairwise_singleton _ _, ?_⟩) hrest.of_cons
      intro a ha b hb
      rw [mem_singleton.mp hb]
      rcases mem_append.mp ha with ha | ha
      · exact order.trans a elem next ((pairwise_append.mp hbefore).2.2 a ha elem (by simp)) hless
      rwa [mem_singleton.mp ha]

theorem heads_tails_perm (m : List (List α)) : (m.filterMap head? ++ m.flatMap tail).Perm m.flatten := by
  induction m with
  | nil => exact .refl _
  | cons run m ih =>
    cases run with
    | nil => simpa [filterMap_cons] using ih
    | cons a run =>
      simp only [filterMap_cons, head?_cons, flatMap_cons, tail_cons, flatten_cons, cons_append]
      exact ((perm_append_comm_assoc _ _ _).trans (ih.append_left run)).cons a

end Unique

/-- Inserted one by one with `list_insert_ordered`, the elements are in order and equal ones stand as they came.
`list_unique` keeps the first of each run of equal neighbours and appends the others to the duplicates: no element is lost or
duplicated, and a list in order becomes strictly increasing. -/
theorem ordered_lists [IsStrictWeakOrder α fun a b => less a b] (list : List α) (duplicates : Option (List α)) :
    (Nondecreasing less (insertAll less list) ∧ (insertAll less list).Perm list ∧
      ∀ x, (insertAll less list).filter (equal less x) = list.filter (equal less x)) ∧
    (let kept := (runs less list).filterMap head?
     let others := (runs less list).flatMap tail
     listUnique less list duplicates = (kept, duplicates.map (· ++ others)) ∧ (kept ++ others).Perm list ∧
      (Nondecreasing less list → kept.Pairwise fun a b => less a b)) := by
  refine ⟨insertAll_spec list, listUnique_runs less list duplicates, ?_, fun hsorted => ?_⟩
  · simpa [runs, flatten_splitBy] using heads_tails_perm (runs less list)
  cases list with
  | nil => exact .nil
  | cons elem rest =>
    have h := @uniqueLoop_increasing _ less _ [] _ _ none (pairwise_singleton _ elem) hsorted
    rwa [← listUnique, listUnique_runs] at h

/-- Pairs ordered by their first component, with two that are equal. -/
theorem ordered_lists_of_pairs :
    let less := fun a b : Nat × Nat => decide (a.1 < b.1)
    ((runs less [(0, 1), (1, 0), (1, 2)]).filterMap head?).Pairwise fun a b => less a b := by
  have horder : IsStrictWeakOrder (Nat × Nat) fun a b => decide (a.1 < b.1) :=
    { irrefl := by simp, trans := fun _ _ _ => by simpa using Nat.lt_trans, incomp_trans := by simp; omega }
  exact (ordered_lists _ _ none).2.2.2 (by simp [Nondecreasing])

end Pintos
