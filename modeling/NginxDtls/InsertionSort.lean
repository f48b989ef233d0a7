import Mathlib.Tactic

/-! Insertion sort with a comparison of which nothing is asked but that it tells the elements of different ranks apart. It
permutes its input, and its result has the ranks in order. -/

namespace NginxDtls.InsertionSort

variable {α β : Type} (after : α → α → Bool)

/-- `x` goes into the elements to its left, the nearest of which comes first. -/
def insertBack (x : α) : List α → List α
  | [] => [x]
  | y :: ys => if after y x then y :: insertBack x ys else x :: y :: ys

/-- Every element goes into the sorted elements to its left. -/
def sort (l : List α) : List α := (l.foldl (fun sorted x => insertBack after x sorted) []).reverse

theorem insertBack_perm (x : α) (l : List α) : (insertBack after x l).Perm (x :: l) := by
  induction l with
  | nil => exact .refl _
  | cons y ys ih =>
      rw [insertBack]
      split
      · exact (ih.cons y).trans (.swap x y ys)
      · exact .refl _

theorem foldl_perm (l sorted : List α) :
    (l.foldl (fun sorted x => insertBack after x sorted) sorted).Perm (sorted ++ l) := by
  induction l generalizing sorted with
  | nil => simp
  | cons x l ih =>
      have hinsert : (insertBack after x sorted ++ l).Perm (x :: sorted ++ l) :=
        (insertBack_perm after x sorted).append_right l
      exact (ih _).trans (hinsert.trans List.perm_middle.symm)

theorem sort_perm (l : List α) : (sort after l).Perm l := by
  rw [sort]
  exact (List.reverse_perm _).trans (by simpa using foldl_perm after l [])

variable {after} [LinearOrder β] {rank : α → β}

theorem insertBack_sorted (hgt : ∀ y x, rank x < rank y → after y x) (hle : ∀ y x, after y x → rank x ≤ rank y) (x : α)
    {l : List α} (h : l.Pairwise fun a b => rank b ≤ rank a) :
    (insertBack after x l).Pairwise fun a b => rank b ≤ rank a := by
  induction l with
  | nil => exact List.pairwise_singleton _ x
  | cons y ys ih =>
      obtain ⟨hy, hys⟩ := List.pairwise_cons.1 h
      rw [insertBack]
      split
      · next hafter =>
        refine List.pairwise_cons.2 ⟨fun z hz => ?_, ih hys⟩
        obtain rfl | hz := List.mem_cons.1 ((insertBack_perm after x ys).mem_iff.1 hz)
        · exact hle y z hafter
        · exact hy z hz
      · next hafter =>
        have hyx : rank y ≤ rank x := not_lt.1 fun hlt => hafter (hgt y x hlt)
        refine List.pairwise_cons.2 ⟨fun z hz => ?_, h⟩
        obtain rfl | hz := List.mem_cons.1 hz
        · exact hyx
        · exact (hy z hz).trans hyx

theorem sort_sorted (hgt : ∀ y x, rank x < rank y → after y x) (hle : ∀ y x, after y x → rank x ≤ rank y) (l : List α) :
    (sort after l).Pairwise fun a b => rank a ≤ rank b := by
  have hfold : ∀ sorted : List α, (sorted.Pairwise fun a b => rank b ≤ rank a) →
      (l.foldl (fun sorted x => insertBack after x sorted) sorted).Pairwise fun a b => rank b ≤ rank a := by
    induction l with
    | nil => exact fun sorted h => h
    | cons x l ih => exact fun sorted h => ih _ (insertBack_sorted hgt hle x h)
  exact List.pairwise_reverse.2 (hfold [] List.Pairwise.nil)

end NginxDtls.InsertionSort
