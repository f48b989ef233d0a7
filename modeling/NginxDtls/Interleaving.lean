import Mathlib.Algebra.BigOperators.Group.Finset.Basic
import Mathlib.Algebra.Order.BigOperators.Group.Finset
import Mathlib.Tactic
import NginxDtls.Run

/-! Processes that share memory. Each has a place in its program, and a step moves one of them. What an invariant says of
all the processes together is a sum over their places, which a step changes by the difference of two places. -/

namespace NginxDtls.Interleaving

open Finset Function

variable {P L : Type} [Fintype P] [DecidableEq P]

/-- A weight of places, summed up over the processes. -/
def total (weight : L → ℤ) (place : P → L) : ℤ := ∑ p, weight (place p)

theorem total_update (weight : L → ℤ) (place : P → L) (p : P) (l : L) :
    total weight (update place p l) = total weight place - weight (place p) + weight l := by
  have hsplit : ∀ f : P → L, total weight f = weight (f p) + ∑ q ∈ univ.erase p, weight (f q) := fun f =>
    (add_sum_erase univ (fun q => weight (f q)) (mem_univ p)).symm
  have hrest : ∑ q ∈ univ.erase p, weight (update place p l q) = ∑ q ∈ univ.erase p, weight (place q) :=
    sum_congr rfl fun q hq => by rw [update_of_ne (ne_of_mem_erase hq)]
  rw [hsplit (update place p l), hsplit place, hrest, update_self]
  ring

omit [DecidableEq P] in
theorem le_total {weight : L → ℤ} (hpos : ∀ l, 0 ≤ weight l) (place : P → L) (p : P) :
    weight (place p) ≤ total weight place :=
  single_le_sum (fun q _ => hpos (place q)) (mem_univ p)

omit [DecidableEq P] in
theorem total_eq_zero {weight : L → ℤ} {place : P → L} (h : ∀ p, weight (place p) = 0) : total weight place = 0 :=
  sum_eq_zero fun p _ => h p

omit [DecidableEq P] in
theorem total_le_card {weight : L → ℤ} (hone : ∀ l, weight l ≤ 1) (place : P → L) : total weight place ≤ Fintype.card P := by
  have hsum : total weight place ≤ ∑ _p : P, (1 : ℤ) := sum_le_sum fun p _ => hone (place p)
  rw [sum_const, card_univ, nsmul_eq_mul, mul_one] at hsum
  exact hsum

/-- Two processes together weigh no more than all. -/
theorem add_le_total {weight : L → ℤ} (hpos : ∀ l, 0 ≤ weight l) (place : P → L) {p q : P} (hne : p ≠ q) :
    weight (place p) + weight (place q) ≤ total weight place := by
  have hpair : ∑ r ∈ ({p, q} : Finset P), weight (place r) = weight (place p) + weight (place q) := sum_pair hne
  rw [← hpair]
  exact sum_le_sum_of_subset_of_nonneg (subset_univ _) fun r _ _ => hpos (place r)

/-! ### Some process is at a place -/

omit [Fintype P] in
/-- A process that stays, or that moves to such a place again, is still there. -/
theorem exists_update {Q : L → Prop} {place : P → L} {p : P} {l : L} (h : Q (place p) → Q l) (hex : ∃ q, Q (place q)) :
    ∃ q, Q (update place p l q) := by
  obtain ⟨q, hq⟩ := hex
  by_cases hqp : q = p
  · subst hqp
    exact ⟨q, by rw [update_self]; exact h hq⟩
  · exact ⟨q, by rw [update_of_ne hqp]; exact hq⟩

omit [Fintype P] in
theorem exists_update_self {Q : L → Prop} (place : P → L) (p : P) {l : L} (h : Q l) : ∃ q, Q (update place p l q) :=
  ⟨p, by rw [update_self]; exact h⟩

end NginxDtls.Interleaving
