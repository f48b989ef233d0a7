import Mathlib.Tactic
import Mathlib.Algebra.BigOperators.Group.Finset.Basic
import Mathlib.Algebra.Order.BigOperators.Group.Finset
import Mathlib.Data.Nat.Periodic

/-! Credits that are handed out and paid back. In every round each member of some set gets its share, and the one
with the most credit pays for all of them. Whatever the sets and the shares are, no credit runs away: the sum
over `k` of `n` members stays above `-k (n - k)` times the largest total. When the set is always the whole and
the shares are fixed, everybody is picked as often as its share says. -/

namespace NginxDtls.Credit

open Finset

variable {α : Type} [DecidableEq α]

/-- The credits after a round: the members of `E` get their shares, and `b` pays. -/
def settle (x e : α → ℤ) (E : Finset α) (b : α) : α → ℤ := fun i =>
  x i + (if i ∈ E then e i else 0) - (if i = b then ∑ j ∈ E, e j else 0)

theorem sum_settle (x e : α → ℤ) (E S : Finset α) (b : α) :
    ∑ i ∈ S, settle x e E b i =
      ∑ i ∈ S, x i + ∑ i ∈ E ∩ S, e i - (if b ∈ S then ∑ j ∈ E, e j else 0) := by
  simp only [settle, sum_sub_distrib, sum_add_distrib, sum_ite_eq']
  congr 2
  rw [← sum_filter, filter_mem_eq_inter, inter_comm]

/-- A round leaves the sum over a set that contains everybody who takes part. -/
theorem sum_settle_of_subset {x e : α → ℤ} {E U : Finset α} {b : α} (hE : E ⊆ U) (hb : b ∈ U) :
    ∑ i ∈ U, settle x e E b i = ∑ i ∈ U, x i := by
  rw [sum_settle, if_pos hb, inter_eq_left.mpr hE]
  ring

/-! ### No credit runs away -/

/-- The sum over all members is zero, and `k` of the `n` members together owe at most `k (n - k) W`. -/
structure Bounded (U : Finset α) (W : ℤ) (x : α → ℤ) : Prop where
  sum : ∑ i ∈ U, x i = 0
  lower : ∀ S, S ⊆ U → -((S.card : ℤ) * (U.card - S.card) * W) ≤ ∑ i ∈ S, x i

omit [DecidableEq α] in
theorem Bounded.congr {U : Finset α} {W : ℤ} {x y : α → ℤ} (hxy : ∀ i ∈ U, x i = y i) (h : Bounded U W x) :
    Bounded U W y where
  sum := (sum_congr rfl hxy).symm.trans h.sum
  lower := fun S hS => (h.lower S hS).trans_eq (sum_congr rfl fun i hi => hxy i (hS hi))

omit [DecidableEq α] in
theorem bounded_zero (U : Finset α) {W : ℤ} (hW : 0 ≤ W) : Bounded U W fun _ => 0 := by
  constructor
  · exact sum_const_zero
  · intro S hS
    rw [sum_const_zero, neg_nonpos]
    have hcard : (S.card : ℤ) ≤ U.card := by exact_mod_cast card_le_card hS
    have hpos : (0 : ℤ) ≤ S.card := Int.natCast_nonneg _
    exact mul_nonneg (mul_nonneg hpos (by omega)) hW

/-- The owing of `S` when `b` pays although some of those who got their shares are not in `S`. Exchanging `b` for
one of them shows that there was room for it. -/
theorem Bounded.lower_pays {U : Finset α} {W : ℤ} {x e : α → ℤ} {E S : Finset α} {b j : α}
    (h : Bounded U W x) (hE : E ⊆ U) (he : ∀ i ∈ U, 0 ≤ e i) (hsum : ∑ i ∈ U, e i ≤ W) (hS : S ⊆ U)
    (hb : b ∈ S) (hj : j ∈ E) (hjS : j ∉ S) (hmax : x j + e j ≤ x b + e b) :
    -((S.card : ℤ) * (U.card - S.card) * W) ≤ ∑ i ∈ S, x i - ∑ i ∈ E \ S, e i := by
  have hjU : j ∈ U := hE hj
  have hbU : b ∈ U := hS hb
  have hwithout := h.lower (S.erase b) ((erase_subset b S).trans hS)
  have hwith := h.lower (insert j S) (insert_subset hjU hS)
  have hpos : 0 < S.card := card_pos.mpr ⟨b, hb⟩
  rw [card_erase_of_mem hb, sum_erase_eq_sub hb, Nat.cast_sub hpos] at hwithout
  rw [card_insert_of_notMem hjS, sum_insert hjS] at hwith
  -- what the others get is at most what is left of the total without `b`
  have hrest : ∑ i ∈ E \ S, e i ≤ W - e b := by
    have hsub : E \ S ⊆ U.erase b := by
      intro i hi
      obtain ⟨hiE, hiS⟩ := mem_sdiff.mp hi
      exact mem_erase.mpr ⟨fun heq => hiS (heq ▸ hb), hE hiE⟩
    have hle : ∑ i ∈ E \ S, e i ≤ ∑ i ∈ U.erase b, e i :=
      sum_le_sum_of_subset_of_nonneg hsub fun i hi _ => he i (mem_of_mem_erase hi)
    rw [sum_erase_eq_sub hbU] at hle
    linarith
  have hej := he j hjU
  have heb := he b hbU
  push_cast at hwithout hwith ⊢
  nlinarith

/-- A round in which the one with the most credit pays keeps the bound. -/
theorem Bounded.settle {U : Finset α} {W : ℤ} {x e : α → ℤ} {E : Finset α} {b : α} (h : Bounded U W x) (hE : E ⊆ U)
    (hb : b ∈ E) (he : ∀ i ∈ U, 0 ≤ e i) (hsum : ∑ i ∈ U, e i ≤ W) (hmax : ∀ j ∈ E, x j + e j ≤ x b + e b) :
    Bounded U W (settle x e E b) := by
  constructor
  · rw [sum_settle_of_subset hE (hE hb), h.sum]
  · intro S hS
    have hold := h.lower S hS
    rw [sum_settle]
    by_cases hbS : b ∈ S
    · rw [if_pos hbS]
      have hsplit : ∑ i ∈ E ∩ S, e i + ∑ i ∈ E \ S, e i = ∑ i ∈ E, e i := sum_inter_add_sum_sdiff E S e
      by_cases hsub : E ⊆ S
      · rw [inter_eq_left.mpr hsub]
        linarith
      · obtain ⟨j, hj, hjS⟩ := not_subset.mp hsub
        have := h.lower_pays hE he hsum hS hbS hj hjS (hmax j hj)
        linarith
    · rw [if_neg hbS]
      have hgain : 0 ≤ ∑ i ∈ E ∩ S, e i := sum_nonneg fun i hi => he i (hE (mem_inter.mp hi).1)
      linarith

/-- No single credit leaves `(n - 1) W`. -/
theorem Bounded.abs_credit_le {U : Finset α} {W : ℤ} {x : α → ℤ} (h : Bounded U W x) {i : α} (hi : i ∈ U) :
    |x i| ≤ (U.card - 1) * W := by
  have hone := h.lower {i} (singleton_subset_iff.mpr hi)
  have hrest := h.lower (U.erase i) (erase_subset i U)
  have hpos : 0 < U.card := card_pos.mpr ⟨i, hi⟩
  rw [card_singleton, sum_singleton] at hone
  rw [card_erase_of_mem hi, sum_erase_eq_sub hi, h.sum, Nat.cast_sub hpos] at hrest
  push_cast at hone hrest
  apply abs_le.mpr
  constructor <;> nlinarith

/-! ### Fixed shares -/

/-- Rounds in which all of `U` get their shares, starting from nothing. Who pays in a round has the most credit, and
depends on the credits only. -/
structure Rounds (U : Finset α) (w : α → ℤ) (x : ℕ → α → ℤ) (b : ℕ → α) : Prop where
  zero : ∀ i ∈ U, x 0 i = 0
  step : ∀ t, ∀ i ∈ U, x (t + 1) i = settle (x t) w U (b t) i
  mem : ∀ t, b t ∈ U
  max : ∀ t, ∀ j ∈ U, x t j + w j ≤ x t (b t) + w (b t)
  choice : ∀ s t, (∀ i ∈ U, x s i = x t i) → b s = b t

section Fixed

variable {U : Finset α} {w : α → ℤ} {x : ℕ → α → ℤ} {b : ℕ → α}

/-- A credit is what one got in all rounds less what one paid. -/
theorem Rounds.credit_eq (h : Rounds U w x b) (t : ℕ) {i : α} (hi : i ∈ U) :
    x t i = t * w i - (∑ j ∈ U, w j) * (Nat.count (fun s => b s = i) t : ℕ) := by
  induction t with
  | zero => simp [h.zero i hi]
  | succ t ih =>
    rw [h.step t i hi, settle, ih, if_pos hi, Nat.count_succ]
    by_cases hbt : b t = i
    · rw [if_pos hbt, if_pos hbt.symm]
      push_cast
      ring
    · rw [if_neg hbt, if_neg (Ne.symm hbt)]
      push_cast
      ring

theorem Rounds.sum_credit (h : Rounds U w x b) (t : ℕ) : ∑ i ∈ U, x t i = 0 := by
  induction t with
  | zero => exact sum_eq_zero h.zero
  | succ t ih => rw [sum_congr rfl (h.step t), sum_settle_of_subset subset_rfl (h.mem t), ih]

theorem Rounds.sum_count (h : Rounds U w x b) (t : ℕ) : ∑ i ∈ U, Nat.count (fun s => b s = i) t = t := by
  induction t with
  | zero => simp
  | succ t ih =>
    simp only [Nat.count_succ, sum_add_distrib, ih]
    rw [sum_ite_eq U (b t), if_pos (h.mem t)]

/-- Nobody ever owes the whole of a round: who pays had some credit before. -/
theorem Rounds.neg_lt_credit (h : Rounds U w x b) (hw : ∀ i ∈ U, 0 < w i) (t : ℕ) {i : α} (hi : i ∈ U) :
    -(∑ j ∈ U, w j) < x t i := by
  have htotal : 0 < ∑ j ∈ U, w j := sum_pos hw ⟨i, hi⟩
  induction t generalizing i with
  | zero =>
    rw [h.zero i hi]
    linarith
  | succ t ih =>
    rw [h.step t i hi, settle, if_pos hi]
    by_cases hbt : i = b t
    · rw [if_pos hbt]
      have hpays : 0 < x t i + w i := by
        by_contra hle
        have hall : ∑ j ∈ U, (x t j + w j) ≤ 0 := by
          apply sum_nonpos
          intro j hj
          have := h.max t j hj
          rw [← hbt] at this
          linarith
        rw [sum_add_distrib, h.sum_credit t] at hall
        linarith
      linarith
    · rw [if_neg hbt]
      have := ih hi
      have := hw i hi
      linarith

/-- After as many rounds as there are shares everybody paid as often as its share says. -/
theorem Rounds.count_period (h : Rounds U w x b) (hw : ∀ i ∈ U, 0 < w i) {W : ℕ} (hW : (W : ℤ) = ∑ j ∈ U, w j)
    {i : α} (hi : i ∈ U) : (Nat.count (fun s => b s = i) W : ℤ) = w i := by
  have htotal : 0 < ∑ j ∈ U, w j := sum_pos hw ⟨i, hi⟩
  -- nobody paid too often, and the counts add up to the shares
  have hle : ∀ j ∈ U, (Nat.count (fun s => b s = j) W : ℤ) ≤ w j := by
    intro j hj
    have hlow := h.neg_lt_credit hw W hj
    rw [h.credit_eq W hj, hW] at hlow
    nlinarith
  have hsum : ∑ j ∈ U, (Nat.count (fun s => b s = j) W : ℤ) = ∑ j ∈ U, w j := by
    rw [← hW, ← Nat.cast_sum, h.sum_count W]
  exact (sum_eq_sum_iff_of_le hle).mp hsum i hi

theorem Rounds.credit_period (h : Rounds U w x b) (hw : ∀ i ∈ U, 0 < w i) {W : ℕ} (hW : (W : ℤ) = ∑ j ∈ U, w j)
    {i : α} (hi : i ∈ U) : x W i = 0 := by
  rw [h.credit_eq W hi, h.count_period hw hW hi, hW]
  ring

/-- The credits repeat, so the choices do. -/
theorem Rounds.credit_add_period (h : Rounds U w x b) (hw : ∀ i ∈ U, 0 < w i) {W : ℕ} (hW : (W : ℤ) = ∑ j ∈ U, w j)
    (t : ℕ) : ∀ i ∈ U, x (t + W) i = x t i := by
  induction t with
  | zero =>
    intro i hi
    rw [zero_add, h.credit_period hw hW hi, h.zero i hi]
  | succ t ih =>
    intro i hi
    rw [Nat.add_right_comm, h.step (t + W) i hi, h.step t i hi, h.choice (t + W) t ih, settle, settle, ih i hi]

/-- In every window of as many rounds as there are shares everybody pays as often as its share says. -/
theorem Rounds.count_window (h : Rounds U w x b) (hw : ∀ i ∈ U, 0 < w i) {W : ℕ} (hW : (W : ℤ) = ∑ j ∈ U, w j)
    (s : ℕ) {i : α} (hi : i ∈ U) : (#{t ∈ Ico s (s + W) | b t = i} : ℤ) = w i := by
  have hperiodic : Function.Periodic (fun t => b t = i) W := by
    intro t
    simp only [h.choice (t + W) t (h.credit_add_period hw hW t)]
  rw [Nat.filter_Ico_card_eq_of_periodic s W _ hperiodic, h.count_period hw hW hi]

/-- After every so many rounds all credits are zero again. -/
theorem Rounds.credit_mul_period (h : Rounds U w x b) (hw : ∀ i ∈ U, 0 < w i) {W : ℕ}
    (hW : (W : ℤ) = ∑ j ∈ U, w j) (k : ℕ) {i : α} (hi : i ∈ U) : x (k * W) i = 0 := by
  induction k with
  | zero => rw [Nat.zero_mul, h.zero i hi]
  | succ k ih => rw [Nat.succ_mul, h.credit_add_period hw hW (k * W) i hi, ih]

end Fixed

end NginxDtls.Credit
