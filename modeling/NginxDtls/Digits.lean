import Mathlib.Tactic

/-! Numbers as strings of digits, the most significant one first, and how a reader that goes from left to right and gives
up above a bound finds exactly the numbers up to the bound. -/

namespace NginxDtls.Digits

variable {α : Type} {b max : ℕ} {digit : α → Option ℕ}

/-- The number that digits denote. -/
def number (b : ℕ) (ds : List ℕ) : ℕ := Nat.ofDigits b ds.reverse

@[simp] theorem number_nil : number b [] = 0 := rfl

theorem number_cons (d : ℕ) (ds : List ℕ) : number b (d :: ds) = d * b ^ ds.length + number b ds := by
  rw [number, List.reverse_cons, Nat.ofDigits_append, List.length_reverse, Nat.ofDigits_singleton, number]
  ring

/-- The number that a string denotes, if it is not empty and has digits only. -/
def denoted (b : ℕ) (digit : α → Option ℕ) (s : List α) : Option ℕ :=
  if s.isEmpty then none else (s.mapM digit).map (number b)

/-- A number up to the bound. -/
def atMost (max n : ℕ) : Option ℕ := if n ≤ max then some n else none

theorem atMost_eq_some {n k : ℕ} : atMost max n = some k ↔ n ≤ max ∧ n = k := by
  rw [atMost]
  split <;> simp_all

theorem atMost_eq_none {n : ℕ} : atMost max n = none ↔ max < n := by
  rw [atMost]
  split <;> simp_all

/-- The digits are read one after another while the number so far is at most `max`. -/
def scan (b max : ℕ) (digit : α → Option ℕ) : List α → ℕ → Option ℕ
  | [], v => some v
  | c :: s, v => (digit c).bind fun d => (atMost max (v * b + d)).bind (scan b max digit s)

/-- Nothing is lost by giving up early, since the number only grows. -/
theorem scan_eq (hb : 0 < b) (s : List α) {v : ℕ} (hv : v ≤ max) :
    scan b max digit s v = (s.mapM digit).bind fun ds => atMost max (v * b ^ ds.length + number b ds) := by
  induction s generalizing v with
  | nil =>
      rw [scan, List.mapM_nil]
      symm
      simpa [atMost] using hv
  | cons c s ih =>
      rw [scan, List.mapM_cons]
      cases hc : digit c with
      | none => rfl
      | some d =>
          have hnumber : ∀ ds : List ℕ, v * b ^ (d :: ds).length + number b (d :: ds) =
              (v * b + d) * b ^ ds.length + number b ds := by
            intro ds
            rw [number_cons, List.length_cons, pow_succ]
            ring
          have hall : ((some d >>= fun d => s.mapM digit >>= fun ds => pure (d :: ds)).bind fun ds =>
              atMost max (v * b ^ ds.length + number b ds)) =
              (s.mapM digit).bind fun ds => atMost max ((v * b + d) * b ^ ds.length + number b ds) := by
            cases s.mapM digit with
            | none => rfl
            | some ds => exact congrArg (atMost max) (hnumber ds)
          rw [hall, Option.bind_some]
          by_cases hle : v * b + d ≤ max
          · rw [atMost, if_pos hle, Option.bind_some, ih hle]
          · rw [atMost, if_neg hle, Option.bind_none]
            symm
            cases s.mapM digit with
            | none => rfl
            | some ds =>
                have hgrow : v * b + d ≤ (v * b + d) * b ^ ds.length :=
                  Nat.le_mul_of_pos_right _ (Nat.pow_pos hb)
                apply atMost_eq_none.mpr
                omega

end NginxDtls.Digits
