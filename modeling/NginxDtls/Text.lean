import Mathlib.Tactic
import Mathlib.Data.Nat.Digits.Lemmas

/-! Text that can be read back: fields joined with a separator that occurs in none of them, and numbers
written in a base. Both are injective, which is what an argument about re-splitting a text rests on. -/

namespace NginxDtls.Text

section Fields

variable {α : Type} {sep : α}

/-- The fields of `l` with a separator between any two. -/
def joinWith (sep : α) : List (List α) → List α
  | [] => []
  | [x] => x
  | x :: y :: l => x ++ sep :: joinWith sep (y :: l)

theorem joinWith_cons {l : List (List α)} (hl : l ≠ []) (x : List α) :
    joinWith sep (x :: l) = x ++ sep :: joinWith sep l := by
  cases l with
  | nil => exact absurd rfl hl
  | cons y l => rfl

/-- The first separator ends the first field. -/
theorem append_sep_inj {x y r r' : List α} (hx : sep ∉ x) (hy : sep ∉ y)
    (h : x ++ sep :: r = y ++ sep :: r') : x = y ∧ r = r' := by
  induction x generalizing y with
  | nil =>
      cases y with
      | nil => exact ⟨rfl, (List.cons.inj h).2⟩
      | cons b y => exact absurd (by rw [(List.cons.inj h).1]; simp) hy
  | cons a x ih =>
      cases y with
      | nil => exact absurd (by rw [← (List.cons.inj h).1]; simp) hx
      | cons b y =>
          obtain ⟨rfl, htail⟩ := List.cons.inj h
          obtain ⟨rfl, rfl⟩ := ih (fun hm => hx (List.mem_cons_of_mem _ hm))
            (fun hm => hy (List.mem_cons_of_mem _ hm)) htail
          exact ⟨rfl, rfl⟩

/-- Fields without the separator are determined by their join. -/
theorem joinWith_injective {l l' : List (List α)} (hl : l ≠ []) (hl' : l' ≠ [])
    (hsep : ∀ x ∈ l, sep ∉ x) (hsep' : ∀ x ∈ l', sep ∉ x)
    (h : joinWith sep l = joinWith sep l') : l = l' := by
  induction l generalizing l' with
  | nil => exact absurd rfl hl
  | cons x l ih =>
      cases l' with
      | nil => exact absurd rfl hl'
      | cons y l' =>
          have hx := hsep x (by simp)
          have hy := hsep' y (by simp)
          by_cases hnil : l = []
          · by_cases hnil' : l' = []
            · subst hnil hnil'
              exact congrArg (fun z => [z]) h
            · -- a separator on one side only
              subst hnil
              rw [joinWith_cons hnil'] at h
              exact absurd (by rw [show x = _ from h]; simp) hx
          · by_cases hnil' : l' = []
            · subst hnil'
              rw [joinWith_cons hnil] at h
              exact absurd (by rw [← show _ = y from h]; simp) hy
            · rw [joinWith_cons hnil, joinWith_cons hnil'] at h
              obtain ⟨rfl, htail⟩ := append_sep_inj hx hy h
              rw [ih hnil hnil' (fun z hz => hsep z (List.mem_cons_of_mem _ hz))
                (fun z hz => hsep' z (List.mem_cons_of_mem _ hz)) htail]

end Fields

/-! ### Numbers -/

/-- The character of a digit below 16. -/
def digitChar (d : Nat) : UInt8 := UInt8.ofNat (if d < 10 then 48 + d else 87 + d)

/-- The digit of a character. -/
def charDigit (c : UInt8) : Nat := if c.toNat < 87 then c.toNat - 48 else c.toNat - 87

theorem charDigit_digitChar {d : Nat} (hd : d < 16) : charDigit (digitChar d) = d := by
  interval_cases d <;> decide

/-- `n` written in base `b`, most significant digit first. -/
def numText (b n : Nat) : List UInt8 :=
  if n = 0 then [digitChar 0] else ((b.digits n).map digitChar).reverse

theorem numText_ne_nil (b n : Nat) : numText b n ≠ [] := by
  unfold numText
  split_ifs with h
  · simp
  · simpa [Nat.digits_eq_nil_iff_eq_zero] using h

theorem mem_numText {b n : Nat} (hb : 1 < b) {c : UInt8} (hc : c ∈ numText b n) :
    ∃ d < b, c = digitChar d := by
  unfold numText at hc
  split_ifs at hc with h
  · exact ⟨0, by omega, List.mem_singleton.mp hc⟩
  · obtain ⟨d, hd, rfl⟩ := List.mem_map.mp (List.mem_reverse.mp hc)
    exact ⟨d, Nat.digits_lt_base hb hd, rfl⟩

/-- The number that a text denotes. -/
def textNum (b : Nat) (l : List UInt8) : Nat := Nat.ofDigits b (l.reverse.map charDigit)

theorem textNum_numText {b : Nat} (hb : 1 < b) (hb16 : b ≤ 16) (n : Nat) :
    textNum b (numText b n) = n := by
  unfold numText
  split_ifs with h
  · subst h
    simp [textNum, charDigit_digitChar]
  · have hdigits : (b.digits n).map (charDigit ∘ digitChar) = b.digits n := by
      calc (b.digits n).map (charDigit ∘ digitChar)
          = (b.digits n).map id := List.map_congr_left fun d hd =>
            charDigit_digitChar ((Nat.digits_lt_base hb hd).trans_le hb16)
        _ = b.digits n := List.map_id _
    rw [textNum, List.reverse_reverse, List.map_map, hdigits, Nat.ofDigits_digits]

theorem numText_injective {b : Nat} (hb : 1 < b) (hb16 : b ≤ 16) :
    Function.Injective (numText b) :=
  Function.LeftInverse.injective (textNum_numText hb hb16)

end NginxDtls.Text
