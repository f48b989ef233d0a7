import Mathlib.Tactic

/-! Programs that can do something undefined, such as a read outside of a string, or return before their end. A program is
safe if it does nothing undefined and its value, if it has one, is right. -/

namespace NginxDtls.Checked

/-- Why a program has no value. -/
inductive Stop (ρ : Type) where
  | undefined
  | returned (rc : ρ)
  deriving DecidableEq, Repr

/-- A program that may return a code before its end. -/
abbrev Checked (ρ α : Type) : Type := Except (Stop ρ) α

variable {ρ α β : Type} {Q Q' : α → Prop} {R : β → Prop}

/-- A program does nothing undefined, and its value is right if it has one. -/
def Safe (m : Checked ρ α) (Q : α → Prop) : Prop :=
  match m with
  | .ok a => Q a
  | .error .undefined => False
  | .error (.returned _) => True

theorem safe_pure {a : α} (h : Q a) : Safe (pure a : Checked ρ α) Q := h

theorem safe_return (rc : ρ) : Safe (throw (.returned rc) : Checked ρ α) Q := trivial

theorem Safe.mono {m : Checked ρ α} (hm : Safe m Q) (h : ∀ a, Q a → Q' a) : Safe m Q' := by
  cases m with
  | ok a => exact h a hm
  | error stop =>
      cases stop with
      | undefined => exact hm
      | returned rc => exact trivial

theorem safe_bind {m : Checked ρ α} {f : α → Checked ρ β} (hm : Safe m Q) (hf : ∀ a, Q a → Safe (f a) R) :
    Safe (m >>= f) R := by
  cases m with
  | ok a => exact hf a hm
  | error stop =>
      cases stop with
      | undefined => exact hm
      | returned rc => exact trivial

theorem safe_ite {c : Prop} [Decidable c] {m m' : Checked ρ α} (hm : c → Safe m Q) (hm' : ¬c → Safe m' Q) :
    Safe (if c then m else m') Q := by
  split
  · exact hm ‹c›
  · exact hm' ‹¬c›

/-- `p[i]`, where a pointer is what stands from it on. -/
def peekAt (p : List UInt8) (i : ℕ) : Checked ρ UInt8 :=
  match p[i]? with
  | none => throw .undefined
  | some c => pure c

theorem peekAt_eq {p : List UInt8} {i : ℕ} {c : UInt8} (h : p[i]? = some c) :
    (peekAt p i : Checked ρ UInt8) = pure c := by
  rw [peekAt, h]

end NginxDtls.Checked
