import Mathlib.Data.List.Basic

/-! Computations that take their input in pieces: a piece is used up and more is asked for, or the computation ends. A
computation is resumable if a piece may be cut anywhere; then all that counts is what the pieces say together. -/

namespace NginxDtls.Resume

variable {σ ρ α : Type*}

/-- What a piece of input leads to. -/
inductive Progress (σ ρ : Type*) where
  | more (s : σ)
  | done (r : ρ)

namespace Progress

def bind {τ : Type*} (x : Progress σ ρ) (f : σ → Progress τ ρ) : Progress τ ρ :=
  match x with
  | more s => f s
  | done r => done r

@[simp] theorem more_bind {τ : Type*} (s : σ) (f : σ → Progress τ ρ) : (more s : Progress σ ρ).bind f = f s := rfl

@[simp] theorem done_bind {τ : Type*} (r : ρ) (f : σ → Progress τ ρ) : (done r : Progress σ ρ).bind f = done r := rfl

theorem bind_assoc {τ υ : Type*} (x : Progress σ ρ) (f : σ → Progress τ ρ) (g : τ → Progress υ ρ) :
    (x.bind f).bind g = x.bind fun s => (f s).bind g := by
  cases x <;> rfl

end Progress

/-- Piece after piece, as long as more is asked for. -/
def feed (f : σ → List α → Progress σ ρ) : σ → List (List α) → Progress σ ρ
  | s, [] => .more s
  | s, piece :: pieces => (f s piece).bind fun s => feed f s pieces

/-- A piece may be cut anywhere. -/
def Resumable (f : σ → List α → Progress σ ρ) : Prop := ∀ s a b, f s (a ++ b) = (f s a).bind fun s => f s b

variable {f : σ → List α → Progress σ ρ}

/-- Pieces lead where they lead when they are put together. -/
theorem Resumable.feed_eq (h : Resumable f) (s : σ) {pieces : List (List α)} (hne : pieces ≠ []) :
    feed f s pieces = f s pieces.flatten := by
  induction pieces generalizing s with
  | nil => exact absurd rfl hne
  | cons piece pieces ih =>
    rw [feed, List.flatten_cons]
    cases pieces with
    | nil =>
      rw [List.flatten_nil, List.append_nil]
      cases f s piece <;> rfl
    | cons next pieces =>
      rw [h]
      congr 1
      funext s'
      exact ih s' (List.cons_ne_nil _ _)

end NginxDtls.Resume
