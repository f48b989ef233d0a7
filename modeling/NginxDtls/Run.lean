import Mathlib.Tactic

/-! Runs of a machine that takes one event after another, and the two rules that everything about whole
runs goes through: an invariant kept by every admitted step holds at the end of every admitted run, and a
run can be cut anywhere. -/

namespace NginxDtls.Run

variable {S E : Type} (step : S → E → S) (ok : S → E → Prop)

/-- The state after the events. -/
def run : S → List E → S
  | s, [] => s
  | s, e :: es => run (step s e) es

/-- Every event is admitted by the state it meets. -/
def Along : S → List E → Prop
  | _, [] => True
  | s, e :: es => ok s e ∧ Along (step s e) es

instance decidableAlong [∀ s e, Decidable (ok s e)] : ∀ (s : S) (es : List E), Decidable (Along step ok s es)
  | _, [] => inferInstanceAs (Decidable True)
  | s, e :: es =>
    have := decidableAlong (step s e) es
    inferInstanceAs (Decidable (ok s e ∧ Along step ok (step s e) es))

variable {step ok}

theorem run_append (s : S) (es es' : List E) :
    run step s (es ++ es') = run step (run step s es) es' := by
  induction es generalizing s with
  | nil => rfl
  | cons e es ih => exact ih (step s e)

theorem along_append {s : S} {es es' : List E} :
    Along step ok s (es ++ es') ↔ Along step ok s es ∧ Along step ok (run step s es) es' := by
  induction es generalizing s with
  | nil => exact ⟨fun h => ⟨trivial, h⟩, fun h => h.2⟩
  | cons e es ih =>
      constructor
      · rintro ⟨he, htail⟩
        exact ⟨⟨he, (ih.mp htail).1⟩, (ih.mp htail).2⟩
      · rintro ⟨⟨he, hes⟩, hes'⟩
        exact ⟨he, ih.mpr ⟨hes, hes'⟩⟩

/-- What every admitted step keeps holds after every admitted run. -/
theorem run_invariant {I : S → Prop} (hstep : ∀ s e, I s → ok s e → I (step s e)) {s : S}
    {es : List E} (hs : I s) (hok : Along step ok s es) : I (run step s es) := by
  induction es generalizing s with
  | nil => exact hs
  | cons e es ih => exact ih (hstep s e hs hok.1) hok.2

/-- What an invariant gives at every step holds along the run. -/
theorem along_of_invariant {I : S → Prop} {ok' : S → E → Prop} (hstep : ∀ s e, I s → ok s e → I (step s e))
    (hI : ∀ s e, I s → ok s e → ok' s e) {s : S} {es : List E} (hs : I s) (hok : Along step ok s es) :
    Along step ok' s es := by
  induction es generalizing s with
  | nil => trivial
  | cons e es ih => exact ⟨hI s e hs hok.1, ih (hstep s e hs hok.1) hok.2⟩

/-- What every step keeps holds after every run. -/
theorem run_induction {I : S → Prop} (hstep : ∀ s e, I s → I (step s e)) {s : S} (hs : I s) (es : List E) :
    I (run step s es) := by
  induction es generalizing s with
  | nil => exact hs
  | cons e es ih => exact ih (hstep s e hs)

theorem along_true (s : S) (es : List E) : Along step (fun _ _ => True) s es := by
  induction es generalizing s with
  | nil => trivial
  | cons e es ih => exact ⟨trivial, ih _⟩

/-- Two ways to admit a step agree along every run if they agree where an invariant holds that admitted steps keep. -/
theorem along_iff {I : S → Prop} {ok' : S → E → Prop} (hiff : ∀ s e, I s → (ok s e ↔ ok' s e))
    (hkeep : ∀ s e, I s → ok' s e → I (step s e)) {s : S} {es : List E} (hs : I s) :
    Along step ok s es ↔ Along step ok' s es := by
  induction es generalizing s with
  | nil => exact Iff.rfl
  | cons e es ih =>
      constructor
      · rintro ⟨he, hes⟩
        have he' := (hiff s e hs).mp he
        exact ⟨he', (ih (hkeep s e hs he')).mp hes⟩
      · rintro ⟨he', hes⟩
        exact ⟨(hiff s e hs).mpr he', (ih (hkeep s e hs he')).mpr hes⟩

/-- A property that holds in every state reached exactly when every step is admitted: an invariant implies it, an
admitted step keeps the invariant, and any other step breaks the property at once. -/
theorem reached_iff_along {I P : S → Prop} {ok' : S → E → Prop} (hP : ∀ s, I s → P s)
    (hkeep : ∀ s e, I s → ok s e → ok' s e → I (step s e))
    (hbreak : ∀ s e, I s → ok s e → P (step s e) → ok' s e) {s : S} {es : List E} (hs : I s)
    (hok : Along step ok s es) : (∀ es', es' <+: es → P (run step s es')) ↔ Along step ok' s es := by
  induction es generalizing s with
  | nil =>
      refine ⟨fun _ => trivial, fun _ es' hes' => ?_⟩
      rw [List.prefix_nil.mp hes']
      exact hP s hs
  | cons e es ih =>
      constructor
      · intro h
        have he : ok' s e := hbreak s e hs hok.1 (h [e] ⟨es, rfl⟩)
        refine ⟨he, (ih (hkeep s e hs hok.1 he) hok.2).mp fun es' hes' => ?_⟩
        exact h (e :: es') (List.cons_prefix_cons.mpr ⟨rfl, hes'⟩)
      · intro h es' hes'
        cases es' with
        | nil => exact hP s hs
        | cons e' es' =>
            obtain ⟨rfl, htail⟩ := List.cons_prefix_cons.mp hes'
            exact (ih (hkeep s e' hs hok.1 h.1) hok.2).mpr h.2 es' htail

end NginxDtls.Run
