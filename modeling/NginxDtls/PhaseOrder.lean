import NginxDtls.PhaseEngine

/-! Calls in the order of the phases: the last answer of a handler says which one is called next, and the content
handler comes behind all. It is its turn exactly when every handler that was not skipped has let the session pass. -/

namespace NginxDtls.PhaseEngine

variable {H W : Type}

/-! ### Calls in order -/

/-- The code of an event if it is a call of the handler with this index. -/
def Event.rcOf (k : ℕ) : Event H → Option HandlerRc
  | .call j _ rc => if j = k then some rc else none
  | _ => none

/-- What the handler with an index returned last. -/
def lastRc (log : List (Event H)) (k : ℕ) : Option HandlerRc := log.reverse.findSome? (Event.rcOf k)

def Finalized (log : List (Event H)) : Prop := ∃ rc, .finalized rc ∈ log

/-- The handler may be called: the session is there, and it has not returned, or has asked to be called again. -/
structure Callable (log : List (Event H)) (k : ℕ) : Prop where
  live : ¬Finalized log
  last : lastRc log k = none ∨ lastRc log k = some .again ∨ lastRc log k = some .done

/-- Which handler comes after one that has returned: after `NGX_OK` the first one of the next phase that has one, after
`NGX_DECLINED` the one behind it. -/
inductive Next (l : List (StreamPhase × H)) : ℕ → HandlerRc → ℕ → Prop
  | ok {k k' : ℕ} (h : NextPhase l k k') : Next l k .ok k'
  | declined (k : ℕ) : Next l k .declined (k + 1)
  | stays {k : ℕ} {rc : HandlerRc} (hok : rc ≠ .ok) (hdeclined : rc ≠ .declined) : Next l k rc k

/-- Calls in the order of the handlers, and the index of the handler whose turn it is. -/
inductive Ordered (l : List (StreamPhase × H)) : List (Event H) → ℕ → Prop
  | start : Ordered l [] 0
  | call {log : List (Event H)} {k k' : ℕ} {i : StreamPhase} {h : H} {rc : HandlerRc} (hlog : Ordered l log k)
      (hcallable : Callable log k) (hget : l[k]? = some (i, h)) (hnext : Next l k rc k') :
      Ordered l (log ++ [.call k h rc]) k'
  | content {log : List (Event H)} (hlog : Ordered l log l.length) (hlive : ¬Finalized log) :
      Ordered l (log ++ [.content]) l.length
  | nodelayFailed {log : List (Event H)} (hlog : Ordered l log l.length) (hlive : ¬Finalized log) :
      Ordered l (log ++ [.nodelayFailed]) l.length
  | finalized {log : List (Event H)} {k : ℕ} (hlog : Ordered l log k) (hlive : ¬Finalized log) (rc : ℤ) :
      Ordered l (log ++ [.finalized rc]) k

/-- A handler that was not skipped has returned `NGX_OK` or `NGX_DECLINED`, and the next one is this. -/
inductive PassesTo (l : List (StreamPhase × H)) (log : List (Event H)) : ℕ → ℕ → Prop
  | ok {k k' : ℕ} (hlast : lastRc log k = some .ok) (h : NextPhase l k k') : PassesTo l log k k'
  | declined {k : ℕ} (hlast : lastRc log k = some .declined) : PassesTo l log k (k + 1)

/-- Every handler before an index, but those that were skipped, has returned `NGX_OK` or `NGX_DECLINED`. -/
def Passed (l : List (StreamPhase × H)) (log : List (Event H)) : ℕ → Prop := Relation.ReflTransGen (PassesTo l log) 0

/-! ### What the order says -/

section Order

variable {l : List (StreamPhase × H)} {log : List (Event H)} {k k' : ℕ}

theorem lastRc_append (log : List (Event H)) (e : Event H) (k : ℕ) :
    lastRc (log ++ [e]) k = (e.rcOf k).or (lastRc log k) := by
  rw [lastRc, List.reverse_append, List.reverse_singleton, List.singleton_append, List.findSome?_cons]
  cases e.rcOf k <;> rfl

theorem lastRc_call (log : List (Event H)) (k : ℕ) (h : H) (rc : HandlerRc) :
    lastRc (log ++ [.call k h rc]) k = some rc := by
  rw [lastRc_append, Event.rcOf, if_pos rfl, Option.some_or]

theorem lastRc_call_ne {j : ℕ} (hne : j ≠ k) (h : H) (rc : HandlerRc) :
    lastRc (log ++ [.call j h rc]) k = lastRc log k := by
  rw [lastRc_append, Event.rcOf, if_neg hne, Option.none_or]

theorem lastRc_other {e : Event H} (he : ∀ k, e.rcOf k = none) (k : ℕ) : lastRc (log ++ [e]) k = lastRc log k := by
  rw [lastRc_append, he, Option.none_or]

theorem NextPhase.unique {k₁ k₂ : ℕ} (h₁ : NextPhase l k k₁) (h₂ : NextPhase l k k₂) : k₁ = k₂ := by
  obtain hlt | heq | hlt := lt_trichotomy k₁ k₂
  · exact absurd (h₂.same k₁ h₁.lt.le hlt) (h₁.changed (hlt.trans_le h₂.le))
  · exact heq
  · exact absurd (h₁.same k₂ h₂.lt.le hlt) (h₂.changed (hlt.trans_le h₁.le))

theorem PassesTo.lt (h : PassesTo l log k k') : k < k' := by
  cases h with
  | ok hlast h => exact h.lt
  | declined hlast => exact Nat.lt_succ_self k

theorem le_of_passesTo (h : Relation.ReflTransGen (PassesTo l log) k k') : k ≤ k' := by
  induction h with
  | refl => exact le_rfl
  | tail _ hstep ih => exact ih.trans hstep.lt.le

theorem passesTo_unique : Relator.RightUnique (PassesTo l log) := by
  intro k k₁ k₂ h₁ h₂
  cases h₁ with
  | ok hlast h =>
      cases h₂ with
      | ok hlast' h' => exact h.unique h'
      | declined hlast' => cases hlast.symm.trans hlast'
  | declined hlast =>
      cases h₂ with
      | ok hlast' h' => cases hlast.symm.trans hlast'
      | declined hlast' => rfl

/-- What a handler returned before its turn has come to another one counts on. -/
theorem Passed.append {e : Event H} (h : Passed l log k) (he : ∀ j < k, e.rcOf j = none) :
    Passed l (log ++ [e]) k := by
  induction h with
  | refl => exact .refl
  | @tail k k' hpassed hstep ih =>
      have hlast : lastRc (log ++ [e]) k = lastRc log k := by
        rw [lastRc_append, he k hstep.lt, Option.none_or]
      refine Relation.ReflTransGen.tail (ih fun j hj => he j (hj.trans hstep.lt)) ?_
      cases hstep with
      | ok h hnext => exact .ok (hlast.trans h) hnext
      | declined h => exact .declined (hlast.trans h)

/-- What is known where it is the turn of a handler. -/
structure Turn (l : List (StreamPhase × H)) (log : List (Event H)) (k : ℕ) : Prop where
  le : k ≤ l.length
  passed : Passed l log k
  last : lastRc log k ≠ some .ok ∧ lastRc log k ≠ some .declined
  later : ∀ j, k < j → lastRc log j = none

theorem Turn.other {e : Event H} (h : Turn l log k) (he : ∀ k, e.rcOf k = none) : Turn l (log ++ [e]) k where
  le := h.le
  passed := h.passed.append fun j _ => he j
  last := by
    rw [lastRc_other he]
    exact h.last
  later j hj := by
    rw [lastRc_other he]
    exact h.later j hj

theorem Ordered.turn (h : Ordered l log k) : Turn l log k := by
  induction h with
  | start => exact ⟨Nat.zero_le _, .refl, by simp [lastRc], fun j _ => rfl⟩
  | @call log k k' i h rc hlog hcallable hget hnext ih =>
      have hlt : k < l.length := (List.getElem?_eq_some_iff.1 hget).1
      have hpassed : Passed l (log ++ [.call k h rc]) k := ih.passed.append fun j hj => by
        rw [Event.rcOf, if_neg (Nat.ne_of_gt hj)]
      have hlater : ∀ j, k < j → lastRc (log ++ [.call k h rc]) j = none := fun j hj => by
        rw [lastRc_call_ne (Nat.ne_of_lt hj)]
        exact ih.later j hj
      have hlast := lastRc_call log k h rc
      cases hnext with
      | ok hphase =>
          refine ⟨hphase.le, hpassed.tail (.ok hlast hphase), ?_, fun j hj => hlater j (hphase.lt.trans hj)⟩
          rw [hlater k' hphase.lt]
          exact ⟨nofun, nofun⟩
      | declined =>
          refine ⟨hlt, hpassed.tail (.declined hlast), ?_, fun j hj => hlater j ((Nat.lt_succ_self k).trans hj)⟩
          rw [hlater (k + 1) (Nat.lt_succ_self k)]
          exact ⟨nofun, nofun⟩
      | stays hok hdeclined =>
          refine ⟨hlt.le, hpassed, ?_, hlater⟩
          rw [hlast]
          exact ⟨fun h => hok (Option.some.inj h), fun h => hdeclined (Option.some.inj h)⟩
  | content hlog hlive ih => exact ih.other fun _ => rfl
  | nodelayFailed hlog hlive ih => exact ih.other fun _ => rfl
  | finalized hlog hlive rc ih => exact ih.other fun _ => rfl

/-- The handlers are all passed exactly when it is the turn of the content handler. -/
theorem Ordered.passed_iff (h : Ordered l log k) : Passed l log l.length ↔ k = l.length := by
  have hturn := h.turn
  constructor
  · intro hpassed
    obtain hto | hfrom := Relation.ReflTransGen.total_of_right_unique passesTo_unique hturn.passed hpassed
    · obtain heq | ⟨k', hstep, -⟩ := Relation.ReflTransGen.cases_head hto
      · exact heq
      · cases hstep with
        | ok hlast _ => exact absurd hlast hturn.last.1
        | declined hlast => exact absurd hlast hturn.last.2
    · exact le_antisymm hturn.le (le_of_passesTo hfrom)
  · rintro rfl
    exact hturn.passed

end Order

end NginxDtls.PhaseEngine
