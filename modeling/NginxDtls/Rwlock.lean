import NginxDtls.Interleaving

/-! The lock for one writer or many readers: `ngx_rwlock.c`. One word counts the readers, or is `NGX_RWLOCK_WLOCK`. The code
that unlocks does not know what it holds but from the word. -/

namespace NginxDtls.Rwlock

open Function Interleaving Run

variable {P : Type} [DecidableEq P]

def ngxRwlockSpin : ℕ := 2048

def ngxRwlockWlock : ℕ := 2 ^ 64 - 1

/-- The rounds of the loop that pauses, behind the first one. -/
def pauses (ncpu : ℕ) : ℕ := if ncpu > 1 then Nat.clog 2 ngxRwlockSpin else 0

/-- The next access of a process to the word. What a process holds that unlocks or downgrades is noted for the proofs. -/
inductive Place where
  | outside
  -- `ngx_rwlock_wlock`
  | wRead (rounds : ℕ)
  | wSet (rounds : ℕ)
  -- `ngx_rwlock_rlock`
  | rRead (rounds : ℕ)
  | rSet (rounds readers : ℕ)
  -- behind them
  | writing
  | reading
  -- `ngx_rwlock_unlock`
  | unlock (writer : Bool)
  | unlockSet (writer : Bool)
  | unlockAdd (writer : Bool)
  -- `ngx_rwlock_downgrade`
  | downgrade (writer : Bool)
  | downgradeSet (writer : Bool)
  deriving DecidableEq

structure Shared (P : Type) where
  lock : ℕ
  place : P → Place

def Shared.goto (s : Shared P) (p : P) (place : Place) : Shared P := { s with place := update s.place p place }

/-- A round of `ngx_rwlock_wlock` that has failed. -/
def wRetry (ncpu : ℕ) : ℕ → Place
  | rounds + 1 => .wRead rounds
  | 0 => .wRead (pauses ncpu)

/-- A round of `ngx_rwlock_rlock` that has failed. -/
def rRetry (ncpu : ℕ) : ℕ → Place
  | rounds + 1 => .rRead rounds
  | 0 => .rRead (pauses ncpu)

/-- The next access of `p`. -/
def access (ncpu : ℕ) (s : Shared P) (p : P) : Shared P :=
  match s.place p with
  | .wRead rounds => s.goto p (if s.lock = 0 then .wSet rounds else wRetry ncpu rounds)
  | .wSet rounds =>
    if s.lock = 0 then { s with lock := ngxRwlockWlock }.goto p .writing else s.goto p (wRetry ncpu rounds)
  | .rRead rounds => s.goto p (if s.lock = ngxRwlockWlock then rRetry ncpu rounds else .rSet rounds s.lock)
  | .rSet rounds readers =>
    if s.lock = readers then { s with lock := (readers + 1) % 2 ^ 64 }.goto p .reading
    else s.goto p (rRetry ncpu rounds)
  | .unlock writer => s.goto p (if s.lock = ngxRwlockWlock then .unlockSet writer else .unlockAdd writer)
  | .unlockSet _ => if s.lock = ngxRwlockWlock then { s with lock := 0 }.goto p .outside else s.goto p .outside
  | .unlockAdd _ => { s with lock := (s.lock + (2 ^ 64 - 1)) % 2 ^ 64 }.goto p .outside
  | .downgrade writer =>
    s.goto p (if s.lock = ngxRwlockWlock then .downgradeSet writer else if writer then .writing else .reading)
  | .downgradeSet _ => { s with lock := 1 }.goto p .reading
  | .outside | .writing | .reading => s

/-- What can happen. A process calls a function, or goes on to its next access. -/
inductive Event (P : Type) where
  | wlock (p : P)
  | rlock (p : P)
  | unlock (p : P)
  | downgrade (p : P)
  | access (p : P)

def step (ncpu : ℕ) (s : Shared P) : Event P → Shared P
  | .wlock p => s.goto p (.wRead (pauses ncpu))
  | .rlock p => s.goto p (.rRead (pauses ncpu))
  | .unlock p => s.goto p (.unlock (s.place p = .writing))
  | .downgrade p => s.goto p (.downgrade (s.place p = .writing))
  | .access p => access ncpu s p

/-- A process that holds nothing asks for the lock, and one that holds it unlocks or downgrades. -/
def Admitted (s : Shared P) : Event P → Prop
  | .wlock p | .rlock p => s.place p = .outside
  | .unlock p | .downgrade p => s.place p = .writing ∨ s.place p = .reading
  | .access _ => True

instance (s : Shared P) (e : Event P) : Decidable (Admitted s e) :=
  match e with
  | .wlock p | .rlock p => inferInstanceAs (Decidable (s.place p = .outside))
  | .unlock p | .downgrade p => inferInstanceAs (Decidable (s.place p = .writing ∨ s.place p = .reading))
  | .access _ => inferInstanceAs (Decidable True)

/-- A lock that nobody has taken yet. -/
def Shared.fresh : Shared P := ⟨0, fun _ => .outside⟩

/-! ### What a process holds -/

def Place.writer : Place → ℤ
  | .writing => 1
  | .unlock writer | .unlockSet writer | .unlockAdd writer | .downgrade writer | .downgradeSet writer =>
    if writer then 1 else 0
  | _ => 0

def Place.reader : Place → ℤ
  | .reading => 1
  | .unlock writer | .unlockSet writer | .unlockAdd writer | .downgrade writer | .downgradeSet writer =>
    if writer then 0 else 1
  | _ => 0

/-- The branch that was taken for the word is the one for what is held, and a reader has not read a writer's word. -/
def Place.Sound : Place → Prop
  | .rSet _ readers => readers ≠ ngxRwlockWlock
  | .unlockSet writer | .downgradeSet writer => writer = true
  | .unlockAdd writer => writer = false
  | _ => True

theorem Place.writer_nonneg (l : Place) : 0 ≤ l.writer := by
  cases l <;> grind [Place.writer]

theorem Place.reader_nonneg (l : Place) : 0 ≤ l.reader := by
  cases l <;> grind [Place.reader]

theorem Place.reader_le_one (l : Place) : l.reader ≤ 1 := by
  cases l <;> grind [Place.reader]

theorem wRetry_plain (ncpu rounds : ℕ) :
    (wRetry ncpu rounds).writer = 0 ∧ (wRetry ncpu rounds).reader = 0 ∧ (wRetry ncpu rounds).Sound := by
  cases rounds <;> exact ⟨rfl, rfl, trivial⟩

theorem rRetry_plain (ncpu rounds : ℕ) :
    (rRetry ncpu rounds).writer = 0 ∧ (rRetry ncpu rounds).reader = 0 ∧ (rRetry ncpu rounds).Sound := by
  cases rounds <;> exact ⟨rfl, rfl, trivial⟩

variable [Fintype P] {ncpu : ℕ} {s s' : Shared P} {p : P} {l l₀ : Place}

/-- The word counts the readers while nobody writes. -/
structure RwInv (s : Shared P) : Prop where
  word : total Place.writer s.place = 0 ∧ (s.lock : ℤ) = total Place.reader s.place ∨
    total Place.writer s.place = 1 ∧ total Place.reader s.place = 0 ∧ s.lock = ngxRwlockWlock
  sound : ∀ p, (s.place p).Sound

/-- A process that moves. -/
theorem RwInv.move (h : RwInv s) (hp : s.place p = l₀) (hplace : s'.place = update s.place p l) (hl : l.Sound)
    (hword : total Place.writer s.place + (l.writer - l₀.writer) = 0 ∧
        (s'.lock : ℤ) = total Place.reader s.place + (l.reader - l₀.reader) ∨
      total Place.writer s.place + (l.writer - l₀.writer) = 1 ∧
        total Place.reader s.place + (l.reader - l₀.reader) = 0 ∧ s'.lock = ngxRwlockWlock) : RwInv s' where
  word := by
    rw [hplace, total_update, total_update, hp]
    omega
  sound := by
    intro q
    rw [hplace]
    by_cases hqp : q = p
    · subst hqp
      rw [update_self]
      exact hl
    · rw [update_of_ne hqp]
      exact h.sound q

/-- A process that moves and holds what it held. -/
theorem RwInv.pass (h : RwInv s) (hp : s.place p = l₀) (hplace : s'.place = update s.place p l) (hlock : s'.lock = s.lock) (hl : l.Sound)
    (hwriter : l.writer = l₀.writer) (hreader : l.reader = l₀.reader) : RwInv s' := by
  refine h.move hp hplace hl ?_
  rw [hwriter, hreader, hlock]
  have hword := h.word
  omega

omit [DecidableEq P] in
/-- A process that writes has the word for itself. -/
theorem RwInv.of_writer (h : RwInv s) (hp : s.place p = l) (hl : l.writer = 1) :
    total Place.writer s.place = 1 ∧ total Place.reader s.place = 0 ∧ s.lock = ngxRwlockWlock := by
  have hle := le_total Place.writer_nonneg s.place p
  rw [hp, hl] at hle
  rcases h.word with ⟨hzero, -⟩ | hone
  · omega
  · exact hone

omit [DecidableEq P] in
/-- While a process reads nobody writes, and the word is far from its bounds. -/
theorem RwInv.of_reader (h : RwInv s) (hcard : Fintype.card P < ngxRwlockWlock) (hp : s.place p = l) (hl : l.reader = 1) :
    total Place.writer s.place = 0 ∧ (s.lock : ℤ) = total Place.reader s.place ∧ 1 ≤ s.lock ∧ s.lock < ngxRwlockWlock := by
  have hle := le_total Place.reader_nonneg s.place p
  rw [hp, hl] at hle
  have hcount := total_le_card Place.reader_le_one s.place
  rcases h.word with ⟨hzero, hlock⟩ | ⟨-, hnone, -⟩
  · exact ⟨hzero, hlock, by omega, by omega⟩
  · omega

theorem access_rwInv (hcard : Fintype.card P < ngxRwlockWlock) (h : RwInv s) : RwInv (access ncpu s p) := by
  have hword : ngxRwlockWlock = 2 ^ 64 - 1 := rfl
  have hsound := h.sound p
  cases hp : s.place p with
  | outside | writing | reading =>
      simp only [access, hp]
      exact h
  | wRead rounds =>
      obtain ⟨hwriter, hreader, hplain⟩ := wRetry_plain ncpu rounds
      simp only [access, hp]
      split_ifs
      · exact h.pass hp rfl rfl trivial rfl rfl
      · exact h.pass hp rfl rfl hplain hwriter hreader
  | wSet rounds =>
      obtain ⟨hwriter, hreader, hplain⟩ := wRetry_plain ncpu rounds
      simp only [access, hp]
      split_ifs with hfree
      · -- the word is 0, so that nobody reads
        refine h.move hp rfl trivial (.inr ?_)
        rcases h.word with ⟨hzero, hlock⟩ | ⟨-, -, hlock⟩
        · exact ⟨by rw [hzero]; rfl, by rw [← hlock, hfree]; rfl, rfl⟩
        · rw [hlock] at hfree
          exact absurd hfree (by decide)
      · exact h.pass hp rfl rfl hplain hwriter hreader
  | rRead rounds =>
      obtain ⟨hwriter, hreader, hplain⟩ := rRetry_plain ncpu rounds
      simp only [access, hp]
      split_ifs with hlock
      · exact h.pass hp rfl rfl hplain hwriter hreader
      · exact h.pass hp rfl rfl hlock rfl rfl
  | rSet rounds readers =>
      obtain ⟨hwriter, hreader, hplain⟩ := rRetry_plain ncpu rounds
      simp only [access, hp]
      split_ifs with hlock
      · -- the word is still that of readers only
        rw [hp] at hsound
        subst hlock
        obtain ⟨hzero, hcount⟩ := h.word.resolve_right fun hone => hsound hone.2.2
        have hle := total_le_card Place.reader_le_one s.place
        refine h.move hp rfl trivial (.inl ?_)
        rw [hzero, ← hcount]
        refine ⟨rfl, ?_⟩
        show (((s.lock + 1) % 2 ^ 64 : ℕ) : ℤ) = s.lock + (1 - 0)
        omega
      · exact h.pass hp rfl rfl hplain hwriter hreader
  | unlock writer =>
      simp only [access, hp]
      cases writer with
      | true =>
          have hlock := (h.of_writer hp rfl).2.2
          rw [if_pos hlock]
          exact h.pass hp rfl rfl rfl rfl rfl
      | false =>
          have hlock := (h.of_reader hcard hp rfl).2.2.2
          rw [if_neg hlock.ne]
          exact h.pass hp rfl rfl rfl rfl rfl
  | unlockSet writer =>
      rw [hp] at hsound
      obtain rfl : writer = true := hsound
      obtain ⟨hone, hnone, hlock⟩ := h.of_writer hp rfl
      simp only [access, hp, if_pos hlock]
      refine h.move hp rfl trivial (.inl ?_)
      rw [hone, hnone]
      exact ⟨rfl, rfl⟩
  | unlockAdd writer =>
      rw [hp] at hsound
      obtain rfl : writer = false := hsound
      obtain ⟨hzero, hlock, hpos, hlt⟩ := h.of_reader hcard hp rfl
      simp only [access, hp]
      refine h.move hp rfl trivial (.inl ?_)
      rw [hzero, ← hlock]
      refine ⟨rfl, ?_⟩
      show (((s.lock + (2 ^ 64 - 1)) % 2 ^ 64 : ℕ) : ℤ) = s.lock + (0 - 1)
      omega
  | downgrade writer =>
      simp only [access, hp]
      cases writer with
      | true =>
          have hlock := (h.of_writer hp rfl).2.2
          rw [if_pos hlock]
          exact h.pass hp rfl rfl rfl rfl rfl
      | false =>
          have hlock := (h.of_reader hcard hp rfl).2.2.2
          rw [if_neg hlock.ne]
          exact h.pass hp rfl rfl trivial rfl rfl
  | downgradeSet writer =>
      rw [hp] at hsound
      obtain rfl : writer = true := hsound
      obtain ⟨hone, hnone, -⟩ := h.of_writer hp rfl
      simp only [access, hp]
      refine h.move hp rfl trivial (.inl ?_)
      rw [hone, hnone]
      exact ⟨rfl, rfl⟩

theorem step_rwInv {e : Event P} (hcard : Fintype.card P < ngxRwlockWlock) (h : RwInv s) (hok : Admitted s e) :
    RwInv (step ncpu s e) := by
  cases e with
  | wlock p | rlock p =>
      have hp : s.place p = .outside := hok
      exact h.pass hp rfl rfl trivial rfl rfl
  | unlock p | downgrade p =>
      rcases hok with hp | hp
      · exact h.pass hp rfl rfl trivial (by rw [hp]; rfl) (by rw [hp]; rfl)
      · exact h.pass hp rfl rfl trivial (by rw [hp]; rfl) (by rw [hp]; rfl)
  | access p => exact access_rwInv hcard h

/-- **A writer is alone.** Over every run of fewer processes than `NGX_RWLOCK_WLOCK`, while a process holds the lock to write,
no other one holds it in any way, and the word is `NGX_RWLOCK_WLOCK`; while none does, the word is the number of those that
hold it to read. A process that downgrades holds the lock all the time. -/
theorem rwlock_exclusive (ncpu : ℕ) {es : List (Event P)} (hcard : Fintype.card P < ngxRwlockWlock)
    (hok : Along (step ncpu) Admitted Shared.fresh es) :
    let s := run (step ncpu) Shared.fresh es
    (∀ p, (s.place p).writer = 1 → s.lock = ngxRwlockWlock ∧
      ∀ q, q ≠ p → (s.place q).writer = 0 ∧ (s.place q).reader = 0) ∧
    ((∀ p, (s.place p).writer = 0) → (s.lock : ℤ) = total Place.reader s.place) := by
  have hfresh : RwInv (Shared.fresh : Shared P) :=
    ⟨.inl ⟨total_eq_zero fun _ => rfl, (total_eq_zero fun _ => rfl).symm⟩, fun _ => trivial⟩
  intro s
  have h : RwInv s := run_invariant (I := RwInv) (fun s e h hok => step_rwInv hcard h hok) hfresh hok
  constructor
  · intro p hp
    obtain ⟨hone, hnone, hlock⟩ := h.of_writer rfl hp
    refine ⟨hlock, fun q hq => ?_⟩
    have hwriters := add_le_total Place.writer_nonneg s.place hq
    have hreaders := le_total Place.reader_nonneg s.place q
    have hwriter := (s.place q).writer_nonneg
    have hreader := (s.place q).reader_nonneg
    exact ⟨by omega, by omega⟩
  · intro hnone
    rcases h.word with ⟨-, hlock⟩ | ⟨hone, -⟩
    · exact hlock
    · rw [total_eq_zero hnone] at hone
      exact absurd hone (by decide)

/-- A writer that becomes a reader, and another reader beside it. -/
theorem rwlock_exclusive_downgraded :
    let s := run (step 1) Shared.fresh ([.wlock false, .access false, .access false, .downgrade false, .access false,
      .access false, .rlock true, .access true, .access true] : List (Event Bool))
    s.place false = .reading ∧ s.place true = .reading ∧ (s.lock : ℤ) = total Place.reader s.place :=
  ⟨by decide, by decide, (rwlock_exclusive 1 (by decide) (by decide)).2 (by decide)⟩

end NginxDtls.Rwlock
