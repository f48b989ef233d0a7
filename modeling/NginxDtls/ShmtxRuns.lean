import NginxDtls.Shmtx

/-! The mutex over whole runs: one process is inside at a time, and none is left asleep while the mutex is
free. A process that goes to sleep has registered before it looked at the lock, so that whoever frees the lock
behind it finds it registered. -/

namespace NginxDtls.Shmtx

open Function Interleaving Run

variable {P : Type} [DecidableEq P] {mtx : Mtx} {s s' : Shared P} {p : P} {l : Place P}

/-! ### One process is inside -/

/-- The places between the access that takes the lock and the one that gives it back. -/
def Place.Holds : Place P → Prop
  | .withdraw | .inside | .unlock => True
  | _ => False

/-- The lock has the pid of the process that holds it, or of one that died with it. Only a dead process is forced out. -/
structure LockInv (s : Shared P) : Prop where
  held : ∀ p, (s.place p).Holds → s.lock = some p
  holder : ∀ p, s.lock = some p → (s.place p).Holds ∨ s.place p = .dead
  forced : ∀ p pid, s.place p = .force pid → s.place pid = .dead

/-- Where a process goes that does not force another one out. -/
theorem forced_update (h : LockInv s) (hplace : s'.place = update s.place p l) (hdead : s.place p ≠ .dead)
    (hl : ∀ pid, l = .force pid → s.place pid = .dead) : ∀ q pid, s'.place q = .force pid → s'.place pid = .dead := by
  intro q pid hq
  rw [hplace] at hq ⊢
  have hpid : s.place pid = .dead := by
    by_cases hqp : q = p
    · subst hqp
      rw [update_self] at hq
      exact hl pid hq
    · rw [update_of_ne hqp] at hq
      exact h.forced q pid hq
  have hne : pid ≠ p := by
    rintro rfl
    exact hdead hpid
  rw [update_of_ne hne, hpid]

/-- A process that moves and leaves the lock alone. -/
theorem LockInv.move (h : LockInv s) (hlock : s'.lock = s.lock) (hplace : s'.place = update s.place p l)
    (hdead : s.place p ≠ .dead) (hholds : (l.Holds ↔ (s.place p).Holds) ∨ l = .dead)
    (hforce : ∀ pid, l = .force pid → s.place pid = .dead) : LockInv s' where
  held := by
    intro q hq
    rw [hlock]
    rw [hplace] at hq
    by_cases hqp : q = p
    · subst hqp
      rw [update_self] at hq
      rcases hholds with hholds | rfl
      · exact h.held q (hholds.mp hq)
      · exact absurd hq id
    · rw [update_of_ne hqp] at hq
      exact h.held q hq
  holder := by
    intro q hq
    rw [hlock] at hq
    rw [hplace]
    by_cases hqp : q = p
    · subst hqp
      rw [update_self]
      rcases hholds with hholds | rfl
      · exact .inl (hholds.mpr ((h.holder q hq).resolve_right hdead))
      · exact .inr rfl
    · rw [update_of_ne hqp]
      exact h.holder q hq
  forced := forced_update h hplace hdead hforce

/-- A process that takes the lock. -/
theorem LockInv.take (h : LockInv s) (hfree : s.lock = none) (hlock : s'.lock = some p)
    (hplace : s'.place = update s.place p l) (hdead : s.place p ≠ .dead) (hl : l.Holds) : LockInv s' where
  held := by
    intro q hq
    rw [hplace] at hq
    by_cases hqp : q = p
    · rw [hlock, hqp]
    · rw [update_of_ne hqp] at hq
      exact absurd (hfree.symm.trans (h.held q hq)) (by simp)
  holder := by
    intro q hq
    obtain rfl := Option.some.inj (hlock.symm.trans hq)
    exact .inl (by rw [hplace, update_self]; exact hl)
  forced := by
    refine forced_update h hplace hdead fun pid heq => ?_
    rw [heq] at hl
    exact absurd hl id

/-- A process that gives the lock back, its own or that of a dead process. -/
theorem LockInv.give (h : LockInv s) {q : P} (hheld : s.lock = some q) (hq : q = p ∨ s.place q = .dead)
    (hlock : s'.lock = none) (hplace : s'.place = update s.place p l) (hdead : s.place p ≠ .dead) (hl : ¬l.Holds)
    (hforce : ∀ pid, l ≠ .force pid) : LockInv s' where
  held := by
    intro r hr
    rw [hplace] at hr
    by_cases hrp : r = p
    · subst hrp
      rw [update_self] at hr
      exact absurd hr hl
    · rw [update_of_ne hrp] at hr
      obtain rfl : q = r := Option.some.inj (hheld.symm.trans (h.held r hr))
      rcases hq with rfl | hqdead
      · exact absurd rfl hrp
      · rw [hqdead] at hr
        exact absurd hr id
  holder := by
    intro r hr
    rw [hlock] at hr
    cases hr
  forced := forced_update h hplace hdead fun pid heq => absurd heq (hforce pid)

omit [DecidableEq P] in
theorem retry_plain (mtx : Mtx) (rounds : ℕ) :
    ¬(mtx.retry rounds : Place P).Holds ∧ ∀ pid : P, mtx.retry rounds ≠ .force pid := by
  cases rounds with
  | succ rounds => exact ⟨id, nofun⟩
  | zero =>
      rw [Mtx.retry]
      split_ifs <;> exact ⟨id, nofun⟩

omit [DecidableEq P] in
theorem wakeup_plain (mtx : Mtx) : ¬(mtx.wakeup : Place P).Holds ∧ ∀ pid : P, mtx.wakeup ≠ .force pid := by
  rw [Mtx.wakeup]
  split_ifs <;> exact ⟨id, nofun⟩

/-- A step between places that do not hold the lock. -/
theorem LockInv.pass (h : LockInv s) {l₀ : Place P} (hp : s.place p = l₀) (hl₀ : ¬l₀.Holds ∧ l₀ ≠ .dead)
    (hlock : s'.lock = s.lock) (hplace : s'.place = update s.place p l) (hl : ¬l.Holds ∧ ∀ pid, l ≠ .force pid) :
    LockInv s' := by
  subst hp
  exact h.move hlock hplace hl₀.2 (.inl (iff_of_false hl.1 hl₀.1)) fun pid heq => absurd heq (hl.2 pid)

theorem access_lockInv (h : LockInv s) (henabled : Enabled s p) : LockInv (access mtx s p) := by
  rw [Enabled] at henabled
  have hfree : s.free = true → s.lock = none := fun hfree => Option.isNone_iff_eq_none.mp hfree
  cases hp : s.place p with
  | outside | inside | dead =>
      rw [hp] at henabled
      exact henabled.elim
  | tryRead | check | wakeRead | wakeSet =>
      simp only [access, hp]
      split_ifs <;> exact h.pass hp ⟨id, nofun⟩ rfl rfl ⟨id, nofun⟩
  | trySet =>
      simp only [access, hp]
      split_ifs with hlock
      · exact h.take (hfree hlock) rfl rfl (by simp [hp]) trivial
      · exact h.pass hp ⟨id, nofun⟩ rfl rfl ⟨id, nofun⟩
  | read rounds =>
      simp only [access, hp]
      split_ifs
      · exact h.pass hp ⟨id, nofun⟩ rfl rfl ⟨id, nofun⟩
      · exact h.pass hp ⟨id, nofun⟩ rfl rfl (retry_plain mtx rounds)
  | set rounds =>
      simp only [access, hp]
      split_ifs with hlock
      · exact h.take (hfree hlock) rfl rfl (by simp [hp]) trivial
      · exact h.pass hp ⟨id, nofun⟩ rfl rfl (retry_plain mtx rounds)
  | register | sleep | post =>
      simp only [access, hp]
      exact h.pass hp ⟨id, nofun⟩ rfl rfl ⟨id, nofun⟩
  | checkSet =>
      simp only [access, hp]
      split_ifs with hlock
      · exact h.take (hfree hlock) rfl rfl (by simp [hp]) trivial
      · exact h.pass hp ⟨id, nofun⟩ rfl rfl ⟨id, nofun⟩
  | withdraw =>
      simp only [access, hp]
      exact h.move rfl rfl (by simp [hp]) (.inl (by rw [hp]; exact Iff.rfl)) nofun
  | unlock =>
      have hheld : s.lock = some p := h.held p (by rw [hp]; trivial)
      simp only [access, hp, hheld, if_true]
      exact h.give hheld (.inl rfl) rfl rfl (by simp [hp]) (wakeup_plain mtx).1 (wakeup_plain mtx).2
  | force pid =>
      simp only [access, hp]
      split_ifs with hheld
      · exact h.give hheld (.inr (h.forced p pid hp)) rfl rfl (by simp [hp]) (wakeup_plain mtx).1 (wakeup_plain mtx).2
      · exact h.pass hp ⟨id, nofun⟩ rfl rfl ⟨id, nofun⟩

theorem step_lockInv {e : Event P} (h : LockInv s) (hok : Admitted s e) : LockInv (step mtx s e) := by
  cases e with
  | lock p | trylock p | semWaitFailed p => exact h.pass hok ⟨id, nofun⟩ rfl rfl ⟨id, nofun⟩
  | unlock p =>
      have hp : s.place p = .inside := hok
      exact h.move rfl rfl (by simp [hp]) (.inl (by rw [hp]; exact Iff.rfl)) nofun
  | forceUnlock p pid =>
      obtain ⟨hp, hdead⟩ : s.place p = .outside ∧ s.place pid = .dead := hok
      refine h.move rfl rfl (by simp [hp]) (.inl (by rw [hp]; exact Iff.rfl)) fun pid' heq => ?_
      cases heq
      exact hdead
  | access p => exact access_lockInv h hok
  | die p =>
      have hp : s.place p ≠ .dead := by
        rcases hok with hp | hp | hp <;> simp [hp]
      exact h.move rfl rfl hp (.inr rfl) nofun

/-- **One process is inside.** Over every run of any number of processes that come, go and die, a process inside has its pid
in the lock, so that no other one is inside, and none is while the lock has the pid of a process that died with it. -/
theorem shmtx_exclusive (mtx : Mtx) {es : List (Event P)} (hok : Along (step mtx) Admitted Shared.created es) :
    let s := run (step mtx) Shared.created es
    (∀ p, s.place p = .inside → s.lock = some p) ∧ ∀ p q, s.place p = .inside → s.place q = .inside → p = q := by
  have hcreated : LockInv (Shared.created : Shared P) := ⟨fun p hp => hp.elim, nofun, nofun⟩
  have h := run_invariant (I := LockInv) (fun s e h hok => step_lockInv h hok) hcreated hok
  have hheld : ∀ p, (run (step mtx) Shared.created es).place p = .inside →
      (run (step mtx) Shared.created es).lock = some p := fun p hp => h.held p (by rw [hp]; trivial)
  exact ⟨hheld, fun p q hp hq => Option.some.inj ((hheld p hp).symm.trans (hheld q hq))⟩

/-- A process takes the mutex, another one goes to sleep for it. -/
def contended : List (Event Bool) :=
  [.lock false, .access false, .access false, .lock true, .access true, .access true, .access true]

theorem contended_admitted : Along (step ⟨1, 2048, true⟩) Admitted Shared.created contended :=
  ⟨rfl, trivial, trivial, rfl, trivial, trivial, trivial, trivial⟩

theorem shmtx_exclusive_contended :
    (run (step ⟨1, 2048, true⟩) Shared.created contended).place false = .inside ∧
    (run (step ⟨1, 2048, true⟩) Shared.created contended).lock = some false :=
  ⟨rfl, (shmtx_exclusive ⟨1, 2048, true⟩ contended_admitted).1 false rfl⟩

/-! ### Nobody is left asleep -/

/-- A process that is counted in `*mtx->wait`, unless a wakeup has already been spent on it. -/
def Place.registered : Place P → ℤ
  | .check | .checkSet | .withdraw | .sleep => 1
  | _ => 0

/-- A wakeup that was taken from `*mtx->wait` and is not posted yet. -/
def Place.posting : Place P → ℤ
  | .post => 1
  | _ => 0

/-- A process that will look at the lock or at `*mtx->wait`, or post. -/
def Place.Awake : Place P → Prop
  | .read _ | .set _ | .register | .check | .checkSet | .wakeRead | .wakeSet _ | .post => True
  | _ => False

/-- The places of the code for the semaphore. -/
def Place.Semaphore : Place P → Prop
  | .register | .check | .checkSet | .withdraw | .sleep | .wakeRead | .wakeSet _ | .post => True
  | _ => False

variable [Fintype P] {l₀ : Place P}

/-- No wakeup is lost: there are as many as processes that are registered, waiting to be spent, on their way or posted; and
while the lock is free and there are some to be spent, a process is about to do so or to take the lock. -/
structure WaitInv (mtx : Mtx) (s : Shared P) : Prop where
  registered : total Place.registered s.place ≤ s.wait + s.sem + total Place.posting s.place
  awake : s.lock = none → 0 < s.wait → (∃ p, (s.place p).Awake) ∨ 0 < s.sem
  plain : mtx.semaphore = false → s.wait ≤ 0 ∧ ∀ p, ¬(s.place p).Semaphore

/-- A process that moves. -/
theorem WaitInv.move (h : WaitInv mtx s) (hp₀ : s.place p = l₀) (hplace : s'.place = update s.place p l)
    (hcount : l.registered - l₀.registered ≤
      s'.wait + s'.sem - (s.wait + s.sem) + (l.posting - l₀.posting))
    (hawake : s'.lock = none → 0 < s'.wait →
      l.Awake ∨ 0 < s'.sem ∨ s.lock = none ∧ 0 < s.wait ∧ ¬l₀.Awake ∧ s.sem ≤ s'.sem)
    (hplain : mtx.semaphore = false → s'.wait ≤ s.wait ∧ ¬l.Semaphore) : WaitInv mtx s' where
  registered := by
    have hregistered := h.registered
    rw [hplace, total_update, total_update, hp₀]
    omega
  awake := by
    intro hlock hwait
    rw [hplace]
    rcases hawake hlock hwait with hl | hsem | ⟨hlock, hwait, hp, hsem⟩
    · exact .inl (exists_update_self s.place p hl)
    · exact .inr hsem
    · rcases h.awake hlock hwait with hex | hsome
      · exact .inl (exists_update (fun hawake => absurd hawake (hp₀ ▸ hp)) hex)
      · exact .inr (lt_of_lt_of_le hsome hsem)
  plain := by
    intro hsemaphore
    obtain ⟨hwait, hplaces⟩ := h.plain hsemaphore
    obtain ⟨hle, hl⟩ := hplain hsemaphore
    refine ⟨hle.trans hwait, fun q => ?_⟩
    rw [hplace]
    by_cases hqp : q = p
    · subst hqp
      rw [update_self]
      exact hl
    · rw [update_of_ne hqp]
      exact hplaces q

omit [DecidableEq P] [Fintype P] in
theorem retry_awake (mtx : Mtx) (rounds : ℕ) : (mtx.retry rounds : Place P).Awake ∧
    (mtx.retry rounds : Place P).registered = 0 ∧ (mtx.retry rounds : Place P).posting = 0 ∧
    (mtx.semaphore = false → ¬(mtx.retry rounds : Place P).Semaphore) := by
  cases rounds with
  | succ rounds => exact ⟨trivial, rfl, rfl, fun _ => id⟩
  | zero =>
      rw [Mtx.retry]
      split_ifs with hsemaphore
      · exact ⟨trivial, rfl, rfl, fun hplain => absurd (hplain.symm.trans hsemaphore) Bool.false_ne_true⟩
      · exact ⟨trivial, rfl, rfl, fun _ => id⟩

omit [DecidableEq P] [Fintype P] in
theorem wakeup_awake (mtx : Mtx) : (mtx.semaphore = true → (mtx.wakeup : Place P).Awake) ∧
    (mtx.wakeup : Place P).registered = 0 ∧ (mtx.wakeup : Place P).posting = 0 ∧
    (mtx.semaphore = false → ¬(mtx.wakeup : Place P).Semaphore) := by
  rw [Mtx.wakeup]
  split_ifs with hsemaphore
  · exact ⟨fun _ => trivial, rfl, rfl, fun hplain => absurd (hplain.symm.trans hsemaphore) Bool.false_ne_true⟩
  · exact ⟨fun htrue => absurd htrue hsemaphore, rfl, rfl, fun _ => id⟩

/-- A process that moves between places that do not count, and changes no word but the lock. -/
theorem WaitInv.pass (h : WaitInv mtx s) (hp₀ : s.place p = l₀) (hplace : s'.place = update s.place p l) (hwait : s'.wait = s.wait)
    (hsem : s'.sem = s.sem) (hregistered : l.registered = l₀.registered) (hposting : l.posting = l₀.posting)
    (hawake : s'.lock = none → 0 < s.wait → l.Awake ∨ s.lock = none ∧ ¬l₀.Awake)
    (hplain : mtx.semaphore = false → ¬l.Semaphore) : WaitInv mtx s' := by
  refine h.move hp₀ hplace (by rw [hwait, hsem, hregistered, hposting]; omega) (fun hlock hpos => ?_) fun hs => ⟨hwait.le, hplain hs⟩
  rw [hwait] at hpos
  rcases hawake hlock hpos with hl | ⟨hfree, hp⟩
  · exact .inl hl
  · exact .inr (.inr ⟨hfree, hpos, hp, hsem.ge⟩)

/-- A process that moves between places that do not count and are not awake, and changes no word. -/
theorem WaitInv.still (h : WaitInv mtx s) (hp₀ : s.place p = l₀) (hplace : s'.place = update s.place p l) (hlock : s'.lock = s.lock)
    (hwait : s'.wait = s.wait) (hsem : s'.sem = s.sem) (hregistered : l.registered = l₀.registered)
    (hposting : l.posting = l₀.posting) (hp : ¬l₀.Awake) (hl : ¬l.Semaphore) : WaitInv mtx s' :=
  h.pass hp₀ hplace hwait hsem hregistered hposting (fun hnone _ => .inr ⟨hlock.symm.trans hnone, hp⟩) fun _ => hl

/-- A lock that is given back is a process that wakes another one up. -/
theorem WaitInv.give (h : WaitInv mtx s) (hp₀ : s.place p = l₀) (hplace : s'.place = update s.place p mtx.wakeup) (hwait : s'.wait = s.wait)
    (hsem : s'.sem = s.sem) (hregistered : l₀.registered = 0) (hposting : l₀.posting = 0) :
    WaitInv mtx s' := by
  obtain ⟨hawake, hregistered', hposting', hplain⟩ := wakeup_awake (P := P) mtx
  refine h.pass hp₀ hplace hwait hsem (hregistered'.trans hregistered.symm) (hposting'.trans hposting.symm)
    (fun _ hpos => ?_) hplain
  cases hsemaphore : mtx.semaphore with
  | true => exact .inl (hawake hsemaphore)
  | false => exact absurd (h.plain hsemaphore).1 (not_le.mpr hpos)

theorem access_waitInv (h : WaitInv mtx s) (henabled : Enabled s p) : WaitInv mtx (access mtx s p) := by
  rw [Enabled] at henabled
  have hfree : s.free = true → s.lock = none := fun hfree => Option.isNone_iff_eq_none.mp hfree
  have htaken : ¬s.free = true → s.lock ≠ none := fun hfree hlock => hfree (Option.isNone_iff_eq_none.mpr hlock)
  have hsemaphore : ∀ {l : Place P}, s.place p = l → l.Semaphore → mtx.semaphore = false → False := fun hp hl hs =>
    (h.plain hs).2 p (hp ▸ hl)
  cases hp : s.place p with
  | outside | inside | dead =>
      rw [hp] at henabled
      exact henabled.elim
  | tryRead =>
      simp only [access, hp]
      split_ifs <;> exact h.still hp rfl rfl rfl rfl rfl rfl id id
  | trySet =>
      simp only [access, hp]
      split_ifs with hlock
      · exact h.pass hp rfl rfl rfl rfl rfl nofun fun _ => id
      · exact h.still hp rfl rfl rfl rfl rfl rfl id id
  | read rounds =>
      obtain ⟨hawake, hregistered, hposting, hplain⟩ := retry_awake (P := P) mtx rounds
      simp only [access, hp]
      split_ifs with hlock
      · exact h.pass hp rfl rfl rfl rfl rfl (fun _ _ => .inl trivial) fun _ => id
      · exact h.pass hp rfl rfl rfl hregistered hposting (fun _ _ => .inl hawake) hplain
  | set rounds =>
      obtain ⟨hawake, hregistered, hposting, hplain⟩ := retry_awake (P := P) mtx rounds
      simp only [access, hp]
      split_ifs with hlock
      · exact h.pass hp rfl rfl rfl rfl rfl nofun fun _ => id
      · exact h.pass hp rfl rfl rfl hregistered hposting (fun _ _ => .inl hawake) hplain
  | register =>
      simp only [access, hp]
      refine h.move hp rfl ?_ (fun _ _ => .inl trivial) fun hs => (hsemaphore hp trivial hs).elim
      show (1 : ℤ) - 0 ≤ s.wait + 1 + s.sem - (s.wait + s.sem) + (0 - 0)
      omega
  | check =>
      simp only [access, hp]
      split_ifs with hlock
      · exact h.pass hp rfl rfl rfl rfl rfl (fun _ _ => .inl trivial)
          fun hs => (hsemaphore hp trivial hs).elim
      · exact h.pass hp rfl rfl rfl rfl rfl (fun hnone _ => absurd hnone (htaken hlock))
          fun hs => (hsemaphore hp trivial hs).elim
  | checkSet =>
      simp only [access, hp]
      split_ifs with hlock
      · exact h.pass hp rfl rfl rfl rfl rfl nofun fun hs => (hsemaphore hp trivial hs).elim
      · exact h.pass hp rfl rfl rfl rfl rfl (fun hnone _ => absurd hnone (htaken hlock))
          fun hs => (hsemaphore hp trivial hs).elim
  | withdraw =>
      simp only [access, hp]
      refine h.move hp rfl ?_ (fun hnone hpos => .inr (.inr ⟨hnone, ?_, id, le_refl _⟩))
        fun hs => (hsemaphore hp trivial hs).elim
      · show (0 : ℤ) - 1 ≤ s.wait - 1 + s.sem - (s.wait + s.sem) + (0 - 0)
        omega
      · change 0 < s.wait - 1 at hpos
        omega
  | sleep =>
      rw [hp] at henabled
      change s.sem ≠ 0 at henabled
      simp only [access, hp]
      refine h.move hp rfl ?_ (fun _ _ => .inl trivial) fun hs => (hsemaphore hp trivial hs).elim
      show (0 : ℤ) - 1 ≤ s.wait + (s.sem - 1 : ℕ) - (s.wait + s.sem) + (0 - 0)
      omega
  | unlock | force =>
      simp only [access, hp]
      split_ifs with hheld
      · exact h.give hp rfl rfl rfl rfl rfl
      · exact h.still hp rfl rfl rfl rfl rfl rfl id id
  | wakeRead =>
      simp only [access, hp]
      split_ifs with hwait
      · exact h.pass hp rfl rfl rfl rfl rfl (fun _ hpos => absurd hwait (not_le.mpr hpos)) fun _ => id
      · exact h.pass hp rfl rfl rfl rfl rfl (fun _ _ => .inl trivial)
          fun hs => (hsemaphore hp trivial hs).elim
  | wakeSet wait =>
      simp only [access, hp]
      split_ifs with hwait
      · refine h.move hp rfl ?_ (fun _ _ => .inl trivial) fun hs => (hsemaphore hp trivial hs).elim
        show (0 : ℤ) - 0 ≤ wait - 1 + s.sem - (s.wait + s.sem) + (1 - 0)
        omega
      · exact h.pass hp rfl rfl rfl rfl rfl (fun _ _ => .inl trivial)
          fun hs => (hsemaphore hp trivial hs).elim
  | post =>
      simp only [access, hp]
      refine h.move hp rfl ?_ (fun _ _ => .inr (.inl (Nat.succ_pos s.sem))) fun _ => ⟨le_refl _, id⟩
      show (0 : ℤ) - 0 ≤ s.wait + (s.sem + 1 : ℕ) - (s.wait + s.sem) + (0 - 1)
      omega

theorem step_waitInv {e : Event P} (h : WaitInv mtx s) (hok : Admitted s e) : WaitInv mtx (step mtx s e) := by
  cases e with
  | lock p =>
      have hp : s.place p = .outside := hok
      exact h.pass hp rfl rfl rfl rfl rfl (fun _ _ => .inl trivial) fun _ => id
  | trylock p =>
      have hp : s.place p = .outside := hok
      exact h.still hp rfl rfl rfl rfl rfl rfl id id
  | unlock p =>
      have hp : s.place p = .inside := hok
      exact h.still hp rfl rfl rfl rfl rfl rfl id id
  | forceUnlock p pid =>
      have hp : s.place p = .outside := hok.1
      exact h.still hp rfl rfl rfl rfl rfl rfl id id
  | access p => exact access_waitInv h hok
  | semWaitFailed p =>
      have hp : s.place p = .sleep := hok
      refine h.move hp rfl ?_ (fun _ _ => .inl trivial) fun _ => ⟨le_refl _, id⟩
      show (0 : ℤ) - 1 ≤ s.wait + s.sem - (s.wait + s.sem) + (0 - 0)
      omega
  | die p =>
      rcases hok with hp | hp | hp
      · exact h.still hp rfl rfl rfl rfl rfl rfl id id
      · exact h.still hp rfl rfl rfl rfl rfl rfl id id
      · refine h.move hp rfl ?_ (fun hnone hpos => .inr (.inr ⟨hnone, hpos, id, le_refl _⟩)) fun _ => ⟨le_refl _, id⟩
        show (0 : ℤ) - 1 ≤ s.wait + s.sem - (s.wait + s.sem) + (0 - 0)
        omega

omit [DecidableEq P] [Fintype P] in
theorem enabled_of_awake (h : (s.place p).Awake) : Enabled s p := by
  rw [Enabled]
  cases hp : s.place p <;> rw [hp] at h <;> first | exact trivial | exact h.elim

omit [DecidableEq P] [Fintype P] in
theorem awake_of_posting (h : (s.place p).posting ≠ 0) : (s.place p).Awake := by
  cases hp : s.place p with
  | post => trivial
  | _ => exact absurd (hp ▸ rfl) h

omit [DecidableEq P] in
theorem one_le_registered (hp : s.place p = .sleep) : 1 ≤ total Place.registered s.place := by
  have hone : Place.registered (s.place p) = 1 := by rw [hp]; rfl
  rw [← hone]
  refine le_total (fun l => ?_) s.place p
  cases l <;> simp [Place.registered]

/-- **Nobody is left asleep.** Over every run of any number of processes, if one is asleep in `ngx_shmtx_lock` then the lock
is held, or a sleeping process is let through, or a process can go on that will look at the lock or wake a sleeping one. -/
theorem shmtx_awake (mtx : Mtx) {es : List (Event P)} (hok : Along (step mtx) Admitted Shared.created es) :
    let s := run (step mtx) Shared.created es
    (∃ p, s.place p = .sleep) →
      s.lock ≠ none ∨ ∃ p, Enabled s p ∧ (s.place p = .sleep ∨ (s.place p).Awake) := by
  have hcreated : WaitInv mtx (Shared.created : Shared P) :=
    ⟨by simp [Shared.created, total, Place.registered, Place.posting], fun _ hpos => absurd hpos (lt_irrefl _),
      fun _ => ⟨le_refl _, fun _ => id⟩⟩
  have h := run_invariant (I := WaitInv mtx) (fun s e h hok => step_waitInv h hok) hcreated hok
  intro s ⟨p, hp⟩
  rw [or_iff_not_imp_left, not_not]
  intro hnone
  by_cases hsem : s.sem = 0
  · -- nothing is posted: a wakeup is still to be spent, or on its way
    have hregistered : 1 ≤ s.wait + s.sem + total Place.posting s.place := (one_le_registered hp).trans h.registered
    by_cases hwait : 0 < s.wait
    · rcases h.awake hnone hwait with ⟨q, hq⟩ | hpos
      · exact ⟨q, enabled_of_awake hq, .inr hq⟩
      · exact absurd hsem (Nat.pos_iff_ne_zero.mp hpos)
    · have hposting : total Place.posting s.place ≠ 0 := by omega
      obtain ⟨q, hq⟩ : ∃ q, (s.place q).posting ≠ 0 := by
        by_contra hall
        exact hposting (total_eq_zero fun q => not_not.mp fun hq => hall ⟨q, hq⟩)
      exact ⟨q, enabled_of_awake (awake_of_posting hq), .inr (awake_of_posting hq)⟩
  · exact ⟨p, by rw [Enabled, hp]; exact hsem, .inl hp⟩

/-- The lock is given back, and the process that sleeps is let through. -/
theorem shmtx_awake_contended :
    let s := run (step ⟨1, 2048, true⟩) Shared.created (contended ++ [.unlock false, .access false])
    s.lock = none ∧ s.place true = .sleep ∧ ∃ p, Enabled s p ∧ (s.place p = .sleep ∨ (s.place p).Awake) := by
  have hok : Along (step ⟨1, 2048, true⟩) Admitted Shared.created (contended ++ [.unlock false, .access false]) :=
    along_append.mpr ⟨contended_admitted, rfl, trivial, trivial⟩
  exact ⟨rfl, rfl, (shmtx_awake ⟨1, 2048, true⟩ hok ⟨true, rfl⟩).resolve_left fun hlock => hlock rfl⟩

end NginxDtls.Shmtx
