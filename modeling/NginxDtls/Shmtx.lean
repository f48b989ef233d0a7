import NginxDtls.Interleaving

/-! The mutex in shared memory: `ngx_shmtx.c` with atomic operations and, where there is one, a semaphore. A process takes
one access to the shared words after another, and any other process may come in between. -/

namespace NginxDtls.Shmtx

open Function

variable {P : Type} [DecidableEq P]

/-- `ngx_ncpu`, and of `ngx_shmtx_t` what its functions read. -/
structure Mtx where
  ncpu : ℕ
  spin : ℕ
  semaphore : Bool

/-- The rounds of the loop that pauses `n` times, for `n = 1`, `2`, `4` and so on below `mtx->spin`. -/
def Mtx.pauses (mtx : Mtx) : ℕ := if mtx.ncpu > 1 then Nat.clog 2 mtx.spin else 0

/-- The next access of a process to the shared words. -/
inductive Place (P : Type) where
  | outside
  -- `ngx_shmtx_trylock`
  | tryRead
  | trySet
  -- `ngx_shmtx_lock`, with the rounds that are left
  | read (rounds : ℕ)
  | set (rounds : ℕ)
  | register
  | check
  | checkSet
  | withdraw
  | sleep
  -- behind either of them
  | inside
  -- `ngx_shmtx_unlock` and `ngx_shmtx_force_unlock`
  | unlock
  | force (pid : P)
  -- `ngx_shmtx_wakeup`
  | wakeRead
  | wakeSet (wait : ℤ)
  | post
  | dead
  deriving DecidableEq

/-- The words in shared memory and the processes. `*mtx->lock` is a pid, or none. -/
structure Shared (P : Type) where
  lock : Option P
  wait : ℤ
  sem : ℕ
  place : P → Place P

def Shared.goto (s : Shared P) (p : P) (place : Place P) : Shared P := { s with place := update s.place p place }

/-- `*mtx->lock == 0` -/
def Shared.free (s : Shared P) : Bool := s.lock.isNone

/-- A round of `ngx_shmtx_lock` that has failed. -/
def Mtx.retry (mtx : Mtx) : ℕ → Place P
  | rounds + 1 => .read rounds
  | 0 => if mtx.semaphore then .register else .read mtx.pauses

/-- The beginning of `ngx_shmtx_wakeup`. -/
def Mtx.wakeup (mtx : Mtx) : Place P := if mtx.semaphore then .wakeRead else .outside

/-- The next access of `p`. -/
def access (mtx : Mtx) (s : Shared P) (p : P) : Shared P :=
  match s.place p with
  | .tryRead => s.goto p (if s.free then .trySet else .outside)
  | .trySet => if s.free then { s with lock := some p }.goto p .inside else s.goto p .outside
  | .read rounds => s.goto p (if s.free then .set rounds else mtx.retry rounds)
  | .set rounds => if s.free then { s with lock := some p }.goto p .inside else s.goto p (mtx.retry rounds)
  | .register => { s with wait := s.wait + 1 }.goto p .check
  | .check => s.goto p (if s.free then .checkSet else .sleep)
  | .checkSet => if s.free then { s with lock := some p }.goto p .withdraw else s.goto p .sleep
  | .withdraw => { s with wait := s.wait - 1 }.goto p .inside
  | .sleep => { s with sem := s.sem - 1 }.goto p (.read mtx.pauses)
  | .unlock => if s.lock = some p then { s with lock := none }.goto p mtx.wakeup else s.goto p .outside
  | .force pid => if s.lock = some pid then { s with lock := none }.goto p mtx.wakeup else s.goto p .outside
  | .wakeRead => s.goto p (if s.wait ≤ 0 then .outside else .wakeSet s.wait)
  | .wakeSet wait => if s.wait = wait then { s with wait := wait - 1 }.goto p .post else s.goto p .wakeRead
  | .post => { s with sem := s.sem + 1 }.goto p .outside
  | .outside | .inside | .dead => s

/-- What can happen. A process calls a function, goes on to its next access or ends; `sem_wait` may fail. -/
inductive Event (P : Type) where
  | lock (p : P)
  | trylock (p : P)
  | unlock (p : P)
  | forceUnlock (p pid : P)
  | access (p : P)
  | semWaitFailed (p : P)
  | die (p : P)

def step (mtx : Mtx) (s : Shared P) : Event P → Shared P
  | .lock p => s.goto p (.read mtx.pauses)
  | .trylock p => s.goto p .tryRead
  | .unlock p => s.goto p .unlock
  | .forceUnlock p pid => s.goto p (.force pid)
  | .access p => access mtx s p
  | .semWaitFailed p => s.goto p (.read mtx.pauses)
  | .die p => s.goto p .dead

/-- A process has an access ahead. In `sem_wait` it has one only if the semaphore lets it through. -/
def Enabled (s : Shared P) (p : P) : Prop :=
  match s.place p with
  | .outside | .inside | .dead => False
  | .sleep => s.sem ≠ 0
  | _ => True

/-- Functions are called from outside, and the mutex is unlocked by the process that is inside. It is unlocked by force for a
process that is dead. A process may die outside, inside, or where it sleeps. -/
def Admitted (s : Shared P) : Event P → Prop
  | .lock p => s.place p = .outside
  | .trylock p => s.place p = .outside
  | .unlock p => s.place p = .inside
  | .forceUnlock p pid => s.place p = .outside ∧ s.place pid = .dead
  | .access p => Enabled s p
  | .semWaitFailed p => s.place p = .sleep
  | .die p => s.place p = .outside ∨ s.place p = .inside ∨ s.place p = .sleep

/-- A mutex behind `ngx_shmtx_create`. -/
def Shared.created : Shared P := ⟨none, 0, 0, fun _ => .outside⟩

end NginxDtls.Shmtx
