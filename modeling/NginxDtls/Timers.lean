import NginxDtls.RbtreeOrder

/-! The timers of `ngx_event_timer.c`: a red-black tree whose keys are milliseconds modulo the width of `ngx_msec_t`,
ordered by the sign of their difference. Events are the nodes of the tree, and the handlers of expired timers do not
touch timers. -/

namespace NginxDtls

open Zipper RbTree Run

/-- `NGX_TIMER_LAZY_DELAY`. -/
def ngxTimerLazyDelay : Int := 300

/-- `NGX_TIMER_INFINITE`. -/
def ngxTimerInfinite (w : Nat) : BitVec w := BitVec.allOnes w

/-- `ngx_abs` of an `ngx_msec_int_t`. The negation of the least number is undefined. -/
def ngxAbs {w : Nat} (value : BitVec w) : Option (BitVec w) :=
  if 0 ≤ value.toInt then some value else if value = BitVec.intMin w then none else some (-value)

/-- The timer tree, `ngx_current_msec`, and the fields `timer_set` and `timedout` of the events. -/
structure Timers (w : Nat) where
  tree : RbTree
  now : BitVec w
  timerSet : Nat → Bool
  timedout : Nat → Bool
  /-- The events in the tree. -/
  pending : List Nat

namespace Timers

variable {w : Nat}

/-- `ev->timer.key`. -/
def key (st : Timers w) (ev : Nat) : BitVec w := BitVec.ofNat w (st.tree.key ev)

/-- The fuel of the loops. -/
def fuel (st : Timers w) : Nat := st.pending.length + 2

end Timers

variable {w : Nat}

/-- `ngx_rbtree_insert_timer_value`. -/
def ngxRbtreeInsertTimerValue (w : Nat) (fuel : Nat) (t : RbTree) (temp node : Nat) : Option RbTree :=
  rbtreeInsertBelow (fun node temp => (BitVec.ofNat w (t.key node) - BitVec.ofNat w (t.key temp)).toInt < 0)
    fuel t temp node

/-- `ngx_event_timer_init`. -/
def ngxEventTimerInit (memory : RbTree) (sentinel : Nat) (now : BitVec w) : Timers w :=
  { tree := ngxRbtreeInit memory sentinel, now, timerSet := fun _ => false, timedout := fun _ => false, pending := [] }

/-- `ngx_event_find_timer`. -/
def ngxEventFindTimer (st : Timers w) : Option (BitVec w) :=
  if st.tree.root = st.tree.sentinel then some (ngxTimerInfinite w)
  else do
    let node ← ngxRbtreeMin st.fuel st.tree st.tree.root
    let timer := st.key node - st.now
    some (if 0 < timer.toInt then timer else 0)

/-- `ngx_event_del_timer`. -/
def ngxEventDelTimer (st : Timers w) (ev : Nat) : Option (Timers w) := do
  let tree ← ngxRbtreeDelete st.fuel st.tree ev
  some { st with tree, timerSet := Function.update st.timerSet ev false, pending := st.pending.erase ev }

/-- The end of `ngx_event_add_timer`. -/
def eventInsertTimer (st : Timers w) (ev : Nat) (key : BitVec w) : Option (Timers w) := do
  let tree ← ngxRbtreeInsert (ngxRbtreeInsertTimerValue w) st.fuel (st.tree.setKey ev key.toNat) ev
  some { st with tree, timerSet := Function.update st.timerSet ev true, pending := ev :: st.pending }

/-- `ngx_event_add_timer`. -/
def ngxEventAddTimer (st : Timers w) (ev : Nat) (timer : BitVec w) : Option (Timers w) :=
  let key := st.now + timer
  if st.timerSet ev then do
    let diff ← ngxAbs (key - st.key ev)
    if diff.toInt < ngxTimerLazyDelay then some st
    else
      let st ← ngxEventDelTimer st ev
      eventInsertTimer st ev key
  else eventInsertTimer st ev key

/-- The loop of `ngx_event_expire_timers`, with the events whose handlers it has called. -/
def expireTimers : Nat → Timers w → List Nat → Option (Timers w × List Nat)
  | 0, _, _ => none
  | fuel + 1, st, fired =>
    if st.tree.root = st.tree.sentinel then some (st, fired)
    else do
      let node ← ngxRbtreeMin st.fuel st.tree st.tree.root
      if 0 < (st.key node - st.now).toInt then some (st, fired)
      else
        let st ← ngxEventDelTimer st node
        expireTimers fuel { st with timedout := Function.update st.timedout node true } (fired ++ [node])

/-- `ngx_event_expire_timers`. -/
def ngxEventExpireTimers (st : Timers w) : Option (Timers w × List Nat) := expireTimers st.fuel st []

/-! ### Runs -/

inductive TimerCall (w : Nat) where
  | add (ev : Nat) (timer : BitVec w)
  | del (ev : Nat)
  /-- The clock goes on, modulo its width. -/
  | advance (msec : BitVec w)
  | expire

def timerStep (st : Option (Timers w)) (call : TimerCall w) : Option (Timers w) :=
  st.bind fun st => match call with
  | .add ev timer => ngxEventAddTimer st ev timer
  | .del ev => ngxEventDelTimer st ev
  | .advance msec => some { st with now := st.now + msec }
  | .expire => (ngxEventExpireTimers st).map Prod.fst

namespace Timers

/-- All of the values are in a window shorter than half of the clock. -/
def Window (xs : List (BitVec w)) : Prop := ∃ b : BitVec w, ∀ x ∈ xs, 2 * (x - b).toNat < 2 ^ w

/-- The keys of the pending timers and the current time are in such a window. -/
def InWindow (st : Timers w) : Prop := Window (st.now :: st.pending.map st.key)

/-- Only pending timers are deleted, and the sentinel of the tree is no event. -/
def Allowed (st : Timers w) : TimerCall w → Prop
  | .add ev _ => ev ≠ st.tree.sentinel
  | .del ev => st.timerSet ev = true
  | _ => True

/-- The call is allowed and ends with all keys in a window. -/
def Admits (st : Timers w) (call : TimerCall w) : Prop := st.Allowed call ∧ ∀ st' ∈ timerStep (some st) call, st'.InWindow

/-- The remaining time of a timer, 0 if it has expired. -/
def remaining (st : Timers w) (ev : Nat) : Nat := (st.key ev - st.now).toInt.toNat

def expired (st : Timers w) (ev : Nat) : Bool := (st.key ev - st.now).toInt ≤ 0

/-- What `ngx_event_find_timer` has to return: the least remaining time. -/
def Finds (st : Timers w) : Prop :=
  (st.pending = [] ∧ ngxEventFindTimer st = some (ngxTimerInfinite w)) ∨
    ∃ ev ∈ st.pending, (∀ ev' ∈ st.pending, st.remaining ev ≤ st.remaining ev') ∧
      ∃ timer, ngxEventFindTimer st = some timer ∧ timer.toNat = st.remaining ev

/-- What `ngx_event_expire_timers` has to do: it fires the expired timers, each once and by expiry, and no other timer
changes. -/
def Expires (st : Timers w) : Prop :=
  ∃ st' fired, ngxEventExpireTimers st = some (st', fired) ∧
    fired.Perm (st.pending.filter st.expired) ∧ fired.Nodup ∧
    fired.Pairwise (fun i j => 0 ≤ (st.key j - st.key i).toInt) ∧
    st'.pending.Perm (st.pending.filter fun ev => !st.expired ev) ∧ st'.now = st.now ∧
    (∀ ev, st'.timerSet ev = (st.timerSet ev && !st.expired ev)) ∧
    (∀ ev, st'.timedout ev = (st.timedout ev || decide (ev ∈ fired))) ∧
    ∀ ev, ev ∉ fired → st'.key ev = st.key ev

/-- What `ngx_event_add_timer` has to do: the timer is pending with the key that was asked for, or with its old one if
that is close. -/
def Rearms (st : Timers w) : TimerCall w → Prop
  | .add ev timer => ∃ st', ngxEventAddTimer st ev timer = some st' ∧ st'.timerSet ev = true ∧ ev ∈ st'.pending ∧
      |(st'.key ev - (st.now + timer)).toInt| < ngxTimerLazyDelay
  | _ => True

end Timers

end NginxDtls
