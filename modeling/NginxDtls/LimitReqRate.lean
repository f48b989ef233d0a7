import NginxDtls.LimitReq
import Mathlib.Tactic

/-! The rate that a zone lets pass. The excess that is stored for a key bounds the requests that were accepted, as long as its
node stays in the zone; when the node is deleted as idle, its excess has run down, but not by the request that its successor
begins with for free. -/

namespace NginxDtls.LimitReq

open LimitConn

/-! ### Runs -/

/-- A request that looks for its key in a zone, where memory is never short. -/
structure Request where
  key : List UInt8
  now : ℕ
  slab : Slab
  slab' : Slab
  ready : ∀ used, slab.alloc used ≠ none

/-- A request with the zone before and what the lookup makes of it. -/
structure Round where
  request : Request
  before : Shctx
  looked : Looked

/-- A run of requests that are accounted for in their lookups. -/
def rateRun (rate burst : ℕ) : Shctx → List Request → Option (List Round)
  | _, [] => some []
  | sh, r :: rs => do
    let looked ← ngxHttpLimitReqLookup rate burst sh (ngxCrc32Short r.key).toNat r.key r.now true r.slab r.slab'
    let rounds ← rateRun rate burst looked.sh rs
    some (⟨r, sh, looked⟩ :: rounds)

namespace Round

/-- The request has the key, is accepted, and comes in the interval of `T` milliseconds from `s` on. -/
def Accepts (key : List UInt8) (s T : ℕ) (round : Round) : Prop :=
  round.request.key = key ∧ (s ≤ round.request.now ∧ round.request.now ≤ s + T) ∧ round.looked.rc = .ok

instance (key : List UInt8) (s T : ℕ) : DecidablePred (Accepts key s T) := fun _ =>
  inferInstanceAs (Decidable (_ ∧ _))

/-- The node was in the zone and has been deleted. -/
def Deletes (round : Round) (n : ℕ) : Prop :=
  n ∈ round.before.queue ∧ ∀ m ∈ round.looked.sh.queue, round.looked.sh.data m ≠ round.before.data n

instance (round : Round) : DecidablePred round.Deletes := fun _ => inferInstanceAs (Decidable (_ ∧ _))

/-- In the interval the node of the key is deleted at an excess that one request less would not have left. -/
def DropsEarly (rate : ℕ) (key : List UInt8) (s T : ℕ) (round : Round) : Prop :=
  (s ≤ round.request.now ∧ round.request.now ≤ s + T) ∧ ∃ n ∈ round.before.queue, round.before.data n = key ∧
    round.Deletes n ∧
    rate * (round.request.now - (round.before.node n).last) / 1000 < (round.before.node n).excess + 1000

instance (rate : ℕ) (key : List UInt8) (s T : ℕ) : DecidablePred (DropsEarly rate key s T) := fun round =>
  inferInstanceAs (Decidable (_ ∧ ∃ n ∈ round.before.queue, _))

/-- No arithmetic overflows at the nodes that are charged or deleted. -/
def NoOverflow (rate : ℕ) (round : Round) : Prop :=
  ∀ n ∈ round.before.queue, round.before.data n = round.request.key ∨ round.Deletes n →
    round.request.now - (round.before.node n).last < 2 ^ 63 ∧
      rate * (round.request.now - (round.before.node n).last) < 2 ^ 64 ∧ (round.before.node n).excess + 1000 < 2 ^ 63

instance (rate : ℕ) (round : Round) : Decidable (round.NoOverflow rate) :=
  inferInstanceAs (Decidable (∀ n ∈ round.before.queue, _ → _ ∧ _ ∧ _))

end Round

/-- The requests with the key that are accepted in the interval. -/
def accepted (key : List UInt8) (s T : ℕ) (rounds : List Round) : ℕ := rounds.countP (Round.Accepts key s T ·)

/-- How often the node of the key is deleted early in the interval. -/
def dropped (rate : ℕ) (key : List UInt8) (s T : ℕ) (rounds : List Round) : ℕ :=
  rounds.countP (Round.DropsEarly rate key s T ·)

/-! ### Exact arithmetic -/

theorem msSince_exact {now last : ℕ} (hle : last ≤ now) (hms : now - last < 2 ^ 63) :
    msSince now last = ((now - last : ℕ) : ℤ) := by
  rw [msSince, ← Nat.cast_sub hle]
  apply Int.bmod_eq_of_le
  · have hnonneg : (0 : ℤ) ≤ ((now - last : ℕ) : ℤ) := Int.natCast_nonneg _
    omega
  · omega

theorem elapsed_exact {now last : ℕ} (hle : last ≤ now) (hms : now - last < 2 ^ 63) : elapsed now last = now - last := by
  have hnonneg : (0 : ℤ) ≤ ((now - last : ℕ) : ℤ) := Int.natCast_nonneg _
  rw [elapsed, msSince_exact hle hms, if_neg (by omega), if_neg (by omega), Int.toNat_natCast]

theorem excessWith_exact {rate excess ms more : ℕ} (hrate : rate * ms < 2 ^ 64) (hmore : more ≤ 1000)
    (hexcess : excess + 1000 < 2 ^ 63) :
    excessWith rate excess ms more = (excess : ℤ) - (rate * ms / 1000 : ℕ) + more := by
  have hdiv : rate * ms / 1000 < 2 ^ 63 := by omega
  rw [excessWith, Nat.mod_eq_of_lt hrate]
  apply Int.bmod_eq_of_le
  · omega
  · omega

theorem nextExcess_exact {rate now : ℕ} {lr : LimitReqNode} (hle : lr.last ≤ now) (hms : now - lr.last < 2 ^ 63)
    (hrate : rate * (now - lr.last) < 2 ^ 64) (hexcess : lr.excess + 1000 < 2 ^ 63) :
    nextExcess rate now lr = lr.excess + 1000 - rate * (now - lr.last) / 1000 := by
  rw [nextExcess, elapsed_exact hle hms, excessWith_exact hrate (le_refl 1000) hexcess]
  split <;> omega

theorem charge_last {rate now : ℕ} {lr : LimitReqNode} (hle : lr.last ≤ now) (hms : now - lr.last < 2 ^ 63) :
    (charge rate now lr).last = now := by
  rw [charge, elapsed_exact hle hms]
  dsimp only
  split <;> omega

theorem idle_exact {rate now : ℕ} {lr : LimitReqNode} (h : Idle rate now lr) (hle : lr.last ≤ now)
    (hms : now - lr.last < 2 ^ 63) (hrate : rate * (now - lr.last) < 2 ^ 64) (hexcess : lr.excess + 1000 < 2 ^ 63) :
    60000 ≤ now - lr.last ∧ lr.excess ≤ rate * (now - lr.last) / 1000 := by
  obtain ⟨hminute, hzero⟩ := h
  rw [msSince_exact hle hms, abs_of_nonneg (Int.natCast_nonneg _)] at hminute hzero
  rw [Int.toNat_natCast, excessWith_exact hrate (Nat.zero_le _) hexcess] at hzero
  omega

/-- What runs down in two stretches of time runs down in both together. -/
theorem leak_add (rate : ℕ) {a b c : ℕ} (hab : a ≤ b) (hbc : b ≤ c) :
    rate * (b - a) / 1000 + rate * (c - b) / 1000 ≤ rate * (c - a) / 1000 := by
  have hsplit : rate * (c - a) = rate * (b - a) + rate * (c - b) := by
    rw [← Nat.mul_add]
    congr 1
    omega
  rw [hsplit]
  omega

theorem leak_mono (rate : ℕ) {a b : ℕ} (h : a ≤ b) : rate * a / 1000 ≤ rate * b / 1000 :=
  Nat.div_le_div_right (Nat.mul_le_mul_left rate h)

/-! ### The bound -/

/-- What holds of a zone at the time `t` for the requests with the key in the interval, `A` of which have been accepted while
its node was deleted early `D` times. -/
structure Bound (rate burst : ℕ) (key : List UInt8) (s T : ℕ) (sh : Shctx) (t A D : ℕ) : Prop where
  last : ∀ n ∈ sh.queue, (sh.node n).last ≤ t
  excess : ∀ n ∈ sh.queue, (sh.node n).excess ≤ burst
  present : t ≤ s + T → ∀ n ∈ sh.queue, sh.data n = key →
    A = 0 ∨ s ≤ (sh.node n).last ∧ 1000 * (A - 1) ≤ (sh.node n).excess + rate * ((sh.node n).last - s) / 1000 + 1000 * D
  absent : t ≤ s + T → (∀ n ∈ sh.queue, sh.data n ≠ key) →
    A = 0 ∨ s ≤ t ∧ 1000 * A ≤ rate * (t - s) / 1000 + 1000 * D
  total : A = 0 ∨ 1000 * (A - 1) ≤ burst + rate * T / 1000 + 1000 * D
  fast : burst + 1000 ≤ 60 * rate → D = 0

namespace Bound

variable {rate burst s T t A D : ℕ} {key : List UInt8} {sh : Shctx}

/-- Time goes by, and the queue is put in another order. -/
theorem later (h : Bound rate burst key s T sh t A D) {t' : ℕ} (ht : t ≤ t') {sh' : Shctx} (hnode : sh'.node = sh.node)
    (hqueue : ∀ n, n ∈ sh'.queue ↔ n ∈ sh.queue) : Bound rate burst key s T sh' t' A D where
  last := fun n hn => by
    rw [hnode]
    exact (h.last n ((hqueue n).mp hn)).trans ht
  excess := fun n hn => by
    rw [hnode]
    exact h.excess n ((hqueue n).mp hn)
  present := fun hend n hn hdata => by
    rw [Shctx.data, hnode] at hdata
    rw [hnode]
    exact h.present (ht.trans hend) n ((hqueue n).mp hn) hdata
  absent := fun hend hno => by
    have hno' : ∀ n ∈ sh.queue, sh.data n ≠ key := fun n hn => by
      have hdata := hno n ((hqueue n).mpr hn)
      rwa [Shctx.data, hnode] at hdata
    rcases h.absent (ht.trans hend) hno' with hzero | ⟨hs, hle⟩
    · exact Or.inl hzero
    · have hmono := leak_mono rate (Nat.sub_le_sub_right ht s)
      exact Or.inr ⟨hs.trans ht, by omega⟩
  total := h.total
  fast := h.fast

/-- Nothing has been accepted before the interval. -/
theorem before (h : Bound rate burst key s T sh t A D) (ht : t < s) : A = 0 := by
  by_cases hex : ∃ n ∈ sh.queue, sh.data n = key
  · obtain ⟨n, hn, hdata⟩ := hex
    rcases h.present (by omega) n hn hdata with hzero | ⟨hs, -⟩
    · exact hzero
    · have hlast := h.last n hn
      omega
  · rcases h.absent (by omega) (fun n hn hdata => hex ⟨n, hn, hdata⟩) with hzero | ⟨hs, -⟩
    · exact hzero
    · omega

/-- A request with another key is accepted at a node. -/
theorem other (h : Bound rate burst key s T sh t A D) {lr : ℕ} (hne : sh.data lr ≠ key) {lr' : LimitReqNode}
    (hdata : lr'.data = sh.data lr) (hlast : lr'.last ≤ t) (hexcess : lr'.excess ≤ burst) :
    Bound rate burst key s T (sh.setNode lr lr') t A D := by
  have hsame : ∀ n, (sh.setNode lr lr').data n = sh.data n := fun n => by
    show (Function.update sh.node lr lr' n).data = _
    by_cases hn : n = lr
    · subst hn
      rw [Function.update_self, hdata]
    · rw [Function.update_of_ne hn]
      rfl
  have hnode : ∀ n, n ≠ lr → (sh.setNode lr lr').node n = sh.node n := fun n hn => Function.update_of_ne hn ..
  have hself : (sh.setNode lr lr').node lr = lr' := Function.update_self ..
  refine ⟨?_, ?_, ?_, ?_, h.total, h.fast⟩
  · intro n hn
    by_cases heq : n = lr
    · rw [heq, hself]
      exact hlast
    · rw [hnode n heq]
      exact h.last n hn
  · intro n hn
    by_cases heq : n = lr
    · rw [heq, hself]
      exact hexcess
    · rw [hnode n heq]
      exact h.excess n hn
  · intro hend n hn hkey
    rw [hsame] at hkey
    have heq : n ≠ lr := by
      rintro rfl
      exact hne hkey
    rw [hnode n heq]
    exact h.present hend n hn hkey
  · intro hend hno
    exact h.absent hend fun n hn => hsame n ▸ hno n hn

/-- A request with the key is accepted at its node. -/
theorem same (h : Bound rate burst key s T sh t A D) {tree : Zipper.BTree ℕ} (hinv : sh.Inv tree) {lr : ℕ}
    (hmem : lr ∈ sh.queue) (hdata : sh.data lr = key) (hms : t - (sh.node lr).last < 2 ^ 63)
    (hrate : rate * (t - (sh.node lr).last) < 2 ^ 64) (hexcess : (sh.node lr).excess + 1000 < 2 ^ 63)
    (hle : nextExcess rate t (sh.node lr) ≤ burst) :
    Bound rate burst key s T (sh.setNode lr (charge rate t (sh.node lr))) t
      (A + if s ≤ t ∧ t ≤ s + T then 1 else 0) D := by
  have hlast := h.last lr hmem
  have hnext := nextExcess_exact hlast hms hrate hexcess
  have hcharged := @charge_last rate t _ hlast hms
  have hkey : ∀ n, (sh.setNode lr (charge rate t (sh.node lr))).data n = sh.data n := fun n => by
    show (Function.update sh.node lr _ n).data = _
    by_cases hn : n = lr
    · subst hn
      rw [Function.update_self]
      rfl
    · rw [Function.update_of_ne hn]
      rfl
  have hnode : ∀ n, n ≠ lr → (sh.setNode lr (charge rate t (sh.node lr))).node n = sh.node n := fun n hn =>
    Function.update_of_ne hn ..
  have hself : (sh.setNode lr (charge rate t (sh.node lr))).node lr = charge rate t (sh.node lr) := Function.update_self ..
  have hcharge : (charge rate t (sh.node lr)).excess = nextExcess rate t (sh.node lr) := rfl
  -- one more is accepted, for one more request of excess
  have hstep : t ≤ s + T → s ≤ t →
      1000 * A ≤ nextExcess rate t (sh.node lr) + rate * (t - s) / 1000 + 1000 * D := fun hend hs => by
    rcases h.present hend lr hmem hdata with hzero | ⟨hs', hbefore⟩
    · omega
    · have hleak := leak_add rate hs' hlast
      omega
  refine ⟨?_, ?_, ?_, ?_, ?_, h.fast⟩
  · intro n hn
    by_cases heq : n = lr
    · rw [heq, hself, hcharged]
    · rw [hnode n heq]
      exact h.last n hn
  · intro n hn
    by_cases heq : n = lr
    · rw [heq, hself, hcharge]
      exact hle
    · rw [hnode n heq]
      exact h.excess n hn
  · intro hend n hn hdata'
    rw [hkey] at hdata'
    have heq : n = lr := hinv.unique hn hmem (hdata'.trans hdata.symm)
    rw [heq, hself, hcharged, hcharge]
    by_cases hs : s ≤ t
    · rw [if_pos ⟨hs, hend⟩]
      have hbound := hstep hend hs
      exact Or.inr ⟨hs, by omega⟩
    · rw [if_neg (fun hand => hs hand.1)]
      exact Or.inl (h.before (not_le.mp hs))
  · intro _ hno
    exact absurd ((hkey lr).trans hdata) (hno lr hmem)
  · by_cases hin : s ≤ t ∧ t ≤ s + T
    · rw [if_pos hin]
      have hbound := hstep hin.2 hin.1
      have hmono := leak_mono rate (show t - s ≤ T by omega)
      exact Or.inr (by omega)
    · rw [if_neg hin]
      exact h.total

/-- Idle nodes are deleted. -/
theorem expire (h : Bound rate burst key s T sh t A D) {kept : Shctx} {removed : List ℕ}
    (hexpired : Expired sh kept removed) (hidle : ∀ n ∈ removed, Idle rate t (sh.node n))
    (hexact : ∀ n ∈ removed, t - (sh.node n).last < 2 ^ 63 ∧ rate * (t - (sh.node n).last) < 2 ^ 64 ∧
      (sh.node n).excess + 1000 < 2 ^ 63) {early : Prop} [Decidable early]
    (hearly : early ↔ (s ≤ t ∧ t ≤ s + T) ∧ ∃ n ∈ removed, sh.data n = key ∧
      rate * (t - (sh.node n).last) / 1000 < (sh.node n).excess + 1000) :
    Bound rate burst key s T kept t A (D + if early then 1 else 0) := by
  have hqueue : ∀ n ∈ kept.queue, n ∈ sh.queue := fun n hn => hexpired.queue ▸ List.mem_append_left _ hn
  have hgone : ∀ n ∈ removed, n ∈ sh.queue := fun n hn => hexpired.queue ▸ List.mem_append_right _ hn
  have hgrow : D ≤ D + if early then 1 else 0 := Nat.le_add_right _ _
  have hidle' : ∀ n ∈ removed, 60000 ≤ t - (sh.node n).last ∧
      (sh.node n).excess ≤ rate * (t - (sh.node n).last) / 1000 := fun n hn => by
    obtain ⟨hms, hrate, hexcess⟩ := hexact n hn
    exact idle_exact (hidle n hn) (h.last n (hgone n hn)) hms hrate hexcess
  refine ⟨?_, ?_, ?_, ?_, ?_, ?_⟩
  · intro n hn
    rw [hexpired.node]
    exact h.last n (hqueue n hn)
  · intro n hn
    rw [hexpired.node]
    exact h.excess n (hqueue n hn)
  · intro hend n hn hdata
    rw [Shctx.data, hexpired.node] at hdata
    rw [hexpired.node]
    rcases h.present hend n (hqueue n hn) hdata with hzero | ⟨hs, hle⟩
    · exact Or.inl hzero
    · exact Or.inr ⟨hs, by omega⟩
  · intro hend hno
    by_cases hex : ∃ n ∈ sh.queue, sh.data n = key
    · -- the node of the key is among those that go
      obtain ⟨n, hn, hdata⟩ := hex
      have hmem : n ∈ removed := by
        rw [hexpired.queue] at hn
        rcases List.mem_append.mp hn with hn | hn
        · have hother := hno n hn
          rw [Shctx.data, hexpired.node] at hother
          exact absurd hdata hother
        · exact hn
      obtain ⟨-, hrun⟩ := hidle' n hmem
      rcases h.present hend n hn hdata with hzero | ⟨hs, hle⟩
      · exact Or.inl hzero
      · have hlast := h.last n hn
        have hleak := leak_add rate hs hlast
        by_cases hunder : rate * (t - (sh.node n).last) / 1000 < (sh.node n).excess + 1000
        · have hpos : early := hearly.mpr ⟨⟨hs.trans hlast, hend⟩, n, hmem, hdata, hunder⟩
          rw [if_pos hpos]
          exact Or.inr ⟨hs.trans hlast, by omega⟩
        · exact Or.inr ⟨hs.trans hlast, by omega⟩
    · rcases h.absent hend (fun n hn hdata => hex ⟨n, hn, hdata⟩) with hzero | ⟨hs, hle⟩
      · exact Or.inl hzero
      · exact Or.inr ⟨hs, by omega⟩
  · rcases h.total with hzero | hle
    · exact Or.inl hzero
    · exact Or.inr (by omega)
  · intro hfast
    have hnot : ¬early := fun he => by
      obtain ⟨-, n, hn, -, hunder⟩ := hearly.mp he
      obtain ⟨hminute, -⟩ := hidle' n hn
      have hexcess := h.excess n (hgone n hn)
      have hleak := leak_mono rate hminute
      omega
    rw [if_neg hnot, h.fast hfast]

/-- A new node is for a request that is accepted. -/
theorem create (h : Bound rate burst key s T sh t A D) {key' : List UInt8} (hno : ∀ n ∈ sh.queue, sh.data n ≠ key')
    {node : ℕ} (hnode : node ∉ sh.queue) (tree : RbTree) :
    Bound rate burst key s T { sh.setNode node (newNode key' t true) with rbtree := tree, queue := node :: sh.queue } t
      (A + if key' = key ∧ s ≤ t ∧ t ≤ s + T then 1 else 0) D := by
  have hold : ∀ n ∈ sh.queue, (sh.setNode node (newNode key' t true)).node n = sh.node n := fun n hn =>
    Function.update_of_ne (fun heq : n = node => hnode (heq ▸ hn)) ..
  have hnew : (sh.setNode node (newNode key' t true)).node node = ⟨key', t, 0, 0⟩ := Function.update_self ..
  have hzero : t < s → A = 0 := h.before
  have hstep : key' = key → t ≤ s + T → s ≤ t → 1000 * A ≤ rate * (t - s) / 1000 + 1000 * D := fun heq hend hs => by
    rcases h.absent hend (heq ▸ hno) with hzero | ⟨-, hle⟩
    · omega
    · exact hle
  refine ⟨?_, ?_, ?_, ?_, ?_, h.fast⟩
  · intro n hn
    rcases List.mem_cons.mp hn with rfl | hn
    · exact (congrArg LimitReqNode.last hnew).le
    · exact (congrArg LimitReqNode.last (hold n hn)).le.trans (h.last n hn)
  · intro n hn
    rcases List.mem_cons.mp hn with rfl | hn
    · exact (congrArg LimitReqNode.excess hnew).le.trans (Nat.zero_le _)
    · exact (congrArg LimitReqNode.excess (hold n hn)).le.trans (h.excess n hn)
  · intro hend n hn hdata
    rcases List.mem_cons.mp hn with rfl | hn
    · have hkey : key' = key := (congrArg LimitReqNode.data hnew).symm.trans hdata
      show _ ∨ s ≤ ((sh.setNode n (newNode key' t true)).node n).last ∧ _ ≤
        ((sh.setNode n (newNode key' t true)).node n).excess +
          rate * (((sh.setNode n (newNode key' t true)).node n).last - s) / 1000 + _
      rw [hnew]
      dsimp only
      by_cases hs : s ≤ t
      · rw [if_pos ⟨hkey, hs, hend⟩]
        have hbound := hstep hkey hend hs
        exact Or.inr ⟨hs, by omega⟩
      · rw [if_neg (fun hand => hs hand.2.1)]
        exact Or.inl (hzero (not_le.mp hs))
    · have hdata' : sh.data n = key := (congrArg LimitReqNode.data (hold n hn)).symm.trans hdata
      have hkey : key' ≠ key := fun heq => hno n hn (hdata'.trans heq.symm)
      show _ ∨ s ≤ ((sh.setNode node (newNode key' t true)).node n).last ∧ _ ≤
        ((sh.setNode node (newNode key' t true)).node n).excess +
          rate * (((sh.setNode node (newNode key' t true)).node n).last - s) / 1000 + _
      rw [hold n hn, if_neg (fun hand => hkey hand.1)]
      exact h.present hend n hn hdata'
  · intro hend habsent
    have hkey : key' ≠ key := fun heq =>
      habsent node List.mem_cons_self ((congrArg LimitReqNode.data hnew).trans heq)
    rw [if_neg (fun hand => hkey hand.1)]
    refine h.absent hend fun n hn => ?_
    have hother := habsent n (List.mem_cons_of_mem _ hn)
    exact fun hdata => hother ((congrArg LimitReqNode.data (hold n hn)).trans hdata)
  · by_cases hin : key' = key ∧ s ≤ t ∧ t ≤ s + T
    · rw [if_pos hin]
      have hbound := hstep hin.1 hin.2.2 hin.2.1
      have hmono := leak_mono rate (show t - s ≤ T by omega)
      exact Or.inr (by omega)
    · rw [if_neg hin]
      exact h.total

/-- One round of a run. -/
theorem round (h : Bound rate burst key s T sh t A D) {tree : Zipper.BTree ℕ} (hinv : sh.Inv tree) {r : Request}
    (ht : t ≤ r.now) {looked : Looked} {tree' : Zipper.BTree ℕ} (hinv' : looked.sh.Inv tree')
    (hlooked : LookedUp rate burst sh r.key r.now true r.slab looked) (hexact : (Round.mk r sh looked).NoOverflow rate) :
    Bound rate burst key s T looked.sh r.now (A + if (Round.mk r sh looked).Accepts key s T then 1 else 0)
      (D + if (Round.mk r sh looked).DropsEarly rate key s T then 1 else 0) := by
  -- where the queue keeps its nodes, none is deleted
  have hkeeps : (∀ n ∈ sh.queue, ∃ m ∈ looked.sh.queue, looked.sh.data m = sh.data n) →
      ¬(Round.mk r sh looked).DropsEarly rate key s T := by
    rintro hall ⟨-, n, hn, -, ⟨-, hgone⟩, -⟩
    obtain ⟨m, hm, hdata⟩ := hall n hn
    exact hgone m hm hdata
  have hbumped : ∀ lr, lr ∈ sh.queue → Bound rate burst key s T (sh.bump lr) r.now A D := fun lr hmem =>
    h.later ht rfl fun n => (List.perm_cons_erase hmem).symm.mem_iff
  cases hlooked with
  | @busy lr hmem hdata hover =>
      have hsame : ∀ n ∈ sh.queue, ∃ m ∈ (sh.bump lr).queue, (sh.bump lr).data m = sh.data n := fun n hn =>
        ⟨n, (List.perm_cons_erase hmem).mem_iff.mp hn, rfl⟩
      rw [if_neg (fun hacc => by cases hacc.2.2), if_neg (hkeeps hsame)]
      exact hbumped lr hmem
  | @charged lr hmem hdata hle haccount =>
      have hkey : ∀ n, ((sh.bump lr).setNode lr (charge rate r.now (sh.node lr))).data n = sh.data n := fun n => by
        show (Function.update sh.node lr _ n).data = _
        by_cases hn : n = lr
        · subst hn
          rw [Function.update_self]
          rfl
        · rw [Function.update_of_ne hn]
          rfl
      have hsame : ∀ n ∈ sh.queue, ∃ m ∈ ((sh.bump lr).setNode lr (charge rate r.now (sh.node lr))).queue,
          ((sh.bump lr).setNode lr (charge rate r.now (sh.node lr))).data m = sh.data n := fun n hn =>
        ⟨n, (List.perm_cons_erase hmem).mem_iff.mp hn, hkey n⟩
      obtain ⟨hms, hrate, hexcess⟩ := hexact lr hmem (Or.inl hdata)
      rw [if_neg (hkeeps hsame), Nat.add_zero]
      by_cases heq : r.key = key
      · have hboth := (hbumped lr hmem).same (hinv.bump hmem) List.mem_cons_self (hdata.trans heq) hms hrate hexcess hle
        have hiff : (Round.mk r sh ⟨(sh.bump lr).setNode lr (charge rate r.now (sh.node lr)), .ok,
            nextExcess rate r.now (sh.node lr), none⟩).Accepts key s T ↔ s ≤ r.now ∧ r.now ≤ s + T :=
          ⟨fun hacc => hacc.2.1, fun hin => ⟨heq, hin, rfl⟩⟩
        rw [if_congr hiff rfl rfl]
        exact hboth
      · rw [if_neg (fun hacc => heq hacc.1), Nat.add_zero]
        have hlast := h.last lr hmem
        exact (hbumped lr hmem).other (fun hlr => heq (hdata.symm.trans hlr)) rfl
          (@charge_last rate r.now _ (hlast.trans ht) hms).le hle
  | held hmem hdata hle haccount => cases haccount
  | created hno hexpired hgone' hnode =>
      rename_i kept removed tree₁ node
      have hidle : ∀ n ∈ removed, Idle rate r.now (sh.node n) := fun n hn => by
        rcases hgone' n hn with hidle | ⟨_, _, -, -, hnone⟩
        · exact hidle
        · exact absurd hnone (r.ready _)
      have hlater := h.later ht rfl fun n => Iff.rfl
      have hgone : ∀ n ∈ removed, n ∈ sh.queue := fun n hn => hexpired.queue ▸ List.mem_append_right _ hn
      have hdata : ∀ m ∈ kept.queue, (kept.setNode node (newNode r.key r.now true)).data m = sh.data m := fun m hm => by
        show (Function.update kept.node node _ m).data = _
        rw [Function.update_of_ne (fun heq : m = node => hnode (heq ▸ hm)), hexpired.node]
        rfl
      have hnew : (kept.setNode node (newNode r.key r.now true)).data node = r.key :=
        congrArg LimitReqNode.data (Function.update_self node _ kept.node)
      have hdeletes : ∀ n ∈ removed, (Round.mk r sh ⟨{ kept.setNode node (newNode r.key r.now true) with
          rbtree := tree₁, queue := node :: kept.queue }, .ok, 0, none⟩).Deletes n := fun n hn => by
        refine ⟨hgone n hn, fun m hm heq => ?_⟩
        rcases List.mem_cons.mp hm with rfl | hm
        · exact hno n (hgone n hn) (heq.symm.trans hnew)
        · -- a key has one node
          have hmem : m ∈ sh.queue := hexpired.queue ▸ List.mem_append_left _ hm
          have hmn := hinv.unique hmem (hgone n hn) ((hdata m hm).symm.trans heq)
          have hnodup := hinv.nodup
          rw [hexpired.queue, List.nodup_append] at hnodup
          exact hnodup.2.2 m hm n hn hmn
      have hfrom : ∀ n ∈ sh.queue, (Round.mk r sh ⟨{ kept.setNode node (newNode r.key r.now true) with
          rbtree := tree₁, queue := node :: kept.queue }, .ok, 0, none⟩).Deletes n → n ∈ removed := fun n hn hdel => by
        rw [hexpired.queue] at hn
        rcases List.mem_append.mp hn with hn | hn
        · exact absurd (hdata n hn) (hdel.2 n (List.mem_cons_of_mem _ hn))
        · exact hn
      have hearly : (Round.mk r sh ⟨{ kept.setNode node (newNode r.key r.now true) with
          rbtree := tree₁, queue := node :: kept.queue }, .ok, 0, none⟩).DropsEarly rate key s T ↔
          (s ≤ r.now ∧ r.now ≤ s + T) ∧ ∃ n ∈ removed, sh.data n = key ∧
            rate * (r.now - (sh.node n).last) / 1000 < (sh.node n).excess + 1000 :=
        ⟨fun ⟨hin, n, hn, hkey, hdel, hunder⟩ => ⟨hin, n, hfrom n hn hdel, hkey, hunder⟩,
          fun ⟨hin, n, hn, hkey, hunder⟩ => ⟨hin, n, hgone n hn, hkey, hdeletes n hn, hunder⟩⟩
      have hafter := hlater.expire hexpired hidle
        (fun n hn => hexact n (hgone n hn) (Or.inr (hdeletes n hn))) hearly
      have hkept : ∀ n ∈ kept.queue, kept.data n ≠ r.key := fun n hn => by
        rw [Shctx.data, hexpired.node]
        exact hno n (hexpired.queue ▸ List.mem_append_left _ hn)
      have hcreated := hafter.create hkept hnode tree₁
      have hiff : (Round.mk r sh ⟨{ kept.setNode node (newNode r.key r.now true) with
          rbtree := tree₁, queue := node :: kept.queue }, .ok, 0, none⟩).Accepts key s T ↔
          r.key = key ∧ s ≤ r.now ∧ r.now ≤ s + T := ⟨fun hacc => ⟨hacc.1, hacc.2.1⟩, fun hin => ⟨hin.1, hin.2, rfl⟩⟩
      rw [← if_congr hiff rfl rfl] at hcreated
      exact hcreated
  | failed hno hexpired _ hslab =>
      obtain ⟨used, hnone⟩ := hslab
      exact absurd hnone (r.ready used)

end Bound

/-- A run has a lookup for each request. -/
theorem rateRun_bound {rate burst s T : ℕ} {key : List UInt8} (rs : List Request) {sh : Shctx} {tree : Zipper.BTree ℕ}
    (hinv : sh.Inv tree) {t A D : ℕ} (hsorted : (rs.map Request.now).Pairwise (· ≤ ·)) (hlater : ∀ r ∈ rs, t ≤ r.now) :
    ∃ rounds, rateRun rate burst sh rs = some rounds ∧
      ((∀ round ∈ rounds, round.NoOverflow rate) → Bound rate burst key s T sh t A D →
        ∃ sh' t', Bound rate burst key s T sh' t' (A + accepted key s T rounds) (D + dropped rate key s T rounds)) := by
  induction rs generalizing sh tree t A D with
  | nil => exact ⟨[], rfl, fun _ hbound => ⟨sh, t, hbound⟩⟩
  | cons r rs ih =>
      obtain ⟨looked, tree', hlookup, hinv', hlooked⟩ :=
        lookup_spec hinv rate burst r.key r.now true r.slab r.slab'
      obtain ⟨hfirst, hrest⟩ := List.pairwise_cons.mp hsorted
      have hafter : ∀ r' ∈ rs, r.now ≤ r'.now := fun r' hr' => hfirst _ (List.mem_map_of_mem hr')
      obtain ⟨rounds, hrun, hbounds⟩ := @ih looked.sh tree' hinv' r.now
        (A + if (Round.mk r sh looked).Accepts key s T then 1 else 0)
        (D + if (Round.mk r sh looked).DropsEarly rate key s T then 1 else 0) hrest hafter
      refine ⟨⟨r, sh, looked⟩ :: rounds, ?_, fun hexact hbound => ?_⟩
      · rw [rateRun, hlookup, Option.bind_eq_bind, Option.bind_some, hrun]
        rfl
      · have hround := hbound.round hinv (hlater r List.mem_cons_self) hinv' hlooked (hexact _ List.mem_cons_self)
        obtain ⟨sh', t', hend⟩ := hbounds (fun round hr => hexact round (List.mem_cons_of_mem _ hr)) hround
        refine ⟨sh', t', ?_⟩
        rw [accepted, dropped, List.countP_cons, List.countP_cons]
        rw [accepted, dropped] at hend
        simp only [decide_eq_true_eq]
        rw [Nat.add_comm (List.countP _ rounds), ← Nat.add_assoc, Nat.add_comm (List.countP _ rounds), ← Nat.add_assoc]
        exact hend

theorem rateRun_total (rate burst : ℕ) (memory : Shctx) {rs : List Request}
    (hsorted : (rs.map Request.now).Pairwise (· ≤ ·)) : ∃ rounds, rateRun rate burst (shctxStart memory) rs = some rounds := by
  obtain ⟨rounds, hrun, -⟩ := @rateRun_bound rate burst 0 0 [] rs _ _ (shctxStart_inv memory) 0 0 0 hsorted
    (fun r _ => Nat.zero_le _)
  exact ⟨rounds, hrun⟩

/-- A run lets pass what the rate and the burst allow, and one request more for each time that the node of the key was deleted
early; this never happens where a minute is enough for the burst and one request to run down. -/
theorem rate_bounded (rate burst : ℕ) (memory : Shctx) (rs : List Request)
    (hsorted : (rs.map Request.now).Pairwise (· ≤ ·)) :
    ∃ rounds, rateRun rate burst (shctxStart memory) rs = some rounds ∧
      ((∀ round ∈ rounds, round.NoOverflow rate) → ∀ key s T,
        accepted key s T rounds ≤ 1 + dropped rate key s T rounds + (burst + rate * T / 1000) / 1000 ∧
          (burst + 1000 ≤ 60 * rate → dropped rate key s T rounds = 0)) := by
  have hstart := shctxStart_inv memory
  have hrun := fun key s T => @rateRun_bound rate burst s T key rs _ _ hstart 0 0 0 hsorted (fun r _ => Nat.zero_le _)
  obtain ⟨rounds, hrounds⟩ := rateRun_total rate burst memory hsorted
  refine ⟨rounds, hrounds, fun hexact key s T => ?_⟩
  obtain ⟨rounds', hrounds', hbounds⟩ := hrun key s T
  obtain rfl : rounds = rounds' := Option.some.inj (hrounds.symm.trans hrounds')
  have hempty : Bound rate burst key s T (shctxStart memory) 0 0 0 :=
    ⟨fun n hn => absurd hn List.not_mem_nil, fun n hn => absurd hn List.not_mem_nil,
      fun _ n hn => absurd hn List.not_mem_nil, fun _ _ => Or.inl rfl, Or.inl rfl, fun _ => rfl⟩
  obtain ⟨sh', t', hend⟩ := hbounds hexact hempty
  rw [Nat.zero_add, Nat.zero_add] at hend
  refine ⟨?_, hend.fast⟩
  rcases hend.total with hzero | hle
  · omega
  · omega

/-- Memory of zeros, and an allocator that gives the node behind the greatest one in use. -/
def zeroShctx : Shctx := ⟨⟨fun _ => 0, fun _ _ => 0, fun _ => 0, fun _ => false, 0, 0⟩, fun _ => ⟨[], 0, 0, 0⟩, []⟩

theorem le_foldr_max {used : List ℕ} {n : ℕ} (hn : n ∈ used) : n ≤ used.foldr max limitReqSentinel := by
  induction used with
  | nil => cases hn
  | cons m used ih =>
      rcases List.mem_cons.mp hn with rfl | hn
      · exact le_max_left _ _
      · exact (ih hn).trans (le_max_right _ _)

def nextSlab : Slab where
  alloc := fun used => some (used.foldr max limitReqSentinel + 1)
  fresh := fun used node halloc => by
    obtain rfl := Option.some.inj halloc
    have hsentinel : limitReqSentinel ≤ used.foldr max limitReqSentinel := by
      induction used with
      | nil => exact le_refl _
      | cons m used ih => exact (ih rfl).trans (le_max_right _ _)
    refine ⟨fun hmem => ?_, by omega⟩
    have hle := le_foldr_max hmem
    omega

/-- A request with a key of one byte. -/
def requestAt (key : UInt8) (now : ℕ) : Request := ⟨[key], now, nextSlab, nextSlab, fun _ => Option.some_ne_none _⟩

/-- Two requests with one key within a second, of which the second one is rejected. -/
theorem rate_bounded_two : ∃ rounds,
    rateRun 1000 0 (shctxStart zeroShctx) [requestAt 65 0, requestAt 65 500] = some rounds ∧
      accepted [65] 0 500 rounds ≤ 1 + dropped 1000 [65] 0 500 rounds + (0 + 1000 * 500 / 1000) / 1000 := by
  obtain ⟨rounds, hrun, hbounds⟩ := rate_bounded 1000 0 zeroShctx [requestAt 65 0, requestAt 65 500] (by decide)
  have hall : (((rateRun 1000 0 (shctxStart zeroShctx) [requestAt 65 0, requestAt 65 500]).getD []).all
      fun round => decide (round.NoOverflow 1000)) = true := by
    decide +kernel
  rw [hrun] at hall
  exact ⟨rounds, hrun, (hbounds (fun round hr => of_decide_eq_true (List.all_eq_true.mp hall round hr)) [65] 0 500).1⟩

/-- At one request a minute, a key that has waited a minute is let pass once more when another key has come before it. -/
theorem idle_node_forgotten : ∃ rounds,
    rateRun 16 0 (shctxStart zeroShctx) [requestAt 65 0, requestAt 66 60000, requestAt 65 60000] = some rounds ∧
      (∀ round ∈ rounds, round.NoOverflow 16) ∧
      ¬(accepted [65] 0 60000 rounds : ℚ) ≤ 1 + (0 + 16 * 60000 / 1000) / 1000 := by
  obtain ⟨rounds, hrun⟩ := @rateRun_total 16 0 zeroShctx
    [requestAt 65 0, requestAt 66 60000, requestAt 65 60000] (by decide)
  have hall : (((rateRun 16 0 (shctxStart zeroShctx)
      [requestAt 65 0, requestAt 66 60000, requestAt 65 60000]).getD []).all
      fun round => decide (round.NoOverflow 16)) = true := by
    decide +kernel
  have htwo : accepted [65] 0 60000 ((rateRun 16 0 (shctxStart zeroShctx)
      [requestAt 65 0, requestAt 66 60000, requestAt 65 60000]).getD []) = 2 := by
    decide +kernel
  rw [hrun] at hall htwo
  have htwo' : accepted [65] 0 60000 rounds = 2 := htwo
  refine ⟨rounds, hrun, fun round hr => of_decide_eq_true (List.all_eq_true.mp hall round hr), ?_⟩
  rw [htwo']
  norm_num

end NginxDtls.LimitReq
