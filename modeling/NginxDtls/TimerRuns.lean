import Mathlib.Data.BitVec
import NginxDtls.Timers

/-! The timers in whole runs. In a window shorter than half of the clock the sign of a difference compares offsets
from the start of the window, so the tree stays in the order of expiry while the clock wraps. A timer that is re-armed
is compared with its old key, which the window does not bound: exactly half of the clock apart the difference is the least
`ngx_msec_int_t`, of which `ngx_abs` is undefined. -/

namespace NginxDtls

open Zipper RbTree Run

variable {w : Nat}

/-! ### Differences -/

theorem toInt_of_short {u : BitVec w} (h : 2 * u.toNat < 2 ^ w) : u.toInt = u.toNat :=
  BitVec.toInt_eq_toNat_of_lt h

/-- In a window the sign of a difference compares the offsets. -/
theorem toInt_sub_of_window {x y b : BitVec w} (hx : 2 * (x - b).toNat < 2 ^ w) (hy : 2 * (y - b).toNat < 2 ^ w) :
    (x - y).toInt = ((x - b).toNat : Int) - (y - b).toNat := by
  have hx' : 2 * ((x - b).toNat : Int) < 2 ^ w := by exact_mod_cast hx
  have hy' : 2 * ((y - b).toNat : Int) < 2 ^ w := by exact_mod_cast hy
  rw [← sub_sub_sub_cancel_right x y b, BitVec.toInt_sub, toInt_of_short hx, toInt_of_short hy]
  exact Int.bmod_eq_of_le_mul_two (by push_cast; omega) (by push_cast; omega)

theorem ne_intMin_of_ne_half {u : BitVec (w + 1)} (h : 2 * u.toNat ≠ 2 ^ (w + 1)) : u ≠ BitVec.intMin (w + 1) := by
  rintro rfl
  refine h ?_
  rw [BitVec.toNat_intMin, Nat.add_sub_cancel, Nat.mod_eq_of_lt (Nat.pow_lt_pow_succ one_lt_two), pow_succ, mul_comm]

theorem toInt_neg_of_ne_half {u : BitVec w} (h : 2 * u.toNat ≠ 2 ^ w) : (-u).toInt = -u.toInt := by
  cases w with
  | zero => simp [BitVec.of_length_zero]
  | succ w => exact BitVec.toInt_neg_of_ne_intMin (ne_intMin_of_ne_half h)

/-- `ngx_abs`, but for differences of exactly half of the clock. -/
theorem ngxAbs_of_ne_half {u : BitVec w} (h : 2 * u.toNat ≠ 2 ^ w) : ∃ v, ngxAbs u = some v ∧ v.toInt = |u.toInt| := by
  cases w with
  | zero => exact ⟨u, by simp [ngxAbs, BitVec.of_length_zero], by simp [BitVec.of_length_zero]⟩
  | succ w =>
      rw [ngxAbs, if_neg (ne_intMin_of_ne_half h)]
      split
      · rename_i hpos
        exact ⟨u, rfl, (abs_of_nonneg hpos).symm⟩
      · rename_i hneg
        exact ⟨-u, rfl, by rw [toInt_neg_of_ne_half h, abs_of_neg (not_le.mp hneg)]⟩

namespace Timers

theorem Window.mono {xs ys : List (BitVec w)} (h : Window ys) (hsub : ∀ x ∈ xs, x ∈ ys) : Window xs := by
  obtain ⟨b, hb⟩ := h
  exact ⟨b, fun x hx => hb x (hsub x hx)⟩

/-- The tree holds the pending events by expiry. -/
structure Ok (st : Timers w) (T : BTree Nat) : Prop where
  valid : st.tree.Valid T
  nodes : T.toList.Perm st.pending
  set : ∀ ev, st.timerSet ev = true ↔ ev ∈ st.pending
  sorted : T.toList.Pairwise fun i j => 0 ≤ (st.key j - st.key i).toInt
  window : st.InWindow

variable {st : Timers w} {T : BTree Nat}

namespace Ok

theorem length (h : st.Ok T) : T.toList.length < st.fuel := by
  rw [h.nodes.length_eq, fuel]
  omega

theorem nodup (h : st.Ok T) : st.pending.Nodup := h.nodes.nodup_iff.mp h.valid.nodup

theorem root_iff (h : st.Ok T) : st.tree.root = st.tree.sentinel ↔ T = .leaf := by
  have hroot : st.tree.root = ptr st.tree.sentinel T := h.valid.rep.path
  rw [hroot]
  exact h.valid.rep.ptr_eq_sentinel_iff

theorem key_congr {t : RbTree} {ev : Nat} (hkey : t.key ev = st.tree.key ev) :
    BitVec.ofNat w (t.key ev) = st.key ev := by
  rw [hkey]
  rfl

/-- A pending timer is taken out. -/
theorem del (h : st.Ok T) {ev : Nat} (hev : ev ∈ st.pending) :
    ∃ t' T', ngxEventDelTimer st ev = some { st with
        tree := t', timerSet := Function.update st.timerSet ev false, pending := st.pending.erase ev } ∧
      ({ st with tree := t', timerSet := Function.update st.timerSet ev false, pending := st.pending.erase ev } :
        Timers w).Ok T' ∧
      T'.toList = T.toList.erase ev ∧ (∀ i, i ≠ ev → t'.key i = st.tree.key i) ∧ t'.sentinel = st.tree.sentinel := by
  have hmem : ev ∈ T.toList := h.nodes.mem_iff.mpr hev
  have hfuel : T.toList.length + 1 < st.fuel := by
    rw [h.nodes.length_eq, fuel]
    omega
  obtain ⟨t', T', hdel, hvalid, helems, hkeys, hsent⟩ := h.valid.delete_sorted hmem hfuel
  have hne : ∀ other ∈ st.pending.erase ev, other ≠ ev := fun other hother heq =>
    h.nodup.not_mem_erase (heq ▸ hother)
  have hnodes : T'.toList.Perm (st.pending.erase ev) := by
    rw [helems]
    exact h.nodes.erase ev
  have hold : ∀ n ∈ T'.toList, BitVec.ofNat w (t'.key n) = st.key n := fun n hn =>
    key_congr (hkeys n (hne n (hnodes.mem_iff.mp hn)))
  refine ⟨t', T', ?_, ⟨hvalid, hnodes, ?_, ?_, ?_⟩, helems, hkeys, hsent⟩
  · simp only [ngxEventDelTimer, hdel, Option.bind_eq_bind, Option.bind_some]
  · intro other
    by_cases hother : other = ev
    · rw [hother]
      simp [h.nodup.not_mem_erase]
    · simp [hother, h.set other]
  · have hsub : T'.toList.Sublist T.toList := by
      rw [helems]
      exact List.erase_sublist
    refine (h.sorted.sublist hsub).imp_of_mem ?_
    intro i j hi hj hle
    show 0 ≤ (BitVec.ofNat w (t'.key j) - BitVec.ofNat w (t'.key i)).toInt
    rwa [hold i hi, hold j hj]
  · refine h.window.mono fun x hx => ?_
    obtain rfl | hx := List.mem_cons.mp hx
    · exact List.mem_cons_self
    · obtain ⟨other, hother, rfl⟩ := List.mem_map.mp hx
      have hkey : BitVec.ofNat w (t'.key other) = st.key other := key_congr (hkeys other (hne other hother))
      refine List.mem_cons_of_mem _ (List.mem_map.mpr ⟨other, List.mem_of_mem_erase hother, hkey.symm⟩)

/-- A timer that is not pending is put in; it is in order if its key is in a window with the others. -/
theorem insertTimer (h : st.Ok T) {ev : Nat} (hev : ev ∉ st.pending) (hsent : ev ≠ st.tree.sentinel) (key : BitVec w) :
    ∃ t', eventInsertTimer st ev key = some { st with
        tree := t', timerSet := Function.update st.timerSet ev true, pending := ev :: st.pending } ∧
      t'.key = Function.update st.tree.key ev key.toNat ∧
      (({ st with tree := t', timerSet := Function.update st.timerSet ev true, pending := ev :: st.pending } :
          Timers w).InWindow →
        ∃ T', ({ st with tree := t', timerSet := Function.update st.timerSet ev true, pending := ev :: st.pending } :
          Timers w).Ok T') := by
  have hout : ev ∉ T.toList := fun hmem => hev (h.nodes.mem_iff.mp hmem)
  have hbelow : ngxRbtreeInsertTimerValue w st.fuel (st.tree.setKey ev key.toNat) (st.tree.setKey ev key.toNat).root ev =
      rbtreeInsertBelow (fun z y => (BitVec.ofNat w ((st.tree.setKey ev key.toNat).key z) -
        BitVec.ofNat w ((st.tree.setKey ev key.toNat).key y)).toInt < 0)
        st.fuel (st.tree.setKey ev key.toNat) (st.tree.setKey ev key.toNat).root ev := rfl
  obtain ⟨t', T', l₁, l₂, hins, hvalid, hsplit, helems, hlast, hhead, hkeys, -⟩ :=
    ngxRbtreeInsert_valid _ hbelow (h.valid.setKey ev key.toNat) hout hsent h.length
  have hnew : BitVec.ofNat w (t'.key ev) = key := by
    rw [hkeys, setKey_key, if_pos rfl, BitVec.ofNat_toNat, BitVec.setWidth_eq]
  have hold : ∀ n ∈ T.toList, BitVec.ofNat w (t'.key n) = st.key n := by
    intro n hn
    have hne : n ≠ ev := fun heq => hout (heq ▸ hn)
    refine key_congr ?_
    rw [hkeys, setKey_key, if_neg hne]
  refine ⟨t', ?_, hkeys, fun hwindow => ⟨T', hvalid, ?_, ?_, ?_, hwindow⟩⟩
  · simp only [eventInsertTimer, hins, Option.bind_eq_bind, Option.bind_some]
  · show T'.toList.Perm (ev :: st.pending)
    rw [helems]
    refine List.perm_middle.trans (List.Perm.cons _ ?_)
    rw [← hsplit]
    exact h.nodes
  · intro other
    by_cases hother : other = ev
    · rw [hother]
      simp
    · simp [hother, h.set other]
  · -- offsets from the start of the window order the keys
    obtain ⟨b, hb⟩ := hwindow
    have hshort : ∀ n ∈ T'.toList, 2 * (BitVec.ofNat w (t'.key n) - b).toNat < 2 ^ w := by
      intro n hn
      refine hb _ (List.mem_cons_of_mem _ (List.mem_map.mpr ⟨n, ?_, rfl⟩))
      rw [helems, List.mem_append, List.mem_cons] at hn
      rw [List.mem_cons, ← h.nodes.mem_iff, hsplit, List.mem_append]
      tauto
    have hsub : ∀ n ∈ T.toList, n ∈ T'.toList := by
      intro n hn
      rw [hsplit, List.mem_append] at hn
      rw [helems, List.mem_append, List.mem_cons]
      tauto
    have hself : ev ∈ T'.toList := by
      rw [helems]
      exact List.mem_append_right _ List.mem_cons_self
    have hoffset : T'.toList.Pairwise fun i j =>
        (BitVec.ofNat w (t'.key i) - b).toNat ≤ (BitVec.ofNat w (t'.key j) - b).toNat := by
      have : IsTrans Nat fun i j =>
        (BitVec.ofNat w (t'.key i) - b).toNat ≤ (BitVec.ofNat w (t'.key j) - b).toNat := ⟨fun _ _ _ => le_trans⟩
      rw [helems]
      refine pairwise_insert ?_ ?_ ?_
      · rw [← hsplit]
        refine h.sorted.imp_of_mem ?_
        intro i j hi hj hle
        rw [← hold i hi, ← hold j hj, toInt_sub_of_window (hshort j (hsub j hj)) (hshort i (hsub i hi))] at hle
        omega
      · intro y hy
        have hyT : y ∈ T.toList := hsplit ▸ List.mem_append_left _ (List.mem_of_getLast? hy)
        have hgo := of_decide_eq_false (hlast y hy)
        rw [← hkeys, toInt_sub_of_window (hshort ev hself) (hshort y (hsub y hyT))] at hgo
        omega
      · intro y hy
        have hyT : y ∈ T.toList := hsplit ▸ List.mem_append_right _ (List.mem_of_head? hy)
        have hgo := of_decide_eq_true (hhead y hy)
        rw [← hkeys, toInt_sub_of_window (hshort ev hself) (hshort y (hsub y hyT))] at hgo
        omega
    refine hoffset.imp_of_mem ?_
    intro i j hi hj hle
    show 0 ≤ (BitVec.ofNat w (t'.key j) - BitVec.ofNat w (t'.key i)).toInt
    rw [toInt_sub_of_window (hshort j hj) (hshort i hi)]
    omega

/-- The keys after the first one in order expire after it. -/
theorem head_le (h : st.Ok T) {x : Nat} {l : List Nat} (hx : T.toList = x :: l) :
    ∀ y ∈ T.toList, (st.key x - st.now).toInt ≤ (st.key y - st.now).toInt := by
  obtain ⟨b, hb⟩ := h.window
  have hshort : ∀ n ∈ T.toList, 2 * (st.key n - b).toNat < 2 ^ w := fun n hn =>
    hb _ (List.mem_cons_of_mem _ (List.mem_map_of_mem (h.nodes.mem_iff.mp hn)))
  have hnow := hb st.now List.mem_cons_self
  have hhead : x ∈ T.toList := hx ▸ List.mem_cons_self
  intro y hy
  rw [toInt_sub_of_window (hshort x hhead) hnow, toInt_sub_of_window (hshort y hy) hnow]
  have hsorted := h.sorted
  rw [hx] at hy hsorted
  obtain rfl | hy := List.mem_cons.mp hy
  · exact le_rfl
  · have hle := (List.pairwise_cons.mp hsorted).1 y hy
    have hyT : y ∈ T.toList := hx ▸ List.mem_cons_of_mem _ hy
    rw [toInt_sub_of_window (hshort y hyT) (hshort x hhead)] at hle
    omega

/-- `ngx_event_find_timer` looks at the first timer in order. -/
theorem finds (h : st.Ok T) : st.Finds := by
  by_cases hleaf : T = .leaf
  · have hempty : st.pending = [] := by
      have hnodes := h.nodes
      rw [hleaf] at hnodes
      exact hnodes.symm.eq_nil
    refine Or.inl ⟨hempty, ?_⟩
    rw [ngxEventFindTimer, if_pos (h.root_iff.mpr hleaf)]
  · obtain ⟨x, l, hx⟩ : ∃ x l, T.toList = x :: l := by
      cases hT : T.toList with
      | nil =>
          cases T with
          | leaf => exact absurd rfl hleaf
          | node red left y right => simp [BTree.toList] at hT
      | cons x l => exact ⟨x, l, rfl⟩
    have hmem : x ∈ T.toList := hx ▸ List.mem_cons_self
    have hmin := ngxRbtreeMin_head h.valid hx h.length.le
    refine Or.inr ⟨x, h.nodes.mem_iff.mp hmem, ?_,
      if 0 < (st.key x - st.now).toInt then st.key x - st.now else 0, ?_, ?_⟩
    · intro y hy
      exact Int.toNat_le_toNat (h.head_le hx y (h.nodes.mem_iff.mpr hy))
    · rw [ngxEventFindTimer, if_neg fun hroot => hleaf (h.root_iff.mp hroot), hmin]
      rfl
    · rw [remaining]
      split
      · rename_i hpos
        have hshort : 2 * (st.key x - st.now).toNat < 2 ^ w := by
          by_contra hlong
          exact absurd hpos (not_lt.mpr (BitVec.toInt_neg_iff.mpr (not_lt.mp hlong)).le)
        rw [toInt_of_short hshort, Int.toNat_natCast]
      · rename_i hneg
        rw [Int.toNat_of_nonpos (not_lt.mp hneg)]
        simp

/-- The loop of `ngx_event_expire_timers` fires the timers in order up to the first one that has not expired. -/
theorem expire (fuel : Nat) (h : st.Ok T) (hfuel : T.toList.length < fuel) (fired : List Nat) :
    ∃ st' T' l, expireTimers fuel st fired = some (st', fired ++ l) ∧ st'.Ok T' ∧ T.toList = l ++ T'.toList ∧
      (∀ ev ∈ l, st.expired ev = true) ∧ (∀ ev ∈ T'.toList, st.expired ev = false) ∧
      st'.now = st.now ∧ (∀ ev, st'.timedout ev = (st.timedout ev || decide (ev ∈ l))) ∧ ∀ ev, ev ∉ l → st'.key ev = st.key ev := by
  induction fuel generalizing st T fired with
  | zero => omega
  | succ fuel ih =>
      rw [expireTimers]
      cases hT : T.toList with
      | nil =>
          have hleaf : T = .leaf := by
            cases T with
            | leaf => rfl
            | node red left y right => simp [BTree.toList] at hT
          rw [if_pos (h.root_iff.mpr hleaf)]
          refine ⟨st, T, [], by rw [List.append_nil], h, by rw [hT]; rfl, by simp, ?_, rfl, by simp,
            fun _ _ => rfl⟩
          rw [hT]
          simp
      | cons x rest =>
          have hleaf : T ≠ .leaf := by
            rintro rfl
            cases hT
          have hmem : x ∈ T.toList := hT ▸ List.mem_cons_self
          rw [if_neg fun hroot => hleaf (h.root_iff.mp hroot), ngxRbtreeMin_head h.valid hT h.length.le]
          simp only [Option.bind_eq_bind, Option.bind_some]
          by_cases hpos : 0 < (st.key x - st.now).toInt
          · rw [if_pos hpos]
            refine ⟨st, T, [], by rw [List.append_nil], h, by rw [hT]; rfl, by simp, ?_, rfl, by simp,
              fun _ _ => rfl⟩
            intro y hy
            have hle := h.head_le hT y hy
            rw [expired, decide_eq_false_iff_not]
            omega
          · rw [if_neg hpos]
            obtain ⟨t', T₁, hdel, hok, helems, hkeys, -⟩ := h.del (h.nodes.mem_iff.mp hmem)
            rw [hdel]
            simp only [Option.bind_some]
            have helems' : T₁.toList = rest := by rw [helems, hT, List.erase_cons_head]
            have hnot : x ∉ rest := by
              have hnodup := h.valid.nodup
              rw [hT, List.nodup_cons] at hnodup
              exact hnodup.1
            have hok' : ({ st with
                tree := t', timerSet := Function.update st.timerSet x false, pending := st.pending.erase x
                timedout := Function.update st.timedout x true } : Timers w).Ok T₁ :=
              ⟨hok.valid, hok.nodes, hok.set, hok.sorted, hok.window⟩
            have hlen : T₁.toList.length < fuel := by
              rw [hT, List.length_cons] at hfuel
              rw [helems']
              omega
            obtain ⟨st', T', l, hloop, hst', hsplit, hin, hout, hnow, htimed, hkey⟩ :=
              ih hok' hlen (fired ++ [x])
            have hkey₁ : ∀ ev, ev ≠ x → BitVec.ofNat w (t'.key ev) = st.key ev := fun ev hev => key_congr (hkeys ev hev)
            have hexpired : ∀ ev ∈ rest, (Timers.expired { st with
                tree := t', timerSet := Function.update st.timerSet x false, pending := st.pending.erase x
                timedout := Function.update st.timedout x true } ev) = st.expired ev := by
              intro ev hev
              have hne : ev ≠ x := fun heq => hnot (heq ▸ hev)
              show decide ((BitVec.ofNat w (t'.key ev) - st.now).toInt ≤ 0) = _
              rw [hkey₁ ev hne]
              rfl
            have hrest : rest = l ++ T'.toList := by rw [← helems', hsplit]
            refine ⟨st', T', x :: l, ?_, hst', ?_, ?_, ?_, hnow, ?_, ?_⟩
            · rw [hloop, List.append_assoc]
              rfl
            · rw [hrest]
              rfl
            · intro ev hev
              obtain rfl | hev := List.mem_cons.mp hev
              · rw [Timers.expired, decide_eq_true_eq]
                omega
              · rw [← hexpired ev (hrest ▸ List.mem_append_left _ hev)]
                exact hin ev hev
            · intro ev hev
              rw [← hexpired ev (hrest ▸ List.mem_append_right _ hev)]
              exact hout ev hev
            · intro ev
              rw [htimed ev]
              by_cases hev : ev = x
              · simp [hev]
              · simp [hev]
            · intro ev hev
              rw [List.mem_cons, not_or] at hev
              rw [hkey ev hev.2]
              exact hkey₁ ev hev.1

theorem expires (h : st.Ok T) : st.Expires ∧ ∀ st', timerStep (some st) .expire = some st' →
    ∃ T', st'.Ok T' := by
  obtain ⟨st', T', l, hloop, hok, hsplit, hin, hout, hnow, htimed, hkey⟩ := h.expire st.fuel h.length []
  rw [List.nil_append] at hloop
  have hnodup := h.valid.nodup
  rw [hsplit] at hnodup
  have hl : l.Perm (st.pending.filter st.expired) := by
    have hfilter := h.nodes.filter st.expired
    rw [hsplit, List.filter_append, List.filter_eq_self.mpr hin,
      List.filter_eq_nil_iff.mpr fun ev hev => by simp [hout ev hev], List.append_nil] at hfilter
    exact hfilter
  have hrest : st'.pending.Perm (st.pending.filter fun ev => !st.expired ev) := by
    have hfilter := h.nodes.filter fun ev => !st.expired ev
    rw [hsplit, List.filter_append, List.filter_eq_nil_iff.mpr fun ev hev => by simp [hin ev hev],
      List.filter_eq_self.mpr fun ev hev => by simp [hout ev hev], List.nil_append] at hfilter
    exact hok.nodes.symm.trans hfilter
  refine ⟨⟨st', l, hloop, hl, (List.nodup_append.mp hnodup).1, ?_, hrest, hnow, ?_, htimed, hkey⟩, ?_⟩
  · have hsorted := h.sorted
    rw [hsplit] at hsorted
    exact (List.pairwise_append.mp hsorted).1
  · intro ev
    rw [Bool.eq_iff_iff, hok.set ev, hrest.mem_iff, List.mem_filter, Bool.and_eq_true, h.set ev]
  · intro st₂ hstep
    have heq : timerStep (some st) .expire = some st' := by
      show (ngxEventExpireTimers st).map Prod.fst = some st'
      rw [ngxEventExpireTimers, hloop]
      rfl
    rw [heq] at hstep
    obtain rfl := Option.some.inj hstep
    exact ⟨T', hok⟩

end Ok

/-- A timer is not re-armed to exactly half of the clock after its old key. -/
def NotHalf (st : Timers w) : TimerCall w → Prop
  | .add ev timer => st.timerSet ev = true → 2 * (st.now + timer - st.key ev).toNat ≠ 2 ^ w
  | _ => True

namespace Ok

theorem key_add {t' : RbTree} {ev : Nat} {key : BitVec w} (hkeys : t'.key = Function.update st.tree.key ev key.toNat) :
    BitVec.ofNat w (t'.key ev) = key := by
  rw [hkeys, Function.update_self, BitVec.ofNat_toNat, BitVec.setWidth_eq]

/-- The insertion that `ngx_event_add_timer` ends with. -/
theorem add_insert (h : st.Ok T) {ev : Nat} (hev : ev ∉ st.pending) (hsent : ev ≠ st.tree.sentinel) (key : BitVec w) :
    ∃ st', eventInsertTimer st ev key = some st' ∧ (st'.InWindow → ∃ T', st'.Ok T') ∧
      st'.timerSet ev = true ∧ ev ∈ st'.pending ∧ |(st'.key ev - key).toInt| < ngxTimerLazyDelay := by
  obtain ⟨t', hins, hkeys, hok⟩ := h.insertTimer hev hsent key
  refine ⟨_, hins, hok, Function.update_self .., List.mem_cons_self, ?_⟩
  show |(BitVec.ofNat w (t'.key ev) - key).toInt| < ngxTimerLazyDelay
  rw [key_add hkeys]
  simp [ngxTimerLazyDelay]

theorem add (h : st.Ok T) {ev : Nat} {timer : BitVec w} (hsent : ev ≠ st.tree.sentinel)
    (hhalf : st.NotHalf (.add ev timer)) :
    ∃ st', ngxEventAddTimer st ev timer = some st' ∧ (st'.InWindow → ∃ T', st'.Ok T') ∧
      st'.timerSet ev = true ∧ ev ∈ st'.pending ∧
      |(st'.key ev - (st.now + timer)).toInt| < ngxTimerLazyDelay := by
  rw [ngxEventAddTimer]
  by_cases hset : st.timerSet ev = true
  · have hmem : ev ∈ st.pending := (h.set ev).mp hset
    obtain ⟨diff, hdiff, hvalue⟩ := ngxAbs_of_ne_half (hhalf hset)
    simp only [hset, if_true, hdiff, Option.bind_eq_bind, Option.bind_some]
    by_cases hlazy : diff.toInt < ngxTimerLazyDelay
    · rw [if_pos hlazy]
      refine ⟨st, rfl, fun _ => ⟨T, h⟩, hset, hmem, ?_⟩
      rw [hvalue] at hlazy
      rwa [← neg_sub, toInt_neg_of_ne_half (hhalf hset), abs_neg]
    · rw [if_neg hlazy]
      obtain ⟨t', T', hdel, hok, -, -, hsents⟩ := h.del hmem
      rw [hdel]
      simp only [Option.bind_some]
      refine hok.add_insert h.nodup.not_mem_erase ?_ _
      show ev ≠ t'.sentinel
      rwa [hsents]
  · rw [if_neg hset]
    exact h.add_insert (fun hmem => hset ((h.set ev).mpr hmem)) hsent _

theorem step (h : st.Ok T) {call : TimerCall w} (hadmits : st.Admits call) (hhalf : st.NotHalf call) :
    st.Rearms call ∧ ∃ st' T', timerStep (some st) call = some st' ∧ st'.Ok T' := by
  obtain ⟨hallowed, hwindow⟩ := hadmits
  cases call with
  | add ev timer =>
      obtain ⟨st', hadd, hok, hset, hmem, hkey⟩ := h.add hallowed hhalf
      obtain ⟨T', hok'⟩ := hok (hwindow st' hadd)
      exact ⟨⟨st', hadd, hset, hmem, hkey⟩, st', T', hadd, hok'⟩
  | del ev =>
      obtain ⟨t', T', hdel, hok, -⟩ := h.del ((h.set ev).mp hallowed)
      exact ⟨trivial, _, T', hdel, hok⟩
  | advance msec =>
      exact ⟨trivial, _, T, rfl, h.valid, h.nodes, h.set, h.sorted, hwindow _ rfl⟩
  | expire =>
      obtain ⟨⟨st', fired, hloop, -⟩, hnext⟩ := h.expires
      have hstep : timerStep (some st) .expire = some st' := by
        show (ngxEventExpireTimers st).map Prod.fst = some st'
        rw [hloop]
        rfl
      obtain ⟨T', hok⟩ := hnext st' hstep
      exact ⟨trivial, st', T', hstep, hok⟩

end Ok

end Timers

/-- In every run that keeps the pending keys and the current time in a window shorter than half of the clock, and
re-arms no timer to exactly half of the clock after its old key: the least remaining time is found, exactly the expired
timers fire, each once and by expiry, and a timer that is armed is pending with the key that was asked for or a close
one. -/
theorem timers_right (memory : RbTree) (sentinel : Nat) (now : BitVec w) (calls : List (TimerCall w))
    (hcalls : Along timerStep (fun st call => ∀ timers ∈ st, timers.Admits call ∧ timers.NotHalf call)
      (some (ngxEventTimerInit memory sentinel now)) calls) :
    (∃ st, run timerStep (some (ngxEventTimerInit memory sentinel now)) calls = some st ∧ st.Finds ∧ st.Expires) ∧
      Along timerStep (fun st call => ∃ timers, st = some timers ∧ timers.Rearms call)
        (some (ngxEventTimerInit memory sentinel now)) calls := by
  have hstart : (ngxEventTimerInit memory sentinel now).Ok .leaf := by
    refine ⟨valid_init memory sentinel, List.Perm.refl _, ?_, List.Pairwise.nil, now, ?_⟩
    · intro ev
      simp [ngxEventTimerInit]
    · intro x hx
      obtain rfl : x = now := by simpa [ngxEventTimerInit] using hx
      simp
  have hstep : ∀ (st : Option (Timers w)) (call : TimerCall w), (∃ timers T, st = some timers ∧ timers.Ok T) →
      (∀ timers ∈ st, timers.Admits call ∧ timers.NotHalf call) →
      ∃ timers T, timerStep st call = some timers ∧ timers.Ok T := by
    rintro _ call ⟨st, T, rfl, h⟩ hok
    obtain ⟨hadmits, hhalf⟩ := hok st rfl
    exact (h.step hadmits hhalf).2
  constructor
  · obtain ⟨st, T, hrun, h⟩ := run_invariant hstep ⟨_, _, rfl, hstart⟩ hcalls
    exact ⟨st, hrun, h.finds, h.expires.1⟩
  · refine along_of_invariant hstep ?_ ⟨_, _, rfl, hstart⟩ hcalls
    rintro _ call ⟨st, T, rfl, h⟩ hok
    obtain ⟨hadmits, hhalf⟩ := hok st rfl
    exact ⟨st, rfl, (h.step hadmits hhalf).1⟩

/-- A step is admitted if the values after it are in a window that starts at `b`. -/
theorem Timers.admits_of_values {st : Timers w} {call : TimerCall w} (b : BitVec w) (xs : List (BitVec w))
    (hcall : st.Allowed call)
    (hvalues : (timerStep (some st) call).map (fun st' => st'.now :: st'.pending.map st'.key) = some xs)
    (hshort : ∀ x ∈ xs, 2 * (x - b).toNat < 2 ^ w) : st.Admits call := by
  refine ⟨hcall, fun st' hst' => ⟨b, ?_⟩⟩
  rw [Option.mem_def.mp hst', Option.map_some, Option.some.injEq] at hvalues
  rw [hvalues]
  exact hshort

/-- No timers yet, over memory of zeros. -/
def timersAt (now : BitVec 32) : Timers 32 :=
  ngxEventTimerInit ⟨fun _ => 0, fun _ _ => 0, fun _ => 0, fun _ => false, 0, 0⟩ 1 now

/-- Two timers are armed just before the clock wraps; 0.4 s later one of them has expired. -/
theorem timers_right_wrap :
    ∃ st, run timerStep (some (timersAt 0xffffff00)) [.add 2 1000, .add 3 100, .advance 400] = some st ∧
      st.Finds ∧ st.Expires := by
  have hcalls : Along timerStep (fun st call => ∀ timers ∈ st, timers.Admits call ∧ timers.NotHalf call)
      (some (timersAt 0xffffff00)) [.add 2 1000, .add 3 100, .advance 400] := by
    refine ⟨?_, ?_, ?_, trivial⟩
    · rintro st hst
      cases hst
      exact ⟨Timers.admits_of_values 0xffffff00 [0xffffff00, 744] (show (_ : Nat) ≠ _ by decide) rfl (by simp), fun hset => by cases hset⟩
    · rintro st hst
      cases hst
      exact ⟨Timers.admits_of_values 0xffffff00 [0xffffff00, 0xffffff64, 744] (show (_ : Nat) ≠ _ by decide) rfl (by simp), fun hset => by cases hset⟩
    · rintro st hst
      cases hst
      exact ⟨Timers.admits_of_values 0xffffff00 [144, 0xffffff64, 744] trivial rfl (by simp), trivial⟩
  exact (timers_right _ 1 (0xffffff00 : BitVec 32) _ hcalls).1

/-- A timer that expired 1 ms ago is re-armed for the longest time that 32 bits take: the key asked for and the current time
are in a window, and the difference of the keys has no `ngx_abs`. -/
theorem timer_undefined :
    Along timerStep (fun st call => ∀ timers ∈ st, timers.Admits call) (some (timersAt 5)) [.add 2 0, .advance 1] ∧
      ∃ st, run timerStep (some (timersAt 5)) [.add 2 0, .advance 1] = some st ∧
        st.Allowed (.add 2 2147483647) ∧ st.pending = [2] ∧ Timers.Window [st.now, st.now + 2147483647] ∧
        ngxEventAddTimer st 2 2147483647 = none ∧ ¬st.Rearms (.add 2 2147483647) := by
  refine ⟨⟨?_, ?_, trivial⟩, _, rfl, show (_ : Nat) ≠ _ by decide, rfl, ⟨6, ?_⟩, rfl, ?_⟩
  · rintro st hst
    cases hst
    exact Timers.admits_of_values 5 [5, 5] (show (_ : Nat) ≠ _ by decide) rfl (by simp)
  · rintro st hst
    cases hst
    exact Timers.admits_of_values 5 [6, 5] trivial rfl (by simp)
  · intro x hx
    rcases List.mem_cons.mp hx with rfl | hx
    · decide
    · rw [List.mem_singleton.mp hx]
      decide
  · rintro ⟨st', hadd, -⟩
    cases hadd

end NginxDtls
