import Mathlib.Data.Nat.Bitwise
import NginxDtls.GeoBucket

/-! The range table as a map from addresses to values, over every history of additions and deletions. -/

namespace NginxDtls.Geo

open Run

/-! ### The rounds of the loop -/

theorem and_low (n : UInt32) : (n &&& 0xffff).toNat = n.toNat % 65536 := by
  rw [UInt32.toNat_and]
  exact Nat.and_two_pow_sub_one_eq_mod n.toNat 16

theorem shift_high (n : UInt32) : (n >>> 16).toNat = n.toNat / 65536 := by
  rw [UInt32.toNat_shiftRight]
  exact Nat.shiftRight_eq_div_pow n.toNat 16

theorem or_low (n : UInt32) : (n ||| 0xffff).toNat = n.toNat / 65536 * 65536 + 65535 := by
  rw [UInt32.toNat_or]
  refine Nat.eq_of_testBit_eq fun i => ?_
  have hsplit : n.toNat / 65536 * 65536 + 65535 = 2 ^ 16 * (n.toNat / 2 ^ 16) + 65535 :=
    congrArg (· + 65535) (Nat.mul_comm _ _)
  rw [hsplit, Nat.testBit_two_pow_mul_add _ (by decide), Nat.testBit_or, Nat.testBit_div_two_pow,
    show (0xffff : UInt32).toNat = 2 ^ 16 - 1 from rfl, show 65535 = 2 ^ 16 - 1 from rfl, Nat.testBit_two_pow_sub_one]
  by_cases hi : i < 16
  · rw [if_pos hi, decide_eq_true hi, Bool.or_true]
  · rw [if_neg hi, decide_eq_false hi, Bool.or_false, Nat.sub_add_cancel (Nat.le_of_not_lt hi)]

theorem and_high (n : UInt32) : (n &&& 0xffff0000).toNat = n.toNat / 65536 * 65536 := by
  rw [UInt32.toNat_and]
  refine Nat.eq_of_testBit_eq fun i => ?_
  have hlt := n.toNat_lt
  have hmask : (0xffff0000 : UInt32).toNat = (2 ^ 16 - 1) <<< 16 := rfl
  have hsplit : n.toNat / 65536 * 65536 = (n.toNat >>> 16) <<< 16 := by
    rw [Nat.shiftLeft_eq, Nat.shiftRight_eq_div_pow]
  rw [hsplit, hmask, Nat.testBit_and, Nat.testBit_shiftLeft, Nat.testBit_shiftLeft, Nat.testBit_shiftRight,
    Nat.testBit_two_pow_sub_one]
  by_cases hi : 16 ≤ i
  · rw [decide_eq_true hi, Bool.true_and, Bool.true_and, Nat.add_sub_cancel' hi]
    by_cases hi' : i - 16 < 16
    · rw [decide_eq_true hi', Bool.and_true]
    · rw [decide_eq_false hi', Bool.and_false, Nat.testBit_lt_two_pow]
      exact hlt.trans_le (Nat.pow_le_pow_right (by decide) (by omega))
  · rw [decide_eq_false hi, Bool.false_and, Bool.and_false, Bool.false_and]

theorem next_bucket {n : UInt32} (h : n.toNat / 65536 < 65535) :
    ((n + 0x10000) &&& 0xffff0000).toNat = (n.toNat / 65536 + 1) * 65536 := by
  have hadd : (n + 0x10000).toNat = n.toNat + 65536 := by
    rw [UInt32.toNat_add]
    exact Nat.mod_eq_of_lt (by show n.toNat + 65536 < 2 ^ 32; omega)
  rw [and_high, hadd, Nat.add_div_right _ (by decide)]

/-- The part of the range from `start` to `stop` that lies in a bucket, where there is one. -/
def clipOf (start stop : UInt32) (h : ℕ) : Clip where
  h := h
  s := if h = start.toNat / 65536 then start.toNat % 65536 else 0
  e := if h = stop.toNat / 65536 then stop.toNat % 65536 else 65535

theorem clipAt_eq {start stop n : UInt32} {h : ℕ} (hn : n.toNat = if h = start.toNat / 65536 then start.toNat else h * 65536)
    (hstart : start.toNat / 65536 ≤ h) (hle : n ≤ stop) : clipAt start stop n = clipOf start stop h := by
  have hh : n.toNat / 65536 = h := by
    rw [hn]
    split <;> omega
  have hstop : h ≤ stop.toNat / 65536 := by
    rw [← hh]
    exact Nat.div_le_div_right (UInt32.le_iff_toNat_le.mp hle)
  rw [clipAt, clipOf, shift_high, hh, and_low, and_low]
  congr 1
  · by_cases hfirst : h = start.toNat / 65536
    · rw [if_pos hfirst] at hn
      rw [if_pos hfirst, if_pos (UInt32.toNat_inj.mp hn), hn]
    · rw [if_neg hfirst] at hn
      rw [if_neg hfirst, if_neg]
      rintro rfl
      exact hfirst hh.symm
  · have hgt : n ||| 65535 > stop ↔ stop.toNat < h * 65536 + 65535 := by
      show stop < n ||| 65535 ↔ _
      rw [UInt32.lt_iff_toNat_lt, or_low, hh]
    by_cases hlast : h = stop.toNat / 65536
    · rw [if_pos hlast]
      split
      · rfl
      · rename_i hfull
        rw [hgt] at hfull
        omega
    · rw [if_neg hlast, if_neg]
      rw [hgt]
      omega

/-- The loop goes through the buckets from the one of `start` to the one of `stop`. -/
theorem clips_from (start stop : UInt32) {fuel h : ℕ} {n : UInt32}
    (hn : n.toNat = if h = start.toNat / 65536 then start.toNat else h * 65536) (hstart : start.toNat / 65536 ≤ h)
    (hle : start ≤ stop) (hhigh : h ≤ stop.toNat / 65536 + 1) (hfuel : stop.toNat / 65536 + 2 ≤ h + fuel) :
    clips start stop fuel n =
      some ((List.range' h (stop.toNat / 65536 + 1 - h)).map (clipOf start stop)) := by
  have hlt := stop.toNat_lt
  have hle' := UInt32.le_iff_toNat_le.mp hle
  induction fuel generalizing h n with
  | zero => omega
  | succ fuel ih =>
      have hh : n.toNat / 65536 = h := by
        rw [hn]
        split <;> omega
      rw [clips]
      by_cases hin : n ≤ stop
      · rw [if_pos hin, clipAt_eq hn hstart hin]
        have hhstop : h ≤ stop.toNat / 65536 := by
          rw [← hh]
          exact Nat.div_le_div_right (UInt32.le_iff_toNat_le.mp hin)
        have hrange : List.range' h (stop.toNat / 65536 + 1 - h) =
            h :: List.range' (h + 1) (stop.toNat / 65536 + 1 - (h + 1)) := by
          rw [← List.range'_succ, show stop.toNat / 65536 + 1 - (h + 1) + 1 = stop.toNat / 65536 + 1 - h by omega]
        rw [hrange, List.map_cons]
        by_cases hlast : (clipOf start stop h).h = 65535
        · rw [if_pos hlast]
          have hlast' : h = 65535 := hlast
          rw [show stop.toNat / 65536 + 1 - (h + 1) = 0 by omega]
          rfl
        · rw [if_neg hlast]
          have hlast' : h ≠ 65535 := hlast
          have hnext := @next_bucket n (by omega)
          rw [hh] at hnext
          rw [ih (h := h + 1) (by rw [hnext, if_neg (by omega)]) (by omega) (by omega) (by omega)]
          rfl
      · rw [if_neg hin]
        have hgt : stop.toNat < n.toNat := Nat.lt_of_not_le fun hle => hin (UInt32.le_iff_toNat_le.mpr hle)
        have hpast : stop.toNat / 65536 < h := by
          rw [hn] at hgt
          split at hgt <;> omega
        rw [show stop.toNat / 65536 + 1 - h = 0 by omega]
        rfl

/-- The buckets of a range. -/
def bucketsOf (start stop : UInt32) : List ℕ :=
  List.range' (start.toNat / 65536) (stop.toNat / 65536 + 1 - start.toNat / 65536)

theorem clips_eq (start stop : UInt32) : clips start stop (2 ^ 16 + 1) start =
    some (if start ≤ stop then (bucketsOf start stop).map (clipOf start stop) else []) := by
  by_cases hle : start ≤ stop
  · rw [if_pos hle]
    have hlt := stop.toNat_lt
    exact clips_from start stop (by rw [if_pos rfl]) (le_refl _) hle (by have := UInt32.le_iff_toNat_le.mp hle; omega) (by omega)
  · rw [if_neg hle, clips, if_neg hle]

/-- The bucket holds a part of the range. -/
def InBucket (start stop : UInt32) (h : ℕ) : Prop :=
  start ≤ stop ∧ start.toNat / 65536 ≤ h ∧ h ≤ stop.toNat / 65536

theorem mem_rounds {start stop : UInt32} {clip : Clip} :
    clip ∈ (if start ≤ stop then (bucketsOf start stop).map (clipOf start stop) else []) ↔
      ∃ h, InBucket start stop h ∧ clip = clipOf start stop h := by
  by_cases hle : start ≤ stop
  · have hle' := Nat.div_le_div_right (c := 65536) (UInt32.le_iff_toNat_le.mp hle)
    rw [if_pos hle, List.mem_map]
    constructor
    · rintro ⟨h, hh, rfl⟩
      have := List.mem_range'_1.mp hh
      exact ⟨h, ⟨hle, this.1, by omega⟩, rfl⟩
    · rintro ⟨h, ⟨-, hlow, hhigh⟩, rfl⟩
      exact ⟨h, List.mem_range'_1.mpr ⟨hlow, by omega⟩, rfl⟩
  · rw [if_neg hle]
    exact iff_of_false List.not_mem_nil fun ⟨_, hin, _⟩ => hle hin.1

theorem rounds_nodup (start stop : UInt32) :
    ((if start ≤ stop then (bucketsOf start stop).map (clipOf start stop) else []).map Clip.h).Nodup := by
  split
  · rw [List.map_map]
    have hid : (bucketsOf start stop).map (Clip.h ∘ clipOf start stop) = bucketsOf start stop := List.map_id _
    rw [hid]
    exact List.nodup_range'
  · exact List.nodup_nil

theorem clipOf_bounds {start stop : UInt32} {h : ℕ} (hin : InBucket start stop h) :
    (clipOf start stop h).s ≤ (clipOf start stop h).e ∧ (clipOf start stop h).e ≤ 0xffff := by
  obtain ⟨hle, hlow, hhigh⟩ := hin
  have hle' := UInt32.le_iff_toNat_le.mp hle
  unfold clipOf
  constructor
  · dsimp only
    split <;> split <;> omega
  · dsimp only
    split <;> omega

/-- The parts of the range make up the range. -/
theorem clipOf_range {start stop : UInt32} {h n : ℕ} (hn : n < 65536) :
    (InBucket start stop h ∧ (clipOf start stop h).s ≤ n ∧ n ≤ (clipOf start stop h).e) ↔
      start.toNat ≤ h * 65536 + n ∧ h * 65536 + n ≤ stop.toNat := by
  unfold InBucket clipOf
  rw [UInt32.le_iff_toNat_le]
  dsimp only
  constructor
  · rintro ⟨⟨hle, hlow, hhigh⟩, hs, he⟩
    split at hs <;> split at he <;> omega
  · rintro ⟨hstart, hstop⟩
    refine ⟨by omega, ?_, ?_⟩ <;> split <;> omega

/-! ### What a call does to the buckets -/

section Calls

variable {V : Type}

/-- The ranges of a bucket. -/
def bucket (low : Low V) (h : ℕ) : List (Range V) := (low h).getD []

theorem addClip_eq (junk : Range V) (value : V) (low : Low V) (clip : Clip) : addClip junk value low clip =
    (addToBucket junk value clip.s clip.e (bucket low clip.h) (bucket low clip.h).length).map fun a =>
      Function.update low clip.h (some a) := rfl

theorem bucket_update (low : Low V) (h h' : ℕ) (a : List (Range V)) :
    bucket (Function.update low h (some a)) h' = if h' = h then a else bucket low h' := by
  unfold bucket
  rw [Function.update_apply]
  split <;> rfl

/-- The rounds of an addition, each in its own bucket. -/
theorem addClips (junk : Range V) (value : V) {low : Low V} {rounds : List Clip} (hnodup : (rounds.map Clip.h).Nodup) :
    (rounds.foldlM (addClip junk value) low = none ↔ ∃ clip ∈ rounds,
      addToBucket junk value clip.s clip.e (bucket low clip.h) (bucket low clip.h).length = none) ∧
    ∀ low', rounds.foldlM (addClip junk value) low = some low' →
      (∀ clip ∈ rounds, addToBucket junk value clip.s clip.e (bucket low clip.h) (bucket low clip.h).length =
        some (bucket low' clip.h)) ∧ ∀ h, h ∉ rounds.map Clip.h → bucket low' h = bucket low h := by
  induction rounds generalizing low with
  | nil =>
      refine ⟨iff_of_false (Option.some_ne_none _) fun ⟨_, hmem, _⟩ => absurd hmem List.not_mem_nil, fun low' hrun => ?_⟩
      cases hrun
      exact ⟨fun _ hmem => absurd hmem List.not_mem_nil, fun _ _ => rfl⟩
  | cons clip rounds ih =>
      obtain ⟨hfirst, hrest⟩ := List.nodup_cons.mp hnodup
      rw [List.foldlM_cons, addClip_eq]
      cases ha : addToBucket junk value clip.s clip.e (bucket low clip.h) (bucket low clip.h).length with
      | none => exact ⟨iff_of_true rfl ⟨clip, List.mem_cons_self, ha⟩, fun low' hrun => by cases hrun⟩
      | some a =>
          have hother : ∀ clip' ∈ rounds, bucket (Function.update low clip.h (some a)) clip'.h = bucket low clip'.h := by
            intro clip' hmem
            rw [bucket_update, if_neg]
            intro heq
            exact hfirst (heq ▸ List.mem_map_of_mem hmem)
          obtain ⟨hnone, hsome⟩ := @ih (Function.update low clip.h (some a)) hrest
          constructor
          · refine hnone.trans ⟨fun ⟨clip', hmem, hrun⟩ => ⟨clip', List.mem_cons_of_mem _ hmem, ?_⟩,
              fun ⟨clip', hmem, hrun⟩ => ?_⟩
            · rwa [hother clip' hmem] at hrun
            · rcases List.mem_cons.mp hmem with rfl | hmem
              · rw [ha] at hrun
                cases hrun
              · exact ⟨clip', hmem, by rwa [hother clip' hmem]⟩
          · intro low' hrun
            obtain ⟨hrounds, hsame⟩ := hsome low' hrun
            constructor
            · intro clip' hmem
              rcases List.mem_cons.mp hmem with rfl | hmem
              · rw [ha, hsame _ hfirst, bucket_update, if_pos rfl]
              · rw [← hrounds clip' hmem, hother clip' hmem]
            · intro h hh
              rw [List.map_cons, List.mem_cons, not_or] at hh
              rw [hsame h hh.2, bucket_update, if_neg hh.1]

/-- An addition to a table whose buckets are sorted. -/
theorem addRange_spec (junk : Range V) (value : V) {low : Low V} (hl : ∀ h, Sorted (bucket low h)) (start stop : UInt32) :
    (ngxStreamGeoAddRange junk low start stop value = none ↔ ∃ h, InBucket start stop h ∧
      ∃ r ∈ bucket low h, Conflict (clipOf start stop h).s (clipOf start stop h).e r) ∧
    ∀ low', ngxStreamGeoAddRange junk low start stop value = some low' → (∀ h, Sorted (bucket low' h)) ∧
      ∀ h n, n < 65536 → lookupBucket n (bucket low' h) =
        if start.toNat ≤ h * 65536 + n ∧ h * 65536 + n ≤ stop.toNat then some value else lookupBucket n (bucket low h) := by
  have hrounds := @addClips V junk value low _ (rounds_nodup start stop)
  rw [ngxStreamGeoAddRange, clips_eq, Option.bind_some]
  generalize hr : (if start ≤ stop then (bucketsOf start stop).map (clipOf start stop) else []) = rounds at hrounds ⊢
  have hmem : ∀ {clip}, clip ∈ rounds ↔ ∃ h, InBucket start stop h ∧ clip = clipOf start stop h := by
    intro clip
    rw [← hr]
    exact mem_rounds
  have hspec : ∀ h, InBucket start stop h → _ := fun h hin =>
    @addToBucket_spec V junk value _ _ (clipOf_bounds hin).1 (clipOf_bounds hin).2 _ (hl h)
  obtain ⟨hnone, hsome⟩ := hrounds
  constructor
  · refine hnone.trans ⟨fun ⟨clip, hclip, hrun⟩ => ?_, fun ⟨h, hin, hconflict⟩ => ?_⟩
    · obtain ⟨h, hin, rfl⟩ := hmem.mp hclip
      exact ⟨h, hin, (hspec h hin).1.mp hrun⟩
    · exact ⟨clipOf start stop h, hmem.mpr ⟨h, hin, rfl⟩, (hspec h hin).1.mpr hconflict⟩
  · intro low' hrun
    obtain ⟨hchanged, hsame⟩ := hsome low' hrun
    have hbucket : ∀ h, InBucket start stop h → Sorted (bucket low' h) ∧ ∀ n, lookupBucket n (bucket low' h) =
        if (clipOf start stop h).s ≤ n ∧ n ≤ (clipOf start stop h).e then some value else lookupBucket n (bucket low h) :=
      fun h hin => (hspec h hin).2 _ (hchanged _ (hmem.mpr ⟨h, hin, rfl⟩))
    have hkept : ∀ h, ¬InBucket start stop h → bucket low' h = bucket low h := by
      intro h hout
      refine hsame h fun hin => hout ?_
      obtain ⟨clip, hclip, heq⟩ := List.mem_map.mp hin
      obtain ⟨h', hin', rfl⟩ := hmem.mp hclip
      have hh : h' = h := heq
      rwa [← hh]
    constructor
    · intro h
      by_cases hin : InBucket start stop h
      · exact (hbucket h hin).1
      · rw [hkept h hin]
        exact hl h
    · intro h n hn
      have hrange := @clipOf_range start stop h n hn
      by_cases hin : InBucket start stop h
      · rw [(hbucket h hin).2 n]
        refine if_congr ?_ rfl rfl
        rw [← hrange]
        exact (and_iff_right hin).symm
      · rw [hkept h hin, if_neg fun hand => hin (hrange.mpr hand).1]

/-- The rounds of a deletion. -/
theorem deleteClips {s : Low V × Bool} {rounds : List Clip} (hl : ∀ h, Sorted (bucket s.1 h))
    (hnodup : (rounds.map Clip.h).Nodup) (h : ℕ) :
    (∀ clip ∈ rounds, clip.h = h → bucket (rounds.foldl deleteClip s).1 h =
      (bucket s.1 h).filter fun r => ¬(r.start = clip.s ∧ r.stop = clip.e)) ∧
    (h ∉ rounds.map Clip.h → bucket (rounds.foldl deleteClip s).1 h = bucket s.1 h) := by
  induction rounds generalizing s with
  | nil => exact ⟨fun _ hmem => absurd hmem List.not_mem_nil, fun _ => rfl⟩
  | cons clip rounds ih =>
      obtain ⟨hfirst, hrest⟩ := List.nodup_cons.mp hnodup
      have hround : ∀ h', bucket (deleteClip s clip).1 h' = if h' = clip.h then
          (bucket s.1 h').filter fun r => ¬(r.start = clip.s ∧ r.stop = clip.e) else bucket s.1 h' := by
        intro h'
        unfold deleteClip
        split
        · rename_i hnone
          split
          · rename_i heq
            rw [heq, bucket, hnone]
            rfl
          · rfl
        · rename_i hnil
          split
          · rename_i heq
            rw [heq, bucket, hnil]
            rfl
          · rfl
        · rename_i r a hcons
          have ha : bucket s.1 clip.h = r :: a := by
            rw [bucket, hcons]
            rfl
          rw [bucket_update]
          by_cases heq : h' = clip.h
          · rw [if_pos heq, if_pos heq, heq, ← ha]
            exact deleteFromBucket_spec clip.s clip.e (hl clip.h)
          · rw [if_neg heq, if_neg heq]
      have hsorted : ∀ h', Sorted (bucket (deleteClip s clip).1 h') := by
        intro h'
        rw [hround]
        split
        · exact (hl h').filter _
        · exact hl h'
      obtain ⟨hin, hout⟩ := ih hsorted hrest
      rw [List.foldl_cons]
      constructor
      · intro clip' hmem hclip
        rcases List.mem_cons.mp hmem with rfl | hmem
        · rw [hout (hclip ▸ hfirst), hround, if_pos hclip.symm]
        · rw [hin clip' hmem hclip, hround, if_neg]
          rintro rfl
          exact hfirst (hclip ▸ List.mem_map_of_mem hmem)
      · intro hh
        rw [List.map_cons, List.mem_cons, not_or] at hh
        rw [hout hh.2, hround, if_neg hh.1]

theorem deleteRange_spec {low : Low V} (hl : ∀ h, Sorted (bucket low h)) (start stop : UInt32) :
    ∃ result, ngxStreamGeoDeleteRange low start stop = some result ∧
      ∀ h, (InBucket start stop h → bucket result.1 h = (bucket low h).filter fun r =>
          ¬(r.start = (clipOf start stop h).s ∧ r.stop = (clipOf start stop h).e)) ∧
        (¬InBucket start stop h → bucket result.1 h = bucket low h) := by
  refine ⟨_, by rw [ngxStreamGeoDeleteRange, clips_eq]; rfl, fun h => ?_⟩
  obtain ⟨hin, hout⟩ := @deleteClips V (low, false) _ hl (rounds_nodup start stop) h
  constructor
  · exact fun hh => hin _ (mem_rounds.mpr ⟨h, hh, rfl⟩) rfl
  · intro hh
    refine hout fun hmem => hh ?_
    obtain ⟨clip, hclip, heq⟩ := List.mem_map.mp hmem
    obtain ⟨h', hin', rfl⟩ := mem_rounds.mp hclip
    have hh' : h' = h := heq
    rwa [← hh']

/-! ### Lookups -/

theorem variable_eq (defaultValue : V) (low : Low V) (addr : GeoAddr) :
    ngxStreamGeoRangeVariable defaultValue (finish low) addr =
      (lookupBucket (addr.inaddr.toNat % 65536) (bucket low (addr.inaddr.toNat / 65536))).getD defaultValue := by
  rw [ngxStreamGeoRangeVariable, finish, shift_high, and_low, bucket]
  cases low (addr.inaddr.toNat / 65536) with
  | none => rfl
  | some a =>
      cases a with
      | nil => rfl
      | cons r a => rfl

/-! ### Histories -/

/-- A call of the addition or of the deletion. -/
inductive Event (V : Type) where
  | add (start stop : UInt32) (value : V) (junk : Range V)
  | delete (start stop : UInt32)

/-- `none` is a configuration that has been rejected. -/
def step : Option (Low V) → Event V → Option (Low V)
  | none, _ => none
  | some low, .add start stop value junk => ngxStreamGeoAddRange junk low start stop value
  | some low, .delete start stop => (ngxStreamGeoDeleteRange low start stop).map Prod.fst

/-- The table before the first call. -/
def emptyTable : Low V := fun _ => none

theorem step_sorted {s : Option (Low V)} (hs : ∀ low, s = some low → ∀ h, Sorted (bucket low h)) (event : Event V) :
    ∀ low, step s event = some low → ∀ h, Sorted (bucket low h) := by
  intro low' hrun
  cases s with
  | none => cases hrun
  | some low =>
      have hl := hs low rfl
      cases event with
      | add start stop value junk => exact ((addRange_spec junk value hl start stop).2 low' hrun).1
      | delete start stop =>
          obtain ⟨result, hresult, hbuckets⟩ := deleteRange_spec hl start stop
          rw [step, hresult] at hrun
          cases hrun
          intro h
          by_cases hin : InBucket start stop h
          · rw [(hbuckets h).1 hin]
            exact (hl h).filter _
          · rw [(hbuckets h).2 hin]
            exact hl h

theorem run_sorted (events : List (Event V)) {low : Low V} (hrun : run step (some emptyTable) events = some low) (h : ℕ) :
    Sorted (bucket low h) := by
  refine run_induction (I := fun s => ∀ low, s = some low → ∀ h, Sorted (bucket low h))
    (fun s event hs => step_sorted hs event) ?_ events low hrun h
  rintro low heq h
  cases heq
  exact ⟨List.Pairwise.nil, fun r hr => absurd hr List.not_mem_nil⟩

/-- Two ranges meet, and each has an address that the other does not have. -/
def PartlyOverlaps (s e : ℕ) (r : Range V) : Prop :=
  s < r.start ∧ r.start ≤ e ∧ e < r.stop ∨ r.start < s ∧ s ≤ r.stop ∧ r.stop < e

/-- The range has all addresses of the stored one, and others. -/
def StrictlyContains (s e : ℕ) (r : Range V) : Prop := s ≤ r.start ∧ r.stop ≤ e ∧ ¬(s = r.start ∧ e = r.stop)

theorem conflict_iff {s e : ℕ} {r : Range V} (hse : s ≤ e) (hr : r.start ≤ r.stop) :
    Conflict s e r ↔ PartlyOverlaps s e r ∨ StrictlyContains s e r := by
  unfold Conflict PartlyOverlaps StrictlyContains
  omega

/-- Of every history of additions that succeed, and of deletions: the buckets are sorted and disjoint; the next addition
changes the value of the addresses of its range and of no other, and it fails exactly when its part in some bucket
partially overlaps or strictly contains a stored range; the next deletion takes out the ranges that are equal to its part
in a bucket. -/
theorem ranges_map (events : List (Event V)) {low : Low V} (hrun : run step (some emptyTable) events = some low) :
    (∀ h, Sorted (bucket low h)) ∧
    ∀ start stop : UInt32,
      (∀ value junk low', ngxStreamGeoAddRange junk low start stop value = some low' → ∀ defaultValue addr,
        ngxStreamGeoRangeVariable defaultValue (finish low') addr =
          if start ≤ addr.inaddr ∧ addr.inaddr ≤ stop then value
          else ngxStreamGeoRangeVariable defaultValue (finish low) addr) ∧
      (∀ value junk, ngxStreamGeoAddRange junk low start stop value = none ↔ ∃ h, InBucket start stop h ∧
        ∃ r ∈ bucket low h, PartlyOverlaps (clipOf start stop h).s (clipOf start stop h).e r ∨
          StrictlyContains (clipOf start stop h).s (clipOf start stop h).e r) ∧
      ∃ result, ngxStreamGeoDeleteRange low start stop = some result ∧
        ∀ h, (InBucket start stop h → bucket result.1 h = (bucket low h).filter fun r =>
            ¬(r.start = (clipOf start stop h).s ∧ r.stop = (clipOf start stop h).e)) ∧
          (¬InBucket start stop h → bucket result.1 h = bucket low h) := by
  have hl := run_sorted events hrun
  refine ⟨hl, fun start stop => ⟨fun value junk low' hadd defaultValue addr => ?_, fun value junk => ?_,
    deleteRange_spec hl start stop⟩⟩
  · have hlookup := ((addRange_spec junk value hl start stop).2 low' hadd).2 (addr.inaddr.toNat / 65536)
      (addr.inaddr.toNat % 65536) (Nat.mod_lt _ (by decide))
    rw [Nat.div_add_mod'] at hlookup
    rw [variable_eq, variable_eq, hlookup]
    simp only [UInt32.le_iff_toNat_le]
    split <;> rfl
  · refine (addRange_spec junk value hl start stop).1.trans (exists_congr fun h => and_congr_right fun hin => ?_)
    refine exists_congr fun r => and_congr_right fun hr => ?_
    exact conflict_iff (clipOf_bounds hin).1 ((hl h).within r hr).1

/-- A range in two buckets, one inside of it that splits its first part, and one that is deleted again. -/
theorem ranges_map_split : ∃ low : Low ℕ, run step (some emptyTable)
      [.add 1 65540 7 ⟨0, 0, 0⟩, .add 5 9 8 ⟨0, 0, 0⟩, .add 65550 65560 9 ⟨0, 0, 0⟩, .delete 65550 65560] = some low ∧
    (∀ h, Sorted (bucket low h)) ∧
    [4, 5, 9, 10, 65540, 65555].map (fun addr => ngxStreamGeoRangeVariable 0 (finish low) (.inet addr)) =
      [7, 8, 8, 7, 7, 0] :=
  ⟨_, rfl, (ranges_map [.add 1 65540 7 ⟨0, 0, 0⟩, .add 5 9 8 ⟨0, 0, 0⟩, .add 65550 65560 9 ⟨0, 0, 0⟩,
    .delete 65550 65560] rfl).1, by decide⟩

end Calls

end NginxDtls.Geo
