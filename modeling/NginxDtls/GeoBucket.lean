import NginxDtls.GeoRange

/-! One bucket of the range table. Its ranges are sorted and disjoint; an addition replaces a part of the array by
ranges that say the same outside of the new range, and a deletion takes one range out. -/

namespace NginxDtls.Geo

variable {V : Type}

/-- The ranges stand in order, apart from each other, and within the lower half of an address. -/
structure Sorted (l : List (Range V)) : Prop where
  apart : l.Pairwise fun r r' => r.stop < r'.start
  within : ∀ r ∈ l, r.start ≤ r.stop ∧ r.stop ≤ 0xffff

/-- The new range meets a stored one without lying inside it: it partially overlaps or strictly contains it. -/
def Conflict (s e : ℕ) (r : Range V) : Prop := s ≤ r.stop ∧ r.start ≤ e ∧ ¬(r.start ≤ s ∧ e ≤ r.stop)

/-! ### Moving array tails -/

section Moves

variable (junk : Range V) (l l₁ l₂ js : List (Range V)) (r : Range V)

/-- Moving a tail upwards into pushed elements opens a gap. -/
theorem memmove_gap : ∃ gap, gap.length = js.length ∧
    memmove (l₁.length + js.length) l₁.length l₂.length (l₁ ++ (l₂ ++ js)) = l₁ ++ (gap ++ l₂) := by
  refine ⟨(l₂ ++ js).take js.length, ?_, ?_⟩
  · rw [List.length_take, List.length_append]
    omega
  · have htake : (l₁ ++ (l₂ ++ js)).take (l₁.length + js.length) = l₁ ++ (l₂ ++ js).take js.length := by
      rw [List.take_append, List.take_of_length_le (Nat.le_add_right _ _), Nat.add_sub_cancel_left]
    have hdrop : (l₁ ++ (l₂ ++ js)).drop (l₁.length + js.length + l₂.length) = [] :=
      List.drop_eq_nil_of_le (by rw [List.length_append, List.length_append]; omega)
    rw [memmove, htake, hdrop, List.drop_left, List.take_left, List.append_nil, List.append_assoc]

theorem set_at (x y : Range V) : (l₁ ++ x :: l₂).set l₁.length y = l₁ ++ y :: l₂ := by
  rw [List.set_append_right _ _ (le_refl _), Nat.sub_self, List.set_cons_zero]

theorem insert_first (new : Range V) :
    (memmove 1 0 ((push junk l).length - 1) (push junk l)).set 0 new = new :: l := by
  obtain ⟨gap, hgap, hmove⟩ := memmove_gap [] l [junk]
  obtain ⟨x, rfl⟩ := List.length_eq_one_iff.mp hgap
  have hlength : (push junk l).length - 1 = l.length := by
    rw [push, List.length_append]
    exact Nat.add_sub_cancel _ _
  rw [hlength]
  exact (congrArg (List.set · 0 new) hmove).trans rfl

theorem insert_after (new : Range V) :
    (memmove (l₁.length + 2) (l₁.length + 1) ((push junk (l₁ ++ r :: l₂)).length - 2 - l₁.length)
      (push junk (l₁ ++ r :: l₂))).set (l₁.length + 1) new = l₁ ++ r :: new :: l₂ := by
  obtain ⟨gap, hgap, hmove⟩ := memmove_gap (l₁ ++ [r]) l₂ [junk]
  obtain ⟨x, rfl⟩ := List.length_eq_one_iff.mp hgap
  rw [List.length_append, List.length_singleton, List.length_singleton, List.append_assoc, List.append_assoc] at hmove
  have hlength : (push junk (l₁ ++ r :: l₂)).length - 2 - l₁.length = l₂.length := by
    simp only [push, List.length_append, List.length_cons, List.length_nil]
    omega
  have hpush : push junk (l₁ ++ r :: l₂) = l₁ ++ ([r] ++ (l₂ ++ [junk])) := by simp [push]
  rw [hlength, hpush, hmove]
  have hset := set_at (l₁ ++ [r]) l₂ x new
  rw [List.length_append, List.length_singleton, List.append_assoc, List.append_assoc] at hset
  exact hset

theorem insert_end (new left : Range V) :
    ((memmove (l₁.length + 2) (l₁.length + 1) ((push junk (l₁ ++ r :: l₂)).length - 2 - l₁.length)
      (push junk (l₁ ++ r :: l₂))).set (l₁.length + 1) new).set l₁.length left = l₁ ++ left :: new :: l₂ := by
  rw [insert_after, set_at]

theorem insert_start (new right : Range V) :
    ((memmove (l₁.length + 1) l₁.length ((push junk (l₁ ++ r :: l₂)).length - 1 - l₁.length)
      (push junk (l₁ ++ r :: l₂))).set (l₁.length + 1) right).set l₁.length new = l₁ ++ new :: right :: l₂ := by
  obtain ⟨gap, hgap, hmove⟩ := memmove_gap l₁ (r :: l₂) [junk]
  obtain ⟨x, rfl⟩ := List.length_eq_one_iff.mp hgap
  have hlength : (push junk (l₁ ++ r :: l₂)).length - 1 - l₁.length = (r :: l₂).length := by
    simp only [push, List.length_append, List.length_cons, List.length_nil]
    omega
  have hpush : push junk (l₁ ++ r :: l₂) = l₁ ++ (r :: l₂ ++ [junk]) := by simp [push]
  rw [List.length_singleton] at hmove
  rw [hlength, hpush, hmove]
  have hset := set_at (l₁ ++ [x]) l₂ r right
  rw [List.length_append, List.length_singleton, List.append_assoc, List.append_assoc] at hset
  rw [show l₁ ++ ([x] ++ r :: l₂) = l₁ ++ ([x] ++ (r :: l₂)) from rfl, hset]
  exact set_at l₁ (right :: l₂) x new

theorem insert_split (new left right : Range V) :
    (((memmove (l₁.length + 3) (l₁.length + 1) ((push junk (push junk (l₁ ++ r :: l₂))).length - 3 - l₁.length)
      (push junk (push junk (l₁ ++ r :: l₂)))).set (l₁.length + 2) right).set (l₁.length + 1) new).set l₁.length left =
      l₁ ++ left :: new :: right :: l₂ := by
  obtain ⟨gap, hgap, hmove⟩ := memmove_gap (l₁ ++ [r]) l₂ [junk, junk]
  obtain ⟨x, y, rfl⟩ := List.length_eq_two.mp hgap
  rw [List.length_append, List.length_singleton, List.append_assoc, List.append_assoc] at hmove
  have hlength : (push junk (push junk (l₁ ++ r :: l₂))).length - 3 - l₁.length = l₂.length := by
    simp only [push, List.length_append, List.length_cons, List.length_nil]
    omega
  have hpush : push junk (push junk (l₁ ++ r :: l₂)) = l₁ ++ ([r] ++ (l₂ ++ [junk, junk])) := by simp [push]
  have hset : ∀ a b : List (Range V), ∀ z w : Range V, (l₁ ++ (a ++ z :: b)).set (l₁.length + a.length) w =
      l₁ ++ (a ++ w :: b) := fun a b z w => by
    rw [← List.append_assoc, ← List.length_append, set_at, List.append_assoc]
  rw [hlength, hpush, show [junk, junk].length = 2 from rfl] at *
  rw [hmove]
  refine (congrArg (fun a => (List.set a (l₁.length + 1) new).set l₁.length left) (hset [r, x] l₂ y right)).trans ?_
  refine (congrArg (fun a => List.set a l₁.length left) (hset [r] (right :: l₂) x new)).trans ?_
  exact set_at l₁ (new :: right :: l₂) r left

/-- Moving a tail downwards over one element takes it out. -/
theorem remove_at : (memmove l₁.length (l₁.length + 1) ((l₁ ++ r :: l₂).length - 1 - l₁.length) (l₁ ++ r :: l₂)).dropLast =
    l₁ ++ l₂ := by
  have hlength : (l₁ ++ r :: l₂).length - 1 - l₁.length = l₂.length := by
    simp only [List.length_append, List.length_cons]
    omega
  have hdrop : (l₁ ++ r :: l₂).drop (l₁.length + 1) = l₂ := by
    rw [List.drop_append, List.drop_eq_nil_of_le (Nat.le_succ _), Nat.add_sub_cancel_left]
    rfl
  have hrest : ((l₁ ++ r :: l₂).drop (l₁.length + l₂.length)).length = 1 := by
    rw [List.length_drop, List.length_append, List.length_cons]
    omega
  obtain ⟨x, hx⟩ := List.length_eq_one_iff.mp hrest
  rw [hlength, memmove, List.take_left, hdrop, List.take_length, hx, ← List.append_assoc, List.dropLast_concat]

end Moves

/-! ### Splices -/

section Splice

variable {l l' l₁ l₂ old mid : List (Range V)} {s e n : ℕ} {v : V}

theorem lookupBucket_append (n : ℕ) (l l' : List (Range V)) :
    lookupBucket n (l ++ l') = (lookupBucket n l).or (lookupBucket n l') := by
  induction l with
  | nil => rfl
  | cons r l ih =>
      rw [List.cons_append, lookupBucket, lookupBucket]
      split
      · rfl
      · exact ih

theorem lookupBucket_none (h : ∀ r ∈ l, r.stop < n) : lookupBucket n l = none := by
  induction l with
  | nil => rfl
  | cons r l ih =>
      have hr := h r List.mem_cons_self
      rw [lookupBucket, if_neg (by omega)]
      exact ih fun r' hr' => h r' (List.mem_cons_of_mem r hr')

/-- The array is the old one with a part replaced by ranges that have the new value in the new range and say what the
part has said elsewhere. -/
structure Splice (s e : ℕ) (v : V) (l l' l₁ l₂ old mid : List (Range V)) : Prop where
  before : l = l₁ ++ (old ++ l₂)
  after : l' = l₁ ++ (mid ++ l₂)
  sorted : Sorted mid
  low : ∀ r ∈ l₁, r.stop < s ∧ ∀ m ∈ mid, r.stop < m.start
  high : ∀ r ∈ l₂, ∀ m ∈ mid, m.stop < r.start
  lookup : ∀ n, lookupBucket n mid = if s ≤ n ∧ n ≤ e then some v else lookupBucket n old

theorem Splice.sorted_after (h : Splice s e v l l' l₁ l₂ old mid) (hl : Sorted l) : Sorted l' := by
  have hapart := hl.apart
  have hwithin := hl.within
  rw [h.before] at hapart hwithin
  obtain ⟨h₁, h₂, hcross⟩ := List.pairwise_append.mp hapart
  have h₃ := (List.pairwise_append.mp h₂).2.1
  rw [h.after]
  constructor
  · refine List.pairwise_append.mpr ⟨h₁, List.pairwise_append.mpr ⟨h.sorted.apart, h₃, ?_⟩, ?_⟩
    · exact fun m hm r hr => h.high r hr m hm
    · intro r hr m hm
      rcases List.mem_append.mp hm with hm | hm
      · exact (h.low r hr).2 m hm
      · exact hcross r hr m (List.mem_append_right _ hm)
  · intro r hr
    rcases List.mem_append.mp hr with hr | hr
    · exact hwithin r (List.mem_append_left _ hr)
    · rcases List.mem_append.mp hr with hr | hr
      · exact h.sorted.within r hr
      · exact hwithin r (List.mem_append_right _ (List.mem_append_right _ hr))

theorem Splice.lookup_after (h : Splice s e v l l' l₁ l₂ old mid) (n : ℕ) :
    lookupBucket n l' = if s ≤ n ∧ n ≤ e then some v else lookupBucket n l := by
  rw [h.before, h.after, lookupBucket_append, lookupBucket_append, lookupBucket_append, lookupBucket_append, h.lookup]
  by_cases hn : s ≤ n ∧ n ≤ e
  · rw [if_pos hn, if_pos hn, lookupBucket_none fun r hr => by have := (h.low r hr).1; omega]
    rfl
  · rw [if_neg hn, if_neg hn]

end Splice

/-! ### Additions and deletions -/

section Bucket

variable {junk : Range V} {v : V} {s e : ℕ}

/-- The loop of the addition from behind the ranges that start above the new one: an error exactly with a conflict, and
otherwise a splice. -/
theorem addToBucket_from (hse : s ≤ e) (he : e ≤ 0xffff) (l₁ : List (Range V)) {l₂ : List (Range V)}
    (hl : Sorted (l₁ ++ l₂)) (hl₂ : ∀ r ∈ l₂, e < r.start) :
    (addToBucket junk v s e (l₁ ++ l₂) l₁.length = none ∧ ∃ r ∈ l₁ ++ l₂, Conflict s e r) ∨
    (∀ r ∈ l₁ ++ l₂, ¬Conflict s e r) ∧ ∃ l' left right old mid,
      addToBucket junk v s e (l₁ ++ l₂) l₁.length = some l' ∧ Splice s e v (l₁ ++ l₂) l' left right old mid := by
  induction l₁ using List.reverseRecOn generalizing l₂ with
  | nil =>
      refine Or.inr ⟨fun r hr hconflict => absurd (hl₂ r hr) (by have := hconflict.2.1; omega), _, [], l₂, [],
        [⟨v, s, e⟩], congrArg some (insert_first junk l₂ ⟨v, s, e⟩), rfl, rfl, ?_, fun r hr => absurd hr List.not_mem_nil,
        ?_, fun n => rfl⟩
      · exact ⟨List.pairwise_singleton _ _, fun r hr => by rw [List.mem_singleton.mp hr]; exact ⟨hse, he⟩⟩
      · intro r hr m hm
        rw [List.mem_singleton.mp hm]
        exact hl₂ r hr
  | append_singleton l₁ r ih =>
      rw [List.append_assoc, List.singleton_append] at hl ⊢
      rw [List.length_append, List.length_singleton]
      have hget : (l₁ ++ r :: l₂)[l₁.length]? = some r := by
        rw [List.getElem?_append_right (le_refl _), Nat.sub_self]
        rfl
      obtain ⟨-, htail, hcross⟩ := List.pairwise_append.mp hl.apart
      have hbefore : ∀ r' ∈ l₁, r'.stop < r.start := fun r' hr' => hcross r' hr' r List.mem_cons_self
      have hafter : ∀ r' ∈ l₂, r.stop < r'.start := fun _ hr' => List.rel_of_pairwise_cons htail hr'
      obtain ⟨hr, hr16⟩ := hl.within r (List.mem_append_right _ List.mem_cons_self)
      rw [addToBucket, hget]
      dsimp only
      by_cases hbelow : e < r.start
      · rw [if_pos hbelow]
        refine ih hl fun r' hr' => ?_
        rcases List.mem_cons.mp hr' with rfl | hr'
        · exact hbelow
        · exact hl₂ r' hr'
      rw [if_neg hbelow]
      -- no other range meets the new one when it lies behind `r` or inside of it
      have hothers : r.start ≤ s → ∀ r' ∈ l₁ ++ r :: l₂, Conflict s e r' → r' = r := by
        intro hstart r' hr' hconflict
        rcases List.mem_append.mp hr' with hr' | hr'
        · have := hbefore r' hr'
          have := hconflict.1
          omega
        · rcases List.mem_cons.mp hr' with rfl | hr'
          · rfl
          · have := hl₂ r' hr'
            have := hconflict.2.1
            omega
      have hfree : r.start ≤ s → ¬Conflict s e r → ∀ r' ∈ l₁ ++ r :: l₂, ¬Conflict s e r' :=
        fun hstart hno r' hr' hconflict => hno (hothers hstart r' hr' hconflict ▸ hconflict)
      have hlow : ∀ {mid : List (Range V)}, r.start ≤ s → (∀ m ∈ mid, r.start ≤ m.start) →
          ∀ r' ∈ l₁, r'.stop < s ∧ ∀ m ∈ mid, r'.stop < m.start := fun hstart hmid r' hr' =>
        ⟨(hbefore r' hr').trans_le hstart, fun m hm => (hbefore r' hr').trans_le (hmid m hm)⟩
      by_cases habove : s > r.stop
      · rw [if_pos habove]
        refine Or.inr ⟨hfree (by omega) fun hconflict => absurd hconflict.1 (by omega), _, l₁ ++ [r], l₂, [],
          [⟨v, s, e⟩], congrArg some (insert_after junk l₁ l₂ r ⟨v, s, e⟩), by simp, by simp,
          ⟨List.pairwise_singleton _ _, fun m hm => by rw [List.mem_singleton.mp hm]; exact ⟨hse, he⟩⟩, ?_, ?_, fun n => rfl⟩
        · intro r' hr'
          have hstop : r'.stop < s := by
            rcases List.mem_append.mp hr' with hr' | hr'
            · have := hbefore r' hr'
              omega
            · rw [List.mem_singleton.mp hr']
              exact habove
          exact ⟨hstop, fun m hm => by rw [List.mem_singleton.mp hm]; exact hstop⟩
        · intro r' hr' m hm
          rw [List.mem_singleton.mp hm]
          exact hl₂ r' hr'
      rw [if_neg habove]
      by_cases hsame : s = r.start ∧ e = r.stop
      · obtain ⟨rfl, rfl⟩ := hsame
        rw [if_pos ⟨rfl, rfl⟩, set_at]
        refine Or.inr ⟨hfree (le_refl _) fun hconflict => hconflict.2.2 ⟨le_refl _, le_refl _⟩, _, l₁, l₂, [r],
          [{ r with value := v }], rfl, rfl, rfl,
          ⟨List.pairwise_singleton _ _, fun m hm => by rw [List.mem_singleton.mp hm]; exact ⟨hr, hr16⟩⟩, ?_, ?_, ?_⟩
        · exact hlow (le_refl _) fun m hm => by rw [List.mem_singleton.mp hm]
        · intro r' hr' m hm
          rw [List.mem_singleton.mp hm]
          exact hafter r' hr'
        · intro n
          simp only [lookupBucket]
          split_ifs <;> rfl
      rw [if_neg hsame]
      by_cases hinside : s > r.start ∧ e < r.stop
      · rw [if_pos hinside, insert_split]
        refine Or.inr ⟨hfree (by omega) fun hconflict => hconflict.2.2 (by omega), _, l₁, l₂, [r],
          [{ r with stop := s - 1 }, ⟨v, s, e⟩, ⟨r.value, e + 1, r.stop⟩], rfl, rfl, rfl, ⟨?_, ?_⟩, ?_, ?_, ?_⟩
        · simp only [List.pairwise_cons, List.mem_cons, List.not_mem_nil, or_false]
          refine ⟨?_, ?_, fun _ h => h.elim, List.Pairwise.nil⟩
          · rintro m (rfl | rfl)
            · show s - 1 < s
              omega
            · show s - 1 < e + 1
              omega
          · rintro m rfl
            exact Nat.lt_succ_self e
        · intro m hm
          simp only [List.mem_cons, List.not_mem_nil, or_false] at hm
          rcases hm with rfl | rfl | rfl <;> dsimp only <;> omega
        · refine hlow (by omega) fun m hm => ?_
          simp only [List.mem_cons, List.not_mem_nil, or_false] at hm
          rcases hm with rfl | rfl | rfl <;> dsimp only <;> omega
        · intro r' hr' m hm
          have := hafter r' hr'
          simp only [List.mem_cons, List.not_mem_nil, or_false] at hm
          rcases hm with rfl | rfl | rfl <;> dsimp only <;> omega
        · intro n
          simp only [lookupBucket]
          split_ifs <;> first | rfl | omega
      rw [if_neg hinside]
      by_cases hstart : s = r.start ∧ e < r.stop
      · rw [if_pos hstart, insert_start]
        refine Or.inr ⟨hfree (by omega) fun hconflict => hconflict.2.2 (by omega), _, l₁, l₂, [r],
          [⟨v, s, e⟩, { r with start := e + 1 }], rfl, rfl, rfl, ⟨?_, ?_⟩, ?_, ?_, ?_⟩
        · refine List.pairwise_pair.mpr (Nat.lt_succ_self e)
        · intro m hm
          simp only [List.mem_cons, List.not_mem_nil, or_false] at hm
          rcases hm with rfl | rfl <;> dsimp only <;> omega
        · refine hlow (by omega) fun m hm => ?_
          simp only [List.mem_cons, List.not_mem_nil, or_false] at hm
          rcases hm with rfl | rfl <;> dsimp only <;> omega
        · intro r' hr' m hm
          have := hafter r' hr'
          simp only [List.mem_cons, List.not_mem_nil, or_false] at hm
          rcases hm with rfl | rfl <;> dsimp only <;> omega
        · intro n
          simp only [lookupBucket]
          split_ifs <;> first | rfl | omega
      rw [if_neg hstart]
      by_cases hend : s > r.start ∧ e = r.stop
      · rw [if_pos hend, insert_end]
        refine Or.inr ⟨hfree (by omega) fun hconflict => hconflict.2.2 (by omega), _, l₁, l₂, [r],
          [{ r with stop := s - 1 }, ⟨v, s, e⟩], rfl, rfl, rfl, ⟨?_, ?_⟩, ?_, ?_, ?_⟩
        · refine List.pairwise_pair.mpr ?_
          show s - 1 < s
          omega
        · intro m hm
          simp only [List.mem_cons, List.not_mem_nil, or_false] at hm
          rcases hm with rfl | rfl <;> dsimp only <;> omega
        · refine hlow (by omega) fun m hm => ?_
          simp only [List.mem_cons, List.not_mem_nil, or_false] at hm
          rcases hm with rfl | rfl <;> dsimp only <;> omega
        · intro r' hr' m hm
          have := hafter r' hr'
          simp only [List.mem_cons, List.not_mem_nil, or_false] at hm
          rcases hm with rfl | rfl <;> dsimp only <;> omega
        · intro n
          simp only [lookupBucket]
          split_ifs <;> first | rfl | omega
      rw [if_neg hend]
      exact Or.inl ⟨rfl, r, List.mem_append_right _ List.mem_cons_self, by unfold Conflict; omega⟩

/-- An addition to a sorted bucket. -/
theorem addToBucket_spec (hse : s ≤ e) (he : e ≤ 0xffff) {l : List (Range V)} (hl : Sorted l) :
    (addToBucket junk v s e l l.length = none ↔ ∃ r ∈ l, Conflict s e r) ∧
      ∀ l', addToBucket junk v s e l l.length = some l' →
        Sorted l' ∧ ∀ n, lookupBucket n l' = if s ≤ n ∧ n ≤ e then some v else lookupBucket n l := by
  have hspec := @addToBucket_from V junk v s e hse he l [] (by rwa [List.append_nil])
    fun r hr => absurd hr List.not_mem_nil
  rw [List.append_nil] at hspec
  rcases hspec with ⟨hnone, hconflict⟩ | ⟨hfree, l', left, right, old, mid, hsome, hsplice⟩
  · exact ⟨iff_of_true hnone hconflict, fun l' hl' => by rw [hnone] at hl'; cases hl'⟩
  · refine ⟨iff_of_false (by rw [hsome]; exact Option.some_ne_none _) fun hconflict => ?_, fun l'' hl'' => ?_⟩
    · obtain ⟨r, hr, hconflict⟩ := hconflict
      exact hfree r hr hconflict
    · obtain rfl : l' = l'' := Option.some.inj (hsome.symm.trans hl'')
      exact ⟨hsplice.sorted_after hl, hsplice.lookup_after⟩

/-- A deletion takes out the ranges that are equal to the given one. -/
theorem deleteFromBucket_spec (s e : ℕ) {l : List (Range V)} (hl : Sorted l) :
    (deleteFromBucket s e l).1 = l.filter fun r => ¬(r.start = s ∧ r.stop = e) := by
  unfold deleteFromBucket
  cases hfind : l.findIdx? fun r => s = r.start ∧ e = r.stop with
  | none =>
      refine (List.filter_eq_self.mpr fun r hr => ?_).symm
      have hne := List.findIdx?_eq_none_iff.mp hfind r hr
      simp only [decide_eq_false_iff_not, decide_eq_true_eq] at hne ⊢
      exact fun heq => hne ⟨heq.1.symm, heq.2.symm⟩
  | some i =>
      obtain ⟨hi, hequal, -⟩ := List.findIdx?_eq_some_iff_getElem.mp hfind
      obtain ⟨hstart, hstop⟩ := of_decide_eq_true hequal
      have hsplit : l = l.take i ++ l[i] :: l.drop (i + 1) := by
        rw [List.getElem_cons_drop, List.take_append_drop]
      have hlength : (l.take i).length = i := by
        rw [List.length_take]
        omega
      have hremoved := remove_at (l.take i) (l.drop (i + 1)) l[i]
      rw [← hsplit, hlength] at hremoved
      obtain ⟨hr, -⟩ := hl.within l[i] (List.getElem_mem hi)
      have hapart := hl.apart
      rw [hsplit] at hapart
      obtain ⟨-, htail, hcross⟩ := List.pairwise_append.mp hapart
      have hbefore : ∀ r ∈ l.take i, ¬(r.start = s ∧ r.stop = e) := fun r hr heq => by
        have := hcross r hr l[i] List.mem_cons_self
        omega
      have hafter : ∀ r ∈ l.drop (i + 1), ¬(r.start = s ∧ r.stop = e) := fun r hr heq => by
        have := List.rel_of_pairwise_cons htail hr
        omega
      dsimp only
      rw [hremoved]
      conv_rhs => rw [hsplit]
      rw [List.filter_append, List.filter_cons_of_neg (by simp [hstart, hstop]),
        List.filter_eq_self.mpr fun r hr => decide_eq_true (hbefore r hr),
        List.filter_eq_self.mpr fun r hr => decide_eq_true (hafter r hr)]

theorem Sorted.filter {l : List (Range V)} (hl : Sorted l) (p : Range V → Bool) : Sorted (l.filter p) :=
  ⟨hl.apart.filter p, fun r hr => hl.within r (List.mem_of_mem_filter hr)⟩

end Bucket

end NginxDtls.Geo
