import Mathlib.Order.Basic
import Mathlib.Data.List.GetD
import Mathlib.Tactic

/-! Points on a ring: each has a hash and an owner, and a key belongs to the owner of the first point from its own hash
on, around the ring. What a key belongs to depends only on that point. -/

namespace NginxDtls.HashRing

variable {P H S : Type} [LinearOrder H] (hash : P → H) (owner : P → S)

/-- The point is the first from `h` on, or there is none from `h` on and the point is the first of all. -/
def First (points : Set P) (h : H) (p : P) : Prop :=
  p ∈ points ∧ ((h ≤ hash p ∧ ∀ q ∈ points, h ≤ hash q → hash p ≤ hash q) ∨
    (∀ q ∈ points, hash q < h) ∧ ∀ q ∈ points, hash p ≤ hash q)

/-- A key with the hash `h` belongs to `s`. -/
def Owns (points : Set P) (h : H) (s : S) : Prop := ∃ p, First hash points h p ∧ owner p = s

/-- No two owners have points of one hash. -/
def Clear (points : Set P) : Prop := ∀ p ∈ points, ∀ q ∈ points, hash p = hash q → owner p = owner q

variable {hash owner} {points points' : Set P} {h : H}

theorem First.hash_eq {p q : P} (hp : First hash points h p) (hq : First hash points h q) : hash p = hash q := by
  obtain ⟨hpmem, ⟨hple, hpmin⟩ | ⟨hpnone, hpmin⟩⟩ := hp
  · obtain ⟨hqmem, ⟨hqle, hqmin⟩ | ⟨hqnone, -⟩⟩ := hq
    · exact le_antisymm (hpmin q hqmem hqle) (hqmin p hpmem hple)
    · exact absurd hple (not_le.mpr (hqnone p hpmem))
  · obtain ⟨hqmem, ⟨hqle, -⟩ | ⟨-, hqmin⟩⟩ := hq
    · exact absurd hqle (not_le.mpr (hpnone q hqmem))
    · exact le_antisymm (hpmin q hqmem) (hqmin p hpmem)

/-- A key belongs to one owner. -/
theorem Owns.unique (hclear : Clear hash owner points) {s t : S} (hs : Owns hash owner points h s)
    (ht : Owns hash owner points h t) : s = t := by
  obtain ⟨p, hp, rfl⟩ := hs
  obtain ⟨q, hq, rfl⟩ := ht
  exact hclear p hp.1 q hq.1 (hp.hash_eq hq)

/-- Points that are taken away move only the keys that belong to them. -/
theorem Owns.of_subset (hsub : points' ⊆ points) {s : S} (hkept : ∀ p ∈ points, owner p = s → p ∈ points')
    (hs : Owns hash owner points h s) : Owns hash owner points' h s := by
  obtain ⟨p, ⟨hmem, hfirst⟩, rfl⟩ := hs
  refine ⟨p, ⟨hkept p hmem rfl, ?_⟩, rfl⟩
  obtain ⟨hle, hmin⟩ | ⟨hnone, hmin⟩ := hfirst
  · exact Or.inl ⟨hle, fun q hq => hmin q (hsub hq)⟩
  · exact Or.inr ⟨fun q hq => hnone q (hsub hq), fun q hq => hmin q (hsub hq)⟩

omit [LinearOrder H] in
theorem Clear.of_subset (hsub : points' ⊆ points) (hclear : Clear hash owner points) : Clear hash owner points' :=
  fun p hp q hq => hclear p (hsub hp) q (hsub hq)

/-! ### A ring as a list -/

/-- A list of points of different hashes, in their order, with one for each hash that there is. -/
structure RingList (hash : P → H) (points : Set P) (ring : List P) : Prop where
  sorted : ring.Pairwise fun p q => hash p < hash q
  mem : ∀ p ∈ ring, p ∈ points
  covers : ∀ p ∈ points, ∃ q ∈ ring, hash q = hash p

/-- An index that all points before are below `h` and the point at it, if there is one, is not. -/
def FoundAt (hash : P → H) (ring : List P) (h : H) (i : ℕ) : Prop :=
  i ≤ ring.length ∧ ∀ j (hj : j < ring.length), hash (ring.get ⟨j, hj⟩) < h ↔ j < i

/-- The point that was found, or the first one when the end was found. -/
theorem RingList.first {ring : List P} (hring : RingList hash points ring) {i : ℕ} (hi : FoundAt hash ring h i)
    (hlt : i % ring.length < ring.length) : First hash points h (ring.get ⟨i % ring.length, hlt⟩) := by
  have hmono {j k : ℕ} (hj : j < ring.length) (hk : k < ring.length) (hjk : j ≤ k) :
      hash (ring.get ⟨j, hj⟩) ≤ hash (ring.get ⟨k, hk⟩) := by
    rcases Nat.lt_or_eq_of_le hjk with hlt | rfl
    · exact (List.pairwise_iff_get.mp hring.sorted ⟨j, hj⟩ ⟨k, hk⟩ hlt).le
    · exact le_rfl
  have hat (p : P) (hp : p ∈ points) : ∃ j, ∃ hj : j < ring.length, hash p = hash (ring.get ⟨j, hj⟩) := by
    obtain ⟨q, hq, hhash⟩ := hring.covers p hp
    obtain ⟨j, rfl⟩ := List.mem_iff_get.mp hq
    exact ⟨j, j.isLt, hhash.symm⟩
  refine ⟨hring.mem _ (List.get_mem ring _), ?_⟩
  obtain ⟨hle, hfound⟩ := hi
  rcases Nat.lt_or_eq_of_le hle with hin | rfl
  · have hmod := Nat.mod_eq_of_lt hin
    simp only [hmod]
    refine Or.inl ⟨not_lt.mp fun hbelow => absurd ((hfound i hin).mp hbelow) (lt_irrefl i), fun q hq hqle => ?_⟩
    obtain ⟨j, hj, hhash⟩ := hat q hq
    rw [hhash] at hqle ⊢
    exact hmono hin hj (not_lt.mp fun hji => absurd ((hfound j hj).mpr hji) (not_lt.mpr hqle))
  · refine Or.inr ⟨fun q hq => ?_, fun q hq => ?_⟩
    · obtain ⟨j, hj, hhash⟩ := hat q hq
      rw [hhash]
      exact (hfound j hj).mpr hj
    · obtain ⟨j, hj, hhash⟩ := hat q hq
      rw [hhash]
      simp only [Nat.mod_self]
      exact hmono _ hj (Nat.zero_le j)

end NginxDtls.HashRing
