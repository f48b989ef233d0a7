import NginxDtls.Core
import NginxDtls.ResolverBounds
import NginxDtls.ResolverQuery

/-! Compressed names. `ngx_resolver_copy` measures a name in one loop and copies it in another one, which has no checks.
Both follow the same labels and pointers, and the first one gives up after 128 of them. -/

namespace NginxDtls.Dns

open Reading

/-- The loop that copies, with each byte that it writes and its offset in the block; `dst` is an offset too. `none` is
the loop after `k` rounds. -/
def copyBytes : ℕ → ℕ → ℕ → List (UInt8 × ℕ) → Read (Option (List (UInt8 × ℕ) × ℕ))
  | 0, _, _, _ => pure none
  | k + 1, src, dst, writes => do
    let n ← rd src
    if n = 0 then pure (some (writes, dst))
    else if n &&& 0xc0 ≠ 0 then
      let lo ← rd (src + 1)
      copyBytes k ((n &&& 0x3f) * 256 + lo) dst writes
    else
      let label ← bytesFrom (src + 1) n
      copyBytes k (src + 1 + n) (dst + n + 1) (writes ++ (ngxStrlow label ++ [46]).zipIdx dst)

/-- What `ngx_resolver_copy` leaves behind: the block from `ngx_resolver_alloc`, the bytes written into it, `name->len`. -/
structure Copied where
  rc : NgxInt
  block : Option ℕ
  writes : List (UInt8 × ℕ)
  nameLen : Option ℕ
  deriving DecidableEq, Repr

/-- `ngx_resolver_copy` with `k` rounds for the second loop. `name` tells whether there is a name to copy to, `alloc`
whether there is memory for it. -/
def ngxResolverCopyRun (k : ℕ) (name alloc : Bool) (src last : ℕ) : Read (Option Copied) := do
  match ← copyScan last 128 src 0 with
  | none => pure (some ⟨.error, none, [], none⟩)
  | some len =>
    if !name then pure (some ⟨.ok, none, [], none⟩)
    else if len = 0 then pure (some ⟨.ok, none, [], some 0⟩)
    else if !alloc then pure (some ⟨.error, none, [], none⟩)
    else andThen (copyBytes k src 0 []) fun (writes, dst) => pure (some ⟨.ok, some len, writes, some (dst - 1)⟩)

/-! ### Labels and pointers -/

/-- A step through a name: a label of `len` bytes, or a pointer. -/
inductive Hop where
  | label (p len : ℕ)
  | pointer (p target : ℕ)

namespace Hop

variable (b : ℕ → UInt8)

def size : Hop → ℕ
  | .label _ len => len + 1
  | .pointer _ _ => 0

def labels : Hop → List (List UInt8)
  | .label p len => [(List.range' (p + 1) len).map b]
  | .pointer _ _ => []

/-- The bytes that the first loop reads. -/
def scanned : Hop → List ℕ
  | .label p _ => [p]
  | .pointer p _ => [p, p + 1]

/-- The bytes that the second loop reads. -/
def copied : Hop → List ℕ
  | .label p len => p :: List.range' (p + 1) len
  | .pointer p _ => [p, p + 1]

end Hop

/-- The way from a position to a terminating zero in a message of `n` bytes, label by label and pointer by pointer. -/
inductive Walk (n : ℕ) (b : ℕ → UInt8) : ℕ → List Hop → ℕ → Prop
  | root {p : ℕ} (hzero : (b p).toNat = 0) : Walk n b p [] p
  | label {p e : ℕ} {hops : List Hop} (hne : (b p).toNat ≠ 0) (hbits : (b p).toNat &&& 0xc0 = 0)
      (hinside : p + 1 + (b p).toNat < n) (hrest : Walk n b (p + 1 + (b p).toNat) hops e) :
      Walk n b p (.label p (b p).toNat :: hops) e
  | pointer {p e : ℕ} {hops : List Hop} (hbits : (b p).toNat &&& 0xc0 = 0xc0) (hlow : p + 1 < n)
      (hinside : ((b p).toNat &&& 0x3f) * 256 + (b (p + 1)).toNat < n)
      (hrest : Walk n b (((b p).toNat &&& 0x3f) * 256 + (b (p + 1)).toNat) hops e) :
      Walk n b p (.pointer p (((b p).toNat &&& 0x3f) * 256 + (b (p + 1)).toNat) :: hops) e

def nameSize (hops : List Hop) : ℕ := (hops.map Hop.size).sum

section Walks

variable {n : ℕ} {b : ℕ → UInt8}

theorem ne_zero_of_pointer {x : ℕ} (h : x &&& 0xc0 = 0xc0) : x ≠ 0 := by
  rintro rfl
  simp at h

/-- The first loop measures what it walks over. -/
theorem copyScan_walk {k p len e : ℕ} {hops : List Hop} (hwalk : Walk n b p hops e) (hk : hops.length < k) :
    (copyScan n k p len).val b = some (len + nameSize hops) ∧
      (copyScan n k p len).reads b = hops.flatMap Hop.scanned ++ [e] := by
  induction hwalk generalizing k len with
  | root hzero =>
    obtain ⟨k, rfl⟩ := Nat.exists_eq_add_one.mpr (Nat.zero_lt_of_lt hk)
    rw [copyScan]
    simp only [val_rd_bind, reads_rd_bind, if_pos hzero, val_pure, reads_pure]
    exact ⟨rfl, rfl⟩
  | @label p e hops hne hbits hinside _ ih =>
    obtain ⟨k, rfl⟩ := Nat.exists_eq_add_one.mpr (Nat.zero_lt_of_lt hk)
    obtain ⟨hval, hreads⟩ := @ih k (len + 1 + (b p).toNat) (Nat.lt_of_succ_lt_succ hk)
    rw [copyScan]
    simp only [val_rd_bind, reads_rd_bind, if_neg hne, if_neg (not_not.mpr hbits), if_neg (Nat.not_le_of_lt hinside)]
    rw [hval, hreads]
    refine ⟨?_, rfl⟩
    rw [nameSize, nameSize, List.map_cons, List.sum_cons, Hop.size]
    congr 1
    omega
  | @pointer p e hops hbits hlow hinside _ ih =>
    obtain ⟨k, rfl⟩ := Nat.exists_eq_add_one.mpr (Nat.zero_lt_of_lt hk)
    obtain ⟨hval, hreads⟩ := @ih k len (Nat.lt_of_succ_lt_succ hk)
    have hset : (b p).toNat &&& 0xc0 ≠ 0 := by
      rw [hbits]
      decide
    rw [copyScan]
    simp only [val_rd_bind, reads_rd_bind, if_neg (ne_zero_of_pointer hbits), if_pos hset, if_neg (not_not.mpr hbits),
      if_neg (Nat.not_le_of_lt hlow), if_neg (Nat.not_le_of_lt hinside)]
    rw [hval, hreads]
    refine ⟨?_, rfl⟩
    rw [nameSize, nameSize, List.map_cons, List.sum_cons, Hop.size, Nat.zero_add]

/-- Where the first loop finds the end, there is a way to it. -/
theorem walk_of_copyScan {k p len len' : ℕ} (h : (copyScan n k p len).val b = some len') :
    ∃ hops e, Walk n b p hops e ∧ hops.length < k := by
  induction k generalizing p len with
  | zero => cases h
  | succ k ih =>
    rw [copyScan] at h
    simp only [val_rd_bind, val_ite, val_pure] at h
    split_ifs at h with hzero hset hbits hlow hinside hinside
    · exact ⟨[], p, .root hzero, Nat.succ_pos k⟩
    · obtain ⟨hops, e, hwalk, hfew⟩ := ih h
      exact ⟨_, e, .pointer (not_not.mp hbits) (Nat.lt_of_not_le hlow) (Nat.lt_of_not_le hinside) hwalk,
        Nat.succ_lt_succ hfew⟩
    · obtain ⟨hops, e, hwalk, hfew⟩ := ih h
      exact ⟨_, e, .label hzero (not_not.mp hset) (Nat.lt_of_not_le hinside) hwalk, Nat.succ_lt_succ hfew⟩

/-- The text of the labels on the way, each with a dot behind it. -/
def dotted (b : ℕ → UInt8) (hops : List Hop) : List UInt8 :=
  (hops.flatMap (Hop.labels b)).flatMap fun label => ngxStrlow label ++ [46]

theorem length_dotted (b : ℕ → UInt8) (hops : List Hop) : (dotted b hops).length = nameSize hops := by
  induction hops with
  | nil => rfl
  | cons hop hops ih =>
    rw [dotted, List.flatMap_cons, List.flatMap_append, List.length_append, nameSize, List.map_cons, List.sum_cons]
    rw [dotted, nameSize] at ih
    rw [ih]
    cases hop with
    | label p len => simp [Hop.labels, Hop.size, ngxStrlow]
    | pointer p target => rfl

/-- The second loop copies what it walks over. -/
theorem copyBytes_walk {k p dst e : ℕ} {hops : List Hop} {writes : List (UInt8 × ℕ)} (hwalk : Walk n b p hops e)
    (hk : hops.length < k) :
    (copyBytes k p dst writes).val b = some (writes ++ (dotted b hops).zipIdx dst, dst + nameSize hops) ∧
      (copyBytes k p dst writes).reads b = hops.flatMap Hop.copied ++ [e] := by
  induction hwalk generalizing k dst writes with
  | root hzero =>
    obtain ⟨k, rfl⟩ := Nat.exists_eq_add_one.mpr (Nat.zero_lt_of_lt hk)
    rw [copyBytes]
    simp only [val_rd_bind, reads_rd_bind, if_pos hzero, val_pure, reads_pure]
    exact ⟨by rw [dotted, List.flatMap_nil, List.flatMap_nil, List.zipIdx_nil, List.append_nil]; rfl, rfl⟩
  | @label p e hops hne hbits hinside _ ih =>
    obtain ⟨k, rfl⟩ := Nat.exists_eq_add_one.mpr (Nat.zero_lt_of_lt hk)
    have hrest := fun writes => @ih k (dst + (b p).toNat + 1) writes (Nat.lt_of_succ_lt_succ hk)
    rw [copyBytes]
    simp only [val_rd_bind, reads_rd_bind, if_neg hne, if_neg (not_not.mpr hbits), val_bytesFrom_bind,
      reads_bytesFrom_bind]
    rw [(hrest _).1, (hrest _).2]
    refine ⟨?_, by rw [List.flatMap_cons, List.append_assoc]; rfl⟩
    have hlabel : dotted b (.label p (b p).toNat :: hops) =
        (ngxStrlow ((List.range' (p + 1) (b p).toNat).map b) ++ [46]) ++ dotted b hops := rfl
    have hlength : (ngxStrlow ((List.range' (p + 1) (b p).toNat).map b) ++ [46]).length = (b p).toNat + 1 := by
      simp [ngxStrlow]
    generalize ngxStrlow ((List.range' (p + 1) (b p).toNat).map b) ++ [46] = text at hlabel hlength ⊢
    rw [hlabel, List.zipIdx_append, hlength, List.append_assoc, nameSize, nameSize, List.map_cons, List.sum_cons, Hop.size,
      ← Nat.add_assoc, ← Nat.add_assoc, ← Nat.add_assoc]
  | @pointer p e hops hbits hlow hinside _ ih =>
    obtain ⟨k, rfl⟩ := Nat.exists_eq_add_one.mpr (Nat.zero_lt_of_lt hk)
    obtain ⟨hval, hreads⟩ := @ih k dst writes (Nat.lt_of_succ_lt_succ hk)
    have hset : (b p).toNat &&& 0xc0 ≠ 0 := by
      rw [hbits]
      decide
    rw [copyBytes]
    simp only [val_rd_bind, reads_rd_bind, if_neg (ne_zero_of_pointer hbits), if_pos hset]
    rw [hval, hreads]
    refine ⟨?_, rfl⟩
    rw [nameSize, nameSize, List.map_cons, List.sum_cons, Hop.size, Nat.zero_add]
    rfl

/-- Both loops stay inside the message. -/
theorem Walk.inside {p e : ℕ} {hops : List Hop} (hwalk : Walk n b p hops e) (hp : p < n) :
    ∀ i ∈ hops.flatMap Hop.copied ++ [e], i < n := by
  induction hwalk with
  | root hzero => exact fun i hi => List.mem_singleton.mp hi ▸ hp
  | @label p e hops hne hbits hinside _ ih =>
    intro i hi
    rw [List.flatMap_cons, List.append_assoc] at hi
    rcases List.mem_append.mp hi with hi | hi
    · rcases List.mem_cons.mp hi with rfl | hi
      · exact hp
      · exact Nat.lt_trans (List.mem_range'_1.mp hi).2 hinside
    · exact ih hinside i hi
  | @pointer p e hops hbits hlow hinside _ ih =>
    intro i hi
    rw [List.flatMap_cons, List.append_assoc] at hi
    rcases List.mem_append.mp hi with hi | hi
    · rcases List.mem_cons.mp hi with rfl | hi
      · exact hp
      · rw [List.mem_singleton.mp hi]
        exact hlow
    · exact ih hinside i hi

/-- The text of the labels without the last dot. -/
theorem dotted_take {hops : List Hop} (hsize : 0 < nameSize hops) :
    (dotted b hops).take (nameSize hops - 1) = ngxStrlow ([46].intercalate (hops.flatMap (Hop.labels b))) := by
  have hne : hops.flatMap (Hop.labels b) ≠ [] := fun hnil => by
    have hlength := length_dotted b hops
    rw [dotted, hnil] at hlength
    exact absurd hlength (Nat.ne_of_lt hsize)
  rw [← dropLast_labels hne, List.dropLast_eq_take, ← length_dotted b]
  rfl

end Walks

/-! ### Copies -/

section Copies

variable {n : ℕ} {b : ℕ → UInt8} {src : ℕ}

theorem copyLabels_eq {k p dst : ℕ} {writes : List (UInt8 × ℕ)} :
    (copyLabels k p (writes.map Prod.fst)).val b =
      ((copyBytes k p dst writes).val b).map fun res => (res.1.map Prod.fst).dropLast := by
  induction k generalizing p dst writes with
  | zero => rfl
  | succ k ih =>
    have hlabel : writes.map Prod.fst ++ ngxStrlow ((List.range' (p + 1) (b p).toNat).map b) ++ [46] =
        (writes ++ (ngxStrlow ((List.range' (p + 1) (b p).toNat).map b) ++ [46]).zipIdx dst).map Prod.fst := by
      rw [List.map_append, List.zipIdx_map_fst, List.append_assoc]
    rw [copyLabels, copyBytes]
    simp only [val_rd_bind, val_bytesFrom_bind, val_ite, val_pure]
    split_ifs
    · rfl
    · exact ih
    · rw [hlabel]
      exact ih

/-- The name that is copied is what stands in the block, without the last dot. -/
theorem ngxResolverCopy_run {alloc : Bool} :
    (ngxResolverCopy alloc src n).val b = ((ngxResolverCopyRun 128 true alloc src n).val b).bind fun res =>
      if res.rc = .ok then some (res.writes.map Prod.fst).dropLast else none := by
  rw [ngxResolverCopy, ngxResolverCopyRun, val_bind, val_bind]
  cases (copyScan n 128 src 0).val b with
  | none => rfl
  | some len =>
    simp only [val_ite, val_pure, val_andThen, Option.isNone_some, Option.some.injEq, Bool.not_true, Bool.false_eq_true,
      if_false]
    rw [show copyLabels 128 src [] = copyLabels 128 src (([] : List (UInt8 × ℕ)).map Prod.fst) from rfl,
      @copyLabels_eq b 128 src 0 []]
    split_ifs
    · rfl
    · rfl
    · cases (copyBytes 128 src 0 []).val b <;> rfl

/-- Without a way of fewer than 128 steps to the end of the name nothing is allocated. -/
theorem ngxResolverCopyRun_invalid {k : ℕ} {name alloc : Bool}
    (hno : ¬∃ hops e, Walk n b src hops e ∧ hops.length < 128) :
    (ngxResolverCopyRun k name alloc src n).val b = some ⟨.error, none, [], none⟩ := by
  have hscan : (copyScan n 128 src 0).val b = none := by
    cases hlen : (copyScan n 128 src 0).val b with
    | none => rfl
    | some len => exact absurd (walk_of_copyScan hlen) hno
  rw [ngxResolverCopyRun, val_bind, hscan]
  rfl

/-- What a call leaves behind after a walk. -/
def copiedWalk (name alloc : Bool) (b : ℕ → UInt8) (hops : List Hop) : Copied :=
  if !name then ⟨.ok, none, [], none⟩
  else if nameSize hops = 0 then ⟨.ok, none, [], some 0⟩
  else if !alloc then ⟨.error, none, [], none⟩
  else ⟨.ok, some (nameSize hops), (dotted b hops).zipIdx, some (nameSize hops - 1)⟩

theorem ngxResolverCopyRun_walk {k e : ℕ} {name alloc : Bool} {hops : List Hop} (hwalk : Walk n b src hops e)
    (hfew : hops.length < 128) (hk : 128 ≤ k) :
    (ngxResolverCopyRun k name alloc src n).val b = some (copiedWalk name alloc b hops) := by
  have hscan := (@copyScan_walk _ _ 128 _ 0 _ _ hwalk hfew).1
  have hcopy := (@copyBytes_walk _ _ k _ 0 _ _ [] hwalk (Nat.lt_of_lt_of_le hfew hk)).1
  rw [Nat.zero_add] at hscan hcopy
  rw [ngxResolverCopyRun, val_bind, hscan, copiedWalk]
  simp only [val_ite, val_pure, val_andThen, hcopy, List.nil_append, Option.bind_some]
  split_ifs <;> rfl

theorem ngxResolverCopyRun_inside {k : ℕ} {name alloc : Bool} (hsrc : src < n) (hk : 128 ≤ k) :
    (ngxResolverCopyRun k name alloc src n).Inside n b := by
  rw [ngxResolverCopyRun, inside_bind]
  refine ⟨copyScan_inside hsrc, ?_⟩
  cases hlen : (copyScan n 128 src 0).val b with
  | none => exact inside_pure _
  | some len =>
    obtain ⟨hops, e, hwalk, hfew⟩ := walk_of_copyScan hlen
    simp only [inside_ite, inside_pure, inside_andThen, implies_true, and_true, true_and]
    intro _ _ _ i hi
    exact hwalk.inside hsrc i ((@copyBytes_walk _ _ k _ 0 _ _ [] hwalk (Nat.lt_of_lt_of_le hfew hk)).2 ▸ hi)

/-- A name is copied as it was measured: the loops end, they follow the same labels and pointers inside the message, and
the second one fills the block that the first one has asked for. -/
theorem ngxResolverCopy_consistent (name alloc : Bool) (hsrc : src < n) :
    ∃ res : Copied,
      (∀ k, 128 ≤ k → (ngxResolverCopyRun k name alloc src n).val b = some res ∧
        (ngxResolverCopyRun k name alloc src n).Inside n b) ∧
      ((¬∃ hops e, Walk n b src hops e ∧ hops.length < 128) → res = ⟨.error, none, [], none⟩) ∧
      ∀ hops e, Walk n b src hops e → hops.length < 128 →
        (copyScan n 128 src 0).val b = some (nameSize hops) ∧
        (copyScan n 128 src 0).reads b = hops.flatMap Hop.scanned ++ [e] ∧
        (name = false → res = ⟨.ok, none, [], none⟩) ∧
        (name = true → nameSize hops = 0 → res = ⟨.ok, none, [], some 0⟩) ∧
        (name = true → 0 < nameSize hops → alloc = false → res = ⟨.error, none, [], none⟩) ∧
        (name = true → 0 < nameSize hops → alloc = true →
          (copyBytes 128 src 0 []).reads b = hops.flatMap Hop.copied ++ [e] ∧
          res.rc = .ok ∧ res.block = some (nameSize hops) ∧
          res.writes.map Prod.snd = List.range (nameSize hops) ∧ res.nameLen = some (nameSize hops - 1) ∧
          (res.writes.map Prod.fst).take (nameSize hops - 1) =
            ngxStrlow ([46].intercalate (hops.flatMap (Hop.labels b)))) := by
  by_cases hvalid : ∃ hops e, Walk n b src hops e ∧ hops.length < 128
  · obtain ⟨hops, e, hwalk, hfew⟩ := hvalid
    refine ⟨copiedWalk name alloc b hops,
      fun k hk => ⟨ngxResolverCopyRun_walk hwalk hfew hk, ngxResolverCopyRun_inside hsrc hk⟩,
      fun hno => absurd ⟨hops, e, hwalk, hfew⟩ hno, fun hops' e' hwalk' hfew' => ?_⟩
    -- another way gives the same copy
    have hsame : copiedWalk name alloc b hops = copiedWalk name alloc b hops' :=
      Option.some.inj ((ngxResolverCopyRun_walk hwalk hfew (Nat.le_refl 128)).symm.trans
        (ngxResolverCopyRun_walk hwalk' hfew' (Nat.le_refl 128)))
    obtain ⟨hscan, hreads⟩ := @copyScan_walk _ _ 128 _ 0 _ _ hwalk' hfew'
    rw [Nat.zero_add] at hscan
    rw [hsame, copiedWalk]
    refine ⟨hscan, hreads, ?_, ?_, ?_, ?_⟩
    · rintro rfl
      rfl
    · rintro rfl hzero
      rw [if_neg (by decide), if_pos hzero]
    · rintro rfl hpos rfl
      rw [if_neg (by decide), if_neg (Nat.pos_iff_ne_zero.mp hpos), if_pos (by decide)]
    · rintro rfl hpos rfl
      rw [if_neg (by decide), if_neg (Nat.pos_iff_ne_zero.mp hpos), if_neg (by decide)]
      refine ⟨(copyBytes_walk hwalk' hfew').2, rfl, rfl, ?_, rfl, ?_⟩
      · rw [List.zipIdx_map_snd, length_dotted, List.range_eq_range']
      · rw [List.zipIdx_map_fst, dotted_take hpos]
  · exact ⟨_, fun k hk => ⟨ngxResolverCopyRun_invalid hvalid, ngxResolverCopyRun_inside hsrc hk⟩, fun _ => rfl,
      fun hops e hwalk hfew => absurd ⟨hops, e, hwalk, hfew⟩ hvalid⟩

/-- The label `A` with a pointer to `Bc` behind it. -/
theorem ngxResolverCopy_consistent_pointer : ∃ res : Copied,
    (ngxResolverCopyRun 128 true true 4 8).val (fun i => [2, 66, 99, 0, 1, 65, 0xc0, 0].getD i 0) = some res ∧
      res.block = some 5 ∧ res.writes.map Prod.snd = [0, 1, 2, 3, 4] ∧ res.nameLen = some 4 ∧
      (res.writes.map Prod.fst).take 4 = [97, 46, 98, 99] := by
  obtain ⟨res, hrun, -, hcopy⟩ :=
    @ngxResolverCopy_consistent 8 (fun i => [2, 66, 99, 0, 1, 65, 0xc0, 0].getD i 0) 4 true true (by decide)
  have hwalk : Walk 8 (fun i => [2, 66, 99, 0, 1, 65, 0xc0, 0].getD i 0) 4 [.label 4 1, .pointer 6 0, .label 0 2] 3 :=
    .label (by decide) (by decide) (by decide) (.pointer (by decide) (by decide) (by decide)
      (.label (by decide) (by decide) (by decide) (.root (by decide))))
  obtain ⟨-, -, -, -, -, hname⟩ := hcopy _ _ hwalk (by decide)
  obtain ⟨-, -, hblock, hwrites, hlen, htext⟩ := hname rfl (by decide) rfl
  exact ⟨res, (hrun 128 (Nat.le_refl 128)).1, hblock, hwrites, hlen, htext⟩

/-- The name of the root has no text: it gets no block, and its length is not one less than what was measured. -/
theorem ngxResolverCopy_root : ¬∀ (b : ℕ → UInt8) (n src len : ℕ), src < n → (copyScan n 128 src 0).val b = some len →
    ∃ res : Copied, (ngxResolverCopyRun 128 true true src n).val b = some res ∧ res.block = some len ∧
      ∃ m, res.nameLen = some m ∧ m + 1 = len := by
  intro h
  obtain ⟨res, -, -, m, -, hlen⟩ := h (fun _ => 0) 1 0 0 (by decide) rfl
  exact Nat.succ_ne_zero m hlen

end Copies

end NginxDtls.Dns
