import NginxDtls.InetParse

/-! An address that has been printed is read back. The fields of the text are groups with their colons, the empty field of
`::`, and a last field that is a group, nothing, or dotted decimal; the parser is followed from field to field. -/

namespace NginxDtls

open Text

/-! ### The bytes that have been written -/

/-- The bytes of a group. -/
def groupBytes (g : ℕ) : List UInt8 := [UInt8.ofNat (g / 256), UInt8.ofNat (g % 256)]

/-- The buffer begins with the bytes. -/
def Begins (buf : ℕ → UInt8) (bytes : List UInt8) : Prop := ∀ i < bytes.length, bytes[i]? = some (buf i)

theorem Begins.update {buf : ℕ → UInt8} {bytes : List UInt8} (h : Begins buf bytes) (b : UInt8) :
    Begins (Function.update buf bytes.length b) (bytes ++ [b]) := by
  intro i hi
  rw [List.length_append, List.length_singleton] at hi
  rcases Nat.lt_succ_iff_lt_or_eq.mp hi with hlt | rfl
  · rw [List.getElem?_append_left hlt, h i hlt, Function.update_of_ne (by omega)]
  · rw [List.getElem?_append_right (le_refl _), Nat.sub_self, Function.update_self]
    rfl

/-- The parser has written the bytes. -/
structure Wrote (st : Inet6State) (bytes : List UInt8) : Prop where
  addr : st.addr = bytes.length
  buf : Begins st.buf bytes

theorem Wrote.put {st : Inet6State} {bytes : List UInt8} (h : Wrote st bytes) (high low : UInt8) :
    Wrote (st.put high low) (bytes ++ [high, low]) := by
  have hlength : (bytes ++ [high, low]).length = bytes.length + 2 := List.length_append
  refine ⟨?_, ?_⟩
  · rw [hlength, ← h.addr]
    rfl
  · have hhigh := h.buf.update high
    have hlow := hhigh.update low
    rw [List.length_append, List.length_singleton, List.append_assoc] at hlow
    unfold Inet6State.put
    rw [h.addr]
    exact hlow

theorem Wrote.putWord {st : Inet6State} {bytes : List UInt8} (h : Wrote st bytes) :
    Wrote st.putWord (bytes ++ groupBytes st.word) := h.put _ _

/-- Shifting bytes in place, from the last one down. -/
theorem shiftUp_apply (z n k : ℕ) (buf : ℕ → UInt8) (i : ℕ) :
    shiftUp z n k buf i = if z + n ≤ i ∧ i < z + n + k then buf (i - n) else buf i := by
  induction k generalizing buf with
  | zero => rw [shiftUp, if_neg (by omega)]
  | succ k ih =>
      rw [shiftUp, ih]
      by_cases hin : z + n ≤ i ∧ i < z + n + k
      · rw [if_pos hin, if_pos (by omega), Function.update_of_ne (by omega)]
      · rw [if_neg hin]
        by_cases hlast : i = z + k + n
        · rw [if_pos (by omega), hlast, Function.update_self, Nat.add_sub_cancel]
        · rw [if_neg (by omega), Function.update_of_ne hlast]

/-- Room for the zeros between the bytes before `::` and the bytes behind it. -/
theorem expand_zero {buf : ℕ → UInt8} {left right : List UInt8} (h : Begins buf (left ++ right)) (n : ℕ) :
    Begins (memzero left.length n (shiftUp left.length n right.length buf))
      (left ++ (List.replicate n 0 ++ right)) := by
  intro i hi
  rw [List.length_append, List.length_append, List.length_replicate] at hi
  have hbytes := h
  unfold Begins at hbytes
  rw [List.length_append] at hbytes
  rw [memzero, shiftUp_apply]
  by_cases hleft : i < left.length
  · rw [if_neg (by omega), if_neg (by omega), ← hbytes i (by omega), List.getElem?_append_left hleft,
      List.getElem?_append_left hleft]
  · rw [List.getElem?_append_right (Nat.le_of_not_lt hleft)]
    by_cases hzero : i < left.length + n
    · rw [if_pos (by omega), List.getElem?_append_left (by rw [List.length_replicate]; omega),
        List.getElem?_replicate, if_pos (by omega)]
    · rw [if_neg (by omega), if_pos (by omega), ← hbytes (i - n) (by omega),
        List.getElem?_append_right (by rw [List.length_replicate]; omega), List.length_replicate,
        List.getElem?_append_right (by omega)]
      congr 1
      omega

/-! ### Fields -/

section Fields

variable {st : Inet6State}

theorem inet6Loop_digits {l : List UInt8} (hl : ∀ c ∈ l, ∃ d < 16, c = digitChar d) (hlength : st.nibbles + l.length ≤ 4)
    (rest : List UInt8) : inet6Loop (l ++ rest) st = inet6Loop rest
      { st with nibbles := st.nibbles + l.length, word := st.word * 16 ^ l.length + textNum 16 l } := by
  induction l generalizing st with
  | nil =>
      rw [List.length_nil, pow_zero, Nat.mul_one]
      rfl
  | cons c l ih =>
      obtain ⟨d, hd, rfl⟩ := hl c List.mem_cons_self
      obtain ⟨hcolon, hdot⟩ := digitChar_ne hd
      rw [List.length_cons] at hlength
      have hsplit : st.word * (16 ^ l.length * 16) + (d * 16 ^ l.length + textNum 16 l) =
          (st.word * 16 + d) * 16 ^ l.length + textNum 16 l := by ring
      rw [List.cons_append, inet6Loop, if_neg hcolon, if_neg (fun hand => hdot hand.1), if_neg (by omega), textNum_cons,
        charDigit_digitChar hd, List.length_cons, pow_succ, hsplit]
      have hnext := fun word => @ih { st with nibbles := st.nibbles + 1, word }
        (fun c hc => hl c (List.mem_cons_of_mem _ hc)) (by dsimp only; omega)
      by_cases hten : d < 10
      · obtain ⟨hrange, hdigit⟩ := digitChar_decimal hten
        rw [if_pos hrange, hdigit, hnext]
        dsimp only
        rw [Nat.add_assoc, Nat.add_comm 1 l.length]
      · obtain ⟨hnot, hrange, hdigit⟩ := digitChar_hex hd hten
        rw [if_neg hnot, if_pos hrange, Nat.add_assoc, hdigit, hnext]
        dsimp only
        rw [Nat.add_assoc, Nat.add_comm 1 l.length]

theorem sprintfXd_length {g : ℕ} (hg : g < 65536) : 0 < (sprintfXd g).length ∧ (sprintfXd g).length ≤ 4 := by
  refine ⟨List.length_pos_iff.mpr (numText_ne_nil 16 g), ?_⟩
  unfold sprintfXd numText
  split
  · decide
  · rw [List.length_reverse, List.length_map]
    exact (Nat.digits_length_le_iff (by decide) g).mpr hg

/-- The digits of a group. -/
theorem inet6Loop_group (hnibbles : st.nibbles = 0) (hword : st.word = 0) {g : ℕ} (hg : g < 65536) (rest : List UInt8) :
    inet6Loop (sprintfXd g ++ rest) st = inet6Loop rest { st with nibbles := (sprintfXd g).length, word := g } := by
  have hlength := sprintfXd_length hg
  have hvalue := textNum_numText (b := 16) (by decide) (by decide) g
  have hdigits := @inet6Loop_digits st (sprintfXd g) (fun c hc => mem_numText (by decide) hc) (by omega) rest
  rw [hdigits, hnibbles, hword, Nat.zero_add, Nat.zero_mul, Nat.zero_add, sprintfXd, hvalue]

/-- A colon behind a group. -/
theorem inet6Loop_colon (hnibbles : st.nibbles ≠ 0) (hn : 2 ≤ st.n) (rest : List UInt8) :
    inet6Loop (colon :: rest) st =
      inet6Loop rest { st.putWord with digit := some rest, n := st.n - 1, nibbles := 0, word := 0 } := by
  rw [inet6Loop, if_pos rfl, if_pos hnibbles, if_pos (by omega)]

/-- The colon of an empty field. -/
theorem inet6Loop_empty (hnibbles : st.nibbles = 0) (hzero : st.zero = none) (rest : List UInt8) :
    inet6Loop (colon :: rest) st = inet6Loop rest { st with digit := some rest, zero := some st.addr } := by
  rw [inet6Loop, if_pos rfl, if_neg (not_not_intro hnibbles), if_pos hzero]

/-- The groups in front of a field. -/
def groupsText (gs : List ℕ) : List UInt8 := gs.flatMap fun g => sprintfXd g ++ [colon]

theorem groupsText_cons (g : ℕ) (gs : List ℕ) (rest : List UInt8) :
    groupsText (g :: gs) ++ rest = sprintfXd g ++ (colon :: (groupsText gs ++ rest)) := by
  rw [groupsText, List.flatMap_cons, List.append_assoc, List.append_assoc]
  rfl

/-- The parser stands at the beginning of a field, `count` groups behind the first one. -/
structure AtField (st : Inet6State) (bytes : List UInt8) (zero : Option ℕ) (count : ℕ) : Prop where
  wrote : Wrote st bytes
  zero : st.zero = zero
  nibbles : st.nibbles = 0
  word : st.word = 0
  n : st.n = 8 - count

theorem inet6Loop_groups {gs : List ℕ} (hgs : ∀ g ∈ gs, g < 65536) {bytes : List UInt8} {zero : Option ℕ} {count : ℕ}
    (h : AtField st bytes zero count) (hcount : count + gs.length ≤ 7) (rest : List UInt8) :
    ∃ st', inet6Loop (groupsText gs ++ rest) st = inet6Loop rest st' ∧
      AtField st' (bytes ++ gs.flatMap groupBytes) zero (count + gs.length) ∧
      st'.digit = if gs = [] then st.digit else some rest := by
  induction gs generalizing st bytes count with
  | nil => exact ⟨st, rfl, by rwa [List.flatMap_nil, List.append_nil], rfl⟩
  | cons g gs ih =>
      rw [List.length_cons] at hcount
      have hn := h.n
      have hg := sprintfXd_length (hgs g List.mem_cons_self)
      have hgroup := inet6Loop_group h.nibbles h.word (hgs g List.mem_cons_self) (colon :: (groupsText gs ++ rest))
      have hcolon := @inet6Loop_colon { st with nibbles := (sprintfXd g).length, word := g } (by dsimp only; omega)
        (by dsimp only; omega) (groupsText gs ++ rest)
      have hnext : AtField { ({ st with nibbles := (sprintfXd g).length, word := g } : Inet6State).putWord with
          digit := some (groupsText gs ++ rest), n := st.n - 1, nibbles := 0, word := 0 }
          (bytes ++ groupBytes g) zero (count + 1) :=
        { wrote := ⟨(h.wrote.put _ _).addr, (h.wrote.put _ _).buf⟩
          zero := h.zero
          nibbles := rfl
          word := rfl
          n := by dsimp only; omega }
      obtain ⟨st', hrun, hat, hdigit⟩ := ih (fun g' hg' => hgs g' (List.mem_cons_of_mem _ hg')) hnext (by omega)
      refine ⟨st', ?_, ?_, ?_⟩
      · rw [groupsText_cons, hgroup, hcolon]
        exact hrun
      · rw [List.flatMap_cons, ← List.append_assoc, List.length_cons, Nat.add_comm gs.length, ← Nat.add_assoc]
        exact hat
      · rw [hdigit, if_neg (List.cons_ne_nil g gs)]
        split
        · rename_i hnil
          rw [hnil]
          rfl
        · rfl

/-- The groups in front of the empty field and behind it. -/
theorem inet6Loop_left {left right : List ℕ} (hleft : ∀ g ∈ left, g < 65536) (hright : ∀ g ∈ right, g < 65536)
    (h : AtField st [] none 0) (hlength : left.length + right.length ≤ 7) (last : List UInt8) :
    ∃ st', inet6Loop (groupsText left ++ colon :: (groupsText right ++ last)) st = inet6Loop last st' ∧
      AtField st' (left.flatMap groupBytes ++ right.flatMap groupBytes) (some (left.flatMap groupBytes).length)
        (left.length + right.length) ∧ st'.digit = some last := by
  obtain ⟨st₁, hrun₁, hat₁, -⟩ := inet6Loop_groups hleft h (by omega) (colon :: (groupsText right ++ last))
  rw [List.nil_append, Nat.zero_add] at hat₁
  have hempty := inet6Loop_empty hat₁.nibbles hat₁.zero (groupsText right ++ last)
  have hat : AtField { st₁ with digit := some (groupsText right ++ last), zero := some st₁.addr }
      (left.flatMap groupBytes) (some (left.flatMap groupBytes).length) left.length :=
    { wrote := ⟨hat₁.wrote.addr, hat₁.wrote.buf⟩
      zero := congrArg some hat₁.wrote.addr
      nibbles := hat₁.nibbles
      word := hat₁.word
      n := hat₁.n }
  obtain ⟨st₂, hrun₂, hat₂, hdigit⟩ := inet6Loop_groups hright hat hlength last
  refine ⟨st₂, (hrun₁.trans hempty).trans hrun₂, hat₂, ?_⟩
  rw [hdigit]
  split
  · rename_i hnil
    rw [hnil]
    rfl
  · rfl

/-! ### The end of the text -/

/-- The zeros of `::` are put in place. -/
theorem inet6Finish_zero {left right : List UInt8} (h : Wrote st.putWord (left ++ right))
    (hzero : st.zero = some left.length) (hn : st.n - 1 ≠ 0) :
    ∃ buf, inet6Finish st = some buf ∧ Begins buf (left ++ (List.replicate ((st.n - 1) * 2) 0 ++ right)) := by
  have haddr := h.addr
  rw [List.length_append] at haddr
  refine ⟨_, ?_, expand_zero h.buf ((st.n - 1) * 2)⟩
  rw [inet6Finish, if_neg (fun hand => absurd (hand.2.symm.trans hzero) (by simp)), if_pos hn, hzero]
  dsimp only
  rw [haddr, Nat.add_sub_cancel_left]

theorem flatMap_replicate (n : ℕ) : (List.replicate n 0).flatMap groupBytes = List.replicate (n * 2) 0 := by
  induction n with
  | zero => rfl
  | succ n ih =>
      rw [List.replicate_succ, List.flatMap_cons, ih, Nat.succ_mul, Nat.add_comm, List.replicate_add]
      rfl

/-- The last field is a group, and no field is empty. -/
theorem inet6_group {left : List ℕ} {g : ℕ} (hleft : ∀ g ∈ left, g < 65536) (hg : g < 65536)
    (h : AtField st [] none 0) (hlength : left.length = 7) :
    ∃ buf, (inet6Loop (groupsText left ++ sprintfXd g) st).bind inet6Finish = some buf ∧
      Begins buf ((left ++ [g]).flatMap groupBytes) := by
  obtain ⟨st₁, hrun, hat, -⟩ := inet6Loop_groups hleft h (by omega) (sprintfXd g)
  rw [List.nil_append, Nat.zero_add] at hat
  have hdigits := sprintfXd_length hg
  have hgroup := inet6Loop_group hat.nibbles hat.word hg []
  rw [List.append_nil] at hgroup
  have hn := hat.n
  have hwrote := hat.wrote.put (UInt8.ofNat (g / 256)) (UInt8.ofNat (g % 256))
  refine ⟨(st₁.put (UInt8.ofNat (g / 256)) (UInt8.ofNat (g % 256))).buf, ?_, ?_⟩
  · rw [hrun, hgroup, inet6Loop, Option.bind_some, inet6Finish, if_neg (fun hand => absurd hand.1 (by dsimp only; omega)),
      if_neg (not_not_intro (by dsimp only; omega)), if_pos hat.zero]
    rfl
  · rw [List.flatMap_append, List.flatMap_singleton]
    exact hwrote.buf

/-- The last field is a group, and there is an empty one. -/
theorem inet6_zero_group {left right : List ℕ} {g : ℕ} (hleft : ∀ g ∈ left, g < 65536)
    (hright : ∀ g ∈ right, g < 65536) (hg : g < 65536) (h : AtField st [] none 0) {max : ℕ} (hmax : 0 < max)
    (hlength : left.length + (max + (right.length + 1)) = 8) :
    ∃ buf, (inet6Loop (groupsText left ++ colon :: (groupsText right ++ sprintfXd g)) st).bind inet6Finish = some buf ∧
      Begins buf ((left ++ (List.replicate max 0 ++ (right ++ [g]))).flatMap groupBytes) := by
  obtain ⟨st₁, hrun, hat, -⟩ := inet6Loop_left hleft hright h (by omega) (sprintfXd g)
  have hgroup := inet6Loop_group hat.nibbles hat.word hg []
  rw [List.append_nil] at hgroup
  have hn := hat.n
  have hwrote := hat.wrote.put (UInt8.ofNat (g / 256)) (UInt8.ofNat (g % 256))
  rw [List.append_assoc] at hwrote
  obtain ⟨buf, hfinish, hbuf⟩ := @inet6Finish_zero { st₁ with nibbles := (sprintfXd g).length, word := g }
    _ _ ⟨hwrote.addr, hwrote.buf⟩ hat.zero (by dsimp only; omega)
  refine ⟨buf, ?_, ?_⟩
  · rw [hrun, hgroup, inet6Loop, Option.bind_some, hfinish]
  · have hcount : st₁.n - 1 = max := by omega
    dsimp only at hbuf
    rw [hcount] at hbuf
    rw [List.flatMap_append, List.flatMap_append, List.flatMap_append, flatMap_replicate, List.flatMap_singleton]
    exact hbuf

/-- The last field is empty. -/
theorem inet6_zero_end {left : List ℕ} (hleft : ∀ g ∈ left, g < 65536) (h : AtField st [] none 0) {max : ℕ}
    (hmax : 1 < max) (hlength : left.length + max = 8) :
    ∃ buf, (inet6Loop (groupsText left ++ [colon]) st).bind inet6Finish = some buf ∧
      Begins buf ((left ++ List.replicate max 0).flatMap groupBytes) := by
  obtain ⟨st₁, hrun, hat, -⟩ := @inet6Loop_left st left [] hleft (fun g hg => absurd hg List.not_mem_nil) h
    (by rw [List.length_nil]; omega) []
  have hn := hat.n
  rw [List.length_nil] at hn
  have hwrote := hat.wrote.putWord
  rw [List.append_assoc] at hwrote
  obtain ⟨buf, hfinish, hbuf⟩ := inet6Finish_zero hwrote hat.zero (by omega)
  refine ⟨buf, ?_, ?_⟩
  · rw [← hfinish]
    exact congrArg (fun o => Option.bind o inet6Finish) hrun
  · have hword : groupBytes st₁.word = List.replicate 2 0 := by
      rw [hat.word]
      rfl
    have hcount : (st₁.n - 1) * 2 + 2 = max * 2 := by omega
    rw [List.flatMap_nil, List.nil_append, hword, ← List.replicate_add, hcount] at hbuf
    rw [List.flatMap_append, flatMap_replicate]
    exact hbuf

/-- Dotted decimal is read once more from its beginning. -/
theorem inet6Loop_quad {a b c d : UInt8} (hnibbles : st.nibbles = 0)
    (hdigit : st.digit = some (sprintfQuad a b c d)) (hn : 2 ≤ st.n) (hquad : quadAddr a b c d ≠ inaddrNone) :
    ∃ nibbles, nibbles ≠ 0 ∧ inet6Loop (sprintfQuad a b c d) st = some { st.put a b with
      nibbles := nibbles, word := (quadAddr a b c d).toNat, n := st.n - 1 } := by
  have hlength := numText_byte_length a
  have hpos : 0 < (sprintfUd a.toNat).length := List.length_pos_iff.mpr (numText_ne_nil 10 a.toNat)
  have hdigits := @inet6Loop_digits st (sprintfUd a.toNat) (fun c hc => by
    obtain ⟨e, he, rfl⟩ := mem_numText (b := 10) (by decide) hc
    exact ⟨e, by omega, rfl⟩) (by omega)
    (dot :: joinWith dot [sprintfUd b.toNat, sprintfUd c.toNat, sprintfUd d.toNat])
  obtain ⟨ha, hb, -, -⟩ := quadAddr_bytes a b c d
  refine ⟨st.nibbles + (sprintfUd a.toNat).length, by omega, ?_⟩
  refine hdigits.trans ?_
  rw [inet6Loop, if_neg (by decide), if_pos ⟨rfl, by dsimp only; omega⟩]
  dsimp only
  rw [hdigit]
  dsimp only
  rw [if_neg (by omega), ngxInetAddr_sprintfQuad, if_neg hquad, ha, hb, ← hdigit]
  rfl

/-- The last field is in dotted decimal. -/
theorem inet6_zero_quad {left right : List ℕ} {a b c d : UInt8} (hleft : ∀ g ∈ left, g < 65536)
    (hright : ∀ g ∈ right, g < 65536) (hquad : quadAddr a b c d ≠ inaddrNone) (h : AtField st [] none 0) {max : ℕ}
    (hmax : 0 < max) (hlength : left.length + (max + (right.length + 2)) = 8) :
    ∃ buf, (inet6Loop (groupsText left ++ colon :: (groupsText right ++ sprintfQuad a b c d)) st).bind inet6Finish =
        some buf ∧
      Begins buf ((left ++ (List.replicate max 0 ++ right)).flatMap groupBytes ++ [a, b, c, d]) := by
  obtain ⟨st₁, hrun, hat, hdigit⟩ := inet6Loop_left hleft hright h (by omega) (sprintfQuad a b c d)
  have hn := hat.n
  obtain ⟨nibbles, hnibbles, hloop⟩ := inet6Loop_quad hat.nibbles hdigit (by omega) hquad
  have hwrote := (hat.wrote.put a b).put c d
  rw [List.append_assoc, List.append_assoc] at hwrote
  have hlow := quadAddr_low a b c d
  have hput : Wrote ({ st₁.put a b with nibbles, word := (quadAddr a b c d).toNat, n := st₁.n - 1 } :
      Inet6State).putWord (left.flatMap groupBytes ++ (right.flatMap groupBytes ++ ([a, b] ++ [c, d]))) := by
    unfold Inet6State.putWord
    dsimp only
    rw [hlow.1, hlow.2]
    exact ⟨hwrote.addr, hwrote.buf⟩
  obtain ⟨buf, hfinish, hbuf⟩ := inet6Finish_zero hput hat.zero (by dsimp only; omega)
  refine ⟨buf, ?_, ?_⟩
  · rw [hrun, hloop, Option.bind_some, hfinish]
  · have hcount : st₁.n - 1 - 1 = max := by omega
    dsimp only at hbuf
    rw [hcount] at hbuf
    rw [List.flatMap_append, List.flatMap_append, flatMap_replicate, List.append_assoc, List.append_assoc]
    exact hbuf

end Fields

/-! ### The text of an IPv6 address -/

theorem inet6Groups_lt {p : Vector UInt8 16} {g : ℕ} (hg : g ∈ inet6Groups p) : g < 65536 := by
  obtain ⟨i, -, rfl⟩ := List.mem_map.mp hg
  have hhigh := (p.toList.getD (2 * i) 0).toNat_lt
  have hlow := (p.toList.getD (2 * i + 1) 0).toNat_lt
  omega

theorem groupBytes_pair (a b : UInt8) : groupBytes (a.toNat * 256 + b.toNat) = [a, b] := by
  have hb := b.toNat_lt
  have hhigh : (a.toNat * 256 + b.toNat) / 256 = a.toNat := by omega
  have hlow : (a.toNat * 256 + b.toNat) % 256 = b.toNat := by omega
  rw [groupBytes, hhigh, hlow, UInt8.ofNat_toNat, UInt8.ofNat_toNat]

theorem flatMap_inet6Groups (p : Vector UInt8 16) : (inet6Groups p).flatMap groupBytes =
    List.ofFn fun i : Fin 16 => p[i] := by
  simp only [inet6Groups, List.range_succ, List.range_zero, List.nil_append, List.map_append, List.map_cons,
    List.map_nil, List.flatMap_append, List.flatMap_cons, List.flatMap_nil, groupBytes_pair]
  simp [List.ofFn_succ]

/-- The bytes are those of the address. -/
theorem Begins.ofFn {buf : ℕ → UInt8} {p : Vector UInt8 16} (h : Begins buf ((inet6Groups p).flatMap groupBytes)) :
    Vector.ofFn (fun i : Fin 16 => buf i) = p := by
  rw [flatMap_inet6Groups] at h
  ext i hi
  have hbyte := h i (by rw [List.length_ofFn]; exact hi)
  rw [List.getElem?_ofFn, dif_pos hi] at hbyte
  rw [Vector.getElem_ofFn]
  exact congrArg UInt8.toNat (Option.some.inj hbyte).symm

theorem joinWith_groups (gs : List ℕ) {ts : List (List UInt8)} (hts : ts ≠ []) :
    joinWith colon (gs.map sprintfXd ++ ts) = groupsText gs ++ joinWith colon ts := by
  induction gs with
  | nil => rfl
  | cons g gs ih =>
      have hne : gs.map sprintfXd ++ ts ≠ [] := List.append_ne_nil_of_right_ne_nil _ hts
      rw [List.map_cons, List.cons_append, joinWith_cons hne, ih, groupsText_cons]

/-- The parser at its start. -/
def inet6Start (buf : ℕ → UInt8) : Inet6State := ⟨buf, 0, none, none, 0, 0, 8⟩

theorem inet6Start_atField (buf : ℕ → UInt8) : AtField (inet6Start buf) [] none 0 :=
  ⟨⟨rfl, fun _ hi => absurd hi (Nat.not_lt_zero _)⟩, rfl, rfl, rfl, rfl⟩

theorem ngxInet6Addr_groups {left : List ℕ} (hne : left ≠ []) (rest : List UInt8) (buf : ℕ → UInt8) :
    ngxInet6Addr (groupsText left ++ rest) buf =
      (inet6Loop (groupsText left ++ rest) (inet6Start buf)).bind inet6Finish := by
  obtain ⟨g, gs, rfl⟩ := List.exists_cons_of_ne_nil hne
  obtain ⟨c, l, hcons⟩ := List.exists_cons_of_ne_nil (numText_ne_nil 16 g)
  have hcolon : c ≠ colon := by
    rintro rfl
    exact colon_notMem_numText (b := 16) (by decide) (by decide) g (by rw [hcons]; exact List.mem_cons_self)
  have htext : groupsText (g :: gs) ++ rest = c :: (l ++ colon :: (groupsText gs ++ rest)) := by
    rw [groupsText_cons, sprintfXd, hcons, List.cons_append]
  rw [htext, ngxInet6Addr, if_neg hcolon, inet6Start]

/-- The first colon of a text that begins with `::` is passed over. -/
theorem ngxInet6Addr_zero (left : List ℕ) (rest : List UInt8) (buf : ℕ → UInt8) :
    ngxInet6Addr ((if left = [] then [colon] else []) ++ (groupsText left ++ colon :: rest)) buf =
      (inet6Loop (groupsText left ++ colon :: rest) (inet6Start buf)).bind inet6Finish := by
  by_cases hne : left = []
  · subst hne
    rfl
  · rw [if_neg hne]
    exact ngxInet6Addr_groups hne (colon :: rest) buf

theorem exists_concat (gs : List ℕ) (h : gs ≠ []) : ∃ init g, gs = init ++ [g] :=
  ⟨gs.dropLast, gs.getLast h, (List.dropLast_concat_getLast h).symm⟩

theorem ngxInet6Addr_none {gs : List ℕ} (hlength : gs.length = 8) (hgs : ∀ g ∈ gs, g < 65536) (buf : ℕ → UInt8) :
    ∃ buf', ngxInet6Addr (joinWith colon (inet6Fields gs none 1 none)) buf = some buf' ∧
      Begins buf' (gs.flatMap groupBytes) := by
  obtain ⟨init, g, rfl⟩ := exists_concat gs (by rintro rfl; cases hlength)
  rw [List.length_append, List.length_singleton] at hlength
  have hinit : ∀ g ∈ init, g < 65536 := fun g hg => hgs g (List.mem_append_left _ hg)
  have hne : init ≠ [] := by
    rintro rfl
    cases hlength
  rw [inet6Fields, List.map_append, List.map_singleton, joinWith_groups init (List.cons_ne_nil _ _), joinWith,
    ngxInet6Addr_groups hne]
  exact inet6_group hinit (hgs g (List.mem_append_right _ (List.mem_singleton_self g))) (inet6Start_atField buf)
    (by omega)

/-- The text up to the field behind `::`. -/
theorem joinWith_zero {gs : List ℕ} {z : ℕ} (hz : z ≤ gs.length) {ts : List (List UInt8)} (hts : ts ≠ []) :
    joinWith colon ((if z = 0 then [[]] else (gs.take z).map sprintfXd) ++ [[]] ++ ts) =
      (if gs.take z = [] then [colon] else []) ++ (groupsText (gs.take z) ++ colon :: joinWith colon ts) := by
  have hne : [[]] ++ ts ≠ ([] : List (List UInt8)) := List.cons_ne_nil _ _
  have hempty : joinWith colon ([[]] ++ ts) = colon :: joinWith colon ts := joinWith_cons hts []
  by_cases hzero : z = 0
  · subst hzero
    rw [if_pos rfl, List.take_zero, if_pos rfl, List.append_assoc]
    exact (joinWith_cons hne []).trans (congrArg (colon :: ·) hempty)
  · have htake : gs.take z ≠ [] := by
      intro hnil
      have hlength := congrArg List.length hnil
      rw [List.length_take, List.length_nil] at hlength
      omega
    rw [if_neg hzero, if_neg htake, List.append_assoc, joinWith_groups _ hne, hempty, List.nil_append]

theorem ngxInet6Addr_some {gs : List ℕ} (hlength : gs.length = 8) (hgs : ∀ g ∈ gs, g < 65536) {z max : ℕ}
    (hmax : 2 ≤ max) (hle : z + max ≤ 8) (hzero : ∀ j, z ≤ j → j < z + max → gs[j]? = some 0) (buf : ℕ → UInt8) :
    ∃ buf', ngxInet6Addr (joinWith colon (inet6Fields gs (some z) max none)) buf = some buf' ∧
      Begins buf' (gs.flatMap groupBytes) := by
  have hback := take_replicate_drop (by omega) hzero
  have htake : (gs.take z).length = z := by
    rw [List.length_take]
    omega
  have hleft : ∀ g ∈ gs.take z, g < 65536 := fun g hg => hgs g (List.mem_of_mem_take hg)
  have hts : (if z + max = 8 then [[]] else (gs.drop (z + max)).map sprintfXd) ≠ [] := by
    split
    · exact List.cons_ne_nil _ _
    · intro hnil
      have hdrop := congrArg List.length hnil
      rw [List.length_map, List.length_drop, List.length_nil] at hdrop
      omega
  rw [inet6Fields, joinWith_zero (by omega) hts, ngxInet6Addr_zero]
  by_cases hend : z + max = 8
  · have hdrop : gs.drop (z + max) = [] := List.drop_eq_nil_of_le (by omega)
    rw [hdrop, List.append_nil] at hback
    have hparse := @inet6_zero_end _ _ hleft (inet6Start_atField buf) max (by omega) (by omega)
    rw [hback] at hparse
    rw [if_pos hend]
    exact hparse
  · obtain ⟨right, g, hright⟩ := exists_concat (gs.drop (z + max)) (by
      intro hnil
      have hdrop := congrArg List.length hnil
      rw [List.length_drop, List.length_nil] at hdrop
      omega)
    have hmem : ∀ g' ∈ right ++ [g], g' < 65536 := fun g' hg' => hgs g' (List.mem_of_mem_drop (hright ▸ hg'))
    have hcount : right.length + 1 = 8 - (z + max) := by
      have hdrop := congrArg List.length hright
      rw [List.length_drop, List.length_append, List.length_singleton] at hdrop
      omega
    have hparse := @inet6_zero_group _ _ right g hleft (fun g' hg' => hmem g' (List.mem_append_left _ hg'))
      (hmem g (List.mem_append_right _ (List.mem_singleton_self g))) (inet6Start_atField buf) max (by omega) (by omega)
    rw [← hright, hback] at hparse
    rw [if_neg hend, hright, List.map_append, List.map_singleton, joinWith_groups right (List.cons_ne_nil _ _), joinWith]
    exact hparse

theorem ngxInet6Addr_quad {gs : List ℕ} (hlength : gs.length = 8) (hgs : ∀ g ∈ gs, g < 65536) {max : ℕ}
    (hmax : max = 5 ∨ max = 6 ∨ max = 7) (hzero : ∀ j < max, gs[j]? = some 0) {a b c d : UInt8}
    (hlow : gs.drop 6 = [a.toNat * 256 + b.toNat, c.toNat * 256 + d.toNat]) (hquad : quadAddr a b c d ≠ inaddrNone)
    (buf : ℕ → UInt8) :
    ∃ buf', ngxInet6Addr (joinWith colon (inet6Fields gs (some 0) max (some (sprintfQuad a b c d)))) buf = some buf' ∧
      Begins buf' (gs.flatMap groupBytes) := by
  obtain ⟨m, hm, hright⟩ : ∃ m, m = min max 6 ∧ (gs.drop max).take (6 - max) = (gs.drop m).take (6 - m) := by
    refine ⟨min max 6, rfl, ?_⟩
    rcases hmax with rfl | rfl | rfl
    · rfl
    · rfl
    · rfl
  have hback := @take_replicate_drop gs 0 m (by omega) (fun j _ hj => hzero j (by omega))
  have hsplit : gs.drop m = (gs.drop m).take (6 - m) ++ gs.drop 6 := by
    have h := (List.take_append_drop (6 - m) (gs.drop m)).symm
    rwa [List.drop_drop, Nat.add_sub_cancel' (by omega)] at h
  have hcount : ((gs.drop m).take (6 - m)).length = 6 - m := by
    rw [List.length_take, List.length_drop]
    omega
  have hparse := @inet6_zero_quad _ [] ((gs.drop m).take (6 - m)) a b c d (fun g hg => absurd hg List.not_mem_nil)
    (fun g hg => hgs g (List.mem_of_mem_drop (List.mem_of_mem_take hg))) hquad (inet6Start_atField buf) m (by omega)
    (by rw [List.length_nil]; omega)
  have hbytes : ([] ++ (List.replicate m 0 ++ (gs.drop m).take (6 - m))).flatMap groupBytes ++ [a, b, c, d] =
      gs.flatMap groupBytes := by
    rw [List.take_zero, List.nil_append, Nat.zero_add, hsplit, hlow] at hback
    have hflat := congrArg (List.flatMap groupBytes) hback
    rw [List.flatMap_append, List.flatMap_append, List.flatMap_cons, List.flatMap_singleton, groupBytes_pair,
      groupBytes_pair] at hflat
    rw [← hflat, List.nil_append, List.flatMap_append, List.append_assoc]
    rfl
  rw [hbytes] at hparse
  rw [inet6Fields, joinWith_zero (Nat.zero_le _) (List.append_ne_nil_of_right_ne_nil _ (List.cons_ne_nil _ _)),
    ngxInet6Addr_zero, hright, joinWith_groups _ (List.cons_ne_nil _ _), joinWith, List.take_zero]
  exact hparse

/-- An IPv6 address that has been printed is read back. -/
theorem ngxInet6Addr_ngxInet6Ntop {p : Vector UInt8 16} (hp : dottedTail p ≠ some #v[255, 255, 255, 255])
    (buf : ℕ → UInt8) :
    ∃ buf', ngxInet6Addr (ngxInet6Ntop p ngxInet6AddrStrLen) buf = some buf' ∧
      Vector.ofFn (fun i : Fin 16 => buf' i) = p := by
  have hinv := scanInv_inet6Groups p
  have hlength := inet6Groups_length p
  have hgs : ∀ g ∈ inet6Groups p, g < 65536 := fun g hg => inet6Groups_lt hg
  have hread : ∃ buf', ngxInet6Addr (joinWith colon (inet6AddrFields p)) buf = some buf' ∧
      Begins buf' ((inet6Groups p).flatMap groupBytes) := by
    unfold inet6AddrFields
    by_cases hdot : (zeroScan (inet6Groups p) 0 {}).zero = some 0 ∧ inet6Dotted p (zeroScan (inet6Groups p) 0 {}).max
    · rw [dottedTail, if_pos hdot] at hp
      have hquad : quadAddr p[12] p[13] p[14] p[15] ≠ inaddrNone := by
        rw [Ne, quadAddr_eq_none]
        rintro ⟨h12, h13, h14, h15⟩
        rw [h12, h13, h14, h15] at hp
        exact hp rfl
      dsimp only
      rw [if_pos hdot, hdot.1]
      exact ngxInet6Addr_quad hlength hgs (inet6Dotted_max hdot.2)
        (fun j hj => (hinv.zero 0 hdot.1).2.2 j (Nat.zero_le j) (by omega)) (inet6Groups_drop p) hquad buf
    · dsimp only
      rw [if_neg hdot]
      cases hz : (zeroScan (inet6Groups p) 0 {}).zero with
      | none => exact ngxInet6Addr_none hlength hgs buf
      | some z =>
          obtain ⟨hmax, hle, hzero⟩ := hinv.zero z hz
          exact ngxInet6Addr_some hlength hgs hmax hle hzero buf
  obtain ⟨buf', hread, hbegins⟩ := hread
  exact ⟨buf', (congrArg (fun text => ngxInet6Addr text buf) (ngxInet6Ntop_fields p)).trans hread, hbegins.ofFn⟩

/-! ### Socket addresses -/

/-- The same family and the same address. -/
def Sockaddr.SameAddr : Sockaddr → Sockaddr → Prop
  | .inet _ a, .inet _ a' => a = a'
  | .inet6 _ _ a _, .inet6 _ _ a' _ => a = a'
  | .unix path, .unix path' => path = path'
  | _, _ => False

/-- What is printed in dotted decimal. -/
def Sockaddr.dotted : Sockaddr → Option (Vector UInt8 4)
  | .inet _ a => some a
  | .inet6 _ _ a _ => dottedTail a
  | .unix _ => none

/-- Bytes that are enough for the text of an Internet address, with a port or without one. -/
def addrRoom : Sockaddr → Bool → ℕ
  | .inet _ _, port => ngxInetAddrStrLen + if port then 6 else 0
  | .inet6 _ _ _ _, _ => ngxInet6AddrStrLen
  | .unix _, _ => 0

theorem inetBytes_eq {addr : UInt32} {a b c d : UInt8} (ha : (addr >>> 24).toUInt8 = a)
    (hb : (addr >>> 16).toUInt8 = b) (hc : (addr >>> 8).toUInt8 = c) (hd : addr.toUInt8 = d) :
    inetBytes addr = #v[a, b, c, d] := by
  subst ha hb hc hd
  rfl

theorem inetBytes_quadAddr (a b c d : UInt8) : inetBytes (quadAddr a b c d) = #v[a, b, c, d] := by
  obtain ⟨ha, hb, hc, hd⟩ := quadAddr_bytes a b c d
  exact inetBytes_eq ha hb hc hd

theorem ngxParseAddr_inet {a b c d : UInt8} (h : quadAddr a b c d ≠ inaddrNone) :
    ngxParseAddr (sprintfQuad a b c d) = some (.inet 0 #v[a, b, c, d]) := by
  rw [ngxParseAddr, ngxInetAddr_sprintfQuad, if_pos h, inetBytes_quadAddr]

theorem ngxParseAddr_inet6 {p : Vector UInt8 16} (hp : dottedTail p ≠ some #v[255, 255, 255, 255]) :
    ngxParseAddr (ngxInet6Ntop p ngxInet6AddrStrLen) = some (.inet6 0 0 p 0) := by
  obtain ⟨buf, hread, hbuf⟩ := ngxInet6Addr_ngxInet6Ntop hp fun _ => 0
  have hinet : ngxInetAddr (ngxInet6Ntop p ngxInet6AddrStrLen) = inaddrNone :=
    inetAddrLoop_colon (colon_mem_ngxInet6Ntop p) _ _ _
  rw [ngxParseAddr, hinet, if_neg (not_not_intro rfl), hread, Option.map_some, hbuf]

/-- The text begins with a decimal digit, and a dot follows the digits. -/
theorem sprintfQuad_digits (a b c d : UInt8) : ∃ e l rest, sprintfQuad a b c d = digitChar e :: l ++ dot :: rest ∧
    e < 10 ∧ (∀ c ∈ digitChar e :: l, ∃ d < 16, c = digitChar d) ∧ (digitChar e :: l).length ≤ 3 := by
  have hlength := numText_byte_length a
  obtain ⟨c₀, l, hcons⟩ := List.exists_cons_of_ne_nil (numText_ne_nil 10 a.toNat)
  have hdigits : ∀ c ∈ c₀ :: l, ∃ d < 10, c = digitChar d := fun c hc =>
    mem_numText (b := 10) (by decide) (by rw [hcons]; exact hc)
  obtain ⟨e, he, rfl⟩ := hdigits c₀ List.mem_cons_self
  rw [sprintfUd, hcons] at hlength
  refine ⟨e, l, joinWith dot [sprintfUd b.toNat, sprintfUd c.toNat, sprintfUd d.toNat], ?_, he, ?_, hlength⟩
  · rw [sprintfQuad, joinWith, sprintfUd, hcons]
  · intro c hc
    obtain ⟨d, hd, rfl⟩ := hdigits c hc
    exact ⟨d, by omega, rfl⟩

/-- Dotted decimal with a port is no address without one. -/
theorem ngxParseAddr_inet_port (a b c d : UInt8) (port : List UInt8) :
    ngxParseAddr (sprintfQuad a b c d ++ colon :: port) = none := by
  have hinet : ngxInetAddr (sprintfQuad a b c d ++ colon :: port) = inaddrNone :=
    inetAddrLoop_colon (List.mem_append_right _ List.mem_cons_self) _ _ _
  obtain ⟨e, l, rest, htext, he, hdigits, hlength⟩ := sprintfQuad_digits a b c d
  have hcolon := (digitChar_ne (show e < 16 by omega)).1
  have hloop := @inet6Loop_digits (inet6Start fun _ => 0) (digitChar e :: l) hdigits
    (by rw [inet6Start]; dsimp only; omega) (dot :: (rest ++ colon :: port))
  have hnone : ngxInet6Addr (sprintfQuad a b c d ++ colon :: port) (fun _ => 0) = none := by
    rw [htext, List.append_assoc, List.cons_append, List.cons_append, ngxInet6Addr, if_neg hcolon]
    refine (congrArg (fun o => Option.bind o inet6Finish) hloop).trans ?_
    rw [inet6Loop, if_neg (by decide), if_pos ⟨rfl, by rw [List.length_cons]; dsimp only; omega⟩]
    rfl
  rw [ngxParseAddr, hinet, if_neg (not_not_intro rfl), hnone]
  rfl

theorem parsePort_some {text port : List UInt8} {n len : ℕ} (hport : ngxAtoi port = some n) (hpos : n ≠ 0)
    (hn : n < 65536) {sa : Sockaddr} (hparse : ngxParseAddr (text.take (len - (port.length + 1))) = some sa) :
    parsePort text port len = some (ngxInetSetPort sa n) := by
  rw [parsePort, hport]
  dsimp only
  rw [if_neg (by omega), hparse, Option.map_some]

theorem ngxParseAddrPort_inet {a b c d : UInt8} (h : quadAddr a b c d ≠ inaddrNone) {n : ℕ} (hpos : n ≠ 0)
    (hn : n < 65536) : ngxParseAddrPort (sprintfQuad a b c d ++ colon :: sprintfUd n) =
      some (.inet (UInt16.ofNat n) #v[a, b, c, d]) := by
  obtain ⟨e, l, rest, htext, he, -, -⟩ := sprintfQuad_digits a b c d
  have hhead : (sprintfQuad a b c d ++ colon :: sprintfUd n).head? ≠ some 91 := by
    rw [htext]
    show some (digitChar e) ≠ some 91
    interval_cases e <;> decide
  have hdrop : (sprintfQuad a b c d ++ colon :: sprintfUd n).dropWhile (· ≠ colon) = colon :: sprintfUd n := by
    rw [List.dropWhile_append_of_pos]
    · rfl
    · intro c' hc'
      exact decide_eq_true (fun heq => colon_notMem_sprintfQuad a b c d (heq ▸ hc'))
  rw [ngxParseAddrPort, ngxParseAddr_inet_port]
  dsimp only
  rw [if_neg hhead, hdrop]
  refine @parsePort_some _ _ _ _ (ngxAtoi_sprintfUd hn) hpos hn (.inet 0 #v[a, b, c, d]) ?_
  rw [List.length_append, List.length_cons, Nat.add_sub_cancel, List.take_left]
  exact ngxParseAddr_inet h

theorem mem_joinWith {c sep : UInt8} {ts : List (List UInt8)} (hc : c ∈ joinWith sep ts) :
    c = sep ∨ ∃ t ∈ ts, c ∈ t := by
  induction ts with
  | nil => cases hc
  | cons t ts ih =>
      by_cases hnil : ts = []
      · subst hnil
        exact .inr ⟨t, List.mem_cons_self, hc⟩
      · rw [joinWith_cons hnil] at hc
        rcases List.mem_append.mp hc with ht | hrest
        · exact .inr ⟨t, List.mem_cons_self, ht⟩
        · rcases List.mem_cons.mp hrest with rfl | hrest
          · exact .inl rfl
          · rcases ih hrest with rfl | ⟨t', ht', hct'⟩
            · exact .inl rfl
            · exact .inr ⟨t', List.mem_cons_of_mem _ ht', hct'⟩

/-- No closing bracket is printed with an address. -/
theorem bracket_notMem_ngxInet6Ntop (p : Vector UInt8 16) : (93 : UInt8) ∉ ngxInet6Ntop p ngxInet6AddrStrLen := by
  have hnum : ∀ {b n : ℕ}, 1 < b → b ≤ 16 → (93 : UInt8) ∉ numText b n := by
    intro b n hb hb16 hmem
    obtain ⟨d, hd, heq⟩ := mem_numText hb hmem
    have hd16 : d < 16 := by omega
    interval_cases d <;> exact absurd heq (by decide)
  intro hmem
  rw [ngxInet6Ntop_fields] at hmem
  rcases mem_joinWith hmem with heq | ⟨x, hx, hmemx⟩
  · exact absurd heq (by decide)
  · rw [inet6AddrFields] at hx
    rcases mem_inet6Fields hx with rfl | ⟨g, rfl⟩ | hquad
    · cases hmemx
    · exact hnum (by decide) (by decide) hmemx
    · split at hquad
      · rw [← Option.some.inj hquad, sprintfQuad] at hmemx
        rcases mem_joinWith hmemx with heq | ⟨t, ht, hmemt⟩
        · exact absurd heq (by decide)
        · simp only [List.mem_cons, List.not_mem_nil, or_false] at ht
          rcases ht with rfl | rfl | rfl | rfl
          · exact hnum (by decide) (by decide) hmemt
          · exact hnum (by decide) (by decide) hmemt
          · exact hnum (by decide) (by decide) hmemt
          · exact hnum (by decide) (by decide) hmemt
      · cases hquad

theorem ngxParseAddrPort_inet6 {p : Vector UInt8 16} (hp : dottedTail p ≠ some #v[255, 255, 255, 255]) {n : ℕ}
    (hpos : n ≠ 0) (hn : n < 65536) :
    ngxParseAddrPort (91 :: ngxInet6Ntop p ngxInet6AddrStrLen ++ [93, colon] ++ sprintfUd n) =
      some (.inet6 (UInt16.ofNat n) 0 p 0) := by
  have htext : 91 :: ngxInet6Ntop p ngxInet6AddrStrLen ++ [93, colon] ++ sprintfUd n =
      91 :: (ngxInet6Ntop p ngxInet6AddrStrLen ++ 93 :: colon :: sprintfUd n) := by
    rw [List.append_assoc]
    rfl
  have hinet : ngxInetAddr (91 :: (ngxInet6Ntop p ngxInet6AddrStrLen ++ 93 :: colon :: sprintfUd n)) = inaddrNone :=
    inetAddrLoop_colon (by simp) _ _ _
  have hinet6 : ngxInet6Addr (91 :: (ngxInet6Ntop p ngxInet6AddrStrLen ++ 93 :: colon :: sprintfUd n)) (fun _ => 0) =
      none := by
    rw [ngxInet6Addr, if_neg (by decide), inet6Loop, if_neg (by decide), if_neg (by decide), if_neg (by decide),
      if_neg (by decide), if_neg (by decide)]
    rfl
  have hnone : ngxParseAddr (91 :: (ngxInet6Ntop p ngxInet6AddrStrLen ++ 93 :: colon :: sprintfUd n)) = none := by
    rw [ngxParseAddr, hinet, if_neg (not_not_intro rfl), hinet6]
    rfl
  have hdrop : (91 :: (ngxInet6Ntop p ngxInet6AddrStrLen ++ 93 :: colon :: sprintfUd n)).dropWhile (· ≠ 93) =
      93 :: colon :: sprintfUd n := by
    rw [List.dropWhile_cons_of_pos (by decide), List.dropWhile_append_of_pos]
    · rfl
    · intro c hc
      exact decide_eq_true (fun heq => bracket_notMem_ngxInet6Ntop p (heq ▸ hc))
  rw [htext, ngxParseAddrPort, hnone]
  dsimp only
  rw [if_pos (by rfl), hdrop]
  refine @parsePort_some _ _ _ _ (ngxAtoi_sprintfUd hn) hpos hn (.inet6 0 0 p 0) ?_
  rw [List.drop_one, List.tail_cons, List.length_cons, List.length_append, List.length_cons, List.length_cons,
    Nat.sub_sub, show (ngxInet6Ntop p ngxInet6AddrStrLen).length + ((sprintfUd n).length + 1 + 1) + 1 -
      (2 + ((sprintfUd n).length + 1)) = (ngxInet6Ntop p ngxInet6AddrStrLen).length by omega, List.take_left]
  exact ngxParseAddr_inet6 hp

theorem ngxInet6Ntop_room {p : Vector UInt8 16} {len : ℕ} (h : ngxInet6AddrStrLen ≤ len) :
    ngxInet6Ntop p len = ngxInet6Ntop p ngxInet6AddrStrLen := by
  rw [ngxInet6Ntop, ngxInet6Ntop, if_neg (Nat.not_lt.mpr h), if_neg (lt_irrefl _)]

theorem numText_port_length (port : UInt16) : (sprintfUd port.toNat).length ≤ 5 := by
  have hlt := port.toNat_lt
  unfold sprintfUd numText
  split
  · decide
  · rw [List.length_reverse, List.length_map]
    exact (Nat.digits_length_le_iff (by decide) _).mpr (by omega)

theorem quadAddr_ne_none {a b c d : UInt8} (h : some #v[a, b, c, d] ≠ some #v[255, 255, 255, 255]) :
    quadAddr a b c d ≠ inaddrNone := by
  rw [Ne, quadAddr_eq_none]
  rintro ⟨rfl, rfl, rfl, rfl⟩
  exact h rfl

theorem exists_octets (addr : Vector UInt8 4) : ∃ a b c d, addr = #v[a, b, c, d] := by
  refine ⟨addr[0], addr[1], addr[2], addr[3], ?_⟩
  ext i hi
  interval_cases i
  · rfl
  · rfl
  · rfl
  · rfl

/-- An Internet address with a port is read back from its text, and so is the address from the text without the port. -/
theorem ngxParseAddrPort_ngxSockNtop {sa : Sockaddr} (hinet : ∀ path, sa ≠ .unix path) (hport : ngxInetGetPort sa ≠ 0)
    (hnone : sa.dotted ≠ some #v[255, 255, 255, 255]) {len len' : ℕ} (hlen : addrRoom sa true ≤ len)
    (hlen' : addrRoom sa false ≤ len') :
    (∃ sa', ngxParseAddrPort (ngxSockNtop sa len true) = some sa' ∧ sa'.SameAddr sa ∧
      ngxInetGetPort sa' = ngxInetGetPort sa) ∧
    ∃ sa', ngxParseAddr (ngxSockNtop sa len' false) = some sa' ∧ sa'.SameAddr sa := by
  cases sa with
  | unix path => exact absurd rfl (hinet path)
  | inet port addr =>
      obtain ⟨a, b, c, d, rfl⟩ := exists_octets addr
      have hlt := port.toNat_lt
      have hpos : port.toNat ≠ 0 := fun h => hport (UInt16.toNat_inj.mp h)
      have hquad := quadAddr_ne_none hnone
      have hlength := sprintfQuad_length a b c d
      have htext : ∀ {len port}, ngxSockNtop (.inet port #v[a, b, c, d]) len false = (sprintfQuad a b c d).take len ∧
          ngxSockNtop (.inet port #v[a, b, c, d]) len true =
            (sprintfQuad a b c d ++ colon :: sprintfUd port.toNat).take len := ⟨rfl, rfl⟩
      have hdigits := numText_port_length port
      have hroom : ngxInetAddrStrLen + 6 ≤ len := hlen
      have hroom' : ngxInetAddrStrLen ≤ len' := hlen'
      refine ⟨⟨.inet port #v[a, b, c, d], ?_, rfl, rfl⟩, ⟨.inet 0 #v[a, b, c, d], ?_, rfl⟩⟩
      · have hparse := ngxParseAddrPort_inet hquad hpos hlt
        rw [UInt16.ofNat_toNat] at hparse
        rw [htext.2, List.take_of_length_le (by rw [List.length_append, List.length_cons]; omega)]
        exact hparse
      · rw [htext.1, List.take_of_length_le (by omega)]
        exact ngxParseAddr_inet hquad
  | inet6 port flowinfo a scopeId =>
      have hpos : port.toNat ≠ 0 := fun h => hport (UInt16.toNat_inj.mp h)
      have hroom : ngxInet6AddrStrLen ≤ len := hlen
      have hroom' : ngxInet6AddrStrLen ≤ len' := hlen'
      refine ⟨⟨.inet6 port 0 a 0, ?_, rfl, rfl⟩, ⟨.inet6 0 0 a 0, ?_, rfl⟩⟩
      · have hparse := ngxParseAddrPort_inet6 hnone hpos port.toNat_lt
        rw [UInt16.ofNat_toNat] at hparse
        rw [ngxSockNtop, if_pos rfl, ngxInet6Ntop_room hroom]
        exact hparse
      · rw [ngxSockNtop, if_neg Bool.false_ne_true, ngxInet6Ntop_room hroom']
        exact ngxParseAddr_inet6 hnone

/-- The address `::ffff:192.0.2.7`, whose tail is in dotted decimal, with port 443. -/
theorem ngxParseAddrPort_ngxSockNtop_mapped :
    dottedTail #v[0, 0, 0, 0, 0, 0, 0, 0, 0, 0, 255, 255, 192, 0, 2, 7] = some #v[192, 0, 2, 7] ∧
    ∃ sa', ngxParseAddrPort (ngxSockNtop
        (.inet6 443 0 #v[0, 0, 0, 0, 0, 0, 0, 0, 0, 0, 255, 255, 192, 0, 2, 7] 0) 53 true) = some sa' ∧
      sa'.SameAddr (.inet6 443 0 #v[0, 0, 0, 0, 0, 0, 0, 0, 0, 0, 255, 255, 192, 0, 2, 7] 0) ∧
      ngxInetGetPort sa' = 443 := by
  have htail : dottedTail #v[0, 0, 0, 0, 0, 0, 0, 0, 0, 0, 255, 255, 192, 0, 2, 7] = some #v[192, 0, 2, 7] := by decide
  refine ⟨htail, ?_⟩
  have h := @ngxParseAddrPort_ngxSockNtop (.inet6 443 0 #v[0, 0, 0, 0, 0, 0, 0, 0, 0, 0, 255, 255, 192, 0, 2, 7] 0)
    (fun path heq => by cases heq) (by decide) (by rw [Sockaddr.dotted, htail]; decide) 53 45 (by decide) (by decide)
  exact h.1

end NginxDtls
