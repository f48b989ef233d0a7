import NginxDtls.Inet6Grammar

/-! `ngx_inet6_addr` from field to field: the loop accepts the texts of its grammar and no others, and leaves the bytes of
their groups. The invariant at the beginning of a field is the number of the groups so far. -/

namespace NginxDtls

open Text

variable {st : Inet6State}

/-! ### One field -/

/-- A group with its colon. -/
theorem inet6Loop_groupColon {f : List UInt8} {g : ℕ} (hf : HexGroup f g) {bytes : List UInt8} {zero : Option ℕ} {k : ℕ}
    (hat : AtField st bytes zero k) (hk : k ≤ 6) (rest : List UInt8) :
    ∃ st', inet6Loop (f ++ colon :: rest) st = inet6Loop rest st' ∧ AtField st' (bytes ++ groupBytes g) zero (k + 1) ∧
      st'.digit = some rest := by
  have hn := hat.n
  have hpos : 0 < f.length := List.length_pos_iff.mpr hf.digits
  have hlength := hf.length
  have hread := @inet6Loop_hex st _ hf.hex (by rw [hat.nibbles]; omega) (colon :: rest)
  have hcolon := @inet6Loop_colon { st with nibbles := st.nibbles + f.length, word := hexFrom st.word f }
    (by dsimp only; omega) (by dsimp only; omega) rest
  refine ⟨_, hread.trans hcolon, ?_, rfl⟩
  have hwrote := hat.wrote.put (UInt8.ofNat (g / 256)) (UInt8.ofNat (g % 256))
  rw [hat.word, hf.value]
  exact
    { wrote := ⟨hwrote.addr, hwrote.buf⟩
      zero := hat.zero
      nibbles := rfl
      word := rfl
      n := by dsimp only; omega }

/-- Behind the last colon that is accepted there is room for a group. -/
theorem inet6Loop_groupColon_room {f : List UInt8} {g : ℕ} (hf : HexGroup f g) {bytes : List UInt8} {zero : Option ℕ}
    {k : ℕ} (hat : AtField st bytes zero k) {rest : List UInt8} (h : inet6Loop (f ++ colon :: rest) st ≠ none) :
    k ≤ 6 := by
  by_contra hk
  have hn := hat.n
  have hlength := hf.length
  have hpos : 0 < f.length := List.length_pos_iff.mpr hf.digits
  rw [@inet6Loop_hex st _ hf.hex (by rw [hat.nibbles]; omega), inet6Loop, if_pos rfl,
    if_pos (by dsimp only; omega), if_neg (by dsimp only; omega)] at h
  exact h rfl

/-- A group at the end of the text. -/
theorem inet6Loop_groupEnd {f : List UInt8} {g : ℕ} (hf : HexGroup f g) {bytes : List UInt8} {zero : Option ℕ} {k : ℕ}
    (hat : AtField st bytes zero k) :
    ∃ st', inet6Loop f st = some st' ∧ Wrote st'.putWord (bytes ++ groupBytes g) ∧ st'.zero = zero ∧ st'.n = 8 - k ∧
      st'.nibbles ≠ 0 := by
  have hpos : 0 < f.length := List.length_pos_iff.mpr hf.digits
  have hlength := hf.length
  have hread := @inet6Loop_hex st _ hf.hex (by rw [hat.nibbles]; omega) []
  rw [List.append_nil, inet6Loop] at hread
  have hwrote := hat.wrote.put (UInt8.ofNat (g / 256)) (UInt8.ofNat (g % 256))
  refine ⟨_, hread, ?_, hat.zero, hat.n, ?_⟩
  · unfold Inet6State.putWord
    dsimp only
    rw [hat.word, hf.value]
    exact ⟨hwrote.addr, hwrote.buf⟩
  · dsimp only
    omega

/-- The colon of the empty field. -/
theorem inet6Loop_emptyColon {bytes : List UInt8} {k : ℕ} (hat : AtField st bytes none k) (rest : List UInt8) :
    ∃ st', inet6Loop (colon :: rest) st = inet6Loop rest st' ∧ AtField st' bytes (some bytes.length) k ∧
      st'.digit = some rest := by
  refine ⟨_, inet6Loop_empty hat.nibbles hat.zero rest, ?_, rfl⟩
  exact
    { wrote := ⟨hat.wrote.addr, hat.wrote.buf⟩
      zero := congrArg some hat.wrote.addr
      nibbles := hat.nibbles
      word := hat.word
      n := hat.n }

/-- There is one empty field at most. -/
theorem inet6Loop_emptyColon_zero {bytes : List UInt8} {zero : Option ℕ} {k : ℕ} (hat : AtField st bytes zero k)
    {rest : List UInt8} (h : inet6Loop (colon :: rest) st ≠ none) : zero = none := by
  by_contra hzero
  rw [inet6Loop, if_pos rfl, if_neg (not_not_intro hat.nibbles), if_neg (by rw [hat.zero]; exact hzero)] at h
  exact h rfl

/-- Which fields there are in front of a colon. -/
theorem inet6Loop_field_colon {f rest : List UInt8} (hcolon : colon ∉ f) {bytes : List UInt8} {zero : Option ℕ} {k : ℕ}
    (hat : AtField st bytes zero k) (hdigit : ∀ d ∈ st.digit, d = f ++ colon :: rest)
    (h : inet6Loop (f ++ colon :: rest) st ≠ none) : f = [] ∨ ∃ g, HexGroup f g := by
  rcases inet6Loop_field hcolon hat.nibbles h with hnil | hgroup | ⟨l, f', rfl, hne, hlength, -, hdot⟩
  · exact Or.inl hnil
  · exact Or.inr hgroup
  · -- dotted decimal would go to the end of the text
    obtain ⟨digit, hd, -, haddr⟩ := inet6Loop_dot (by dsimp only; exact fun h0 => hne (List.length_eq_zero_iff.mp h0)) hdot
    rw [hdigit digit hd] at haddr
    exact absurd (inetAddrLoop_colon (List.mem_append_right _ List.mem_cons_self) 0 0 0) haddr

/-- Which fields there are at the end of the text. -/
theorem inet6Loop_field_end {f : List UInt8} (hcolon : colon ∉ f) {bytes : List UInt8} {zero : Option ℕ} {k : ℕ}
    (hat : AtField st bytes zero k) (hdigit : ∀ d ∈ st.digit, d = f) (h : inet6Loop f st ≠ none) :
    f = [] ∨ (∃ g, HexGroup f g) ∨ st.digit = some f ∧ k ≤ 6 ∧ ∃ gs, Loose f gs ∧ gs.length = 2 := by
  have hn := hat.n
  have hread := h
  rw [← List.append_nil f] at hread
  rcases inet6Loop_field hcolon hat.nibbles hread with hnil | hgroup | ⟨l, f', rfl, hne, hlength, hhex, hdot⟩
  · exact Or.inl hnil
  · exact Or.inr (Or.inl hgroup)
  · obtain ⟨digit, hd, htwo, haddr⟩ :=
      inet6Loop_dot (by dsimp only; exact fun h0 => hne (List.length_eq_zero_iff.mp h0)) hdot
    dsimp only at hd htwo
    obtain rfl := hdigit digit hd
    exact Or.inr (Or.inr ⟨hd, by omega, loose_of_inet6Loop hne hlength hhex haddr⟩)

/-! ### The end of the text -/

/-- The zeros are put in place when there is room for them. -/
theorem inet6Finish_some {left right : List UInt8} (hwrote : Wrote st.putWord (left ++ right))
    (hzero : st.zero = some left.length) {k : ℕ} (hn : st.n = 9 - k) (hk : k ≤ 7) :
    ∃ buf, inet6Finish st = some buf ∧ Begins buf (left ++ (List.replicate ((8 - k) * 2) 0 ++ right)) := by
  obtain ⟨buf, hfinish, hbuf⟩ := inet6Finish_zero hwrote hzero (by omega)
  have hcount : st.n - 1 = 8 - k := by omega
  rw [hcount] at hbuf
  exact ⟨buf, hfinish, hbuf⟩

theorem inet6Finish_room (hzero : st.zero ≠ none) (h : inet6Finish st ≠ none) : 2 ≤ st.n := by
  by_contra hn
  rw [inet6Finish, if_neg (fun hand => hzero hand.2), if_neg (by omega), if_neg hzero] at h
  exact h rfl

theorem inet6Finish_full (hzero : st.zero = none) (h : inet6Finish st ≠ none) : st.nibbles ≠ 0 ∧ st.n ≤ 1 := by
  rw [inet6Finish] at h
  refine ⟨fun hnibbles => ?_, ?_⟩
  · rw [if_pos ⟨hnibbles, hzero⟩] at h
    exact h rfl
  · by_contra hn
    rw [if_pos (show st.n - 1 ≠ 0 by omega), hzero, ite_self] at h
    exact h rfl

/-- Eight groups need no zeros. -/
theorem inet6Finish_eight {bytes : List UInt8} (hwrote : Wrote st.putWord bytes) (hzero : st.zero = none)
    (hnibbles : st.nibbles ≠ 0) (hn : st.n = 1) : ∃ buf, inet6Finish st = some buf ∧ Begins buf bytes := by
  refine ⟨st.putWord.buf, ?_, hwrote.buf⟩
  rw [inet6Finish, if_neg (fun hand => hnibbles hand.1), if_neg (by omega), if_pos hzero]

/-! ### Behind the empty field -/

/-- The fields behind the empty one. -/
theorem inet6Loop_behind {fs : List (List UInt8)} {gs : List ℕ} (hfs : Fields LooseEnd fs gs) (hne : fs ≠ [])
    {left right : List UInt8} {k : ℕ} (hat : AtField st (left ++ right) (some left.length) k)
    (hdigit : st.digit = some (joinWith colon fs)) (hlength : k + gs.length ≤ 7) :
    ∃ buf, (inet6Loop (joinWith colon fs) st).bind inet6Finish = some buf ∧
      Begins buf (left ++ (List.replicate ((8 - (k + gs.length)) * 2) 0 ++ (right ++ gs.flatMap groupBytes))) := by
  induction hfs generalizing st right k with
  | nil => exact absurd rfl hne
  | @last f gs hlast =>
      rcases hlast with hloose | ⟨rfl, rfl⟩
      · obtain ⟨r, runs, a, b, c, d, -, -, -, -, -, hgs⟩ := id hloose
        have htwo : gs.length = 2 := by
          rw [hgs]
          rfl
        obtain ⟨st', hloop, hwrote, hzero, hn, -⟩ := inet6Loop_loose hloose hat hdigit (by omega)
        rw [List.append_assoc] at hwrote
        obtain ⟨buf, hfinish, hbuf⟩ := inet6Finish_some (k := k + gs.length) hwrote hzero (by omega) hlength
        exact ⟨buf, by rw [joinWith, hloop, Option.bind_some, hfinish], hbuf⟩
      · have hwrote := hat.wrote.putWord
        rw [hat.word, List.append_assoc] at hwrote
        have hn := hat.n
        obtain ⟨buf, hfinish, hbuf⟩ := inet6Finish_some (k := k + 1) hwrote hat.zero (by omega) hlength
        exact ⟨buf, hfinish, hbuf⟩
  | @cons f g fs gs hf hfs ih =>
      rw [List.length_cons] at hlength ⊢
      by_cases hnil : fs = []
      · subst hnil
        have hgs : gs = [] := by
          cases hfs
          rfl
        subst hgs
        have hn := hat.n
        obtain ⟨st', hloop, hwrote, hzero, hn', -⟩ := inet6Loop_groupEnd hf hat
        rw [List.append_assoc] at hwrote
        obtain ⟨buf, hfinish, hbuf⟩ := inet6Finish_some (k := k + 1) hwrote hzero (by omega) hlength
        exact ⟨buf, by rw [joinWith, hloop, Option.bind_some, hfinish], hbuf⟩
      · obtain ⟨st', hloop, hat', hdigit'⟩ := inet6Loop_groupColon hf hat (by omega) (joinWith colon fs)
        rw [List.append_assoc] at hat'
        obtain ⟨buf, hrun, hbuf⟩ := ih hnil hat' hdigit' (by omega)
        refine ⟨buf, by rw [joinWith_cons hnil, hloop, hrun], ?_⟩
        rw [List.append_assoc, Nat.add_assoc, Nat.add_comm 1] at hbuf
        exact hbuf

/-- What the fields behind the empty one are. -/
theorem inet6Loop_behind_sound {fs : List (List UInt8)} (hne : fs ≠ []) (hcolon : ∀ f ∈ fs, colon ∉ f)
    {bytes : List UInt8} {z k : ℕ} (hat : AtField st bytes (some z) k) (hdigit : st.digit = some (joinWith colon fs))
    (h : (inet6Loop (joinWith colon fs) st).bind inet6Finish ≠ none) :
    ∃ gs, Fields LooseEnd fs gs ∧ k + gs.length ≤ 7 := by
  have hloop : inet6Loop (joinWith colon fs) st ≠ none := fun hnone => h (by rw [hnone]; rfl)
  induction fs generalizing st bytes k with
  | nil => exact absurd rfl hne
  | cons f fs ih =>
      have hf := hcolon f List.mem_cons_self
      have hn := hat.n
      by_cases hnil : fs = []
      · subst hnil
        rw [joinWith] at h hloop hdigit
        have hroom : ∀ st', inet6Loop f st = some st' → st'.zero = some z → 2 ≤ st'.n := by
          intro st' hst' hzero
          rw [hst', Option.bind_some] at h
          exact inet6Finish_room (by rw [hzero]; exact Option.some_ne_none z) h
        have hd : ∀ d ∈ st.digit, d = f := fun d hd => Option.some.inj (hd.symm.trans hdigit)
        rcases inet6Loop_field_end hf hat hd hloop with rfl | ⟨g, hg⟩ | ⟨-, hk, gs, hloose, htwo⟩
        · have htwo := hroom st rfl hat.zero
          exact ⟨[0], Fields.last (Or.inr ⟨rfl, rfl⟩), by rw [List.length_singleton]; omega⟩
        · obtain ⟨st', hst', -, hzero, hn', -⟩ := inet6Loop_groupEnd hg hat
          have htwo := hroom st' hst' hzero
          exact ⟨[g], Fields.cons hg Fields.nil, by rw [List.length_singleton]; omega⟩
        · obtain ⟨st', hst', -, hzero, hn', -⟩ := inet6Loop_loose hloose hat hdigit hk
          have hleft := hroom st' hst' hzero
          exact ⟨gs, Fields.last (Or.inl hloose), by omega⟩
      · rw [joinWith_cons hnil] at h hloop hdigit
        have hd : ∀ d ∈ st.digit, d = f ++ colon :: joinWith colon fs := fun d hd => Option.some.inj (hd.symm.trans hdigit)
        rcases inet6Loop_field_colon hf hat hd hloop with rfl | ⟨g, hg⟩
        · exact absurd (inet6Loop_emptyColon_zero hat hloop) (Option.some_ne_none z)
        · obtain ⟨st', hstep, hat', hdigit'⟩ :=
            inet6Loop_groupColon hg hat (inet6Loop_groupColon_room hg hat hloop) (joinWith colon fs)
          rw [hstep] at h hloop
          obtain ⟨gs, hgs, hlength⟩ := ih hnil (fun x hx => hcolon x (List.mem_cons_of_mem _ hx)) hat' hdigit' h hloop
          exact ⟨g :: gs, Fields.cons hg hgs, by rw [List.length_cons]; omega⟩

/-! ### From the first field on -/

/-- Eight groups. -/
theorem inet6Loop_full {fs : List (List UInt8)} {gs : List ℕ} (hfs : Fields Loose fs gs) {bytes : List UInt8} {k : ℕ}
    (hat : AtField st bytes none k) (hdigit : k ≠ 0 → st.digit = some (joinWith colon fs)) (hk : k ≤ 7)
    (hlength : k + gs.length = 8) :
    ∃ buf, (inet6Loop (joinWith colon fs) st).bind inet6Finish = some buf ∧
      Begins buf (bytes ++ gs.flatMap groupBytes) := by
  induction hfs generalizing st bytes k with
  | nil =>
      rw [List.length_nil] at hlength
      omega
  | @last f gs hloose =>
      obtain ⟨r, runs, a, b, c, d, -, -, -, -, -, hgs⟩ := id hloose
      have htwo : gs.length = 2 := by
        rw [hgs]
        rfl
      obtain ⟨st', hloop, hwrote, hzero, hn, hnibbles⟩ := inet6Loop_loose hloose hat (hdigit (by omega)) (by omega)
      obtain ⟨buf, hfinish, hbuf⟩ := inet6Finish_eight hwrote hzero hnibbles (by omega)
      exact ⟨buf, by rw [joinWith, hloop, Option.bind_some, hfinish], hbuf⟩
  | @cons f g fs gs hf hfs ih =>
      rw [List.length_cons] at hlength
      by_cases hnil : fs = []
      · subst hnil
        have hgs : gs = [] := by
          cases hfs
          rfl
        subst hgs
        rw [List.length_nil] at hlength
        obtain ⟨st', hloop, hwrote, hzero, hn, hnibbles⟩ := inet6Loop_groupEnd hf hat
        obtain ⟨buf, hfinish, hbuf⟩ := inet6Finish_eight hwrote hzero hnibbles (by omega)
        rw [List.flatMap_singleton]
        exact ⟨buf, by rw [joinWith, hloop, Option.bind_some, hfinish], hbuf⟩
      · have hsome : gs ≠ [] := by
          rintro rfl
          cases hfs with
          | nil => exact hnil rfl
          | last h =>
              obtain ⟨r, runs, a, b, c, d, -, -, -, -, -, hgs⟩ := h
              cases hgs
        have hpos : 0 < gs.length := List.length_pos_iff.mpr hsome
        obtain ⟨st', hloop, hat', hdigit'⟩ := inet6Loop_groupColon hf hat (by omega) (joinWith colon fs)
        obtain ⟨buf, hrun, hbuf⟩ := ih hat' (fun _ => hdigit') (by omega) (by omega)
        refine ⟨buf, by rw [joinWith_cons hnil, hloop, hrun], ?_⟩
        rw [List.append_assoc] at hbuf
        exact hbuf

/-- The groups in front of the empty field. -/
theorem inet6Loop_zeros {fl fr : List (List UInt8)} {gl gr : List ℕ} (hfl : List.Forall₂ HexGroup fl gl)
    (hfr : Fields LooseEnd fr gr) (hne : fr ≠ []) {bytes : List UInt8} {k : ℕ} (hat : AtField st bytes none k)
    (hlength : k + gl.length + gr.length ≤ 7) :
    ∃ buf, (inet6Loop (joinWith colon (fl ++ [] :: fr)) st).bind inet6Finish = some buf ∧
      Begins buf (bytes ++ gl.flatMap groupBytes ++
        (List.replicate ((8 - (k + gl.length + gr.length)) * 2) 0 ++ gr.flatMap groupBytes)) := by
  induction hfl generalizing st bytes k with
  | nil =>
      obtain ⟨st', hloop, hat', hdigit⟩ := inet6Loop_emptyColon hat (joinWith colon fr)
      rw [← List.append_nil bytes] at hat'
      have hlength' : k + gr.length ≤ 7 := hlength
      obtain ⟨buf, hrun, hbuf⟩ := @inet6Loop_behind st' fr gr hfr hne bytes [] k
        (by rwa [List.append_nil] at hat' ⊢) hdigit hlength'
      refine ⟨buf, ?_, ?_⟩
      · rw [List.nil_append, joinWith_cons hne, List.nil_append, hloop, hrun]
      · rw [List.flatMap_nil, List.append_nil]
        exact hbuf
  | @cons f g fl gl hf hfl ih =>
      rw [List.length_cons] at hlength ⊢
      obtain ⟨st', hloop, hat', -⟩ := inet6Loop_groupColon hf hat (by omega) (joinWith colon (fl ++ [] :: fr))
      obtain ⟨buf, hrun, hbuf⟩ := ih hat' (by omega)
      refine ⟨buf, ?_, ?_⟩
      · rw [List.cons_append, joinWith_cons (List.append_ne_nil_of_right_ne_nil _ (List.cons_ne_nil _ _)), hloop, hrun]
      · rw [List.append_assoc bytes, Nat.add_assoc k 1, Nat.add_comm 1] at hbuf
        exact hbuf

/-- What the fields are. -/
theorem inet6Loop_sound {fs : List (List UInt8)} (hne : fs ≠ []) (hcolon : ∀ f ∈ fs, colon ∉ f) {bytes : List UInt8}
    {k : ℕ} (hat : AtField st bytes none k) (hk : k ≤ 7) (hdigit : ∀ d ∈ st.digit, d = joinWith colon fs)
    (h : (inet6Loop (joinWith colon fs) st).bind inet6Finish ≠ none) :
    (∃ gs, Fields Loose fs gs ∧ k + gs.length = 8) ∨ ∃ fl fr gl gr, fs = fl ++ [] :: fr ∧ List.Forall₂ HexGroup fl gl ∧
      Fields LooseEnd fr gr ∧ fr ≠ [] ∧ k + gl.length + gr.length ≤ 7 := by
  have hloop : inet6Loop (joinWith colon fs) st ≠ none := fun hnone => h (by rw [hnone]; rfl)
  induction fs generalizing st bytes k with
  | nil => exact absurd rfl hne
  | cons f fs ih =>
      have hf := hcolon f List.mem_cons_self
      have hn := hat.n
      by_cases hnil : fs = []
      · subst hnil
        rw [joinWith] at h hloop hdigit
        have hfull : ∀ st', inet6Loop f st = some st' → st'.zero = none → st'.nibbles ≠ 0 ∧ st'.n ≤ 1 := by
          intro st' hst' hzero
          rw [hst', Option.bind_some] at h
          exact inet6Finish_full hzero h
        rcases inet6Loop_field_end hf hat hdigit hloop with rfl | ⟨g, hg⟩ | ⟨hd, hk', gs, hloose, htwo⟩
        · exact absurd hat.nibbles (hfull st rfl hat.zero).1
        · obtain ⟨st', hst', -, hzero, hn', -⟩ := inet6Loop_groupEnd hg hat
          have hone := (hfull st' hst' hzero).2
          exact Or.inl ⟨[g], Fields.cons hg Fields.nil, by rw [List.length_singleton]; omega⟩
        · obtain ⟨st', hst', -, hzero, hn', -⟩ := inet6Loop_loose hloose hat hd hk'
          have hone := (hfull st' hst' hzero).2
          exact Or.inl ⟨gs, Fields.last hloose, by omega⟩
      · rw [joinWith_cons hnil] at h hloop hdigit
        have hrest : ∀ x ∈ fs, colon ∉ x := fun x hx => hcolon x (List.mem_cons_of_mem _ hx)
        rcases inet6Loop_field_colon hf hat hdigit hloop with rfl | ⟨g, hg⟩
        · obtain ⟨st', hstep, hat', hdigit'⟩ := inet6Loop_emptyColon hat (joinWith colon fs)
          rw [List.nil_append, hstep] at h
          obtain ⟨gr, hgr, hlength⟩ := inet6Loop_behind_sound hnil hrest hat' hdigit' h
          exact Or.inr ⟨[], fs, [], gr, rfl, List.Forall₂.nil, hgr, hnil, hlength⟩
        · have hroom := inet6Loop_groupColon_room hg hat hloop
          obtain ⟨st', hstep, hat', hdigit'⟩ := inet6Loop_groupColon hg hat hroom (joinWith colon fs)
          rw [hstep] at h hloop
          rcases ih hnil hrest hat' (by omega) (fun d hd => Option.some.inj (hd.symm.trans hdigit')) h hloop with
            ⟨gs, hgs, hlength⟩ | ⟨fl, fr, gl, gr, rfl, hfl, hfr, hne', hlength⟩
          · exact Or.inl ⟨g :: gs, Fields.cons hg hgs, by rw [List.length_cons]; omega⟩
          · exact Or.inr ⟨f :: fl, fr, g :: gl, gr, rfl, List.Forall₂.cons hg hfl, hfr, hne',
              by rw [List.length_cons]; omega⟩

/-! ### The text -/

/-- The text without a colon that it begins with. -/
def inet6Body (text : List UInt8) : List UInt8 := if text.head? = some colon then text.tail else text

theorem ngxInet6Addr_body {text : List UInt8} (hne : text ≠ []) (buf : ℕ → UInt8) :
    ngxInet6Addr text buf = (inet6Loop (inet6Body text) (inet6Start buf)).bind inet6Finish := by
  obtain ⟨c, rest, rfl⟩ := List.exists_cons_of_ne_nil hne
  rw [ngxInet6Addr, inet6Body, List.head?_cons, inet6Start]
  by_cases hc : c = colon
  · rw [if_pos hc, if_pos (congrArg some hc), List.tail_cons]
  · rw [if_neg hc, if_neg (fun heq => hc (Option.some.inj heq))]

theorem LooseText.ne_nil {text : List UInt8} {gs : List ℕ} (h : LooseText text gs) : text ≠ [] := by
  cases h with
  | @full fs _ hfs hlength =>
      cases hfs with
      | nil => cases hlength
      | last h =>
          obtain ⟨r, runs, a, b, c, d, -, -, -, -, -, hgs⟩ := h
          rw [hgs] at hlength
          cases hlength
      | @cons f g fs gs hf _ =>
          obtain ⟨rest, heq, -⟩ := @joinWith_cons_eq _ colon f fs
          rw [heq]
          exact List.append_ne_nil_of_left_ne_nil hf.digits rest
  | @zeros fl fr gl gr hfl hfr hne hlength =>
      intro hnil
      have hcolon : colon ∈ joinWith colon (fl ++ [] :: fr) := by
        clear hnil hfl hlength
        induction fl with
        | nil =>
            rw [List.nil_append, joinWith_cons hne]
            exact List.mem_append_right _ List.mem_cons_self
        | cons f fl ih =>
            rw [List.cons_append, joinWith_cons (List.append_ne_nil_of_right_ne_nil _ (List.cons_ne_nil _ _))]
            exact List.mem_append_right _ List.mem_cons_self
      rw [hnil] at hcolon
      cases hcolon

/-- The accepted texts, with the bytes of their groups. -/
theorem ngxInet6Addr_loose {text : List UInt8} {gs : List ℕ} (h : LooseText (inet6Body text) gs) (buf : ℕ → UInt8) :
    ∃ out, ngxInet6Addr text buf = some out ∧ Begins out (gs.flatMap groupBytes) := by
  have hne : text ≠ [] := by
    rintro rfl
    exact h.ne_nil rfl
  rw [ngxInet6Addr_body hne]
  have hat := inet6Start_atField buf
  generalize hbody : inet6Body text = body at h
  cases h with
  | full hfs hlength =>
      obtain ⟨out, hrun, hout⟩ := inet6Loop_full hfs hat (fun h0 => absurd rfl h0) (Nat.zero_le _)
        ((Nat.zero_add _).trans hlength)
      exact ⟨out, hrun, hout⟩
  | @zeros fl fr gl gr hfl hfr hne hlength =>
      obtain ⟨out, hrun, hout⟩ := inet6Loop_zeros hfl hfr hne hat (by omega)
      refine ⟨out, hrun, ?_⟩
      rw [List.nil_append, Nat.zero_add] at hout
      rw [List.flatMap_append, List.flatMap_append, flatMap_replicate]
      exact hout

theorem looseText_of_ngxInet6Addr {text : List UInt8} {buf : ℕ → UInt8} (h : ngxInet6Addr text buf ≠ none) :
    ∃ gs, LooseText (inet6Body text) gs := by
  have hne : text ≠ [] := by
    rintro rfl
    exact h rfl
  rw [ngxInet6Addr_body hne] at h
  obtain ⟨f, fs, hfs, hcolon⟩ := exists_fields colon (inet6Body text)
  rw [hfs] at h ⊢
  rcases inet6Loop_sound (List.cons_ne_nil f fs) hcolon (inet6Start_atField buf) (Nat.zero_le _)
    (fun d hd => by cases hd) h with ⟨gs, hgs, hlength⟩ | ⟨fl, fr, gl, gr, heq, hfl, hfr, hfr', hlength⟩
  · exact ⟨gs, LooseText.full hgs ((Nat.zero_add _).symm.trans hlength)⟩
  · rw [heq]
    exact ⟨_, LooseText.zeros hfl hfr hfr' (by omega)⟩

end NginxDtls
