import NginxDtls.StunGrammar

/-! `ngx_stun_parse` accepts exactly the messages of the grammar. The loop takes the attribute at its position,
and what is left of the message is an attribute list if and only if what follows that attribute is one. -/

namespace NginxDtls

open Memory Crc

/-! ### The last attribute of a kind -/

theorem lastOf_nil (attr : StunAttribute) : lastOf attr [] = none := rfl

theorem lastOf_cons (attr : StunAttribute) (x : Nat × StunTlv) (as : List (Nat × StunTlv)) :
    lastOf attr (x :: as) = (lastOf attr as).or (if x.2.Is attr then some x else none) := by
  simp only [lastOf, List.reverse_cons, List.find?_append]
  congr 1
  by_cases h : x.2.Is attr <;> simp [h]

theorem elim_lastOf_cons {β : Type} (attr : StunAttribute) (x : Nat × StunTlv) (as : List (Nat × StunTlv)) (d : β)
    (g : Nat × StunTlv → β) :
    (lastOf attr (x :: as)).elim d g = (lastOf attr as).elim ((lastOf attr [x]).elim d g) g := by
  rw [lastOf_cons, lastOf_cons, lastOf_nil]
  cases lastOf attr as <;> rfl

theorem lastOf_mem {attr : StunAttribute} {as : List (Nat × StunTlv)} {x : Nat × StunTlv}
    (h : lastOf attr as = some x) : x ∈ as ∧ x.2.Is attr := by
  refine ⟨List.mem_reverse.mp (List.mem_of_find?_eq_some h), ?_⟩
  simpa using List.find?_some h

/-! ### What the loop makes of a list -/

/-- The locals of the loop behind some attributes. -/
def stunAfter (st : StunParseState) (as : List (Nat × StunTlv)) : StunParseState where
  packet := stunFilled st.packet as
  hasMessageIntegrity := (lastOf .messageIntegrity as).elim st.hasMessageIntegrity fun _ => true
  hasFingerprint := (lastOf .fingerprint as).elim st.hasFingerprint fun _ => true
  fingerprintAttrPos := (lastOf .fingerprint as).elim st.fingerprintAttrPos fun x => x.1
  fingerprint := (lastOf .fingerprint as).elim st.fingerprint fun x => x.2.word32

theorem stunAfter_cons (st : StunParseState) (x : Nat × StunTlv) (as : List (Nat × StunTlv)) :
    stunAfter st (x :: as) = stunAfter (stunAfter st [x]) as := by
  simp only [stunAfter, stunFilled, elim_lastOf_cons _ x as]

/-- The rest of a message that the loop accepts in a state. -/
structure Admits (st : StunParseState) (as : List StunTlv) : Prop where
  closed : st.hasFingerprint = true → as = []
  closing : st.hasMessageIntegrity = true → ∀ a ∈ as, a.Is .fingerprint
  sizes : ∀ a ∈ as, a.SizeOk
  order : as.Pairwise StunTlv.MayPrecede

theorem stunAfter_hasFingerprint (st : StunParseState) (pos : Nat) (a : StunTlv) :
    (stunAfter st [(pos, a)]).hasFingerprint = true ↔ a.Is .fingerprint ∨ st.hasFingerprint = true := by
  simp only [stunAfter, lastOf_cons, lastOf_nil]
  by_cases h : a.Is .fingerprint <;> simp [h]

theorem stunAfter_hasMessageIntegrity (st : StunParseState) (pos : Nat) (a : StunTlv) :
    (stunAfter st [(pos, a)]).hasMessageIntegrity = true ↔
      a.Is .messageIntegrity ∨ st.hasMessageIntegrity = true := by
  simp only [stunAfter, lastOf_cons, lastOf_nil]
  by_cases h : a.Is .messageIntegrity <;> simp [h]

/-- The loop may check the list attribute by attribute. -/
theorem admits_cons {st : StunParseState} {pos : Nat} {a : StunTlv} {as : List StunTlv} :
    Admits st (a :: as) ↔ st.hasFingerprint = false ∧ (st.hasMessageIntegrity = true → a.Is .fingerprint) ∧
      a.SizeOk ∧ Admits (stunAfter st [(pos, a)]) as := by
  constructor
  · rintro ⟨hclosed, hclosing, hsizes, horder⟩
    obtain ⟨hfirst, hrest⟩ := List.pairwise_cons.mp horder
    have hopen : st.hasFingerprint = false := by
      by_contra h
      exact absurd (hclosed (by simpa using h)) (List.cons_ne_nil a as)
    refine ⟨hopen, fun h => hclosing h a List.mem_cons_self, hsizes a List.mem_cons_self, ?_, ?_, ?_, hrest⟩
    · intro h
      rcases (stunAfter_hasFingerprint st pos a).mp h with ha | hst
      · apply List.eq_nil_iff_forall_not_mem.mpr
        intro b hb
        exact (hfirst b hb).1 ha
      · exact absurd hst (by simp [hopen])
    · intro h b hb
      rcases (stunAfter_hasMessageIntegrity st pos a).mp h with ha | hst
      · exact (hfirst b hb).2 ha
      · exact hclosing hst b (List.mem_cons_of_mem _ hb)
    · intro b hb
      exact hsizes b (List.mem_cons_of_mem _ hb)
  · rintro ⟨hopen, hclosing, hsize, hclosed', hclosing', hsizes, horder⟩
    refine ⟨fun h => absurd h (by simp [hopen]), ?_, ?_, List.pairwise_cons.mpr ⟨?_, horder⟩⟩
    · intro h b hb
      rcases List.mem_cons.mp hb with rfl | hb
      · exact hclosing h
      · exact hclosing' ((stunAfter_hasMessageIntegrity st pos a).mpr (.inr h)) b hb
    · intro b hb
      rcases List.mem_cons.mp hb with rfl | hb
      · exact hsize
      · exact hsizes b hb
    · intro b hb
      constructor
      · intro ha
        have hnil := hclosed' ((stunAfter_hasFingerprint st pos a).mpr (.inl ha))
        exact absurd hb (by simp [hnil])
      · intro ha
        exact hclosing' ((stunAfter_hasMessageIntegrity st pos a).mpr (.inl ha)) b hb

/-! ### The cases of the switch -/

/-- The username array holds the last username. -/
def UsernameHeld (before after : Nat → UInt8) (as : List (Nat × StunTlv)) : Prop :=
  (lastOf .username as).elim (after = before) fun x => bytesAt after 0 x.2.value.length = x.2.value

/-- A case of the switch: it refuses a wrong length, and else it does what the attribute says. -/
def CaseRight (st : StunParseState) (pos : Nat) (s : Store ProbeObject) : Prop :=
  let a := tlvAt (s.bytes .packet) pos
  ∃ r s', stunAttributeCase st a.code (be16 (s.bytes .packet) (pos + 2)) pos s = (r, s') ∧
    s'.bytes .packet = s.bytes .packet ∧
    (a.SizeOk ∧ r = some (stunAfter st [(pos, a)]) ∧
      UsernameHeld (s.bytes .stunUsername) (s'.bytes .stunUsername) [(pos, a)] ∨ ¬a.SizeOk ∧ r = none)

theorem tlvAt_word32 {f : Nat → UInt8} {pos : Nat} (h : (tlvAt f pos).value.length = 4) :
    (tlvAt f pos).word32 = be32 f (pos + 4) := by
  have hn : (be16 f (pos + 2)).toNat = 4 := by simpa [tlvAt] using h
  have hget : ∀ k, k < 4 → bytesOf (tlvAt f pos).value k = f (pos + 4 + k) := fun k hk =>
    bytesOf_bytesAt (hn ▸ hk)
  simp only [StunTlv.word32, be32, hget 0 (by decide), hget (0 + 1) (by decide), hget (0 + 2) (by decide),
    hget (0 + 3) (by decide)]

theorem tlvAt_word64 {f : Nat → UInt8} {pos : Nat} (h : (tlvAt f pos).value.length = 8) :
    (tlvAt f pos).word64 = be64 f (pos + 4) := by
  have hn : (be16 f (pos + 2)).toNat = 8 := by simpa [tlvAt] using h
  have hget : ∀ k, k < 8 → bytesOf (tlvAt f pos).value k = f (pos + 4 + k) := fun k hk =>
    bytesOf_bytesAt (hn ▸ hk)
  simp only [StunTlv.word64, be64, be32, hget 0 (by decide), hget (0 + 1) (by decide), hget (0 + 2) (by decide),
    hget (0 + 3) (by decide), hget (0 + 4) (by decide), hget (0 + 4 + 1) (by decide), hget (0 + 4 + 2) (by decide),
    hget (0 + 4 + 3) (by decide)]

theorem tlvAt_error {f : Nat → UInt8} {pos : Nat} (h : 4 ≤ (tlvAt f pos).value.length) :
    (tlvAt f pos).error = (f (pos + 4 + 2)).toUInt16 * 100 + (f (pos + 4 + 3)).toUInt16 := by
  have hn : 4 ≤ (be16 f (pos + 2)).toNat := by simpa [tlvAt] using h
  have hget : ∀ k, k < 4 → bytesOf (tlvAt f pos).value k = f (pos + 4 + k) := fun k hk =>
    bytesOf_bytesAt (lt_of_lt_of_le hk hn)
  simp only [StunTlv.error, hget 2 (by decide), hget 3 (by decide)]


/-- The lengths that the kinds allow. -/
def StunAttribute.LengthOk : StunAttribute → Nat → Prop
  | .username, n => n ≤ stunUsernameSize - 1
  | .priority, n | .nomination, n | .fingerprint, n => n = 4
  | .iceControlling, n | .iceControlled, n => n = 8
  | .useCandidate, n => n = 0
  | .messageIntegrity, n => n = 20
  | .errorCode, n => 4 ≤ n
  | _, _ => True

theorem StunTlv.sizeOk_iff {a : StunTlv} {attr : StunAttribute} (h : a.Is attr) :
    a.SizeOk ↔ attr.LengthOk a.value.length := by
  have hcode : a.code = attr.code := h
  constructor
  · intro hok
    cases attr with
    | username => exact hok.username h
    | priority => exact hok.priority h
    | nomination => exact hok.nomination h
    | fingerprint => exact hok.fingerprint h
    | iceControlling => exact hok.iceControlling h
    | iceControlled => exact hok.iceControlled h
    | useCandidate => exact hok.useCandidate h
    | messageIntegrity => exact hok.messageIntegrity h
    | errorCode => exact hok.errorCode h
    | _ => trivial
  · intro hlen
    cases attr <;> constructor <;> intro hother <;>
      first
        | exact hlen
        | exact absurd (hcode.symm.trans hother) (by decide)

theorem StunAttribute.code_inj {a b : StunAttribute} (h : a.code = b.code) : a = b := by
  cases a <;> cases b <;> first | rfl | exact absurd h (by decide)

section Cases

variable {st : StunParseState} {pos : Nat} {s : Store ProbeObject}

/-- A case that leaves the memory as it is. -/
theorem caseRight_of (hname : ¬(tlvAt (s.bytes .packet) pos).Is .username) {r : Option StunParseState}
    (s' : Store ProbeObject) (hrun : stunAttributeCase st (tlvAt (s.bytes .packet) pos).code
      (be16 (s.bytes .packet) (pos + 2)) pos s = (r, s')) (hbytes : s'.bytes = s.bytes)
    (hr : (tlvAt (s.bytes .packet) pos).SizeOk ∧ r = some (stunAfter st [(pos, tlvAt (s.bytes .packet) pos)]) ∨
      ¬(tlvAt (s.bytes .packet) pos).SizeOk ∧ r = none) : CaseRight st pos s := by
  refine ⟨r, s', hrun, by rw [hbytes], ?_⟩
  rcases hr with ⟨hok, hr⟩ | hbad
  · refine .inl ⟨hok, hr, ?_⟩
    simp [UsernameHeld, lastOf_cons, lastOf_nil, hname, hbytes]
  · exact .inr hbad

/-- A kind whose values have one length. -/
theorem caseRight_fixed {attr : StunAttribute} (n : UInt16) (h : (tlvAt (s.bytes .packet) pos).Is attr)
    (hname : attr ≠ .username) (hlen : ∀ k, attr.LengthOk k ↔ k = n.toNat)
    (hrun : (tlvAt (s.bytes .packet) pos).value.length = n.toNat →
      ∃ s' : Store ProbeObject, s'.bytes = s.bytes ∧
        stunAttributeCase st attr.code n pos s = (some (stunAfter st [(pos, tlvAt (s.bytes .packet) pos)]), s'))
    (hrefuse : ∀ m, m ≠ n → stunAttributeCase st attr.code m pos s = (none, s)) : CaseRight st pos s := by
  have hcode : (tlvAt (s.bytes .packet) pos).code = attr.code := h
  have hn : (tlvAt (s.bytes .packet) pos).value.length = (be16 (s.bytes .packet) (pos + 2)).toNat :=
    bytesAt_length _ _ _
  have hother : ¬(tlvAt (s.bytes .packet) pos).Is .username := by
    rw [StunTlv.Is, hcode]
    intro heq
    exact hname (StunAttribute.code_inj heq)
  by_cases heq : be16 (s.bytes .packet) (pos + 2) = n
  · have hsize : (tlvAt (s.bytes .packet) pos).value.length = n.toNat := by rw [hn, heq]
    obtain ⟨s', hbytes, hcase⟩ := hrun hsize
    apply caseRight_of hother s' _ hbytes (.inl ⟨(StunTlv.sizeOk_iff h).mpr ((hlen _).mpr hsize), rfl⟩)
    rw [hcode, heq, hcase]
  · apply caseRight_of hother s _ rfl (.inr ⟨_, rfl⟩)
    · rw [hcode, hrefuse _ heq]
    · rw [StunTlv.sizeOk_iff h, hlen, hn]
      exact fun hsame => heq (UInt16.toNat_inj.mp hsame)

theorem caseRight_username (h : (tlvAt (s.bytes .packet) pos).Is .username) : CaseRight st pos s := by
  have hcode : (tlvAt (s.bytes .packet) pos).code = StunAttribute.username.code := h
  have hn : (tlvAt (s.bytes .packet) pos).value.length = (be16 (s.bytes .packet) (pos + 2)).toNat :=
    bytesAt_length _ _ _
  by_cases hbig : (be16 (s.bytes .packet) (pos + 2)).toNat ≥ stunUsernameSize
  · refine ⟨none, s, ?_, rfl, .inr ⟨?_, rfl⟩⟩
    · rw [stunAttributeCase, if_pos hcode, if_pos hbig]
      rfl
    · rw [StunTlv.sizeOk_iff h, hn, StunAttribute.LengthOk, stunUsernameSize]
      rw [stunUsernameSize] at hbig
      omega
  · refine ⟨_, _, by rw [stunAttributeCase, if_pos hcode, if_neg hbig], ?_, .inl ⟨?_, ?_, ?_⟩⟩
    · simp [ngxMemcpy, writeByte]
    · rw [StunTlv.sizeOk_iff h, hn, StunAttribute.LengthOk, stunUsernameSize]
      rw [stunUsernameSize] at hbig
      omega
    · simp [stunAfter, stunFilled, lastOf_cons, lastOf_nil, StunTlv.Is, hcode, StunAttribute.code, hn]
    · rw [UsernameHeld, lastOf_cons, lastOf_nil, if_pos h, Option.none_or, Option.elim_some]
      have hvalue : (tlvAt (s.bytes .packet) pos).value =
          bytesAt (s.bytes .packet) (pos + 4) (be16 (s.bytes .packet) (pos + 2)).toNat := rfl
      -- the terminating zero stands behind the name
      have hheld : Holds (overlay (overlay (s.bytes .stunUsername) 0
          ((tlvAt (s.bytes .packet) pos).value.map some)) (be16 (s.bytes .packet) (pos + 2)).toNat [some 0]) 0
          ((tlvAt (s.bytes .packet) pos).value.map some) := by
        refine (holds_overlay (s.bytes .stunUsername) 0 _).congr fun k _ hk => overlay_of_lt ?_
        simpa [hn] using hk
      simpa [ngxMemcpy, writeByte, hvalue] using holds_map_some hheld

theorem caseRight_errorCode (h : (tlvAt (s.bytes .packet) pos).Is .errorCode) : CaseRight st pos s := by
  have hcode : (tlvAt (s.bytes .packet) pos).code = StunAttribute.errorCode.code := h
  have hn : (tlvAt (s.bytes .packet) pos).value.length = (be16 (s.bytes .packet) (pos + 2)).toNat :=
    bytesAt_length _ _ _
  have hother : ¬(tlvAt (s.bytes .packet) pos).Is .username := by
    rw [StunTlv.Is, hcode]
    decide
  have hlt : be16 (s.bytes .packet) (pos + 2) < 4 ↔ ¬4 ≤ (tlvAt (s.bytes .packet) pos).value.length := by
    rw [hn, UInt16.lt_iff_toNat_lt, Nat.not_le]
    rfl
  by_cases hshort : be16 (s.bytes .packet) (pos + 2) < 4
  · apply caseRight_of hother s _ rfl (.inr ⟨_, rfl⟩)
    · simp [stunAttributeCase, hcode, StunAttribute.code, hshort]
    · rw [StunTlv.sizeOk_iff h]
      exact hlt.mp hshort
  · have hsize : 4 ≤ (tlvAt (s.bytes .packet) pos).value.length := not_not.mp (hlt.not.mp hshort)
    apply caseRight_of hother (ngxGet1Byte .packet (pos + 4 + 3) (ngxGet1Byte .packet (pos + 4 + 2) s).2).2
      _ rfl (.inl ⟨(StunTlv.sizeOk_iff h).mpr hsize, rfl⟩)
    simp [stunAttributeCase, hcode, StunAttribute.code, hshort, stunAfter, stunFilled, lastOf_cons, lastOf_nil,
      StunTlv.Is, tlvAt_error hsize]

/-- An attribute of no kind that the switch has a case for. -/
theorem caseRight_other (h : ∀ attr ∈ [StunAttribute.username, .priority, .iceControlling, .iceControlled,
    .useCandidate, .nomination, .messageIntegrity, .fingerprint, .errorCode],
      ¬(tlvAt (s.bytes .packet) pos).Is attr) : CaseRight st pos s := by
  simp only [List.mem_cons, List.not_mem_nil, or_false, forall_eq_or_imp, forall_eq] at h
  obtain ⟨h₁, h₂, h₃, h₄, h₅, h₆, h₇, h₈, h₉⟩ := h
  apply caseRight_of h₁ s _ rfl (.inl ⟨_, _⟩)
  · exact some st
  · simp only [StunTlv.Is] at h₁ h₂ h₃ h₄ h₅ h₆ h₇ h₈ h₉
    simp [stunAttributeCase, h₁, h₂, h₃, h₄, h₅, h₆, h₇, h₈, h₉]
  · constructor <;> intro hkind <;> contradiction
  · simp [stunAfter, stunFilled, lastOf_cons, lastOf_nil, h₁, h₂, h₃, h₄, h₅, h₆, h₇, h₈, h₉]

/-- Every case of the switch. -/
theorem caseRight (st : StunParseState) (pos : Nat) (s : Store ProbeObject) : CaseRight st pos s := by
  by_cases h₁ : (tlvAt (s.bytes .packet) pos).Is .username
  · exact caseRight_username h₁
  by_cases h₂ : (tlvAt (s.bytes .packet) pos).Is .priority
  · have hcode : (tlvAt (s.bytes .packet) pos).code = StunAttribute.priority.code := h₂
    apply caseRight_fixed 4 h₂ (by decide) (fun _ => Iff.rfl)
    · intro hlen
      refine ⟨(ngxGet4Bytes .packet (pos + 4) s).2, rfl, ?_⟩
      simp [stunAttributeCase, hcode, StunAttribute.code, stunAfter, stunFilled, lastOf_cons, lastOf_nil,
        StunTlv.Is, tlvAt_word32 hlen]
    · intro m hm
      simp [stunAttributeCase, StunAttribute.code, hm]
  by_cases h₃ : (tlvAt (s.bytes .packet) pos).Is .iceControlling
  · have hcode : (tlvAt (s.bytes .packet) pos).code = StunAttribute.iceControlling.code := h₃
    apply caseRight_fixed 8 h₃ (by decide) (fun _ => Iff.rfl)
    · intro hlen
      refine ⟨(ngxGet8Bytes .packet (pos + 4) s).2, rfl, ?_⟩
      simp [stunAttributeCase, hcode, StunAttribute.code, stunAfter, stunFilled, lastOf_cons, lastOf_nil,
        StunTlv.Is, tlvAt_word64 hlen]
    · intro m hm
      simp [stunAttributeCase, StunAttribute.code, hm]
  by_cases h₄ : (tlvAt (s.bytes .packet) pos).Is .iceControlled
  · have hcode : (tlvAt (s.bytes .packet) pos).code = StunAttribute.iceControlled.code := h₄
    apply caseRight_fixed 8 h₄ (by decide) (fun _ => Iff.rfl)
    · intro hlen
      refine ⟨(ngxGet8Bytes .packet (pos + 4) s).2, rfl, ?_⟩
      simp [stunAttributeCase, hcode, StunAttribute.code, stunAfter, stunFilled, lastOf_cons, lastOf_nil,
        StunTlv.Is, tlvAt_word64 hlen]
    · intro m hm
      simp [stunAttributeCase, StunAttribute.code, hm]
  by_cases h₅ : (tlvAt (s.bytes .packet) pos).Is .useCandidate
  · have hcode : (tlvAt (s.bytes .packet) pos).code = StunAttribute.useCandidate.code := h₅
    apply caseRight_fixed 0 h₅ (by decide) (fun _ => Iff.rfl)
    · intro hlen
      refine ⟨s, rfl, ?_⟩
      simp [stunAttributeCase, hcode, StunAttribute.code, stunAfter, stunFilled, lastOf_cons, lastOf_nil,
        StunTlv.Is]
    · intro m hm
      simp [stunAttributeCase, StunAttribute.code, hm]
  by_cases h₆ : (tlvAt (s.bytes .packet) pos).Is .nomination
  · have hcode : (tlvAt (s.bytes .packet) pos).code = StunAttribute.nomination.code := h₆
    apply caseRight_fixed 4 h₆ (by decide) (fun _ => Iff.rfl)
    · intro hlen
      refine ⟨(ngxGet4Bytes .packet (pos + 4) s).2, rfl, ?_⟩
      simp [stunAttributeCase, hcode, StunAttribute.code, stunAfter, stunFilled, lastOf_cons, lastOf_nil,
        StunTlv.Is, tlvAt_word32 hlen]
    · intro m hm
      simp [stunAttributeCase, StunAttribute.code, hm]
  by_cases h₇ : (tlvAt (s.bytes .packet) pos).Is .messageIntegrity
  · have hcode : (tlvAt (s.bytes .packet) pos).code = StunAttribute.messageIntegrity.code := h₇
    apply caseRight_fixed 20 h₇ (by decide) (fun _ => Iff.rfl)
    · intro hlen
      refine ⟨s, rfl, ?_⟩
      simp [stunAttributeCase, hcode, StunAttribute.code, stunAfter, stunFilled, lastOf_cons, lastOf_nil,
        StunTlv.Is]
    · intro m hm
      simp [stunAttributeCase, StunAttribute.code, hm]
  by_cases h₈ : (tlvAt (s.bytes .packet) pos).Is .fingerprint
  · have hcode : (tlvAt (s.bytes .packet) pos).code = StunAttribute.fingerprint.code := h₈
    apply caseRight_fixed 4 h₈ (by decide) (fun _ => Iff.rfl)
    · intro hlen
      refine ⟨(ngxGet4Bytes .packet (pos + 4) s).2, rfl, ?_⟩
      simp [stunAttributeCase, hcode, StunAttribute.code, stunAfter, stunFilled, lastOf_cons, lastOf_nil,
        StunTlv.Is, tlvAt_word32 hlen]
    · intro m hm
      simp [stunAttributeCase, StunAttribute.code, hm]
  by_cases h₉ : (tlvAt (s.bytes .packet) pos).Is .errorCode
  · exact caseRight_errorCode h₉
  · apply caseRight_other
    simp only [List.mem_cons, List.not_mem_nil, or_false, forall_eq_or_imp, forall_eq]
    exact ⟨h₁, h₂, h₃, h₄, h₅, h₆, h₇, h₈, h₉⟩

end Cases

/-! ### The loop -/

/-- The bytes from `pos` to `len` are the images of attributes that the loop accepts. -/
def Readable (f : Nat → UInt8) (len pos : Nat) (st : StunParseState) (as : List StunTlv) : Prop :=
  bytesAt f pos (len - pos) = as.flatMap StunTlv.image ∧ Admits st as

theorem readable_nil {f : Nat → UInt8} {len : Nat} {st : StunParseState} {as : List StunTlv} :
    Readable f len len st as ↔ as = [] := by
  constructor
  · rintro ⟨htile, -⟩
    cases as with
    | nil => rfl
    | cons a as =>
        have hlen := congrArg List.length htile
        rw [bytesAt_length, List.flatMap_cons, List.length_append, a.image_length] at hlen
        omega
  · rintro rfl
    refine ⟨by simp [bytesAt], fun _ => rfl, ?_, ?_, List.Pairwise.nil⟩
    · intro _ a ha
      exact absurd ha List.not_mem_nil
    · intro a ha
      exact absurd ha List.not_mem_nil

/-- A nonempty rest begins with the attribute at the position. -/
theorem readable_cons {f : Nat → UInt8} {len pos : Nat} {st : StunParseState} {as : List StunTlv}
    (hroom : pos < len) :
    Readable f len pos st as ↔ ∃ rest, as = tlvAt f pos :: rest ∧ pos + (tlvAt f pos).image.length ≤ len ∧
      st.hasFingerprint = false ∧ (st.hasMessageIntegrity = true → (tlvAt f pos).Is .fingerprint) ∧
      (tlvAt f pos).SizeOk ∧
      Readable f len (pos + (tlvAt f pos).image.length) (stunAfter st [(pos, tlvAt f pos)]) rest := by
  constructor
  · rintro ⟨htile, hadmits⟩
    cases as with
    | nil =>
        have hlen := congrArg List.length htile
        rw [bytesAt_length, List.flatMap_nil, List.length_nil] at hlen
        omega
    | cons a rest =>
        rw [List.flatMap_cons] at htile
        obtain rfl : tlvAt f pos = a := tlvAt_eq htile
        have hlen := congrArg List.length htile
        rw [bytesAt_length, List.length_append] at hlen
        have hfits : pos + (tlvAt f pos).image.length ≤ len := by omega
        obtain ⟨hopen, hclosing, hsize, hrest⟩ := admits_cons.mp hadmits
        refine ⟨rest, rfl, hfits, hopen, hclosing, hsize, ?_, hrest⟩
        rw [show len - pos = (tlvAt f pos).image.length + (len - (pos + (tlvAt f pos).image.length)) by omega,
          bytesAt_add, tlvAt_image] at htile
        exact List.append_cancel_left htile
  · rintro ⟨rest, rfl, hfits, hopen, hclosing, hsize, htile, hrest⟩
    refine ⟨?_, admits_cons.mpr ⟨hopen, hclosing, hsize, hrest⟩⟩
    rw [show len - pos = (tlvAt f pos).image.length + (len - (pos + (tlvAt f pos).image.length)) by omega,
      bytesAt_add, tlvAt_image, htile, List.flatMap_cons]

/-- How the loop ends: at the end of the message with the fields of its attributes, or with an error because
there is no such list. -/
def LoopRight (len pos : Nat) (st : StunParseState) (s : Store ProbeObject)
    (r : Option StunLoopEnd × Store ProbeObject) : Prop :=
  r.2.bytes .packet = s.bytes .packet ∧
    ((∃ as, Readable (s.bytes .packet) len pos st as ∧
        r.1 = some (.finished len (stunAfter st (placed pos as))) ∧
        UsernameHeld (s.bytes .stunUsername) (r.2.bytes .stunUsername) (placed pos as)) ∨
      ((∀ as, ¬Readable (s.bytes .packet) len pos st as) ∧ ∃ st', r.1 = some (.error st')))

theorem usernameHeld_cons {f g h : Nat → UInt8} {x : Nat × StunTlv} {as : List (Nat × StunTlv)}
    (hx : UsernameHeld f g [x]) (has : UsernameHeld g h as) : UsernameHeld f h (x :: as) := by
  rw [UsernameHeld, lastOf_cons]
  rw [UsernameHeld] at has
  cases hlast : lastOf .username as with
  | some y =>
      rw [hlast] at has
      exact has
  | none =>
      rw [hlast, Option.elim_none] at has
      rw [UsernameHeld, lastOf_cons, lastOf_nil] at hx
      rw [has]
      exact hx

theorem stunAttributes_right {len : Nat} (hmult : len % 4 = 0) (hmax : len < 65536) (fuel pos : Nat)
    (st : StunParseState) (s : Store ProbeObject) (halign : pos % 4 = 0) (hpos : pos ≤ len)
    (hfuel : len - pos < fuel) : LoopRight len pos st s (stunAttributes len fuel pos st s) := by
  induction fuel generalizing pos st s with
  | zero => exact absurd hfuel (Nat.not_lt_zero _)
  | succ fuel ih =>
      rw [stunAttributes]
      by_cases hroom : pos + 4 ≤ len
      · obtain ⟨f, hf⟩ : ∃ f, f = s.bytes .packet := ⟨_, rfl⟩
        obtain ⟨s₁, hget₁, hbytes₁⟩ := ngxGet2Bytes_run ProbeObject.packet pos s
        obtain ⟨s₂, hget₂, hbytes₂⟩ := ngxGet2Bytes_run ProbeObject.packet (pos + 2) s₁
        rw [hbytes₁] at hget₂ hbytes₂
        have hn : (tlvAt f pos).value.length = (be16 f (pos + 2)).toNat := bytesAt_length _ _ _
        have himage := (tlvAt f pos).image_length
        rw [hn] at himage
        have hread : ∀ as, Readable f len pos st as ↔ _ := fun _ => readable_cons (show pos < len by omega)
        have herror : (∀ as, ¬Readable f len pos st as) →
            LoopRight len pos st s (some (.error st), s₂) := by
          intro hnone
          rw [LoopRight, ← hf]
          exact ⟨by rw [hf, hbytes₂], .inr ⟨hnone, st, rfl⟩⟩
        rw [if_pos hroom, Mem.bind_run, hget₁, Mem.bind_run, hget₂]
        dsimp only
        rw [← hf]
        by_cases hlong : pos + 4 + (be16 f (pos + 2)).toNat > len
        · rw [if_pos hlong]
          apply herror
          intro as hrd
          obtain ⟨rest, -, hfits, -⟩ := (hread as).mp hrd
          omega
        rw [if_neg hlong]
        by_cases hfp : st.hasFingerprint = true
        · rw [if_pos hfp]
          apply herror
          intro as hrd
          obtain ⟨rest, -, -, hopen, -⟩ := (hread as).mp hrd
          exact absurd hfp (by simp [hopen])
        rw [if_neg hfp]
        by_cases hmi : st.hasMessageIntegrity = true ∧ be16 f pos ≠ StunAttribute.fingerprint.code
        · rw [if_pos hmi]
          apply herror
          intro as hrd
          obtain ⟨rest, -, -, -, hclosing, -⟩ := (hread as).mp hrd
          exact hmi.2 (hclosing hmi.1)
        rw [if_neg hmi, Mem.bind_run]
        obtain ⟨r, s₃, hcase, hpacket, hr⟩ := caseRight st pos s₂
        rw [hbytes₂, ← hf] at hcase hpacket hr
        rw [show be16 f pos = (tlvAt f pos).code by rfl, hcase]
        rcases hr with ⟨hsize, rfl, hname⟩ | ⟨hsize, rfl⟩
        · dsimp only
          have hnext : (ngxPadTo4BytesFrom2Bytes (UInt16.ofNat (pos + 4 + (be16 f (pos + 2)).toNat))).toNat =
              pos + (tlvAt f pos).image.length := by
            rw [pad_toNat, UInt16.toNat_ofNat', himage]
            omega
          rw [hnext]
          have hloop := ih (pos + (tlvAt f pos).image.length) (stunAfter st [(pos, tlvAt f pos)]) s₃
            (by omega) (by omega) (by omega)
          rw [LoopRight, hpacket] at hloop
          rw [LoopRight, ← hf]
          obtain ⟨hbytes, hloop⟩ := hloop
          refine ⟨hbytes, ?_⟩
          rcases hloop with ⟨rest, hrd, hfin, hheld⟩ | ⟨hnone, hend⟩
          · refine .inl ⟨tlvAt f pos :: rest, (hread _).mpr ⟨rest, rfl, by omega, by simpa using hfp, ?_, hsize, hrd⟩,
              ?_, usernameHeld_cons hname hheld⟩
            · intro hon
              by_contra hne
              exact hmi ⟨hon, hne⟩
            · rw [hfin, placed, ← stunAfter_cons]
          · refine .inr ⟨fun as hrd => ?_, hend⟩
            obtain ⟨rest, -, -, -, -, -, hrest⟩ := (hread as).mp hrd
            exact hnone rest hrest
        · rw [LoopRight, ← hf]
          refine ⟨hpacket, .inr ⟨fun as hrd => ?_, st, rfl⟩⟩
          obtain ⟨rest, -, -, -, -, hok, -⟩ := (hread as).mp hrd
          exact hsize hok
      · obtain rfl : pos = len := by omega
        rw [if_neg hroom]
        refine ⟨rfl, .inl ⟨[], readable_nil.mpr rfl, rfl, rfl⟩⟩

/-! ### The whole message -/

theorem tiles_unique {f : Nat → UInt8} {pos n : Nat} {as as' : List StunTlv}
    (h : bytesAt f pos n = as.flatMap StunTlv.image) (h' : bytesAt f pos n = as'.flatMap StunTlv.image) : as = as' := by
  induction as generalizing pos n as' with
  | nil =>
      have hlen := congrArg List.length (h.symm.trans h')
      cases as' with
      | nil => rfl
      | cons a as' =>
          rw [List.flatMap_nil, List.length_nil, List.flatMap_cons, List.length_append, a.image_length] at hlen
          omega
  | cons a as ih =>
      have heq := h.symm.trans h'
      cases as' with
      | nil =>
          have hlen := congrArg List.length heq
          rw [List.flatMap_nil, List.length_nil, List.flatMap_cons, List.length_append, a.image_length] at hlen
          omega
      | cons b bs =>
          rw [List.flatMap_cons] at h h'
          have hab : a = b := (tlvAt_eq h).symm.trans (tlvAt_eq h')
          subst hab
          have hrest : as.flatMap StunTlv.image = bs.flatMap StunTlv.image :=
            List.append_cancel_left (h.symm.trans h')
          have hsplit : n = a.image.length + (n - a.image.length) := by
            have hlen := congrArg List.length h
            rw [bytesAt_length, List.length_append] at hlen
            omega
          have htail : bytesAt f (pos + a.image.length) (n - a.image.length) = as.flatMap StunTlv.image := by
            rw [hsplit] at h
            rw [← bytesAt_drop, h, List.drop_left]
          rw [ih htail (htail.trans hrest)]

theorem placed_le {pos : Nat} {as : List StunTlv} {x : Nat × StunTlv} (h : x ∈ placed pos as) :
    x.1 ≤ pos + (as.flatMap StunTlv.image).length := by
  induction as generalizing pos with
  | nil => exact absurd h List.not_mem_nil
  | cons a as ih =>
      rw [List.flatMap_cons, List.length_append]
      rcases List.mem_cons.mp h with rfl | h
      · exact Nat.le_add_right _ _
      · have := ih h
        omega

/-- In an ordered list a fingerprint is the last attribute. -/
theorem lastOf_fingerprint {pos : Nat} {as : List StunTlv} (horder : as.Pairwise StunTlv.MayPrecede)
    {x : Nat × StunTlv} (hx : x ∈ placed pos as) (hfp : x.2.Is .fingerprint) :
    lastOf .fingerprint (placed pos as) = some x := by
  induction as generalizing pos with
  | nil => exact absurd hx List.not_mem_nil
  | cons a as ih =>
      obtain ⟨hfirst, hrest⟩ := List.pairwise_cons.mp horder
      rw [placed, lastOf_cons]
      rcases List.mem_cons.mp hx with rfl | hx
      · have hnil : as = [] := by
          apply List.eq_nil_iff_forall_not_mem.mpr
          intro b hb
          exact (hfirst b hb).1 hfp
        rw [hnil, placed, lastOf_nil, if_pos hfp, Option.none_or]
      · rw [ih hrest hx, Option.some_or]

theorem and_three_eq_zero (v : UInt16) : v &&& 0x03 = 0 ↔ v.toNat % 4 = 0 := by
  have hlow : (v &&& 0x03).toNat = v.toNat % 4 := by
    rw [UInt16.toNat_and]
    exact Nat.and_two_pow_sub_one_eq_mod v.toNat 2
  rw [← UInt16.toNat_inj, hlow]
  rfl

/-- The fingerprints of a message are right if and only if the one that the loop has kept is. -/
theorem fingerprints_iff {f : Nat → UInt8} {len : Nat} {as : List StunTlv} (horder : as.Pairwise StunTlv.MayPrecede)
    (hlen : 20 + (as.flatMap StunTlv.image).length ≤ len) :
    (∀ x ∈ placed 20 as, x.2.Is .fingerprint →
        x.2.word32 = crc32 ((bytesAt f 0 len).take x.1) ^^^ 0x5354554e) ↔
      ∀ x, lastOf .fingerprint (placed 20 as) = some x → x.2.word32 = crc32 (bytesAt f 0 x.1) ^^^ 0x5354554e := by
  have htake : ∀ x ∈ placed 20 as, (bytesAt f 0 len).take x.1 = bytesAt f 0 x.1 := by
    intro x hx
    have hle := placed_le hx
    rw [show len = x.1 + (len - x.1) by omega, bytesAt_take]
  constructor
  · intro h x hlast
    obtain ⟨hmem, hfp⟩ := lastOf_mem hlast
    rw [← htake x hmem]
    exact h x hmem hfp
  · intro h x hmem hfp
    rw [htake x hmem]
    exact h x (lastOf_fingerprint horder hmem hfp)

/-- The message is in the grammar if and only if its header fits, the loop finds its attributes, and the
fingerprint is right. -/
theorem stunMessage_iff {f : Nat → UInt8} {len : Nat} (hmin : 20 ≤ len) {as : List StunTlv} {p : StunPacket} :
    StunMessage (bytesAt f 0 len) as ↔ (be16 f 2).toNat = len - 20 ∧ be16 f 2 &&& 0x03 = 0 ∧
      Readable f len 20 { packet := p } as ∧
      ∀ x, lastOf .fingerprint (placed 20 as) = some x → x.2.word32 = crc32 (bytesAt f 0 x.1) ^^^ 0x5354554e := by
  have hlength : be16 (bytesOf (bytesAt f 0 len)) 2 = be16 f 2 := by
    rw [be16, be16, bytesOf_bytesAt (by omega), bytesOf_bytesAt (by omega), Nat.zero_add, Nat.zero_add]
  have hdrop : (bytesAt f 0 len).drop 20 = bytesAt f 20 (len - 20) := by
    rw [show len = 20 + (len - 20) by omega, bytesAt_drop]
    simp
  constructor
  · rintro ⟨hlen, hmult, htiles, hsizes, horder, hfp⟩
    rw [hlength, bytesAt_length] at hlen
    rw [bytesAt_length] at hmult
    rw [hdrop] at htiles
    have hsum := congrArg List.length htiles
    rw [bytesAt_length] at hsum
    refine ⟨hlen, (and_three_eq_zero _).mpr (by omega), ⟨htiles, ?_, ?_, hsizes, horder⟩,
      (fingerprints_iff horder (by omega)).mp hfp⟩
    · intro h
      exact absurd h Bool.false_ne_true
    · intro h
      exact absurd h Bool.false_ne_true
  · rintro ⟨hlen, hmult, ⟨htiles, hadmits⟩, hfp⟩
    have hmult' := (and_three_eq_zero _).mp hmult
    have hsum := congrArg List.length htiles
    rw [bytesAt_length] at hsum
    refine ⟨?_, ?_, ?_, hadmits.sizes, hadmits.order, (fingerprints_iff hadmits.order (by omega)).mpr hfp⟩
    · rw [hlength, bytesAt_length, hlen]
    · rw [bytesAt_length]
      omega
    · rw [hdrop, htiles]

/-- The tail accepts the message whose fingerprint is right. -/
theorem stunParseTail_right (len : Nat) (p : StunPacket) (as : List (Nat × StunTlv)) (s : Store ProbeObject) :
    ∃ r s', stunParseTail len len (stunAfter { packet := p } as) s =
        ((r, stunFilled p as), s') ∧ s'.bytes = s.bytes ∧ (r = .ok ∨ r = .error) ∧
      (r = .ok ↔ ∀ x, lastOf .fingerprint as = some x →
        x.2.word32 = crc32 (bytesAt (s.bytes .packet) 0 x.1) ^^^ 0x5354554e) := by
  rw [stunParseTail, if_neg (not_not.mpr rfl)]
  cases hlast : lastOf .fingerprint as with
  | none =>
      have hno : (stunAfter { packet := p } as).hasFingerprint = false := by simp [stunAfter, hlast]
      rw [if_neg (by simp [hno])]
      exact ⟨.ok, s, rfl, rfl, .inl rfl, by simp⟩
  | some x =>
      have hyes : (stunAfter { packet := p } as).hasFingerprint = true := by simp [stunAfter, hlast]
      have hpos : (stunAfter { packet := p } as).fingerprintAttrPos = x.1 := by simp [stunAfter, hlast]
      have hword : (stunAfter { packet := p } as).fingerprint = x.2.word32 := by simp [stunAfter, hlast]
      have hcrc := ngxGetCrc32_result ProbeObject.packet x.1 s
      rw [if_pos hyes, Mem.bind_run, hpos, hcrc, hword]
      by_cases hright : x.2.word32 = crc32 (bytesAt (s.bytes .packet) 0 x.1) ^^^ 0x5354554e
      · rw [if_neg (not_not.mpr hright)]
        exact ⟨.ok, _, rfl, rfl, .inl rfl, by simpa using hright⟩
      · rw [if_pos hright]
        exact ⟨.error, _, rfl, rfl, .inr rfl, by simpa using hright⟩

/-- What stands behind the attribute loop. -/
def stunParseEnd (len : Nat) : Option StunLoopEnd → Mem ProbeObject (Option (NgxInt × StunPacket))
  | none => pure none
  | some (.error st) => pure (some (.error, st.packet))
  | some (.finished pos st) => do
    let r ← stunParseTail len pos st
    pure (some r)

/-- A header whose length field is wrong is refused. -/
theorem ngxStunParse_refuses {p : StunPacket} {len : Nat} {s : Store ProbeObject} (hmin : 20 ≤ len)
    (hmax : len ≤ 65535)
    (hbad : ¬((be16 (s.bytes .packet) 2).toNat = len - 20 ∧ be16 (s.bytes .packet) 2 &&& 0x03 = 0)) :
    ∃ s', ngxStunParse p len s = (some (.error, p), s') := by
  obtain ⟨s₁, hget, hbytes⟩ := ngxGet2Bytes_run ProbeObject.packet 0 s
  obtain ⟨s₂, hget', -⟩ := ngxGet2Bytes_run ProbeObject.packet 2 s₁
  rw [hbytes] at hget'
  refine ⟨s₂, ?_⟩
  rw [ngxStunParse, Mem.bind_run, hget, Mem.bind_run, hget']
  dsimp only
  rw [if_pos, Mem.pure_run]
  by_contra hboth
  apply hbad
  rw [not_or, not_not, not_not] at hboth
  exact ⟨by omega, hboth.2⟩

/-- Behind a right header the loop runs over the rest. -/
theorem ngxStunParse_run {p : StunPacket} {len : Nat} {s : Store ProbeObject} (hmin : 20 ≤ len)
    (hmax : len ≤ 65535) (hlen : (be16 (s.bytes .packet) 2).toNat = len - 20)
    (hmult : be16 (s.bytes .packet) 2 &&& 0x03 = 0) :
    ∃ s₁ : Store ProbeObject, s₁.bytes = s.bytes ∧ ngxStunParse p len s =
      stunParseEnd len
        (stunAttributes len (len + 1) 20
          { packet := stunParsedHeader p (bytesOf (bytesAt (s.bytes .packet) 0 len)) } s₁).1
        (stunAttributes len (len + 1) 20
          { packet := stunParsedHeader p (bytesOf (bytesAt (s.bytes .packet) 0 len)) } s₁).2 := by
  have hbyte : ∀ k, k < 2 → bytesOf (bytesAt (s.bytes .packet) 0 len) k = s.bytes .packet k := by
    intro k hk
    rw [bytesOf_bytesAt (by omega), Nat.zero_add]
  obtain ⟨s₁, hget, hbytes⟩ := ngxGet2Bytes_run ProbeObject.packet 0 s
  obtain ⟨s₂, hget', hbytes'⟩ := ngxGet2Bytes_run ProbeObject.packet 2 s₁
  rw [hbytes] at hget' hbytes'
  refine ⟨(s₂.log ⟨.packet, 0, 1, false⟩).log ⟨.packet, 1, 1, false⟩, by simp [hbytes'], ?_⟩
  rw [ngxStunParse, Mem.bind_run, hget, Mem.bind_run, hget']
  dsimp only
  rw [if_neg, Mem.bind_run, Mem.bind_run, Mem.bind_run]
  · simp only [readByte_run, Store.log_bytes, hbytes', stunParsedHeader, be16, hbyte 0 (by decide),
      hbyte (0 + 1) (by decide)]
    rfl
  · rw [not_or, not_not, not_not]
    exact ⟨by omega, hmult⟩

/-- `ngx_stun_parse` ends, it accepts exactly the messages of the grammar, and then every field is that of the last
attribute of its kind. A loop that has ended has ended at the end of the message. -/
theorem ngxStunParse_accepts (p : StunPacket) (len : Nat) (s : Store ProbeObject) (hmin : 20 ≤ len)
    (hmax : len ≤ 65535) :
    ∃ r p' s', ngxStunParse p len s = (some (r, p'), s') ∧ (r = .ok ∨ r = .error) ∧
      (r = .ok ↔ ∃ as, StunMessage (bytesAt (s.bytes .packet) 0 len) as) ∧
      (r = .ok → ∀ as, StunMessage (bytesAt (s.bytes .packet) 0 len) as →
        p' = stunFilled (stunParsedHeader p (bytesOf (bytesAt (s.bytes .packet) 0 len))) (placed 20 as) ∧
        UsernameHeld (s.bytes .stunUsername) (s'.bytes .stunUsername) (placed 20 as)) ∧
      ((be16 (s.bytes .packet) 2).toNat = len - 20 → be16 (s.bytes .packet) 2 &&& 0x03 = 0 →
        ∀ st pos st', (stunAttributes len (len + 1) 20 st s).1 = some (.finished pos st') → pos = len) := by
  have hmsg : ∀ as, StunMessage (bytesAt (s.bytes .packet) 0 len) as ↔ _ := fun _ =>
    stunMessage_iff hmin (p := stunParsedHeader p (bytesOf (bytesAt (s.bytes .packet) 0 len)))
  by_cases hhead : (be16 (s.bytes .packet) 2).toNat = len - 20 ∧ be16 (s.bytes .packet) 2 &&& 0x03 = 0
  · obtain ⟨hlen, hmult⟩ := hhead
    have hloop : ∀ st s', LoopRight len 20 st s' (stunAttributes len (len + 1) 20 st s') := by
      intro st s'
      have := (and_three_eq_zero _).mp hmult
      exact stunAttributes_right (by omega) (by omega) _ _ _ _ (by omega) hmin (by omega)
    have hend : ∀ st pos st', (stunAttributes len (len + 1) 20 st s).1 = some (.finished pos st') → pos = len := by
      intro st pos st' hfin
      obtain ⟨-, ⟨as, -, hr, -⟩ | ⟨-, st'', hr⟩⟩ := hloop st s
      · obtain ⟨hpos, -⟩ : len = pos ∧ stunAfter st (placed 20 as) = st' := by simpa [hr] using hfin
        exact hpos.symm
      · simp [hr] at hfin
    obtain ⟨s₁, hbytes, hrun⟩ := ngxStunParse_run (p := p) hmin hmax hlen hmult
    obtain ⟨hpacket, ⟨as, hread, hr, hheld⟩ | ⟨hnone, st', hr⟩⟩ :=
      hloop { packet := stunParsedHeader p (bytesOf (bytesAt (s.bytes .packet) 0 len)) } s₁
    · rw [hbytes] at hread hheld hpacket
      rw [hr, stunParseEnd] at hrun
      obtain ⟨r, s', htail, hsame, hcases, hok⟩ := stunParseTail_right len
        (stunParsedHeader p (bytesOf (bytesAt (s.bytes .packet) 0 len))) (placed 20 as)
        (stunAttributes len (len + 1) 20
          { packet := stunParsedHeader p (bytesOf (bytesAt (s.bytes .packet) 0 len)) } s₁).2
      rw [hpacket] at hok
      rw [Mem.bind_run, htail] at hrun
      have huniq : ∀ as', StunMessage (bytesAt (s.bytes .packet) 0 len) as' → as' = as := by
        intro as' h'
        exact tiles_unique ((hmsg as').mp h').2.2.1.1 hread.1
      refine ⟨r, _, s', hrun, hcases, ?_, ?_, fun _ _ => hend⟩
      · constructor
        · intro h
          exact ⟨as, (hmsg as).mpr ⟨hlen, hmult, hread, hok.mp h⟩⟩
        · rintro ⟨as', h'⟩
          obtain rfl := huniq as' h'
          exact hok.mpr ((hmsg as').mp h').2.2.2
      · intro _ as' h'
        obtain rfl := huniq as' h'
        rw [hsame]
        exact ⟨rfl, hheld⟩
    · rw [hbytes] at hnone
      rw [hr, stunParseEnd] at hrun
      have hrefused : ∀ as, ¬StunMessage (bytesAt (s.bytes .packet) 0 len) as := fun as h =>
        hnone as ((hmsg as).mp h).2.2.1
      refine ⟨.error, _, _, hrun, .inr rfl, ?_, ?_, fun _ _ => hend⟩
      · simpa using hrefused
      · intro h
        exact absurd h (by decide)
  · obtain ⟨s', hrun⟩ := ngxStunParse_refuses (p := p) hmin hmax hhead
    refine ⟨.error, p, s', hrun, .inr rfl, ?_, ?_, fun hlen hmult => absurd ⟨hlen, hmult⟩ hhead⟩
    · have hrefused : ∀ as, ¬StunMessage (bytesAt (s.bytes .packet) 0 len) as := fun as h =>
        hhead ⟨((hmsg as).mp h).1, ((hmsg as).mp h).2.1⟩
      simpa using hrefused
    · intro h
      exact absurd h (by decide)

/-- A binding request with one attribute, PRIORITY 7. -/
def priorityRequest : List UInt8 :=
  [0, 1, 0, 8, 0x21, 0x12, 0xA4, 0x42, 0, 0, 0, 0, 0, 0, 0, 0, 0, 0, 0, 0, 0, 0x24, 0, 4, 0, 0, 0, 7]

theorem priorityRequest_message :
    StunMessage priorityRequest [⟨0x24, [0, 0, 0, 7], [], by decide, by decide⟩] := by
  constructor
  · decide
  · decide
  · decide
  · intro a ha
    obtain rfl := List.mem_singleton.mp ha
    have hkind : StunTlv.Is ⟨0x24, [0, 0, 0, 7], [], by decide, by decide⟩ .priority := rfl
    exact (StunTlv.sizeOk_iff hkind).mpr rfl
  · exact List.pairwise_singleton _ _
  · intro x hx hfp
    obtain rfl := List.mem_singleton.mp hx
    exact absurd hfp (by decide)

theorem ngxStunParse_priorityRequest :
    ∃ p' s', ngxStunParse {} 28 ⟨fun _ => bytesOf priorityRequest, []⟩ = (some (.ok, p'), s') ∧
      p'.klass = .request ∧ p'.method = stunBinding ∧ p'.priority = 7 := by
  obtain ⟨r, p', s', hrun, -, hok, hfields, -⟩ :=
    ngxStunParse_accepts {} 28 ⟨fun _ => bytesOf priorityRequest, []⟩ (by decide) (by decide)
  have hdata : bytesAt (bytesOf priorityRequest) 0 28 = priorityRequest := by decide
  rw [hdata] at hok hfields
  obtain rfl := hok.mpr ⟨_, priorityRequest_message⟩
  obtain ⟨rfl, -⟩ := hfields rfl _ priorityRequest_message
  exact ⟨_, s', hrun, by decide, by decide, by decide⟩

end NginxDtls
