import NginxDtls.InetRoundTrip

/-! The texts that are IPv4 addresses: four octets between dots, an octet having a digit at least. The loop of
`ngx_inet_addr` does not see where an octet begins, so that it takes an octet without digits for a zero. -/

namespace NginxDtls

open Text

/-! ### Texts as fields -/

/-- Every text is the join of fields without the separator. -/
theorem Text.exists_fields {α : Type} [DecidableEq α] (sep : α) (text : List α) :
    ∃ f fs, text = joinWith sep (f :: fs) ∧ ∀ x ∈ f :: fs, sep ∉ x := by
  induction text with
  | nil => exact ⟨[], [], rfl, fun x hx => by rw [List.mem_singleton.mp hx]; exact List.not_mem_nil⟩
  | cons c text ih =>
      obtain ⟨f, fs, rfl, hfs⟩ := ih
      by_cases hc : c = sep
      · subst hc
        refine ⟨[], f :: fs, (joinWith_cons (List.cons_ne_nil f fs) []).symm, fun x hx => ?_⟩
        rcases List.mem_cons.mp hx with rfl | hx
        · exact List.not_mem_nil
        · exact hfs x hx
      · refine ⟨c :: f, fs, ?_, fun x hx => ?_⟩
        · cases fs with
          | nil => rfl
          | cons y fs => rfl
        · rcases List.mem_cons.mp hx with rfl | hx
          · exact List.not_mem_cons_of_ne_of_not_mem (Ne.symm hc) (hfs f List.mem_cons_self)
          · exact hfs x (List.mem_cons_of_mem _ hx)

/-- A field without a separator is met whole. -/
theorem Text.joinWith_cons_eq {α : Type} {sep : α} (f : List α) (fs : List (List α)) :
    ∃ rest, joinWith sep (f :: fs) = f ++ rest ∧ (fs = [] ∧ rest = [] ∨ fs ≠ [] ∧ rest = sep :: joinWith sep fs) := by
  cases fs with
  | nil => exact ⟨[], (List.append_nil f).symm, Or.inl ⟨rfl, rfl⟩⟩
  | cons y fs => exact ⟨_, joinWith_cons (List.cons_ne_nil y fs) f, Or.inr ⟨List.cons_ne_nil y fs, rfl⟩⟩

/-! ### Octets -/

/-- A decimal digit. -/
def IsDecimal (c : UInt8) : Prop := 48 ≤ c ∧ c ≤ 57

instance : DecidablePred IsDecimal := fun c => inferInstanceAs (Decidable (48 ≤ c ∧ c ≤ 57))

/-- The number that the digits behind `n` make of it. -/
def decimalFrom (n : ℕ) (l : List UInt8) : ℕ := l.foldl (fun n c => n * 10 + (c.toNat - 48)) n

/-- Digits, or none, with the value of a byte. -/
structure Run (l : List UInt8) (a : UInt8) : Prop where
  decimal : ∀ c ∈ l, IsDecimal c
  value : decimalFrom 0 l = a.toNat

/-- A decimal octet. -/
structure Octet (l : List UInt8) (a : UInt8) : Prop extends Run l a where
  digits : l ≠ []

/-- The text is an IPv4 address, in dotted decimal. -/
def Quad (text : List UInt8) (a b c d : UInt8) : Prop :=
  ∃ octets, text = joinWith dot octets ∧ List.Forall₂ Octet octets [a, b, c, d]

/-- Dotted decimal in which octets may be left out. -/
def FourRuns (text : List UInt8) (a b c d : UInt8) : Prop :=
  ∃ runs, text = joinWith dot runs ∧ List.Forall₂ Run runs [a, b, c, d]

/-- Dotted decimal in which an octet is left out. -/
def EmptyOctet (text : List UInt8) : Prop :=
  ∃ runs as, text = joinWith dot runs ∧ List.Forall₂ Run runs as ∧ as.length = 4 ∧ [] ∈ runs

theorem IsDecimal.ne_dot {c : UInt8} (h : IsDecimal c) : c ≠ dot := by
  rintro rfl
  exact absurd h (by decide)

theorem IsDecimal.ne_colon {c : UInt8} (h : IsDecimal c) : c ≠ colon := by
  rintro rfl
  exact absurd h (by decide)

theorem Run.dot_notMem {l : List UInt8} {a : UInt8} (h : Run l a) : dot ∉ l := fun hm => (h.decimal dot hm).ne_dot rfl

theorem Run.of_mem {runs : List (List UInt8)} {as : List UInt8} (h : List.Forall₂ Run runs as) {l : List UInt8}
    (hl : l ∈ runs) : ∃ a, Run l a := by
  induction h with
  | nil => cases hl
  | cons hrun hruns ih =>
      rcases List.mem_cons.mp hl with rfl | hl
      · exact ⟨_, hrun⟩
      · exact ih hl

theorem decimalFrom_cons (n : ℕ) (c : UInt8) (l : List UInt8) :
    decimalFrom n (c :: l) = decimalFrom (n * 10 + (c.toNat - 48)) l := by
  rw [decimalFrom, List.foldl_cons, decimalFrom]

theorem le_decimalFrom (n : ℕ) (l : List UInt8) : n ≤ decimalFrom n l := by
  induction l generalizing n with
  | nil => exact le_refl n
  | cons c l ih =>
      have hgrow : n ≤ n * 10 + (c.toNat - 48) := by omega
      exact hgrow.trans (ih (n * 10 + (c.toNat - 48)))

/-- The fields of dotted decimal are determined by the text. -/
theorem runs_unique {runs runs' : List (List UInt8)} {as as' : List UInt8} (h : List.Forall₂ Run runs as)
    (h' : List.Forall₂ Run runs' as') (hne : as ≠ []) (hne' : as' ≠ []) (heq : joinWith dot runs = joinWith dot runs') :
    runs = runs' := by
  have hdot : ∀ {runs as}, List.Forall₂ Run runs as → ∀ x ∈ runs, dot ∉ x := by
    intro runs as h x hx
    obtain ⟨a, ha⟩ := Run.of_mem h hx
    exact ha.dot_notMem
  have hcons : ∀ {runs as}, List.Forall₂ Run runs as → as ≠ [] → runs ≠ [] := by
    rintro runs as h hne rfl
    exact hne (List.forall₂_nil_left_iff.mp h)
  exact joinWith_injective (hcons h hne) (hcons h' hne') (hdot h) (hdot h') heq

/-! ### The loop -/

/-- Digits are added to the octet. -/
theorem inetAddrLoop_run {l : List UInt8} (hl : ∀ c ∈ l, IsDecimal c) {octet : ℕ} (h : decimalFrom octet l ≤ 255)
    (rest : List UInt8) (addr : UInt32) (n : ℕ) :
    inetAddrLoop (l ++ rest) addr octet n = inetAddrLoop rest addr (decimalFrom octet l) n := by
  induction l generalizing octet with
  | nil => rfl
  | cons c l ih =>
      rw [decimalFrom_cons] at h ⊢
      have hle := le_decimalFrom (octet * 10 + (c.toNat - 48)) l
      have hc : 48 ≤ c ∧ c ≤ 57 := hl c List.mem_cons_self
      rw [List.cons_append, inetAddrLoop, if_pos hc, if_neg (by omega)]
      exact ih (fun c hc => hl c (List.mem_cons_of_mem _ hc)) h

theorem inetAddrLoop_dot (rest : List UInt8) (addr : UInt32) (octet n : ℕ) : inetAddrLoop (dot :: rest) addr octet n =
    inetAddrLoop rest ((addr <<< 8) + UInt32.ofNat octet) 0 (n + 1) := by
  have hdecimal : ¬((48 : UInt8) ≤ dot ∧ dot ≤ (57 : UInt8)) := by decide
  rw [inetAddrLoop, if_neg hdecimal, if_pos rfl]

/-- What a text is that the loop does not refuse. -/
theorem inetAddrLoop_sound {text : List UInt8} {addr : UInt32} {octet n : ℕ} (hoctet : octet ≤ 255)
    (h : inetAddrLoop text addr octet n ≠ inaddrNone) :
    ∃ l runs as, text = joinWith dot (l :: runs) ∧ (∀ c ∈ l, IsDecimal c) ∧ decimalFrom octet l ≤ 255 ∧
      List.Forall₂ Run runs as ∧ as.length + n = 3 := by
  induction text generalizing addr octet n with
  | nil =>
      rw [inetAddrLoop] at h
      have hn : n = 3 := by
        by_contra hn
        rw [if_neg hn] at h
        exact h rfl
      exact ⟨[], [], [], rfl, fun c hc => absurd hc List.not_mem_nil, hoctet, List.Forall₂.nil, by rw [hn]; rfl⟩
  | cons c text ih =>
      rw [inetAddrLoop] at h
      by_cases hdecimal : 48 ≤ c ∧ c ≤ 57
      · rw [if_pos hdecimal] at h
        by_cases hvalue : octet * 10 + (c.toNat - 48) > 255
        · rw [if_pos hvalue] at h
          exact absurd rfl h
        · rw [if_neg hvalue] at h
          obtain ⟨l, runs, as, rfl, hl, hle, hruns, hlength⟩ := ih (by omega) h
          refine ⟨c :: l, runs, as, ?_, fun x hx => ?_, hle, hruns, hlength⟩
          · cases runs with
            | nil => rfl
            | cons y runs => rfl
          · rcases List.mem_cons.mp hx with rfl | hx
            · exact hdecimal
            · exact hl x hx
      · rw [if_neg hdecimal] at h
        by_cases hdot : c = dot
        · rw [if_pos hdot] at h
          obtain ⟨l, runs, as, rfl, hl, hle, hruns, hlength⟩ := ih (Nat.zero_le _) h
          have hrun : Run l (UInt8.ofNat (decimalFrom 0 l)) :=
            ⟨hl, (UInt8.toNat_ofNat_of_lt' (by show _ < 2 ^ 8; omega)).symm⟩
          refine ⟨[], l :: runs, UInt8.ofNat (decimalFrom 0 l) :: as, ?_, fun x hx => absurd hx List.not_mem_nil, hoctet,
            List.Forall₂.cons hrun hruns, ?_⟩
          · rw [joinWith_cons (List.cons_ne_nil l runs), hdot]
            rfl
          · rw [List.length_cons]
            omega
        · rw [if_neg hdot] at h
          exact absurd rfl h

/-- Dotted decimal is read, with zeros for the octets that are left out. -/
theorem ngxInetAddr_fourRuns {text : List UInt8} {a b c d : UInt8} (h : FourRuns text a b c d) :
    ngxInetAddr text = quadAddr a b c d := by
  obtain ⟨runs, rfl, hruns⟩ := h
  rcases hruns with _ | ⟨h₁, hruns⟩
  rcases hruns with _ | ⟨h₂, hruns⟩
  rcases hruns with _ | ⟨h₃, hruns⟩
  rcases hruns with _ | ⟨h₄, hruns⟩
  obtain rfl := List.forall₂_nil_right_iff.mp hruns
  have hread : ∀ {r : List UInt8} {a : UInt8}, Run r a → ∀ (rest : List UInt8) (addr : UInt32) (n : ℕ),
      inetAddrLoop (r ++ rest) addr 0 n = inetAddrLoop rest addr a.toNat n := by
    intro r a h rest addr n
    have hle : decimalFrom 0 r ≤ 255 := by
      rw [h.value]
      exact Nat.le_of_lt_succ a.toNat_lt
    rw [inetAddrLoop_run h.decimal hle, h.value]
  have hlast := fun addr n => hread h₄ [] addr n
  simp only [List.append_nil] at hlast
  rw [ngxInetAddr, joinWith, joinWith, joinWith, joinWith, hread h₁, inetAddrLoop_dot, hread h₂, inetAddrLoop_dot,
    hread h₃, inetAddrLoop_dot, hlast, inetAddrLoop, if_pos rfl]
  have hquad := ngxInetAddr_sprintfQuad a b c d
  have hlast' := fun addr n => inetAddrLoop_octet d [] addr n
  simp only [List.append_nil] at hlast'
  rw [ngxInetAddr, sprintfQuad, joinWith, joinWith, joinWith, joinWith, inetAddrLoop_octet, inetAddrLoop_dot,
    inetAddrLoop_octet, inetAddrLoop_dot, inetAddrLoop_octet, inetAddrLoop_dot, hlast', inetAddrLoop, if_pos rfl] at hquad
  exact hquad

theorem exists_fourRuns {text : List UInt8} (h : ngxInetAddr text ≠ inaddrNone) : ∃ a b c d, FourRuns text a b c d := by
  obtain ⟨l, runs, as, rfl, hl, hle, hruns, hlength⟩ := inetAddrLoop_sound (Nat.zero_le _) h
  have hrun : Run l (UInt8.ofNat (decimalFrom 0 l)) :=
    ⟨hl, (UInt8.toNat_ofNat_of_lt' (by show _ < 2 ^ 8; omega)).symm⟩
  match as, hlength with
  | [b, c, d], _ => exact ⟨_, b, c, d, l :: runs, rfl, List.Forall₂.cons hrun hruns⟩

theorem Quad.runs {text : List UInt8} {a b c d : UInt8} (h : Quad text a b c d) : FourRuns text a b c d := by
  obtain ⟨octets, rfl, hoctets⟩ := h
  exact ⟨octets, rfl, hoctets.imp fun l a h => h.toRun⟩

theorem FourRuns.emptyOctet_or_quad {text : List UInt8} {a b c d : UInt8} (h : FourRuns text a b c d) :
    EmptyOctet text ∨ Quad text a b c d := by
  obtain ⟨runs, rfl, hruns⟩ := h
  by_cases hempty : [] ∈ runs
  · exact Or.inl ⟨runs, _, rfl, hruns, rfl, hempty⟩
  · refine Or.inr ⟨runs, rfl, ?_⟩
    have hboth := (List.forall₂_and_left (p := (· ≠ [])) runs _).mpr ⟨fun l hl hnil => hempty (hnil ▸ hl), hruns⟩
    exact hboth.imp fun l a h => ⟨h.2, h.1⟩

theorem EmptyOctet.runs {text : List UInt8} (h : EmptyOctet text) : ∃ a b c d, FourRuns text a b c d := by
  obtain ⟨runs, as, rfl, hruns, hlength, -⟩ := h
  match as, hlength with
  | [a, b, c, d], _ => exact ⟨a, b, c, d, runs, rfl, hruns⟩

/-- No text has an octet that is left out and has all its octets. -/
theorem EmptyOctet.not_quad {text : List UInt8} (h : EmptyOctet text) {a b c d : UInt8} : ¬Quad text a b c d := by
  rintro ⟨octets, heq, hoctets⟩
  obtain ⟨runs, as, rfl, hruns, hlength, hempty⟩ := h
  have hne : as ≠ [] := by
    rintro rfl
    cases hlength
  have hsame := runs_unique hruns (hoctets.imp fun l a h => h.toRun) hne (List.cons_ne_nil _ _) heq
  rw [hsame] at hempty
  exact (List.forall₂_and_left (p := (· ≠ [])) octets _).mp (hoctets.imp fun l a h => ⟨h.digits, h.toRun⟩) |>.1 [] hempty rfl

end NginxDtls
