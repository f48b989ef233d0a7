import NginxDtls.Inet6Fields

/-! Where `ngx_inet_addr` and `ngx_inet6_addr` depart from the text forms of an address. The texts that they should not accept
and those that they should are told by how they begin and how they end. -/

namespace NginxDtls

open Text

/-! ### What is said of the parsers -/

/-- `ngx_inet_addr` accepts the text if and only if it is an address, other than the broadcast one. -/
def InetExact (text : List UInt8) : Prop :=
  ngxInetAddr text ≠ inaddrNone ↔ ∃ a b c d, Quad text a b c d ∧ ¬(a = 255 ∧ b = 255 ∧ c = 255 ∧ d = 255)

/-- `ngx_inet6_addr` accepts the text if and only if it is an address, and leaves its bytes. -/
def Inet6Exact (text : List UInt8) : Prop :=
  ∀ buf, (∀ out, ngxInet6Addr text buf = some out → ∃ gs, Inet6Text text gs ∧ Begins out (gs.flatMap groupBytes)) ∧
    ∀ gs, Inet6Text text gs → ∃ out, ngxInet6Addr text buf = some out ∧ Begins out (gs.flatMap groupBytes)

/-! ### The departures -/

/-- The text begins with one colon. -/
def LeadingColon (text : List UInt8) : Prop := text.head? = some colon ∧ text.tail.head? ≠ some colon

/-- The text ends in one colon. -/
def TrailingColon (text : List UInt8) : Prop := ∃ t c, text = t ++ [c, colon] ∧ c ≠ colon

/-- A text of the loop's grammar that begins with one colon, ends in one, or leaves out an octet. -/
def Stray (text : List UInt8) : Prop :=
  (∃ gs, LooseText (inet6Body text) gs) ∧
    (LeadingColon text ∨ TrailingColon text ∨ ∃ pre f, text = pre ++ colon :: f ∧ EmptyOctet f)

/-- An address that ends in a `::` for a single group, in the broadcast address, or in dotted decimal whose first octet is
longer than a group. -/
def Missed (text : List UInt8) : Prop :=
  (∃ gs, Inet6Text text gs) ∧
    ((∃ fs gs, text = joinWith colon fs ++ [colon, colon] ∧ List.Forall₂ HexGroup fs gs ∧ gs.length = 7) ∨
      ∃ pre f a b c d, text = pre ++ colon :: f ∧ Quad f a b c d ∧
        ((a = 255 ∧ b = 255 ∧ c = 255 ∧ d = 255) ∨ 4 < (f.takeWhile (· ≠ dot)).length))

/-! ### The ends of a text -/

theorem last_field_unique {p q e f : List UInt8} (he : colon ∉ e) (hf : colon ∉ f) (h : p ++ colon :: e = q ++ colon :: f) :
    e = f := by
  have hreverse := congrArg List.reverse h
  rw [List.reverse_append, List.reverse_append, List.reverse_cons, List.reverse_cons, List.append_assoc,
    List.append_assoc] at hreverse
  have hsame := append_sep_inj (fun hm => he (List.mem_reverse.mp hm)) (fun hm => hf (List.mem_reverse.mp hm)) hreverse
  exact List.reverse_injective hsame.1

theorem Run.colon_notMem {l : List UInt8} {a : UInt8} (h : Run l a) : colon ∉ l := fun hm =>
  (h.decimal colon hm).ne_colon rfl

theorem joinWith_colon_notMem {runs : List (List UInt8)} {as : List UInt8} (h : List.Forall₂ Run runs as) :
    colon ∉ joinWith dot runs := by
  induction h with
  | nil => exact List.not_mem_nil
  | @cons r a runs as hrun hruns ih =>
      obtain ⟨rest, heq, hrest⟩ := @joinWith_cons_eq _ dot r runs
      rw [heq, List.mem_append, not_or]
      refine ⟨hrun.colon_notMem, ?_⟩
      rcases hrest with ⟨-, rfl⟩ | ⟨-, rfl⟩
      · exact List.not_mem_nil
      · exact List.not_mem_cons_of_ne_of_not_mem (by decide) ih

theorem Quad.colon_notMem {f : List UInt8} {a b c d : UInt8} (h : Quad f a b c d) : colon ∉ f := by
  obtain ⟨runs, rfl, hruns⟩ := h.runs
  exact joinWith_colon_notMem hruns

theorem EmptyOctet.colon_notMem {f : List UInt8} (h : EmptyOctet f) : colon ∉ f := by
  obtain ⟨a, b, c, d, runs, rfl, hruns⟩ := h.runs
  exact joinWith_colon_notMem hruns

theorem FourRuns.dot_mem {f : List UInt8} {a b c d : UInt8} (h : FourRuns f a b c d) : dot ∈ f := by
  obtain ⟨runs, rfl, hruns⟩ := h
  rcases hruns with _ | ⟨h₁, hruns⟩
  rcases hruns with _ | ⟨h₂, hruns⟩
  rw [joinWith]
  exact List.mem_append_right _ List.mem_cons_self

theorem Loose.runs {f : List UInt8} {gs : List ℕ} (h : Loose f gs) : ∃ a b c d, FourRuns f a b c d := by
  obtain ⟨r, runs, a, b, c, d, heq, hruns, -⟩ := h
  exact ⟨a, b, c, d, r :: runs, heq, hruns⟩

theorem Loose.colon_notMem {f : List UInt8} {gs : List ℕ} (h : Loose f gs) : colon ∉ f := by
  obtain ⟨a, b, c, d, runs, rfl, hruns⟩ := h.runs
  exact joinWith_colon_notMem hruns

/-- Dotted decimal does not begin with a dot. -/
theorem Quad.ne_nil {f : List UInt8} {a b c d : UInt8} (h : Quad f a b c d) : f ≠ [] :=
  List.ne_nil_of_mem h.runs.dot_mem

/-- The text has a last field behind a colon. -/
def EndsIn (text f : List UInt8) : Prop := ∃ q, text = q ++ colon :: f

theorem EndsIn.unique {text e f : List UInt8} (he : EndsIn text e) (hf : EndsIn text f) (hcolon : colon ∉ e)
    (hcolon' : colon ∉ f) : e = f := by
  obtain ⟨p, hp⟩ := he
  obtain ⟨q, hq⟩ := hf
  exact last_field_unique hcolon hcolon' (hp.symm.trans hq)

theorem EndsIn.append {text f : List UInt8} (h : EndsIn text f) (pre : List UInt8) : EndsIn (pre ++ text) f := by
  obtain ⟨q, rfl⟩ := h
  exact ⟨pre ++ q, (List.append_assoc pre q _).symm⟩

theorem EndsIn.trailing {text f : List UInt8} (h : EndsIn text f) (hne : f ≠ []) (hcolon : colon ∉ f) :
    ¬TrailingColon text := by
  rintro ⟨t, c, rfl, -⟩
  have hend : EndsIn (t ++ [c, colon]) [] := ⟨t ++ [c], (List.append_assoc t [c] [colon]).symm⟩
  exact hne (h.unique hend hcolon List.not_mem_nil)

/-- The last field of a list of fields behind a colon. -/
theorem Fields.endsIn {last : List UInt8 → List ℕ → Prop} {fs : List (List UInt8)} {gs : List ℕ} (h : Fields last fs gs)
    (hne : fs ≠ []) : ∃ f, EndsIn (colon :: joinWith colon fs) f ∧ ((∃ g, HexGroup f g) ∨ ∃ gs, last f gs) := by
  induction h with
  | nil => exact absurd rfl hne
  | @last f gs h => exact ⟨f, ⟨[], rfl⟩, Or.inr ⟨gs, h⟩⟩
  | @cons f g fs gs h hfs ih =>
      by_cases hnil : fs = []
      · subst hnil
        exact ⟨f, ⟨[], rfl⟩, Or.inl ⟨g, h⟩⟩
      · obtain ⟨e, hend, hkind⟩ := ih hnil
        rw [joinWith_cons hnil]
        exact ⟨e, hend.append (colon :: f), hkind⟩

/-- The kind of the last field is changed where the text allows it. -/
theorem Fields.imp {last last' : List UInt8 → List ℕ → Prop} {fs : List (List UInt8)} {gs : List ℕ}
    (h : Fields last fs gs) (himp : ∀ f gs, EndsIn (colon :: joinWith colon fs) f → last f gs → last' f gs) :
    Fields last' fs gs := by
  induction h with
  | nil => exact Fields.nil
  | @last f gs h => exact Fields.last (himp f gs ⟨[], rfl⟩ h)
  | @cons f g fs gs h hfs ih =>
      by_cases hnil : fs = []
      · subst hnil
        cases hfs
        exact Fields.cons h Fields.nil
      · refine Fields.cons h (ih fun e gs hend hlast => himp e gs ?_ hlast)
        rw [joinWith_cons hnil]
        exact hend.append (colon :: f)

/-! ### The beginning of a text -/

theorem inet6Body_of_head {text : List UInt8} (h : text.head? ≠ some colon) : inet6Body text = text := if_neg h

theorem inet6Body_colon (rest : List UInt8) : inet6Body (colon :: rest) = rest := if_pos rfl

theorem HexGroup.head {f : List UInt8} {g : ℕ} (h : HexGroup f g) (rest : List UInt8) :
    (f ++ rest).head? ≠ some colon := by
  obtain ⟨c, f', rfl⟩ := List.exists_cons_of_ne_nil h.digits
  intro hc
  exact h.colon_notMem (Option.some.inj hc ▸ List.mem_cons_self)

/-- Behind a text that begins with one colon, there is none. -/
theorem eq_inet6Body {text : List UInt8} (hlead : ¬LeadingColon text) (hhead : (inet6Body text).head? ≠ some colon) :
    text = inet6Body text := by
  by_cases hc : text.head? = some colon
  · rw [inet6Body, if_pos hc] at hhead
    exact absurd ⟨hc, hhead⟩ hlead
  · exact (inet6Body_of_head hc).symm

theorem joinWith_append {l m : List (List UInt8)} (hl : l ≠ []) (hm : m ≠ []) :
    joinWith colon (l ++ m) = joinWith colon l ++ colon :: joinWith colon m := by
  induction l with
  | nil => exact absurd rfl hl
  | cons x l ih =>
      by_cases hnil : l = []
      · subst hnil
        exact joinWith_cons hm x
      · rw [List.cons_append, joinWith_cons (List.append_ne_nil_of_left_ne_nil hnil m), ih hnil, joinWith_cons hnil,
          List.append_assoc]
        rfl

/-- Eight groups are more than the last field has. -/
theorem Fields.first {last : List UInt8 → List ℕ → Prop} {fs : List (List UInt8)} {gs : List ℕ} (h : Fields last fs gs)
    (hlast : ∀ f gs, last f gs → gs.length = 2) (hlength : gs.length = 8) :
    ∃ f g fs' gs', fs = f :: fs' ∧ gs = g :: gs' ∧ HexGroup f g ∧ Fields last fs' gs' ∧ fs' ≠ [] := by
  cases h with
  | nil => cases hlength
  | last h =>
      have htwo := hlast _ _ h
      omega
  | @cons f g fs gs hf hfs =>
      refine ⟨f, g, fs, gs, rfl, rfl, hf, hfs, ?_⟩
      rintro rfl
      cases hfs
      cases hlength

theorem Loose.length {f : List UInt8} {gs : List ℕ} (h : Loose f gs) : gs.length = 2 := by
  obtain ⟨r, runs, a, b, c, d, -, -, -, -, -, rfl⟩ := h
  rfl

theorem Dotted.length {f : List UInt8} {gs : List ℕ} (h : Dotted f gs) : gs.length = 2 := by
  obtain ⟨a, b, c, d, -, rfl⟩ := h
  rfl

/-- In front of an empty field, with the first colon that is passed over. -/
theorem zeros_text {text : List UInt8} {fl fr : List (List UInt8)} {gl : List ℕ} (hfl : List.Forall₂ HexGroup fl gl)
    (hfr : fr ≠ []) (hlead : ¬LeadingColon text) (h : inet6Body text = joinWith colon (fl ++ [] :: fr)) :
    text = joinWith colon fl ++ colon :: colon :: joinWith colon fr := by
  have hempty : joinWith colon ([] :: fr) = colon :: joinWith colon fr := joinWith_cons hfr []
  cases hfl with
  | nil =>
      rw [List.nil_append, hempty] at h
      by_cases hc : text.head? = some colon
      · rw [inet6Body, if_pos hc] at h
        cases text with
        | nil => cases hc
        | cons c rest =>
            rw [Option.some.inj hc]
            exact congrArg (colon :: ·) h
      · rw [inet6Body_of_head hc] at h
        rw [h] at hc
        exact absurd rfl hc
  | @cons f g fl gl hf hfl =>
      have happend := joinWith_append (List.cons_ne_nil f fl) (List.cons_ne_nil [] fr)
      rw [hempty] at happend
      rw [happend] at h
      obtain ⟨rest, heq, -⟩ := @joinWith_cons_eq _ colon f fl
      have hhead : (inet6Body text).head? ≠ some colon := by
        rw [h, heq, List.append_assoc]
        exact hf.head _
      exact (eq_inet6Body hlead hhead).trans h

/-- The same, from the text. -/
theorem inet6Body_zeros {fl fr : List (List UInt8)} {gl : List ℕ} (hfl : List.Forall₂ HexGroup fl gl) (hfr : fr ≠ []) :
    inet6Body (joinWith colon fl ++ colon :: colon :: joinWith colon fr) = joinWith colon (fl ++ [] :: fr) := by
  have hempty : joinWith colon ([] :: fr) = colon :: joinWith colon fr := joinWith_cons hfr []
  cases hfl with
  | nil =>
      rw [List.nil_append, hempty]
      exact inet6Body_colon _
  | @cons f g fl gl hf hfl =>
      rw [joinWith_append (List.cons_ne_nil f fl) (List.cons_ne_nil [] fr), hempty]
      obtain ⟨rest, heq, -⟩ := @joinWith_cons_eq _ colon f fl
      rw [heq, List.append_assoc]
      exact inet6Body_of_head (hf.head _)

/-! ### Accepted texts that are addresses -/

theorem Loose.dotted {f : List UInt8} {gs : List ℕ} (h : Loose f gs) (hempty : ¬EmptyOctet f) : Dotted f gs := by
  obtain ⟨r, runs, a, b, c, d, heq, hruns, -, -, -, rfl⟩ := h
  exact ⟨a, b, c, d, (FourRuns.emptyOctet_or_quad ⟨r :: runs, heq, hruns⟩).resolve_left hempty, rfl⟩

/-- Behind an empty field there is nothing, or what the text forms allow. -/
theorem Fields.behind {fs : List (List UInt8)} {gs : List ℕ} (h : Fields LooseEnd fs gs) {pre : List UInt8}
    (htrail : ¬TrailingColon (pre ++ colon :: joinWith colon fs))
    (hempty : ∀ f, EndsIn (colon :: joinWith colon fs) f → ¬EmptyOctet f) :
    fs = [[]] ∧ gs = [0] ∨ Fields Dotted fs gs := by
  induction h generalizing pre with
  | nil => exact Or.inr Fields.nil
  | @last f gs h =>
      rcases h with hloose | ⟨rfl, rfl⟩
      · exact Or.inr (Fields.last (hloose.dotted (hempty f ⟨[], rfl⟩)))
      · exact Or.inl ⟨rfl, rfl⟩
  | @cons f g fs gs hf hfs ih =>
      by_cases hnil : fs = []
      · subst hnil
        cases hfs
        exact Or.inr (Fields.cons hf Fields.nil)
      · rw [joinWith_cons hnil] at htrail hempty
        have hsplit : pre ++ colon :: (f ++ colon :: joinWith colon fs) =
            (pre ++ colon :: f) ++ colon :: joinWith colon fs := (List.append_assoc pre (colon :: f) _).symm
        rw [hsplit] at htrail
        rcases ih htrail (fun e hend => hempty e (hend.append (colon :: f))) with ⟨rfl, -⟩ | hdotted
        · -- one colon behind a group
          refine absurd ⟨pre ++ colon :: f.dropLast, f.getLast hf.digits, ?_, fun heq => ?_⟩ htrail
          · have hlast := List.dropLast_concat_getLast hf.digits
            calc pre ++ colon :: f ++ [colon]
                = pre ++ colon :: (f.dropLast ++ [f.getLast hf.digits]) ++ [colon] := by rw [hlast]
              _ = pre ++ colon :: f.dropLast ++ [f.getLast hf.digits, colon] := by
                simp only [List.append_assoc, List.cons_append, List.nil_append]
          · exact hf.colon_notMem (heq ▸ List.getLast_mem hf.digits)
        · exact Or.inr (Fields.cons hf hdotted)

theorem replicate_concat {n : ℕ} (hn : n ≤ 6) : List.replicate (8 - (n + 1)) 0 ++ [0] = List.replicate (8 - n) 0 := by
  have hsucc : 8 - n = 8 - (n + 1) + 1 := by omega
  rw [hsucc, List.replicate_succ']

theorem LooseText.inet6Text {text : List UInt8} {gs : List ℕ} (h : LooseText (inet6Body text) gs)
    (hlead : ¬LeadingColon text) (htrail : ¬TrailingColon text) (hempty : ∀ f, EndsIn text f → ¬EmptyOctet f) :
    Inet6Text text gs := by
  generalize hbody : inet6Body text = body at h
  cases h with
  | @full fs gs hfs hlength =>
      obtain ⟨f, g, fs, gs, rfl, rfl, hf, hfs, hnil⟩ := hfs.first (fun f gs h => h.length) hlength
      have hhead : (inet6Body text).head? ≠ some colon := by
        rw [hbody, joinWith_cons hnil]
        exact hf.head _
      obtain rfl : text = joinWith colon (f :: fs) := (eq_inet6Body hlead hhead).trans hbody
      refine Inet6Text.full (Fields.cons hf (hfs.imp fun e gs hend hloose => hloose.dotted (hempty e ?_))) hlength
      rw [joinWith_cons hnil]
      exact hend.append f
  | @zeros fl fr gl gr hfl hfr hne hlength =>
      obtain rfl := zeros_text hfl hne hlead hbody
      have hsplit : joinWith colon fl ++ colon :: colon :: joinWith colon fr =
          (joinWith colon fl ++ [colon]) ++ colon :: joinWith colon fr := (List.append_assoc _ [colon] _).symm
      have hend : ∀ f, EndsIn (colon :: joinWith colon fr) f → ¬EmptyOctet f := fun f hend => by
        refine hempty f ?_
        rw [hsplit]
        exact hend.append _
      rw [hsplit] at htrail
      rcases hfr.behind htrail hend with ⟨rfl, rfl⟩ | hdotted
      · rw [List.length_singleton] at hlength ⊢
        rw [replicate_concat (by omega)]
        have hform := Inet6Text.zeros hfl (@Fields.nil Dotted) (by rw [List.length_nil]; omega)
        rw [List.append_nil] at hform
        exact hform
      · exact Inet6Text.zeros hfl hdotted hlength

/-! ### Addresses that are accepted -/

/-- Dotted decimal that the loop takes. -/
theorem Quad.loose {f : List UInt8} {a b c d : UInt8} (h : Quad f a b c d)
    (hnot : ¬(a = 255 ∧ b = 255 ∧ c = 255 ∧ d = 255)) (hfirst : (f.takeWhile (· ≠ dot)).length ≤ 4) :
    Loose f (quadGroups a b c d) := by
  obtain ⟨octets, rfl, hoctets⟩ := h
  have hruns := hoctets.imp fun l a (h : Octet l a) => h.toRun
  obtain ⟨r, y, l, rfl, hr⟩ : ∃ r y l, octets = r :: y :: l ∧ Octet r a := by
    rcases hoctets with _ | ⟨h₁, _ | ⟨-, -⟩⟩
    exact ⟨_, _, _, rfl, h₁⟩
  refine ⟨r, y :: l, a, b, c, d, rfl, hruns, hr.digits, ?_, hnot, rfl⟩
  have htake : (joinWith dot (r :: y :: l)).takeWhile (· ≠ dot) = r := by
    have hall : ∀ c ∈ r, decide (c ≠ dot) = true := fun c hc => decide_eq_true (hr.decimal c hc).ne_dot
    rw [joinWith, List.takeWhile_append_of_pos hall, List.takeWhile_cons_of_neg (by simp), List.append_nil]
  rwa [htake] at hfirst

theorem Fields.endsIn_imp {fs : List (List UInt8)} {gs : List ℕ} (h : Fields Dotted fs gs) {text : List UInt8}
    (hend : ∀ e, EndsIn (colon :: joinWith colon fs) e → EndsIn text e)
    (hquad : ∀ f a b c d, EndsIn text f → Quad f a b c d →
      ¬(a = 255 ∧ b = 255 ∧ c = 255 ∧ d = 255) ∧ (f.takeWhile (· ≠ dot)).length ≤ 4) : Fields Loose fs gs := by
  refine h.imp fun e gs he hdotted => ?_
  obtain ⟨a, b, c, d, hq, rfl⟩ := hdotted
  obtain ⟨hnot, hfirst⟩ := hquad e a b c d (hend e he) hq
  exact hq.loose hnot hfirst

theorem Fields.looseEnd {fs : List (List UInt8)} {gs : List ℕ} (h : Fields Loose fs gs) : Fields LooseEnd fs gs :=
  h.imp fun _ _ _ hloose => Or.inl hloose

theorem Inet6Text.looseText {text : List UInt8} {gs : List ℕ} (h : Inet6Text text gs)
    (hseven : ¬∃ fs gs, text = joinWith colon fs ++ [colon, colon] ∧ List.Forall₂ HexGroup fs gs ∧ gs.length = 7)
    (hquad : ∀ f a b c d, EndsIn text f → Quad f a b c d →
      ¬(a = 255 ∧ b = 255 ∧ c = 255 ∧ d = 255) ∧ (f.takeWhile (· ≠ dot)).length ≤ 4) :
    LooseText (inet6Body text) gs := by
  cases h with
  | @full fs gs hfs hlength =>
      obtain ⟨f, g, fs, gs, rfl, rfl, hf, hfs, hnil⟩ := hfs.first (fun f gs h => h.length) hlength
      have htext : joinWith colon (f :: fs) = f ++ colon :: joinWith colon fs := joinWith_cons hnil f
      have hhead : (joinWith colon (f :: fs)).head? ≠ some colon := by
        rw [htext]
        exact hf.head _
      rw [inet6Body_of_head hhead]
      refine LooseText.full (Fields.cons hf (hfs.endsIn_imp (fun e hend => ?_) hquad)) hlength
      rw [htext]
      exact hend.append f
  | @zeros fl fr gl gr hfl hfr hlength =>
      by_cases hnil : fr = []
      · subst hnil
        cases hfr
        rw [List.length_nil] at hlength ⊢
        have hsix : gl.length ≤ 6 := by
          by_contra hmore
          exact hseven ⟨fl, gl, rfl, hfl, by omega⟩
        have hzeros := inet6Body_zeros hfl (List.cons_ne_nil ([] : List UInt8) [])
        have hone : joinWith colon [([] : List UInt8)] = [] := rfl
        have hnone : joinWith colon ([] : List (List UInt8)) = [] := rfl
        rw [hone] at hzeros
        rw [hnone, hzeros]
        have hloose := LooseText.zeros hfl (Fields.last (Or.inr ⟨rfl, rfl⟩)) (List.cons_ne_nil ([] : List UInt8) [])
          (show gl.length + [0].length ≤ 7 by rw [List.length_singleton]; omega)
        rw [List.length_singleton, replicate_concat hsix] at hloose
        rw [List.append_nil]
        exact hloose
      · rw [inet6Body_zeros hfl hnil]
        refine LooseText.zeros hfl (hfr.endsIn_imp (fun e hend => ?_) hquad).looseEnd hnil hlength
        exact (hend.append [colon]).append (joinWith colon fl)

/-! ### Texts of one kind only -/

/-- How an address ends. -/
theorem Inet6Text.endsIn {text : List UInt8} {gs : List ℕ} (h : Inet6Text text gs) :
    (∃ q, text = q ++ [colon, colon]) ∨
      ∃ f, EndsIn text f ∧ ((∃ g, HexGroup f g) ∨ ∃ a b c d, Quad f a b c d) := by
  have hkind : ∀ {f : List UInt8}, ((∃ g, HexGroup f g) ∨ ∃ gs, Dotted f gs) →
      (∃ g, HexGroup f g) ∨ ∃ a b c d, Quad f a b c d := by
    rintro f (hgroup | ⟨gs, a, b, c, d, hq, -⟩)
    · exact Or.inl hgroup
    · exact Or.inr ⟨a, b, c, d, hq⟩
  cases h with
  | @full fs gs hfs hlength =>
      obtain ⟨f, g, fs, gs, rfl, rfl, hf, hfs, hnil⟩ := hfs.first (fun f gs h => h.length) hlength
      obtain ⟨e, hend, he⟩ := hfs.endsIn hnil
      rw [joinWith_cons hnil]
      exact Or.inr ⟨e, hend.append f, hkind he⟩
  | @zeros fl fr gl gr hfl hfr hlength =>
      by_cases hnil : fr = []
      · subst hnil
        exact Or.inl ⟨joinWith colon fl, rfl⟩
      · obtain ⟨e, hend, he⟩ := hfr.endsIn hnil
        exact Or.inr ⟨e, (hend.append [colon]).append (joinWith colon fl), hkind he⟩

theorem Inet6Text.not_leadingColon {text : List UInt8} {gs : List ℕ} (h : Inet6Text text gs) : ¬LeadingColon text := by
  rintro ⟨hhead, htail⟩
  cases h with
  | @full fs gs hfs hlength =>
      obtain ⟨f, g, fs, gs, rfl, rfl, hf, hfs, hnil⟩ := hfs.first (fun f gs h => h.length) hlength
      rw [joinWith_cons hnil] at hhead
      exact hf.head _ hhead
  | @zeros fl fr gl gr hfl hfr hlength =>
      cases hfl with
      | nil => exact htail rfl
      | @cons f g fl gl hf hfl =>
          obtain ⟨rest, heq, -⟩ := @joinWith_cons_eq _ colon f fl
          rw [heq, List.append_assoc] at hhead
          exact hf.head _ hhead

theorem Inet6Text.not_trailingColon {text : List UInt8} {gs : List ℕ} (h : Inet6Text text gs) :
    ¬TrailingColon text := by
  rcases h.endsIn with ⟨q, rfl⟩ | ⟨f, hend, ⟨g, hg⟩ | ⟨a, b, c, d, hq⟩⟩
  · rintro ⟨t, c, heq, hc⟩
    have hlast : [colon, colon] = [c, colon] := by
      have hlength : [colon, colon].length = [c, colon].length := rfl
      exact (List.append_inj' heq hlength).2
    exact hc (List.cons.inj hlast).1.symm
  · exact hend.trailing hg.digits hg.colon_notMem
  · exact hend.trailing hq.ne_nil hq.colon_notMem

theorem Inet6Text.not_emptyOctet {text : List UInt8} {gs : List ℕ} (h : Inet6Text text gs) {f : List UInt8}
    (hf : EndsIn text f) : ¬EmptyOctet f := by
  intro hempty
  obtain ⟨a, b, c, d, hruns⟩ := hempty.runs
  rcases h.endsIn with ⟨q, rfl⟩ | ⟨e, hend, ⟨g, hg⟩ | ⟨a, b, c, d, hq⟩⟩
  · have hnil : EndsIn (q ++ [colon, colon]) [] := ⟨q ++ [colon], (List.append_assoc q [colon] [colon]).symm⟩
    have hsame := hf.unique hnil hempty.colon_notMem List.not_mem_nil
    subst hsame
    exact absurd hruns.dot_mem List.not_mem_nil
  · have hsame := hf.unique hend hempty.colon_notMem hg.colon_notMem
    subst hsame
    exact hg.dot_notMem hruns.dot_mem
  · have hsame := hf.unique hend hempty.colon_notMem hq.colon_notMem
    subst hsame
    exact hempty.not_quad hq

/-- How a text ends that the loop accepts. -/
theorem LooseText.endsIn {text : List UInt8} {gs : List ℕ} (h : LooseText text gs) :
    ∃ f, EndsIn text f ∧ ((∃ g, HexGroup f g) ∨ ∃ gs, LooseEnd f gs) := by
  cases h with
  | @full fs gs hfs hlength =>
      obtain ⟨f, g, fs, gs, rfl, rfl, hf, hfs, hnil⟩ := hfs.first (fun f gs h => h.length) hlength
      obtain ⟨e, hend, he⟩ := hfs.looseEnd.endsIn hnil
      rw [joinWith_cons hnil]
      exact ⟨e, hend.append f, he⟩
  | @zeros fl fr gl gr hfl hfr hne hlength =>
      obtain ⟨e, hend, he⟩ := hfr.endsIn hne
      refine ⟨e, ?_, he⟩
      have hempty : joinWith colon ([] :: fr) = colon :: joinWith colon fr := joinWith_cons hne []
      by_cases hnil : fl = []
      · subst hnil
        rw [List.nil_append, hempty]
        exact hend
      · rw [joinWith_append hnil (List.cons_ne_nil _ _), hempty]
        exact (hend.append [colon]).append (joinWith colon fl)

theorem EndsIn.of_inet6Body {text f : List UInt8} (h : EndsIn (inet6Body text) f) : EndsIn text f := by
  by_cases hc : text.head? = some colon
  · cases text with
    | nil => cases hc
    | cons c rest =>
        rw [inet6Body, if_pos hc] at h
        exact h.append [c]
  · rwa [inet6Body_of_head hc] at h

theorem Loose.of_quad {f : List UInt8} {gs : List ℕ} (h : Loose f gs) {a b c d : UInt8} (hq : Quad f a b c d) :
    ¬(a = 255 ∧ b = 255 ∧ c = 255 ∧ d = 255) ∧ (f.takeWhile (· ≠ dot)).length ≤ 4 := by
  obtain ⟨r, runs, a', b', c', d', rfl, hruns, -, hlength, hnot, -⟩ := h
  have haddr := (ngxInetAddr_fourRuns ⟨r :: runs, rfl, hruns⟩).symm.trans (ngxInetAddr_fourRuns hq.runs)
  refine ⟨fun hall => hnot ((quadAddr_eq_none a' b' c' d').mp (haddr.trans ((quadAddr_eq_none a b c d).mpr hall))), ?_⟩
  obtain ⟨rest, heq, hrest⟩ := @joinWith_cons_eq _ dot r runs
  have hrun : Run r a' := by
    cases hruns with
    | cons hrun _ => exact hrun
  have hall : ∀ c ∈ r, decide (c ≠ dot) = true := fun c hc => decide_eq_true (hrun.decimal c hc).ne_dot
  rw [heq, List.takeWhile_append_of_pos hall]
  rcases hrest with ⟨-, rfl⟩ | ⟨-, rfl⟩
  · rwa [List.takeWhile_nil, List.append_nil]
  · rwa [List.takeWhile_cons_of_neg (by simp), List.append_nil]

theorem LooseText.not_quad {text : List UInt8} {gs : List ℕ} (h : LooseText (inet6Body text) gs) {f : List UInt8}
    (hf : EndsIn text f) {a b c d : UInt8} (hq : Quad f a b c d) :
    ¬(a = 255 ∧ b = 255 ∧ c = 255 ∧ d = 255) ∧ (f.takeWhile (· ≠ dot)).length ≤ 4 := by
  obtain ⟨e, hend, ⟨g, hg⟩ | ⟨gs, hloose | ⟨rfl, -⟩⟩⟩ := h.endsIn
  · have hsame := hf.unique hend.of_inet6Body hq.colon_notMem hg.colon_notMem
    subst hsame
    exact absurd hq.runs.dot_mem hg.dot_notMem
  · have hsame := hf.unique hend.of_inet6Body hq.colon_notMem hloose.colon_notMem
    subst hsame
    exact hloose.of_quad hq
  · have hsame := hf.unique hend.of_inet6Body hq.colon_notMem List.not_mem_nil
    exact absurd hsame hq.ne_nil

theorem HexGroup.of_mem {fs : List (List UInt8)} {gs : List ℕ} (h : List.Forall₂ HexGroup fs gs) {f : List UInt8}
    (hf : f ∈ fs) : ∃ g, HexGroup f g := by
  induction h with
  | nil => cases hf
  | cons hgroup hgroups ih =>
      rcases List.mem_cons.mp hf with rfl | hf
      · exact ⟨_, hgroup⟩
      · exact ih hf

theorem Fields.mem {last : List UInt8 → List ℕ → Prop} {fs : List (List UInt8)} {gs : List ℕ} (h : Fields last fs gs)
    {f : List UInt8} (hf : f ∈ fs) : (∃ g, HexGroup f g) ∨ ∃ gs, last f gs := by
  induction h with
  | nil => cases hf
  | @last f' gs h =>
      rw [List.mem_singleton.mp hf]
      exact Or.inr ⟨gs, h⟩
  | @cons f' g fs gs h hfs ih =>
      rcases List.mem_cons.mp hf with rfl | hf
      · exact Or.inl ⟨g, h⟩
      · exact ih hf

theorem Loose.ne_nil {f : List UInt8} {gs : List ℕ} (h : Loose f gs) : f ≠ [] := by
  obtain ⟨a, b, c, d, hruns⟩ := h.runs
  exact List.ne_nil_of_mem hruns.dot_mem

/-- Nothing at the end is a group of its own for the loop, so that there are eight with seven others. -/
theorem LooseText.not_seven {fs : List (List UInt8)} {gs : List ℕ} (hfs : List.Forall₂ HexGroup fs gs)
    (hseven : gs.length = 7) {gs' : List ℕ} : ¬LooseText (inet6Body (joinWith colon fs ++ [colon, colon])) gs' := by
  have hlength : fs.length = 7 := hfs.length_eq.trans hseven
  have hne : fs ≠ [] := by
    rintro rfl
    cases hlength
  have hgroup : ∀ f ∈ fs, colon ∉ f ∧ f ≠ [] := fun f hf => by
    obtain ⟨g, hg⟩ := HexGroup.of_mem hfs hf
    exact ⟨hg.colon_notMem, hg.digits⟩
  have hbody := inet6Body_zeros hfs (List.cons_ne_nil ([] : List UInt8) [])
  have hone : joinWith colon [([] : List UInt8)] = [] := rfl
  rw [hone] at hbody
  rw [hbody]
  have hcolon : ∀ f ∈ fs ++ [[], []], colon ∉ f := fun f hf => by
    rcases List.mem_append.mp hf with hf | hf
    · exact (hgroup f hf).1
    · have hnil : f = [] := by simpa using hf
      rw [hnil]
      exact List.not_mem_nil
  have hfields : fs ++ [[], []] ≠ [] := List.append_ne_nil_of_left_ne_nil hne _
  have hend : ∀ {f : List UInt8} {gs : List ℕ}, LooseEnd f gs → colon ∉ f := by
    rintro f gs (hloose | ⟨rfl, -⟩)
    · exact hloose.colon_notMem
    · exact List.not_mem_nil
  intro h
  generalize htext : joinWith colon (fs ++ [[], []]) = text at h
  cases h with
  | @full fs' gs' hfs' hlength' =>
      have hkind : ∀ f ∈ fs', colon ∉ f ∧ f ≠ [] := fun f hf => by
        rcases hfs'.mem hf with ⟨g, hg⟩ | ⟨gs, hloose⟩
        · exact ⟨hg.colon_notMem, hg.digits⟩
        · exact ⟨hloose.colon_notMem, hloose.ne_nil⟩
      have hne' : fs' ≠ [] := by
        rintro rfl
        cases hfs'
        cases hlength'
      have hsame := joinWith_injective hfields hne' hcolon (fun f hf => (hkind f hf).1) htext
      exact (hkind [] (hsame ▸ List.mem_append_right _ List.mem_cons_self)).2 rfl
  | @zeros fl fr gl gr hfl hfr hne' hlength' =>
      have hleft : ∀ f ∈ fl, colon ∉ f ∧ f ≠ [] := fun f hf => by
        obtain ⟨g, hg⟩ := HexGroup.of_mem hfl hf
        exact ⟨hg.colon_notMem, hg.digits⟩
      have hcolon' : ∀ f ∈ fl ++ [] :: fr, colon ∉ f := fun f hf => by
        rcases List.mem_append.mp hf with hf | hf
        · exact (hleft f hf).1
        · rcases List.mem_cons.mp hf with rfl | hf
          · exact List.not_mem_nil
          · rcases hfr.mem hf with ⟨g, hg⟩ | ⟨gs, hgs⟩
            · exact hg.colon_notMem
            · exact hend hgs
      have hsame := joinWith_injective hfields (List.append_ne_nil_of_right_ne_nil _ (List.cons_ne_nil _ _)) hcolon hcolon'
        htext
      -- the first empty field is in the same place
      obtain ⟨rfl, rfl⟩ := @append_sep_inj _ [] _ _ _ _ (fun hm => (hgroup [] hm).2 rfl)
        (fun hm => (hleft [] hm).2 rfl) hsame
      have hgl : gl.length = 7 := hfl.length_eq.symm.trans hlength
      have hgr : gr ≠ [] := by
        rintro rfl
        cases hfr with
        | last h =>
            rcases h with hloose | ⟨-, hnil⟩
            · exact hloose.ne_nil rfl
            · cases hnil
      have hpos : 0 < gr.length := List.length_pos_iff.mpr hgr
      omega

/-! ### Where the parsers are exact -/

theorem inetExact_iff (text : List UInt8) : InetExact text ↔ ¬EmptyOctet text := by
  constructor
  · rintro hexact hempty
    obtain ⟨a, b, c, d, hruns⟩ := hempty.runs
    have haddr := ngxInetAddr_fourRuns hruns
    have hnot : ¬(a = 255 ∧ b = 255 ∧ c = 255 ∧ d = 255) := by
      rintro ⟨rfl, rfl, rfl, rfl⟩
      -- an octet that is left out is a zero
      obtain ⟨runs, heq, hforall⟩ := hruns
      obtain ⟨runs', as', heq', hforall', hlength', hmem⟩ := hempty
      have hne' : as' ≠ [] := by
        rintro rfl
        cases hlength'
      have hsame := runs_unique hforall hforall' (List.cons_ne_nil _ _) hne' (heq.symm.trans heq')
      subst hsame
      have hzero : ∀ l ∈ runs, decimalFrom 0 l = 255 := by
        have hvalue := hforall.imp fun l a (h : Run l a) => h.value
        rcases hvalue with _ | ⟨h₁, _ | ⟨h₂, _ | ⟨h₃, _ | ⟨h₄, hnil⟩⟩⟩⟩
        obtain rfl := List.forall₂_nil_right_iff.mp hnil
        intro l hl
        simp only [List.mem_cons, List.not_mem_nil, or_false] at hl
        rcases hl with rfl | rfl | rfl | rfl
        · exact h₁
        · exact h₂
        · exact h₃
        · exact h₄
      exact absurd (hzero [] hmem) (by decide)
    have hsome : ngxInetAddr text ≠ inaddrNone := fun hnone =>
      hnot ((quadAddr_eq_none a b c d).mp (haddr.symm.trans hnone))
    obtain ⟨a', b', c', d', hquad, -⟩ := hexact.mp hsome
    exact hempty.not_quad hquad
  · intro hempty
    constructor
    · intro hsome
      obtain ⟨a, b, c, d, hruns⟩ := exists_fourRuns hsome
      refine ⟨a, b, c, d, hruns.emptyOctet_or_quad.resolve_left hempty, fun hall => hsome ?_⟩
      exact (ngxInetAddr_fourRuns hruns).trans ((quadAddr_eq_none a b c d).mpr hall)
    · rintro ⟨a, b, c, d, hquad, hnot⟩ hnone
      exact hnot ((quadAddr_eq_none a b c d).mp ((ngxInetAddr_fourRuns hquad.runs).symm.trans hnone))

theorem inet6Exact_iff (text : List UInt8) : Inet6Exact text ↔ ¬Stray text ∧ ¬Missed text := by
  constructor
  · intro hexact
    obtain ⟨hsound, hcomplete⟩ := hexact fun _ => 0
    constructor
    · rintro ⟨⟨gs, hloose⟩, hstray⟩
      obtain ⟨out, hout, -⟩ := ngxInet6Addr_loose hloose fun _ => 0
      obtain ⟨gs', hform, -⟩ := hsound out hout
      rcases hstray with hlead | htrail | ⟨pre, f, heq, hempty⟩
      · exact hform.not_leadingColon hlead
      · exact hform.not_trailingColon htrail
      · exact hform.not_emptyOctet ⟨pre, heq⟩ hempty
    · rintro ⟨⟨gs, hform⟩, hmissed⟩
      obtain ⟨out, hout, -⟩ := hcomplete gs hform
      obtain ⟨gs', hloose⟩ := looseText_of_ngxInet6Addr (fun hnone => by rw [hnone] at hout; cases hout)
      rcases hmissed with ⟨fs, gs₁, rfl, hfs, hseven⟩ | ⟨pre, f, a, b, c, d, heq, hquad, hkind⟩
      · exact LooseText.not_seven hfs hseven hloose
      · obtain ⟨hnot, hfirst⟩ := hloose.not_quad ⟨pre, heq⟩ hquad
        rcases hkind with hall | hlong
        · exact hnot hall
        · omega
  · rintro ⟨hstray, hmissed⟩ buf
    constructor
    · intro out hout
      obtain ⟨gs, hloose⟩ := looseText_of_ngxInet6Addr (fun hnone => by rw [hnone] at hout; cases hout)
      have hform : Inet6Text text gs := hloose.inet6Text
        (fun hlead => hstray ⟨⟨gs, hloose⟩, Or.inl hlead⟩)
        (fun htrail => hstray ⟨⟨gs, hloose⟩, Or.inr (Or.inl htrail)⟩)
        (fun f hend hempty => hstray ⟨⟨gs, hloose⟩, Or.inr (Or.inr (by
          obtain ⟨pre, heq⟩ := hend
          exact ⟨pre, f, heq, hempty⟩))⟩)
      obtain ⟨out', hout', hbytes⟩ := ngxInet6Addr_loose hloose buf
      rw [hout] at hout'
      exact ⟨gs, hform, Option.some.inj hout' ▸ hbytes⟩
    · intro gs hform
      refine ngxInet6Addr_loose (hform.looseText (fun hseven => hmissed ⟨⟨gs, hform⟩, Or.inl hseven⟩) ?_) buf
      rintro f a b c d ⟨pre, heq⟩ hquad
      constructor
      · exact fun hall => hmissed ⟨⟨gs, hform⟩, Or.inr ⟨pre, f, a, b, c, d, heq, hquad, Or.inl hall⟩⟩
      · by_contra hlong
        exact hmissed ⟨⟨gs, hform⟩, Or.inr ⟨pre, f, a, b, c, d, heq, hquad, Or.inr (by omega)⟩⟩

/-- The parsers accept the text forms of an address and no other text, with the bytes of the address, if and only if the
text is none of those they are mistaken in. -/
theorem inet_exact_iff (text : List UInt8) :
    InetExact text ∧ Inet6Exact text ↔ ¬EmptyOctet text ∧ ¬Stray text ∧ ¬Missed text := by
  rw [inetExact_iff, inet6Exact_iff]

/-- `1..2.3` is read as an address, and so is `:1:2:3:4:5:6:7:8`. -/
theorem inet_exact_stray : ¬InetExact [49, 46, 46, 50, 46, 51] ∧
    ¬Inet6Exact [58, 49, 58, 50, 58, 51, 58, 52, 58, 53, 58, 54, 58, 55, 58, 56] := by
  constructor
  · intro hexact
    obtain ⟨a, b, c, d, hquad, -⟩ := hexact.mp (by decide)
    have hdigit : ∀ {c a : UInt8}, IsDecimal c → decimalFrom 0 [c] = a.toNat → Run [c] a := fun hc hvalue =>
      ⟨fun x hx => List.mem_singleton.mp hx ▸ hc, hvalue⟩
    have hempty : EmptyOctet [49, 46, 46, 50, 46, 51] :=
      ⟨[[49], [], [50], [51]], [1, 0, 2, 3], rfl,
        .cons (hdigit (by decide) rfl) (.cons ⟨fun x hx => absurd hx List.not_mem_nil, rfl⟩
          (.cons (hdigit (by decide) rfl) (.cons (hdigit (by decide) rfl) .nil))), rfl, by simp⟩
    exact hempty.not_quad hquad
  · intro hexact
    have hsome : (ngxInet6Addr [58, 49, 58, 50, 58, 51, 58, 52, 58, 53, 58, 54, 58, 55, 58, 56] fun _ => 0).isSome := by
      decide
    obtain ⟨out, hout⟩ := Option.isSome_iff_exists.mp hsome
    obtain ⟨gs, hform, -⟩ := (hexact _).1 out hout
    exact hform.not_leadingColon ⟨rfl, by decide⟩

end NginxDtls
