import NginxDtls.InetGrammar

/-! The texts that are IPv6 addresses: eight groups of hexadecimal digits, or fewer of them with a `::` for the others, and
dotted decimal for the last two. Next to them stand the texts that `ngx_inet6_addr` accepts, as its loop goes from field to
field. -/

namespace NginxDtls

open Text

/-! ### The text forms -/

/-- The value of a hexadecimal digit of either case. -/
def hexVal (c : UInt8) : Option ℕ :=
  if 48 ≤ c ∧ c ≤ 57 then some (c.toNat - 48)
  else if 97 ≤ c ∧ c ≤ 102 then some (c.toNat - 87)
  else if 65 ≤ c ∧ c ≤ 70 then some (c.toNat - 55)
  else none

/-- The number that the digits behind `n` make of it. -/
def hexFrom (n : ℕ) (l : List UInt8) : ℕ := l.foldl (fun n c => n * 16 + (hexVal c).getD 0) n

/-- A group of one to four hexadecimal digits. -/
structure HexGroup (f : List UInt8) (g : ℕ) : Prop where
  digits : f ≠ []
  length : f.length ≤ 4
  hex : ∀ c ∈ f, (hexVal c).isSome
  value : hexFrom 0 f = g

/-- Fields that are groups, but for the last one, which may be of another kind. -/
inductive Fields (last : List UInt8 → List ℕ → Prop) : List (List UInt8) → List ℕ → Prop
  | nil : Fields last [] []
  | last {f : List UInt8} {gs : List ℕ} (h : last f gs) : Fields last [f] gs
  | cons {f : List UInt8} {g : ℕ} {fs : List (List UInt8)} {gs : List ℕ} (h : HexGroup f g) (hfs : Fields last fs gs) :
      Fields last (f :: fs) (g :: gs)

/-- The two groups of dotted decimal. -/
def quadGroups (a b c d : UInt8) : List ℕ := [a.toNat * 256 + b.toNat, c.toNat * 256 + d.toNat]

/-- Dotted decimal at the end of an address. -/
def Dotted (f : List UInt8) (gs : List ℕ) : Prop := ∃ a b c d, Quad f a b c d ∧ gs = quadGroups a b c d

/-- The text forms of an address, with its groups. -/
inductive Inet6Text : List UInt8 → List ℕ → Prop
  | full {fs : List (List UInt8)} {gs : List ℕ} (hfs : Fields Dotted fs gs) (hlength : gs.length = 8) :
      Inet6Text (joinWith colon fs) gs
  | zeros {fl fr : List (List UInt8)} {gl gr : List ℕ} (hfl : List.Forall₂ HexGroup fl gl) (hfr : Fields Dotted fr gr)
      (hlength : gl.length + gr.length ≤ 7) :
      Inet6Text (joinWith colon fl ++ colon :: colon :: joinWith colon fr)
        (gl ++ (List.replicate (8 - (gl.length + gr.length)) 0 ++ gr))

/-! ### What the loop accepts -/

/-- Dotted decimal as the loop takes it at the end: its first octet has been read as a group. -/
def Loose (f : List UInt8) (gs : List ℕ) : Prop :=
  ∃ r runs a b c d, f = joinWith dot (r :: runs) ∧ List.Forall₂ Run (r :: runs) [a, b, c, d] ∧ r ≠ [] ∧ r.length ≤ 4 ∧
    ¬(a = 255 ∧ b = 255 ∧ c = 255 ∧ d = 255) ∧ gs = quadGroups a b c d

/-- The end behind an empty field, where nothing is one group more. -/
def LooseEnd (f : List UInt8) (gs : List ℕ) : Prop := Loose f gs ∨ f = [] ∧ gs = [0]

/-- The texts that the loop accepts. -/
inductive LooseText : List UInt8 → List ℕ → Prop
  | full {fs : List (List UInt8)} {gs : List ℕ} (hfs : Fields Loose fs gs) (hlength : gs.length = 8) :
      LooseText (joinWith colon fs) gs
  | zeros {fl fr : List (List UInt8)} {gl gr : List ℕ} (hfl : List.Forall₂ HexGroup fl gl) (hfr : Fields LooseEnd fr gr)
      (hne : fr ≠ []) (hlength : gl.length + gr.length ≤ 7) :
      LooseText (joinWith colon (fl ++ [] :: fr)) (gl ++ (List.replicate (8 - (gl.length + gr.length)) 0 ++ gr))

/-! ### Digits -/

/-- The digit that the loop takes a byte for. -/
theorem hexVal_eq (c : UInt8) : hexVal c = if 48 ≤ c ∧ c ≤ 57 then some (c.toNat - 48)
    else if 97 ≤ c ||| 0x20 ∧ c ||| 0x20 ≤ 102 then some ((c ||| 0x20).toNat - 97 + 10) else none := by
  have hall : ∀ n < 256, hexVal (UInt8.ofNat n) = if 48 ≤ UInt8.ofNat n ∧ UInt8.ofNat n ≤ 57
      then some ((UInt8.ofNat n).toNat - 48)
      else if 97 ≤ UInt8.ofNat n ||| 0x20 ∧ UInt8.ofNat n ||| 0x20 ≤ 102
        then some ((UInt8.ofNat n ||| 0x20).toNat - 97 + 10) else none := by
    decide +kernel
  have hc := hall c.toNat c.toNat_lt
  rwa [UInt8.ofNat_toNat] at hc

theorem hexVal_colon : hexVal colon = none := by decide

theorem hexVal_dot : hexVal dot = none := by decide

theorem IsDecimal.hexVal {c : UInt8} (h : IsDecimal c) : hexVal c = some (c.toNat - 48) := if_pos h

theorem HexGroup.colon_notMem {f : List UInt8} {g : ℕ} (h : HexGroup f g) : colon ∉ f := by
  intro hm
  have hsome := h.hex colon hm
  rw [hexVal_colon] at hsome
  cases hsome

theorem HexGroup.dot_notMem {f : List UInt8} {g : ℕ} (h : HexGroup f g) : dot ∉ f := by
  intro hm
  have hsome := h.hex dot hm
  rw [hexVal_dot] at hsome
  cases hsome

theorem hexFrom_cons (n : ℕ) (c : UInt8) (l : List UInt8) :
    hexFrom n (c :: l) = hexFrom (n * 16 + (hexVal c).getD 0) l := by
  rw [hexFrom, List.foldl_cons, hexFrom]

/-! ### The loop over a field -/

variable {st : Inet6State}

/-- A byte that ends no field. -/
theorem inet6Loop_byte {c : UInt8} (hcolon : c ≠ colon) (hdot : ¬(c = dot ∧ st.nibbles ≠ 0)) (text : List UInt8) :
    inet6Loop (c :: text) st = if st.nibbles + 1 > 4 then none else (hexVal c).bind fun v =>
      inet6Loop text { st with nibbles := st.nibbles + 1, word := st.word * 16 + v } := by
  rw [inet6Loop, if_neg hcolon, if_neg hdot, hexVal_eq]
  split
  · rfl
  · split
    · rfl
    · split
      · rw [Option.bind_some, Nat.add_assoc]
      · rfl

/-- The digits of a field. -/
theorem inet6Loop_hex {l : List UInt8} (hl : ∀ c ∈ l, (hexVal c).isSome) (hlength : st.nibbles + l.length ≤ 4)
    (rest : List UInt8) : inet6Loop (l ++ rest) st =
      inet6Loop rest { st with nibbles := st.nibbles + l.length, word := hexFrom st.word l } := by
  induction l generalizing st with
  | nil => rfl
  | cons c l ih =>
      obtain ⟨v, hv⟩ := Option.isSome_iff_exists.mp (hl c List.mem_cons_self)
      have hcolon : c ≠ colon := by
        rintro rfl
        cases hv
      have hdot : c ≠ dot := by
        rintro rfl
        cases hv
      rw [List.length_cons] at hlength
      have hnext := @ih { st with nibbles := st.nibbles + 1, word := st.word * 16 + v }
        (fun c hc => hl c (List.mem_cons_of_mem _ hc)) (by dsimp only; omega)
      rw [List.cons_append, inet6Loop_byte hcolon (fun hand => hdot hand.1), if_neg (by omega), hv, Option.bind_some, hnext,
        hexFrom_cons, hv, List.length_cons]
      dsimp only
      rw [Nat.add_assoc, Nat.add_comm 1 l.length, Option.getD_some]

/-- A field that the loop does not refuse is empty, a group, or begins with digits and a dot. -/
theorem inet6Loop_field {f rest : List UInt8} (hcolon : colon ∉ f) (hnibbles : st.nibbles = 0)
    (h : inet6Loop (f ++ rest) st ≠ none) :
    f = [] ∨ (∃ g, HexGroup f g) ∨ ∃ l f', f = l ++ dot :: f' ∧ l ≠ [] ∧ l.length ≤ 4 ∧ (∀ c ∈ l, (hexVal c).isSome) ∧
      inet6Loop (dot :: (f' ++ rest)) { st with nibbles := l.length, word := hexFrom st.word l } ≠ none := by
  obtain ⟨l, f', rfl, hl, hf'⟩ : ∃ l f', f = l ++ f' ∧ (∀ c ∈ l, (hexVal c).isSome) ∧
      ∀ c f'', f' = c :: f'' → hexVal c = none := by
    refine ⟨f.takeWhile fun c => (hexVal c).isSome, f.dropWhile fun c => (hexVal c).isSome,
      List.takeWhile_append_dropWhile.symm, fun c hc => ?_, fun c f'' heq => ?_⟩
    · exact @List.mem_takeWhile_imp _ (fun c => (hexVal c).isSome) f c hc
    have hhead := List.head?_dropWhile_not (fun c => (hexVal c).isSome) f
    rw [heq] at hhead
    simpa using hhead
  have hlength : l.length ≤ 4 := by
    by_contra hlong
    -- four digits have been read, and a fifth follows
    have hsplit : l = l.take 4 ++ l.drop 4 := (List.take_append_drop 4 l).symm
    have hdrop : l.drop 4 ≠ [] := by
      rw [ne_eq, List.drop_eq_nil_iff]
      exact hlong
    obtain ⟨c, l', hcons⟩ := List.exists_cons_of_ne_nil hdrop
    have htake : (l.take 4).length = 4 := by
      rw [List.length_take]
      omega
    have hmem : c ∈ l := List.mem_of_mem_drop (hcons ▸ List.mem_cons_self)
    obtain ⟨v, hv⟩ := Option.isSome_iff_exists.mp (hl c hmem)
    have hc : c ≠ colon := by
      rintro rfl
      cases hv
    have hd : c ≠ dot := by
      rintro rfl
      cases hv
    rw [hsplit, hcons, List.append_assoc, List.append_assoc,
      inet6Loop_hex (fun c hc => hl c (List.mem_of_mem_take hc)) (by rw [hnibbles, htake]), List.cons_append,
      inet6Loop_byte hc (fun hand => hd hand.1), if_pos (by dsimp only; rw [htake]; omega)] at h
    exact h rfl
  rw [List.append_assoc, inet6Loop_hex hl (by rw [hnibbles]; omega), hnibbles, Nat.zero_add] at h
  cases f' with
  | nil =>
      by_cases hne : l = []
      · exact Or.inl (by rw [hne]; rfl)
      · rw [List.append_nil]
        exact Or.inr (Or.inl ⟨_, hne, hlength, hl, rfl⟩)
  | cons c f'' =>
      have hnone := hf' c f'' rfl
      have hc : c ≠ colon := by
        rintro rfl
        exact hcolon (List.mem_append_right _ List.mem_cons_self)
      by_cases hdot : c = dot ∧ l ≠ []
      · obtain ⟨rfl, hne⟩ := hdot
        exact Or.inr (Or.inr ⟨l, f'', rfl, hne, hlength, hl, h⟩)
      · -- no digit, no colon and no dot behind digits
        rw [List.cons_append, inet6Loop_byte hc (fun hand => hdot ⟨hand.1, fun hnil => hand.2 (by rw [hnil]; rfl)⟩),
          hnone] at h
        split at h
        · exact absurd rfl h
        · exact absurd rfl h

/-- A dot that the loop does not refuse. -/
theorem inet6Loop_dot {rest : List UInt8} (hnibbles : st.nibbles ≠ 0) (h : inet6Loop (dot :: rest) st ≠ none) :
    ∃ digit, st.digit = some digit ∧ 2 ≤ st.n ∧ ngxInetAddr digit ≠ inaddrNone := by
  rw [inet6Loop, if_neg (by decide), if_pos ⟨rfl, hnibbles⟩] at h
  cases hdigit : st.digit with
  | none =>
      rw [hdigit] at h
      exact absurd rfl h
  | some digit =>
      rw [hdigit] at h
      dsimp only at h
      refine ⟨digit, rfl, ?_, fun hnone => ?_⟩
      · by_contra hn
        rw [if_pos (by omega)] at h
        exact h rfl
      · rw [if_pos hnone, ite_self] at h
        exact h rfl

/-- Dotted decimal that has been read from its beginning. -/
theorem inet6Loop_loose {f : List UInt8} {gs : List ℕ} (hf : Loose f gs) {bytes : List UInt8} {zero : Option ℕ} {k : ℕ}
    (hat : AtField st bytes zero k) (hdigit : st.digit = some f) (hk : k ≤ 6) :
    ∃ st', inet6Loop f st = some st' ∧ Wrote st'.putWord (bytes ++ gs.flatMap groupBytes) ∧ st'.zero = zero ∧
      st'.n = 7 - k ∧ st'.nibbles ≠ 0 := by
  obtain ⟨r, runs, a, b, c, d, rfl, hruns, hne, hlength, hnot, rfl⟩ := hf
  have hquad : quadAddr a b c d ≠ inaddrNone := fun heq => hnot ((quadAddr_eq_none a b c d).mp heq)
  have haddr := ngxInetAddr_fourRuns ⟨r :: runs, rfl, hruns⟩
  have hrun : Run r a := by
    cases hruns with
    | cons hrun _ => exact hrun
  obtain ⟨y, runs, rfl⟩ : ∃ y l, runs = y :: l := by
    rcases hruns with _ | ⟨-, _ | ⟨-, -⟩⟩
    exact ⟨_, _, rfl⟩
  have hn := hat.n
  have hpos : 0 < r.length := List.length_pos_iff.mpr hne
  have hhex : ∀ c ∈ r, (hexVal c).isSome := fun c hc => by
    rw [(hrun.decimal c hc).hexVal]
    rfl
  obtain ⟨ha, hb, -, -⟩ := quadAddr_bytes a b c d
  refine ⟨{ st.put a b with
    nibbles := st.nibbles + r.length, word := (quadAddr a b c d).toNat, n := st.n - 1 }, ?_, ?_, hat.zero, ?_, ?_⟩
  · have hread := @inet6Loop_hex st _ hhex (by rw [hat.nibbles]; omega) (dot :: joinWith dot (y :: runs))
    rw [← joinWith_cons (List.cons_ne_nil y runs)] at hread
    rw [hread, inet6Loop, if_neg (by decide), if_pos ⟨rfl, by dsimp only; omega⟩]
    dsimp only
    rw [hdigit]
    dsimp only
    rw [if_neg (by omega), haddr, if_neg hquad, ha, hb, ← hdigit]
    rfl
  · have hwrote := (hat.wrote.put a b).put c d
    have hlow := quadAddr_low a b c d
    have hbytes : bytes ++ (quadGroups a b c d).flatMap groupBytes = bytes ++ [a, b] ++ [c, d] := by
      rw [quadGroups, List.flatMap_cons, List.flatMap_singleton, groupBytes_pair, groupBytes_pair, List.append_assoc]
    unfold Inet6State.putWord
    dsimp only
    rw [hlow.1, hlow.2, hbytes]
    exact ⟨hwrote.addr, hwrote.buf⟩
  · dsimp only
    omega
  · dsimp only
    omega

/-- The dotted decimal that the loop accepts. -/
theorem loose_of_inet6Loop {l f' : List UInt8} (hne : l ≠ []) (hlength : l.length ≤ 4)
    (hhex : ∀ c ∈ l, (hexVal c).isSome) (h : ngxInetAddr (l ++ dot :: f') ≠ inaddrNone) :
    ∃ gs, Loose (l ++ dot :: f') gs ∧ gs.length = 2 := by
  obtain ⟨a, b, c, d, runs, heq, hruns⟩ := exists_fourRuns h
  have haddr := ngxInetAddr_fourRuns ⟨runs, heq, hruns⟩
  have hnot : ¬(a = 255 ∧ b = 255 ∧ c = 255 ∧ d = 255) := fun hall =>
    h (haddr.trans ((quadAddr_eq_none a b c d).mpr hall))
  obtain ⟨r, y, runs, rfl⟩ : ∃ r y l, runs = r :: y :: l := by
    rcases hruns with _ | ⟨-, _ | ⟨-, -⟩⟩
    exact ⟨_, _, _, rfl⟩
  have hrun : Run r a := by
    cases hruns with
    | cons hrun _ => exact hrun
  have hdot : dot ∉ l := fun hm => by
    have hsome := hhex dot hm
    rw [hexVal_dot] at hsome
    cases hsome
  have hsplit := heq
  rw [joinWith_cons (List.cons_ne_nil y runs)] at hsplit
  obtain ⟨rfl, -⟩ := append_sep_inj hdot hrun.dot_notMem hsplit
  exact ⟨_, ⟨l, y :: runs, a, b, c, d, heq, hruns, hne, hlength, hnot, rfl⟩, rfl⟩

end NginxDtls
