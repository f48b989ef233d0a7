import Mathlib
import NginxDtls.Text
import NginxDtls.Core

/-! Socket addresses as text: `ngx_sock_ntop` and `ngx_inet6_ntop` of `ngx_inet.c`. The longest run of
zero groups of an IPv6 address is written as `::`, and an address that starts with one may end in dotted
decimal. Fields between colons can be read back group by group, so the text determines the address. -/

namespace NginxDtls

open Text

def colon : UInt8 := 58

def dot : UInt8 := 46

/-- `%ud` and `%d` of a number that is not negative. -/
def sprintfUd (n : Nat) : List UInt8 := numText 10 n

/-- `%xd`. -/
def sprintfXd (n : Nat) : List UInt8 := numText 16 n

/-- `%ud.%ud.%ud.%ud`. -/
def sprintfQuad (a b c d : UInt8) : List UInt8 :=
  joinWith dot [sprintfUd a.toNat, sprintfUd b.toNat, sprintfUd c.toNat, sprintfUd d.toNat]

/-! ### IPv6 -/

/-- The locals of the loop that looks for the longest run of zero groups. Positions count groups of two
bytes; `none` is the `-1` of the source. -/
structure ZeroScan where
  zero : Option Nat := none
  last : Option Nat := none
  max : Nat := 1
  n : Nat := 0

/-- `if (max < n) { zero = last; max = n; }`. -/
def ZeroScan.close (st : ZeroScan) : ZeroScan :=
  if st.max < st.n then { st with zero := st.last, max := st.n } else st

def ZeroScan.step (st : ZeroScan) (i g : Nat) : ZeroScan :=
  if g ≠ 0 then { st.close with n := 0 }
  else if st.n = 0 then { st with last := some i, n := 1 }
  else { st with n := st.n + 1 }

/-- The first loop of `ngx_inet6_ntop`, from group `i` on. -/
def zeroScan : List Nat → Nat → ZeroScan → ZeroScan
  | [], _, st => st.close
  | g :: gs, i, st => zeroScan gs (i + 1) (st.step i g)

/-- The eight groups of an address. -/
def inet6Groups (p : Vector UInt8 16) : List Nat :=
  (List.range 8).map fun i => (p.toList.getD (2 * i) 0).toNat * 256 + (p.toList.getD (2 * i + 1) 0).toNat

/-- The second loop of `ngx_inet6_ntop`: the groups from `i` up to `n`, with a colon behind every group
but the last one. -/
def inet6Out (gs : List Nat) (zero : Option Nat) (max n : Nat) : Nat → Nat → List UInt8
  | 0, _ => []
  | fuel + 1, i =>
    if i < n then
      if zero = some i then colon :: inet6Out gs zero max n fuel (i + max)
      else sprintfXd (gs.getD i 0) ++ (if i < 7 then [colon] else [])
        ++ inet6Out gs zero max n fuel (i + 1)
    else []

def ngxInet6AddrStrLen : Nat := 45

def ngxInetAddrStrLen : Nat := 15

/-- Whether the address ends in dotted decimal. -/
def inet6Dotted (p : Vector UInt8 16) (max : Nat) : Bool :=
  (max = 5 ∧ p[10] = 0xff ∧ p[11] = 0xff) ∨ max = 6 ∨ (max = 7 ∧ p[14] ≠ 0 ∧ p[15] ≠ 1)

def ngxInet6Ntop (p : Vector UInt8 16) (len : Nat) : List UInt8 :=
  if len < ngxInet6AddrStrLen then []
  else
    let gs := inet6Groups p
    let st := zeroScan gs 0 {}
    let n := if st.zero = some 0 ∧ inet6Dotted p st.max then 6 else 8
    (if st.zero = some 0 then [colon] else []) ++ inet6Out gs st.zero st.max n 8 0
      ++ (if n = 6 then sprintfQuad p[12] p[13] p[14] p[15] else [])

/-! ### Socket addresses -/

/-- The bytes of `unix:`. -/
def unixPrefix : List UInt8 := [117, 110, 105, 120, 58]

def ngxInetGetPort : Sockaddr → UInt16
  | .inet port _ => port
  | .inet6 port _ _ _ => port
  | .unix _ => 0

/-- `ngx_sock_ntop` into a text of `len` bytes, with the port or without it. -/
def ngxSockNtop (sa : Sockaddr) (len : Nat) (port : Bool) : List UInt8 :=
  match sa with
  | .inet p a =>
    let text := sprintfQuad a[0] a[1] a[2] a[3]
    (if port then text ++ colon :: sprintfUd p.toNat else text).take len
  | .inet6 p _ a _ =>
    if port then 91 :: ngxInet6Ntop a len ++ [93, colon] ++ sprintfUd p.toNat
    else ngxInet6Ntop a len
  | .unix path => ((unixPrefix ++ path ++ [0]).take len).dropLast

/-! ### The longest run of zeros -/

/-- What the scan has found after `i` groups. -/
structure ScanInv (gs : List Nat) (i : Nat) (st : ZeroScan) : Prop where
  pos : 1 ≤ st.max
  zero : ∀ z, st.zero = some z → 2 ≤ st.max ∧ z + st.max ≤ i ∧
    ∀ j, z ≤ j → j < z + st.max → gs[j]? = some 0
  run : 0 < st.n → ∃ l, st.last = some l ∧ l + st.n = i ∧ ∀ j, l ≤ j → j < i → gs[j]? = some 0

theorem ScanInv.close {gs : List Nat} {i : Nat} {st : ZeroScan} (h : ScanInv gs i st) :
    ScanInv gs i st.close := by
  unfold ZeroScan.close
  split_ifs with hlt
  · obtain ⟨l, hlast, hend, hrun⟩ := h.run (by omega)
    have hpos := h.pos
    refine ⟨by dsimp only; omega, ?_, fun hn => ⟨l, hlast, hend, hrun⟩⟩
    intro z hz
    obtain rfl : l = z := by
      rw [hlast] at hz
      exact Option.some.inj hz
    exact ⟨by dsimp only; omega, hend.le, fun j hj hj' => hrun j hj (by dsimp only at hj'; omega)⟩
  · exact h

theorem ScanInv.step {gs : List Nat} {i g : Nat} {st : ZeroScan} (h : ScanInv gs i st)
    (hg : gs[i]? = some g) : ScanInv gs (i + 1) (st.step i g) := by
  have hkeep : ∀ z, st.zero = some z → 2 ≤ st.max ∧ z + st.max ≤ i + 1 ∧
      ∀ j, z ≤ j → j < z + st.max → gs[j]? = some 0 := by
    intro z hz
    obtain ⟨htwo, hle, hrun⟩ := h.zero z hz
    exact ⟨htwo, by omega, hrun⟩
  unfold ZeroScan.step
  split_ifs with hne hn
  · have hclose := h.close
    refine ⟨hclose.pos, fun z hz => ?_, fun hn => absurd hn (by simp)⟩
    obtain ⟨htwo, hle, hrun⟩ := hclose.zero z hz
    exact ⟨htwo, by dsimp only; omega, hrun⟩
  · refine ⟨h.pos, hkeep, fun _ => ⟨i, rfl, rfl, fun j hj hj' => ?_⟩⟩
    obtain rfl : i = j := by omega
    rw [hg, not_not.mp hne]
  · obtain ⟨l, hlast, hend, hrun⟩ := h.run (by omega)
    refine ⟨h.pos, hkeep, fun _ => ⟨l, hlast, by dsimp only; omega, fun j hj hj' => ?_⟩⟩
    by_cases hji : j < i
    · exact hrun j hj hji
    · obtain rfl : i = j := by omega
      rw [hg, not_not.mp hne]

theorem zeroScan_inv {gs : List Nat} (rest : List Nat) {i : Nat} {st : ZeroScan}
    (hrest : gs.drop i = rest) (h : ScanInv gs i st) : ScanInv gs (i + rest.length) (zeroScan rest i st) := by
  induction rest generalizing i st with
  | nil => exact h.close
  | cons g rest ih =>
      have hg : gs[i]? = some g := by
        rw [← List.head?_drop, hrest]
        rfl
      have htail : gs.drop (i + 1) = rest := by
        rw [← List.drop_drop, hrest]
        rfl
      have := ih htail (h.step hg)
      rw [List.length_cons, show i + (rest.length + 1) = i + 1 + rest.length by omega]
      exact this

/-! ### Fields

The text of an IPv6 address as fields between colons, `::` giving empty ones. -/

/-- The fields between the colons. -/
def inet6Fields (gs : List Nat) (zero : Option Nat) (max : Nat) (quad : Option (List UInt8)) :
    List (List UInt8) :=
  match zero with
  | none => gs.map sprintfXd
  | some z => (if z = 0 then [[]] else (gs.take z).map sprintfXd) ++ [[]] ++
      match quad with
      | some q => ((gs.drop max).take (6 - max)).map sprintfXd ++ [q]
      | none => if z + max = 8 then [[]] else (gs.drop (z + max)).map sprintfXd

theorem inet6Out_fields {gs : List Nat} (hlen : gs.length = 8) {zero : Option Nat} {max : Nat}
    (hzero : ∀ z, zero = some z → 2 ≤ max ∧ z + max ≤ 8) :
    (if zero = some 0 then [colon] else []) ++ inet6Out gs zero max 8 8 0 =
      joinWith colon (inet6Fields gs zero max none) := by
  match gs, hlen with
  | [a, b, c, d, e, f, g, h], _ =>
      cases zero with
      | none => simp [inet6Out, inet6Fields, joinWith]
      | some z =>
          obtain ⟨htwo, hle⟩ := hzero z rfl
          have hz : z ≤ 6 := by omega
          have hmax : max ≤ 8 := by omega
          interval_cases z <;> interval_cases max <;> first | omega | simp [inet6Out, inet6Fields, joinWith]

theorem inet6Out_fields_quad {gs : List Nat} (hlen : gs.length = 8) {max : Nat} (q : List UInt8)
    (hmax : max = 5 ∨ max = 6 ∨ max = 7) :
    colon :: inet6Out gs (some 0) max 6 8 0 ++ q =
      joinWith colon (inet6Fields gs (some 0) max (some q)) := by
  match gs, hlen with
  | [a, b, c, d, e, f, g, h], _ =>
      rcases hmax with rfl | rfl | rfl <;> simp [inet6Out, inet6Fields, joinWith]

/-- The zero groups put back in place. -/
theorem take_replicate_drop {gs : List Nat} {z max : Nat} (hle : z + max ≤ gs.length)
    (hzero : ∀ j, z ≤ j → j < z + max → gs[j]? = some 0) :
    gs.take z ++ (List.replicate max 0 ++ gs.drop (z + max)) = gs := by
  apply List.ext_getElem?
  intro j
  by_cases hlow : j < z
  · rw [List.getElem?_append_left (by simp; omega), List.getElem?_take_of_lt hlow]
  · rw [List.getElem?_append_right (by simp; omega), List.length_take, min_eq_left (by omega)]
    by_cases hmid : j < z + max
    · rw [List.getElem?_append_left (by simp; omega), List.getElem?_replicate, if_pos (by omega),
        hzero j (by omega) hmid]
    · rw [List.getElem?_append_right (by simp; omega), List.length_replicate, List.getElem?_drop]
      congr 1
      omega

/-! ### Reading the text back -/

theorem colon_notMem_numText {b : Nat} (hb : 1 < b) (hb16 : b ≤ 16) (n : Nat) :
    colon ∉ numText b n := by
  intro h
  obtain ⟨d, hd, heq⟩ := mem_numText hb h
  have hd16 : d < 16 := by omega
  interval_cases d <;> exact absurd heq (by decide)

theorem dot_notMem_numText {b : Nat} (hb : 1 < b) (hb16 : b ≤ 16) (n : Nat) :
    dot ∉ numText b n := by
  intro h
  obtain ⟨d, hd, heq⟩ := mem_numText hb h
  have hd16 : d < 16 := by omega
  interval_cases d <;> exact absurd heq (by decide)

theorem sprintfQuad_injective {a b c d a' b' c' d' : UInt8}
    (h : sprintfQuad a b c d = sprintfQuad a' b' c' d') : a = a' ∧ b = b' ∧ c = c' ∧ d = d' := by
  have hsep : ∀ n, dot ∉ sprintfUd n := dot_notMem_numText (by decide) (by decide)
  have hinj : ∀ {x y : UInt8}, sprintfUd x.toNat = sprintfUd y.toNat → x = y := fun heq =>
    UInt8.toNat_inj.mp (numText_injective (by decide) (by decide) heq)
  have hfields := joinWith_injective (by simp) (by simp) (by simp [hsep]) (by simp [hsep]) h
  simp only [List.cons.injEq, and_true] at hfields
  exact ⟨hinj hfields.1, hinj hfields.2.1, hinj hfields.2.2.1, hinj hfields.2.2.2⟩

theorem colon_notMem_sprintfQuad (a b c d : UInt8) : colon ∉ sprintfQuad a b c d := by
  have hnum : ∀ n, colon ∉ sprintfUd n := colon_notMem_numText (by decide) (by decide)
  have hdot : colon ≠ dot := by decide
  simp [sprintfQuad, joinWith, hnum, hdot]

theorem dot_mem_sprintfQuad (a b c d : UInt8) : dot ∈ sprintfQuad a b c d := by
  simp [sprintfQuad, joinWith]

open Classical in
/-- The groups that a field stands for. -/
noncomputable def fieldGroups (x : List UInt8) : List Nat :=
  if h : ∃ q : UInt8 × UInt8 × UInt8 × UInt8, x = sprintfQuad q.1 q.2.1 q.2.2.1 q.2.2.2 then
    let q := h.choose
    [q.1.toNat * 256 + q.2.1.toNat, q.2.2.1.toNat * 256 + q.2.2.2.toNat]
  else if x = [] then [] else [textNum 16 x]

theorem fieldGroups_nil : fieldGroups [] = [] := by
  have hnone : ¬∃ q : UInt8 × UInt8 × UInt8 × UInt8,
      ([] : List UInt8) = sprintfQuad q.1 q.2.1 q.2.2.1 q.2.2.2 := by
    rintro ⟨q, hq⟩
    have := dot_mem_sprintfQuad q.1 q.2.1 q.2.2.1 q.2.2.2
    rw [← hq] at this
    simp at this
  rw [fieldGroups, dif_neg hnone, if_pos rfl]

theorem fieldGroups_sprintfXd (g : Nat) : fieldGroups (sprintfXd g) = [g] := by
  have hnone : ¬∃ q : UInt8 × UInt8 × UInt8 × UInt8,
      sprintfXd g = sprintfQuad q.1 q.2.1 q.2.2.1 q.2.2.2 := by
    rintro ⟨q, hq⟩
    have := dot_mem_sprintfQuad q.1 q.2.1 q.2.2.1 q.2.2.2
    rw [← hq] at this
    exact dot_notMem_numText (by decide) (by decide) g this
  have hne : sprintfXd g ≠ [] := numText_ne_nil 16 g
  rw [fieldGroups, dif_neg hnone, if_neg hne, sprintfXd, textNum_numText (by decide) (by decide)]

theorem fieldGroups_sprintfQuad (a b c d : UInt8) : fieldGroups (sprintfQuad a b c d) =
    [a.toNat * 256 + b.toNat, c.toNat * 256 + d.toNat] := by
  have hsome : ∃ q : UInt8 × UInt8 × UInt8 × UInt8,
      sprintfQuad a b c d = sprintfQuad q.1 q.2.1 q.2.2.1 q.2.2.2 := ⟨(a, b, c, d), rfl⟩
  obtain ⟨ha, hb, hc, hd⟩ := sprintfQuad_injective hsome.choose_spec
  rw [fieldGroups, dif_pos hsome]
  simp only [← ha, ← hb, ← hc, ← hd]

theorem flatMap_fieldGroups (gs : List Nat) : (gs.map sprintfXd).flatMap fieldGroups = gs := by
  induction gs with
  | nil => rfl
  | cons g gs ih => rw [List.map_cons, List.flatMap_cons, fieldGroups_sprintfXd, ih]; rfl

/-- The groups that a list of fields stands for: what is missing to eight is zero, in the place of the
first empty field. -/
noncomputable def expandFields (ts : List (List UInt8)) : List Nat :=
  let left := (ts.takeWhile (· ≠ [])).flatMap fieldGroups
  let right := (ts.dropWhile (· ≠ [])).flatMap fieldGroups
  left ++ (List.replicate (8 - left.length - right.length) 0 ++ right)

/-- A field that is not empty, in front of an empty one or at the end, is on the left. -/
theorem expandFields_split (gs : List Nat) (ts : List (List UInt8)) (hts : ts.takeWhile (· ≠ []) = []) :
    expandFields (gs.map sprintfXd ++ ts) = gs ++
      (List.replicate (8 - gs.length - (ts.flatMap fieldGroups).length) 0 ++ ts.flatMap fieldGroups) := by
  have hne : ∀ x ∈ gs.map sprintfXd, decide (x ≠ []) = true := by
    intro x hx
    obtain ⟨g, -, rfl⟩ := List.mem_map.mp hx
    exact decide_eq_true (numText_ne_nil 16 g)
  have hleft : (gs.map sprintfXd ++ ts).takeWhile (· ≠ []) = gs.map sprintfXd := by
    rw [List.takeWhile_append_of_pos hne, hts, List.append_nil]
  have hright : (gs.map sprintfXd ++ ts).dropWhile (· ≠ []) = ts := by
    have h := List.takeWhile_append_dropWhile (p := (· ≠ [])) (l := gs.map sprintfXd ++ ts)
    rw [hleft] at h
    exact List.append_cancel_left h
  rw [expandFields, hleft, hright, flatMap_fieldGroups]

theorem expandFields_inet6Fields {gs : List Nat} (hlen : gs.length = 8) {zero : Option Nat} {max : Nat}
    (hzero : ∀ z, zero = some z → 2 ≤ max ∧ z + max ≤ 8 ∧
      ∀ j, z ≤ j → j < z + max → gs[j]? = some 0) :
    expandFields (inet6Fields gs zero max none) = gs := by
  cases zero with
  | none =>
      have h := expandFields_split gs [] rfl
      rw [List.append_nil] at h
      rw [inet6Fields, h, hlen]
      simp
  | some z =>
      obtain ⟨-, hle, hrun⟩ := hzero z rfl
      have hrest : ((if z + max = 8 then [[]] else (gs.drop (z + max)).map sprintfXd) :
          List (List UInt8)).flatMap fieldGroups = gs.drop (z + max) := by
        split_ifs with h8
        · rw [h8, List.drop_eq_nil_of_le (by omega)]
          simp [fieldGroups_nil]
        · exact flatMap_fieldGroups _
      have hcount : 8 - (gs.take z).length - (gs.drop (z + max)).length = max := by
        rw [List.length_take, List.length_drop, hlen]
        omega
      have hback := take_replicate_drop (by omega) hrun
      by_cases hz : z = 0
      · subst hz
        have h := expandFields_split [] ([[]] ++ [[]] ++ if 0 + max = 8 then [[]] else
          (gs.drop (0 + max)).map sprintfXd) (by simp)
        rw [List.map_nil, List.nil_append, List.nil_append, List.append_assoc, List.flatMap_append,
          List.flatMap_append, hrest] at h
        simp only [List.flatMap_cons, fieldGroups_nil, List.flatMap_nil, List.nil_append,
          List.length_nil] at h
        rw [List.take_zero, List.length_nil] at hcount
        rw [hcount] at h
        rw [inet6Fields, if_pos rfl, List.append_assoc, h]
        exact hback
      · have h := expandFields_split (gs.take z) ([[]] ++ if z + max = 8 then [[]] else
          (gs.drop (z + max)).map sprintfXd) (by simp)
        rw [List.flatMap_append, hrest] at h
        simp only [List.flatMap_cons, fieldGroups_nil, List.flatMap_nil, List.nil_append] at h
        rw [hcount, hback] at h
        rw [inet6Fields, if_neg hz, List.append_assoc, h]

theorem exists_of_length_eight {gs : List Nat} (h : gs.length = 8) :
    ∃ a b c d e f g i, gs = [a, b, c, d, e, f, g, i] := by
  obtain ⟨a, _, rfl⟩ := List.exists_cons_of_length_eq_add_one h
  obtain ⟨b, _, rfl⟩ := List.exists_cons_of_length_eq_add_one (Nat.succ.inj h)
  obtain ⟨c, _, rfl⟩ := List.exists_cons_of_length_eq_add_one (Nat.succ.inj (Nat.succ.inj h))
  simp only [List.length_cons, Nat.reduceEqDiff] at h
  obtain ⟨d, _, rfl⟩ := List.exists_cons_of_length_eq_add_one h
  obtain ⟨e, _, rfl⟩ := List.exists_cons_of_length_eq_add_one (Nat.succ.inj h)
  obtain ⟨f, _, rfl⟩ := List.exists_cons_of_length_eq_add_one (Nat.succ.inj (Nat.succ.inj h))
  simp only [List.length_cons, Nat.reduceEqDiff] at h
  obtain ⟨g, _, rfl⟩ := List.exists_cons_of_length_eq_add_one h
  obtain ⟨i, _, rfl⟩ := List.exists_cons_of_length_eq_add_one (Nat.succ.inj h)
  simp only [List.length_cons, Nat.reduceEqDiff, List.length_eq_zero_iff] at h
  exact ⟨a, b, c, d, e, f, g, i, by rw [h]⟩

theorem expandFields_inet6Fields_quad {gs : List Nat} (hlen : gs.length = 8) {max : Nat}
    {q : List UInt8} (hmax : max = 5 ∨ max = 6 ∨ max = 7)
    (hzero : ∀ j, j < max → gs[j]? = some 0) (hq : fieldGroups q = gs.drop 6) :
    expandFields (inet6Fields gs (some 0) max (some q)) = gs := by
  have hmid := flatMap_fieldGroups ((gs.drop max).take (6 - max))
  have h := expandFields_split [] ([[]] ++ [[]] ++ (((gs.drop max).take (6 - max)).map sprintfXd ++ [q]))
    (by simp)
  simp only [List.map_nil, List.nil_append, List.flatMap_append, List.flatMap_cons, List.flatMap_nil,
    List.append_nil, fieldGroups_nil, hmid, hq] at h
  rw [inet6Fields, if_pos rfl]
  refine h.trans ?_
  obtain ⟨a, b, c, d, e, f, g, i, rfl⟩ := exists_of_length_eight hlen
  have hhead : a = 0 ∧ b = 0 ∧ c = 0 ∧ d = 0 ∧ e = 0 := by
    refine ⟨?_, ?_, ?_, ?_, ?_⟩
    · simpa using hzero 0 (by omega)
    · simpa using hzero 1 (by omega)
    · simpa using hzero 2 (by omega)
    · simpa using hzero 3 (by omega)
    · simpa using hzero 4 (by omega)
  obtain ⟨rfl, rfl, rfl, rfl, rfl⟩ := hhead
  rcases hmax with rfl | rfl | rfl
  · rfl
  · obtain rfl : f = 0 := by simpa using hzero 5 (by omega)
    rfl
  · obtain rfl : f = 0 := by simpa using hzero 5 (by omega)
    rfl

/-! ### The text determines the address -/

theorem inet6Groups_length (p : Vector UInt8 16) : (inet6Groups p).length = 8 := by
  simp [inet6Groups]

theorem inet6Groups_drop (p : Vector UInt8 16) : (inet6Groups p).drop 6 =
    [p[12].toNat * 256 + p[13].toNat, p[14].toNat * 256 + p[15].toNat] := by
  simp [inet6Groups, List.range_succ]

theorem inet6Groups_injective {p p' : Vector UInt8 16} (h : inet6Groups p = inet6Groups p') :
    p = p' := by
  have hget : ∀ k < 8, p.toList.getD (2 * k) 0 = p'.toList.getD (2 * k) 0 ∧
      p.toList.getD (2 * k + 1) 0 = p'.toList.getD (2 * k + 1) 0 := by
    intro k hk
    have heq : (inet6Groups p)[k]? = (inet6Groups p')[k]? := by rw [h]
    rw [inet6Groups, inet6Groups, List.getElem?_map, List.getElem?_map, List.getElem?_range hk] at heq
    have hsum : (p.toList.getD (2 * k) 0).toNat * 256 + (p.toList.getD (2 * k + 1) 0).toNat =
        (p'.toList.getD (2 * k) 0).toNat * 256 + (p'.toList.getD (2 * k + 1) 0).toNat :=
      Option.some.inj heq
    have hlo := (p.toList.getD (2 * k + 1) 0).toNat_lt
    have hlo' := (p'.toList.getD (2 * k + 1) 0).toNat_lt
    exact ⟨UInt8.toNat_inj.mp (by omega), UInt8.toNat_inj.mp (by omega)⟩
  ext j hj
  have hbyte : p.toList.getD j 0 = p'.toList.getD j 0 := by
    rcases Nat.even_or_odd' j with ⟨k, rfl | rfl⟩
    · exact (hget k (by omega)).1
    · exact (hget k (by omega)).2
  simpa [List.getD_eq_getElem?_getD, hj] using congrArg UInt8.toNat hbyte

/-- The fields of an IPv6 address. -/
def inet6AddrFields (p : Vector UInt8 16) : List (List UInt8) :=
  let gs := inet6Groups p
  let st := zeroScan gs 0 {}
  inet6Fields gs st.zero st.max
    (if st.zero = some 0 ∧ inet6Dotted p st.max then some (sprintfQuad p[12] p[13] p[14] p[15]) else none)

/-- The tail that is printed in dotted decimal, if there is one. -/
def dottedTail (p : Vector UInt8 16) : Option (Vector UInt8 4) :=
  if (zeroScan (inet6Groups p) 0 {}).zero = some 0 ∧ inet6Dotted p (zeroScan (inet6Groups p) 0 {}).max then
    some #v[p[12], p[13], p[14], p[15]]
  else none

theorem inet6Dotted_max {p : Vector UInt8 16} {max : Nat} (h : inet6Dotted p max) :
    max = 5 ∨ max = 6 ∨ max = 7 := by
  simp only [inet6Dotted, decide_eq_true_eq] at h
  omega

theorem scanInv_inet6Groups (p : Vector UInt8 16) :
    ScanInv (inet6Groups p) 8 (zeroScan (inet6Groups p) 0 {}) := by
  have hstart : ScanInv (inet6Groups p) 0 {} :=
    ⟨le_rfl, by simp, fun hn => absurd hn (lt_irrefl 0)⟩
  have h := zeroScan_inv (inet6Groups p) List.drop_zero hstart
  rwa [inet6Groups_length, Nat.zero_add] at h

theorem ngxInet6Ntop_fields (p : Vector UInt8 16) :
    ngxInet6Ntop p ngxInet6AddrStrLen = joinWith colon (inet6AddrFields p) := by
  have hinv := scanInv_inet6Groups p
  rw [ngxInet6Ntop, if_neg (lt_irrefl _), inet6AddrFields]
  by_cases hdot : (zeroScan (inet6Groups p) 0 {}).zero = some 0 ∧
      inet6Dotted p (zeroScan (inet6Groups p) 0 {}).max
  · have hfields := inet6Out_fields_quad (inet6Groups_length p) (sprintfQuad p[12] p[13] p[14] p[15])
      (inet6Dotted_max hdot.2)
    simp only [hdot.1, hdot.2, and_self, if_true]
    exact hfields
  · have hfields := inet6Out_fields (inet6Groups_length p) fun z hz =>
      ⟨(hinv.zero z hz).1, (hinv.zero z hz).2.1⟩
    simp only [if_neg hdot, show ¬(8 = 6) by decide, if_false, List.append_nil]
    exact hfields

theorem expandFields_inet6AddrFields (p : Vector UInt8 16) :
    expandFields (inet6AddrFields p) = inet6Groups p := by
  have hinv := scanInv_inet6Groups p
  rw [inet6AddrFields]
  split_ifs with hdot
  · obtain ⟨hzero, hdot⟩ := hdot
    rw [hzero]
    obtain ⟨-, -, hrun⟩ := hinv.zero 0 hzero
    apply expandFields_inet6Fields_quad (inet6Groups_length p) (inet6Dotted_max hdot)
    · intro j hj
      exact hrun j (Nat.zero_le j) (by omega)
    · rw [fieldGroups_sprintfQuad, inet6Groups_drop]
  · exact expandFields_inet6Fields (inet6Groups_length p) hinv.zero

theorem mem_inet6Fields {gs : List Nat} {zero : Option Nat} {max : Nat} {quad : Option (List UInt8)}
    {x : List UInt8} (hx : x ∈ inet6Fields gs zero max quad) :
    x = [] ∨ (∃ g, x = sprintfXd g) ∨ quad = some x := by
  have hmap : ∀ {l : List Nat}, x ∈ l.map sprintfXd → ∃ g, x = sprintfXd g := by
    intro l hl
    obtain ⟨g, -, rfl⟩ := List.mem_map.mp hl
    exact ⟨g, rfl⟩
  cases zero with
  | none => exact .inr (.inl (hmap hx))
  | some z =>
      simp only [inet6Fields.eq_def, List.mem_append, List.mem_singleton] at hx
      rcases hx with (hleft | hempty) | hright
      · split_ifs at hleft
        · exact .inl (List.mem_singleton.mp hleft)
        · exact .inr (.inl (hmap hleft))
      · exact .inl hempty
      · cases quad with
        | none =>
            split_ifs at hright
            · exact .inl (List.mem_singleton.mp hright)
            · exact .inr (.inl (hmap hright))
        | some q =>
            simp only [List.mem_append, List.mem_singleton] at hright
            rcases hright with hgroup | rfl
            · exact .inr (.inl (hmap hgroup))
            · exact .inr (.inr rfl)

theorem colon_notMem_inet6AddrFields {p : Vector UInt8 16} {x : List UInt8}
    (hx : x ∈ inet6AddrFields p) : colon ∉ x := by
  rw [inet6AddrFields] at hx
  rcases mem_inet6Fields hx with rfl | ⟨g, rfl⟩ | hquad
  · exact List.not_mem_nil
  · exact colon_notMem_numText (by decide) (by decide) g
  · split_ifs at hquad
    obtain rfl := Option.some.inj hquad
    exact colon_notMem_sprintfQuad _ _ _ _

theorem one_lt_length_inet6AddrFields (p : Vector UInt8 16) : 1 < (inet6AddrFields p).length := by
  have hlen := inet6Groups_length p
  rw [inet6AddrFields]
  cases hzero : (zeroScan (inet6Groups p) 0 {}).zero with
  | none => simp [inet6Fields, hlen]
  | some z =>
      have hleft : 0 < (if z = 0 then [[]] else ((inet6Groups p).take z).map sprintfXd :
          List (List UInt8)).length := by
        split_ifs with hz
        · simp
        · simp [hlen]
          omega
      simp only [inet6Fields.eq_def, List.length_append, List.length_singleton]
      omega

theorem ngxInet6Ntop_injective {p p' : Vector UInt8 16}
    (h : ngxInet6Ntop p ngxInet6AddrStrLen = ngxInet6Ntop p' ngxInet6AddrStrLen) : p = p' := by
  rw [ngxInet6Ntop_fields, ngxInet6Ntop_fields] at h
  have hne : ∀ q, inet6AddrFields q ≠ [] := fun q hnil => by
    have := one_lt_length_inet6AddrFields q
    simp [hnil] at this
  have hfields : inet6AddrFields p = inet6AddrFields p' :=
    joinWith_injective (hne p) (hne p') (fun x hx => colon_notMem_inet6AddrFields hx)
      (fun x hx => colon_notMem_inet6AddrFields hx) h
  apply inet6Groups_injective
  rw [← expandFields_inet6AddrFields p, hfields, expandFields_inet6AddrFields]

theorem colon_mem_ngxInet6Ntop (p : Vector UInt8 16) : colon ∈ ngxInet6Ntop p ngxInet6AddrStrLen := by
  have hlen := one_lt_length_inet6AddrFields p
  rw [ngxInet6Ntop_fields]
  match hfields : inet6AddrFields p with
  | [] => simp [hfields] at hlen
  | [x] => simp [hfields] at hlen
  | x :: y :: l => simp [joinWith]

theorem numText_byte_length (a : UInt8) : (sprintfUd a.toNat).length ≤ 3 := by
  unfold sprintfUd numText
  split_ifs
  · simp
  · rw [List.length_reverse, List.length_map]
    exact Nat.digits_length_le_iff (by decide) _ |>.mpr (by have := a.toNat_lt; omega)

/-- A dotted decimal address fits `NGX_INET_ADDRSTRLEN`. -/
theorem sprintfQuad_length (a b c d : UInt8) : (sprintfQuad a b c d).length ≤ ngxInetAddrStrLen := by
  have ha := numText_byte_length a
  have hb := numText_byte_length b
  have hc := numText_byte_length c
  have hd := numText_byte_length d
  simp only [sprintfQuad, joinWith, List.length_append, List.length_cons, ngxInetAddrStrLen]
  omega

end NginxDtls
