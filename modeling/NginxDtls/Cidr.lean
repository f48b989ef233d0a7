import NginxDtls.BitPrefix
import NginxDtls.InetRoundTrip

/-! CIDR rules: `ngx_ptocidr` and `ngx_cidr_match` of `ngx_inet.c`. An `in_addr_t` is the four bytes that it has in
memory, the address in network order, so that `&` of two of them goes byte by byte. -/

namespace NginxDtls

/-- `ngx_cidr_t`; the union has the address and the mask of the family. -/
inductive Cidr where
  | inet (addr mask : Vector UInt8 4)
  | inet6 (addr mask : ℕ → UInt8)
  | unix

/-- `a & b` of two `in_addr_t`. -/
def inAddrAnd (a b : Vector UInt8 4) : Vector UInt8 4 :=
  let byte (i : ℕ) : UInt8 := a.toList.getD i 0 &&& b.toList.getD i 0
  #v[byte 0, byte 1, byte 2, byte 3]

def slash : UInt8 := 47

/-- The loop over the bytes of an IPv6 address, from byte `i` on: the address, the mask and `rc`. -/
def ptocidrLoop : ℕ → ℕ → ℕ → (ℕ → UInt8) → (ℕ → UInt8) → NgxInt → (ℕ → UInt8) × (ℕ → UInt8) × NgxInt
  | 0, _, _, addr, mask, rc => (addr, mask, rc)
  | k + 1, i, shift, addr, mask, rc =>
    let s := if shift > 8 then 8 else shift
    let mask := Function.update mask i (maskByte s)
    if addr i ≠ addr i &&& mask i then
      ptocidrLoop k (i + 1) (shift - s) (Function.update addr i (addr i &&& mask i)) mask .done
    else ptocidrLoop k (i + 1) (shift - s) addr mask rc

/-- `ngx_ptocidr` into a structure whose union holds any bytes; `none` is `NGX_ERROR`. -/
def ngxPtocidr (fresh : ℕ → UInt8) (text : List UInt8) : Option (NgxInt × Cidr) :=
  let host := text.takeWhile (· ≠ slash)
  if ngxInetAddr host ≠ inaddrNone then
    let addr := inetBytes (ngxInetAddr host)
    match text.dropWhile (· ≠ slash) with
    | [] => some (.ok, .inet addr (inetBytes 0xffffffff))
    | _ :: bits =>
      match ngxAtoi bits with
      | none => none
      | some shift =>
        if shift > 32 then none
        else
          let mask := if shift ≠ 0 then inetBytes (0xffffffff <<< UInt32.ofNat (32 - shift)) else inetBytes 0
          if addr = inAddrAnd addr mask then some (.ok, .inet addr mask)
          else some (.done, .inet (inAddrAnd addr mask) mask)
  else
    match ngxInet6Addr host fresh with
    | none => none
    | some addr =>
      match text.dropWhile (· ≠ slash) with
      | [] => some (.ok, .inet6 addr fun _ => 0xff)
      | _ :: bits =>
        match ngxAtoi bits with
        | none => none
        | some shift =>
          if shift > 128 then none
          else
            let res := ptocidrLoop 16 0 shift addr fresh .ok
            some (res.2.2, .inet6 res.1 res.2.1)

/-- `IN6_IS_ADDR_V4MAPPED` -/
def in6IsAddrV4mapped (p : Vector UInt8 16) : Bool :=
  (List.range 10).all (fun i => p.toList.getD i 0 = 0) ∧ p.toList.getD 10 0 = 0xff ∧ p.toList.getD 11 0 = 0xff

/-- The family of a client, and `inaddr` or `inaddr6`. -/
inductive CidrClient where
  | inet (inaddr : Vector UInt8 4)
  | inet6 (inaddr6 : Vector UInt8 16)
  | unix

/-- The beginning of `ngx_cidr_match`. -/
def cidrClient : Sockaddr → CidrClient
  | .inet _ addr => .inet addr
  | .inet6 _ _ p _ =>
    if in6IsAddrV4mapped p then
      .inet (inetBytes (UInt32.ofNat ((p.toList.getD 12 0).toNat <<< 24) +
        UInt32.ofNat ((p.toList.getD 13 0).toNat <<< 16) + UInt32.ofNat ((p.toList.getD 14 0).toNat <<< 8) +
        UInt32.ofNat (p.toList.getD 15 0).toNat))
    else .inet6 p
  | .unix _ => .unix

/-- A round of the loop of `ngx_cidr_match` that does not go on to the next rule. -/
def cidrHit : CidrClient → Cidr → Bool
  | .inet inaddr, .inet addr mask => inAddrAnd inaddr mask = addr
  | .inet6 inaddr6, .inet6 addr mask => (List.range 16).all fun n => inaddr6.toList.getD n 0 &&& mask n = addr n
  | .unix, .unix => true
  | _, _ => false

def cidrMatchLoop (client : CidrClient) : List Cidr → NgxInt
  | [] => .declined
  | cidr :: cidrs => if cidrHit client cidr then .ok else cidrMatchLoop client cidrs

def ngxCidrMatch (sa : Sockaddr) (cidrs : List Cidr) : NgxInt := cidrMatchLoop (cidrClient sa) cidrs

/-! ### What a rule means -/

/-- An address of one of the two families, as its bytes. -/
inductive IpAddress where
  | v4 (bytes : ℕ → UInt8)
  | v6 (bytes : ℕ → UInt8)

namespace IpAddress

def width : IpAddress → ℕ
  | .v4 _ => 32
  | .v6 _ => 128

/-- An address has the family of the other one and agrees with it in its first `n` bits. -/
def InPrefix : IpAddress → IpAddress → ℕ → Prop
  | .v4 client, .v4 addr, n => ∀ i < n, bitAt client i = bitAt addr i
  | .v6 client, .v6 addr, n => ∀ i < n, bitAt client i = bitAt addr i
  | _, _, _ => False

end IpAddress

/-- The address of an IPv4 or IPv6 client. An IPv4-mapped address is the IPv4 address of its last four bytes. -/
def clientAddress : Sockaddr → Option IpAddress
  | .inet _ addr => some (.v4 fun i => addr.toList.getD i 0)
  | .inet6 _ _ p _ =>
    if (∀ i < 10, p.toList.getD i 0 = 0) ∧ p.toList.getD 10 0 = 0xff ∧ p.toList.getD 11 0 = 0xff then
      some (.v4 fun i => p.toList.getD (12 + i) 0)
    else some (.v6 fun i => p.toList.getD i 0)
  | .unix _ => none

/-- The address in a text, up to a slash. -/
def ruleAddress (fresh : ℕ → UInt8) (text : List UInt8) : Option IpAddress :=
  let host := text.takeWhile (· ≠ slash)
  if ngxInetAddr host ≠ inaddrNone then some (.v4 fun i => (inetBytes (ngxInetAddr host)).toList.getD i 0)
  else (ngxInet6Addr host fresh).map .v6

/-- The prefix length in a text, behind the slash. -/
def ruleLength (text : List UInt8) (width : ℕ) : Option ℕ :=
  match text.dropWhile (· ≠ slash) with
  | [] => some width
  | _ :: bits => ngxAtoi bits

/-! ### Masks -/

theorem ptocidrLoop_spec (k i shift : ℕ) (addr mask : ℕ → UInt8) (rc : NgxInt) :
    (∀ j, i ≤ j → j < i + k → (ptocidrLoop k i shift addr mask rc).2.1 j = maskAt shift (j - i) ∧
        (ptocidrLoop k i shift addr mask rc).1 j = addr j &&& maskAt shift (j - i)) ∧
      ∀ j < i, (ptocidrLoop k i shift addr mask rc).2.1 j = mask j ∧ (ptocidrLoop k i shift addr mask rc).1 j = addr j := by
  induction k generalizing i shift addr mask rc with
  | zero => exact ⟨fun j hle hlt => absurd hlt (by omega), fun j _ => ⟨rfl, rfl⟩⟩
  | succ k ih =>
      have hs : (if shift > 8 then 8 else shift) = min 8 shift := by split <;> omega
      rw [ptocidrLoop, hs, Function.update_self]
      have hfirst : maskByte (min 8 shift) = maskAt shift (i - i) := by
        rw [Nat.sub_self]
        rfl
      have hnext : ∀ j, i + 1 ≤ j → maskAt (shift - min 8 shift) (j - (i + 1)) = maskAt shift (j - i) := fun j hj => by
        unfold maskAt
        congr 2
        omega
      -- one round, whether it changes the byte or not
      have hround : ∀ addr' rc', (addr' = Function.update addr i (addr i &&& maskByte (min 8 shift))) →
          (∀ j, i ≤ j → j < i + (k + 1) →
            (ptocidrLoop k (i + 1) (shift - min 8 shift) addr' (Function.update mask i (maskByte (min 8 shift))) rc').2.1 j =
                maskAt shift (j - i) ∧
              (ptocidrLoop k (i + 1) (shift - min 8 shift) addr' (Function.update mask i (maskByte (min 8 shift))) rc').1 j =
                addr j &&& maskAt shift (j - i)) ∧
          ∀ j < i,
            (ptocidrLoop k (i + 1) (shift - min 8 shift) addr' (Function.update mask i (maskByte (min 8 shift))) rc').2.1 j =
                mask j ∧
              (ptocidrLoop k (i + 1) (shift - min 8 shift) addr' (Function.update mask i (maskByte (min 8 shift))) rc').1 j =
                addr j := by
        rintro addr' rc' rfl
        obtain ⟨hbehind, hbefore⟩ := ih (i + 1) (shift - min 8 shift)
          (Function.update addr i (addr i &&& maskByte (min 8 shift))) (Function.update mask i (maskByte (min 8 shift))) rc'
        refine ⟨fun j hle hlt => ?_, fun j hj => ?_⟩
        · rcases Nat.eq_or_lt_of_le hle with rfl | hij
          · obtain ⟨hmask, haddr⟩ := hbefore i (Nat.lt_succ_self i)
            rw [hmask, haddr, Function.update_self, Function.update_self, hfirst]
            exact ⟨rfl, rfl⟩
          · obtain ⟨hmask, haddr⟩ := hbehind j hij (by omega)
            rw [hmask, haddr, Function.update_of_ne (by omega), hnext j hij]
            exact ⟨rfl, rfl⟩
        · obtain ⟨hmask, haddr⟩ := hbefore j (by omega)
          rw [hmask, haddr, Function.update_of_ne (by omega), Function.update_of_ne (by omega)]
          exact ⟨rfl, rfl⟩
      split
      · exact hround _ .done rfl
      · rename_i hsame
        exact hround addr rc (by rw [← not_not.mp hsame, Function.update_eq_self])

/-- The mask of an IPv4 rule in memory. -/
theorem inetMask_byte {shift j : ℕ} (hshift : shift ≤ 32) (hj : j < 4) :
    (if shift ≠ 0 then inetBytes (0xffffffff <<< UInt32.ofNat (32 - shift)) else inetBytes 0).toList.getD j 0 =
      maskAt shift j := by
  have hall : ∀ shift ≤ 32, ∀ j < 4,
      (if shift ≠ 0 then inetBytes (0xffffffff <<< UInt32.ofNat (32 - shift)) else inetBytes 0).toList.getD j 0 =
        maskAt shift j := by decide
  exact hall shift hshift j hj

theorem maskAt_full {width j : ℕ} (hj : 8 * j + 8 ≤ width) : maskAt width j = 0xff := by
  rw [maskAt, Nat.min_eq_left (by omega)]
  rfl

theorem and_full (x : UInt8) : x &&& 0xff = x := by
  refine byte_eq_iff.mpr fun k hk => ?_
  have hbit : (0xff : UInt8).toBitVec.getMsbD k = true := by
    have hall : ∀ k < 8, (0xff : UInt8).toBitVec.getMsbD k = true := by decide
    exact hall k hk
  rw [UInt8.toBitVec_and, BitVec.getMsbD_and, hbit, Bool.and_true]

theorem getD_vector {n : ℕ} (p : Vector UInt8 n) {j : ℕ} (hj : j < n) : p.toList.getD j 0 = p[j] := by
  have hlt : j < p.toList.length := by rw [Vector.length_toList]; exact hj
  rw [List.getD_eq_getElem _ _ hlt, Vector.getElem_toList]

theorem getD_inAddrAnd (a b : Vector UInt8 4) {j : ℕ} (hj : j < 4) :
    (inAddrAnd a b).toList.getD j 0 = a.toList.getD j 0 &&& b.toList.getD j 0 := by
  rw [getD_vector _ hj]
  interval_cases j <;> rfl

theorem inAddr_eq_iff {a b : Vector UInt8 4} : a = b ↔ ∀ j < 4, a.toList.getD j 0 = b.toList.getD j 0 := by
  constructor
  · rintro rfl j _
    rfl
  · intro h
    refine Vector.ext fun j hj => ?_
    rw [← getD_vector a hj, ← getD_vector b hj]
    exact h j hj

/-! ### Rules -/

/-- A rule as it is stored: the first bits of an address, with their mask. -/
def Stored : Cidr → IpAddress → ℕ → Prop
  | .inet addr mask, .v4 a, n =>
    n ≤ 32 ∧ ∀ j < 4, mask.toList.getD j 0 = maskAt n j ∧ addr.toList.getD j 0 = a j &&& maskAt n j
  | .inet6 addr mask, .v6 a, n => n ≤ 128 ∧ ∀ j < 16, mask j = maskAt n j ∧ addr j = a j &&& maskAt n j
  | _, _, _ => False

theorem ngxPtocidr_inet {fresh : ℕ → UInt8} {text : List UInt8} {rc : NgxInt} {cidr : Cidr}
    (hhost : ngxInetAddr (text.takeWhile (· ≠ slash)) ≠ inaddrNone) (h : ngxPtocidr fresh text = some (rc, cidr)) :
    ∃ n, ruleLength text 32 = some n ∧
      Stored cidr (.v4 fun i => (inetBytes (ngxInetAddr (text.takeWhile (· ≠ slash)))).toList.getD i 0) n := by
  rw [ngxPtocidr] at h
  dsimp only at h
  rw [if_pos hhost] at h
  rw [ruleLength]
  cases hbits : text.dropWhile (· ≠ slash) with
  | nil =>
      rw [hbits] at h
      cases h
      refine ⟨32, rfl, Nat.le_refl 32, fun j hj => ?_⟩
      have hbyte : (inetBytes 0xffffffff).toList.getD j 0 = 0xff := by
        have hall : ∀ j < 4, (inetBytes 0xffffffff).toList.getD j 0 = 0xff := by decide
        exact hall j hj
      rw [maskAt_full (by omega), and_full]
      exact ⟨hbyte, rfl⟩
  | cons c bits =>
      rw [hbits] at h
      dsimp only at h ⊢
      cases hshift : ngxAtoi bits with
      | none =>
          rw [hshift] at h
          cases h
      | some shift =>
          rw [hshift] at h
          dsimp only at h
          by_cases hlarge : shift > 32
          · rw [if_pos hlarge] at h
            cases h
          · rw [if_neg hlarge] at h
            have hle : shift ≤ 32 := Nat.le_of_not_lt hlarge
            refine ⟨shift, rfl, ?_⟩
            generalize hmask : (if shift ≠ 0 then inetBytes (0xffffffff <<< UInt32.ofNat (32 - shift)) else inetBytes 0) =
              mask at h
            have hbyte : ∀ j < 4, mask.toList.getD j 0 = maskAt shift j := fun j hj => by
              rw [← hmask]
              exact inetMask_byte hle hj
            generalize inetBytes (ngxInetAddr (text.takeWhile (· ≠ slash))) = addr at h ⊢
            -- the address is masked in both cases
            have hmasked : cidr = .inet (inAddrAnd addr mask) mask := by
              split at h
              · rename_i hsame
                rw [← hsame]
                exact ((Prod.mk.inj (Option.some.inj h)).2).symm
              · exact ((Prod.mk.inj (Option.some.inj h)).2).symm
            rw [hmasked]
            refine ⟨hle, fun j hj => ⟨hbyte j hj, ?_⟩⟩
            rw [getD_inAddrAnd addr mask hj, hbyte j hj]

theorem ngxPtocidr_inet6 {fresh addr : ℕ → UInt8} {text : List UInt8} {rc : NgxInt} {cidr : Cidr}
    (hhost : ¬ngxInetAddr (text.takeWhile (· ≠ slash)) ≠ inaddrNone)
    (haddr : ngxInet6Addr (text.takeWhile (· ≠ slash)) fresh = some addr) (h : ngxPtocidr fresh text = some (rc, cidr)) :
    ∃ n, ruleLength text 128 = some n ∧ Stored cidr (.v6 addr) n := by
  rw [ngxPtocidr] at h
  dsimp only at h
  rw [if_neg hhost, haddr] at h
  rw [ruleLength]
  cases hbits : text.dropWhile (· ≠ slash) with
  | nil =>
      rw [hbits] at h
      cases h
      refine ⟨128, rfl, Nat.le_refl 128, fun j hj => ?_⟩
      rw [maskAt_full (by omega), and_full]
      exact ⟨rfl, rfl⟩
  | cons c bits =>
      rw [hbits] at h
      dsimp only at h ⊢
      cases hshift : ngxAtoi bits with
      | none =>
          rw [hshift] at h
          cases h
      | some shift =>
          rw [hshift] at h
          dsimp only at h
          by_cases hlarge : shift > 128
          · rw [if_pos hlarge] at h
            cases h
          · rw [if_neg hlarge] at h
            cases h
            refine ⟨shift, rfl, Nat.le_of_not_lt hlarge, fun j hj => ?_⟩
            exact (ptocidrLoop_spec 16 0 shift addr fresh .ok).1 j (Nat.zero_le j) (by omega)

/-- An accepted text is stored as the first bits of its address. -/
theorem ngxPtocidr_stored {fresh : ℕ → UInt8} {text : List UInt8} {rc : NgxInt} {cidr : Cidr}
    (h : ngxPtocidr fresh text = some (rc, cidr)) :
    ∃ a n, ruleAddress fresh text = some a ∧ ruleLength text a.width = some n ∧ Stored cidr a n := by
  rw [ruleAddress]
  by_cases hhost : ngxInetAddr (text.takeWhile (· ≠ slash)) ≠ inaddrNone
  · obtain ⟨n, hlength, hstored⟩ := ngxPtocidr_inet hhost h
    rw [if_pos hhost]
    exact ⟨_, n, rfl, hlength, hstored⟩
  · rw [if_neg hhost]
    cases haddr : ngxInet6Addr (text.takeWhile (· ≠ slash)) fresh with
    | none =>
        rw [ngxPtocidr] at h
        dsimp only at h
        rw [if_neg hhost, haddr] at h
        cases h
    | some addr =>
        obtain ⟨n, hlength, hstored⟩ := ngxPtocidr_inet6 hhost haddr h
        exact ⟨_, n, rfl, hlength, hstored⟩

theorem Stored.le_width {cidr : Cidr} {a : IpAddress} {n : ℕ} (h : Stored cidr a n) : n ≤ a.width := by
  cases cidr <;> cases a
  case inet.v4 => exact h.1
  case inet6.v6 => exact h.1
  all_goals exact h.elim

/-! ### Clients -/

/-- A client as `ngx_cidr_match` takes it has the bytes of an address. -/
def CidrClient.Is : CidrClient → IpAddress → Prop
  | .inet inaddr, .v4 bytes => ∀ j < 4, inaddr.toList.getD j 0 = bytes j
  | .inet6 inaddr6, .v6 bytes => ∀ j < 16, inaddr6.toList.getD j 0 = bytes j
  | _, _ => False

theorem shifted_quad (a b c d : UInt8) : UInt32.ofNat (a.toNat <<< 24) + UInt32.ofNat (b.toNat <<< 16) +
    UInt32.ofNat (c.toNat <<< 8) + UInt32.ofNat d.toNat = quadAddr a b c d := by
  rw [quadAddr, ← UInt32.ofNat_add, ← UInt32.ofNat_add, ← UInt32.ofNat_add]
  simp only [Nat.shiftLeft_eq]

theorem cidrClient_is {sa : Sockaddr} {client : IpAddress} (h : clientAddress sa = some client) :
    (cidrClient sa).Is client := by
  cases sa with
  | inet port addr =>
      cases h
      exact fun j _ => rfl
  | unix path => cases h
  | inet6 port flowinfo p scopeId =>
      have hmapped : in6IsAddrV4mapped p = true ↔
          (∀ i < 10, p.toList.getD i 0 = 0) ∧ p.toList.getD 10 0 = 0xff ∧ p.toList.getD 11 0 = 0xff := by
        rw [in6IsAddrV4mapped, decide_eq_true_iff, List.all_eq_true]
        simp only [List.mem_range, decide_eq_true_eq]
      rw [clientAddress] at h
      rw [cidrClient]
      split at h
      · rename_i hyes
        cases h
        rw [if_pos (hmapped.mpr hyes), shifted_quad, inetBytes_quadAddr]
        intro j hj
        interval_cases j <;> rfl
      · rename_i hno
        cases h
        rw [if_neg (mt hmapped.mp hno)]
        exact fun j _ => rfl

/-! ### Matching -/

theorem cidrHit_iff {c : CidrClient} {client : IpAddress} {cidr : Cidr} {a : IpAddress} {n : ℕ} (hc : c.Is client)
    (h : Stored cidr a n) : cidrHit c cidr = true ↔ client.InPrefix a n := by
  cases cidr with
  | unix => cases a <;> cases h
  | inet addr mask =>
      cases a with
      | v6 a => cases h
      | v4 a =>
          obtain ⟨hn, hbytes⟩ := h
          cases c <;> cases client
          case inet.v4 inaddr bytes =>
              rw [IpAddress.InPrefix, ← masked_iff (show n ≤ 8 * 4 from hn), cidrHit, decide_eq_true_iff, inAddr_eq_iff]
              refine forall₂_congr fun j hj => ?_
              rw [getD_inAddrAnd inaddr mask hj, (hbytes j hj).1, (hbytes j hj).2, hc j hj]
          case inet6.v6 => exact iff_of_false Bool.false_ne_true not_false
          all_goals cases hc
  | inet6 addr mask =>
      cases a with
      | v4 a => cases h
      | v6 a =>
          obtain ⟨hn, hbytes⟩ := h
          cases c <;> cases client
          case inet6.v6 inaddr6 bytes =>
              rw [IpAddress.InPrefix, ← masked_iff (show n ≤ 8 * 16 from hn), cidrHit, List.all_eq_true]
              simp only [List.mem_range, decide_eq_true_eq]
              refine forall₂_congr fun j hj => ?_
              rw [(hbytes j hj).1, (hbytes j hj).2, hc j hj]
          case inet.v4 => exact iff_of_false Bool.false_ne_true not_false
          all_goals cases hc

theorem cidrMatchLoop_iff (c : CidrClient) (cidrs : List Cidr) :
    cidrMatchLoop c cidrs = .ok ↔ ∃ cidr ∈ cidrs, cidrHit c cidr = true := by
  induction cidrs with
  | nil => exact iff_of_false (fun h => by cases h) (by simp)
  | cons cidr cidrs ih =>
      rw [cidrMatchLoop, List.exists_mem_cons_iff]
      split
      · rename_i hhit
        exact iff_of_true rfl (Or.inl hhit)
      · rename_i hmiss
        rw [ih]
        exact ⟨Or.inr, fun h => h.resolve_left hmiss⟩

/-- A rule matches the clients of its family that agree with its address in the first bits, and a list of rules those
that some rule matches. -/
theorem cidr_prefixes {fresh : ℕ → UInt8} {text : List UInt8} {rc : NgxInt} {cidr : Cidr}
    (h : ngxPtocidr fresh text = some (rc, cidr)) :
    ∃ a n, ruleAddress fresh text = some a ∧ ruleLength text a.width = some n ∧ n ≤ a.width ∧
      (∀ sa client, clientAddress sa = some client → (ngxCidrMatch sa [cidr] = .ok ↔ client.InPrefix a n)) ∧
      ∀ sa cidrs, ngxCidrMatch sa cidrs = .ok ↔ ∃ rule ∈ cidrs, ngxCidrMatch sa [rule] = .ok := by
  obtain ⟨a, n, haddress, hlength, hstored⟩ := ngxPtocidr_stored h
  have hone : ∀ sa rule, ngxCidrMatch sa [rule] = .ok ↔ cidrHit (cidrClient sa) rule = true := fun sa rule => by
    rw [ngxCidrMatch, cidrMatchLoop_iff]
    simp
  refine ⟨a, n, haddress, hlength, hstored.le_width, fun sa client hclient => ?_, fun sa cidrs => ?_⟩
  · rw [hone]
    exact cidrHit_iff (cidrClient_is hclient) hstored
  · rw [ngxCidrMatch, cidrMatchLoop_iff]
    simp only [hone]

/-- `10.1.2.3/8` -/
theorem cidr_prefixes_ten : ∃ cidr, ngxPtocidr (fun _ => 0) [49, 48, 46, 49, 46, 50, 46, 51, 47, 56] = some (.done, cidr) ∧
    ∃ a n, ruleAddress (fun _ => 0) [49, 48, 46, 49, 46, 50, 46, 51, 47, 56] = some a ∧
      ruleLength [49, 48, 46, 49, 46, 50, 46, 51, 47, 56] a.width = some n ∧ n ≤ a.width ∧
      (∀ sa client, clientAddress sa = some client → (ngxCidrMatch sa [cidr] = .ok ↔ client.InPrefix a n)) ∧
      ∀ sa cidrs, ngxCidrMatch sa cidrs = .ok ↔ ∃ rule ∈ cidrs, ngxCidrMatch sa [rule] = .ok :=
  ⟨.inet (inAddrAnd (inetBytes 0x0a010203) (inetBytes 0xff000000)) (inetBytes 0xff000000), by rfl, cidr_prefixes (by rfl)⟩

end NginxDtls
