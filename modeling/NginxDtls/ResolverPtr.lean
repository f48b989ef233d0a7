import NginxDtls.InetParse
import NginxDtls.ResolverQuery

/-! Reverse lookups. `ngx_resolver_create_addr_query` writes an address from its end, octet by octet in decimal or digit
by digit in hexadecimal; `ngx_resolver_process_ptr` reads the address from the question that a response brings back. -/

namespace NginxDtls.Dns

open Reading Text

/-- `addr->sockaddr`: an IPv4 address after `ntohl`, or the bytes of an IPv6 address. -/
inductive PtrAddr where
  | inet (inaddr : UInt32)
  | inet6 (s6Addr : Vector UInt8 16)

/-- `rn->query` in a block of `len` bytes, and `rn->qlen`. -/
structure AddrQuery where
  len : ℕ
  query : List UInt8
  qlen : ℕ
  deriving DecidableEq, Repr

/-- `d = ngx_sprintf(&p[1], "%ud", octet); *p = (u_char) (d - &p[1]);` -/
def putOctet (octet : ℕ) : List UInt8 := UInt8.ofNat (sprintfUd octet).length :: sprintfUd octet

/-- `ngx_sprintf(p, "\1%xd\1%xd", addr & 0xf, (addr >> 4) & 0xf)` -/
def putNibbles (addr : UInt8) : List UInt8 :=
  1 :: sprintfXd (addr &&& 0xf).toNat ++ 1 :: sprintfXd (addr >>> 4 &&& 0xf).toNat

/-- `ngx_resolver_create_addr_query`; `none` is `NGX_ERROR`. -/
def ngxResolverCreateAddrQuery (alloc : Bool) (ident : ℕ) (addr : PtrAddr) : Option AddrQuery :=
  let len := match addr with
    | .inet6 _ => 12 + 64 + 10 + 4
    | .inet _ => 12 + 30 + 4
  if !alloc then none
  else
    let name := match addr with
      | .inet6 s6Addr => s6Addr.toList.reverse.flatMap putNibbles ++ ip6Arpa
      | .inet inaddr => ([0, 8, 16, 24] : List UInt32).flatMap (fun n => putOctet (inaddr >>> n &&& 0xff).toNat) ++ inAddrArpa
    let query := queryHeader ident ++ name ++ querySuffix ngxResolvePtr
    some { len, query, qlen := query.length % 65536 }

/-- `ngx_resolver_process_ptr` from the label `valid` on, for an address whose name ends at `i`. -/
def finishAddr (alloc : Site → Bool) (r : Resolver) (m : Answers) (addr : PtrAddr) (i : ℕ) : Read Outcome :=
  match addr with
  | .inet inaddr => do
    let res ← finishPtr alloc r m r.addrs inaddr.toNat i
    pure (res.1, { r with addrs := res.2.1 }, res.2.2)
  | .inet6 s6Addr => do
    let res ← finishPtr alloc r m r.addrs6 s6Addr.toList i
    pure (res.1, { r with addrs6 := res.2.1 }, res.2.2)

/-! ### Labels of an address -/

/-- The labels of the name of an address. -/
def addrLabels : PtrAddr → List (List UInt8)
  | .inet inaddr => (([0, 8, 16, 24] : List UInt32).map fun n => sprintfUd (inaddr >>> n &&& 0xff).toNat) ++
      [[105, 110, 45, 97, 100, 100, 114], [97, 114, 112, 97]]
  | .inet6 s6Addr => s6Addr.toList.reverse.flatMap (fun addr : UInt8 => [sprintfXd (addr &&& 0xf).toNat,
      sprintfXd (addr >>> 4 &&& 0xf).toNat]) ++ [[105, 112, 54], [97, 114, 112, 97]]

theorem sprintfXd_nibble {d : ℕ} (hd : d < 16) : sprintfXd d = [digitChar d] := by
  rw [sprintfXd, numText]
  split_ifs with hzero
  · rw [hzero]
  · rw [Nat.digits_of_lt 16 d hzero hd]
    rfl

theorem nibbles_toNat (addr : UInt8) :
    (addr &&& 0xf).toNat = addr.toNat % 16 ∧ (addr >>> 4 &&& 0xf).toNat = addr.toNat / 16 := by
  have hmask : ∀ x : UInt8, (x &&& 0xf).toNat = x.toNat % 16 := fun x => by
    rw [UInt8.toNat_and]
    exact Nat.and_two_pow_sub_one_eq_mod x.toNat 4
  have hlt := addr.toNat_lt
  refine ⟨hmask addr, ?_⟩
  rw [hmask, UInt8.toNat_shiftRight, Nat.shiftRight_eq_div_pow]
  exact Nat.mod_eq_of_lt (by simp; omega)

theorem nibble_lt (addr : UInt8) : (addr &&& 0xf).toNat < 16 ∧ (addr >>> 4 &&& 0xf).toNat < 16 := by
  have hlt := addr.toNat_lt
  rw [(nibbles_toNat addr).1, (nibbles_toNat addr).2]
  omega

theorem sprintfUd_length {v : ℕ} (hv : v < 256) : 0 < (sprintfUd v).length ∧ (sprintfUd v).length ≤ 3 := by
  refine ⟨List.length_pos_iff.mpr (numText_ne_nil 10 v), ?_⟩
  rw [sprintfUd, numText]
  split_ifs with hzero
  · exact Nat.one_le_ofNat
  · rw [List.length_reverse, List.length_map, Nat.digits_length_le_iff (by decide)]
    omega

theorem octet_toNat (x : UInt32) : (x &&& 0xff).toNat = x.toNat % 256 := by
  rw [UInt32.toNat_and]
  exact Nat.and_two_pow_sub_one_eq_mod x.toNat 8

theorem octet_lt (x : UInt32) : (x &&& 0xff).toNat < 256 := by
  rw [octet_toNat]
  exact Nat.mod_lt _ (by decide)

theorem putNibbles_eq (addr : UInt8) :
    putNibbles addr = [1, digitChar (addr &&& 0xf).toNat] ++ [1, digitChar (addr >>> 4 &&& 0xf).toNat] := by
  obtain ⟨hlow, hhigh⟩ := nibble_lt addr
  rw [putNibbles, sprintfXd_nibble hlow, sprintfXd_nibble hhigh]

theorem length_flatMap_putNibbles (addrs : List UInt8) : (addrs.flatMap putNibbles).length = 4 * addrs.length := by
  induction addrs with
  | nil => rfl
  | cons addr addrs ih =>
    rw [List.flatMap_cons, List.length_append, ih, putNibbles_eq, List.length_cons, Nat.mul_succ, Nat.add_comm]
    rfl

/-- The bytes that the name of an address has in a query. -/
def addrName : PtrAddr → List UInt8
  | .inet inaddr => ([0, 8, 16, 24] : List UInt32).flatMap (fun n => putOctet (inaddr >>> n &&& 0xff).toNat) ++ inAddrArpa
  | .inet6 s6Addr => s6Addr.toList.reverse.flatMap putNibbles ++ ip6Arpa

theorem addrName_wire (addr : PtrAddr) : addrName addr = wire (addrLabels addr) := by
  cases addr with
  | inet inaddr =>
    rw [addrName, addrLabels, wire, List.flatMap_append, List.flatMap_map, List.append_assoc]
    rfl
  | inet6 s6Addr =>
    rw [addrName, addrLabels, wire, List.flatMap_append, List.append_assoc, List.flatMap_assoc]
    congr 1
    refine List.flatMap_congr fun addr _ => ?_
    obtain ⟨hlow, hhigh⟩ := nibble_lt addr
    rw [putNibbles, sprintfXd_nibble hlow, sprintfXd_nibble hhigh]
    rfl

theorem addrLabels_fit (addr : PtrAddr) : ∀ l ∈ addrLabels addr, 0 < l.length ∧ l.length ≤ 63 := by
  intro l hl
  cases addr with
  | inet inaddr =>
    rcases List.mem_append.mp hl with hl | hl
    · obtain ⟨n, -, rfl⟩ := List.mem_map.mp hl
      obtain ⟨hpos, hle⟩ := sprintfUd_length (octet_lt (inaddr >>> n))
      exact ⟨hpos, Nat.le_trans hle (by decide)⟩
    · have hall : ∀ l ∈ ([[105, 110, 45, 97, 100, 100, 114], [97, 114, 112, 97]] : List (List UInt8)),
          0 < l.length ∧ l.length ≤ 63 := by decide
      exact hall l hl
  | inet6 s6Addr =>
    rcases List.mem_append.mp hl with hl | hl
    · obtain ⟨addr, -, hl⟩ := List.mem_flatMap.mp hl
      obtain ⟨hlow, hhigh⟩ := nibble_lt addr
      rw [sprintfXd_nibble hlow, sprintfXd_nibble hhigh] at hl
      rcases List.mem_pair.mp hl with rfl | rfl <;> exact ⟨Nat.one_pos, Nat.one_le_ofNat⟩
    · have hall : ∀ l ∈ ([[105, 112, 54], [97, 114, 112, 97]] : List (List UInt8)),
          0 < l.length ∧ l.length ≤ 63 := by decide
      exact hall l hl

theorem addrLabels_length (addr : PtrAddr) : (addrLabels addr).length < 128 := by
  cases addr with
  | inet inaddr => exact (by decide : 6 < 128)
  | inet6 s6Addr => simp [addrLabels, List.length_flatMap]

/-! ### Reading the name of an address -/

section Reading

variable {b : ℕ → UInt8} {i : ℕ}

theorem ngxAtoi_holds {l : List UInt8} {value : ℕ} (h : Holds b i l) : (ngxAtoi l.length i value).val b = atoiLoop l value := by
  induction l generalizing i value with
  | nil => rfl
  | cons c l ih =>
    obtain ⟨hc, hl⟩ := holds_cons.mp h
    rw [List.length_cons, ngxAtoi, atoiLoop]
    simp only [val_rd_bind, val_ite, val_pure, hc, ih hl]
    congr 1

/-- A label in decimal is read as an octet. -/
theorem readOctets_putOctet {k mask addr v : ℕ} (hv : v < 256) (h : Holds b i (putOctet v)) :
    (readOctets (k + 1) mask i addr).val b = (readOctets k (mask + 8) (i + (putOctet v).length) (addr + v * 2 ^ mask)).val b := by
  obtain ⟨hlen, hdigits⟩ := holds_cons.mp h
  obtain ⟨hpos, hle⟩ := sprintfUd_length hv
  have hatoi := @ngxAtoi_sprintfUd v (by omega)
  rw [NginxDtls.ngxAtoi, if_neg (List.length_pos_iff.mp hpos)] at hatoi
  have hread : (rd i).val b = (sprintfUd v).length := by
    rw [val_rd, hlen, toNat_labelLength (by omega)]
  rw [readOctets]
  simp only [val_ite, val_bind, hread, ngxAtoi_holds hdigits, hatoi]
  rw [if_neg (by omega), if_neg (by omega), putOctet, List.length_cons, Nat.add_assoc, Nat.add_comm 1]

theorem ngxStrcasecmp_holds {l : List UInt8} (h : Holds b i l) : (ngxStrcasecmp l i).val b = true := by
  induction l generalizing i with
  | nil => rfl
  | cons c l ih =>
    obtain ⟨hc, hl⟩ := holds_cons.mp h
    rw [ngxStrcasecmp]
    simp only [val_byteAt_bind, val_ite, val_pure, hc, if_true, ih hl, ite_self]

theorem readNibble_holds {d : ℕ} (hd : d < 16) (h : Holds b i [1, digitChar d]) : (readNibble i).val b = some d := by
  obtain ⟨hlen, hdigit⟩ := holds_cons.mp h
  have hhex : ∀ d < 16, ngxHextoi (digitChar d).toNat = some d := by decide
  rw [readNibble]
  simp only [val_rd_bind, val_ite, val_pure, hlen, (holds_cons.mp hdigit).1]
  rw [if_neg (by decide), hhex d hd]

/-- The digits are read back as the bytes, from the last byte to the first. -/
theorem readAddr6_putNibbles {addrs addr6 : List UInt8} (h : Holds b i (addrs.flatMap putNibbles)) :
    (readAddr6 addrs.length i addr6).val b = some (addrs.reverse ++ addr6, i + 4 * addrs.length) := by
  induction addrs generalizing i addr6 with
  | nil => rfl
  | cons addr addrs ih =>
    obtain ⟨hlow, hhigh⟩ := nibble_lt addr
    rw [List.flatMap_cons] at h
    obtain ⟨hnibbles, hrest⟩ := holds_append.mp h
    rw [putNibbles_eq] at hnibbles hrest
    obtain ⟨hfirst, hsecond⟩ := (holds_append (l := [1, digitChar (addr &&& 0xf).toNat])).mp hnibbles
    have hbyte : UInt8.ofNat ((addr &&& 0xf).toNat + (addr >>> 4 &&& 0xf).toNat * 16) = addr := by
      rw [(nibbles_toNat addr).1, (nibbles_toNat addr).2, Nat.mul_comm _ 16, Nat.mod_add_div, UInt8.ofNat_toNat]
    rw [List.length_cons, readAddr6]
    simp only [val_bind, readNibble_holds hlow hfirst]
    rw [show i + 2 = i + [1, digitChar (addr &&& 0xf).toNat].length from rfl, readNibble_holds hhigh hsecond]
    have hread := @ih (i + 4) (addr :: addr6) hrest
    dsimp only
    rw [hbyte, hread, List.reverse_cons, List.append_assoc, Nat.mul_succ, Nat.add_assoc, Nat.add_comm 4]
    rfl

/-- Every digit is a label of its own. -/
theorem putNibbles_labels {addrs : List UInt8} (h : Holds b i (addrs.flatMap putNibbles)) :
    ∀ t < 2 * addrs.length, b (i + 2 * t) = 1 := by
  induction addrs generalizing i with
  | nil => exact fun t ht => absurd ht (Nat.not_lt_zero t)
  | cons addr addrs ih =>
    intro t ht
    rw [List.flatMap_cons, putNibbles_eq] at h
    obtain ⟨hnibbles, hrest⟩ := holds_append.mp h
    obtain ⟨hfirst, hsecond⟩ := holds_append.mp hnibbles
    rw [List.length_cons] at ht
    match t with
    | 0 => exact (holds_cons.mp hfirst).1
    | 1 => exact (holds_cons.mp hsecond).1
    | t + 2 =>
      have hnext := ih hrest t (by omega)
      rw [show i + 2 * (t + 2) = i + 4 + 2 * t by omega]
      exact hnext

/-- Labels of one byte are passed two bytes at a time. -/
theorem readOctets_short {k mask addr addr' j : ℕ} (hshort : ∀ t < k, b (i + 2 * t) = 1)
    (h : (readOctets k mask i addr).val b = some (addr', j)) : j = i + 2 * k := by
  induction k generalizing mask i addr with
  | zero =>
    cases h
    rfl
  | succ k ih =>
    have hread : (rd i).val b = 1 := by
      rw [val_rd, show b i = 1 from hshort 0 (Nat.succ_pos k)]
      rfl
    rw [readOctets] at h
    simp only [val_ite, val_bind, hread] at h
    rw [if_neg (by decide)] at h
    cases hoctet : (ngxAtoi 1 (i + 1) 0).val b with
    | none =>
      rw [hoctet] at h
      cases h
    | some octet =>
      rw [hoctet] at h
      dsimp only at h
      rw [val_ite] at h
      split_ifs at h with hlarge
      · cases h
      · have hnext := ih (fun t ht => by rw [← hshort (t + 1) (by omega)]; congr 1; omega) h
        omega

/-- The name of an IPv4 address is read back. -/
theorem readInAddr_addrName {inaddr : UInt32} (h : Holds b i (addrName (.inet inaddr))) :
    (readInAddr i).val b = some (inaddr.toNat, i + (addrName (.inet inaddr)).length) := by
  obtain ⟨hoctets, harpa⟩ := holds_append.mp h
  simp only [List.flatMap_cons, List.flatMap_nil, List.append_nil] at hoctets harpa
  obtain ⟨h0, hoctets⟩ := holds_append.mp hoctets
  obtain ⟨h8, hoctets⟩ := holds_append.mp hoctets
  obtain ⟨h16, h24⟩ := holds_append.mp hoctets
  have hsum : 0 + (inaddr >>> 0 &&& 0xff).toNat * 2 ^ 0 + (inaddr >>> 8 &&& 0xff).toNat * 2 ^ (0 + 8) +
      (inaddr >>> 16 &&& 0xff).toNat * 2 ^ (0 + 8 + 8) + (inaddr >>> 24 &&& 0xff).toNat * 2 ^ (0 + 8 + 8 + 8) =
        inaddr.toNat := by
    have hlt := inaddr.toNat_lt
    simp only [octet_toNat, UInt32.toNat_shiftRight, Nat.shiftRight_eq_div_pow]
    simp
    omega
  rw [readInAddr, val_bind, readOctets_putOctet (octet_lt _) h0, readOctets_putOctet (octet_lt _) h8,
    readOctets_putOctet (octet_lt _) h16, readOctets_putOctet (octet_lt _) h24, hsum]
  simp only [List.length_append, ← Nat.add_assoc] at harpa
  simp only [readOctets, val_pure, val_bind, ngxStrcasecmp_holds harpa, if_true]
  simp only [addrName, List.flatMap_cons, List.flatMap_nil, List.append_nil, List.length_append, ← Nat.add_assoc]

/-- The name of an IPv6 address is not the name of an IPv4 address, and is read back. -/
theorem readIp6Addr_addrName {s6Addr : Vector UInt8 16} (h : Holds b i (addrName (.inet6 s6Addr))) :
    (readInAddr i).val b = none ∧
      (readIp6Addr i).val b = some (s6Addr.toList, i + (addrName (.inet6 s6Addr)).length) := by
  obtain ⟨hnibbles, harpa⟩ := holds_append.mp h
  have hlen : s6Addr.toList.reverse.length = 16 := by rw [List.length_reverse, Vector.length_toList]
  have hname : (s6Addr.toList.reverse.flatMap putNibbles).length = 64 := by
    rw [length_flatMap_putNibbles, hlen]
  constructor
  · have hone : ∀ t < 5, b (i + 2 * t) = 1 := fun t ht => putNibbles_labels hnibbles t (by omega)
    rw [readInAddr, val_bind]
    cases hoctets : (readOctets 4 0 i 0).val b with
    | none => rfl
    | some res =>
      obtain ⟨addr', j⟩ := res
      obtain rfl := readOctets_short (fun t ht => hone t (by omega)) hoctets
      have harpa' : (ngxStrcasecmp inAddrArpa (i + 2 * 4)).val b = false := by
        rw [inAddrArpa, ngxStrcasecmp, val_byteAt_bind, hone 4 (by decide), if_neg (by decide)]
        rfl
      dsimp only
      rw [val_bind, harpa']
      rfl
  · have hread := @readAddr6_putNibbles b i _ [] hnibbles
    rw [hlen] at hread
    rw [hname] at harpa
    rw [readIp6Addr, val_bind, hread, List.reverse_reverse, List.append_nil]
    dsimp only
    rw [val_bind, ngxStrcasecmp_holds harpa, addrName, List.length_append, hname]
    rfl

end Reading

/-! ### Responses to queries -/

section Responses

variable {b : ℕ → UInt8}

theorem addrName_length (addr : PtrAddr) :
    (addrName addr).length ≤ match addr with | .inet _ => 30 | .inet6 _ => 74 := by
  cases addr with
  | inet inaddr =>
    have hoctet : ∀ x : UInt32, (putOctet (x &&& 0xff).toNat).length ≤ 4 := fun x => by
      rw [putOctet, List.length_cons]
      exact Nat.succ_le_succ (sprintfUd_length (octet_lt x)).2
    have h0 := hoctet (inaddr >>> 0)
    have h8 := hoctet (inaddr >>> 8)
    have h16 := hoctet (inaddr >>> 16)
    have h24 := hoctet (inaddr >>> 24)
    have harpa : inAddrArpa.length = 14 := rfl
    simp only [addrName, List.flatMap_cons, List.flatMap_nil, List.append_nil, List.length_append]
    omega
  | inet6 s6Addr =>
    rw [addrName, List.length_append, length_flatMap_putNibbles, List.length_reverse, Vector.length_toList]
    exact Nat.le_refl 74

/-- What `ngx_resolver_create_addr_query` has built. -/
theorem createAddrQuery_ok (addr : PtrAddr) (ident : ℕ) :
    ∃ q, ngxResolverCreateAddrQuery true ident addr = some q ∧
      q.query = queryHeader ident ++ (addrName addr ++ querySuffix ngxResolvePtr) ∧ q.query.length ≤ q.len ∧
      q.qlen = q.query.length := by
  have hname := addrName_length addr
  have hquery : (queryHeader ident ++ addrName addr ++ querySuffix ngxResolvePtr).length =
      12 + (addrName addr).length + 4 := by
    rw [List.length_append, List.length_append]
    rfl
  cases addr with
  | inet inaddr =>
    refine ⟨_, rfl, List.append_assoc _ _ _, ?_, Nat.mod_eq_of_lt (Nat.lt_of_le_of_lt (Nat.le_of_eq hquery) ?_)⟩
    · exact Nat.le_trans (Nat.le_of_eq hquery) (Nat.add_le_add_right (Nat.add_le_add_left hname 12) 4)
    · dsimp only at hname
      omega
  | inet6 s6Addr =>
    refine ⟨_, rfl, List.append_assoc _ _ _, ?_, Nat.mod_eq_of_lt (Nat.lt_of_le_of_lt (Nat.le_of_eq hquery) ?_)⟩
    · exact Nat.le_trans (Nat.le_of_eq hquery) (Nat.add_le_add_right (Nat.add_le_add_left hname 12) 4)
    · dsimp only at hname
      omega

/-- A question that is passed to the answers ends where its labels end. -/
theorem checkResponse_ans {n t : ℕ} {tcp : Bool} {m : Answers} (h : (checkResponse n tcp).val b = .inr (m, t)) :
    m.n = n ∧ ∃ i, (questionEnd n (n + 1) 12).val b = .inr i ∧ m.ans = i + 5 := by
  rw [checkResponse] at h
  simp only [val_ite, val_bind, val_pure] at h
  split_ifs at h
  cases hend : (questionEnd n (n + 1) 12).val b with
  | inl e =>
    rw [hend] at h
    cases h
  | inr i =>
    rw [hend] at h
    simp only [val_ite, val_bind, val_pure] at h
    split_ifs at h
    obtain ⟨rfl, -⟩ := Prod.mk.inj (Sum.inr.inj h)
    exact ⟨rfl, i, rfl, rfl⟩

/-- A name that holds an address is copied. -/
theorem ngxResolverCopy_addrName {alloc : Bool} {addr : PtrAddr} {n : ℕ} (h : Holds b 12 (addrName addr))
    (hroom : 12 + (addrName addr).length ≤ n) : ((ngxResolverCopy alloc 12 n).val b).isNone = !alloc := by
  rw [addrName_wire] at h hroom
  have hfew := addrLabels_length addr
  have hpos := length_lt_wire_length (addrLabels addr)
  have hlabels : 0 < (addrLabels addr).length := by cases addr <;> simp [addrLabels]
  simp only [ngxResolverCopy, val_bind, val_ite, val_pure]
  rw [copyScan_wire (addrLabels_fit addr) h hroom, if_pos hfew, if_neg (by simp), if_neg (by simp; omega)]
  cases alloc with
  | false => rfl
  | true =>
    rw [if_neg (by decide), copyLabels_wire (addrLabels_fit addr) h hfew]
    rfl

/-- The question of an address is read as this address, and its answers are behind it. -/
theorem ngxResolverProcessPtr_addrName {alloc : Site → Bool} {r : Resolver} {m : Answers} {addr : PtrAddr}
    (h : Holds b 12 (addrName addr)) (hroom : 12 + (addrName addr).length ≤ m.n) :
    (ngxResolverProcessPtr alloc r m).val b =
      if alloc .question then (finishAddr alloc r m addr (12 + (addrName addr).length)).val b else (.failed, r, []) := by
  have hcopy := @ngxResolverCopy_addrName b (alloc .question) addr m.n h hroom
  rw [ngxResolverProcessPtr]
  simp only [val_bind, val_ite, val_pure, hcopy]
  cases alloc .question with
  | false => rfl
  | true =>
    rw [if_neg (by decide), if_pos rfl]
    cases addr with
    | inet inaddr =>
      rw [readInAddr_addrName h]
      rfl
    | inet6 s6Addr =>
      obtain ⟨hno, hread⟩ := readIp6Addr_addrName h
      rw [hno]
      dsimp only
      rw [val_bind, hread]
      rfl

/-- A query for the name of an address fits its block, and a response with its question is taken as asking for this
address, with the answers right behind the question. -/
theorem createAddrQuery_roundTrip (addr : PtrAddr) (ident : ℕ) :
    ∃ q, ngxResolverCreateAddrQuery true ident addr = some q ∧ q.query.length ≤ q.len ∧ q.qlen = q.query.length ∧
      (∀ (alloc : Site → Bool) (r : Resolver) (m : Answers) (b : ℕ → UInt8), Holds b 12 (q.query.drop 12) →
        q.query.length ≤ m.n → ∃ i, i + 4 = q.query.length ∧
          (ngxResolverProcessPtr alloc r m).val b =
            if alloc .question then (finishAddr alloc r m addr i).val b else (.failed, r, [])) ∧
      ∀ (header rest : List UInt8) (tcp : Bool), ResponseHeader header rest.length tcp →
        let message := header ++ q.query.drop 12 ++ rest
        ∃ m, (checkResponse message.length tcp).val (message.getD · 0) = .inr (m, ngxResolvePtr) ∧
          m.n = message.length ∧ m.ans = q.query.length := by
  obtain ⟨q, hcreate, hbytes, hfits, hqlen⟩ := createAddrQuery_ok addr ident
  have hdrop : q.query.drop 12 = addrName addr ++ querySuffix ngxResolvePtr := by
    rw [hbytes, List.drop_left' (queryHeader_length ident)]
  have htotal : q.query.length = 12 + (addrName addr).length + 4 := by
    rw [hbytes, List.length_append, List.length_append, Nat.add_assoc]
    rfl
  refine ⟨q, hcreate, hfits, hqlen, fun alloc r m b hholds hroom => ?_, fun header rest tcp hheader => ?_⟩
  · rw [hdrop] at hholds
    exact ⟨12 + (addrName addr).length, htotal.symm,
      ngxResolverProcessPtr_addrName (holds_append.mp hholds).1 (by omega)⟩
  · intro message
    have hwritten : ∀ l ∈ addrLabels addr, LabelWritten l := fun l hl =>
      ⟨(addrLabels_fit addr l hl).1, Nat.le_trans (addrLabels_fit addr l hl).2 (by decide)⟩
    have hne : addrLabels addr ≠ [] := by cases addr <;> simp [addrLabels]
    have hmessage : message = header ++ (wire (addrLabels addr) ++ querySuffix ngxResolvePtr) ++ rest := by
      rw [← addrName_wire, ← hdrop]
    obtain ⟨m, hm⟩ := (checkResponse_question hheader hne hwritten (by decide : ngxResolvePtr < 256)).mpr fun l hl =>
      (addrLabels_fit addr l hl).2
    rw [← hmessage] at hm
    obtain ⟨hn, i, hend, hans⟩ := checkResponse_ans hm
    refine ⟨m, hm, hn, ?_⟩
    have hholds := holds_getD header (wire (addrLabels addr) ++ querySuffix ngxResolvePtr) rest
    rw [hheader.length, ← hmessage] at hholds
    have hcount := length_lt_wire_length (addrLabels addr)
    have hmlen : message.length = 12 + ((wire (addrLabels addr)).length + 4) + rest.length := by
      rw [hmessage, List.length_append, List.length_append, List.length_append, hheader.length]
      rfl
    rw [questionEnd_wire (holds_append.mp hholds).1 (by omega) (by omega) hwritten,
      if_pos fun l hl => (addrLabels_fit addr l hl).2] at hend
    have hi := Sum.inr.inj hend
    rw [hans, ← hi, htotal, addrName_wire]
    omega

end Responses

end NginxDtls.Dns
