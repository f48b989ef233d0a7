import NginxDtls.InetRoundTrip
import NginxDtls.ProxyProtocolRead

/-! The header that is written is read back: it fits the buffer with the longest addresses and ports, and its separators
are none of the characters of an address. -/

namespace NginxDtls.ProxyProtocol

open Reading Text

/-! ### Texts of addresses -/

/-- Both addresses have the family of the header. -/
def SameFamily : Sockaddr → Sockaddr → Prop
  | .inet _ _, .inet _ _ => True
  | .inet6 _ _ _ _, .inet6 _ _ _ _ => True
  | _, _ => False

/-- The text of an address. -/
def addressText (sa : Sockaddr) : List UInt8 := ngxSockNtop sa ngxSockaddrStrLen false

theorem isAddrChar_digit {d : ℕ} (hd : d < 16) : isAddrChar (digitChar d) = true := by
  interval_cases d <;> decide

theorem isAddrChar_numText {base n : ℕ} (hbase : 1 < base) (hbase16 : base ≤ 16) {c : UInt8} (hc : c ∈ numText base n) :
    isAddrChar c = true := by
  obtain ⟨d, hd, rfl⟩ := mem_numText hbase hc
  exact isAddrChar_digit (by omega)

theorem isAddrChar_sprintfQuad {a b c d x : UInt8} (hx : x ∈ sprintfQuad a b c d) : isAddrChar x = true := by
  rcases mem_joinWith hx with rfl | ⟨t, ht, hmem⟩
  · decide
  · simp only [List.mem_cons, List.not_mem_nil, or_false] at ht
    rcases ht with rfl | rfl | rfl | rfl
    · exact isAddrChar_numText (by decide) (by decide) hmem
    · exact isAddrChar_numText (by decide) (by decide) hmem
    · exact isAddrChar_numText (by decide) (by decide) hmem
    · exact isAddrChar_numText (by decide) (by decide) hmem

theorem isAddrChar_ngxInet6Ntop {p : Vector UInt8 16} {x : UInt8} (hx : x ∈ ngxInet6Ntop p ngxInet6AddrStrLen) :
    isAddrChar x = true := by
  rw [ngxInet6Ntop_fields] at hx
  rcases mem_joinWith hx with rfl | ⟨t, ht, hmem⟩
  · decide
  · rw [inet6AddrFields] at ht
    rcases mem_inet6Fields ht with rfl | ⟨g, rfl⟩ | hquad
    · cases hmem
    · exact isAddrChar_numText (by decide) (by decide) hmem
    · split at hquad
      · rw [← Option.some.inj hquad] at hmem
        exact isAddrChar_sprintfQuad hmem
      · cases hquad

/-- The groups that are printed take five bytes each; no colon stands behind the last one of eight. -/
theorem inet6Out_length {gs : List ℕ} (hgs : ∀ g ∈ gs, g < 65536) {zero : Option ℕ} {max n : ℕ} (hmax : 1 ≤ max)
    (fuel i : ℕ) :
    (inet6Out gs zero max n fuel i).length + (if n = 8 ∧ i < 8 then 1 else 0) ≤ 5 * (n - i) := by
  induction fuel generalizing i with
  | zero =>
      rw [inet6Out, List.length_nil]
      split <;> omega
  | succ fuel ih =>
      rw [inet6Out]
      by_cases hi : i < n
      · rw [if_pos hi]
        by_cases hzero : zero = some i
        · have hrest := ih (i + max)
          rw [if_pos hzero, List.length_cons]
          split_ifs at hrest ⊢ <;> omega
        · have hrest := ih (i + 1)
          have hgroup : (sprintfXd (gs.getD i 0)).length ≤ 4 := by
            refine (sprintfXd_length ?_).2
            rw [List.getD_eq_getElem?_getD]
            cases hg : gs[i]? with
            | none => decide
            | some g => exact hgs g (List.mem_of_getElem? hg)
          have hcolon : (if i < 7 then [colon] else []).length = if i < 7 then 1 else 0 := by
            split <;> rfl
          rw [if_neg hzero, List.length_append, List.length_append, hcolon]
          split_ifs at hrest ⊢ <;> omega
      · rw [if_neg hi, if_neg (by omega)]
        exact Nat.zero_le _

/-- The longest text has eight groups of four digits. -/
theorem ngxInet6Ntop_length (p : Vector UInt8 16) : (ngxInet6Ntop p ngxInet6AddrStrLen).length ≤ 39 := by
  have hgs : ∀ g ∈ inet6Groups p, g < 65536 := fun g hg => inet6Groups_lt hg
  have hinv := scanInv_inet6Groups p
  rw [ngxInet6Ntop, if_neg (lt_irrefl _)]
  dsimp only
  generalize zeroScan (inet6Groups p) 0 {} = st at hinv ⊢
  have hmax := hinv.pos
  by_cases hzero : st.zero = some 0
  · -- the first group is the start of the zeros
    obtain ⟨htwo, -⟩ := hinv.zero 0 hzero
    have hout : ∀ n, 0 < n → inet6Out (inet6Groups p) st.zero st.max n 8 0 =
        colon :: inet6Out (inet6Groups p) st.zero st.max n 7 (0 + st.max) := fun n hn => by
      rw [inet6Out, if_pos hn, if_pos hzero]
    by_cases hdotted : inet6Dotted p st.max = true
    · have hrest := @inet6Out_length _ hgs st.zero _ 6 hmax 7 (0 + st.max)
      have hquad := sprintfQuad_length p[12] p[13] p[14] p[15]
      have hfive := inet6Dotted_max hdotted
      have hboth : st.zero = some 0 ∧ inet6Dotted p st.max = true := ⟨hzero, hdotted⟩
      rw [ngxInetAddrStrLen] at hquad
      rw [if_pos hboth, if_pos hzero, if_pos rfl, hout 6 (by decide), List.length_append, List.length_append,
        List.length_cons, List.length_cons, List.length_nil]
      omega
    · have hrest := @inet6Out_length _ hgs st.zero _ 8 hmax 7 (0 + st.max)
      have hboth : ¬(st.zero = some 0 ∧ inet6Dotted p st.max = true) := fun h => hdotted h.2
      rw [if_neg hboth, if_pos hzero, if_neg (by decide), hout 8 (by decide), List.length_append,
        List.length_append, List.length_cons, List.length_cons, List.length_nil]
      omega
  · have hrest := @inet6Out_length _ hgs st.zero _ 8 hmax 8 0
    have hboth : ¬(st.zero = some 0 ∧ inet6Dotted p st.max = true) := fun h => hzero h.1
    rw [if_pos ⟨rfl, by decide⟩] at hrest
    rw [if_neg hboth, if_neg hzero, if_neg (by decide), List.length_append, List.length_append,
      List.length_nil]
    omega

/-- A text of the printer of addresses, when there is room for it. -/
theorem ngxSockNtop_text {sa sa' : Sockaddr} (h : SameFamily sa sa') :
    (addressText sa).length ≤ 39 ∧ (∀ c ∈ addressText sa, isAddrChar c = true) ∧
      ∀ len, ngxInet6AddrStrLen ≤ len → ngxSockNtop sa len false = addressText sa := by
  cases sa with
  | inet port addr =>
      have hlength := sprintfQuad_length addr[0] addr[1] addr[2] addr[3]
      rw [ngxInetAddrStrLen] at hlength
      have htake : ∀ len, ngxInet6AddrStrLen ≤ len → ngxSockNtop (.inet port addr) len false =
          sprintfQuad addr[0] addr[1] addr[2] addr[3] := fun len hlen => by
        rw [ngxInet6AddrStrLen] at hlen
        exact List.take_of_length_le (by show (sprintfQuad addr[0] addr[1] addr[2] addr[3]).length ≤ len; omega)
      have htext := htake ngxSockaddrStrLen (by decide)
      rw [addressText, htext]
      exact ⟨by omega, fun c hc => isAddrChar_sprintfQuad hc, htake⟩
  | inet6 port flowinfo addr scopeId =>
      have htake : ∀ len, ngxInet6AddrStrLen ≤ len → ngxSockNtop (.inet6 port flowinfo addr scopeId) len false =
          ngxInet6Ntop addr ngxInet6AddrStrLen := fun len hlen => ngxInet6Ntop_room hlen
      have htext := htake ngxSockaddrStrLen (by decide)
      rw [addressText, htext]
      exact ⟨ngxInet6Ntop_length addr, fun c hc => isAddrChar_ngxInet6Ntop hc, htake⟩
  | unix path => cases sa' <;> exact absurd h id

/-! ### Reading a text before a separator -/

section Scan

variable {last p : ℕ} {b : ℕ → UInt8} {sep : UInt8} {allowed : UInt8 → Bool} {t : List UInt8}

theorem holds_get (h : Holds b p t) {i : ℕ} (hi : i < t.length) : t[i]? = some (b (p + i)) := by
  have hget : ((List.range' p t.length).map b)[i]? = some (b (p + i)) := by
    rw [List.getElem?_map, List.getElem?_range' hi, Option.map_some, Nat.one_mul]
  rwa [h] at hget

theorem scansTo_of_holds (h : Holds b p (t ++ [sep])) (ht : ∀ c ∈ t, c ≠ sep ∧ allowed c = true) :
    ScansTo sep allowed b p (p + t.length + 1) := by
  obtain ⟨htext, hsep⟩ := holds_append.mp h
  refine ⟨by omega, (holds_cons.mp hsep).1, fun i hi hi' => ht (b i) ?_⟩
  have hget := holds_get htext (show i - p < t.length by omega)
  rw [Nat.add_sub_cancel' hi] at hget
  exact List.mem_of_getElem? hget

theorem scan_holds {α : Type} {f : List UInt8 → Option α} {a : α} (h : Holds b p (t ++ [sep]))
    (ht : ∀ c ∈ t, c ≠ sep ∧ allowed c = true) (hf : f t = some a) (hlast : p + t.length + 1 ≤ last) :
    (andThen (scanTo last sep allowed (last - p) p) fun p' => do
      let t ← bytesFrom p (p' - p - 1)
      return (f t).map fun a => (p', a)).val b = some (p + t.length + 1, a) := by
  have hlength : p + t.length + 1 - p - 1 = t.length := by omega
  have htext : (List.range' p t.length).map b = t := (holds_append.mp h).1
  rw [val_andThen, (scanTo_iff (by omega)).mpr ⟨scansTo_of_holds h ht, hlast⟩, Option.bind_some, val_bytesFrom_bind,
    hlength, htext, val_pure, hf]
  rfl

end Scan

/-! ### The header -/

/-- `TCP4 ` or `TCP6 ` -/
def familyText : Sockaddr → List UInt8
  | .inet6 _ _ _ _ => tcpText ++ [54, space]
  | _ => tcpText ++ [52, space]

def portText (sa : Sockaddr) : List UInt8 := sprintfUd (ngxInetGetPort sa).toNat

/-- What stands behind the protocol. -/
def addrsText (sa sa' : Sockaddr) : List UInt8 :=
  addressText sa ++ [space] ++ (addressText sa' ++ [space]) ++ (portText sa ++ [space]) ++ (portText sa' ++ [cr]) ++ [lf]

/-- The complete header. -/
def headerText (sa sa' : Sockaddr) : List UInt8 := proxyText ++ familyText sa ++ addrsText sa sa'

theorem portText_char (sa : Sockaddr) {c : UInt8} (hc : c ∈ portText sa) : c ≠ space ∧ c ≠ cr := by
  obtain ⟨d, hd, rfl⟩ := mem_numText (by decide) hc
  interval_cases d <;> decide

theorem portOf_portText (sa : Sockaddr) : portOf (portText sa) = some (ngxInetGetPort sa).toNat := by
  have hlt := (ngxInetGetPort sa).toNat_lt
  rw [portOf, portText, ngxAtoi_sprintfUd (by omega)]
  exact Option.filter_some_pos (decide_eq_true (by omega))

theorem addressText_char {sa sa' : Sockaddr} (h : SameFamily sa sa') {c : UInt8} (hc : c ∈ addressText sa) :
    c ≠ space ∧ isAddrChar c = true := by
  have hchar := (ngxSockNtop_text h).2.1 c hc
  refine ⟨?_, hchar⟩
  rintro rfl
  exact absurd hchar (by decide)

theorem SameFamily.symm {sa sa' : Sockaddr} (h : SameFamily sa sa') : SameFamily sa' sa := by
  cases sa <;> cases sa' <;> first | exact trivial | exact absurd h id

theorem headerText_length {sa sa' : Sockaddr} (h : SameFamily sa sa') :
    (headerText sa sa').length = 11 + (addrsText sa sa').length ∧ (headerText sa sa').length ≤ maxHeader := by
  have hsa := (ngxSockNtop_text h).1
  have hsa' := (ngxSockNtop_text h.symm).1
  have hport := numText_port_length (ngxInetGetPort sa)
  have hport' := numText_port_length (ngxInetGetPort sa')
  have hfamily : (familyText sa).length = 5 := by cases sa <;> rfl
  have hproxy : proxyText.length = 6 := rfl
  have haddrs : (addrsText sa sa').length = (addressText sa).length + 1 + ((addressText sa').length + 1) +
      ((portText sa).length + 1) + ((portText sa').length + 1) + 1 := by
    simp only [addrsText, List.length_append, List.length_singleton]
  rw [headerText, List.length_append, List.length_append, hproxy, hfamily, maxHeader]
  rw [portText, portText] at haddrs
  omega

/-- The header is written as a whole. -/
theorem write_eq {sa sa' : Sockaddr} (h : SameFamily sa sa') :
    ngxProxyProtocolWrite sa (some sa') maxHeader = some (headerText sa sa') := by
  obtain ⟨hlength, -, htext⟩ := ngxSockNtop_text h
  obtain ⟨hlength', -, htext'⟩ := ngxSockNtop_text h.symm
  have hport := numText_port_length (ngxInetGetPort sa)
  have hport' := numText_port_length (ngxInetGetPort sa')
  have hwrite : ∀ start : List UInt8, start.length = 11 →
      start ++ ngxSockNtop sa (maxHeader - start.length) false ++ [space] ++
        ngxSockNtop sa' (maxHeader - (start ++ ngxSockNtop sa (maxHeader - start.length) false ++ [space]).length) false ++
        ([space] ++ portText sa ++ [space] ++ portText sa' ++ [cr, lf]).take (maxHeader - (start ++
          ngxSockNtop sa (maxHeader - start.length) false ++ [space] ++ ngxSockNtop sa' (maxHeader -
            (start ++ ngxSockNtop sa (maxHeader - start.length) false ++ [space]).length) false).length) =
      start ++ addrsText sa sa' := by
    intro start hstart
    have hroom : (start ++ addressText sa ++ [space]).length = 12 + (addressText sa).length := by
      rw [List.length_append, List.length_append, hstart, List.length_singleton]
      omega
    have hroom' : (start ++ addressText sa ++ [space] ++ addressText sa').length =
        12 + (addressText sa).length + (addressText sa').length := by rw [List.length_append, hroom]
    have hfits : ([space] ++ portText sa ++ [space] ++ portText sa' ++ [cr, lf]).length ≤
        maxHeader - (12 + (addressText sa).length + (addressText sa').length) := by
      simp only [List.length_append, List.length_cons, List.length_nil, maxHeader, portText]
      omega
    rw [htext _ (by rw [hstart]; decide), hroom, htext' _ (by rw [maxHeader, ngxInet6AddrStrLen]; omega), hroom',
      List.take_of_length_le hfits, addrsText]
    simp only [List.append_assoc, List.cons_append, List.nil_append]
  cases sa with
  | inet port addr => exact congrArg some (hwrite (proxyText ++ tcpText ++ [52, space]) rfl)
  | inet6 port flowinfo addr scopeId => exact congrArg some (hwrite (proxyText ++ tcpText ++ [54, space]) rfl)
  | unix path => cases sa' <;> exact absurd h id

theorem holds_split {b : ℕ → UInt8} {p q : ℕ} {l l' : List UInt8} (h : Holds b p (l ++ l')) (hq : p + l.length = q) :
    Holds b p l ∧ Holds b q l' := hq ▸ holds_append.mp h

theorem readTcp_addrsText {sa sa' : Sockaddr} (h : SameFamily sa sa') {b : ℕ → UInt8} {last p : ℕ}
    (hb : Holds b p (addrsText sa sa')) (hlast : p + (addrsText sa sa').length ≤ last) :
    (readTcp last p).val b = some (p + (addrsText sa sa').length,
      some ⟨addressText sa, addressText sa', (ngxInetGetPort sa).toNat, (ngxInetGetPort sa').toNat⟩) := by
  have hlength : (addrsText sa sa').length = (addressText sa).length + 1 + ((addressText sa').length + 1) +
      ((portText sa).length + 1) + ((portText sa').length + 1) + 1 := by
    simp only [addrsText, List.length_append, List.length_singleton]
  obtain ⟨p₁, hp₁⟩ : ∃ p₁, p₁ = p + (addressText sa).length + 1 := ⟨_, rfl⟩
  obtain ⟨p₂, hp₂⟩ : ∃ p₂, p₂ = p₁ + (addressText sa').length + 1 := ⟨_, rfl⟩
  obtain ⟨p₃, hp₃⟩ : ∃ p₃, p₃ = p₂ + (portText sa).length + 1 := ⟨_, rfl⟩
  obtain ⟨p₄, hp₄⟩ : ∃ p₄, p₄ = p₃ + (portText sa').length + 1 := ⟨_, rfl⟩
  rw [hlength] at hlast ⊢
  rw [addrsText] at hb
  obtain ⟨hb, hlf⟩ := holds_split (q := p₄) hb (by simp only [List.length_append, List.length_singleton]; omega)
  obtain ⟨hb, hdstPort⟩ := holds_split (q := p₃) hb (by simp only [List.length_append, List.length_singleton]; omega)
  obtain ⟨hb, hsrcPort⟩ := holds_split (q := p₂) hb (by simp only [List.length_append, List.length_singleton]; omega)
  obtain ⟨hsrc, hdst⟩ := holds_split (q := p₁) hb (by simp only [List.length_append, List.length_singleton]; omega)
  have hreadSrc : (ngxProxyProtocolReadAddr last p).val b = some (p₁, addressText sa) := by
    rw [hp₁]
    exact scan_holds hsrc (fun c hc => addressText_char h hc) rfl (by omega)
  have hreadDst : (ngxProxyProtocolReadAddr last p₁).val b = some (p₂, addressText sa') := by
    rw [hp₂]
    exact scan_holds hdst (fun c hc => addressText_char h.symm hc) rfl (by omega)
  have hreadSrcPort : (ngxProxyProtocolReadPort space last p₂).val b = some (p₃, (ngxInetGetPort sa).toNat) := by
    rw [hp₃]
    exact scan_holds hsrcPort (fun c hc => ⟨(portText_char sa hc).1, rfl⟩) (portOf_portText sa) (by omega)
  have hreadDstPort : (ngxProxyProtocolReadPort cr last p₃).val b = some (p₄, (ngxInetGetPort sa').toNat) := by
    rw [hp₄]
    exact scan_holds hdstPort (fun c hc => ⟨(portText_char sa' hc).2, rfl⟩) (portOf_portText sa') (by omega)
  have hreadLf : (readLf last p₄).val b = some (p₄ + 1, ()) := by
    rw [readLf, val_ite, if_neg (by omega), val_byteAt_bind, val_pure, (holds_cons.mp hlf).1, if_neg (by decide)]
  have hstop : p₄ + 1 = p + ((addressText sa).length + 1 + ((addressText sa').length + 1) + ((portText sa).length + 1) +
      ((portText sa').length + 1) + 1) := by omega
  rw [readTcp, val_andThen, hreadSrc, Option.bind_some, val_andThen, hreadDst, Option.bind_some, val_andThen, hreadSrcPort,
    Option.bind_some, val_andThen, hreadDstPort, Option.bind_some, val_andThen, hreadLf, Option.bind_some, val_pure, hstop]

/-- The header that is written is read back, whatever stands behind it. -/
theorem read_write {sa sa' : Sockaddr} (h : SameFamily sa sa') :
    ∃ header, ngxProxyProtocolWrite sa (some sa') maxHeader = some header ∧ header = headerText sa sa' ∧
      header.length ≤ maxHeader ∧ ∀ (payload : List UInt8) (b : ℕ → UInt8), Holds b 0 (header ++ payload) →
        (ngxProxyProtocolRead (header.length + payload.length)).val b = some (header.length,
          some ⟨addressText sa, addressText sa', (ngxInetGetPort sa).toNat, (ngxInetGetPort sa').toNat⟩) := by
  obtain ⟨hlength, hfits⟩ := headerText_length h
  refine ⟨headerText sa sa', write_eq h, rfl, hfits, fun payload b hb => ?_⟩
  have hb : Holds b 0 (headerText sa sa') := (holds_append.mp hb).1
  rw [headerText] at hb
  obtain ⟨hpre, haddrs⟩ := holds_split (q := 11) hb (by cases sa <;> rfl)
  obtain ⟨hproxy, hfamily⟩ := holds_split (q := 6) hpre rfl
  have hfirst : b 0 = 80 := (holds_cons.mp hproxy).1
  have hsixth : b 6 = 84 := by
    cases sa with
    | inet port addr => exact (holds_cons.mp hfamily).1
    | inet6 port flowinfo addr scopeId => exact (holds_cons.mp hfamily).1
    | unix path => exact (holds_cons.mp hfamily).1
  have hnotV2 : ¬(16 ≤ (headerText sa sa').length + payload.length ∧ (List.range' 0 12).map b = signature) := fun hv2 =>
    absurd (hfirst.symm.trans (List.cons.inj hv2.2).1) (by decide)
  have hnotUnknown : (List.range' 6 7).map b ≠ unknownText := fun hunknown =>
    absurd (hsixth.symm.trans (List.cons.inj hunknown).1) (by decide)
  have htcp : (List.range' 6 5).map b = tcpText ++ [52, space] ∨ (List.range' 6 5).map b = tcpText ++ [54, space] := by
    cases sa with
    | inet port addr => exact .inl hfamily
    | inet6 port flowinfo addr scopeId => exact .inr hfamily
    | unix path => exact .inl hfamily
  have hproxy' : (List.range' 0 6).map b = proxyText := hproxy
  rw [read_val, if_neg hnotV2, readV1_val, if_neg (by omega), if_pos hproxy', if_neg hnotUnknown, ite_self, readProtocol_val,
    if_neg (by omega), if_pos htcp, readTcp_addrsText h haddrs (by omega), ← hlength]

/-- The longest IPv4 header, with a payload that looks like a header. -/
theorem read_write_inet : ∃ header, ngxProxyProtocolWrite (.inet 65535 #v[255, 255, 255, 255])
    (some (.inet 65535 #v[255, 255, 255, 255])) maxHeader = some header ∧
      (ngxProxyProtocolRead (header.length + 6)).val (fun i => (header ++ proxyText).getD i 0) = some (header.length,
        some ⟨addressText (.inet 65535 #v[255, 255, 255, 255]), addressText (.inet 65535 #v[255, 255, 255, 255]), 65535,
          65535⟩) := by
  have hsame : SameFamily (.inet 65535 #v[255, 255, 255, 255]) (.inet 65535 #v[255, 255, 255, 255]) := trivial
  obtain ⟨header, hwrite, -, -, hread⟩ := read_write hsame
  refine ⟨header, hwrite, hread proxyText _ ?_⟩
  have hholds := holds_getD [] (header ++ proxyText) []
  rwa [List.nil_append, List.append_nil, List.length_nil] at hholds

end NginxDtls.ProxyProtocol
