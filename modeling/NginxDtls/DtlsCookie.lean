import NginxDtls.InetText

/-! The stateless cookie of the DTLS listener (`ngx_event_openssl.c`). The cookie is an HMAC over the text
of the client address with the decimal digits of its port written right behind it. No separator stands
between the two, so digits can move from the port to the last field of the address. -/

namespace NginxDtls

open Text

/-- `addr_text_max_len` of the listening socket that an address of this family arrives on. -/
def addrTextMaxLen : Sockaddr → Nat
  | .inet _ _ => ngxInetAddrStrLen
  | .inet6 _ _ _ _ => ngxInet6AddrStrLen
  | .unix _ => 5 + 108

/-- `c->addr_text`, as `ngx_event_recvmsg` fills it. -/
def addrText (sa : Sockaddr) : List UInt8 := ngxSockNtop sa (addrTextMaxLen sa) false

/-- The bytes that `ngx_dtls_client_hmac` puts into its buffer. -/
def dtlsHmacInput (sa : Sockaddr) : List UInt8 := addrText sa ++ sprintfUd (ngxInetGetPort sa).toNat

section Callbacks

variable (hmac : List UInt8 → List UInt8)

/-- `HMAC` under the secret of the process is the parameter `hmac`. -/
def ngxDtlsClientHmac (sa : Sockaddr) : List UInt8 := hmac (dtlsHmacInput sa)

/-- The cookie that is issued to a peer. -/
def ngxDtlsGenerateCookieCb (sa : Sockaddr) : List UInt8 := ngxDtlsClientHmac hmac sa

def ngxDtlsVerifyCookieCb (sa : Sockaddr) (cookie : List UInt8) : Bool :=
  let res := ngxDtlsClientHmac hmac sa
  cookie.length = res.length ∧ res = cookie.take res.length

theorem ngxDtlsVerifyCookieCb_iff (sa : Sockaddr) (cookie : List UInt8) :
    ngxDtlsVerifyCookieCb hmac sa cookie ↔ cookie = ngxDtlsClientHmac hmac sa := by
  simp only [ngxDtlsVerifyCookieCb, decide_eq_true_eq]
  constructor
  · rintro ⟨hlen, hres⟩
    rw [hres, ← hlen, List.take_length]
  · rintro rfl
    exact ⟨rfl, (List.take_length).symm⟩

end Callbacks

/-! ### Peers -/

/-- `AF_INET` or `AF_INET6`. -/
def Sockaddr.IsInet : Sockaddr → Prop
  | .inet _ _ => True
  | .inet6 _ _ _ _ => True
  | .unix _ => False

/-- The same address and the same port. -/
def SamePeer : Sockaddr → Sockaddr → Prop
  | .inet p a, .inet p' a' => a = a' ∧ p = p'
  | .inet6 p _ a _, .inet6 p' _ a' _ => a = a' ∧ p = p'
  | _, _ => False

theorem addrText_inet (p : UInt16) (a : Vector UInt8 4) :
    addrText (.inet p a) = sprintfQuad (a.get 0) (a.get 1) (a.get 2) (a.get 3) := by
  have hlen := sprintfQuad_length (a.get 0) (a.get 1) (a.get 2) (a.get 3)
  exact List.take_of_length_le hlen

/-- Two peers with the same address text and the same port digits are the same. -/
theorem samePeer_of_text {a b : Sockaddr} (ha : a.IsInet) (hb : b.IsInet)
    (htext : addrText a = addrText b)
    (hport : sprintfUd (ngxInetGetPort a).toNat = sprintfUd (ngxInetGetPort b).toNat) :
    SamePeer a b := by
  have hports : ngxInetGetPort a = ngxInetGetPort b :=
    UInt16.toNat_inj.mp (numText_injective (by decide) (by decide) hport)
  cases a with
  | inet p x =>
      rw [addrText_inet] at htext
      cases b with
      | inet p' x' =>
          rw [addrText_inet] at htext
          obtain ⟨h0, h1, h2, h3⟩ := sprintfQuad_injective htext
          refine ⟨?_, hports⟩
          ext j hj
          interval_cases j
          · exact congrArg UInt8.toNat h0
          · exact congrArg UInt8.toNat h1
          · exact congrArg UInt8.toNat h2
          · exact congrArg UInt8.toNat h3
      | inet6 p' f' x' s' =>
          have hcolon : colon ∈ addrText (.inet6 p' f' x' s') := colon_mem_ngxInet6Ntop x'
          rw [← htext] at hcolon
          exact absurd hcolon (colon_notMem_sprintfQuad _ _ _ _)
      | unix path => exact hb.elim
  | inet6 p f x s =>
      cases b with
      | inet p' x' =>
          have hcolon : colon ∈ addrText (.inet6 p f x s) := colon_mem_ngxInet6Ntop x
          rw [htext, addrText_inet] at hcolon
          exact absurd hcolon (colon_notMem_sprintfQuad _ _ _ _)
      | inet6 p' f' x' s' => exact ⟨ngxInet6Ntop_injective htext, hports⟩
      | unix path => exact hb.elim
  | unix path => exact ha.elim

theorem SamePeer.port_eq {a b : Sockaddr} (h : SamePeer a b) :
    ngxInetGetPort a = ngxInetGetPort b := by
  cases a <;> cases b <;> first | exact h.2 | exact h.elim

/-! ### Moving digits -/

/-- The address text of `b` continues that of `a` with leading digits of the port of `a`, and the port of
`b` is what remains of them. -/
def PortDigitsMove (a b : Sockaddr) : Prop :=
  ∃ w, w ≠ [] ∧ addrText b = addrText a ++ w ∧
    sprintfUd (ngxInetGetPort a).toNat = w ++ sprintfUd (ngxInetGetPort b).toNat

theorem PortDigitsMove.input_eq {a b : Sockaddr} (h : PortDigitsMove a b) :
    dtlsHmacInput a = dtlsHmacInput b := by
  obtain ⟨w, -, htext, hport⟩ := h
  rw [dtlsHmacInput, dtlsHmacInput, htext, hport, List.append_assoc]

/-- Moved digits make the port text shorter. -/
theorem PortDigitsMove.not_samePeer {a b : Sockaddr} (h : PortDigitsMove a b) :
    ¬SamePeer a b ∧ ¬SamePeer b a := by
  obtain ⟨w, hw, -, hport⟩ := h
  have hne : ngxInetGetPort a ≠ ngxInetGetPort b := by
    intro heq
    rw [heq] at hport
    have hlen := congrArg List.length hport
    rw [List.length_append] at hlen
    exact hw (List.eq_nil_of_length_eq_zero (by omega))
  exact ⟨fun hs => hne hs.port_eq, fun hs => hne hs.port_eq.symm⟩

/-- Equal inputs of different peers differ by moved digits. -/
theorem samePeer_or_move {a b : Sockaddr} (ha : a.IsInet) (hb : b.IsInet)
    (h : dtlsHmacInput a = dtlsHmacInput b) :
    SamePeer a b ∨ PortDigitsMove a b ∨ PortDigitsMove b a := by
  rcases List.append_eq_append_iff.mp h with ⟨w, htext, hport⟩ | ⟨w, htext, hport⟩
  · by_cases hw : w = []
    · subst hw
      rw [List.append_nil] at htext
      exact .inl (samePeer_of_text ha hb htext.symm hport)
    · exact .inr (.inl ⟨w, hw, htext, hport⟩)
  · by_cases hw : w = []
    · subst hw
      rw [List.append_nil] at htext
      exact .inl (samePeer_of_text ha hb htext hport.symm)
    · exact .inr (.inr ⟨w, hw, htext, hport⟩)

/-- The cookie binds the peers: equal inputs are inputs of one peer, and the cookie issued to one is
accepted from the other only when they are the same. -/
structure CookieBinds (hmac : List UInt8 → List UInt8) (a b : Sockaddr) : Prop where
  input : dtlsHmacInput a = dtlsHmacInput b → SamePeer a b
  verify : ngxDtlsVerifyCookieCb hmac b (ngxDtlsGenerateCookieCb hmac a) → SamePeer a b

/-- The cookie tells two peers apart exactly when no digits of one port continue the address text of the
other. -/
theorem cookieBinds_iff {hmac : List UInt8 → List UInt8} (hinj : Function.Injective hmac)
    {a b : Sockaddr} (ha : a.IsInet) (hb : b.IsInet) :
    CookieBinds hmac a b ↔ ¬PortDigitsMove a b ∧ ¬PortDigitsMove b a := by
  constructor
  · intro h
    constructor
    · intro hmove
      exact hmove.not_samePeer.1 (h.input hmove.input_eq)
    · intro hmove
      exact hmove.not_samePeer.2 (h.input hmove.input_eq.symm)
  · rintro ⟨hab, hba⟩
    have hinput : dtlsHmacInput a = dtlsHmacInput b → SamePeer a b := by
      intro h
      rcases samePeer_or_move ha hb h with hs | hm | hm
      · exact hs
      · exact absurd hm hab
      · exact absurd hm hba
    refine ⟨hinput, fun h => hinput (hinj ?_)⟩
    exact (ngxDtlsVerifyCookieCb_iff hmac b _).mp h

/-- The clients 1.2.3.4, port 5678, and 1.2.3.45, port 678. -/
def cookiePeer : Sockaddr := .inet 5678 ⟨#[1, 2, 3, 4], rfl⟩

def cookieTwin : Sockaddr := .inet 678 ⟨#[1, 2, 3, 45], rfl⟩

theorem cookiePeer_move : PortDigitsMove cookiePeer cookieTwin := by
  refine ⟨[53], by decide, ?_, ?_⟩
  · simp [cookiePeer, cookieTwin, addrText_inet, sprintfQuad, joinWith, sprintfUd, numText, digitChar]
  · simp [cookiePeer, cookieTwin, ngxInetGetPort, sprintfUd, numText, digitChar]

/-- The cookie of one is good for the other. -/
theorem cookiePeer_not_bound : ¬∀ (hmac : List UInt8 → List UInt8), Function.Injective hmac →
    CookieBinds hmac cookiePeer cookieTwin := by
  intro h
  exact cookiePeer_move.not_samePeer.1 ((h id Function.injective_id).input cookiePeer_move.input_eq)

/-- Ports 5678 and 5679 of one host are told apart. -/
theorem cookieBinds_neighbours : CookieBinds id cookiePeer (.inet 5679 ⟨#[1, 2, 3, 4], rfl⟩) := by
  have hlen : ∀ {a b : Sockaddr}, addrText a = addrText b → ¬PortDigitsMove a b := by
    rintro a b heq ⟨w, hw, htext, -⟩
    have hlen := congrArg List.length htext
    rw [heq, List.length_append] at hlen
    exact hw (List.eq_nil_of_length_eq_zero (by omega))
  have htext : addrText cookiePeer = addrText (.inet 5679 ⟨#[1, 2, 3, 4], rfl⟩) := by
    simp only [cookiePeer, addrText_inet]
  have hinet : ∀ p a, (Sockaddr.inet p a).IsInet := fun _ _ => trivial
  exact (cookieBinds_iff Function.injective_id (hinet _ _) (hinet _ _)).mpr
    ⟨hlen htext, hlen htext.symm⟩

end NginxDtls
