import NginxDtls.PrereadSafe
import Mathlib.Data.List.GetD

/-! What the parser makes of a well-formed ClientHello: the fields before the extensions are skipped but for the
version, and every extension leads from the start of an extension to the start of the next one. -/

namespace NginxDtls.Preread

open Resume

variable {pool : Pool}

/-! ### ClientHello -/

def be16 (n : ℕ) : List UInt8 := [UInt8.ofNat (n / 256), UInt8.ofNat n]

/-- An entry of a server name list; a host name has the type 0. -/
structure ServerName where
  type : UInt8
  name : List UInt8

def ServerName.bytes (n : ServerName) : List UInt8 := n.type :: be16 n.name.length ++ n.name

/-- An extension. A server name list has one entry or more, and at most one of them is a host name. -/
inductive Extension where
  | serverNames (first : ServerName) (names : List ServerName)
      (once : ((first :: names).filter fun n => n.type = 0).length ≤ 1)
      (fits : ((first :: names).flatMap ServerName.bytes).length + 2 < 65536)
  | protocols (name : List UInt8) (names : List (List UInt8))
      (each : ∀ n ∈ name :: names, n ≠ [] ∧ n.length < 256)
      (fits : ((name :: names).map fun n => n.length + 1).sum + 2 < 65536)
  | supportedVersions (versions : List UInt8) (fits : versions.length < 256)
  | other (type : ℕ) (data : List UInt8) (types : type < 65536 ∧ type ≠ 0 ∧ type ≠ 16 ∧ type ≠ 43)
      (fits : data.length < 65536)

namespace Extension

/-- `opaque ProtocolName<1..2^8-1>` after each other. -/
def protocolList (names : List (List UInt8)) : List UInt8 := names.flatMap fun n => UInt8.ofNat n.length :: n

def type : Extension → ℕ
  | serverNames .. => 0
  | protocols .. => 16
  | supportedVersions .. => 43
  | other type .. => type

/-- `extension_data`. -/
def data : Extension → List UInt8
  | serverNames first names _ _ =>
    be16 ((first :: names).flatMap ServerName.bytes).length ++ (first :: names).flatMap ServerName.bytes
  | protocols name names _ _ => be16 (protocolList (name :: names)).length ++ protocolList (name :: names)
  | supportedVersions versions _ => UInt8.ofNat versions.length :: versions
  | other _ data _ _ => data

def bytes (e : Extension) : List UInt8 := be16 e.type ++ be16 e.data.length ++ e.data

def hostName : Extension → Option (List UInt8)
  | serverNames first names .. => ((first :: names).find? fun n => n.type = 0).map ServerName.name
  | _ => none

/-- The first entry of a server name list. -/
def firstName : Extension → Option ServerName
  | serverNames first .. => some first
  | _ => none

/-- The protocols with commas between. -/
def alpn : Extension → Option (List UInt8)
  | protocols name names .. => some ([44].intercalate (name :: names))
  | _ => none

end Extension

/-- A ClientHello, with the bounds that its lengths have on the wire. -/
structure ClientHello where
  version : Vector UInt8 2
  random : Vector UInt8 32
  sessionId : List UInt8
  cipherSuites : List UInt8
  compressionMethods : List UInt8
  extensions : Option (List Extension)
  sessionIdFits : sessionId.length < 256
  cipherSuitesFit : cipherSuites.length < 65536
  compressionMethodsFit : compressionMethods.length < 256
  extensionsFit : ∀ exts ∈ extensions, (exts.flatMap Extension.bytes).length < 65536

namespace ClientHello

/-- The block of extensions, with its length. -/
def extensionBytes (hello : ClientHello) : List UInt8 :=
  match hello.extensions with
  | none => []
  | some exts => be16 (exts.flatMap Extension.bytes).length ++ exts.flatMap Extension.bytes

def body (hello : ClientHello) : List UInt8 :=
  hello.version.toList ++ hello.random.toList ++ UInt8.ofNat hello.sessionId.length :: hello.sessionId ++
    be16 hello.cipherSuites.length ++ hello.cipherSuites ++
    UInt8.ofNat hello.compressionMethods.length :: hello.compressionMethods ++ hello.extensionBytes

/-- The handshake message. -/
def bytes (hello : ClientHello) : List UInt8 :=
  1 :: UInt8.ofNat (hello.body.length / 65536) :: be16 hello.body.length ++ hello.body

/-- The host name. -/
def hostName (hello : ClientHello) : List UInt8 :=
  ((hello.extensions.getD []).findSome? Extension.hostName).getD []

/-- The server name list, if there is one, begins with a host name. -/
def HostNameFirst (hello : ClientHello) : Prop :=
  ∀ first ∈ (hello.extensions.getD []).findSome? Extension.firstName, first.type = 0

/-- The protocols of the first list of them. -/
def alpn (hello : ClientHello) : List UInt8 :=
  ((hello.extensions.getD []).findSome? Extension.alpn).getD []

/-- TLS 1.3, if there are supported versions. -/
def protocolVersion (hello : ClientHello) : List UInt8 :=
  if (hello.extensions.getD []).any fun e => e.type = 43 then [3, 4] else hello.version.toList

end ClientHello

/-! ### Steps of the parser -/

/-- The parser after a switch. -/
def goOn (pool : Pool) (rest : List UInt8) (c : Ctx) : Progress Ctx Result :=
  if c.left < c.size then .done .declined else ngxStreamSslPrereadParseRecord pool c rest

theorem parse_step {c c' : Ctx} {chunk : List UInt8} (htake : c.take chunk = some c') (hsize : c.size = chunk.length)
    (rest : List UInt8) :
    ngxStreamSslPrereadParseRecord pool c (chunk ++ rest) = (next pool c').bind (goOn pool rest) := by
  have hzero := (take_fields htake).1
  rw [parse_eq, hsize, List.take_left, htake, Option.elim_some, if_neg (by omega), List.drop_left]
  rfl

theorem take_nil {c c' : Ctx} {chunk : List UInt8} (htake : c.take chunk = some c') : c'.take [] = some c' := by
  have happend := take_append c chunk []
  rw [List.append_nil, htake, Option.bind_some] at happend
  exact happend.symm

/-- Bytes that are waited for are taken in. -/
theorem parse_take {c c' : Ctx} {chunk : List UInt8} (htake : c.take chunk = some c') (hsize : c.size = chunk.length)
    (rest : List UInt8) :
    ngxStreamSslPrereadParseRecord pool c (chunk ++ rest) = ngxStreamSslPrereadParseRecord pool c' rest := by
  have hzero := (take_fields htake).1
  rw [parse_step htake hsize]
  exact (@parse_step pool c' c' [] (take_nil htake) (by rw [hzero, hsize]; simp) rest).symm

/-- A context that waits for nothing. -/
structure At (c : Ctx) (state : State) (left : ℕ) (host alpn : NgxStr) (version : List UInt8) : Prop where
  state : c.state = state
  size : c.size = 0
  nil : c.take [] = some c
  buf : c.buf.cap = 4 ∧ c.buf.data.length = 4
  left : c.left = left
  host : c.host = host
  alpn : c.alpn = alpn
  version : c.version = ⟨2, version⟩

/-- A context that waits for bytes. -/
structure Waits (c : Ctx) (dst : Option (Target × ℕ)) (n left : ℕ) (version : List UInt8) : Prop where
  dst : c.dst = dst
  size : c.size = n
  buf : c.buf.cap = 4 ∧ c.buf.data.length = 4
  left : c.left = n + left
  version : c.version = ⟨2, version⟩

section Steps

variable {c c' : Ctx} {chunk : List UInt8} {left : ℕ} {dst : Option (Target × ℕ)} {version : List UInt8}

/-- The bytes that are waited for after a switch. -/
theorem parse_wait {d : Ctx} (hnil : c.take [] = some c) (hsize : c.size = 0) (hnext : next pool c = .more c')
    (hw : Waits c' dst chunk.length left version) (htake : c'.take chunk = some d) (rest : List UInt8) :
    ngxStreamSslPrereadParseRecord pool c (chunk ++ rest) = ngxStreamSslPrereadParseRecord pool d rest := by
  have hstep := @parse_step pool c c [] hnil hsize (chunk ++ rest)
  rw [List.nil_append] at hstep
  rw [hstep, hnext, Progress.more_bind, goOn, if_neg (by rw [hw.left, hw.size]; omega)]
  exact parse_take htake hw.size rest

variable {state : State} {left₀ : ℕ} {host alpn : NgxStr} {version₀ : List UInt8}

/-- Scratch bytes. -/
theorem At.scratch (h : At c state left₀ host alpn version₀) (hnext : next pool c = .more c')
    (hw : Waits c' (some (.buf, 0)) chunk.length left version) (hroom : chunk.length ≤ 4) (rest : List UInt8) :
    ∃ d, ngxStreamSslPrereadParseRecord pool c (chunk ++ rest) = ngxStreamSslPrereadParseRecord pool d rest ∧
      At d c'.state left c'.host c'.alpn version ∧ d.ext = c'.ext ∧
      ∀ i < chunk.length, d.p i = (chunk.getD i 0).toNat := by
  have htake := @take_buf c' 0 chunk hw.dst (by rw [hw.buf.1]; omega) (Nat.zero_le _) (by rw [hw.left]; omega)
  refine ⟨_, parse_wait h.nil h.size hnext hw htake rest, ⟨rfl, ?_, take_nil htake, ⟨hw.buf.1, ?_⟩, ?_, rfl, rfl,
    hw.version⟩, rfl, fun i hi => ?_⟩
  · exact (congrArg (· - chunk.length) hw.size).trans (Nat.sub_self _)
  · exact (over_length (by rw [hw.buf.2]; omega)).trans hw.buf.2
  · exact (congrArg (· - chunk.length) hw.left).trans (Nat.add_sub_cancel_left _ _)
  · rw [Ctx.p]
    dsimp only [Block.over]
    rw [List.take_zero, List.nil_append, List.getD_append _ _ _ _ hi]

/-- Bytes that are skipped. -/
theorem At.skip (h : At c state left₀ host alpn version₀) (hnext : next pool c = .more c')
    (hw : Waits c' none chunk.length left version) (rest : List UInt8) :
    ∃ d, ngxStreamSslPrereadParseRecord pool c (chunk ++ rest) = ngxStreamSslPrereadParseRecord pool d rest ∧
      At d c'.state left c'.host c'.alpn version ∧ d.ext = c'.ext ∧ d.buf = c'.buf := by
  have htake := @take_none c' chunk hw.dst (by rw [hw.left]; omega)
  refine ⟨_, parse_wait h.nil h.size hnext hw htake rest, ⟨rfl, ?_, take_nil htake, hw.buf, ?_, rfl, rfl, hw.version⟩,
    rfl, rfl⟩
  · exact (congrArg (· - chunk.length) hw.size).trans (Nat.sub_self _)
  · exact (congrArg (· - chunk.length) hw.left).trans (Nat.add_sub_cancel_left _ _)

/-- The host name. -/
theorem At.name (h : At c state left₀ host alpn version₀) (hnext : next pool c = .more c')
    (hw : Waits c' (some (.host, 0)) chunk.length left version) (hhost : c'.host.data = some ⟨chunk.length, []⟩)
    (rest : List UInt8) :
    ∃ d, ngxStreamSslPrereadParseRecord pool c (chunk ++ rest) = ngxStreamSslPrereadParseRecord pool d rest ∧
      At d c'.state left ⟨c'.host.len, some ⟨chunk.length, chunk⟩⟩ c'.alpn version ∧ d.ext = c'.ext ∧
      d.buf = c'.buf := by
  have htake := @take_host c' 0 chunk _ hw.dst hhost (by simp) (Nat.zero_le _) (by rw [hw.left]; omega)
  rw [@over_end ⟨chunk.length, []⟩ 0 rfl chunk, List.nil_append] at htake
  refine ⟨_, parse_wait h.nil h.size hnext hw htake rest, ⟨rfl, ?_, take_nil htake, hw.buf, ?_, rfl, rfl, hw.version⟩,
    rfl, rfl⟩
  · exact (congrArg (· - chunk.length) hw.size).trans (Nat.sub_self _)
  · exact (congrArg (· - chunk.length) hw.left).trans (Nat.add_sub_cancel_left _ _)

/-- The name of a protocol, behind those before it. -/
theorem At.proto (h : At c state left₀ host alpn version₀) (hnext : next pool c = .more c') {cap : ℕ}
    {written : List UInt8} (hw : Waits c' (some (.alpn, written.length)) chunk.length left version)
    (halpn : c'.alpn.data = some ⟨cap, written⟩) (hcap : written.length + chunk.length ≤ cap) (rest : List UInt8) :
    ∃ d, ngxStreamSslPrereadParseRecord pool c (chunk ++ rest) = ngxStreamSslPrereadParseRecord pool d rest ∧
      At d c'.state left c'.host ⟨c'.alpn.len, some ⟨cap, written ++ chunk⟩⟩ version ∧ d.ext = c'.ext ∧
      d.buf = c'.buf := by
  have htake := @take_alpn c' _ chunk _ hw.dst halpn hcap le_rfl (by rw [hw.left]; omega)
  rw [@over_end ⟨cap, written⟩ _ rfl chunk] at htake
  refine ⟨_, parse_wait h.nil h.size hnext hw htake rest, ⟨rfl, ?_, take_nil htake, hw.buf, ?_, rfl, rfl, hw.version⟩,
    rfl, rfl⟩
  · exact (congrArg (· - chunk.length) hw.size).trans (Nat.sub_self _)
  · exact (congrArg (· - chunk.length) hw.left).trans (Nat.add_sub_cancel_left _ _)

/-- The version. -/
theorem At.versionBytes (h : At c state left₀ host alpn version₀) (hnext : next pool c = .more c')
    (hw : Waits c' (some (.version, 0)) chunk.length left version) (hversion : version.length = 2)
    (hchunk : chunk.length = 2) (rest : List UInt8) :
    ∃ d, ngxStreamSslPrereadParseRecord pool c (chunk ++ rest) = ngxStreamSslPrereadParseRecord pool d rest ∧
      At d c'.state left c'.host c'.alpn chunk := by
  have htake := @take_version c' 0 chunk hw.dst (by rw [hw.version]; dsimp only; omega) (Nat.zero_le _)
    (by rw [hw.left]; omega)
  refine ⟨_, parse_wait h.nil h.size hnext hw htake rest, ⟨rfl, ?_, take_nil htake, hw.buf, ?_, rfl, rfl, ?_⟩⟩
  · exact (congrArg (· - chunk.length) hw.size).trans (Nat.sub_self _)
  · exact (congrArg (· - chunk.length) hw.left).trans (Nat.add_sub_cancel_left _ _)
  · dsimp only
    rw [hw.version, Block.over]
    dsimp only
    rw [List.take_zero, List.nil_append, List.drop_eq_nil_of_le (by omega), List.append_nil]

end Steps

/-! ### Extensions -/

section Extensions

variable {c : Ctx} {left : ℕ} {host alpn : NgxStr} {version data : List UInt8}

/-- The type and the length of an extension. -/
theorem parse_extHeader (h : At c .ext (4 + left) host alpn version) {type len : ℕ} (htype : type < 65536)
    (hlen : len < 65536) (rest : List UInt8) :
    ∃ d, ngxStreamSslPrereadParseRecord pool c (be16 type ++ be16 len ++ rest) =
        ngxStreamSslPrereadParseRecord pool d rest ∧ At d .extHeader left host alpn version ∧
      d.p 0 * 256 + d.p 1 = type ∧ d.p 2 * 256 + d.p 3 = len ∧ d.p 1 < 256 := by
  have hnext : next pool c = .more { c with state := .extHeader, dst := some (.buf, 0), size := 4 } := by
    rw [next, h.state]
    dsimp only
    rw [if_neg (by rw [h.left]; omega)]
  obtain ⟨d, hparse, hd, -, hp⟩ := @At.scratch pool c _ (be16 type ++ be16 len) left version _ _ _ _ _ h hnext
    ⟨rfl, rfl, h.buf, h.left, h.version⟩ le_rfl rest
  rw [h.host, h.alpn] at hd
  refine ⟨d, hparse, hd, ?_, ?_, ?_⟩
  · rw [hp 0 (by simp [be16]), hp 1 (by simp [be16])]
    exact be16_toNat htype
  · rw [hp 2 (by simp [be16]), hp 3 (by simp [be16])]
    exact be16_toNat hlen
  · rw [hp 1 (by simp [be16])]
    exact UInt8.toNat_lt _

/-- An extension that the parser skips. -/
theorem parse_unknown (h : At c .ext (4 + (data.length + left)) host alpn version) {type : ℕ}
    (htype : type < 65536) (hdata : data.length < 65536) (hsni : type = 0 → host.data ≠ none)
    (halpn : type = 16 → alpn.data ≠ none) (hsupver : type ≠ 43) (rest : List UInt8) :
    ∃ d, ngxStreamSslPrereadParseRecord pool c (be16 type ++ be16 data.length ++ (data ++ rest)) =
        ngxStreamSslPrereadParseRecord pool d rest ∧ At d .ext left host alpn version := by
  obtain ⟨d, hparse, hd, hp, hlen, hlow⟩ := @parse_extHeader pool c _ _ _ _ h _ _ htype hdata (data ++ rest)
  have hnext : next pool d = .more { d with state := .ext, dst := none, size := data.length } := by
    rw [next, hd.state]
    dsimp only
    rw [if_neg, if_neg, if_neg, hlen]
    · omega
    · rintro ⟨hhigh, hlow, hnone⟩
      exact halpn (by omega) (hd.alpn ▸ hnone)
    · rintro ⟨hhigh, hlow, hnone⟩
      exact hsni (by omega) (hd.host ▸ hnone)
  obtain ⟨e, hskip, he, -, -⟩ := @At.skip pool d _ data left version _ _ _ _ _ hd hnext
    ⟨rfl, rfl, hd.buf, hd.left, hd.version⟩ rest
  rw [hd.host, hd.alpn] at he
  exact ⟨e, hparse.trans hskip, he⟩

/-- A list of versions. -/
theorem parse_supportedVersions {versions : List UInt8}
    (h : At c .ext (4 + (1 + (versions.length + left))) host alpn version)
    (hfits : versions.length < 256) (rest : List UInt8) :
    ∃ d, ngxStreamSslPrereadParseRecord pool c
        (be16 43 ++ be16 (versions.length + 1) ++ ([UInt8.ofNat versions.length] ++ (versions ++ rest))) =
        ngxStreamSslPrereadParseRecord pool d rest ∧ At d .ext left host alpn [3, 4] := by
  obtain ⟨d, hparse, hd, hp, hlen, hlow⟩ := @parse_extHeader pool c _ _ _ _ h 43 (versions.length + 1) (by decide)
    (by omega) ([UInt8.ofNat versions.length] ++ (versions ++ rest))
  have hnext : next pool d = .more { d with state := .supverLen, dst := some (.buf, 0), size := 1 } := by
    rw [next, hd.state]
    dsimp only
    rw [if_neg (by omega), if_neg (by omega), if_pos (by omega)]
  obtain ⟨e, hscratch, he, -, hbyte⟩ := @At.scratch pool d _ [UInt8.ofNat versions.length] _ version _ _ _ _ _ hd hnext
    ⟨rfl, rfl, hd.buf, hd.left, hd.version⟩ (by simp) (versions ++ rest)
  rw [hd.host, hd.alpn] at he
  have hcount : e.p 0 = versions.length := by
    rw [hbyte 0 (by simp), List.getD_cons_zero, UInt8.toNat_ofNat', Nat.mod_eq_of_lt hfits]
  have hnext' : next pool e = .more { e with
      version := { e.version with data := [3, 4] }, state := .ext, dst := none, size := versions.length } := by
    rw [next, he.state]
    dsimp only
    rw [hcount]
  obtain ⟨f, hskip, hf, -, -⟩ := @At.skip pool e _ versions left [3, 4] _ _ _ _ _ he hnext'
    ⟨rfl, rfl, he.buf, he.left, by rw [he.version]⟩ rest
  rw [he.host, he.alpn] at hf
  exact ⟨f, hparse.trans (hscratch.trans hskip), hf⟩

/-- The first server name list, up to its first name. -/
theorem parse_nameHead {type : UInt8} {n list : ℕ} (h : At c .ext (4 + (2 + (3 + left))) host alpn version)
    (hnone : host.data = none) (hn : n < 65536) (hlist : list + 2 < 65536) (rest : List UInt8) :
    ∃ d, ngxStreamSslPrereadParseRecord pool c
        (be16 0 ++ be16 (list + 2) ++ (be16 list ++ ((type :: be16 n) ++ rest))) =
        ngxStreamSslPrereadParseRecord pool d rest ∧
      At d .sniHostHead left host alpn version ∧ d.ext = list ∧ d.p 0 = type.toNat ∧ d.p 1 * 256 + d.p 2 = n := by
  obtain ⟨d, hparse, hd, hp, hlen, hlow⟩ := @parse_extHeader pool c _ _ _ _ h 0 (list + 2) (by decide) hlist
    (be16 list ++ ((type :: be16 n) ++ rest))
  have hnext : next pool d = .more { d with state := .sniLen, dst := some (.buf, 0), size := 2 } := by
    rw [next, hd.state]
    dsimp only
    rw [if_pos ⟨by omega, by omega, by rw [hd.host, hnone]⟩]
  -- the length of the list
  obtain ⟨e, hscratch, he, -, hbyte⟩ := @At.scratch pool d _ (be16 list) _ version _ _ _ _ _ hd
    hnext ⟨rfl, rfl, hd.buf, hd.left, hd.version⟩ (by simp [be16]) ((type :: be16 n) ++ rest)
  rw [hd.host, hd.alpn] at he
  have hcount : e.p 0 * 256 + e.p 1 = list := by
    rw [hbyte 0 (by simp [be16]), hbyte 1 (by simp [be16])]
    exact be16_toNat (by omega)
  have hnext' : next pool e = .more { e with
      ext := list, state := .sniHostHead, dst := some (.buf, 0), size := 3 } := by
    rw [next, he.state]
    dsimp only
    rw [hcount]
  -- the type and the length of the name
  obtain ⟨f, hhead, hf, hext, hbyte'⟩ := @At.scratch pool e _ (type :: be16 n) _ version _ _ _ _ _ he
    hnext' ⟨rfl, rfl, he.buf, he.left, he.version⟩ (by simp [be16]) rest
  rw [he.host, he.alpn] at hf
  refine ⟨f, hparse.trans (hscratch.trans hhead), hf, hext, hbyte' 0 (by simp), ?_⟩
  rw [hbyte' 1 (by simp [be16]), hbyte' 2 (by simp [be16])]
  exact be16_toNat hn

/-- The first server name list, with a host name at its beginning. -/
theorem parse_serverName {name others : List UInt8}
    (h : At c .ext (4 + (2 + (3 + (name.length + (others.length + left))))) host alpn version) (hnone : host.data = none)
    (hpool : pool.host = true) (hfits : name.length + others.length + 5 < 65536) (rest : List UInt8) :
    ∃ d, ngxStreamSslPrereadParseRecord pool c
        (be16 0 ++ be16 (name.length + others.length + 5) ++
          (be16 (name.length + others.length + 3) ++ ((0 :: be16 name.length) ++ (name ++ (others ++ rest))))) =
        ngxStreamSslPrereadParseRecord pool d rest ∧
      At d .ext left ⟨name.length, some ⟨name.length, name⟩⟩ alpn version := by
  obtain ⟨f, hhead, hf, hext, htype, hcount'⟩ := @parse_nameHead pool c _ host alpn version 0 name.length
    (name.length + others.length + 3) h hnone (by omega) (by omega) (name ++ (others ++ rest))
  have htype : f.p 0 = 0 := htype
  have hnext₂ : next pool f = .more { f with
      size := name.length, ext := others.length, host := { f.host with data := some ⟨name.length, []⟩ }
      state := .sniHost, dst := some (.host, 0) } := by
    rw [next, hf.state]
    dsimp only
    rw [if_neg (by omega), hcount', hext, if_neg (by omega), if_neg (by simp [hpool])]
    congr 3
    omega
  obtain ⟨g, hname, hg, hext', hbuf⟩ := @At.name pool f _ name _ version _ _ _ _ _ hf hnext₂
    ⟨rfl, rfl, hf.buf, hf.left, hf.version⟩ rfl (others ++ rest)
  have hcount₂ : g.p 1 * 256 + g.p 2 = name.length := by
    rw [← hcount', Ctx.p, Ctx.p, Ctx.p, Ctx.p, hbuf]
  have hext' : g.ext = others.length := hext'
  have hnext₃ : next pool g = .more { g with
      host := { g.host with len := name.length }, state := .ext, dst := none, size := others.length } := by
    rw [next, hg.state]
    dsimp only
    rw [hcount₂, hext']
  obtain ⟨i, hskip, hi, -, -⟩ := @At.skip pool g _ others left version _ _ _ _ _ hg hnext₃
    ⟨rfl, rfl, hg.buf, hg.left, hg.version⟩ rest
  rw [hg.host, hg.alpn, hf.alpn] at hi
  exact ⟨i, hhead.trans (hname.trans hskip), hi⟩

/-- The first server name list, with another name at its beginning. -/
theorem parse_otherName {type : UInt8} (htype : type ≠ 0) {n list : ℕ}
    (h : At c .ext (4 + (2 + (3 + left))) host alpn version) (hnone : host.data = none) (hn : n < 65536)
    (hlist : list + 2 < 65536) (rest : List UInt8) :
    ngxStreamSslPrereadParseRecord pool c (be16 0 ++ be16 (list + 2) ++ (be16 list ++ ((type :: be16 n) ++ rest))) =
      .done .declined := by
  obtain ⟨f, hhead, hf, -, htype', -⟩ := @parse_nameHead pool c _ host alpn version type n list h hnone hn hlist rest
  have hne : f.p 0 ≠ 0 := fun hzero => htype (UInt8.toNat_inj.mp (htype'.symm.trans hzero))
  have hnext : next pool f = .done .declined := by
    rw [next, hf.state]
    dsimp only
    rw [if_pos hne]
  have hstep := @parse_step pool f f [] hf.nil hf.size rest
  rw [hnext] at hstep
  exact hhead.trans hstep

theorem protocolList_cons (n : List UInt8) (names : List (List UInt8)) :
    Extension.protocolList (n :: names) = [UInt8.ofNat n.length] ++ (n ++ Extension.protocolList names) := by
  rw [Extension.protocolList, List.flatMap_cons]
  rfl

/-- The name of a protocol, with its length. -/
theorem parse_proto {c' : Ctx} {cap left₀ left₁ : ℕ} {written : List UInt8} {state₀ : State} {host₀ alpn₀ : NgxStr}
    {version₀ : List UInt8} {n : List UInt8} (hn : n ≠ [] ∧ n.length < 256) {more : ℕ}
    (hc : At c state₀ left₀ host₀ alpn₀ version₀) (hnext : next pool c = .more c') (hstate : c'.state = .alpnProtoLen)
    (hw : Waits c' (some (.buf, 0)) 1 left₁ version) (hleft : left₁ = n.length + left)
    (halpn : c'.alpn = ⟨written.length, some ⟨cap, written⟩⟩) (hext : c'.ext = 1 + n.length + more)
    (hcap : written.length + (1 + n.length + more) ≤ cap) (rest : List UInt8) :
    ∃ d, ngxStreamSslPrereadParseRecord pool c ([UInt8.ofNat n.length] ++ (n ++ rest)) =
        ngxStreamSslPrereadParseRecord pool d rest ∧
      At d .alpnProtoData left c'.host ⟨written.length, some ⟨cap, written ++ n⟩⟩ version ∧ d.ext = more ∧
      d.p 0 = n.length := by
  subst hleft
  obtain ⟨e, hlen, he, hext', hbyte⟩ := @At.scratch pool c c' [UInt8.ofNat n.length] _ version _ _ _ _ _ hc hnext hw
    (by simp) (n ++ rest)
  rw [hstate, halpn] at he
  have hcount : e.p 0 = n.length := by
    rw [hbyte 0 (by simp), List.getD_cons_zero, UInt8.toNat_ofNat', Nat.mod_eq_of_lt hn.2]
  have hne : n.length ≠ 0 := fun h => hn.1 (List.length_eq_zero_iff.mp h)
  have hnext' : next pool e = .more { e with
      size := n.length, ext := more, state := .alpnProtoData, dst := some (.alpn, written.length) } := by
    rw [next, he.state]
    dsimp only
    rw [hcount, hext', hext, if_neg hne, if_neg (by omega), he.alpn, Nat.add_sub_cancel_left]
  obtain ⟨f, hname, hf, hmore, hbuf⟩ := @At.proto pool e _ n left version _ _ _ _ _ he hnext' cap written
    ⟨rfl, rfl, he.buf, he.left, he.version⟩ (by rw [he.alpn]) (by omega) rest
  rw [he.host, he.alpn] at hf
  refine ⟨f, hlen.trans hname, hf, hmore, ?_⟩
  rw [← hcount, Ctx.p, Ctx.p, hbuf]

/-- The names of the protocols, from the length of one on. -/
theorem parse_names {c' : Ctx} {cap left₀ left₁ : ℕ} {written : List UInt8} {state₀ : State} {host₀ alpn₀ : NgxStr}
    {version₀ : List UInt8} (n : List UInt8) (names : List (List UInt8))
    (hc : At c state₀ left₀ host₀ alpn₀ version₀) (hnext : next pool c = .more c') (hstate : c'.state = .alpnProtoLen)
    (hw : Waits c' (some (.buf, 0)) 1 left₁ version)
    (hleft : 1 + left₁ = (Extension.protocolList (n :: names)).length + left)
    (halpn : c'.alpn = ⟨written.length, some ⟨cap, written⟩⟩)
    (hext : c'.ext = (Extension.protocolList (n :: names)).length)
    (hcap : written.length + (Extension.protocolList (n :: names)).length ≤ cap)
    (heach : ∀ m ∈ n :: names, m ≠ [] ∧ m.length < 256) (rest : List UInt8) :
    ∃ d, ngxStreamSslPrereadParseRecord pool c (Extension.protocolList (n :: names) ++ rest) =
        ngxStreamSslPrereadParseRecord pool d rest ∧
      At d .ext left c'.host ⟨(written ++ [44].intercalate (n :: names)).length,
        some ⟨cap, written ++ [44].intercalate (n :: names)⟩⟩ version := by
  induction names generalizing c c' n written left₀ left₁ state₀ host₀ alpn₀ version₀ with
  | nil =>
    rw [protocolList_cons] at hleft hext hcap ⊢
    simp only [List.length_append, List.length_singleton, Extension.protocolList, List.flatMap_nil, List.length_nil]
      at hleft hext hcap
    obtain ⟨d, hproto, hd, hmore, hcount⟩ := @parse_proto pool c left version c' cap left₀ left₁ written state₀ host₀
      alpn₀ version₀ n (heach n List.mem_cons_self) 0 hc hnext hstate hw (by omega) halpn (by omega) (by omega) rest
    have hlast : next pool d = .more { d with
        alpn := { d.alpn with len := written.length + n.length }, state := .ext, dst := none, size := 0 } := by
      rw [next, hd.state]
      dsimp only
      rw [if_neg (by omega), hcount, hd.alpn]
    obtain ⟨e, hskip, he, -, -⟩ := @At.skip pool d _ [] left version _ _ _ _ _ hd hlast
      ⟨rfl, rfl, hd.buf, by rw [List.length_nil, Nat.zero_add]; exact hd.left, hd.version⟩ rest
    rw [List.nil_append] at hskip
    rw [hd.host, hd.alpn] at he
    refine ⟨e, ?_, ?_⟩
    · rw [Extension.protocolList, List.flatMap_nil, List.append_nil, List.append_assoc]
      exact hproto.trans hskip
    · rw [List.intercalate_singleton, List.length_append]
      exact he
  | cons m names ih =>
    have hlist := protocolList_cons n (m :: names)
    have hmore : (Extension.protocolList (n :: m :: names)).length =
        1 + n.length + (Extension.protocolList (m :: names)).length := by
      rw [hlist]
      simp only [List.length_append, List.length_singleton]
      omega
    rw [hmore] at hleft hext hcap
    obtain ⟨d, hproto, hd, hext', hcount⟩ := @parse_proto pool c
      ((Extension.protocolList (m :: names)).length + left) version c' cap left₀ left₁ written state₀ host₀ alpn₀
      version₀ n (heach n List.mem_cons_self) (Extension.protocolList (m :: names)).length hc hnext hstate hw (by omega)
      halpn hext hcap (Extension.protocolList (m :: names) ++ rest)
    have hpos : 1 ≤ (Extension.protocolList (m :: names)).length := by
      rw [protocolList_cons, List.length_append, List.length_singleton]
      omega
    have hcomma : next pool d = .more { d with
        alpn := ⟨(written ++ n ++ [44]).length, some ⟨cap, written ++ n ++ [44]⟩⟩, state := .alpnProtoLen
        dst := some (.buf, 0), size := 1 } := by
      rw [next, hd.state]
      dsimp only
      rw [if_pos (by omega), hd.alpn, hcount, Option.bind_some,
        write_inside (by simp only [List.length_singleton]; omega) (by rw [List.length_append]),
        over_end (by rw [List.length_append])]
      simp only [List.length_append, List.length_singleton]
    obtain ⟨left₂, hleft₂⟩ : ∃ left₂, (Extension.protocolList (m :: names)).length + left = 1 + left₂ :=
      ⟨(Extension.protocolList (m :: names)).length + left - 1, by omega⟩
    have hw₂ : Waits { d with
        alpn := ⟨(written ++ n ++ [44]).length, some ⟨cap, written ++ n ++ [44]⟩⟩, state := .alpnProtoLen
        dst := some (.buf, 0), size := 1 } (some (.buf, 0)) 1 left₂ version :=
      ⟨rfl, rfl, hd.buf, hd.left.trans hleft₂, hd.version⟩
    obtain ⟨e, hrest, he⟩ := ih m hd hcomma rfl hw₂ hleft₂.symm rfl hext'
      (by simp only [List.length_append, List.length_singleton]; omega)
      (fun k hk => heach k (List.mem_cons_of_mem _ hk))
    refine ⟨e, ?_, ?_⟩
    · rw [hlist, List.append_assoc, List.append_assoc]
      exact hproto.trans hrest
    · rw [List.intercalate_cons_cons]
      simp only [List.append_assoc] at he ⊢
      rw [hd.host] at he
      exact he

/-- The first list of protocols. -/
theorem parse_protocols {n : List UInt8} {names : List (List UInt8)}
    (h : At c .ext (4 + (2 + ((Extension.protocolList (n :: names)).length + left))) host {} version)
    (hpool : pool.alpn = true) (heach : ∀ m ∈ n :: names, m ≠ [] ∧ m.length < 256)
    (hfits : (Extension.protocolList (n :: names)).length + 2 < 65536) (rest : List UInt8) :
    ∃ d, ngxStreamSslPrereadParseRecord pool c
        (be16 16 ++ be16 ((Extension.protocolList (n :: names)).length + 2) ++
          (be16 (Extension.protocolList (n :: names)).length ++ (Extension.protocolList (n :: names) ++ rest))) =
        ngxStreamSslPrereadParseRecord pool d rest ∧
      At d .ext left host ⟨([44].intercalate (n :: names)).length,
        some ⟨(Extension.protocolList (n :: names)).length, [44].intercalate (n :: names)⟩⟩ version := by
  obtain ⟨d, hparse, hd, hp, hlen, hlow⟩ := @parse_extHeader pool c _ _ _ _ h 16
    ((Extension.protocolList (n :: names)).length + 2) (by decide) hfits
    (be16 (Extension.protocolList (n :: names)).length ++ (Extension.protocolList (n :: names) ++ rest))
  have hnext : next pool d = .more { d with state := .alpnLen, dst := some (.buf, 0), size := 2 } := by
    rw [next, hd.state]
    dsimp only
    rw [if_neg (by omega), if_pos ⟨by omega, by omega, by rw [hd.alpn]⟩]
  -- the length of the list
  obtain ⟨e, hlist, he, -, hbyte⟩ := @At.scratch pool d _ (be16 (Extension.protocolList (n :: names)).length) _ version
    _ _ _ _ _ hd hnext ⟨rfl, rfl, hd.buf, hd.left, hd.version⟩ (by simp [be16])
    (Extension.protocolList (n :: names) ++ rest)
  rw [hd.host, hd.alpn] at he
  have hcount : e.p 0 * 256 + e.p 1 = (Extension.protocolList (n :: names)).length := by
    rw [hbyte 0 (by simp [be16]), hbyte 1 (by simp [be16])]
    exact be16_toNat (by omega)
  have hnext' : next pool e = .more { e with
      ext := (Extension.protocolList (n :: names)).length
      alpn := ⟨0, some ⟨(Extension.protocolList (n :: names)).length, []⟩⟩, state := .alpnProtoLen
      dst := some (.buf, 0), size := 1 } := by
    rw [next, he.state]
    dsimp only
    rw [hcount, if_neg (by simp [hpool]), he.alpn]
  have hpos : 1 ≤ (Extension.protocolList (n :: names)).length := by
    rw [protocolList_cons, List.length_append, List.length_singleton]
    omega
  obtain ⟨left₁, hleft₁⟩ : ∃ left₁, (Extension.protocolList (n :: names)).length + left = 1 + left₁ :=
    ⟨(Extension.protocolList (n :: names)).length + left - 1, by omega⟩
  obtain ⟨f, hnames, hf⟩ := @parse_names pool e left version _ (Extension.protocolList (n :: names)).length _ left₁ [] _
    _ _ _ n names he hnext' rfl ⟨rfl, rfl, he.buf, he.left.trans hleft₁, he.version⟩ hleft₁.symm rfl rfl (by simp) heach
    rest
  rw [he.host] at hf
  exact ⟨f, hparse.trans (hlist.trans hnames), hf⟩


end Extensions

/-- What the parser has found. -/
def Found (str : NgxStr) : Option (List UInt8) → Prop
  | none => str = {}
  | some bytes => ∃ cap, str = ⟨bytes.length, some ⟨cap, bytes⟩⟩

theorem Found.data_none {str : NgxStr} {found : Option (List UInt8)} (h : Found str found) (hnone : found = none) :
    str = {} := by
  rw [hnone] at h
  exact h

theorem Found.data_ne {str : NgxStr} {found : Option (List UInt8)} (h : Found str found) (hsome : found ≠ none) :
    str.data ≠ none := by
  cases found with
  | none => exact absurd rfl hsome
  | some bytes =>
    obtain ⟨cap, rfl⟩ := h
    exact Option.some_ne_none _

theorem Found.bytes {str : NgxStr} {found : Option (List UInt8)} (h : Found str found) :
    str.bytes = found.getD [] ∧ str.len = (found.getD []).length := by
  cases found with
  | none =>
    rw [h.data_none rfl]
    exact ⟨rfl, rfl⟩
  | some bytes =>
    obtain ⟨cap, rfl⟩ := h
    exact ⟨List.take_length, rfl⟩

theorem Found.keep {str : NgxStr} {found : Option (List UInt8)} (h : Found str found) :
    Found str (found.or none) := by
  rwa [Option.or_none]

namespace Extension

theorem protocolList_length (names : List (List UInt8)) :
    (protocolList names).length = (names.map fun n => n.length + 1).sum := by
  rw [protocolList, List.length_flatMap]
  rfl

theorem data_length_lt (e : Extension) : e.data.length < 65536 := by
  cases e with
  | serverNames first names once fits =>
    rw [data, List.length_append]
    exact (Nat.add_comm _ _).trans_lt fits
  | protocols name names each fits =>
    rw [data, List.length_append, protocolList_length]
    simp only [be16, List.length_cons, List.length_nil]
    omega
  | supportedVersions versions fits =>
    rw [data, List.length_cons]
    omega
  | other type data types fits => exact fits

theorem type_lt (e : Extension) : e.type < 65536 := by
  cases e with
  | other type data types fits => exact types.1
  | _ => simp [type]

theorem bytes_length (e : Extension) : e.bytes.length = 4 + e.data.length := by
  rw [bytes, List.length_append, List.length_append]
  rfl

/-- A server name list, by its first entry. -/
theorem data_serverNames (first : ServerName) (names : List ServerName) (once fits) :
    (serverNames first names once fits).data =
      be16 (first.name.length + (names.flatMap ServerName.bytes).length + 3) ++
        ((first.type :: be16 first.name.length) ++ (first.name ++ names.flatMap ServerName.bytes)) ∧
      first.name.length + (names.flatMap ServerName.bytes).length + 5 < 65536 := by
  have hlength : ((first :: names).flatMap ServerName.bytes).length =
      first.name.length + (names.flatMap ServerName.bytes).length + 3 := by
    simp only [List.flatMap_cons, ServerName.bytes, be16, List.length_append, List.length_cons, List.length_nil]
    omega
  rw [hlength] at fits
  rw [data, hlength, List.flatMap_cons, ServerName.bytes, List.append_assoc]
  exact ⟨rfl, fits⟩

theorem hostName_of_first {first : ServerName} (names : List ServerName) (once fits) (hfirst : first.type = 0) :
    (serverNames first names once fits).hostName = some first.name := by
  simp only [hostName, List.find?_cons, hfirst, decide_true, Option.map_some]

theorem hostName_of_none {e : Extension} (h : e.firstName = none) : e.hostName = none := by
  cases e with
  | serverNames first names once fits => cases h
  | _ => rfl

end Extension

/-- From the start of an extension to the start of the next one. -/
theorem parse_extension {c : Ctx} {left : ℕ} {host alpn : NgxStr} {version : List UInt8}
    {name protocols : Option (List UInt8)} (e : Extension) (h : At c .ext (e.bytes.length + left) host alpn version)
    (hpool : pool.host = true ∧ pool.alpn = true) (hname : Found host name) (hprotocols : Found alpn protocols)
    (hfirst : name = none → ∀ first ∈ e.firstName, first.type = 0) (rest : List UInt8) :
    ∃ d host' alpn', ngxStreamSslPrereadParseRecord pool c (e.bytes ++ rest) =
        ngxStreamSslPrereadParseRecord pool d rest ∧
      At d .ext left host' alpn' (if e.type = 43 then [3, 4] else version) ∧
      Found host' (name.or e.hostName) ∧ Found alpn' (protocols.or e.alpn) := by
  rw [e.bytes_length, Nat.add_assoc] at h
  have hskip (hsni : e.type = 0 → name ≠ none) (halpn : e.type = 16 → protocols ≠ none) (hsupver : e.type ≠ 43) :
      ∃ d, ngxStreamSslPrereadParseRecord pool c (e.bytes ++ rest) = ngxStreamSslPrereadParseRecord pool d rest ∧
        At d .ext left host alpn version := by
    obtain ⟨d, hparse, hd⟩ := @parse_unknown pool c left host alpn version e.data h e.type e.type_lt e.data_length_lt
      (fun h => hname.data_ne (hsni h)) (fun h => hprotocols.data_ne (halpn h)) hsupver rest
    rw [Extension.bytes, List.append_assoc]
    exact ⟨d, hparse, hd⟩
  cases e with
  | serverNames first names once fits =>
    rw [if_neg (by simp [Extension.type])]
    obtain ⟨hdata, hfits⟩ := Extension.data_serverNames first names once fits
    cases name with
    | none =>
      obtain ⟨type, found⟩ := first
      obtain rfl : type = 0 := hfirst rfl _ rfl
      have hlength : (Extension.serverNames ⟨0, found⟩ names once fits).data.length =
          found.length + (names.flatMap ServerName.bytes).length + 5 := by
        rw [hdata]
        simp only [be16, List.length_append, List.length_cons, List.length_nil]
        omega
      have hleft : 4 + ((Extension.serverNames ⟨0, found⟩ names once fits).data.length + left) =
          4 + (2 + (3 + (found.length + ((names.flatMap ServerName.bytes).length + left)))) := by
        rw [hlength]
        omega
      rw [hleft] at h
      obtain ⟨d, hparse, hd⟩ := @parse_serverName pool c left host alpn version found (names.flatMap ServerName.bytes) h
        (by rw [hname.data_none rfl]) hpool.1 hfits rest
      rw [Extension.hostName_of_first names once fits rfl]
      refine ⟨d, _, alpn, ?_, hd, ⟨_, rfl⟩, hprotocols.keep⟩
      rw [← hparse, Extension.bytes, hlength, hdata]
      simp only [Extension.type, List.append_assoc]
    | some found' =>
      obtain ⟨d, hparse, hd⟩ := hskip (fun _ => Option.some_ne_none _) (by simp [Extension.type])
        (by simp [Extension.type])
      exact ⟨d, host, alpn, hparse, hd, hname, hprotocols.keep⟩
  | protocols first names each fits =>
    rw [if_neg (by simp [Extension.type])]
    cases protocols with
    | none =>
      have hlength : (Extension.protocols first names each fits).data.length =
          (Extension.protocolList (first :: names)).length + 2 := by
        simp only [Extension.data, be16, List.length_append, List.length_cons, List.length_nil]
        omega
      have hleft : 4 + ((Extension.protocols first names each fits).data.length + left) =
          4 + (2 + ((Extension.protocolList (first :: names)).length + left)) := by omega
      rw [hleft, hprotocols.data_none rfl] at h
      obtain ⟨d, hparse, hd⟩ := @parse_protocols pool c left host version first names h hpool.2 each
        (by rw [Extension.protocolList_length]; exact fits) rest
      refine ⟨d, host, _, ?_, hd, hname.keep, ⟨_, rfl⟩⟩
      rw [← hparse, Extension.bytes, hlength]
      simp only [Extension.data, Extension.type, List.append_assoc]
    | some found' =>
      obtain ⟨d, hparse, hd⟩ := hskip (by simp [Extension.type]) (fun _ => Option.some_ne_none _)
        (by simp [Extension.type])
      exact ⟨d, host, alpn, hparse, hd, hname.keep, hprotocols⟩
  | supportedVersions versions fits =>
    have hleft : 4 + ((Extension.supportedVersions versions fits).data.length + left) =
        4 + (1 + (versions.length + left)) := by
      rw [Extension.data, List.length_cons]
      omega
    rw [hleft] at h
    obtain ⟨d, hparse, hd⟩ := @parse_supportedVersions pool c left host alpn version versions h fits rest
    refine ⟨d, host, alpn, ?_, hd, hname.keep, hprotocols.keep⟩
    rw [← hparse, Extension.bytes]
    simp only [Extension.data, Extension.type, List.append_assoc, List.cons_append, List.nil_append, List.length_cons]
  | other type data types fits =>
    obtain ⟨d, hparse, hd⟩ := hskip (fun h => absurd h types.2.1) (fun h => absurd h types.2.2.1) types.2.2.2
    rw [if_neg (by exact types.2.2.2)]
    exact ⟨d, host, alpn, hparse, hd, hname.keep, hprotocols.keep⟩

/-- All extensions, and the end of the message. -/
theorem parse_extensions {c : Ctx} {host alpn : NgxStr} {version : List UInt8} {name protocols : Option (List UInt8)}
    (exts : List Extension) (h : At c .ext (exts.flatMap Extension.bytes).length host alpn version)
    (hpool : pool.host = true ∧ pool.alpn = true) (hname : Found host name) (hprotocols : Found alpn protocols)
    (hfirst : name = none → ∀ first ∈ exts.findSome? Extension.firstName, first.type = 0) (rest : List UInt8) :
    ∃ d, ngxStreamSslPrereadParseRecord pool c (exts.flatMap Extension.bytes ++ rest) = .done (.ok d) ∧
      Found d.host (name.or (exts.findSome? Extension.hostName)) ∧
      Found d.alpn (protocols.or (exts.findSome? Extension.alpn)) ∧
      d.version.data = if exts.any fun e => e.type = 43 then [3, 4] else version := by
  induction exts generalizing c host alpn version name protocols with
  | nil =>
    have hnext : next pool c = .done (.ok c) := by
      rw [next, h.state]
      dsimp only
      rw [if_pos (by exact h.left)]
    refine ⟨c, ?_, ?_, ?_, ?_⟩
    · have hstep := @parse_step pool c c [] h.nil h.size rest
      rw [hnext] at hstep
      exact hstep
    · rwa [h.host, List.findSome?_nil, Option.or_none]
    · rwa [h.alpn, List.findSome?_nil, Option.or_none]
    · rw [h.version]
      rfl
  | cons e exts ih =>
    rw [List.flatMap_cons, List.length_append] at h
    rw [List.findSome?_cons] at hfirst
    have hhere : name = none → ∀ first ∈ e.firstName, first.type = 0 := fun hnone first hmem => by
      rw [Option.mem_def.mp hmem] at hfirst
      exact hfirst hnone first rfl
    have hlater : name.or e.hostName = none → ∀ first ∈ exts.findSome? Extension.firstName, first.type = 0 := by
      rw [Option.or_eq_none_iff]
      rintro ⟨hnone, hno⟩
      cases hfound : e.firstName with
      | none =>
        rw [hfound] at hfirst
        exact hfirst hnone
      | some first =>
        -- a list that begins with a host name has one
        cases e with
        | serverNames first' names once fits =>
          rw [Extension.hostName_of_first names once fits (hhere hnone _ rfl)] at hno
          cases hno
        | _ => cases hfound
    obtain ⟨d, host', alpn', hparse, hd, hname', hprotocols'⟩ := @parse_extension pool c _ host alpn version name
      protocols e h hpool hname hprotocols hhere (exts.flatMap Extension.bytes ++ rest)
    obtain ⟨f, hrest, hhost, halpn, hversion⟩ := ih hd hname' hprotocols' hlater
    refine ⟨f, ?_, ?_, ?_, ?_⟩
    · rw [List.flatMap_cons, List.append_assoc, hparse, hrest]
    · rw [List.findSome?_cons]
      rw [Option.or_assoc] at hhost
      cases hfound : e.hostName <;> rw [hfound] at hhost <;> exact hhost
    · rw [List.findSome?_cons]
      rw [Option.or_assoc] at halpn
      cases hfound : e.alpn <;> rw [hfound] at halpn <;> exact halpn
    · rw [hversion, List.any_cons]
      by_cases htype : e.type = 43 <;> simp [htype]

/-- A server name list that begins with another name is given up. -/
theorem parse_extensions_declined {c : Ctx} {alpn : NgxStr} {version : List UInt8} {protocols : Option (List UInt8)}
    (exts : List Extension) (h : At c .ext (exts.flatMap Extension.bytes).length {} alpn version)
    (hpool : pool.host = true ∧ pool.alpn = true) (hprotocols : Found alpn protocols)
    (hfirst : ∃ first ∈ exts.findSome? Extension.firstName, first.type ≠ 0) (rest : List UInt8) :
    ngxStreamSslPrereadParseRecord pool c (exts.flatMap Extension.bytes ++ rest) = .done .declined := by
  induction exts generalizing c alpn version protocols with
  | nil =>
    obtain ⟨first, hmem, -⟩ := hfirst
    cases hmem
  | cons e exts ih =>
    rw [List.flatMap_cons, List.length_append] at h
    rw [List.flatMap_cons, List.append_assoc]
    rw [List.findSome?_cons] at hfirst
    cases hfound : e.firstName with
    | none =>
      rw [hfound] at hfirst
      obtain ⟨d, host', alpn', hparse, hd, hname', hprotocols'⟩ := @parse_extension pool c _ {} alpn version none
        protocols e h hpool rfl hprotocols (fun _ first hmem => by rw [hfound] at hmem; cases hmem)
        (exts.flatMap Extension.bytes ++ rest)
      rw [Extension.hostName_of_none hfound, Option.none_or] at hname'
      rw [hname'.data_none rfl] at hd
      exact hparse.trans (ih hd hprotocols' hfirst)
    | some first =>
      rw [hfound] at hfirst
      obtain ⟨_, hmem, htype⟩ := hfirst
      obtain rfl := Option.some.inj hmem
      cases e with
      | serverNames first' names once fits =>
        obtain rfl := Option.some.inj hfound
        obtain ⟨hdata, hfits⟩ := Extension.data_serverNames first' names once fits
        have hlength : (Extension.serverNames first' names once fits).data.length =
            first'.name.length + (names.flatMap ServerName.bytes).length + 3 + 2 := by
          rw [hdata]
          simp only [be16, List.length_append, List.length_cons, List.length_nil]
          omega
        have hleft : (Extension.serverNames first' names once fits).bytes.length +
            (exts.flatMap Extension.bytes).length = 4 + (2 + (3 + (first'.name.length +
              (names.flatMap ServerName.bytes).length + (exts.flatMap Extension.bytes).length))) := by
          rw [Extension.bytes_length, hlength]
          omega
        rw [hleft] at h
        rw [Extension.bytes, hlength, hdata]
        have hdeclined := @parse_otherName pool c _ {} alpn version _ htype first'.name.length
          (first'.name.length + (names.flatMap ServerName.bytes).length + 3) h rfl (by omega) (by omega)
          (first'.name ++ (names.flatMap ServerName.bytes ++ (exts.flatMap Extension.bytes ++ rest)))
        simp only [Extension.type, List.append_assoc] at hdeclined ⊢
        exact hdeclined
      | _ => cases hfound

/-! ### The whole message -/

/-- A field with its length in one byte, which is skipped. -/
theorem parse_field8 {c : Ctx} {state s₁ s₂ : State} {left : ℕ} {host alpn : NgxStr} {version data : List UInt8}
    (h : At c state (1 + (data.length + left)) host alpn version) (hfits : data.length < 256)
    (hfirst : ∀ c : Ctx, c.state = state → next pool c = .more { c with state := s₁, dst := some (.buf, 0), size := 1 })
    (hsecond : ∀ c : Ctx, c.state = s₁ → next pool c = .more { c with state := s₂, dst := none, size := c.p 0 })
    (rest : List UInt8) :
    ∃ d, ngxStreamSslPrereadParseRecord pool c ([UInt8.ofNat data.length] ++ (data ++ rest)) =
        ngxStreamSslPrereadParseRecord pool d rest ∧ At d s₂ left host alpn version := by
  obtain ⟨d, hlen, hd, -, hbyte⟩ := @At.scratch pool c _ [UInt8.ofNat data.length] _ version _ _ _ _ _ h
    (hfirst c h.state) ⟨rfl, rfl, h.buf, h.left, h.version⟩ (by simp) (data ++ rest)
  rw [h.host, h.alpn] at hd
  have hcount : d.p 0 = data.length := by
    rw [hbyte 0 (by simp), List.getD_cons_zero, UInt8.toNat_ofNat', Nat.mod_eq_of_lt hfits]
  obtain ⟨e, hskip, he, -, -⟩ := @At.skip pool d _ data left version _ _ _ _ _ hd (hsecond d hd.state)
    ⟨rfl, hcount, hd.buf, hd.left, hd.version⟩ rest
  rw [hd.host, hd.alpn] at he
  exact ⟨e, hlen.trans hskip, he⟩

/-- A field with its length in two bytes, which is skipped: the cipher suites. -/
theorem parse_cipherSuites {c : Ctx} {left : ℕ} {host alpn : NgxStr} {version data : List UInt8}
    (h : At c .sid (2 + (data.length + left)) host alpn version) (hfits : data.length < 65536) (rest : List UInt8) :
    ∃ d, ngxStreamSslPrereadParseRecord pool c (be16 data.length ++ (data ++ rest)) =
        ngxStreamSslPrereadParseRecord pool d rest ∧ At d .cs left host alpn version := by
  have hnext : next pool c = .more { c with state := .csLen, dst := some (.buf, 0), size := 2 } := by
    rw [next, h.state]
  obtain ⟨d, hlen, hd, -, hbyte⟩ := @At.scratch pool c _ (be16 data.length) _ version _ _ _ _ _ h hnext
    ⟨rfl, rfl, h.buf, h.left, h.version⟩ (by simp [be16]) (data ++ rest)
  rw [h.host, h.alpn] at hd
  have hcount : d.p 0 * 256 + d.p 1 = data.length := by
    rw [hbyte 0 (by simp [be16]), hbyte 1 (by simp [be16])]
    exact be16_toNat hfits
  have hnext' : next pool d = .more { d with state := .cs, dst := none, size := data.length } := by
    rw [next, hd.state]
    dsimp only
    rw [hcount]
  obtain ⟨e, hskip, he, -, -⟩ := @At.skip pool d _ data left version _ _ _ _ _ hd hnext'
    ⟨rfl, rfl, hd.buf, hd.left, hd.version⟩ rest
  rw [hd.host, hd.alpn] at he
  exact ⟨e, hlen.trans hskip, he⟩

/-- The type, the length and the version of the message. -/
theorem parse_start {n : ℕ} {version : List UInt8} (hversion : version.length = 2) (hn : n < 16777216) {left : ℕ}
    (hleft : n = 2 + left) (rest : List UInt8) :
    ∃ d, ngxStreamSslPrereadParseRecord pool {} ((1 :: UInt8.ofNat (n / 65536) :: be16 n) ++ (version ++ rest)) =
        ngxStreamSslPrereadParseRecord pool d rest ∧ At d .version left {} {} version := by
  have hstart : At {} .start 0 {} {} [0, 0] := ⟨rfl, rfl, rfl, ⟨rfl, rfl⟩, rfl, rfl, rfl, rfl⟩
  obtain ⟨d, hhead, hd, -, hbyte⟩ := @At.scratch pool {} _ (1 :: UInt8.ofNat (n / 65536) :: be16 n) 0 [0, 0] _ _ _ _ _
    hstart rfl ⟨rfl, rfl, ⟨rfl, rfl⟩, rfl, rfl⟩ (by simp [be16]) (version ++ rest)
  have htype : d.p 0 = 1 := hbyte 0 (by simp)
  have hcount : d.p 1 * 65536 + d.p 2 * 256 + d.p 3 = n := by
    rw [hbyte 1 (by simp), hbyte 2 (by simp [be16]), hbyte 3 (by simp [be16])]
    change (UInt8.ofNat (n / 65536)).toNat * 65536 + (UInt8.ofNat (n / 256)).toNat * 256 + (UInt8.ofNat n).toNat = n
    simp only [UInt8.toNat_ofNat']
    omega
  have hnext : next pool d = .more { d with state := .version, dst := some (.version, 0), size := 2, left := n } := by
    rw [next, hd.state]
    dsimp only
    rw [if_neg (by omega), hcount]
  obtain ⟨e, hbytes, he⟩ := @At.versionBytes pool d _ version left [0, 0] _ _ _ _ _ hd hnext
    ⟨rfl, hversion.symm, hd.buf, by rw [hversion]; exact hleft, hd.version⟩ rfl hversion rest
  rw [hd.host, hd.alpn] at he
  exact ⟨e, hhead.trans hbytes, he⟩

/-- The fields before the extensions. -/
theorem parse_fields (hello : ClientHello) (rest : List UInt8) :
    ∃ c, ngxStreamSslPrereadParseRecord pool {} (hello.bytes ++ rest) =
        ngxStreamSslPrereadParseRecord pool c (hello.extensionBytes ++ rest) ∧
      At c .cm hello.extensionBytes.length {} {} hello.version.toList := by
  have hlength : hello.body.length = 2 + (32 + (1 + (hello.sessionId.length + (2 + (hello.cipherSuites.length +
      (1 + (hello.compressionMethods.length + hello.extensionBytes.length))))))) := by
    simp only [ClientHello.body, be16, List.length_append, List.length_cons, List.length_nil, Vector.length_toList]
    omega
  have hexts : hello.extensionBytes.length < 65538 := by
    rw [ClientHello.extensionBytes]
    split
    · decide
    · rename_i exts hsome
      have hfit := hello.extensionsFit exts hsome
      simp only [be16, List.length_append, List.length_cons, List.length_nil]
      omega
  have hsid := hello.sessionIdFits
  have hcs := hello.cipherSuitesFit
  have hcm := hello.compressionMethodsFit
  obtain ⟨c₁, hparse₁, h₁⟩ := @parse_start pool hello.body.length hello.version.toList (by simp) (by omega) _ hlength
    (hello.random.toList ++ ([UInt8.ofNat hello.sessionId.length] ++ (hello.sessionId ++
      (be16 hello.cipherSuites.length ++ (hello.cipherSuites ++ ([UInt8.ofNat hello.compressionMethods.length] ++
        (hello.compressionMethods ++ (hello.extensionBytes ++ rest))))))))
  have hnext₁ : next pool c₁ = .more { c₁ with state := .random, dst := none, size := 32 } := by rw [next, h₁.state]
  obtain ⟨c₂, hparse₂, h₂, -, -⟩ := @At.skip pool c₁ _ hello.random.toList _ _ _ _ _ _ _ h₁ hnext₁
    ⟨rfl, by simp, h₁.buf, by rw [Vector.length_toList]; exact h₁.left, h₁.version⟩ _
  rw [h₁.host, h₁.alpn] at h₂
  obtain ⟨c₃, hparse₃, h₃⟩ := @parse_field8 pool c₂ .random .sidLen .sid _ _ _ _ hello.sessionId h₂ hsid
    (fun c hc => by rw [next, hc]) (fun c hc => by rw [next, hc]) _
  obtain ⟨c₄, hparse₄, h₄⟩ := @parse_cipherSuites pool c₃ _ _ _ _ hello.cipherSuites h₃ hcs _
  obtain ⟨c₅, hparse₅, h₅⟩ := @parse_field8 pool c₄ .cs .cmLen .cm _ _ _ _ hello.compressionMethods h₄ hcm
    (fun c hc => by rw [next, hc]) (fun c hc => by rw [next, hc]) _
  refine ⟨c₅, ?_, h₅⟩
  rw [← hparse₅, ← hparse₄, ← hparse₃, ← hparse₂, ← hparse₁]
  simp only [ClientHello.bytes, ClientHello.body, be16, List.append_assoc, List.cons_append, List.nil_append]

/-- The fields before the first extension, if there are any. -/
theorem parse_toExtensions (hello : ClientHello) {exts : List Extension} (hextensions : hello.extensions = some exts)
    (rest : List UInt8) :
    ∃ d, ngxStreamSslPrereadParseRecord pool {} (hello.bytes ++ rest) =
        ngxStreamSslPrereadParseRecord pool d (exts.flatMap Extension.bytes ++ rest) ∧
      At d .ext (exts.flatMap Extension.bytes).length {} {} hello.version.toList := by
  obtain ⟨c, hparse, h⟩ := @parse_fields pool hello rest
  have hbytes : hello.extensionBytes =
      be16 (exts.flatMap Extension.bytes).length ++ exts.flatMap Extension.bytes := by
    rw [ClientHello.extensionBytes, hextensions]
  have hleft : hello.extensionBytes.length = 2 + (exts.flatMap Extension.bytes).length := by
    rw [hbytes, List.length_append]
    rfl
  rw [hleft] at h
  have hnext : next pool c = .more { c with state := .ext, dst := some (.buf, 0), size := 2 } := by
    rw [next, h.state]
    dsimp only
    rw [if_neg (by rw [h.left]; omega)]
  obtain ⟨d, hlen, hd, -, -⟩ := @At.scratch pool c _ (be16 (exts.flatMap Extension.bytes).length) _ _ _ _ _ _ _ h
    hnext ⟨rfl, rfl, h.buf, h.left, h.version⟩ (by simp [be16]) (exts.flatMap Extension.bytes ++ rest)
  rw [h.host, h.alpn] at hd
  refine ⟨d, ?_, hd⟩
  rw [hparse, hbytes, List.append_assoc]
  exact hlen

/-- A well-formed ClientHello, whose server name list begins with a host name. -/
theorem parse_hello (hello : ClientHello) (hfirst : hello.HostNameFirst) (hpool : pool.host = true ∧ pool.alpn = true)
    (rest : List UInt8) :
    ∃ d, ngxStreamSslPrereadParseRecord pool {} (hello.bytes ++ rest) = .done (.ok d) ∧
      (d.host.bytes = hello.hostName ∧ d.host.len = hello.hostName.length) ∧
      (d.alpn.bytes = hello.alpn ∧ d.alpn.len = hello.alpn.length) ∧ d.version.data = hello.protocolVersion := by
  rw [ClientHello.HostNameFirst] at hfirst
  rw [ClientHello.hostName, ClientHello.alpn, ClientHello.protocolVersion]
  cases hextensions : hello.extensions with
  | none =>
    obtain ⟨c, hparse, h⟩ := @parse_fields pool hello rest
    have hbytes : hello.extensionBytes = [] := by rw [ClientHello.extensionBytes, hextensions]
    rw [hbytes] at hparse h
    have hnext : next pool c = .done (.ok c) := by
      rw [next, h.state]
      dsimp only
      rw [if_pos (by exact h.left)]
    have hstep := @parse_step pool c c [] h.nil h.size rest
    rw [hnext] at hstep
    refine ⟨c, hparse.trans hstep, ?_⟩
    rw [h.host, h.alpn, h.version]
    exact ⟨⟨rfl, rfl⟩, ⟨rfl, rfl⟩, rfl⟩
  | some exts =>
    rw [hextensions] at hfirst
    obtain ⟨d, hparse, hd⟩ := @parse_toExtensions pool hello exts hextensions rest
    obtain ⟨e, hrest, hhost, halpn, hversion⟩ := @parse_extensions pool d {} {} _ none none exts hd hpool rfl rfl
      (fun _ => hfirst) rest
    rw [Option.none_or] at hhost halpn
    exact ⟨e, hparse.trans hrest, hhost.bytes, halpn.bytes, hversion⟩

/-- A well-formed ClientHello, whose server name list begins with another name. -/
theorem parse_hello_declined (hello : ClientHello) (hfirst : ¬hello.HostNameFirst)
    (hpool : pool.host = true ∧ pool.alpn = true) (rest : List UInt8) :
    ngxStreamSslPrereadParseRecord pool {} (hello.bytes ++ rest) = .done .declined := by
  rw [ClientHello.HostNameFirst] at hfirst
  push Not at hfirst
  cases hextensions : hello.extensions with
  | none =>
    rw [hextensions] at hfirst
    obtain ⟨first, hmem, -⟩ := hfirst
    cases hmem
  | some exts =>
    rw [hextensions] at hfirst
    obtain ⟨d, hparse, hd⟩ := @parse_toExtensions pool hello exts hextensions rest
    exact hparse.trans (@parse_extensions_declined pool d {} _ none exts hd hpool rfl hfirst rest)

/-- The parser finds in a well-formed ClientHello what the client sent, but gives it up if the server name list begins with
another name than a host name; on no input does it leave its memory or count below zero. -/
theorem preread_exact (ctx : Bool) :
    (∀ (hello : ClientHello) (rest : List UInt8),
      (hello.HostNameFirst → ∃ d, ngxStreamSslPrereadParseRecord ⟨ctx, true, true⟩ {} (hello.bytes ++ rest) = .done (.ok d) ∧
        (d.host.bytes = hello.hostName ∧ d.host.len = hello.hostName.length) ∧
        (d.alpn.bytes = hello.alpn ∧ d.alpn.len = hello.alpn.length) ∧ d.version.data = hello.protocolVersion) ∧
      (¬hello.HostNameFirst → ngxStreamSslPrereadParseRecord ⟨ctx, true, true⟩ {} (hello.bytes ++ rest) = .done .declined)) ∧
    ∀ (pool : Pool) (pieces : List (List UInt8)),
      feed (ngxStreamSslPrereadParseRecord pool) {} pieces ≠ .done .fault :=
  ⟨fun hello rest => ⟨fun hfirst => parse_hello hello hfirst ⟨rfl, rfl⟩ rest,
    fun hfirst => parse_hello_declined hello hfirst ⟨rfl, rfl⟩ rest⟩, fun _ pieces => feed_safe start_safe pieces⟩

/-- The name `a`, in a list with an entry of another type before or behind it, with two protocols and TLS 1.3. -/
def sampleHello (before : Bool) : ClientHello where
  version := #v[3, 3]
  random := Vector.replicate 32 7
  sessionId := [1, 2]
  cipherSuites := [0x13, 0x01]
  compressionMethods := [0]
  extensions := some [.supportedVersions [3, 4] (by decide),
    if before then .serverNames ⟨1, [9]⟩ [⟨0, [97]⟩] (by decide) (by decide)
    else .serverNames ⟨0, [97]⟩ [⟨1, [9]⟩] (by decide) (by decide),
    .protocols [104, 50] [[104]] (by decide) (by decide)]
  sessionIdFits := by decide
  cipherSuitesFit := by decide
  compressionMethodsFit := by decide
  extensionsFit := by cases before <;> decide

/-- The name `a` and the protocols `h2` and `h`. -/
theorem preread_exact_sample :
    ∃ d, ngxStreamSslPrereadParseRecord ⟨true, true, true⟩ {} ((sampleHello false).bytes ++ [0]) = .done (.ok d) ∧
      d.host.bytes = [97] ∧ d.alpn.bytes = [104, 50, 44, 104] ∧ d.version.data = [3, 4] := by
  have hfirst : (sampleHello false).HostNameFirst := fun first hmem => by
    obtain rfl := Option.some.inj hmem
    rfl
  obtain ⟨d, hparse, hhost, halpn, hversion⟩ := ((preread_exact true).1 (sampleHello false) [0]).1 hfirst
  exact ⟨d, hparse, hhost.1, halpn.1, hversion⟩

/-- A host name behind an entry of another type is not found. -/
theorem otherName_declined : (sampleHello true).hostName = [97] ∧
    ngxStreamSslPrereadParseRecord ⟨true, true, true⟩ {} (sampleHello true).bytes = .done .declined := by
  have hfirst : ¬(sampleHello true).HostNameFirst := fun h => absurd (h _ rfl) (by decide)
  have hparse := @parse_hello_declined ⟨true, true, true⟩ (sampleHello true) hfirst ⟨rfl, rfl⟩ []
  rw [List.append_nil] at hparse
  exact ⟨rfl, hparse⟩

end NginxDtls.Preread
