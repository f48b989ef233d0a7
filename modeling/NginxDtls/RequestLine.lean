import NginxDtls.UnsafeUri

/-! The request line: `ngx_http_parse_request_line`, which is called again with more bytes wherever it has stopped. Positions are
those of the bytes in the memory of the connection. -/

namespace NginxDtls.RequestLine

open UnsafeUri

export UnsafeUri (slash)

def cr : UInt8 := 13

def lf : UInt8 := 10

def space : UInt8 := 32

def hash : UInt8 := 35

def plus : UInt8 := 43

def colon : UInt8 := 58

/-- The states of `ngx_http_parse_request_line`. -/
inductive LineState where
  | start
  | method
  | spacesBeforeUri
  | schema
  | schemaSlash
  | schemaSlashSlash
  | hostStart
  | host
  | hostEnd
  | hostIpLiteral
  | port
  | afterSlashInUri
  | checkUri
  | uri
  | http09
  | httpH
  | httpHT
  | httpHTT
  | httpHTTP
  | firstMajorDigit
  | majorDigit
  | firstMinorDigit
  | minorDigit
  | spacesAfterDigit
  | almostDone
  deriving DecidableEq, Repr

inductive Method where
  | unknown
  | get
  | head
  | post
  | put
  | delete
  | mkcol
  | copy
  | move
  | options
  | propfind
  | proppatch
  | lock
  | unlock
  | patch
  | trace
  | connect
  deriving DecidableEq, Repr

/-- What `ngx_http_parse_request_line` keeps in a request. -/
structure Request where
  state : LineState
  method : Method
  requestStart : Option ℕ
  methodEnd : Option ℕ
  schemaStart : Option ℕ
  schemaEnd : Option ℕ
  hostStart : Option ℕ
  hostEnd : Option ℕ
  portEnd : Option ℕ
  uriStart : Option ℕ
  uriEnd : Option ℕ
  uriExt : Option ℕ
  argsStart : Option ℕ
  httpProtocol : Option ℕ
  requestEnd : Option ℕ
  complexUri : Bool
  quotedUri : Bool
  plusInUri : Bool
  emptyPathInUri : Bool
  httpMajor : ℕ
  httpMinor : ℕ
  httpVersion : ℕ
  deriving DecidableEq, Repr

/-- A request of `ngx_http_alloc_request`. -/
def Request.new : Request where
  state := .start
  method := .unknown
  requestStart := none
  methodEnd := none
  schemaStart := none
  schemaEnd := none
  hostStart := none
  hostEnd := none
  portEnd := none
  uriStart := none
  uriEnd := none
  uriExt := none
  argsStart := none
  httpProtocol := none
  requestEnd := none
  complexUri := false
  quotedUri := false
  plusInUri := false
  emptyPathInUri := false
  httpMajor := 0
  httpMinor := 0
  httpVersion := 1000

inductive LineError where
  | invalidMethod
  | invalidRequest
  | invalidVersion
  | invalid09Method
  deriving DecidableEq, Repr

/-- A byte of the line: the next one, `goto done`, or an error. -/
inductive ByteResult where
  | next (r : Request)
  | done (r : Request)
  | error (rc : LineError)

/-- `NGX_OK` and `NGX_AGAIN` with the new `b->pos`. An error ends the request. -/
inductive LineResult where
  | ok (pos : ℕ) (r : Request)
  | again (pos : ℕ) (r : Request)
  | error (rc : LineError)

/-! ### Bytes -/

/-- `ch >= '0' && ch <= '9'` -/
def isDigit (ch : UInt8) : Bool := 48 ≤ ch ∧ ch ≤ 57

/-- `c = (u_char) (ch | 0x20); if (c >= 'a' && c <= 'z')` -/
def isLetter (ch : UInt8) : Bool := 97 ≤ ch ||| 0x20 ∧ ch ||| 0x20 ≤ 122

/-- A byte that a method may not have: `(ch < 'A' || ch > 'Z') && ch != '_' && ch != '-'`. -/
def isNoMethod (ch : UInt8) : Bool := (ch < 65 ∨ ch > 90) ∧ ch ≠ 95 ∧ ch ≠ 45

/-- The unreserved bytes and the sub-delimiters of an IP literal. -/
def literalBytes : List Char := ['-', '.', '_', '~', '!', '$', '&', '\'', '(', ')', '*', '+', ',', ';', '=']

def isLiteral (ch : UInt8) : Bool := (literalBytes.map Char.toUInt8).contains ch

/-! ### Methods -/

/-- `ngx_str3_cmp` and its likes -/
def isName (mem : ℕ → UInt8) (m : ℕ) (name : List Char) : Bool :=
  name.zipIdx.all fun c => mem (m + c.2) = c.1.toUInt8

def names : List (List Char × Method) :=
  [(['G', 'E', 'T'], .get), (['P', 'U', 'T'], .put), (['P', 'O', 'S', 'T'], .post), (['C', 'O', 'P', 'Y'], .copy),
    (['M', 'O', 'V', 'E'], .move), (['L', 'O', 'C', 'K'], .lock), (['H', 'E', 'A', 'D'], .head),
    (['M', 'K', 'C', 'O', 'L'], .mkcol), (['P', 'A', 'T', 'C', 'H'], .patch), (['T', 'R', 'A', 'C', 'E'], .trace),
    (['D', 'E', 'L', 'E', 'T', 'E'], .delete), (['U', 'N', 'L', 'O', 'C', 'K'], .unlock),
    (['O', 'P', 'T', 'I', 'O', 'N', 'S'], .options), (['C', 'O', 'N', 'N', 'E', 'C', 'T'], .connect),
    (['P', 'R', 'O', 'P', 'F', 'I', 'N', 'D'], .propfind), (['P', 'R', 'O', 'P', 'P', 'A', 'T', 'C', 'H'], .proppatch)]

/-- The method of that many bytes, if it is known. -/
def methodOf (mem : ℕ → UInt8) (m len : ℕ) : Option Method :=
  (names.find? fun name => name.1.length = len && isName mem m name.1).map Prod.snd

/-! ### The states -/

def next (r : Request) (state : LineState) : ByteResult := .next { r with state := state }

/-- The states in which one byte must follow. -/
def expect (r : Request) (ch wanted : UInt8) (state : LineState) : ByteResult :=
  if ch = wanted then next r state else .error .invalidRequest

/-- `sw_host_end`, and `sw_port` without its digits: what follows the host or the port. -/
def authorityEnd (r : Request) (p : ℕ) (ch : UInt8) : ByteResult :=
  if ch = slash then next { r with uriStart := some p } .afterSlashInUri
  else if ch = question then
    next { r with uriStart := some p, argsStart := some (p + 1), emptyPathInUri := true } .uri
  -- the single slash of the request line that stands for the path
  else if ch = space then
    next { r with uriStart := r.schemaEnd.map (· + 1), uriEnd := r.schemaEnd.map (· + 2) } .http09
  else .error .invalidRequest

/-- `sw_host_end` -/
def hostEndByte (r : Request) (p : ℕ) (ch : UInt8) : ByteResult :=
  let r := { r with hostEnd := some p }
  if ch = colon then next r .port else authorityEnd r p ch

/-- `sw_host` -/
def hostByte (r : Request) (p : ℕ) (ch : UInt8) : ByteResult :=
  if isLetter ch ∨ isDigit ch ∨ ch = period ∨ ch = 45 then .next r else hostEndByte r p ch

/-- The ends of a URI: a space, or the end of the line of HTTP/0.9. -/
def uriEndByte (r : Request) (p : ℕ) (ch : UInt8) (other : ByteResult) : ByteResult :=
  if ch = space then next { r with uriEnd := some p } .http09
  else if ch = cr then next { r with uriEnd := some p, httpMinor := 9 } .almostDone
  else if ch = lf then .done { r with uriEnd := some p, httpMinor := 9 }
  else other

/-- `sw_after_slash_in_uri` -/
def afterSlashByte (r : Request) (p : ℕ) (ch : UInt8) : ByteResult :=
  if isUsual ch then next r .checkUri
  else uriEndByte r p ch <|
    if ch = period then next { r with complexUri := true } .uri
    else if ch = percent then next { r with quotedUri := true } .uri
    else if ch = slash then next { r with complexUri := true } .uri
    else if ch = question then next { r with argsStart := some (p + 1) } .uri
    else if ch = hash then next { r with complexUri := true } .uri
    else if ch = plus then .next { r with plusInUri := true }
    else if ch < 0x20 ∨ ch = 0x7f then .error .invalidRequest
    else next r .checkUri

/-- `sw_check_uri` -/
def checkUriByte (r : Request) (p : ℕ) (ch : UInt8) : ByteResult :=
  if isUsual ch then .next r
  else if ch = slash then next { r with uriExt := none } .afterSlashInUri
  else if ch = period then .next { r with uriExt := some (p + 1) }
  else uriEndByte r p ch <|
    if ch = percent then next { r with quotedUri := true } .uri
    else if ch = question then next { r with argsStart := some (p + 1) } .uri
    else if ch = hash then next { r with complexUri := true } .uri
    else if ch = plus then .next { r with plusInUri := true }
    else if ch < 0x20 ∨ ch = 0x7f then .error .invalidRequest
    else .next r

/-- `sw_uri` -/
def uriByte (r : Request) (p : ℕ) (ch : UInt8) : ByteResult :=
  if isUsual ch then .next r
  else uriEndByte r p ch <|
    if ch = hash then .next { r with complexUri := true }
    else if ch < 0x20 ∨ ch = 0x7f then .error .invalidRequest
    else .next r

/-- The switch of `ngx_http_parse_request_line` for the byte at `p`. -/
def lineByte (mem : ℕ → UInt8) (p : ℕ) (r : Request) : ByteResult :=
  let ch := mem p
  match r.state with
  | .start =>
    let r := { r with requestStart := some p }
    if ch = cr ∨ ch = lf then .next r else if isNoMethod ch then .error .invalidMethod else next r .method
  | .method =>
    if ch = space then
      let m := r.requestStart.getD 0
      next { r with methodEnd := some (p - 1), method := (methodOf mem m (p - m)).getD r.method } .spacesBeforeUri
    else if isNoMethod ch then .error .invalidMethod
    else .next r
  | .spacesBeforeUri =>
    if ch = slash then next { r with uriStart := some p } .afterSlashInUri
    else if isLetter ch then next { r with schemaStart := some p } .schema
    else if ch = space then .next r
    else .error .invalidRequest
  | .schema =>
    if isLetter ch then .next r
    else if isDigit ch ∨ ch = plus ∨ ch = 45 ∨ ch = period then .next r
    else if ch = colon then next { r with schemaEnd := some p } .schemaSlash
    else .error .invalidRequest
  | .schemaSlash => expect r ch slash .schemaSlashSlash
  | .schemaSlashSlash => expect r ch slash .hostStart
  | .hostStart =>
    let r := { r with hostStart := some p }
    if ch = 91 then next r .hostIpLiteral else hostByte { r with state := .host } p ch
  | .host => hostByte r p ch
  | .hostEnd => hostEndByte r p ch
  | .hostIpLiteral =>
    if isDigit ch ∨ isLetter ch then .next r
    else if ch = colon then .next r
    else if ch = 93 then next r .hostEnd
    else if isLiteral ch then .next r
    else .error .invalidRequest
  | .port =>
    if isDigit ch then .next r else authorityEnd { r with portEnd := some p } p ch
  | .afterSlashInUri => afterSlashByte r p ch
  | .checkUri => checkUriByte r p ch
  | .uri => uriByte r p ch
  | .http09 =>
    if ch = space then .next r
    else if ch = cr then next { r with httpMinor := 9 } .almostDone
    else if ch = lf then .done { r with httpMinor := 9 }
    else expect { r with httpProtocol := some p } ch 'H'.toUInt8 .httpH
  | .httpH => expect r ch 'T'.toUInt8 .httpHT
  | .httpHT => expect r ch 'T'.toUInt8 .httpHTT
  | .httpHTT => expect r ch 'P'.toUInt8 .httpHTTP
  | .httpHTTP => expect r ch slash .firstMajorDigit
  | .firstMajorDigit =>
    if ch < 49 ∨ ch > 57 then .error .invalidRequest
    else
      let r := { r with httpMajor := (ch - 48).toNat }
      if r.httpMajor > 1 then .error .invalidVersion else next r .majorDigit
  | .majorDigit =>
    if ch = period then next r .firstMinorDigit
    else if !isDigit ch then .error .invalidRequest
    else
      let r := { r with httpMajor := r.httpMajor * 10 + (ch - 48).toNat }
      if r.httpMajor > 1 then .error .invalidVersion else .next r
  | .firstMinorDigit =>
    if !isDigit ch then .error .invalidRequest else next { r with httpMinor := (ch - 48).toNat } .minorDigit
  | .minorDigit =>
    if ch = cr then next r .almostDone
    else if ch = lf then .done r
    else if ch = space then next r .spacesAfterDigit
    else if !isDigit ch then .error .invalidRequest
    else if r.httpMinor > 99 then .error .invalidRequest
    else .next { r with httpMinor := r.httpMinor * 10 + (ch - 48).toNat }
  | .spacesAfterDigit =>
    if ch = space then .next r
    else if ch = cr then next r .almostDone
    else if ch = lf then .done r
    else .error .invalidRequest
  | .almostDone =>
    if ch = lf then .done { r with requestEnd := some (p - 1) } else .error .invalidRequest

/-- From the label `done` on, at the line feed at `p`. -/
def lineDone (r : Request) (p : ℕ) : LineResult :=
  let r := { r with
    requestEnd := if r.requestEnd.isNone then some p else r.requestEnd
    httpVersion := r.httpMajor * 1000 + r.httpMinor
    state := .start }
  if r.httpVersion = 9 ∧ r.method ≠ .get then .error .invalid09Method else .ok (p + 1) r

/-- The loop of `ngx_http_parse_request_line` over the bytes that are left. -/
def parseLoop (mem : ℕ → UInt8) : ℕ → ℕ → Request → LineResult
  | 0, p, r => .again p r
  | left + 1, p, r =>
    match lineByte mem p r with
    | .next r => parseLoop mem left (p + 1) r
    | .done r => lineDone r p
    | .error rc => .error rc

/-- `ngx_http_parse_request_line` of the bytes from `b->pos` to `b->last`. -/
def ngxHttpParseRequestLine (mem : ℕ → UInt8) (pos last : ℕ) (r : Request) : LineResult :=
  parseLoop mem (last - pos) pos r

end NginxDtls.RequestLine
