import NginxDtls.RequestLine

/-! The URI of a request: `ngx_http_parse_complex_uri`, which decodes a path and takes its dots away while it copies it, and
`ngx_http_process_request_uri`, which leaves a URI alone where the request line has met nothing to decode or to take away.
The loop reads one byte behind the URI, where there is at least the line feed, and never looks at it. -/

namespace NginxDtls.RequestUri

open Checked UnsafeUri RequestLine

export UnsafeUri (slash)

/-! ### `ngx_http_parse_complex_uri` -/

/-- `state` outside of an escape. -/
inductive PathState where
  | usual
  | slash
  | dot
  | dotDot
  deriving DecidableEq, Repr

/-- `state`, with `quoted_state` and `decoded` where they are used. -/
inductive ComplexState where
  | plain (state : PathState)
  | quoted (quotedState : PathState)
  | quotedSecond (quotedState : PathState) (decoded : UInt8)
  deriving DecidableEq, Repr

/-- The loop between two bytes. What was written to `r->uri.data` ends at `u`, and `r->uri_ext` is an offset in it. -/
structure Scan where
  state : ComplexState
  data : List UInt8
  uriExt : Option ℕ
  plusInUri : Bool
  quotedUri : Bool
  deriving DecidableEq, Repr

/-- A byte of the URI: the next one, `goto args`, or `goto done`. -/
inductive Round where
  | next (st : Scan)
  | args (st : Scan)
  | done (st : Scan)
  deriving DecidableEq, Repr

/-- `*u++ = ch` in memory of `size` bytes, and the state behind it. -/
def Scan.put (st : Scan) (size : ℕ) (state : PathState) (ch : UInt8) : Checked Unit Scan :=
  if st.data.length < size then pure { st with state := .plain state, data := st.data ++ [ch] } else throw .undefined

/-- The loop that goes back from `u` to behind a slash. -/
def backToSlash (data : List UInt8) : ℕ → Option ℕ
  | 0 => if data.getD 0 0 = slash then some 1 else none
  | u + 1 => if data.getD (u + 1) 0 = slash then some (u + 2) else backToSlash data u

/-- `u -= 4` and the loop behind it. -/
def Scan.back (st : Scan) : Checked Unit Scan :=
  match if st.data.length < 4 then none else backToSlash st.data (st.data.length - 4) with
  | none => throw (.returned ())
  | some u => pure { st with data := st.data.take u }

/-- `case '+'`, which falls through to the default. -/
def Scan.plus (st : Scan) (ch : UInt8) : Scan := if ch = RequestLine.plus then { st with plusInUri := true } else st

/-- The four states that are not in an escape. -/
def plainByte (merge : Bool) (size : ℕ) (st : Scan) (state : PathState) (ch : UInt8) : Checked Unit Round :=
  match state with
  | .usual =>
    if isUsual ch then .next <$> st.put size .usual ch
    else if ch = slash then .next <$> { st with uriExt := none }.put size .slash ch
    else if ch = percent then pure (.next { st with state := .quoted .usual })
    else if ch = question then pure (.args st)
    else if ch = hash then pure (.done st)
    else if ch = period then .next <$> { st with uriExt := some (st.data.length + 1) }.put size .usual ch
    else .next <$> (st.plus ch).put size .usual ch
  | .slash =>
    if isUsual ch then .next <$> st.put size .usual ch
    else if ch = slash then
      if merge then pure (.next { st with state := .plain .slash }) else .next <$> st.put size .slash ch
    else if ch = period then .next <$> st.put size .dot ch
    else if ch = percent then pure (.next { st with state := .quoted .slash })
    else if ch = question then pure (.args st)
    else if ch = hash then pure (.done st)
    else .next <$> (st.plus ch).put size .usual ch
  | .dot =>
    if isUsual ch then .next <$> st.put size .usual ch
    else if ch = slash then pure (.next { st with state := .plain .slash, data := st.data.dropLast })
    else if ch = period then .next <$> st.put size .dotDot ch
    else if ch = percent then pure (.next { st with state := .quoted .dot })
    else if ch = question then pure (.args { st with data := st.data.dropLast })
    else if ch = hash then pure (.done { st with data := st.data.dropLast })
    else .next <$> (st.plus ch).put size .usual ch
  | .dotDot =>
    if isUsual ch then .next <$> st.put size .usual ch
    else if ch = slash then do
      let st ← st.back
      pure (.next { st with state := .plain .slash })
    else if ch = question then .args <$> st.back
    else if ch = hash then .done <$> st.back
    else if ch = percent then pure (.next { st with state := .quoted .dotDot })
    else .next <$> (st.plus ch).put size .usual ch

/-- The states of an escape. The byte that it stands for goes through the switch again, but for those that would be taken
for the delimiters of a URI. -/
def complexByte (merge : Bool) (size : ℕ) (st : Scan) (ch : UInt8) : Checked Unit Round :=
  match st.state with
  | .plain state => plainByte merge size st state ch
  | .quoted quotedState =>
    let st := { st with quotedUri := true }
    if isDigit ch then pure (.next { st with state := .quotedSecond quotedState (ch - 48) })
    else if 97 ≤ ch ||| 0x20 ∧ ch ||| 0x20 ≤ 102 then
      pure (.next { st with state := .quotedSecond quotedState ((ch ||| 0x20) - 97 + 10) })
    else throw (.returned ())
  | .quotedSecond quotedState decoded =>
    if isDigit ch then
      let ch := (decoded <<< 4) + (ch - 48)
      if ch = percent ∨ ch = hash then .next <$> st.put size .usual ch
      else if ch = 0 then throw (.returned ())
      else plainByte merge size { st with state := .plain quotedState } quotedState ch
    else if 97 ≤ ch ||| 0x20 ∧ ch ||| 0x20 ≤ 102 then
      let ch := (decoded <<< 4) + ((ch ||| 0x20) - 97) + 10
      if ch = question then .next <$> st.put size .usual ch
      else plainByte merge size { st.plus ch with state := .plain quotedState } quotedState ch
    else throw (.returned ())

/-- The loop over the URI. With `goto args` comes what is behind the question mark. -/
def complexLoop (merge : Bool) (size : ℕ) : List UInt8 → Scan → Checked Unit (Scan × Option (List UInt8))
  | [], st =>
    match st.state with
    | .quoted _ => throw (.returned ())
    | .quotedSecond _ _ => throw (.returned ())
    | .plain .dot => pure ({ st with data := st.data.dropLast }, none)
    | .plain .dotDot => do
      let st ← st.back
      pure (st, none)
    | .plain _ => pure (st, none)
  | ch :: p, st => do
    match ← complexByte merge size st ch with
    | .next st => complexLoop merge size p st
    | .args st => pure (st, some p)
    | .done st => pure (st, none)

/-- What `ngx_http_parse_complex_uri` leaves in a request. `r->args_start` is what stands from there up to `r->uri_end`. -/
structure ComplexUri where
  uri : List UInt8
  exten : List UInt8
  args : List UInt8
  argsStart : Option (List UInt8)
  plusInUri : Bool
  quotedUri : Bool
  deriving DecidableEq, Repr

/-- From the labels on. The loop over the arguments ends them at a hash, if there is one. -/
def complexEnd (st : Scan) (argsStart : Option (List UInt8)) : ComplexUri :=
  let exten := (st.uriExt.map st.data.drop).getD []
  match argsStart with
  | none => ⟨st.data, exten, [], none, st.plusInUri, st.quotedUri⟩
  | some p =>
    if hash ∈ p then ⟨st.data, exten, p.takeWhile (· ≠ hash), none, st.plusInUri, st.quotedUri⟩
    else ⟨st.data, exten, [], some p, st.plusInUri, st.quotedUri⟩

/-- `ngx_http_parse_complex_uri` of the URI from `r->uri_start` to `r->uri_end`, with the flags that it reads or sets. -/
def ngxHttpParseComplexUri (merge : Bool) (size : ℕ) (emptyPathInUri plusInUri quotedUri : Bool) (uri : List UInt8) :
    Checked Unit ComplexUri := do
  let st : Scan := ⟨.plain .usual, [], none, plusInUri, quotedUri⟩
  let st ← if emptyPathInUri then st.put size .usual slash else pure st
  let (st, argsStart) ← complexLoop merge size uri st
  pure (complexEnd st argsStart)

/-! ### `ngx_http_process_request_uri` -/

/-- The bytes from one pointer to another. -/
def between (mem : ℕ → UInt8) (first last : ℕ) : List UInt8 := (List.range' first (last - first)).map mem

/-- What `ngx_http_process_request_uri` sets. -/
structure UriFields where
  uri : List UInt8
  exten : List UInt8
  args : List UInt8
  unparsedUri : List UInt8
  validUnparsedUri : Bool
  plusInUri : Bool
  quotedUri : Bool
  deriving DecidableEq, Repr

/-- `r->args` behind the beginning that was found. -/
def argsFrom (args : List UInt8) : Option (List UInt8) → List UInt8
  | none => args
  | some start => if start = [] then args else start

/-- Where the bytes of `r->uri` end in the request line, if they are left there. -/
def uriLast (r : Request) (uriEnd : ℕ) : ℕ :=
  match r.argsStart with
  | some argsStart => argsStart - 1
  | none => uriEnd

/-- `ngx_http_process_request_uri`; it returns where the request is finalized with `NGX_HTTP_BAD_REQUEST`. -/
def ngxHttpProcessRequestUri (mem : ℕ → UInt8) (merge : Bool) (r : Request) : Checked Unit UriFields :=
  let uriStart := r.uriStart.getD 0
  let uriEnd := r.uriEnd.getD 0
  let uriLast := uriLast r uriEnd
  let unparsedUri := between mem uriStart uriEnd
  if r.complexUri ∨ r.quotedUri ∨ r.emptyPathInUri then do
    let size := uriLast - uriStart + if r.emptyPathInUri then 1 else 0
    let c ← ngxHttpParseComplexUri merge size r.emptyPathInUri r.plusInUri r.quotedUri unparsedUri
    pure ⟨c.uri, c.exten, argsFrom c.args c.argsStart, unparsedUri, !r.emptyPathInUri, c.plusInUri, c.quotedUri⟩
  else
    let exten := match r.uriExt with
      | some uriExt => between mem uriExt uriLast
      | none => []
    pure ⟨between mem uriStart uriLast, exten, argsFrom [] (r.argsStart.map fun argsStart => between mem argsStart uriEnd),
      unparsedUri, true, r.plusInUri, r.quotedUri⟩

end NginxDtls.RequestUri
