import Mathlib.Data.List.Basic
import Mathlib.Data.UInt
import Mathlib.Tactic

/-! Strings that are built from variables: complex values of `ngx_stream_script.c`, the variables of `ngx_stream_variables.c`
and of `map` blocks, and the lines of the stream log. A string is built in two passes over the same code, one that adds up
lengths and one that copies. Both ask for the variables, and the answer may change what was measured before.

The regular expressions and the variables of other modules are parameters. Values are kept by their bytes, and memory is
always available. -/

namespace NginxDtls.Script

/-- `ngx_variable_value_t` -/
structure Value where
  data : List UInt8 := []
  valid : Bool := false
  noCacheable : Bool := false
  notFound : Bool := false
  escape : Bool := false

/-- What the session keeps: `s->variables`, and the captures of the last match by their bytes, as many as half of
`s->ncaptures`. `evaluations` counts the evaluations of variables whose values come from outside. -/
structure Session where
  vars : ℕ → Value
  groups : List (List UInt8)
  evaluations : ℕ

def Session.set (s : Session) (i : ℕ) (v : Value) : Session := { s with vars := Function.update s.vars i v }

@[simp]
theorem Session.set_vars (s : Session) (i : ℕ) (v : Value) : (s.set i v).vars = Function.update s.vars i v := rfl

@[simp]
theorem Session.set_groups (s : Session) (i : ℕ) (v : Value) : (s.set i v).groups = s.groups := rfl

@[simp]
theorem Session.set_evaluations (s : Session) (i : ℕ) (v : Value) : (s.set i v).evaluations = s.evaluations := rfl

/-- `s->variables[index].not_found || s->variables[index].valid` -/
def Session.Cached (s : Session) (i : ℕ) : Prop := (s.vars i).notFound ∨ (s.vars i).valid

instance (s : Session) (i : ℕ) : Decidable (s.Cached i) := inferInstanceAs (Decidable (_ ∨ _))

/-! ### The code of a value -/

inductive Code where
  | copy (data : List UInt8)
  | var (index : ℕ)
  | capture (n : ℕ)
  deriving DecidableEq

/-- `ngx_stream_complex_value_t`, without codes or with them. -/
inductive ComplexValue where
  | text (value : List UInt8)
  | script (flushes : List ℕ) (codes : List Code)

/-- A byte of a variable's name. -/
def IsName (ch : UInt8) : Prop := (65 ≤ ch ∧ ch ≤ 90) ∨ (97 ≤ ch ∧ ch ≤ 122) ∨ (48 ≤ ch ∧ ch ≤ 57) ∨ ch = 95

instance (ch : UInt8) : Decidable (IsName ch) := inferInstanceAs (Decidable (_ ∨ _))

/-- `ngx_stream_script_compile` with `ngx_stream_script_done`: `index` gives the variable of a name, and `zero` asks for a
byte zero at the end. `none` is `NGX_ERROR`. -/
def scriptCompile (index : List UInt8 → ℕ) (zero : Bool) (text : List UInt8) : Option (List Code) :=
  match text with
  | [] => some (if zero then [.copy [0]] else [])
  | 36 :: [] => none
  | 36 :: ch :: rest =>
    if 49 ≤ ch ∧ ch ≤ 57 then (scriptCompile index zero rest).map (.capture (ch.toNat - 48) :: ·)
    else if ch = 123 then
      if rest.takeWhile (decide <| IsName ·) = [] then none
      else
        match _h : rest.dropWhile (decide <| IsName ·) with
        | 125 :: rest' =>
          (scriptCompile index zero rest').map (.var (index (rest.takeWhile (decide <| IsName ·))) :: ·)
        | _ => none
    else if IsName ch then
      (scriptCompile index zero (rest.dropWhile (decide <| IsName ·))).map
        (.var (index (ch :: rest.takeWhile (decide <| IsName ·))) :: ·)
    else none
  | ch :: rest =>
    match _h : rest.dropWhile (· ≠ 36) with
    | [] => some [.copy (ch :: rest ++ if zero then [0] else [])]
    | ch' :: rest' => (scriptCompile index zero (ch' :: rest')).map (.copy (ch :: rest.takeWhile (· ≠ 36)) :: ·)
termination_by text.length
decreasing_by
  · simp only [List.length_cons]
    omega
  · have hle := (List.dropWhile_sublist (fun x => decide (IsName x)) (l := rest)).length_le
    rw [_h, List.length_cons] at hle
    simp only [List.length_cons]
    omega
  · have hle := (List.dropWhile_sublist (fun x => decide (IsName x)) (l := rest)).length_le
    simp only [List.length_cons]
    omega
  · have hle := (List.dropWhile_sublist (fun x => decide (x ≠ 36)) (l := rest)).length_le
    rw [_h] at hle
    simp only [List.length_cons] at hle ⊢
    omega

/-- The variables of a code, which are its flushes. -/
def codeVariables (codes : List Code) : List ℕ := codes.filterMap fun
  | .var i => some i
  | _ => none

/-- `ngx_stream_compile_complex_value` without a prefix. -/
def ngxStreamCompileComplexValue (index : List UInt8 → ℕ) (zero : Bool) (text : List UInt8) : Option ComplexValue :=
  if 36 ∈ text then (scriptCompile index zero text).map fun codes => .script (codeVariables codes) codes
  else some (.text text)

/-! ### The handlers of variables -/

/-- What a handler outside of the model does: `NGX_OK` with a value, `NGX_OK` with `not_found`, or `NGX_ERROR`. -/
inductive Outcome where
  | found (data : List UInt8)
  | notFound
  | error

/-- What `ngx_regex_exec` does, with the bytes of the captures from `$0` on. -/
inductive RegexResult where
  | declined
  | error
  | matched (groups : List (List UInt8))

/-- `ngx_stream_regex_t`: for each named capture its number and its variable. -/
structure Regex where
  exec : List UInt8 → RegexResult
  named : List (ℕ × ℕ)

/-- A value of a `map`. -/
inductive MapValue where
  | text (data : List UInt8)
  | complex (cv : ComplexValue)

/-- `ngx_stream_map_ctx_t`, with its exact and wildcard names as a function of the name in lower case. -/
structure Map where
  value : ComplexValue
  hostnames : Bool
  hash : List UInt8 → Option MapValue
  regex : List (Regex × MapValue)
  defaultValue : MapValue

inductive Handler where
  /-- `ngx_stream_map_variable` -/
  | map (m : Map)
  /-- `ngx_stream_variable_not_found`, of a named capture -/
  | notFound
  /-- the variable of another module, by the number of its evaluation -/
  | outside (value : ℕ → Outcome)

/-- `ngx_stream_variable_t` with `NGX_STREAM_VAR_NOCACHEABLE`. -/
structure Variable where
  handler : Handler
  noCacheable : Bool

/-- A function that gives the value of a variable, as `ngx_stream_get_indexed_variable` does. -/
abbrev Get := ℕ → Session → Session × Option Value

/-! ### Printing a variable -/

/-- A pair of functions that measure and print a variable: what stands for a variable that is not found, the bytes that the
escapes add, the bytes with the escapes, and whether `value->escape` is set by the first one. -/
structure Printer where
  missing : List UInt8
  extra : List UInt8 → ℕ
  escaped : List UInt8 → List UInt8
  marks : Bool

/-- The length of a variable. -/
def Printer.varLen (p : Printer) (get : Get) (i : ℕ) (s : Session) : Session × ℕ :=
  match get i s with
  | (s', some v) =>
    if v.notFound then (s', p.missing.length)
    else (if p.marks then s'.set i { s'.vars i with escape := decide (p.extra v.data ≠ 0) } else s',
      v.data.length + p.extra v.data)
  | (s', none) => (s', p.missing.length)

/-- The bytes of a variable. -/
def Printer.varCopy (p : Printer) (get : Get) (i : ℕ) (s : Session) : Session × List UInt8 :=
  match get i s with
  | (s', some v) => (s', if v.notFound then p.missing else if v.escape then p.escaped v.data else v.data)
  | (s', none) => (s', p.missing)

/-- `ngx_stream_script_copy_var_len_code` and `ngx_stream_script_copy_var_code`. -/
def scriptCopyVar : Printer := ⟨[], fun _ => 0, id, false⟩

/-- The bytes that `ngx_stream_log_escape` replaces. -/
def LogEscaped (ch : UInt8) : Prop := ch < 32 ∨ ch = 34 ∨ ch = 92 ∨ 127 ≤ ch

instance (ch : UInt8) : Decidable (LogEscaped ch) := inferInstanceAs (Decidable (_ ∨ _))

/-- A digit of `hex`. -/
def hexDigit (n : ℕ) : UInt8 := UInt8.ofNat (if n < 10 then 48 + n else 55 + n)

/-- `ngx_stream_log_escape` of a byte. -/
def logEscape (ch : UInt8) : List UInt8 :=
  if LogEscaped ch then [92, 120, hexDigit (ch.toNat / 16), hexDigit (ch.toNat % 16)] else [ch]

/-- `ngx_stream_log_variable_getlen` and `ngx_stream_log_variable`. -/
def logVariable : Printer :=
  ⟨[45], fun data => (data.countP (decide <| LogEscaped ·)) * 3, fun data => data.flatMap logEscape, true⟩

/-- `ngx_escape_json` of a byte. -/
def escapeJson (ch : UInt8) : List UInt8 :=
  if ch > 31 then (if ch = 92 ∨ ch = 34 then [92, ch] else [ch])
  else if ch = 10 then [92, 110]
  else if ch = 13 then [92, 114]
  else if ch = 9 then [92, 116]
  else if ch = 8 then [92, 98]
  else if ch = 12 then [92, 102]
  else [92, 117, 48, 48, 48 + ch / 16, if ch % 16 < 10 then 48 + ch % 16 else 55 + ch % 16]

/-- The bytes that `ngx_escape_json` counts for a byte when it has no destination. -/
def escapeJsonLen (ch : UInt8) : ℕ :=
  if ch = 92 ∨ ch = 34 then 1
  else if ch ≤ 31 then (if ch = 10 ∨ ch = 13 ∨ ch = 9 ∨ ch = 8 ∨ ch = 12 then 1 else 5)
  else 0

/-- `ngx_stream_log_json_variable_getlen` and `ngx_stream_log_json_variable`. -/
def logJsonVariable : Printer :=
  ⟨[], fun data => (data.map escapeJsonLen).sum, fun data => data.flatMap escapeJson, true⟩

/-- `ngx_stream_log_unescaped_variable_getlen` and `ngx_stream_log_unescaped_variable`. -/
def logUnescapedVariable : Printer := ⟨[], fun _ => 0, id, true⟩

/-! ### The two passes -/

/-- The length of a code's bytes. -/
def lenCode (p : Printer) (get : Get) : Code → Session → Session × ℕ
  | .copy data, s => (s, data.length)
  | .var i, s => p.varLen get i s
  | .capture n, s => (s, (s.groups.getD n []).length)

def copyCode (p : Printer) (get : Get) : Code → Session → Session × List UInt8
  | .copy data, s => (s, data)
  | .var i, s => p.varCopy get i s
  | .capture n, s => (s, s.groups.getD n [])

/-- The pass that adds up the lengths. -/
def lengthPass (p : Printer) (get : Get) : List Code → Session → Session × ℕ
  | [], s => (s, 0)
  | c :: codes, s =>
    ((lengthPass p get codes (lenCode p get c s).1).1,
      (lenCode p get c s).2 + (lengthPass p get codes (lenCode p get c s).1).2)

/-- The pass that copies. -/
def copyPass (p : Printer) (get : Get) : List Code → Session → Session × List UInt8
  | [], s => (s, [])
  | c :: codes, s =>
    ((copyPass p get codes (copyCode p get c s).1).1,
      (copyCode p get c s).2 ++ (copyPass p get codes (copyCode p get c s).1).2)

/-- A string that has been built: the bytes that were allocated, and the bytes that were written. -/
structure Built where
  length : ℕ
  bytes : List UInt8

/-- The string itself. Bytes that were not written are those of the memory. -/
def Built.text (b : Built) (junk : ℕ → UInt8) : List UInt8 :=
  List.ofFn fun i : Fin b.length => b.bytes.getD i (junk i)

/-- Both passes. -/
def build (p : Printer) (get : Get) (codes : List Code) (s : Session) : Session × Built :=
  ((copyPass p get codes (lengthPass p get codes s).1).1,
    ⟨(lengthPass p get codes s).2, (copyPass p get codes (lengthPass p get codes s).1).2⟩)

/-- A step of `ngx_stream_script_flush_complex_value` and `ngx_stream_script_flush_no_cacheable_variables`. -/
def flushVariable (s : Session) (i : ℕ) : Session :=
  if (s.vars i).noCacheable then s.set i { s.vars i with valid := false, notFound := false } else s

/-- `ngx_stream_script_flush_complex_value` -/
def flushVariables (s : Session) (flushes : List ℕ) : Session := flushes.foldl flushVariable s

/-- `ngx_stream_complex_value` -/
def complexValue (get : Get) (cv : ComplexValue) (s : Session) : Session × Built :=
  match cv with
  | .text value => (s, ⟨value.length, value⟩)
  | .script flushes codes => build scriptCopyVar get codes (flushVariables s flushes)

/-- The line of `ngx_stream_log_handler`: the operations of a format, all with the same escapes. Those of constant bytes
are `copy`. -/
def logLine (p : Printer) (get : Get) (flushes : List ℕ) (ops : List Code) (s : Session) : Session × Built :=
  build p get ops (flushVariables s flushes)

/-! ### Evaluating a variable -/

/-- A named capture, by its number and its variable. -/
def setNamed (groups : List (List UInt8)) (s : Session) (v : ℕ × ℕ) : Session :=
  s.set v.2 { s.vars v.2 with data := groups.getD v.1 [], valid := true, noCacheable := false, notFound := false }

/-- `ngx_stream_regex_exec` behind a match. -/
def setCaptures (re : Regex) (groups : List (List UInt8)) (s : Session) : Session :=
  { re.named.foldl (setNamed groups) s with groups := groups }

/-- The loop over the regular expressions of a map. -/
def regexFind : List (Regex × MapValue) → List UInt8 → Session → Session × Option MapValue
  | [], _, s => (s, none)
  | (re, value) :: regex, subject, s =>
    match re.exec subject with
    | .matched groups => (setCaptures re groups s, some value)
    | .declined => regexFind regex subject s
    | .error => (s, none)

/-- `ngx_hash_strlow` -/
def strlow (text : List UInt8) : List UInt8 := text.map fun ch => if 65 ≤ ch ∧ ch ≤ 90 then ch ||| 32 else ch

/-- `ngx_stream_map_find` -/
def mapFind (m : Map) (subject : List UInt8) (s : Session) : Session × Option MapValue :=
  match m.hash (strlow subject) with
  | some value => (s, some value)
  | none => if subject = [] then (s, none) else regexFind m.regex subject s

/-- The value that is looked up, without the last dot of a host name. -/
def Map.subject (m : Map) (val : List UInt8) : List UInt8 :=
  if m.hostnames ∧ val.getLast? = some 46 then val.dropLast else val

/-- `ngx_stream_map_variable` -/
def mapVariable (junk : ℕ → UInt8) (get : Get) (m : Map) (i : ℕ) (s : Session) : Session :=
  let val := complexValue get m.value s
  let found := mapFind m (m.subject (val.2.text junk)) val.1
  match found.2.getD m.defaultValue with
  | .text data => found.1.set i { data, valid := true }
  | .complex cv =>
    let str := complexValue get cv found.1
    str.1.set i { str.1.vars i with
      data := str.2.text junk, valid := true, noCacheable := false, notFound := false }

/-- A call of `get_handler`, and whether it returns `NGX_OK`. -/
def Handler.call (junk : ℕ → UInt8) (get : Get) (i : ℕ) (s : Session) : Handler → Session × Bool
  | .map m => (mapVariable junk get m i s, true)
  | .notFound => (s.set i { s.vars i with notFound := true }, true)
  | .outside value =>
    match value s.evaluations with
    | .found data => ({ s with evaluations := s.evaluations + 1 }.set i { s.vars i with
        data, valid := true, noCacheable := false, notFound := false }, true)
    | .notFound => ({ s with evaluations := s.evaluations + 1 }.set i { s.vars i with notFound := true }, true)
    | .error => ({ s with evaluations := s.evaluations + 1 }, false)

/-- `ngx_stream_get_indexed_variable`, with what is left of `ngx_stream_variable_depth`. -/
def getIndexedVariable (junk : ℕ → UInt8) (conf : List Variable) : ℕ → Get
  | 0, i, s => if i < conf.length ∧ s.Cached i then (s, some (s.vars i)) else (s, none)
  | depth + 1, i, s =>
    match conf[i]? with
    | none => (s, none)
    | some v =>
      if s.Cached i then (s, some (s.vars i))
      else
        match v.handler.call junk (getIndexedVariable junk conf depth) i s with
        | (s', true) =>
          (s'.set i { s'.vars i with noCacheable := v.noCacheable || (s'.vars i).noCacheable },
            some { s'.vars i with noCacheable := v.noCacheable || (s'.vars i).noCacheable })
        | (s', false) => (s'.set i { s'.vars i with valid := false, notFound := true }, none)

/-- `ngx_stream_variable_depth` at the start. -/
def ngxStreamVariableDepth : ℕ := 100

end NginxDtls.Script
