import NginxDtls.Core
import NginxDtls.Run

/-! The address ranges of `ngx_stream_geo_module.c`. They are kept in 65536 buckets, one for each value of the upper half
of an address; a bucket is an array of ranges of the lower half. Memory is not the subject: every array grows. -/

namespace NginxDtls.Geo

/-- `ngx_stream_geo_range_t`, with the value it points to. -/
structure Range (V : Type) where
  value : V
  start : ℕ
  stop : ℕ

section Arrays

variable {V : Type}

/-- `ngx_array_push`: the new element is whatever the memory holds. -/
def push (junk : Range V) (elts : List (Range V)) : List (Range V) := elts ++ [junk]

/-- `ngx_memmove` of `n` elements inside an array. -/
def memmove (dst src n : ℕ) (elts : List (Range V)) : List (Range V) :=
  elts.take dst ++ ((elts.drop src).take n ++ elts.drop (dst + n))

/-- The loop of `ngx_stream_geo_add_range` over a bucket, downwards from `i`; `none` is the error. -/
def addToBucket (junk : Range V) (value : V) (s e : ℕ) (range : List (Range V)) : ℕ → Option (List (Range V))
  | 0 =>
    let a := push junk range
    some ((memmove 1 0 (a.length - 1) a).set 0 ⟨value, s, e⟩)
  | i + 1 =>
    match range[i]? with
    | none => none
    | some r =>
      if e < r.start then addToBucket junk value s e range i
      else if s > r.stop then
        let a := push junk range
        some ((memmove (i + 2) (i + 1) (a.length - 2 - i) a).set (i + 1) ⟨value, s, e⟩)
      else if s = r.start ∧ e = r.stop then some (range.set i { r with value })
      else if s > r.start ∧ e < r.stop then
        let a := push junk (push junk range)
        some ((((memmove (i + 3) (i + 1) (a.length - 3 - i) a).set (i + 2) ⟨r.value, e + 1, r.stop⟩).set (i + 1)
          ⟨value, s, e⟩).set i { r with stop := s - 1 })
      else if s = r.start ∧ e < r.stop then
        let a := push junk range
        some (((memmove (i + 1) i (a.length - 1 - i) a).set (i + 1) { r with start := e + 1 }).set i ⟨value, s, e⟩)
      else if s > r.start ∧ e = r.stop then
        let a := push junk range
        some (((memmove (i + 2) (i + 1) (a.length - 2 - i) a).set (i + 1) ⟨value, s, e⟩).set i
          { r with stop := s - 1 })
      else none

/-- The loop of `ngx_stream_geo_delete_range` over a bucket, with whether it warns. -/
def deleteFromBucket (s e : ℕ) (range : List (Range V)) : List (Range V) × Bool :=
  match range.findIdx? fun r => s = r.start ∧ e = r.stop with
  | none => (range, true)
  | some i => ((memmove i (i + 1) (range.length - 1 - i) range).dropLast, false)

end Arrays

/-! ### The loop over the buckets -/

/-- What one round of the loop works on: the bucket, and the part of the range that lies in it. -/
structure Clip where
  h : ℕ
  s : ℕ
  e : ℕ

def clipAt (start stop n : UInt32) : Clip where
  h := (n >>> 16).toNat
  s := if n = start then (n &&& 0xffff).toNat else 0
  e := if n ||| 0xffff > stop then (stop &&& 0xffff).toNat else 0xffff

/-- The rounds of `for (n = start; n <= end; n = (n + 0x10000) & 0xffff0000)`; `none` is a loop that has not ended. -/
def clips (start stop : UInt32) : ℕ → UInt32 → Option (List Clip)
  | 0, _ => none
  | fuel + 1, n =>
    if n ≤ stop then
      if (clipAt start stop n).h = 0xffff then some [clipAt start stop n]
      else (clips start stop fuel ((n + 0x10000) &&& 0xffff0000)).map (clipAt start stop n :: ·)
    else some []

/-- `ctx->high.low` while the configuration is read. -/
abbrev Low (V : Type) : Type := ℕ → Option (List (Range V))

section Table

variable {V : Type}

/-- One round of the addition. -/
def addClip (junk : Range V) (value : V) (low : Low V) (clip : Clip) : Option (Low V) :=
  let a := (low clip.h).getD []
  (addToBucket junk value clip.s clip.e a a.length).map fun a => Function.update low clip.h (some a)

/-- `ngx_stream_geo_add_range` -/
def ngxStreamGeoAddRange (junk : Range V) (low : Low V) (start stop : UInt32) (value : V) : Option (Low V) :=
  (clips start stop (2 ^ 16 + 1) start).bind fun rounds => rounds.foldlM (addClip junk value) low

/-- One round of the deletion. -/
def deleteClip (s : Low V × Bool) (clip : Clip) : Low V × Bool :=
  match s.1 clip.h with
  | none => (s.1, true)
  | some [] => (s.1, true)
  | some (r :: a) =>
    (Function.update s.1 clip.h (some (deleteFromBucket clip.s clip.e (r :: a)).1),
      s.2 || (deleteFromBucket clip.s clip.e (r :: a)).2)

/-- `ngx_stream_geo_delete_range`, with what it returns. -/
def ngxStreamGeoDeleteRange (low : Low V) (start stop : UInt32) : Option (Low V × Bool) :=
  (clips start stop (2 ^ 16 + 1) start).map fun rounds => rounds.foldl deleteClip (low, false)

/-! ### Lookups -/

/-- What `ngx_stream_geo_block` makes of a bucket: no bucket is empty. -/
def finish (low : Low V) : Low V := fun h =>
  match low h with
  | none => none
  | some [] => none
  | some (r :: a) => some (r :: a)

/-- The loop of the variable, up to the end mark behind the ranges. -/
def lookupBucket (n : ℕ) : List (Range V) → Option V
  | [] => none
  | r :: a => if r.start ≤ n ∧ n ≤ r.stop then some r.value else lookupBucket n a

/-- The address that a variable is evaluated for. -/
inductive GeoAddr where
  | inet (addr : UInt32)
  | inet6 (bytes : ℕ → UInt8)
  | unix
  | failed

/-- `IN6_IS_ADDR_V4MAPPED` -/
def isV4Mapped (bytes : ℕ → UInt8) : Bool :=
  (List.range 10).all (fun i => bytes i = 0) && (bytes 10 = 0xff && bytes 11 = 0xff)

def GeoAddr.inaddr : GeoAddr → UInt32
  | inet addr => addr
  | inet6 bytes =>
    if isV4Mapped bytes then
      (bytes 12).toUInt32 <<< 24 + (bytes 13).toUInt32 <<< 16 + (bytes 14).toUInt32 <<< 8 + (bytes 15).toUInt32
    else inaddrNone
  | unix => inaddrNone
  | failed => inaddrNone

/-- `ngx_stream_geo_range_variable` of a table that has been finished. -/
def ngxStreamGeoRangeVariable (defaultValue : V) (low : Low V) (addr : GeoAddr) : V :=
  match low (addr.inaddr >>> 16).toNat with
  | none => defaultValue
  | some a => (lookupBucket (addr.inaddr &&& 0xffff).toNat a).getD defaultValue

end Table

end NginxDtls.Geo
