import NginxDtls.Checked
import NginxDtls.Core
import NginxDtls.GeoBase

/-! The loading of a binary base from a file that may be damaged: the walk over the bytes, which relocates the pointers in
place. An access outside of the bytes that were read is undefined. -/

namespace NginxDtls.Geo

open Checked

/-! ### The walk -/

/-- The base in memory, the CRC-32 so far, and where pointers have been relocated. -/
structure Walk where
  mem : List UInt8
  crc : UInt32
  relocated : List ℕ

/-- The bytes are written over what stands at a position. -/
def putAt (mem : List UInt8) (pos : ℕ) (bytes : List UInt8) : List UInt8 :=
  mem.take pos ++ (bytes ++ mem.drop (pos + bytes.length))

/-- `ngx_crc32_update` over bytes of the base. -/
def Walk.sum (w : Walk) (pos n : ℕ) : Walk := { w with crc := ngxCrc32Update w.crc (bytesAt w.mem pos n) }

/-- The address of the base is added to the pointer at a position. -/
def Walk.relocate (addr : UInt64) (w : Walk) (pos : ℕ) : Walk :=
  { w with
    mem := putAt w.mem pos (le 8 (UInt64.ofNat (leAt w.mem pos 8) + addr).toNat)
    relocated := w.relocated ++ [pos] }

theorem putAt_length {mem bytes : List UInt8} {pos : ℕ} (h : pos + bytes.length ≤ mem.length) :
    (putAt mem pos bytes).length = mem.length := by
  rw [putAt, List.length_append, List.length_append, List.length_take, List.length_drop]
  omega

theorem Walk.relocate_length (addr : UInt64) {w : Walk} {pos : ℕ} (h : pos + 8 ≤ w.mem.length) :
    (w.relocate addr pos).mem.length = w.mem.length := by
  refine putAt_length ?_
  rwa [le_length]

theorem ngxAlign_pos (n : ℕ) : 16 ≤ ngxAlign (16 + n) 8 := (Nat.le_add_right 16 n).trans (ngxAlign_le (16 + n))

/-- The loop over the values; `none` is an access outside of the base. -/
def loadValues (addr : UInt64) (pos : ℕ) (w : Walk) : Option (ℕ × Walk) :=
  if _h : pos + 16 ≤ w.mem.length then
    if leAt w.mem (pos + 8) 8 = 0 then some (pos + 16, w.sum pos 16)
    else
      let len := ngxAlign (16 + leAt w.mem pos 4 % 2 ^ 28) 8
      if pos + len ≤ w.mem.length then loadValues addr (pos + len) ((w.sum pos len).relocate addr (pos + 8)) else none
  else none
termination_by w.mem.length - pos
decreasing_by
  have hlen := ngxAlign_pos (leAt w.mem pos 4 % 2 ^ 28)
  rw [Walk.relocate_length addr (show pos + 8 + 8 ≤ (w.sum pos len).mem.length from _h)]
  change w.mem.length - (pos + len) < w.mem.length - pos
  omega

/-- The loop over the pointers of the table, with how many are left. -/
def loadTable (addr : UInt64) : ℕ → ℕ → Walk → Option (ℕ × Walk)
  | 0, pos, w => some (pos, w)
  | n + 1, pos, w =>
    if pos + 8 ≤ w.mem.length then
      loadTable addr n (pos + 8) (if leAt w.mem pos 8 ≠ 0 then (w.sum pos 8).relocate addr pos else w.sum pos 8)
    else none

/-- The loops over the ranges, at the test of the inner one. -/
def loadRanges (addr : UInt64) (pos : ℕ) (w : Walk) : Option Walk :=
  if _h : pos + 8 ≤ w.mem.length then
    if leAt w.mem pos 8 ≠ 0 then
      if pos + 16 ≤ w.mem.length then loadRanges addr (pos + 16) ((w.sum pos 16).relocate addr pos) else none
    else if pos + 8 < w.mem.length then loadRanges addr (pos + 8) (w.sum pos 8)
    else some (w.sum pos 8)
  else none
termination_by w.mem.length - pos
decreasing_by
  · rw [Walk.relocate_length addr (show pos + 8 ≤ (w.sum pos 16).mem.length from _h)]
    change w.mem.length - (pos + 16) < w.mem.length - pos
    omega
  · change w.mem.length - (pos + 8) < w.mem.length - pos
    omega

/-- `while ((u_char *) range < base + size)` -/
def loadLists (addr : UInt64) (pos : ℕ) (w : Walk) : Option Walk :=
  if pos < w.mem.length then loadRanges addr pos w else some w

/-- The position of the table, and what the walk leaves. -/
def loadWalk (addr : UInt64) (base : List UInt8) : Option (ℕ × Walk) :=
  (loadValues addr 16 ⟨base, ngxCrc32Init, []⟩).bind fun values =>
    (loadTable addr 0x10000 values.1 values.2).bind fun table =>
      (loadLists addr table.1 table.2).map fun w => (values.1, w)

/-- The loading part of `ngx_stream_geo_include_binary_base`, for a base read to an address: the position of the table and
the memory if it returns `NGX_OK`. -/
def ngxStreamGeoLoad (addr : UInt64) (base : List UInt8) : Checked NgxInt (ℕ × Walk) :=
  if base.length < 16 ∨ base.take 12 ≠ ngxStreamGeoHeader.take 12 then throw (.returned .declined)
  else
    match loadWalk addr base with
    | none => throw .undefined
    | some (ranges, w) =>
      if (ngxCrc32Final w.crc).toNat ≠ leAt w.mem 12 4 then throw (.returned .declined) else pure (ranges, w)

/-! ### What is asked of the loading -/

/-- The first twelve bytes are those of the header. -/
def HeaderMatches (base : List UInt8) : Prop := base.take 12 = ngxStreamGeoHeader.take 12

/-- The sum in the header is that of what stands behind it. -/
def CrcMatches (base : List UInt8) : Prop :=
  (ngxCrc32Final (ngxCrc32Update ngxCrc32Init (base.drop 16))).toNat = leAt base 12 4

/-- How far from the base the pointer at a position leads. -/
def pointedTo (addr : UInt64) (mem : List UInt8) (pos : ℕ) : ℕ := (UInt64.ofNat (leAt mem pos 8) - addr).toNat

/-- No access is outside of the base, and it is accepted only if the header and the CRC-32 match and every pointer leads
into it. -/
def LoadsSafely (addr : UInt64) (base : List UInt8) : Prop :=
  Safe (ngxStreamGeoLoad addr base) fun r =>
    HeaderMatches base ∧ CrcMatches base ∧ ∀ pos ∈ r.2.relocated, pointedTo addr r.2.mem pos < base.length

/-! ### The layout of a base -/

/-- A value with its text: its length is told by its first bytes, and its pointer is not null. -/
def ValueRecord (v : List UInt8) : Prop :=
  v.length = ngxAlign (16 + leAt v 0 4 % 2 ^ 28) 8 ∧ leAt v 8 8 ≠ 0

/-- A range, with a pointer to its value. -/
def RangeRecord (r : List UInt8) : Prop := r.length = 16 ∧ leAt r 0 8 ≠ 0

/-- The ranges of a bucket with the mark behind them. -/
def bucketText (ranges : List (List UInt8)) : List UInt8 := ranges.flatten ++ le 8 0

/-- What stands behind the header of a base: values up to one without a pointer, the table, and ranges with a mark behind
those of each bucket. -/
structure BaseBody (body : List UInt8) where
  values : List (List UInt8)
  last : List UInt8
  table : List (List UInt8)
  lists : List (List (List UInt8))
  body_eq : body = values.flatten ++ (last ++ (table.flatten ++ lists.flatMap bucketText))
  values_record : ∀ v ∈ values, ValueRecord v
  last_record : last.length = 16 ∧ leAt last 8 8 = 0
  table_length : table.length = 0x10000
  table_entry : ∀ e ∈ table, e.length = 8
  lists_record : ∀ ranges ∈ lists, ∀ r ∈ ranges, RangeRecord r

/-- The pointers of a base, as they are stored. -/
def BaseBody.pointers {body : List UInt8} (l : BaseBody body) : List ℕ :=
  l.values.map (leAt · 8 8) ++ ((l.table.map (leAt · 0 8)).filter (· ≠ 0) ++ l.lists.flatten.map (leAt · 0 8))

end NginxDtls.Geo
