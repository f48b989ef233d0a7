import NginxDtls.ConfToken
import NginxDtls.GeoTable
import NginxDtls.InetParse
import NginxDtls.StrTree

/-! The `geo` block of `ngx_stream_geo_module.c` in ranges mode: its directives, the files it includes, and the binary base
that is written from a large file and read instead of it the next time. Pointers of a base are kept as their offsets.
Memory is always available. What a directive does in the other mode is a parameter. -/

namespace NginxDtls.Geo

open Conf (ngxConfBuffer)

/-- A word of the configuration, which `ngx_conf_read_token` gives no longer than its buffer. -/
structure Word where
  text : List UInt8
  short : text.length ≤ ngxConfBuffer

/-- `ngx_strcmp` of a word with a constant; there is a zero behind the word. -/
def Word.Is (w : Word) (name : List UInt8) : Prop := w.text.takeWhile (· ≠ 0) = name

instance (w : Word) (name : List UInt8) : Decidable (w.Is name) := inferInstanceAs (Decidable (_ = _))

abbrev Directive : Type := List Word

/-- `ranges` -/
def rangesName : List UInt8 := [114, 97, 110, 103, 101, 115]

/-- `include` -/
def includeName : List UInt8 := [105, 110, 99, 108, 117, 100, 101]

/-- `default` -/
def defaultName : List UInt8 := [100, 101, 102, 97, 117, 108, 116]

/-- `delete` -/
def deleteName : List UInt8 := [100, 101, 108, 101, 116, 101]

/-- `ngx_stream_variable_value_t` -/
structure VariableValue where
  data : List UInt8
  valid : Bool
  noCacheable : Bool
  notFound : Bool
  deriving DecidableEq

/-- A value of `ngx_stream_geo_value`. -/
def textValue (text : List UInt8) : VariableValue := ⟨text, true, false, false⟩

/-- `ngx_align` -/
def ngxAlign (d a : ℕ) : ℕ := (d + (a - 1)) / a * a

/-- `ctx->high.low`: `NULL`, the ranges that were read, or a base with the offset of its pointers. A value is kept by its
text, which is that of one node of the tree. -/
inductive High where
  | null
  | arrays (low : Low (List UInt8))
  | base (bytes : List UInt8) (ranges : ℕ)

/-- `ngx_stream_geo_conf_ctx_t`. `tree` tells whether a tree of the other mode has been created. -/
structure GeoConf where
  high : High
  defaultValue : Option (List UInt8)
  tree : Bool
  values : StrTree
  dataSize : ℕ
  includeName : List UInt8
  includes : ℕ
  entries : ℕ
  ranges : Bool
  outsideEntries : Bool
  allowBinaryInclude : Bool

namespace GeoConf

/-- `ctx->binary_include` -/
def binaryInclude (ctx : GeoConf) : Bool :=
  match ctx.high with
  | .base _ _ => true
  | _ => false

/-- `ctx->high.low`, which is created for the first entry. -/
def low (ctx : GeoConf) : Low (List UInt8) :=
  match ctx.high with
  | .arrays low => low
  | _ => emptyTable

end GeoConf

/-- The context at the start of a block. -/
def geoStart (memory : RbTree) : GeoConf where
  high := .null
  defaultValue := none
  tree := false
  values := .init memory 1
  dataSize := 16 + 16 + 0x10000 * 8
  includeName := []
  includes := 0
  entries := 0
  ranges := false
  outsideEntries := false
  allowBinaryInclude := true

/-! ### Directives -/

/-- `ngx_stream_geo_value` -/
def ngxStreamGeoValue (ctx : GeoConf) (value : List UInt8) : Option (GeoConf × List UInt8) :=
  (ngxStrRbtreeLookup ctx.values value (ngxCrc32Long value).toNat).bind fun gvvn =>
    match gvvn with
    | some node => some (ctx, ctx.values.str node)
    | none =>
      (ctx.values.insert (ctx.values.nodes.length + 2) value).map fun values =>
        ({ ctx with values, dataSize := ctx.dataSize + ngxAlign (16 + value.length) 8 }, value)

/-- The addresses of a range, `none` when it is invalid. -/
def rangeOf (net : List UInt8) : Option (UInt32 × UInt32) :=
  match net.dropWhile (· ≠ 45) with
  | [] => none
  | _ :: rest =>
    if ngxInetAddr (net.takeWhile (· ≠ 45)) = inaddrNone ∨ ngxInetAddr rest = inaddrNone ∨
        ngxInetAddr (net.takeWhile (· ≠ 45)) > ngxInetAddr rest then none
    else some (ngxInetAddr (net.takeWhile (· ≠ 45)), ngxInetAddr rest)

/-- `ngx_stream_geo_range` -/
def ngxStreamGeoRange (junk : Range (List UInt8)) (ctx : GeoConf) (name value : Word) : Option GeoConf :=
  if name.Is defaultName then
    (ngxStreamGeoValue ctx value.text).map fun r => { r.1 with defaultValue := some r.2 }
  else if ctx.binaryInclude then none
  else
    (rangeOf (if name.Is deleteName then value.text else name.text)).bind fun net =>
      if name.Is deleteName then
        (ngxStreamGeoDeleteRange ctx.low net.1 net.2).map fun r =>
          { ctx with high := .arrays r.1, entries := ctx.entries + 1, outsideEntries := true }
      else
        (ngxStreamGeoValue ctx value.text).bind fun r =>
          (ngxStreamGeoAddRange junk ctx.low net.1 net.2 r.2).map fun low =>
            { r.1 with high := .arrays low, entries := ctx.entries + 1, outsideEntries := true }

/-- `ngx_stream_geo_cidr`, which creates the trees of its mode. -/
structure CidrMode where
  run : GeoConf → Word → Word → Option GeoConf
  tree : ∀ ctx name value ctx', run ctx name value = some ctx' → ctx'.tree = true ∧ ctx'.ranges = ctx.ranges

section Conf

variable (junk : Range (List UInt8)) (cidr : CidrMode)

/-- `ngx_stream_geo`, with what an `include` does. -/
def ngxStreamGeo (incl : GeoConf → List UInt8 → Option GeoConf) (ctx : GeoConf) (args : Directive) : Option GeoConf :=
  match args with
  | [word] =>
    if word.Is rangesName then (if ctx.tree then none else some { ctx with ranges := true })
    else none
  | [name, value] =>
    if name.Is includeName then incl ctx value.text
    else if ctx.ranges then ngxStreamGeoRange junk ctx name value
    else cidr.run ctx name value
  | _ => none

/-! ### The bytes of a base -/

/-- A number in as many bytes, the lowest first. -/
def le : ℕ → ℕ → List UInt8
  | 0, _ => []
  | n + 1, v => UInt8.ofNat (v % 256) :: le n (v / 256)

def ofLe : List UInt8 → ℕ
  | [] => 0
  | b :: bytes => b.toNat + 256 * ofLe bytes

/-- What is read at a position. -/
def bytesAt (base : List UInt8) (pos n : ℕ) : List UInt8 := (base.drop pos).take n

def leAt (base : List UInt8) (pos n : ℕ) : ℕ := ofLe (bytesAt base pos n)

/-- `ngx_stream_geo_header`: `GEORNG`, the version, the size of a pointer, the endianness and the CRC-32. -/
def ngxStreamGeoHeader : List UInt8 := [71, 69, 79, 82, 78, 71, 0, 8] ++ le 4 0x12345678 ++ le 4 0

/-- What the memory of a new value holds in `escape` and behind the bits. -/
abbrev ValueMemory : Type := List UInt8 → Bool × UInt32

/-- The bytes of a value in the base, at `p`. -/
def valueBytes (memory : ValueMemory) (p : ℕ) (text : List UInt8) : List UInt8 :=
  le 4 (text.length % 2 ^ 28 + 2 ^ 28 + if (memory text).1 then 2 ^ 31 else 0) ++ le 4 (memory text).2.toNat ++
    le 8 (p + 16) ++ text ++ List.replicate (ngxAlign (16 + text.length) 8 - (16 + text.length)) 0

/-! ### Reading a base -/

/-- The loop over the values, with the CRC-32. -/
def scanValues (base : List UInt8) : ℕ → ℕ → UInt32 → Option (ℕ × UInt32)
  | 0, _, _ => none
  | fuel + 1, pos, crc =>
    if leAt base (pos + 8) 8 = 0 then some (pos + 16, ngxCrc32Update crc (bytesAt base pos 16))
    else
      scanValues base fuel (pos + ngxAlign (16 + leAt base pos 4 % 2 ^ 28) 8)
        (ngxCrc32Update crc (bytesAt base pos (ngxAlign (16 + leAt base pos 4 % 2 ^ 28) 8)))

/-- The loop over the pointers. -/
def scanTable (base : List UInt8) (pos : ℕ) (crc : UInt32) : UInt32 :=
  (List.range 0x10000).foldl (fun crc i => ngxCrc32Update crc (bytesAt base (pos + 8 * i) 8)) crc

/-- The loop over the ranges of one bucket. -/
def scanList (base : List UInt8) : ℕ → ℕ → UInt32 → Option (ℕ × UInt32)
  | 0, _, _ => none
  | fuel + 1, pos, crc =>
    if leAt base pos 8 = 0 then some (pos + 8, ngxCrc32Update crc (bytesAt base pos 8))
    else scanList base fuel (pos + 16) (ngxCrc32Update crc (bytesAt base pos 16))

/-- The loop over the buckets. -/
def scanLists (base : List UInt8) : ℕ → ℕ → UInt32 → Option UInt32
  | 0, _, _ => none
  | fuel + 1, pos, crc =>
    if pos < base.length then
      (scanList base (base.length + 1) pos crc).bind fun r => scanLists base fuel r.1 r.2
    else some crc

/-- The offset of the pointers, and the CRC-32. -/
def scanBase (base : List UInt8) : Option (ℕ × UInt32) :=
  (scanValues base (base.length + 1) 16 ngxCrc32Init).bind fun values =>
    (scanLists base (base.length + 1) (values.1 + 0x10000 * 8) (scanTable base values.1 values.2)).map fun crc =>
      (values.1, ngxCrc32Final crc)

/-- The files of a configuration, by their names: the directives of a text file with its time, and a base with its
time. -/
structure Files where
  text : List UInt8 → Option (List Directive × ℕ)
  base : List UInt8 → Option (List UInt8 × ℕ)

inductive Included where
  | ok (ctx : GeoConf)
  | declined
  | error

/-- `ngx_stream_geo_include_binary_base`; the name is that of the text file. -/
def ngxStreamGeoIncludeBinaryBase (files : Files) (ctx : GeoConf) (name : List UInt8) : Included :=
  match files.base name with
  | none => .declined
  | some (base, mtime) =>
    if ctx.outsideEntries then .error
    else if ctx.binaryInclude then .error
    else
      match files.text name with
      | none => .declined
      | some (_, time) =>
        if mtime < time then .declined
        else if base.length < 16 ∨ base.take 12 ≠ ngxStreamGeoHeader.take 12 then .declined
        else
          match scanBase base with
          | none => .declined
          | some (ranges, crc) =>
            if crc.toNat ≠ leAt base 12 4 then .declined
            else .ok { ctx with high := .base base ranges, includeName := name }

/-- `ngx_stream_geo_include`, with how deep files may include files. -/
def ngxStreamGeoInclude (files : Files) : ℕ → GeoConf → List UInt8 → Option GeoConf
  | 0, _, _ => none
  | depth + 1, ctx, name =>
    match if ctx.ranges then ngxStreamGeoIncludeBinaryBase files ctx name else .declined with
    | .ok ctx => some ctx
    | .error => none
    | .declined =>
      (files.text name).bind fun file =>
        (file.1.foldlM (ngxStreamGeo junk cidr (ngxStreamGeoInclude files depth))
          { ctx with
            includeName := name
            allowBinaryInclude := ctx.allowBinaryInclude && !ctx.outsideEntries }).map fun ctx =>
          { ctx with includes := ctx.includes + 1, outsideEntries := false }

/-! ### Writing a base -/

/-- `ngx_stream_geo_copy_values`, with all that stands before `p` and the offsets of the nodes. -/
def ngxStreamGeoCopyValues (memory : ValueMemory) (values : StrTree) :
    ℕ → List UInt8 × (ℕ → ℕ) → ℕ → Option (List UInt8 × (ℕ → ℕ))
  | 0, _, _ => none
  | fuel + 1, (file, offset), node =>
    if node = values.rbtree.sentinel then some (file, offset)
    else
      (ngxStreamGeoCopyValues memory values fuel
        (file ++ valueBytes memory file.length (values.str node), Function.update offset node file.length)
        (values.rbtree.child .left node)).bind fun r =>
          ngxStreamGeoCopyValues memory values fuel r (values.rbtree.child .right node)

/-- The bytes of a range. -/
def writeRange (values : StrTree) (offset : ℕ → ℕ) (r : Range (List UInt8)) : Option (List UInt8) :=
  (ngxStrRbtreeLookup values r.value (ngxCrc32Long r.value).toNat).bind fun gvvn =>
    gvvn.map fun node => le 8 (offset node) ++ le 2 r.start ++ le 2 r.stop ++ le 4 0

/-- The ranges of a bucket, and the mark at their end. -/
def writeList (values : StrTree) (offset : ℕ → ℕ) : List (Range (List UInt8)) → Option (List UInt8)
  | [] => some (le 8 0)
  | r :: ranges =>
    (writeRange values offset r).bind fun bytes => (writeList values offset ranges).map (bytes ++ ·)

/-- The ranges of the buckets from `p` on, with their offsets. -/
def writeLists (values : StrTree) (offset : ℕ → ℕ) (low : Low (List UInt8)) :
    ℕ → List ℕ → Option (List ℕ × List UInt8)
  | _, [] => some ([], [])
  | p, i :: is =>
    match low i with
    | none => (writeLists values offset low p is).map fun r => (0 :: r.1, r.2)
    | some ranges =>
      (writeList values offset ranges).bind fun bytes =>
        (writeLists values offset low (p + bytes.length) is).map fun r => (p :: r.1, bytes ++ r.2)

/-- `ngx_stream_geo_create_binary_base`: the file, and where the writing has ended. A file has less than `2 ^ 63` bytes, and
`none` is one that has not been written. -/
def ngxStreamGeoCreateBinaryBase (memory : ValueMemory) (values : StrTree) (low : Low (List UInt8)) (dataSize : ℕ) :
    Option (List UInt8 × ℕ) :=
  if dataSize < 2 ^ 63 then
    (ngxStreamGeoCopyValues memory values (values.nodes.length + 2) (ngxStreamGeoHeader, fun _ => 0)
      values.rbtree.root).bind fun copied =>
      (writeLists values copied.2 low (copied.1.length + 16 + 0x10000 * 8) (List.range 0x10000)).bind fun lists =>
        let file := copied.1 ++ List.replicate 16 0 ++ lists.1.flatMap (le 8) ++ lists.2
        -- the mapping is of zeros, and a write behind its end is a fault
        if file.length ≤ dataSize then
          let fm := file ++ List.replicate (dataSize - file.length) 0
          some (fm.take 12 ++ le 4 (ngxCrc32Long (fm.drop 16)).toNat ++ fm.drop 16, file.length)
        else none
  else none

/-! ### The block -/

/-- What a bucket adds to the size. -/
def listSize (low : Low (List UInt8)) (i : ℕ) : ℕ :=
  match low i with
  | none => 0
  | some ranges => ranges.length * 16 + 8

/-- A base that has been written: the name of the text file, the base, where the writing has ended, and
`ctx.data_size`. -/
structure WrittenBase where
  name : List UInt8
  bytes : List UInt8
  written : ℕ
  dataSize : ℕ

/-- What a block makes: the trees of the other mode, or ranges. -/
inductive GeoBlock where
  | trees
  | ranges (high : High) (defaultValue : VariableValue) (base : Option WrittenBase)

/-- `ngx_stream_variable_null_value` -/
def ngxStreamVariableNullValue : VariableValue := ⟨[], true, false, false⟩

/-- `ngx_stream_geo_block` behind the parsing. -/
def finishBlock (memory : ValueMemory) (ctx : GeoConf) : GeoBlock :=
  if ctx.ranges then
    let defaultValue := (ctx.defaultValue.map textValue).getD ngxStreamVariableNullValue
    match ctx.high with
    | .arrays low =>
      let dataSize := ctx.dataSize + ((List.range 0x10000).map (listSize (finish low))).sum
      .ranges (.arrays (finish low)) defaultValue <|
        if ctx.allowBinaryInclude && !ctx.outsideEntries && decide (ctx.entries > 100000) && ctx.includes == 1 then
          (ngxStreamGeoCreateBinaryBase memory ctx.values (finish low) dataSize).map fun r =>
            ⟨ctx.includeName, r.1, r.2, dataSize⟩
        else none
    | high => .ranges high defaultValue none
  else .trees

/-- `ngx_stream_geo_block` -/
def ngxStreamGeoBlock (memory : ValueMemory) (tree : RbTree) (files : Files) (depth : ℕ) (body : List Directive) :
    Option GeoBlock :=
  (body.foldlM (ngxStreamGeo junk cidr (ngxStreamGeoInclude junk cidr files depth)) (geoStart tree)).map
    (finishBlock memory)

end Conf

/-! ### The variable of a base -/

/-- The value at an offset. -/
def baseValue (base : List UInt8) (pos : ℕ) : VariableValue where
  data := bytesAt base (leAt base (pos + 8) 8) (leAt base pos 4 % 2 ^ 28)
  valid := (leAt base pos 4).testBit 28
  noCacheable := (leAt base pos 4).testBit 29
  notFound := (leAt base pos 4).testBit 30

/-- The ranges at an offset, up to the mark behind them. -/
def baseList (base : List UInt8) : ℕ → ℕ → List (Range VariableValue)
  | 0, _ => []
  | fuel + 1, pos =>
    ⟨baseValue base (leAt base pos 8), leAt base (pos + 8) 2, leAt base (pos + 10) 2⟩ ::
      if leAt base (pos + 16) 8 = 0 then [] else baseList base fuel (pos + 16)

/-- What the pointers lead to. -/
def High.table : High → Low VariableValue
  | .null => emptyTable
  | .arrays low => fun i => (low i).map (List.map fun r => ⟨textValue r.value, r.start, r.stop⟩)
  | .base bytes ranges => fun i =>
    if leAt bytes (ranges + 8 * i) 8 = 0 then none
    else some (baseList bytes (bytes.length + 1) (leAt bytes (ranges + 8 * i) 8))

/-- The variable of a block in ranges mode. -/
def geoVariable (high : High) (defaultValue : VariableValue) (addr : GeoAddr) : VariableValue :=
  ngxStreamGeoRangeVariable defaultValue high.table addr

end NginxDtls.Geo
