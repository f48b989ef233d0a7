import NginxDtls.HttpTime
import NginxDtls.RingBuffer

/-! The tables of `ngx_http_v2_table.c`: the static one, and the dynamic one of a connection, whose entries are in an array
that is used in a circle, with their strings in a storage that is used in a circle too. -/

namespace NginxDtls.Hpack

open RingBuffer HttpTime

/-- `ngx_http_v2_header_t` -/
structure Header where
  name : List UInt8
  value : List UInt8
  deriving DecidableEq

/-- The length of both strings. -/
def Header.bytes (h : Header) : ℕ := h.name.length + h.value.length

def staticTable : List (String × String) := [
  (":authority", ""), (":method", "GET"), (":method", "POST"), (":path", "/"), (":path", "/index.html"),
  (":scheme", "http"), (":scheme", "https"), (":status", "200"), (":status", "204"), (":status", "206"),
  (":status", "304"), (":status", "400"), (":status", "404"), (":status", "500"), ("accept-charset", ""),
  ("accept-encoding", "gzip, deflate"), ("accept-language", ""), ("accept-ranges", ""), ("accept", ""),
  ("access-control-allow-origin", ""), ("age", ""), ("allow", ""), ("authorization", ""), ("cache-control", ""),
  ("content-disposition", ""), ("content-encoding", ""), ("content-language", ""), ("content-length", ""),
  ("content-location", ""), ("content-range", ""), ("content-type", ""), ("cookie", ""), ("date", ""),
  ("etag", ""), ("expect", ""), ("expires", ""), ("from", ""), ("host", ""), ("if-match", ""),
  ("if-modified-since", ""), ("if-none-match", ""), ("if-range", ""), ("if-unmodified-since", ""),
  ("last-modified", ""), ("link", ""), ("location", ""), ("max-forwards", ""), ("proxy-authenticate", ""),
  ("proxy-authorization", ""), ("range", ""), ("referer", ""), ("refresh", ""), ("retry-after", ""),
  ("server", ""), ("set-cookie", ""), ("strict-transport-security", ""), ("transfer-encoding", ""),
  ("user-agent", ""), ("vary", ""), ("via", ""), ("www-authenticate", "")]

/-- `ngx_http_v2_static_table` -/
def ngxHttpV2StaticTable : List Header := staticTable.map fun x => ⟨chars x.1, chars x.2⟩

def ngxHttpV2StaticTableEntries : ℕ := ngxHttpV2StaticTable.length

/-- `NGX_HTTP_V2_TABLE_SIZE` -/
def tableSize : ℕ := 4096

/-- An entry of the dynamic table, with the places of its strings in the storage. -/
structure Entry where
  nameLen : ℕ
  nameData : ℕ
  valueLen : ℕ
  valueData : ℕ

/-- `ngx_http_v2_hpack_t`. The array has the addresses of entries, which are in the pool of the connection. -/
structure Table where
  started : Bool
  entries : ℕ → ℕ
  pool : ℕ → Entry
  fresh : ℕ
  added : ℕ
  deleted : ℕ
  reused : ℕ
  allocated : ℕ
  size : ℕ
  free : ℕ
  storage : ℕ → UInt8
  pos : ℕ

/-- A string of the storage. -/
def Table.copy (t : Table) (data len : ℕ) : List UInt8 :=
  let rest := tableSize - data
  if len > rest then slice t.storage data rest ++ slice t.storage 0 (len - rest) else slice t.storage data len

/-- `h2c->state.header` behind the call, none for `NGX_ERROR`. -/
def ngxHttpV2GetIndexedHeader (t : Table) (header : Header) (index : ℕ) (nameOnly : Bool) : Option Header :=
  if index = 0 then none
  else
    let index := index - 1
    if index < ngxHttpV2StaticTableEntries then ngxHttpV2StaticTable[index]?
    else
      let index := index - ngxHttpV2StaticTableEntries
      if index < t.added - t.deleted then
        let entry := t.pool (t.entries ((t.added - index - 1) % t.allocated))
        let name := t.copy entry.nameData entry.nameLen
        if nameOnly then some { header with name } else some ⟨name, t.copy entry.valueData entry.valueLen⟩
      else none

/-- The oldest entry is given up. -/
def Table.delete (t : Table) : Table :=
  let entry := t.pool (t.entries (t.deleted % t.allocated))
  { t with deleted := t.deleted + 1, free := t.free + (32 + entry.nameLen + entry.valueLen) }

/-- The loops that delete entries while more than `free` is needed. A round adds at least 32 to `free`. -/
def deleteWhile (needed : ℤ) : ℕ → Table → Table
  | 0, t => t
  | rounds + 1, t => if needed > t.free then deleteWhile needed rounds t.delete else t

/-- With false for `NGX_DECLINED`. -/
def ngxHttpV2TableAccount (t : Table) (size : ℕ) : Table × Bool :=
  let size := size + 32
  if size ≤ t.free then ({ t with free := t.free - size }, true)
  else if size > t.size then ({ t with deleted := t.added, free := t.size }, false)
  else
    let t := deleteWhile size size t
    ({ t with free := t.free - size }, true)

/-- The array and the storage, when the first header is added. -/
def Table.start (t : Table) : Table :=
  if t.started then t
  else { t with started := true, allocated := 64, size := tableSize, free := tableSize, pos := 0 }

/-- A string is put at `pos`, before whose end `avail` bytes are left; with what is then left. -/
def Table.put (t : Table) (avail : ℕ) (src : List UInt8) : Table × ℕ :=
  if avail ≥ src.length then
    ({ t with storage := splice t.storage t.pos src, pos := t.pos + src.length }, avail - src.length)
  else
    ({ t with
        storage := splice (splice t.storage t.pos (src.take avail)) 0 (src.drop avail)
        pos := src.length - avail }, tableSize - src.length)

/-- The address of an entry for the header, an old one or a new one. -/
def Table.reuse (t : Table) : Table × ℕ :=
  if t.reused = t.deleted then ({ t with fresh := t.fresh + 1 }, t.fresh)
  else ({ t with reused := t.reused + 1 }, t.entries (t.reused % t.allocated))

/-- A full array is replaced by one with 64 places more. -/
def Table.grow (t : Table) : Table :=
  if t.allocated = t.added - t.deleted then
    let index := t.deleted % t.allocated
    { t with
      entries := fun k =>
        if k < t.allocated - index then t.entries (index + k) else t.entries (k - (t.allocated - index))
      added := t.allocated, deleted := 0, reused := 0, allocated := t.allocated + 64 }
  else t

/-- The rest of `ngx_http_v2_add_header`, when there is room in the account. -/
def Table.append (t : Table) (header : Header) : Table :=
  let reuse := t.reuse
  let entry := reuse.2
  let name := reuse.1.put (tableSize - reuse.1.pos) header.name
  let value := name.1.put name.2 header.value
  let filled := { value.1 with
    pool := Function.update value.1.pool entry
      ⟨header.name.length, reuse.1.pos, header.value.length, name.1.pos⟩ }
  let grown := filled.grow
  { grown with
    entries := Function.update grown.entries (grown.added % grown.allocated) entry
    added := grown.added + 1 }

def ngxHttpV2AddHeader (t : Table) (header : Header) : Table :=
  let account := ngxHttpV2TableAccount t.start (header.name.length + header.value.length)
  if account.2 then account.1.append header else account.1

/-- With false for `NGX_ERROR`. -/
def ngxHttpV2TableSize (t : Table) (size : ℕ) : Table × Bool :=
  if size > tableSize then (t, false)
  else
    let needed : ℤ := t.size - size
    let t := deleteWhile needed t.size t
    ({ t with size := size, free := (t.free - needed).toNat }, true)

/-- What a header block does to the table. -/
inductive Event where
  | add (header : Header)
  | size (size : ℕ)

def step (t : Table) : Event → Table
  | .add header => ngxHttpV2AddHeader t header
  | .size size => (ngxHttpV2TableSize t size).1

/-- The table of a new connection. What the array, the pool and the storage will hold at first is not known. -/
def Table.Fresh (t : Table) : Prop :=
  t.started = false ∧ t.added = 0 ∧ t.deleted = 0 ∧ t.reused = 0 ∧ t.allocated = 0 ∧ t.size = 0 ∧ t.free = 0

end NginxDtls.Hpack
