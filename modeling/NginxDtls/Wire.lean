import NginxDtls.Memory

/-! Big-endian integers in memory: the getters and setters of `ngx_stream_probe.c`. A getter returns
the integer its bytes spell and touches no others; a setter lays down the image of its value, so that
the getter at the same index gives the value back. -/

namespace NginxDtls.Memory

theorem or_shiftLeft_eq_add {a b k : Nat} (h : a < 2 ^ k) : a ||| b <<< k = a + b * 2 ^ k := by
  rw [Nat.or_comm, ← Nat.shiftLeft_add_eq_or_of_lt h, Nat.shiftLeft_eq, Nat.add_comm]

/-! ### Joining and splitting words -/

def join16 (a b : UInt8) : UInt16 := b.toUInt16 ||| (a.toUInt16 <<< 8)

def join24 (a b c : UInt8) : UInt32 :=
  c.toUInt32 ||| (b.toUInt32 <<< 8) ||| (a.toUInt32 <<< 16)

def join32 (a b c d : UInt8) : UInt32 :=
  d.toUInt32 ||| (c.toUInt32 <<< 8) ||| (b.toUInt32 <<< 16) ||| (a.toUInt32 <<< 24)

def join64 (a b : UInt32) : UInt64 := (a.toUInt64 <<< 32) ||| b.toUInt64

def split16 (v : UInt16) : List UInt8 := [(v >>> 8).toUInt8, v.toUInt8]

def split24 (v : UInt32) : List UInt8 := [(v >>> 16).toUInt8, (v >>> 8).toUInt8, v.toUInt8]

def split32 (v : UInt32) : List UInt8 :=
  [(v >>> 24).toUInt8, (v >>> 16).toUInt8, (v >>> 8).toUInt8, v.toUInt8]

def split64 (v : UInt64) : List UInt8 :=
  [(v >>> 56).toUInt8, (v >>> 48).toUInt8, (v >>> 40).toUInt8, (v >>> 32).toUInt8,
    (v >>> 24).toUInt8, (v >>> 16).toUInt8, (v >>> 8).toUInt8, v.toUInt8]

theorem join16_toNat (a b : UInt8) : (join16 a b).toNat = 256 * a.toNat + b.toNat := by
  have ha := a.toNat_lt
  have hb := b.toNat_lt
  simp only [join16, UInt16.toNat_or, UInt16.toNat_shiftLeft, UInt8.toNat_toUInt16]
  rw [show UInt16.toNat 8 % 16 = 8 by rfl, Nat.mod_eq_of_lt (by rw [Nat.shiftLeft_eq]; omega),
    or_shiftLeft_eq_add (by omega)]
  omega

theorem join32_toNat (a b c d : UInt8) : (join32 a b c d).toNat =
    16777216 * a.toNat + 65536 * b.toNat + 256 * c.toNat + d.toNat := by
  have ha := a.toNat_lt
  have hb := b.toNat_lt
  have hc := c.toNat_lt
  have hd := d.toNat_lt
  simp only [join32, UInt32.toNat_or, UInt32.toNat_shiftLeft, UInt8.toNat_toUInt32]
  rw [show UInt32.toNat 8 % 32 = 8 by rfl, show UInt32.toNat 16 % 32 = 16 by rfl,
    show UInt32.toNat 24 % 32 = 24 by rfl]
  rw [Nat.mod_eq_of_lt (by rw [Nat.shiftLeft_eq]; omega), or_shiftLeft_eq_add (by omega),
    Nat.mod_eq_of_lt (by rw [Nat.shiftLeft_eq]; omega), or_shiftLeft_eq_add (by omega),
    Nat.mod_eq_of_lt (by rw [Nat.shiftLeft_eq]; omega), or_shiftLeft_eq_add (by omega)]
  omega

theorem join64_toNat (a b : UInt32) : (join64 a b).toNat = 4294967296 * a.toNat + b.toNat := by
  have ha := a.toNat_lt
  have hb := b.toNat_lt
  simp only [join64, UInt64.toNat_or, UInt64.toNat_shiftLeft, UInt32.toNat_toUInt64]
  rw [show UInt64.toNat 32 % 64 = 32 by rfl, Nat.mod_eq_of_lt (by rw [Nat.shiftLeft_eq]; omega),
    Nat.or_comm, or_shiftLeft_eq_add (by omega)]
  omega

theorem join16_split (v : UInt16) : join16 (v >>> 8).toUInt8 v.toUInt8 = v := by
  have hv := v.toNat_lt
  apply UInt16.toNat_inj.mp
  rw [join16_toNat]
  simp [Nat.shiftRight_eq_div_pow]
  omega

theorem join32_split (v : UInt32) :
    join32 (v >>> 24).toUInt8 (v >>> 16).toUInt8 (v >>> 8).toUInt8 v.toUInt8 = v := by
  have hv := v.toNat_lt
  apply UInt32.toNat_inj.mp
  rw [join32_toNat]
  simp [Nat.shiftRight_eq_div_pow]
  omega

theorem join64_split (v : UInt64) :
    join64 (join32 (v >>> 56).toUInt8 (v >>> 48).toUInt8 (v >>> 40).toUInt8 (v >>> 32).toUInt8)
      (join32 (v >>> 24).toUInt8 (v >>> 16).toUInt8 (v >>> 8).toUInt8 v.toUInt8) = v := by
  have hv := v.toNat_lt
  apply UInt64.toNat_inj.mp
  rw [join64_toNat, join32_toNat, join32_toNat]
  simp [Nat.shiftRight_eq_div_pow]
  omega

/-! ### Getters and setters -/

variable {O : Type}

def ngxGet1Byte (o : O) (i : Nat) : Mem O UInt8 := readByte o i

def ngxGet2Bytes (o : O) (i : Nat) : Mem O UInt16 := do
  let b ← readByte o (i + 1)
  let a ← readByte o i
  pure (join16 a b)

def ngxGet3Bytes (o : O) (i : Nat) : Mem O UInt32 := do
  let c ← readByte o (i + 2)
  let b ← readByte o (i + 1)
  let a ← readByte o i
  pure (join24 a b c)

def ngxGet4Bytes (o : O) (i : Nat) : Mem O UInt32 := do
  let d ← readByte o (i + 3)
  let c ← readByte o (i + 2)
  let b ← readByte o (i + 1)
  let a ← readByte o i
  pure (join32 a b c d)

def ngxGet8Bytes (o : O) (i : Nat) : Mem O UInt64 := do
  let a ← ngxGet4Bytes o i
  let b ← ngxGet4Bytes o (i + 4)
  pure (join64 a b)

variable [DecidableEq O]

/-- The bytes of a list stored at consecutive indices, the last byte first, as the setters do. -/
def storeBack (o : O) (i : Nat) : List UInt8 → Mem O Unit
  | [] => pure ()
  | b :: l => do
    storeBack o (i + 1) l
    writeByte o i b

def ngxSet1Byte (o : O) (i : Nat) (value : UInt8) : Mem O Unit := storeBack o i [value]

def ngxSet2Bytes (o : O) (i : Nat) (value : UInt16) : Mem O Unit := storeBack o i (split16 value)

def ngxSet3Bytes (o : O) (i : Nat) (value : UInt32) : Mem O Unit := storeBack o i (split24 value)

def ngxSet4Bytes (o : O) (i : Nat) (value : UInt32) : Mem O Unit := storeBack o i (split32 value)

def ngxSet8Bytes (o : O) (i : Nat) (value : UInt64) : Mem O Unit := storeBack o i (split64 value)

/-! ### What the getters return -/

def be16 (f : Nat → UInt8) (i : Nat) : UInt16 := join16 (f i) (f (i + 1))

def be24 (f : Nat → UInt8) (i : Nat) : UInt32 := join24 (f i) (f (i + 1)) (f (i + 2))

def be32 (f : Nat → UInt8) (i : Nat) : UInt32 :=
  join32 (f i) (f (i + 1)) (f (i + 2)) (f (i + 3))

def be64 (f : Nat → UInt8) (i : Nat) : UInt64 := join64 (be32 f i) (be32 f (i + 4))

section Getters

omit [DecidableEq O]

variable (o : O) (i : Nat) (s : Store O)

@[simp] theorem ngxGet1Byte_result : (ngxGet1Byte o i s).1 = s.bytes o i := rfl

@[simp] theorem ngxGet2Bytes_result : (ngxGet2Bytes o i s).1 = be16 (s.bytes o) i := rfl

@[simp] theorem ngxGet3Bytes_result : (ngxGet3Bytes o i s).1 = be24 (s.bytes o) i := rfl

@[simp] theorem ngxGet4Bytes_result : (ngxGet4Bytes o i s).1 = be32 (s.bytes o) i := rfl

@[simp] theorem ngxGet8Bytes_result : (ngxGet8Bytes o i s).1 = be64 (s.bytes o) i := rfl

/-- A getter returns its integer and leaves the contents as they are. -/
theorem ngxGet2Bytes_run : ∃ s', ngxGet2Bytes o i s = (be16 (s.bytes o) i, s') ∧ s'.bytes = s.bytes :=
  ⟨_, rfl, rfl⟩

@[simp] theorem ngxGet1Byte_bytes : (ngxGet1Byte o i s).2.bytes = s.bytes := rfl

@[simp] theorem ngxGet2Bytes_bytes : (ngxGet2Bytes o i s).2.bytes = s.bytes := rfl

@[simp] theorem ngxGet3Bytes_bytes : (ngxGet3Bytes o i s).2.bytes = s.bytes := rfl

@[simp] theorem ngxGet4Bytes_bytes : (ngxGet4Bytes o i s).2.bytes = s.bytes := rfl

@[simp] theorem ngxGet8Bytes_bytes : (ngxGet8Bytes o i s).2.bytes = s.bytes := rfl

variable {o i} {size : O → Nat} {vis : O → Prop} {P : (O → Nat → UInt8) → Prop} (hvis : vis o)

include hvis

theorem stays_ngxGet2Bytes (hi : i + 2 ≤ size o) : Stays size vis (ngxGet2Bytes o i) :=
  (stays_readByte hvis (by omega)).bind fun _ =>
    (stays_readByte hvis (by omega)).bind fun _ => Confined.pure fun _ _ => trivial

theorem stays_ngxGet3Bytes (hi : i + 3 ≤ size o) : Stays size vis (ngxGet3Bytes o i) :=
  (stays_readByte hvis (by omega)).bind fun _ =>
    (stays_readByte hvis (by omega)).bind fun _ =>
      (stays_readByte hvis (by omega)).bind fun _ => Confined.pure fun _ _ => trivial

theorem stays_ngxGet4Bytes (hi : i + 4 ≤ size o) : Stays size vis (ngxGet4Bytes o i) :=
  (stays_readByte hvis (by omega)).bind fun _ =>
    (stays_readByte hvis (by omega)).bind fun _ =>
      (stays_readByte hvis (by omega)).bind fun _ =>
        (stays_readByte hvis (by omega)).bind fun _ => Confined.pure fun _ _ => trivial

theorem stays_ngxGet8Bytes (hi : i + 8 ≤ size o) : Stays size vis (ngxGet8Bytes o i) :=
  (stays_ngxGet4Bytes hvis (by omega)).bind fun _ =>
    (stays_ngxGet4Bytes hvis (by omega)).bind fun _ => Confined.pure fun _ _ => trivial

end Getters

/-! ### What the setters lay down -/

theorem Emits.storeBack {s : Store O} {o : O} {i : Nat} (l : List UInt8) :
    Emits s o i (l.map some) (storeBack o i l) () := by
  induction l generalizing i with
  | nil => exact Emits.pure ()
  | cons b l ih => exact ih.writeByte_before

theorem stays_storeBack {size : O → Nat} {vis : O → Prop} {o : O} {i : Nat} {l : List UInt8}
    (hi : i + l.length ≤ size o) : Stays size vis (storeBack o i l) := by
  induction l generalizing i with
  | nil => exact Confined.pure fun _ _ => trivial
  | cons v l ih =>
      rw [List.length_cons] at hi
      exact (ih (by omega)).bind fun _ => Confined.writeByte (by omega) fun _ _ => trivial

/-! ### Reading back -/

section Holds

variable {f : Nat → UInt8} {i : Nat}

theorem Holds.be16 {v : UInt16} (h : Holds f i ((split16 v).map some)) : be16 f i = v := by
  have h0 : f i = (v >>> 8).toUInt8 := h 0 _ rfl
  rw [Memory.be16, h0, h 1 v.toUInt8 rfl, join16_split]

theorem Holds.be32 {v : UInt32} (h : Holds f i ((split32 v).map some)) : be32 f i = v := by
  have h0 : f i = (v >>> 24).toUInt8 := h 0 _ rfl
  rw [Memory.be32, h0, h 1 (v >>> 16).toUInt8 rfl, h 2 (v >>> 8).toUInt8 rfl, h 3 v.toUInt8 rfl,
    join32_split]

theorem Holds.be64 {v : UInt64} (h : Holds f i ((split64 v).map some)) : be64 f i = v := by
  have h0 : f i = (v >>> 56).toUInt8 := h 0 _ rfl
  have hhigh : Memory.be32 f i =
      join32 (v >>> 56).toUInt8 (v >>> 48).toUInt8 (v >>> 40).toUInt8 (v >>> 32).toUInt8 := by
    rw [Memory.be32, h0, h 1 (v >>> 48).toUInt8 rfl, h 2 (v >>> 40).toUInt8 rfl,
      h 3 (v >>> 32).toUInt8 rfl]
  have hlow : Memory.be32 f (i + 4) =
      join32 (v >>> 24).toUInt8 (v >>> 16).toUInt8 (v >>> 8).toUInt8 v.toUInt8 := by
    rw [Memory.be32, Nat.add_assoc, Nat.add_assoc, Nat.add_assoc, h 4 (v >>> 24).toUInt8 rfl,
      h 5 (v >>> 16).toUInt8 rfl, h 6 (v >>> 8).toUInt8 rfl, h 7 v.toUInt8 rfl]
  rw [Memory.be64, hhigh, hlow, join64_split]

end Holds

end NginxDtls.Memory
