import NginxDtls.Crc32
import NginxDtls.StrTree
import NginxDtls.LimitConn

/-! The checksums of the probe code, of `ngx_crc32_long`, of `ngx_crc32_short` and of the incremental functions
are one: every table shifts the same register. -/

namespace NginxDtls.Crc32

open Crc

/-! ### The register -/

/-- The register after some bytes. -/
def register (x : BitVec 32) (p : List UInt8) : BitVec 32 :=
  p.foldl (fun x byte => crcByte 0xEDB88320#32 x byte.toBitVec) x

/-- A step that shifts one byte in shifts a string in. -/
theorem foldl_register {step : UInt32 → UInt8 → UInt32}
    (hstep : ∀ crc byte, (step crc byte).toBitVec = crcByte 0xEDB88320#32 crc.toBitVec byte.toBitVec)
    (p : List UInt8) (crc : UInt32) : (p.foldl step crc).toBitVec = register crc.toBitVec p := by
  induction p generalizing crc with
  | nil => rfl
  | cons byte p ih =>
      calc ((byte :: p).foldl step crc).toBitVec
          = register (step crc byte).toBitVec p := ih _
        _ = register (crcByte 0xEDB88320#32 crc.toBitVec byte.toBitVec) p := by rw [hstep]

theorem foldl_crc32 {step : UInt32 → UInt8 → UInt32}
    (hstep : ∀ crc byte, (step crc byte).toBitVec = crcByte 0xEDB88320#32 crc.toBitVec byte.toBitVec)
    (p : List UInt8) : p.foldl step 0xffffffff ^^^ 0xffffffff = crc32 p := by
  apply UInt32.toBitVec_inj.mp
  exact congrArg (· ^^^ 0xFFFFFFFF#32) (foldl_register hstep p _)

/-! ### Half a byte at a time -/

/-- Every word of the short table is four shifts of its index. -/
theorem ngxCrc32Table16_eq (i : BitVec 4) :
    (LimitConn.ngxCrc32Table16.getD i.toNat 0).toBitVec = (crcBit 0xEDB88320#32)^[4] (i.setWidth 32) := by
  have hall : ∀ j : Fin 16, (LimitConn.ngxCrc32Table16.getD j.val 0).toBitVec =
      (crcBit 0xEDB88320#32)^[4] ((BitVec.ofFin j : BitVec 4).setWidth 32) := by decide +kernel
  exact hall i.toFin

/-- A half byte is shifted in. -/
theorem crc32Half_eq (crc : UInt32) (half : UInt8) (hhalf : half.toNat < 16) :
    (LimitConn.crc32Half crc half).toBitVec =
      (crcBit 0xEDB88320#32)^[4] (crc.toBitVec ^^^ half.toBitVec.setWidth 32) := by
  have hindex : ((crc ^^^ half.toUInt32) &&& 0xf).toNat =
      ((crc.toBitVec ^^^ half.toBitVec.setWidth 32).setWidth 4).toNat := by
    rw [UInt32.toNat_and, BitVec.toNat_setWidth]
    exact Nat.and_two_pow_sub_one_eq_mod _ 4
  have hshift : (crc >>> 4).toBitVec = (crc.toBitVec ^^^ half.toBitVec.setWidth 32) >>> 4 := by
    apply BitVec.eq_of_getLsbD_eq
    intro i _
    have hbit : half.toBitVec.getLsbD (4 + i) = false := by
      apply Nat.testBit_lt_two_pow
      calc half.toBitVec.toNat < 2 ^ 4 := hhalf
        _ ≤ 2 ^ (4 + i) := Nat.pow_le_pow_right (by decide) (Nat.le_add_right 4 i)
    have hwide : (half.toBitVec.setWidth 32).getLsbD (4 + i) = false := by
      rw [BitVec.getLsbD_setWidth, hbit, Bool.and_false]
    rw [UInt32.toBitVec_shiftRight, BitVec.getLsbD_ushiftRight, BitVec.getLsbD_xor, hwide, Bool.xor_false]
    exact BitVec.getLsbD_ushiftRight _ _ _
  rw [LimitConn.crc32Half, UInt32.toBitVec_xor, hindex, ngxCrc32Table16_eq, hshift]
  exact (iterate_crcBit_split _ _ 4).symm

/-- A byte is its low half under its high half. -/
theorem half_split (c : UInt8) : c.toBitVec.setWidth 32 =
    (c &&& 0xf).toBitVec.setWidth 32 ^^^ (c >>> 4).toBitVec.setWidth 32 <<< 4 := by
  have hall : ∀ j : Fin 256, (BitVec.ofFin j : BitVec 8).setWidth 32 =
      (((BitVec.ofFin j : BitVec 8) &&& 0xf#8).setWidth 32) ^^^
        (((BitVec.ofFin j : BitVec 8) >>> 4).setWidth 32) <<< 4 := by decide +kernel
  have hshift : (c >>> 4).toBitVec = c.toBitVec >>> 4 := rfl
  rw [hshift]
  exact hall c.toBitVec.toFin

/-- The low half of a byte and then the high one shift the byte in. -/
theorem crc32Half_half (crc : UInt32) (c : UInt8) :
    (LimitConn.crc32Half (LimitConn.crc32Half crc (c &&& 0xf)) (c >>> 4)).toBitVec =
      crcByte 0xEDB88320#32 crc.toBitVec c.toBitVec := by
  have hlow : (c &&& 0xf).toNat < 16 := by
    rw [UInt8.toNat_and]
    exact Nat.and_lt_two_pow _ (by decide : (0xf : UInt8).toNat < 2 ^ 4)
  have hhigh : (c >>> 4).toNat < 16 := by
    have := c.toNat_lt
    have hdiv : (c >>> 4).toNat = c.toNat / 2 ^ 4 := by
      rw [UInt8.toNat_shiftRight]
      exact Nat.shiftRight_eq_div_pow _ _
    omega
  -- what the low half leaves alone are the high bits, which four shifts bring down
  have hdown : (crcBit 0xEDB88320#32)^[4] ((c >>> 4).toBitVec.setWidth 32 <<< 4) =
      (c >>> 4).toBitVec.setWidth 32 := by
    rw [iterate_crcBit_low]
    · apply BitVec.eq_of_getLsbD_eq
      intro i hi
      rw [BitVec.getLsbD_ushiftRight, BitVec.getLsbD_shiftLeft]
      by_cases h32 : 4 + i < 32
      · simp [h32]
      · simp [h32]
    · intro i hi
      simp [hi]
  calc (LimitConn.crc32Half (LimitConn.crc32Half crc (c &&& 0xf)) (c >>> 4)).toBitVec
      = (crcBit 0xEDB88320#32)^[4]
          ((crcBit 0xEDB88320#32)^[4] (crc.toBitVec ^^^ (c &&& 0xf).toBitVec.setWidth 32) ^^^
            (c >>> 4).toBitVec.setWidth 32) := by
        rw [crc32Half_eq _ _ hhigh, crc32Half_eq _ _ hlow]
    _ = (crcBit 0xEDB88320#32)^[4]
          ((crcBit 0xEDB88320#32)^[4] (crc.toBitVec ^^^ (c &&& 0xf).toBitVec.setWidth 32 ^^^
            (c >>> 4).toBitVec.setWidth 32 <<< 4)) := by
        rw [iterate_crcBit_xor _ _ ((c >>> 4).toBitVec.setWidth 32 <<< 4), hdown]
    _ = (crcBit 0xEDB88320#32)^[8] (crc.toBitVec ^^^ c.toBitVec.setWidth 32) := by
        rw [half_split c, BitVec.xor_assoc]
        exact (Function.iterate_add_apply _ 4 4 _).symm

/-! ### Whole strings -/

theorem ngxCrc32Table256_eq : ngxCrc32Table256 = crc32Table := rfl

theorem ngxCrc32Short_eq (p : List UInt8) : LimitConn.ngxCrc32Short p = crc32 p :=
  foldl_crc32 crc32Half_half p

/-- The incremental functions go on from one piece to the next. -/
theorem ngxCrc32Update_flatten (crc : UInt32) (pieces : List (List UInt8)) :
    pieces.foldl ngxCrc32Update crc = ngxCrc32Update crc pieces.flatten := by
  induction pieces generalizing crc with
  | nil => rfl
  | cons piece pieces ih =>
      rw [List.foldl_cons, ih, List.flatten_cons, ngxCrc32Update, ngxCrc32Update, ngxCrc32Update,
        List.foldl_append]

theorem ngxCrc32Final_eq (p : List UInt8) : ngxCrc32Final (ngxCrc32Update ngxCrc32Init p) = crc32 p := by
  rw [ngxCrc32Update, ngxCrc32Table256_eq]
  exact foldl_crc32 crc32Step_eq p

/-- The table of the probe code, the table of the core, its short table and the incremental functions, over any
split of the string, all compute the checksum that shifts bit by bit. -/
theorem crc32_agree {O : Type} (s : Memory.Store O) (data : O) (size : Nat) (pieces : List (List UInt8)) :
    (ngxGetCrc32 data size s).1 = crc32 (Memory.bytesAt (s.bytes data) 0 size) ∧
      (∀ p : List UInt8, ngxCrc32Long p = crc32 p ∧ LimitConn.ngxCrc32Short p = crc32 p) ∧
      ngxCrc32Final (pieces.foldl ngxCrc32Update ngxCrc32Init) = crc32 pieces.flatten := by
  refine ⟨ngxGetCrc32_result data size s, ?_, ?_⟩
  · intro p
    exact ⟨ngxCrc32Final_eq p, ngxCrc32Short_eq p⟩
  · rw [ngxCrc32Update_flatten]
    exact ngxCrc32Final_eq _

end NginxDtls.Crc32
