import Mathlib.Tactic

/-! Facts about single bytes, for tables that are checked byte by byte. -/

namespace NginxDtls

/-- A fact about the 256 bytes is a fact about every byte. -/
theorem forall_byte {P : UInt8 → Prop} (h : ∀ i : Fin 256, P (UInt8.ofFin i)) (c : UInt8) : P c := h c.toFin

end NginxDtls
