import NginxDtls.Escape

/-! Which characters `ngx_escape_uri` leaves in a URI. The comment above its tables lists what is not allowed; one word of
the table for `refresh` is not the one in the comment beside it, so that `}` is copied and `~` is escaped there. -/

namespace NginxDtls.Escape

open UnsafeUri

/-- `%00-%1F, %7F-%FF, " ", """, "<", ">", "\", "^", "`", "{", "|", "}"` -/
abbrev NotAllowed (c : UInt8) : Prop :=
  c ≤ 0x1f ∨ 0x7f ≤ c ∨ c = 32 ∨ c = 34 ∨ c = 60 ∨ c = 62 ∨ c = 92 ∨ c = 94 ∨ c = 96 ∨ c = 123 ∨ c = 124 ∨ c = 125

/-- `ALPHA / DIGIT / "-" / "." / "_" / "~"` -/
abbrev Unreserved (c : UInt8) : Prop :=
  65 ≤ c ∧ c ≤ 90 ∨ 97 ≤ c ∧ c ≤ 122 ∨ 48 ≤ c ∧ c ≤ 57 ∨ c = 45 ∨ c = 46 ∨ c = 95 ∨ c = 126

/-- The types whose result is for a URI. -/
def uriTypes : List EscapeType := [.uri, .args, .uriComponent, .html, .refresh]

/-- What a byte may become: itself, or an escape, and itself if it is unreserved. -/
def Piece (c : UInt8) (piece : List UInt8) : Prop :=
  (piece = [c] ∨ piece = [percent, hexChar (c >>> 4), hexChar (c &&& 0xf)]) ∧ (Unreserved c → piece = [c])

/-- The output has no character that is not allowed, and is a piece for each byte of the input. -/
structure AllowedOnly (type : EscapeType) (src : List UInt8) : Prop where
  allowed : ∀ c ∈ ngxEscapeUri type src, ¬NotAllowed c
  pieces : ∃ pieces : List (List UInt8), ngxEscapeUri type src = pieces.flatten ∧ List.Forall₂ Piece src pieces

/-- The word of the table that is not the one in its comment concerns two characters. -/
def Slip (type : EscapeType) (c : UInt8) : Prop := type = .refresh ∧ (c = 125 ∨ c = 126)

instance (type : EscapeType) (c : UInt8) : Decidable (Slip type c) := by
  unfold Slip
  infer_instance

/-- Apart from it the tables are what their comments say. -/
theorem table_right {type : EscapeType} (htype : type ∈ uriTypes) {c : UInt8} (hc : ¬Slip type c) :
    (NotAllowed c → bitSet type.map c = true) ∧ (Unreserved c → bitSet type.map c = false) := by
  have hall : ∀ type ∈ uriTypes, ∀ i : Fin 256, ¬Slip type (UInt8.ofFin i) →
      (NotAllowed (UInt8.ofFin i) → bitSet type.map (UInt8.ofFin i) = true) ∧
        (Unreserved (UInt8.ofFin i) → bitSet type.map (UInt8.ofFin i) = false) := by decide +kernel
  exact hall type htype c.toFin hc

theorem hexChar_allowed (c : UInt8) : (¬NotAllowed (hexChar (c >>> 4)) ∧ hexChar (c >>> 4) ≠ 126) ∧
    ¬NotAllowed (hexChar (c &&& 0xf)) ∧ hexChar (c &&& 0xf) ≠ 126 := by
  revert c
  apply forall_byte
  decide +kernel

/-- What an escape is made of is allowed, and is not `~`. -/
theorem escape_allowed (c : UInt8) : ∀ d ∈ [percent, hexChar (c >>> 4), hexChar (c &&& 0xf)], ¬NotAllowed d ∧ d ≠ 126 := by
  obtain ⟨hhigh, hlow⟩ := hexChar_allowed c
  rw [List.forall_mem_cons, List.forall_mem_cons, List.forall_mem_singleton]
  exact ⟨by decide, hhigh, hlow⟩

theorem writeLoop_cons (lead : List UInt8) (escape : List UInt32) (c : UInt8) (src : List UInt8) :
    writeLoop lead escape (c :: src) =
      (if bitSet escape c then lead ++ [hexChar (c >>> 4), hexChar (c &&& 0xf)] else [c]) ++ writeLoop lead escape src := by
  rw [writeLoop]
  split
  · rw [List.append_assoc]
    rfl
  · rfl

theorem ngxEscapeUri_cons (type : EscapeType) (c : UInt8) (src : List UInt8) : ngxEscapeUri type (c :: src) =
    (if bitSet type.map c then [percent, hexChar (c >>> 4), hexChar (c &&& 0xf)] else [c]) ++ ngxEscapeUri type src :=
  writeLoop_cons _ _ _ _

/-- A table that is right for the bytes of a string escapes it as it should. -/
theorem allowedOnly_of_table {type : EscapeType} {src : List UInt8}
    (h : ∀ c ∈ src, (NotAllowed c → bitSet type.map c = true) ∧ (Unreserved c → bitSet type.map c = false)) :
    AllowedOnly type src := by
  induction src with
  | nil => exact ⟨fun c hc => absurd hc List.not_mem_nil, [], rfl, .nil⟩
  | cons c src ih =>
      obtain ⟨⟨hnot, hunreserved⟩, hsrc⟩ := List.forall_mem_cons.mp h
      obtain ⟨hallowed, pieces, hflat, hpieces⟩ := ih hsrc
      by_cases hbit : bitSet type.map c = true
      · refine ⟨?_, [percent, hexChar (c >>> 4), hexChar (c &&& 0xf)] :: pieces, ?_, .cons ⟨.inr rfl, ?_⟩ hpieces⟩
        · intro d hd
          rw [ngxEscapeUri_cons, if_pos hbit, List.mem_append] at hd
          exact hd.elim (fun hd => (escape_allowed c d hd).1) (hallowed d)
        · rw [ngxEscapeUri_cons, if_pos hbit, hflat, List.flatten_cons]
        · intro hc
          exact absurd hbit (Bool.eq_false_iff.mp (hunreserved hc))
      · refine ⟨?_, [c] :: pieces, ?_, .cons ⟨.inl rfl, fun _ => rfl⟩ hpieces⟩
        · intro d hd
          rw [ngxEscapeUri_cons, if_neg hbit, List.mem_append, List.mem_singleton] at hd
          rcases hd with rfl | hd
          · exact fun hd => hbit (hnot hd)
          · exact hallowed d hd
        · rw [ngxEscapeUri_cons, if_neg hbit, hflat, List.flatten_cons]

/-- A byte that is copied is in the output. -/
theorem mem_ngxEscapeUri {type : EscapeType} {c : UInt8} (hbit : bitSet type.map c = false) {src : List UInt8}
    (hc : c ∈ src) : c ∈ ngxEscapeUri type src := by
  induction src with
  | nil => exact absurd hc List.not_mem_nil
  | cons d src ih =>
      rw [ngxEscapeUri_cons, List.mem_append]
      rcases List.mem_cons.mp hc with rfl | hc
      · left
        rw [hbit]
        exact List.mem_singleton_self c
      · exact .inr (ih hc)

/-- Nothing but a copied `~` is a `~`. -/
theorem tilde_not_mem {type : EscapeType} (hbit : bitSet type.map 126 = true) (src : List UInt8) :
    126 ∉ ngxEscapeUri type src := by
  induction src with
  | nil => exact List.not_mem_nil
  | cons c src ih =>
      rw [ngxEscapeUri_cons, List.mem_append]
      rintro (hc | hc)
      · split at hc
        · exact (escape_allowed c 126 hc).2 rfl
        · rename_i hcopied
          obtain rfl := List.mem_singleton.mp hc
          exact hcopied hbit
      · exact ih hc

/-- An unreserved byte is in every list of pieces. -/
theorem mem_pieces {c : UInt8} (hunreserved : Unreserved c) {src : List UInt8} {pieces : List (List UInt8)}
    (hpieces : List.Forall₂ Piece src pieces) (hc : c ∈ src) : c ∈ pieces.flatten := by
  induction hpieces with
  | nil => exact absurd hc List.not_mem_nil
  | cons hpiece _ ih =>
      rw [List.flatten_cons, List.mem_append]
      rcases List.mem_cons.mp hc with rfl | hc
      · left
        rw [hpiece.2 hunreserved]
        exact List.mem_singleton_self c
      · exact .inr (ih hc)

/-- The output is as it should be for every type but `refresh`, and for `refresh` where the two characters of the wrong
word are not met. -/
theorem escape_uri_allowed (type : EscapeType) (htype : type ∈ uriTypes) (src : List UInt8) :
    AllowedOnly type src ↔ type ≠ .refresh ∨ 125 ∉ src ∧ 126 ∉ src := by
  constructor
  · intro h
    by_cases hrefresh : type = .refresh
    · subst hrefresh
      right
      constructor
      · intro hmem
        exact h.allowed 125 (mem_ngxEscapeUri (by decide) hmem) (by decide)
      · intro hmem
        obtain ⟨pieces, hflat, hpieces⟩ := h.pieces
        have htilde := mem_pieces (by decide) hpieces hmem
        rw [← hflat] at htilde
        exact tilde_not_mem (by decide) src htilde
    · exact .inl hrefresh
  · intro h
    apply allowedOnly_of_table
    intro c hc
    apply table_right htype
    rintro ⟨hrefresh, hslip⟩
    obtain ⟨hbrace, htilde⟩ := h.resolve_left (not_not.mpr hrefresh)
    rcases hslip with rfl | rfl
    · exact hbrace hc
    · exact htilde hc

theorem escape_uri_allowed_args : .args ∈ uriTypes ∧ AllowedOnly .args [125, 126] :=
  ⟨by decide, (escape_uri_allowed .args (by decide) [125, 126]).mpr (.inl (by decide))⟩

theorem escape_uri_refresh_brace : ¬∀ type ∈ uriTypes, ∀ src, AllowedOnly type src := by
  intro h
  have hallowed := (h .refresh (by decide) [125]).allowed 125 (by decide)
  exact hallowed (by decide)

end NginxDtls.Escape
