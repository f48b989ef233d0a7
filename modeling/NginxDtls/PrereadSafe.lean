import NginxDtls.PrereadCut

/-! The parser stays within its memory on any input: by state, where the destination points to and how much room there
is behind it. -/

namespace NginxDtls.Preread

open Resume

variable {pool : Pool}

/-- What the parser has reserved for the bytes that it waits for. -/
def Ctx.Room (c : Ctx) : Prop :=
  match c.state with
  | .version => ∃ off, c.dst = some (.version, off) ∧ off + c.size ≤ 2
  | .sniHost => ∃ off m, c.dst = some (.host, off) ∧ c.host.data = some m ∧ m.data.length = off ∧ off + c.size ≤ m.cap
  | .alpnLen => c.alpn.len = 0 ∧ ∃ off, c.dst = some (.buf, off) ∧ off + c.size ≤ 4
  | .alpnProtoLen => ∃ off m, c.dst = some (.buf, off) ∧ off + c.size ≤ 4 ∧ c.alpn.data = some m ∧
      m.data.length = c.alpn.len ∧ c.alpn.len + c.ext ≤ m.cap
  | .alpnProtoData => ∃ off m, c.dst = some (.alpn, off) ∧ c.alpn.data = some m ∧ m.data.length = off ∧
      off + c.size = c.alpn.len + c.p 0 ∧ c.alpn.len + c.p 0 + 1 + c.ext ≤ m.cap
  | _ => c.dst = none ∨ ∃ off, c.dst = some (.buf, off) ∧ off + c.size ≤ 4

/-- A context in which no copy goes wrong. -/
structure Ctx.Safe (c : Ctx) : Prop where
  enough : c.size ≤ c.left
  buf : c.buf.cap = 4 ∧ c.buf.data.length = 4
  version : c.version.cap = 2 ∧ c.version.data.length = 2
  protocols : c.alpn.data = none → c.alpn.len = 0
  room : c.Room

/-- What writing bytes at an offset makes of a block. -/
def Block.over (m : Block) (off : ℕ) (bytes : List UInt8) : Block :=
  ⟨m.cap, m.data.take off ++ bytes ++ m.data.drop (off + bytes.length)⟩

theorem write_inside {m : Block} {off : ℕ} {bytes : List UInt8} (h : off + bytes.length ≤ m.cap)
    (hdata : off ≤ m.data.length) : m.write off bytes = some (m.over off bytes) := by
  rw [Block.write, if_pos ⟨hdata, h⟩]
  rfl

/-- At the end of what was written, bytes are appended. -/
theorem over_end {m : Block} {off : ℕ} (h : m.data.length = off) (bytes : List UInt8) :
    m.over off bytes = ⟨m.cap, m.data ++ bytes⟩ := by
  rw [Block.over, List.take_of_length_le h.le, List.drop_eq_nil_of_le (by omega), List.append_nil]

theorem over_length {m : Block} {off : ℕ} {bytes : List UInt8} (h : off + bytes.length ≤ m.data.length) :
    (m.over off bytes).data.length = m.data.length := by
  simp [Block.over]
  omega

section Take

variable {c : Ctx} {off : ℕ} {bytes : List UInt8} {m : Block}

theorem take_none (hdst : c.dst = none) (hleft : bytes.length ≤ c.left) :
    c.take bytes = some { c with size := c.size - bytes.length, left := c.left - bytes.length } := by
  have hcopy : c.copy bytes = some c := by
    rw [Ctx.copy, hdst]
  rw [Ctx.take, hcopy, Option.bind_some, if_neg (not_lt.mpr hleft)]

theorem take_dst {d : Ctx} {target : Target} (hdst : c.dst = some (target, off))
    (hcopy : c.cpymem target off bytes = some d) (hleft : bytes.length ≤ c.left) :
    c.take bytes = some { d with
      dst := some (target, off + bytes.length), size := c.size - bytes.length, left := c.left - bytes.length } := by
  have hc : c.copy bytes = some { d with dst := some (target, off + bytes.length) } := by
    rw [Ctx.copy, hdst]
    dsimp only
    rw [hcopy, Option.map_some]
  obtain ⟨hsize, hsame, -⟩ := copy_fields hc
  dsimp only at hsize hsame
  rw [Ctx.take, hc, Option.bind_some, hsize, hsame]
  dsimp only
  rw [if_neg (not_lt.mpr hleft)]

theorem take_buf (hdst : c.dst = some (.buf, off)) (hcap : off + bytes.length ≤ c.buf.cap)
    (hoff : off ≤ c.buf.data.length) (hleft : bytes.length ≤ c.left) :
    c.take bytes = some { c with
      buf := c.buf.over off bytes, dst := some (.buf, off + bytes.length), size := c.size - bytes.length
      left := c.left - bytes.length } := by
  have hcopy : c.cpymem .buf off bytes = some { c with buf := c.buf.over off bytes } := by
    rw [Ctx.cpymem, write_inside hcap hoff, Option.map_some]
  exact take_dst hdst hcopy hleft

theorem take_version (hdst : c.dst = some (.version, off)) (hcap : off + bytes.length ≤ c.version.cap)
    (hoff : off ≤ c.version.data.length) (hleft : bytes.length ≤ c.left) :
    c.take bytes = some { c with
      version := c.version.over off bytes, dst := some (.version, off + bytes.length), size := c.size - bytes.length
      left := c.left - bytes.length } := by
  have hcopy : c.cpymem .version off bytes = some { c with version := c.version.over off bytes } := by
    rw [Ctx.cpymem, write_inside hcap hoff, Option.map_some]
  exact take_dst hdst hcopy hleft

theorem take_host (hdst : c.dst = some (.host, off)) (hm : c.host.data = some m) (hcap : off + bytes.length ≤ m.cap)
    (hoff : off ≤ m.data.length) (hleft : bytes.length ≤ c.left) :
    c.take bytes = some { c with
      host := ⟨c.host.len, some (m.over off bytes)⟩, dst := some (.host, off + bytes.length)
      size := c.size - bytes.length, left := c.left - bytes.length } := by
  have hcopy : c.cpymem .host off bytes = some { c with host := ⟨c.host.len, some (m.over off bytes)⟩ } := by
    rw [Ctx.cpymem, hm, Option.bind_some, write_inside hcap hoff, Option.map_some]
  exact take_dst hdst hcopy hleft

theorem take_alpn (hdst : c.dst = some (.alpn, off)) (hm : c.alpn.data = some m) (hcap : off + bytes.length ≤ m.cap)
    (hoff : off ≤ m.data.length) (hleft : bytes.length ≤ c.left) :
    c.take bytes = some { c with
      alpn := ⟨c.alpn.len, some (m.over off bytes)⟩, dst := some (.alpn, off + bytes.length)
      size := c.size - bytes.length, left := c.left - bytes.length } := by
  have hcopy : c.cpymem .alpn off bytes = some { c with alpn := ⟨c.alpn.len, some (m.over off bytes)⟩ } := by
    rw [Ctx.cpymem, hm, Option.bind_some, write_inside hcap hoff, Option.map_some]
  exact take_dst hdst hcopy hleft

end Take

/-- Any part of the bytes that are waited for can be taken in. -/
theorem take_safe {c : Ctx} (h : c.Safe) {bytes : List UInt8} (hbytes : bytes.length ≤ c.size) :
    ∃ c', c.take bytes = some c' ∧ c'.Safe := by
  have hleft := hbytes.trans h.enough
  have henough : c.size - bytes.length ≤ c.left - bytes.length := Nat.sub_le_sub_right h.enough _
  have hcap := h.buf.1
  have hlength := h.buf.2
  have hroom := h.room
  have hbuf {off : ℕ} (hoff : off + c.size ≤ 4) :
      (c.buf.over off bytes).cap = 4 ∧ (c.buf.over off bytes).data.length = 4 :=
    ⟨h.buf.1, by rw [over_length (by omega), h.buf.2]⟩
  unfold Ctx.Room at hroom
  split at hroom
  case h_1 hstate =>
    obtain ⟨off, hdst, hoff⟩ := hroom
    have htake := take_version hdst (by rw [h.version.1]; omega) (by rw [h.version.2]; omega) hleft
    refine ⟨_, htake, ⟨henough, h.buf, ⟨h.version.1, ?_⟩, h.protocols, ?_⟩⟩
    · exact (over_length (by rw [h.version.2]; omega)).trans h.version.2
    · simp only [Ctx.Room, hstate]
      exact ⟨_, rfl, by omega⟩
  case h_2 hstate =>
    obtain ⟨off, m, hdst, hm, hdata, hoff⟩ := hroom
    refine ⟨_, take_host hdst hm (by omega) (by omega) hleft, ⟨henough, h.buf, h.version, h.protocols, ?_⟩⟩
    simp only [Ctx.Room, hstate]
    refine ⟨_, _, rfl, rfl, ?_, ?_⟩
    · rw [over_end hdata, List.length_append, hdata]
    · rw [over_end hdata]
      dsimp only
      omega
  case h_3 hstate =>
    obtain ⟨hlen, off, hdst, hoff⟩ := hroom
    refine ⟨_, take_buf hdst (by omega) (by omega) hleft, ⟨henough, hbuf hoff, h.version, h.protocols, ?_⟩⟩
    simp only [Ctx.Room, hstate]
    exact ⟨hlen, _, rfl, by omega⟩
  case h_4 hstate =>
    obtain ⟨off, m, hdst, hoff, hm, hdata, hext⟩ := hroom
    refine ⟨_, take_buf hdst (by omega) (by omega) hleft, ⟨henough, hbuf hoff, h.version, h.protocols, ?_⟩⟩
    simp only [Ctx.Room, hstate]
    exact ⟨_, m, rfl, by omega, hm, hdata, hext⟩
  case h_5 hstate =>
    obtain ⟨off, m, hdst, hm, hdata, hoff, hext⟩ := hroom
    refine ⟨_, take_alpn hdst hm (by omega) (by omega) hleft,
      ⟨henough, h.buf, h.version, fun hnone => (by cases hnone), ?_⟩⟩
    simp only [Ctx.Room, hstate]
    refine ⟨_, _, rfl, rfl, ?_, ?_, hext⟩
    · rw [over_end hdata, List.length_append, hdata]
    · exact (by omega : off + bytes.length + (c.size - bytes.length) = c.alpn.len + c.p 0)
  case h_6 hversion hhost halpn hlen hproto =>
    have hstay {c' : Ctx} (hstate : c'.state = c.state)
        (hdst : c'.dst = none ∨ ∃ off, c'.dst = some (.buf, off) ∧ off + c'.size ≤ 4) : c'.Room := by
      unfold Ctx.Room
      rw [hstate]
      split <;> first | contradiction | exact hdst
    obtain hdst | ⟨off, hdst, hoff⟩ := hroom
    · exact ⟨_, take_none hdst hleft, ⟨henough, h.buf, h.version, h.protocols, hstay rfl (Or.inl hdst)⟩⟩
    · refine ⟨_, take_buf hdst (by omega) (by omega) hleft,
        ⟨henough, hbuf hoff, h.version, h.protocols, hstay rfl (Or.inr ⟨_, rfl, ?_⟩)⟩⟩
      dsimp only
      omega

theorem next_safe {c : Ctx} (h : c.Safe) (hsize : c.size = 0) :
    next pool c ≠ .done .fault ∧ ∀ c', next pool c = .more c' → c'.size ≤ c'.left → c'.Safe := by
  have hroom := h.room
  unfold next
  cases hstate : c.state <;> simp only [Ctx.Room, hstate] at hroom ⊢
  case header =>
    split_ifs
    · exact ⟨fun hr => (by cases hr), fun d hd => (by cases hd)⟩
    · refine ⟨fun hr => (by cases hr), fun d hd henough => ?_⟩
      cases hd
      exact ⟨henough, h.buf, h.version, h.protocols, 0, rfl, by simp⟩
  case sniHostHead =>
    split_ifs <;> refine ⟨fun hr => (by cases hr), fun d hd henough => ?_⟩ <;> cases hd
    exact ⟨henough, h.buf, h.version, h.protocols, 0, _, rfl, rfl, rfl, by simp⟩
  case alpnLen =>
    obtain ⟨hlen, -⟩ := hroom
    split_ifs <;> refine ⟨fun hr => (by cases hr), fun d hd henough => ?_⟩ <;> cases hd
    exact ⟨henough, h.buf, h.version, fun hnone => (by cases hnone), 0, _, rfl, by simp, rfl, hlen.symm,
      by simp [hlen]⟩
  case extHeader =>
    split_ifs with hsni halpn hsupver <;> refine ⟨fun hr => (by cases hr), fun d hd henough => ?_⟩ <;> cases hd
    · exact ⟨henough, h.buf, h.version, h.protocols, Or.inr ⟨0, rfl, by simp⟩⟩
    · exact ⟨henough, h.buf, h.version, h.protocols, h.protocols halpn.2.2, 0, rfl, by simp⟩
    · exact ⟨henough, h.buf, h.version, h.protocols, Or.inr ⟨0, rfl, by simp⟩⟩
    · exact ⟨henough, h.buf, h.version, h.protocols, Or.inl rfl⟩
  case alpnProtoLen =>
    obtain ⟨off, m, hdst, hoff, hm, hdata, hext⟩ := hroom
    split_ifs <;> refine ⟨fun hr => (by cases hr), fun d hd henough => ?_⟩ <;> cases hd
    refine ⟨henough, h.buf, h.version, h.protocols, _, m, rfl, hm, hdata, rfl, ?_⟩
    change c.alpn.len + c.p 0 + 1 + (c.ext - (1 + c.p 0)) ≤ m.cap
    omega
  case alpnProtoData =>
    obtain ⟨off, m, hdst, hm, hdata, hoff, hext⟩ := hroom
    split_ifs with hlast
    · -- the separator fits, because another name is to come
      rw [hm, Option.bind_some, write_inside (by simp; omega) (by omega)]
      refine ⟨fun hr => (by cases hr), fun d hd henough => ?_⟩
      cases hd
      refine ⟨henough, h.buf, h.version, fun hnone => (by cases hnone), 0, _, rfl, by simp, rfl, ?_, ?_⟩
      · rw [over_end (by omega), List.length_append, List.length_singleton]
        dsimp only
        omega
      · rw [over_end (by omega)]
        dsimp only
        omega
    · refine ⟨fun hr => (by cases hr), fun d hd henough => ?_⟩
      cases hd
      exact ⟨henough, h.buf, h.version, fun hnone => (by rw [hm] at hnone; cases hnone), Or.inl rfl⟩
  case supverLen =>
    refine ⟨fun hr => (by cases hr), fun d hd henough => ?_⟩
    cases hd
    exact ⟨henough, h.buf, ⟨h.version.1, rfl⟩, h.protocols, Or.inl rfl⟩
  all_goals
    (try split_ifs) <;> refine ⟨fun hr => (by cases hr), fun d hd henough => ?_⟩ <;> cases hd
    all_goals
      first
      | exact ⟨henough, h.buf, h.version, h.protocols, Or.inl rfl⟩
      | exact ⟨henough, h.buf, h.version, h.protocols, Or.inr ⟨0, rfl, by simp⟩⟩

theorem parse_safe {c : Ctx} (h : c.Safe) (bytes : List UInt8) :
    ngxStreamSslPrereadParseRecord pool c bytes ≠ .done .fault ∧
      ∀ c', ngxStreamSslPrereadParseRecord pool c bytes = .more c' → c'.Safe := by
  obtain ⟨c', htake, hsafe⟩ := take_safe h ((List.length_take_le c.size bytes))
  rw [parse_eq, htake, Option.elim_some]
  split
  case isTrue hsize =>
    refine ⟨fun hfault => (by cases hfault), fun d hd => ?_⟩
    cases hd
    exact hsafe
  case isFalse hsize =>
    obtain ⟨hfault, hmore⟩ := @next_safe pool c' hsafe (not_not.mp hsize)
    cases hnext : next pool c' with
    | done r =>
      refine ⟨fun hr => hfault ?_, fun d hd => by cases hd⟩
      rw [hnext]
      exact hr
    | more c'' =>
      rw [Progress.more_bind]
      split
      case isTrue => exact ⟨fun hr => (by cases hr), fun d hd => (by cases hd)⟩
      case isFalse henough =>
        have hsmaller := parse_smaller htake (not_not.mp hsize) hnext
        exact parse_safe (hmore c'' hnext (not_lt.mp henough)) (bytes.drop c.size)
termination_by (bytes.length, c.rank)
decreasing_by exact hsmaller

theorem start_safe : ({} : Ctx).Safe := ⟨le_rfl, ⟨rfl, rfl⟩, ⟨rfl, rfl⟩, fun _ => rfl, Or.inl rfl⟩

/-- No record after record goes wrong. -/
theorem feed_safe {c : Ctx} (h : c.Safe) (pieces : List (List UInt8)) :
    feed (ngxStreamSslPrereadParseRecord pool) c pieces ≠ .done .fault := by
  induction pieces generalizing c with
  | nil => exact fun hr => by cases hr
  | cons piece pieces ih =>
    obtain ⟨hfault, hmore⟩ := @parse_safe pool c h piece
    rw [feed]
    cases hparse : ngxStreamSslPrereadParseRecord pool c piece with
    | done r =>
      intro hr
      refine hfault ?_
      rw [hparse]
      exact hr
    | more c' => exact ih (hmore c' hparse)

end NginxDtls.Preread
