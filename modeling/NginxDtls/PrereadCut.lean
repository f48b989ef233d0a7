import NginxDtls.Preread

/-! The answer of the handler does not depend on how a handshake was cut into records and records into reads: the
parser can be stopped between any two bytes, and so can the loop over the records. -/

namespace NginxDtls.Preread

open Resume

variable {pool : Pool}

/-! ### The parser between two records -/

theorem write_append (m : Block) (off : ℕ) (a b : List UInt8) :
    m.write off (a ++ b) = (m.write off a).bind fun m => m.write (off + a.length) b := by
  unfold Block.write
  rw [List.length_append]
  split_ifs with hab ha ha
  · rw [Option.bind_some]
    dsimp only
    rw [if_pos ⟨by simp; omega, by omega⟩]
    have htake : (m.data.take off).length = off := by simp; omega
    have hfront : (m.data.take off ++ a ++ m.data.drop (off + a.length)).take (off + a.length) =
        m.data.take off ++ a := by
      rw [List.take_left' (by rw [List.length_append, htake])]
    have hback : (m.data.take off ++ a ++ m.data.drop (off + a.length)).drop (off + a.length + b.length) =
        m.data.drop (off + (a.length + b.length)) := by
      rw [← List.drop_drop, List.drop_left' (by rw [List.length_append, htake]), List.drop_drop, Nat.add_assoc]
    rw [hfront, hback, List.append_assoc, List.append_assoc, List.append_assoc, List.append_assoc]
  · omega
  · rw [Option.bind_some, if_neg]
    simp only [List.length_append, List.length_take, List.length_drop]
    omega
  · rfl

theorem cpymem_append (c : Ctx) (target : Target) (off : ℕ) (a b : List UInt8) :
    c.cpymem target off (a ++ b) = (c.cpymem target off a).bind fun c => c.cpymem target (off + a.length) b := by
  cases target with
  | buf =>
    simp only [Ctx.cpymem, write_append]
    cases c.buf.write off a <;> rfl
  | version =>
    simp only [Ctx.cpymem, write_append]
    cases c.version.write off a <;> rfl
  | host =>
    simp only [Ctx.cpymem]
    cases c.host.data with
    | none => rfl
    | some m =>
      simp only [Option.bind_some, write_append]
      cases m.write off a <;> rfl
  | alpn =>
    simp only [Ctx.cpymem]
    cases c.alpn.data with
    | none => rfl
    | some m =>
      simp only [Option.bind_some, write_append]
      cases m.write off a <;> rfl

theorem copy_append (c : Ctx) (a b : List UInt8) : c.copy (a ++ b) = (c.copy a).bind fun c => c.copy b := by
  unfold Ctx.copy
  cases hdst : c.dst with
  | none => simp only [Option.bind_some, hdst]
  | some dst =>
    obtain ⟨target, off⟩ := dst
    simp only [cpymem_append]
    cases ha : c.cpymem target off a with
    | none => rfl
    | some d =>
      simp only [Option.bind_some, Option.map_some, List.length_append, ← Nat.add_assoc]
      cases target <;> simp only [Ctx.cpymem, Option.map_map] <;> rfl

/-- A copy neither reads nor changes the counters. -/
theorem copy_counters (c : Ctx) (bytes : List UInt8) (size left : ℕ) :
    { c with size := size, left := left }.copy bytes =
      (c.copy bytes).map fun c => { c with size := size, left := left } := by
  unfold Ctx.copy
  cases hdst : c.dst with
  | none => simp only [Option.map_some, hdst]
  | some dst =>
    obtain ⟨target, off⟩ := dst
    cases target <;> simp only [Ctx.cpymem, Option.map_map] <;> rfl

/-- Taking bytes in can be stopped anywhere. -/
theorem take_append (c : Ctx) (a b : List UInt8) : c.take (a ++ b) = (c.take a).bind fun c => c.take b := by
  unfold Ctx.take
  rw [copy_append, Option.bind_assoc, Option.bind_assoc]
  congr 1
  funext d
  rw [List.length_append]
  by_cases hleft : d.left < a.length
  · rw [if_pos hleft, Option.bind_none]
    cases hb : d.copy b with
    | none => rfl
    | some e =>
      have hsame := (copy_fields hb).2.1
      rw [Option.bind_some, if_pos (by omega)]
  · rw [if_neg hleft, Option.bind_some, copy_counters d b (d.size - a.length) (d.left - a.length)]
    cases hb : d.copy b with
    | none => rfl
    | some e =>
      rw [Option.bind_some, Option.map_some, Option.bind_some, (copy_fields hb).1, (copy_fields hb).2.1]
      dsimp only
      rw [Nat.sub_sub, Nat.sub_sub]
      split_ifs <;> first | rfl | omega

/-- The parser, by what it takes in and what comes next. -/
theorem parse_eq (c : Ctx) (bytes : List UInt8) :
    ngxStreamSslPrereadParseRecord pool c bytes =
      ((c.take (bytes.take c.size)).elim (.done .fault) fun c' =>
        if c'.size ≠ 0 then .more c'
        else (next pool c').bind fun c'' =>
          if c''.left < c''.size then .done .declined
          else ngxStreamSslPrereadParseRecord pool c'' (bytes.drop c.size)) := by
  rw [ngxStreamSslPrereadParseRecord]
  cases c.take (bytes.take c.size) with
  | none => rfl
  | some c' =>
    dsimp only [Option.elim_some]
    split
    · rfl
    · cases next pool c' <;> rfl

theorem parse_append (c : Ctx) (a b : List UInt8) :
    ngxStreamSslPrereadParseRecord pool c (a ++ b) =
      (ngxStreamSslPrereadParseRecord pool c a).bind fun c => ngxStreamSslPrereadParseRecord pool c b := by
  rw [parse_eq c a]
  obtain hshort | hlong := Nat.lt_or_ge a.length c.size
  · -- the piece ends in the middle of what is waited for
    have hrest : (a ++ b).take c.size = a ++ b.take (c.size - a.length) := by
      rw [List.take_append, List.take_of_length_le hshort.le]
    have hdrop : (a ++ b).drop c.size = b.drop (c.size - a.length) := by
      rw [List.drop_append, List.drop_eq_nil_of_le hshort.le, List.nil_append]
    rw [parse_eq, hrest, hdrop, take_append, List.take_of_length_le hshort.le]
    cases ha : c.take a with
    | none => rfl
    | some d =>
      have hsize := (take_fields ha).1
      rw [Option.bind_some, Option.elim_some, if_pos (by omega), Progress.more_bind, parse_eq d b, hsize]
  · rw [parse_eq, List.take_append_of_le_length hlong, List.drop_append_of_le_length hlong]
    cases htake : c.take (a.take c.size) with
    | none => rfl
    | some c' =>
      dsimp only [Option.elim_some]
      split
      case isTrue hsize =>
        have hrest := (take_fields htake).1
        rw [List.length_take, min_eq_left hlong] at hrest
        omega
      case isFalse hsize =>
        cases hnext : next pool c' with
        | done r => rfl
        | more c'' =>
          rw [Progress.more_bind, Progress.more_bind]
          split
          · rfl
          · have hsmaller := parse_smaller htake (not_not.mp hsize) hnext
            exact parse_append c'' (a.drop c.size) b
termination_by (a.length, c.rank)
decreasing_by exact hsmaller

theorem parse_resumable : Resumable (ngxStreamSslPrereadParseRecord pool) := parse_append

/-! ### The records between two reads -/

/-- The loop over the records at a record header. -/
theorem records_header (c : Ctx) (p0 p1 p2 p3 p4 : UInt8) (rest : List UInt8) :
    prereadRecords pool c (p0 :: p1 :: p2 :: p3 :: p4 :: rest) =
      if p0 &&& 0x80 ≠ 0 ∧ p2 = 1 ∧ (p3 = 0 ∨ p3 = 3) then
        .done (.ok { c with version := { c.version with data := [p3, p4] } })
      else if p0 ≠ 0x16 then .done .declined
      else if p1 ≠ 3 then .done .declined
      else if rest.length < p3.toNat * 256 + p4.toNat then .more (c, p0 :: p1 :: p2 :: p3 :: p4 :: rest)
      else (ngxStreamSslPrereadParseRecord pool c (rest.take (p3.toNat * 256 + p4.toNat))).bind fun c =>
        prereadRecords pool c (rest.drop (p3.toNat * 256 + p4.toNat)) := by
  rw [prereadRecords]
  dsimp only
  congr 4
  cases ngxStreamSslPrereadParseRecord pool c (rest.take (p3.toNat * 256 + p4.toNat)) <;> rfl

theorem records_short (c : Ctx) {bytes : List UInt8} (h : bytes.length < 5) :
    prereadRecords pool c bytes = .more (c, bytes) := by
  rcases bytes with _ | ⟨p0, _ | ⟨p1, _ | ⟨p2, _ | ⟨p3, _ | ⟨p4, rest⟩⟩⟩⟩⟩
  all_goals first | (rw [prereadRecords]; simp; done) | (simp only [List.length_cons] at h; omega)

theorem exists_header {bytes : List UInt8} (h : 5 ≤ bytes.length) :
    ∃ p0 p1 p2 p3 p4 rest, bytes = p0 :: p1 :: p2 :: p3 :: p4 :: rest := by
  rcases bytes with _ | ⟨p0, _ | ⟨p1, _ | ⟨p2, _ | ⟨p3, _ | ⟨p4, rest⟩⟩⟩⟩⟩
  all_goals first | exact ⟨_, _, _, _, _, _, rfl⟩ | simp at h

/-- The loop over the records goes on where it stopped. -/
theorem records_append (c : Ctx) (a b : List UInt8) :
    prereadRecords pool c (a ++ b) =
      (prereadRecords pool c a).bind fun res => prereadRecords pool res.1 (res.2 ++ b) := by
  induction hn : a.length using Nat.strong_induction_on generalizing c a with
  | _ n ih =>
  subst hn
  by_cases hheader : a.length < 5
  · rw [records_short c hheader, Progress.more_bind]
  · obtain ⟨p0, p1, p2, p3, p4, rest, rfl⟩ := exists_header (not_lt.mp hheader)
    rw [records_header]
    split_ifs with hold htype hversion hlen
    · rw [List.cons_append, List.cons_append, List.cons_append, List.cons_append, List.cons_append, records_header,
        if_pos hold, Progress.done_bind]
    · simp only [List.cons_append, records_header, if_neg hold, if_pos htype, Progress.done_bind]
    · simp only [List.cons_append, records_header, if_neg hold, if_neg htype, if_pos hversion, Progress.done_bind]
    · rfl
    · have hlen := not_lt.mp hlen
      have hlong : ¬ (rest ++ b).length < p3.toNat * 256 + p4.toNat := by rw [List.length_append]; omega
      simp only [List.cons_append, records_header, if_neg hold, if_neg htype, if_neg hversion, if_neg hlong,
        List.take_append_of_le_length hlen, List.drop_append_of_le_length hlen, Progress.bind_assoc]
      congr 1
      funext c'
      refine ih _ ?_ c' _ rfl
      rw [List.length_drop]
      simp only [List.length_cons]
      omega

/-- The loop over what was not yet gone through and what was read now. -/
def prereadMore (pool : Pool) (s : Ctx × List UInt8) (bytes : List UInt8) : Progress (Ctx × List UInt8) Result :=
  prereadRecords pool s.1 (s.2 ++ bytes)

theorem records_resumable : Resumable (prereadMore pool) := by
  intro s a b
  rw [prereadMore, ← List.append_assoc, records_append]
  rfl

/-- What is left over is the end of what was read. -/
theorem records_suffix {c c' : Ctx} {bytes rest : List UInt8} (h : prereadRecords pool c bytes = .more (c', rest)) :
    rest <:+ bytes := by
  induction hn : bytes.length using Nat.strong_induction_on generalizing c bytes with
  | _ n ih =>
  subst hn
  by_cases hheader : bytes.length < 5
  · rw [records_short c hheader] at h
    cases h
    exact List.suffix_rfl
  · obtain ⟨p0, p1, p2, p3, p4, body, rfl⟩ := exists_header (not_lt.mp hheader)
    rw [records_header] at h
    split_ifs at h with hold htype hversion hlen
    · cases h
      exact List.suffix_rfl
    · cases hparse : ngxStreamSslPrereadParseRecord pool c (body.take (p3.toNat * 256 + p4.toNat)) with
      | done r =>
        rw [hparse] at h
        cases h
      | more d =>
        rw [hparse] at h
        have hshorter : (body.drop (p3.toNat * 256 + p4.toNat)).length <
            (p0 :: p1 :: p2 :: p3 :: p4 :: body).length := by
          rw [List.length_drop]
          simp only [List.length_cons]
          omega
        refine (ih _ hshorter h rfl).trans ((List.drop_suffix _ _).trans ?_)
        exact List.suffix_append [p0, p1, p2, p3, p4] body

/-! ### The handler -/

theorem be16_toNat {n : ℕ} (h : n < 65536) :
    (UInt8.ofNat (n / 256)).toNat * 256 + (UInt8.ofNat n).toNat = n := by
  simp only [UInt8.toNat_ofNat']
  omega

/-- A whole record is parsed. -/
theorem records_record (c : Ctx) (r : Record) (bytes : List UInt8) :
    prereadRecords pool c (r.bytes ++ bytes) =
      (ngxStreamSslPrereadParseRecord pool c r.data).bind fun c => prereadRecords pool c bytes := by
  rw [Record.bytes]
  simp only [List.cons_append, List.nil_append, records_header, be16_toNat r.fits]
  rw [if_neg (fun h => absurd h.1 (by decide)), if_neg (by decide), if_neg (by decide), if_neg (by simp),
    List.take_left, List.drop_left]

theorem records_stream (c : Ctx) (rs : List Record) :
    prereadRecords pool c (rs.flatMap Record.bytes) =
      (feed (ngxStreamSslPrereadParseRecord pool) c (rs.map Record.data)).bind fun c => .more (c, []) := by
  induction rs generalizing c with
  | nil => rw [List.flatMap_nil, records_short c (by simp)]; rfl
  | cons r rs ih =>
    rw [List.flatMap_cons, records_record, List.map_cons, feed, Progress.bind_assoc]
    congr 1
    funext c'
    exact ih c'

/-- The answer that the loop over the records leads to. -/
def answerOf : Progress (Ctx × List UInt8) Result → NgxInt × Option (List UInt8 × List UInt8 × List UInt8)
  | .more _ => (.again, none)
  | .done (.ok c) => (.ok, some (c.host.bytes, c.alpn.bytes, c.version.data))
  | .done .declined => (.declined, none)
  | .done .error => (.error, none)
  | .done .fault => (.abort, none)

/-- A session whose handler goes on behind `ctx.2` bytes. -/
structure Session.At (pool : Pool) (s : Session) (c : Ctx) (rest : List UInt8) : Prop where
  enabled : s.enabled = true
  stream : s.stream = true
  memory : s.ctx.isSome = true ∨ pool.ctx = true
  rest : ∃ buffer pos, s.buffer = some buffer ∧ s.ctx.getD ({}, 0) = (c, pos) ∧ buffer.drop pos = rest

theorem handler_answer {s : Session} {c : Ctx} {rest : List UInt8} (h : s.At pool c rest) :
    answer (ngxStreamSslPrereadHandler pool s) = answerOf (prereadRecords pool c rest) ∧
      (∀ c' rest', prereadRecords pool c rest = .more (c', rest') → ∀ bytes,
        ((ngxStreamSslPrereadHandler pool s).2.recv bytes).At pool c' (rest' ++ bytes)) := by
  obtain ⟨buffer, pos, hbuffer, hctx, hrest⟩ := h.rest
  have hmemory : (s.ctx.isNone && !pool.ctx) = false := by
    rcases h.memory with hsome | hpool
    · simp [Option.isNone_eq_false_iff.mpr hsome]
    · simp [hpool]
  unfold ngxStreamSslPrereadHandler
  rw [if_neg (by simp [h.enabled]), if_neg (by simp [h.stream]), hbuffer]
  dsimp only
  rw [if_neg (by simp [hmemory]), hctx, hrest]
  cases hrecords : prereadRecords pool c rest with
  | done r =>
    refine ⟨?_, fun c' rest' hmore => by cases hmore⟩
    cases r <;> rfl
  | more res =>
    obtain ⟨c', rest'⟩ := res
    refine ⟨rfl, fun d rest'' hmore bytes => ?_⟩
    cases hmore
    refine ⟨h.enabled, h.stream, Or.inl rfl, buffer ++ bytes, buffer.length - rest'.length, ?_, rfl, ?_⟩
    · simp [Session.recv]
    · obtain ⟨front, hfront⟩ := (records_suffix hrecords).trans (hrest ▸ List.drop_suffix pos buffer)
      rw [← hfront, List.length_append, Nat.add_sub_cancel, List.append_assoc, List.drop_left]

/-- The reads lead where the records in all of them together lead. -/
theorem preread_answer {s : Session} {c : Ctx} {rest : List UInt8} (h : s.At pool c rest) (reads : List (List UInt8)) :
    answer (preread pool s reads) =
      answerOf ((prereadRecords pool c rest).bind fun s => feed (prereadMore pool) s reads) := by
  induction reads generalizing s c rest with
  | nil =>
    rw [preread, (handler_answer h).1]
    cases prereadRecords pool c rest <;> rfl
  | cons bytes reads ih =>
    obtain ⟨hanswer, hmore⟩ := handler_answer h
    rw [preread]
    cases hrecords : prereadRecords pool c rest with
    | done r =>
      rw [hrecords] at hanswer
      rw [if_neg, hanswer, Progress.done_bind]
      intro hagain
      have hcode : (answerOf (.done r)).1 = .again := by rw [← hanswer]; exact hagain
      cases r <;> cases hcode
    | more res =>
      obtain ⟨c', rest'⟩ := res
      rw [hrecords] at hanswer
      have hagain : (ngxStreamSslPrereadHandler pool s).1 = .again := congrArg Prod.fst hanswer
      rw [if_pos hagain, ih (hmore c' rest' hrecords bytes)]
      rfl

/-- A session that has not read anything. -/
def newSession (enabled stream : Bool) : Session := { enabled := enabled, stream := stream }

theorem preread_new (enabled stream : Bool) {reads : List (List UInt8)} (hreads : [] ∉ reads) :
    answer (preread pool (newSession enabled stream) reads) =
      if enabled = false ∨ stream = false then (.declined, none)
      else if reads.flatten = [] then (.again, none)
      else if pool.ctx = false then (.error, none)
      else answerOf (prereadRecords pool {} reads.flatten) := by
  by_cases hoff : enabled = false ∨ stream = false
  · -- the handler declines at once
    have hdeclined : ngxStreamSslPrereadHandler pool (newSession enabled stream) =
        (.declined, newSession enabled stream) := by
      obtain rfl | rfl := hoff
      · rfl
      · cases enabled <;> rfl
    rw [if_pos hoff]
    cases reads with
    | nil => rw [preread, hdeclined]; rfl
    | cons bytes reads => rw [preread, hdeclined, if_neg (by simp)]; rfl
  · rw [if_neg hoff]
    obtain ⟨henabled, hstream⟩ := not_or.mp hoff
    obtain rfl := Bool.eq_true_of_not_eq_false henabled
    obtain rfl := Bool.eq_true_of_not_eq_false hstream
    have hagain : ngxStreamSslPrereadHandler pool (newSession true true) = (.again, newSession true true) := rfl
    cases reads with
    | nil => rfl
    | cons bytes reads =>
      have hbytes : bytes ≠ [] := fun h => hreads (by simp [h])
      rw [preread, hagain, if_pos rfl, if_neg (by simp [hbytes])]
      dsimp only
      by_cases hpool : pool.ctx = false
      · rw [if_pos hpool]
        have herror : ngxStreamSslPrereadHandler pool ((newSession true true).recv bytes) =
            (.error, (newSession true true).recv bytes) := by
          simp [ngxStreamSslPrereadHandler, newSession, Session.recv, hpool]
        cases reads with
        | nil => rw [preread, herror]; rfl
        | cons next reads => rw [preread, herror, if_neg (by simp)]; rfl
      · have hstart : ((newSession true true).recv bytes).At pool {} bytes :=
          ⟨rfl, rfl, Or.inr (Bool.eq_true_of_not_eq_false hpool), bytes, 0, rfl, rfl, rfl⟩
        have hfeed := (@records_resumable pool).feed_eq (({}, []) : Ctx × List UInt8) (List.cons_ne_nil bytes reads)
        rw [if_neg hpool, preread_answer hstart]
        exact congrArg answerOf hfeed

/-- However a handshake is cut into records and the records into reads, the handler gives the same answer. -/
theorem preread_cut (pool : Pool) (enabled stream : Bool) {rs rs' : List Record} {reads reads' : List (List UInt8)}
    (hsame : rs.flatMap Record.data = rs'.flatMap Record.data)
    (hreads : reads.flatten = rs.flatMap Record.bytes) (hne : [] ∉ reads)
    (hreads' : reads'.flatten = rs'.flatMap Record.bytes) (hne' : [] ∉ reads') :
    answer (preread pool (newSession enabled stream) reads) =
      answer (preread pool (newSession enabled stream) reads') := by
  have hempty (rs : List Record) : rs.flatMap Record.bytes = [] ↔ rs.flatMap Record.data = [] := by
    cases rs with
    | nil => exact Iff.rfl
    | cons r rs => simp [Record.bytes, r.nonempty]
  have hrecords (rs : List Record) (hrs : rs.flatMap Record.bytes ≠ []) :
      prereadRecords pool {} (rs.flatMap Record.bytes) =
        (ngxStreamSslPrereadParseRecord pool {} (rs.flatMap Record.data)).bind fun c => .more (c, []) := by
    have hcons : rs.map Record.data ≠ [] := fun h => hrs (by rw [List.map_eq_nil_iff.mp h, List.flatMap_nil])
    rw [records_stream, parse_resumable.feed_eq _ hcons, List.flatMap_def]
  rw [preread_new _ _ hne, preread_new _ _ hne', hreads, hreads']
  by_cases hnil : rs.flatMap Record.bytes = []
  · have hnil' : rs'.flatMap Record.bytes = [] := by rw [hempty, ← hsame, ← hempty, hnil]
    rw [hnil, hnil']
  · have hnil' : rs'.flatMap Record.bytes ≠ [] := by rwa [Ne, hempty, ← hsame, ← hempty]
    rw [if_neg hnil, if_neg hnil', hrecords rs hnil, hrecords rs' hnil', hsame]

/-- A ClientHello with the server name `a`. -/
def shortHello : List UInt8 :=
  [1, 0, 0, 53, 3, 3] ++ List.replicate 32 7 ++ [0, 0, 2, 0x13, 1, 1, 0, 0, 10, 0, 0, 0, 6, 0, 4, 0, 0, 1, 97]

/-- It comes in two records and byte for byte, or in one record and at once. -/
theorem preread_cut_bytes :
    answer (preread ⟨true, true, true⟩ (newSession true true)
        ((([0x16, 3, 1, 0, 20] ++ shortHello.take 20) ++ ([0x16, 3, 1, 0, 37] ++ shortHello.drop 20)).map fun b => [b])) =
      answer (preread ⟨true, true, true⟩ (newSession true true) [[0x16, 3, 1, 0, 57] ++ shortHello]) :=
  @preread_cut ⟨true, true, true⟩ true true
    [⟨1, shortHello.take 20, by decide, by decide⟩, ⟨1, shortHello.drop 20, by decide, by decide⟩]
    [⟨1, shortHello, by decide, by decide⟩] _ _ rfl (by decide) (by decide) (by decide) (by decide)

end NginxDtls.Preread
