import NginxDtls.RequestPathLoop

/-! The path of an accepted request line. While `ngx_http_parse_request_line` sets no flag, the URI has nothing to decode and
nothing to take away, so that it is left alone for a reason: it is what `ngx_http_parse_complex_uri` would have made of it. -/

namespace NginxDtls.RequestUri

open Checked UnsafeUri RequestLine PathSegments

/-! ### Bytes between two pointers -/

theorem between_self (mem : ℕ → UInt8) (s : ℕ) : between mem s s = [] := by
  rw [between, Nat.sub_self]
  rfl

theorem between_succ (mem : ℕ → UInt8) {s p : ℕ} (h : s ≤ p) : between mem s (p + 1) = between mem s p ++ [mem p] := by
  have hlength : p + 1 - s = (p - s) + 1 := by omega
  have hlast : s + 1 * (p - s) = p := by omega
  rw [between, hlength, List.range'_concat, List.map_append, hlast]
  rfl

theorem between_cons (mem : ℕ → UInt8) {s p : ℕ} (h : s < p) : between mem s p = mem s :: between mem (s + 1) p := by
  have hlength : p - s = (p - (s + 1)) + 1 := by omega
  rw [between, hlength, List.range'_succ]
  rfl

theorem between_append (mem : ℕ → UInt8) {s m p : ℕ} (hs : s ≤ m) (hm : m ≤ p) :
    between mem s p = between mem s m ++ between mem m p := by
  have hlength : p - s = (m - s) + (p - m) := by omega
  have hmiddle : s + 1 * (m - s) = m := by omega
  rw [between, hlength, ← List.range'_append, List.map_append, hmiddle]
  rfl

theorem length_between (mem : ℕ → UInt8) (s p : ℕ) : (between mem s p).length = p - s := by
  rw [between, List.length_map, List.length_range']

/-! ### Paths that are left alone -/

/-- A path without escapes, without dots at the beginning of a segment and with no empty segment but the last, and the
extension of its last segment. -/
structure Untouched (stack : List (List UInt8)) (segment path : List UInt8) (ext : Option (List UInt8)) : Prop where
  text : path = slash :: (closed slash stack ++ segment)
  ext_eq : ext = extension segment
  segments : ∀ s ∈ stack, s ≠ [] ∧ s.head? ≠ some period ∧ slash ∉ s
  first : segment.head? ≠ some period
  noSlash : slash ∉ segment
  plain : ∀ c ∈ path, c ≠ percent ∧ c ≠ question ∧ c ≠ RequestLine.hash

theorem noDots_of_head {segment : List UInt8} (h : segment.head? ≠ some period) :
    segment ≠ [period] ∧ segment ≠ [period, period] :=
  ⟨fun heq => h (by rw [heq]; rfl), fun heq => h (by rw [heq]; rfl)⟩

theorem decodePath_plain {path : List UInt8} (h : ∀ c ∈ path, c ≠ percent) : decodePath path = some path := by
  induction path with
  | nil => rw [decodePath]
  | cons c path ih =>
      unfold decodePath
      rw [if_neg (h c List.mem_cons_self), ih fun c' hc' => h c' (List.mem_cons_of_mem c hc')]
      rfl

/-- The reference leaves such a path alone. -/
theorem Untouched.reference {stack : List (List UInt8)} {segment path : List UInt8} {ext : Option (List UInt8)}
    (h : Untouched stack segment path ext) (merge : Bool) :
    reference merge path.tail = some (path.tail, path.tail) ∧ extension (lastSegment path.tail) = ext := by
  have htail : path.tail = closed slash stack ++ segment := by rw [h.text, List.tail_cons]
  have hplain : ∀ c ∈ path.tail, c ≠ percent := fun c hc => (h.plain c (List.mem_of_mem_tail hc)).1
  have hlast : Proper slash period segment := ⟨h.noSlash, (noDots_of_head h.first).1, (noDots_of_head h.first).2⟩
  have hsettled : ∀ s ∈ stack, Settled slash period merge s := fun s hs => by
    obtain ⟨hne, hhead, hslash⟩ := h.segments s hs
    exact ⟨⟨hslash, (noDots_of_head hhead).1, (noDots_of_head hhead).2⟩, fun _ => hne⟩
  have hnormal := normalise_closed hsettled hlast
  constructor
  · rw [RequestUri.reference, decodePath_plain hplain, Option.bind_some, htail, hnormal]
    rfl
  · rw [htail, lastSegment_closed stack h.noSlash, h.ext_eq]

/-! ### Bytes of a path that is left alone -/

theorem stateOf_untouched {segment : List UInt8} (h : segment.head? ≠ some period) (hne : segment ≠ []) :
    stateOf segment = .usual :=
  stateOf_usual.mpr ⟨hne, (noDots_of_head h).1, (noDots_of_head h).2⟩

variable {stack : List (List UInt8)} {segment path : List UInt8} {ext : Option (List UInt8)}

/-- A byte of the segment. A dot in it starts an extension. -/
theorem Untouched.append (h : Untouched stack segment path ext) {c : UInt8} (hslash : c ≠ slash) (hpercent : c ≠ percent)
    (hquestion : c ≠ question) (hhash : c ≠ RequestLine.hash) (hperiod : c = period → segment ≠ []) :
    Untouched stack (segment ++ [c]) (path ++ [c]) (if c = period then some [] else ext.map (· ++ [c])) where
  text := by rw [h.text, List.cons_append, List.append_assoc]
  ext_eq := by
    rw [extension_append]
    by_cases hne : segment = []
    · subst hne
      have hc : c ≠ period := fun hc => hperiod hc rfl
      have hext : ext = none := h.ext_eq
      rw [if_neg hc, hext]
      rfl
    · rw [if_pos (stateOf_untouched h.first hne), h.ext_eq]
  segments := h.segments
  first := by
    cases segment with
    | nil => exact fun heq => hperiod (Option.some.inj heq) rfl
    | cons c' segment => exact h.first
  noSlash := by
    intro hmem
    rcases List.mem_append.mp hmem with hmem | hmem
    · exact h.noSlash hmem
    · exact hslash (List.mem_singleton.mp hmem).symm
  plain := by
    intro c' hc'
    rcases List.mem_append.mp hc' with hc' | hc'
    · exact h.plain c' hc'
    · rw [List.mem_singleton.mp hc']
      exact ⟨hpercent, hquestion, hhash⟩

/-- A slash behind a segment that is not empty. -/
theorem Untouched.close (h : Untouched stack segment path ext) (hne : segment ≠ []) :
    Untouched (segment :: stack) [] (path ++ [slash]) none where
  text := by rw [h.text, closed, List.append_nil, List.cons_append, List.append_assoc]
  ext_eq := rfl
  segments := by
    intro s hs
    rcases List.mem_cons.mp hs with rfl | hs
    · exact ⟨hne, h.first, h.noSlash⟩
    · exact h.segments s hs
  first := by simp
  noSlash := List.not_mem_nil
  plain := by
    intro c hc
    rcases List.mem_append.mp hc with hc | hc
    · exact h.plain c hc
    · rw [List.mem_singleton.mp hc]
      decide

/-- The slash that a path begins with. -/
theorem untouched_slash : Untouched [] [] [slash] none where
  text := rfl
  ext_eq := rfl
  segments := by simp
  first := by simp
  noSlash := List.not_mem_nil
  plain := by
    intro c hc
    rw [List.mem_singleton.mp hc]
    decide

/-! ### The states of the line -/

/-- No flag sends the URI to `ngx_http_parse_complex_uri`. -/
def NoFlags (r : Request) : Prop := r.complexUri = false ∧ r.quotedUri = false ∧ r.emptyPathInUri = false

/-- Nothing is known of the URI. -/
structure NoUri (r : Request) : Prop where
  flags : NoFlags r
  uriExt : r.uriExt = none
  argsStart : r.argsStart = none

/-- The slash that stands for the path of a URI that ends with its host. -/
def SchemaSlash (mem : ℕ → UInt8) (r : Request) : Prop := ∃ k, r.schemaEnd = some k ∧ mem (k + 1) = slash

/-- A path that has been read up to `p` without a flag. -/
structure PathRead (mem : ℕ → UInt8) (r : Request) (s p : ℕ) (stack : List (List UInt8)) (segment : List UInt8) : Prop where
  uriStart : r.uriStart = some s
  lt : s < p
  flags : NoFlags r
  argsStart : r.argsStart = none
  extLe : ∀ k, r.uriExt = some k → k ≤ p
  untouched : Untouched stack segment (between mem s p) (r.uriExt.map (between mem · p))

/-- A URI that has been read up to `e`. -/
structure UriRead (mem : ℕ → UInt8) (r : Request) (s e : ℕ) : Prop where
  uriStart : r.uriStart = some s
  lt : s < e
  first : mem s = if r.emptyPathInUri then question else slash
  args : ∀ a, r.argsStart = some a → s < a ∧ a ≤ e ∧ mem (a - 1) = question ∧
    ∀ c ∈ between mem s (a - 1), c ≠ question ∧ c ≠ RequestLine.hash
  untouched : NoFlags r → RequestLine.hash ∉ between mem s e ∧ ∃ stack segment,
    Untouched stack segment (between mem s (uriLast r e)) (r.uriExt.map (between mem · (uriLast r e)))

/-- What holds before the byte at `p`. -/
def LineInv (mem : ℕ → UInt8) (p : ℕ) (r : Request) : Prop :=
  match r.state with
  | .start | .method | .spacesBeforeUri | .schema => NoUri r
  | .schemaSlash => NoUri r ∧ ∃ k, r.schemaEnd = some k ∧ p = k + 1
  | .schemaSlashSlash | .hostStart | .host | .hostEnd | .hostIpLiteral | .port => NoUri r ∧ SchemaSlash mem r
  | .afterSlashInUri => ∃ s stack segment, PathRead mem r s p stack segment ∧ ∀ c ∈ segment, c = RequestLine.plus
  | .checkUri => ∃ s stack segment, PathRead mem r s p stack segment ∧ segment ≠ []
  | .uri => ∃ s, UriRead mem r s p ∧ (NoFlags r → r.argsStart ≠ none)
  | _ => ∃ s e, UriRead mem r s e ∧ r.uriEnd = some e

/-- What holds behind the line feed. -/
def UriDone (mem : ℕ → UInt8) (r : Request) : Prop := ∃ s e, UriRead mem r s e ∧ r.uriEnd = some e

theorem lineInv_afterSlash {mem : ℕ → UInt8} {p : ℕ} {r : Request} (h : r.state = .afterSlashInUri) : LineInv mem p r ↔
    ∃ s stack segment, PathRead mem r s p stack segment ∧ ∀ c ∈ segment, c = RequestLine.plus := by
  rw [LineInv, h]

theorem lineInv_check {mem : ℕ → UInt8} {p : ℕ} {r : Request} (h : r.state = .checkUri) : LineInv mem p r ↔
    ∃ s stack segment, PathRead mem r s p stack segment ∧ segment ≠ [] := by
  rw [LineInv, h]

theorem lineInv_uri {mem : ℕ → UInt8} {p : ℕ} {r : Request} (h : r.state = .uri) : LineInv mem p r ↔
    ∃ s, UriRead mem r s p ∧ (NoFlags r → r.argsStart ≠ none) := by
  rw [LineInv, h]

/-- A byte at `p` keeps the invariant. -/
def Kept (mem : ℕ → UInt8) (p : ℕ) : ByteResult → Prop
  | .next r => LineInv mem (p + 1) r
  | .done r => UriDone mem r
  | .error _ => True

/-! ### One byte of the line -/

variable {mem : ℕ → UInt8} {p : ℕ} {r : Request}

/-- The end of the path that was read so far. -/
theorem PathRead.uriRead {s : ℕ} (h : PathRead mem r s p stack segment) : UriRead mem r s p where
  uriStart := h.uriStart
  lt := h.lt
  first := by
    have hfirst := h.untouched.text
    rw [between_cons mem h.lt] at hfirst
    rw [h.flags.2.2]
    exact (List.cons.inj hfirst).1
  args := by
    intro a ha
    rw [h.argsStart] at ha
    cases ha
  untouched := by
    intro _
    refine ⟨fun hmem => (h.untouched.plain _ hmem).2.2 rfl, stack, segment, ?_⟩
    have hend : uriLast r p = p := by rw [uriLast, h.argsStart]
    rw [hend]
    exact h.untouched

/-- A byte of the path that is neither a slash nor a dot. -/
theorem PathRead.next {s : ℕ} (h : PathRead mem r s p stack segment) (hslash : mem p ≠ slash) (hpercent : mem p ≠ percent)
    (hquestion : mem p ≠ question) (hhash : mem p ≠ RequestLine.hash) (hperiod : mem p ≠ period) (state : LineState)
    (plusInUri : Bool) :
    PathRead mem { r with state := state, plusInUri := plusInUri } s (p + 1) stack (segment ++ [mem p]) where
  uriStart := h.uriStart
  lt := h.lt.trans (Nat.lt_succ_self p)
  flags := h.flags
  argsStart := h.argsStart
  extLe := fun k hk => (h.extLe k hk).trans (Nat.le_succ p)
  untouched := by
    have happend := h.untouched.append hslash hpercent hquestion hhash (fun hc => absurd hc hperiod)
    rw [if_neg hperiod, Option.map_map] at happend
    rw [between_succ mem h.lt.le]
    show Untouched _ _ _ (r.uriExt.map _)
    cases hext : r.uriExt with
    | none =>
        rw [hext] at happend
        exact happend
    | some k =>
        rw [hext] at happend
        rw [Option.map_some, between_succ mem (h.extLe k hext)]
        exact happend

/-- A dot inside of a segment. -/
theorem PathRead.dot {s : ℕ} (h : PathRead mem r s p stack segment) (hne : segment ≠ []) (hperiod : mem p = period) :
    PathRead mem { r with uriExt := some (p + 1) } s (p + 1) stack (segment ++ [mem p]) where
  uriStart := h.uriStart
  lt := h.lt.trans (Nat.lt_succ_self p)
  flags := h.flags
  argsStart := h.argsStart
  extLe := fun k hk => (Option.some.inj hk).symm.le
  untouched := by
    have happend := h.untouched.append (c := mem p) (by rw [hperiod]; decide) (by rw [hperiod]; decide)
      (by rw [hperiod]; decide) (by rw [hperiod]; decide) (fun _ => hne)
    rw [if_pos hperiod] at happend
    rw [between_succ mem h.lt.le, Option.map_some, between_self]
    exact happend

/-- A slash behind a segment. -/
theorem PathRead.slash {s : ℕ} (h : PathRead mem r s p stack segment) (hne : segment ≠ []) (hslash : mem p = slash) :
    PathRead mem { r with uriExt := none, state := .afterSlashInUri } s (p + 1) (segment :: stack) [] where
  uriStart := h.uriStart
  lt := h.lt.trans (Nat.lt_succ_self p)
  flags := h.flags
  argsStart := h.argsStart
  extLe := by simp
  untouched := by
    rw [between_succ mem h.lt.le, hslash]
    exact h.untouched.close hne

/-- Where a flag is set, all that counts is how the URI begins. -/
theorem PathRead.flagged {s : ℕ} (h : PathRead mem r s p stack segment) {r' : Request} (hstart : r'.uriStart = r.uriStart)
    (hargs : r'.argsStart = r.argsStart) (hempty : r'.emptyPathInUri = r.emptyPathInUri) (hstate : r'.state = .uri)
    (hflags : ¬NoFlags r') : Kept mem p (.next r') := by
  have hread := h.uriRead
  have hread' : UriRead mem r' s (p + 1) := by
    refine ⟨hstart.trans h.uriStart, h.lt.trans (Nat.lt_succ_self p), ?_, ?_, fun hno => absurd hno hflags⟩
    · rw [hempty]
      exact hread.first
    · intro a ha
      rw [hargs, h.argsStart] at ha
      cases ha
  exact (lineInv_uri hstate).mpr ⟨s, hread', fun hno => absurd hno hflags⟩

/-- The question mark behind a path. -/
theorem PathRead.question {s : ℕ} (h : PathRead mem r s p stack segment) (hquestion : mem p = question) :
    Kept mem p (.next { r with argsStart := some (p + 1), state := .uri }) := by
  have hread := h.uriRead
  refine ⟨s, ⟨h.uriStart, h.lt.trans (Nat.lt_succ_self p), hread.first, ?_, ?_⟩, fun _ => nofun⟩
  · intro a ha
    obtain rfl := Option.some.inj ha
    refine ⟨h.lt.trans (Nat.lt_succ_self p), Nat.le_refl _, hquestion, fun c hc => (h.untouched.plain c hc).2⟩
  · intro _
    refine ⟨fun hmem => ?_, stack, segment, h.untouched⟩
    rw [between_succ mem h.lt.le, List.mem_append] at hmem
    rcases hmem with hmem | hmem
    · exact (h.untouched.plain _ hmem).2.2 rfl
    · rw [List.mem_singleton, hquestion] at hmem
      exact absurd hmem (by decide)

/-- Two requests that agree in what was read of the URI. -/
structure SameUri (r r' : Request) : Prop where
  uriStart : r'.uriStart = r.uriStart
  argsStart : r'.argsStart = r.argsStart
  uriExt : r'.uriExt = r.uriExt
  complexUri : r'.complexUri = r.complexUri
  quotedUri : r'.quotedUri = r.quotedUri
  emptyPathInUri : r'.emptyPathInUri = r.emptyPathInUri

theorem UriRead.of_same {s e : ℕ} (h : UriRead mem r s e) {r' : Request} (hsame : SameUri r r') : UriRead mem r' s e := by
  obtain ⟨hstart, hargs, hext, hcomplex, hquoted, hempty⟩ := hsame
  have hflags : NoFlags r' ↔ NoFlags r := by rw [NoFlags, NoFlags, hcomplex, hquoted, hempty]
  refine ⟨hstart.trans h.uriStart, h.lt, by rw [hempty]; exact h.first, fun a ha => h.args a (hargs ▸ ha), fun hno => ?_⟩
  have hend : uriLast r' e = uriLast r e := by rw [uriLast, uriLast, hargs]
  rw [hend, hext]
  exact h.untouched (hflags.mp hno)

/-- The bytes that end a URI. -/
theorem uriEndByte_kept {s : ℕ} (h : UriRead mem r s p) {ch : UInt8} {other : ByteResult} (hother : Kept mem p other) :
    Kept mem p (uriEndByte r p ch other) := by
  rw [uriEndByte]
  split_ifs
  · exact ⟨s, p, h.of_same ⟨rfl, rfl, rfl, rfl, rfl, rfl⟩, rfl⟩
  · exact ⟨s, p, h.of_same ⟨rfl, rfl, rfl, rfl, rfl, rfl⟩, rfl⟩
  · exact ⟨s, p, h.of_same ⟨rfl, rfl, rfl, rfl, rfl, rfl⟩, rfl⟩
  · exact hother

/-- A byte of the path in the state `sw_check_uri`. -/
theorem PathRead.check {s : ℕ} (h : PathRead mem r s p stack segment) (hslash : mem p ≠ UnsafeUri.slash)
    (hpercent : mem p ≠ percent) (hquestion : mem p ≠ UnsafeUri.question) (hhash : mem p ≠ RequestLine.hash)
    (hperiod : mem p ≠ period) (plusInUri : Bool) :
    Kept mem p (.next { r with state := .checkUri, plusInUri := plusInUri }) :=
  ⟨s, stack, segment ++ [mem p], h.next hslash hpercent hquestion hhash hperiod .checkUri plusInUri, by simp⟩

/-- `sw_after_slash_in_uri` -/
theorem afterSlashByte_kept {s : ℕ} (h : PathRead mem r s p stack segment) (hplus : ∀ c ∈ segment, c = RequestLine.plus)
    (hstate : r.state = .afterSlashInUri) : Kept mem p (afterSlashByte r p (mem p)) := by
  rw [afterSlashByte]
  by_cases husual : isUsual (mem p) = true
  · obtain ⟨hslash, hperiod, hpercent, hquestion, hhash, -⟩ := usual_ne husual
    rw [if_pos husual]
    exact h.check hslash hpercent hquestion hhash hperiod r.plusInUri
  rw [if_neg husual]
  refine uriEndByte_kept h.uriRead ?_
  split_ifs with hperiod hpercent hslash hquestion hhash hisPlus hcontrol
  · exact h.flagged rfl rfl rfl rfl (fun hno => Bool.false_ne_true hno.1.symm)
  · exact h.flagged rfl rfl rfl rfl (fun hno => Bool.false_ne_true hno.2.1.symm)
  · exact h.flagged rfl rfl rfl rfl (fun hno => Bool.false_ne_true hno.1.symm)
  · exact h.question hquestion
  · exact h.flagged rfl rfl rfl rfl (fun hno => Bool.false_ne_true hno.1.symm)
  · have hnext := h.next hslash hpercent hquestion hhash hperiod r.state true
    refine (lineInv_afterSlash (r := { r with plusInUri := true }) hstate).mpr ⟨s, stack, segment ++ [mem p], hnext, fun c hc => ?_⟩
    rcases List.mem_append.mp hc with hc | hc
    · exact hplus c hc
    · rw [List.mem_singleton.mp hc, hisPlus]
  · exact trivial
  · exact h.check hslash hpercent hquestion hhash hperiod r.plusInUri

/-- `sw_check_uri` -/
theorem checkUriByte_kept {s : ℕ} (h : PathRead mem r s p stack segment) (hne : segment ≠ []) (hstate : r.state = .checkUri) :
    Kept mem p (checkUriByte r p (mem p)) := by
  have hcheck : ∀ plusInUri : Bool, mem p ≠ UnsafeUri.slash → mem p ≠ percent → mem p ≠ UnsafeUri.question →
      mem p ≠ RequestLine.hash → mem p ≠ period → Kept mem p (.next { r with plusInUri := plusInUri }) := by
    intro plusInUri hslash hpercent hquestion hhash hperiod
    have hnext := h.next hslash hpercent hquestion hhash hperiod r.state plusInUri
    exact (lineInv_check (r := { r with plusInUri := plusInUri }) hstate).mpr ⟨s, stack, segment ++ [mem p], hnext, by simp⟩
  rw [checkUriByte]
  by_cases husual : isUsual (mem p) = true
  · obtain ⟨hslash, hperiod, hpercent, hquestion, hhash, -⟩ := usual_ne husual
    rw [if_pos husual]
    exact hcheck r.plusInUri hslash hpercent hquestion hhash hperiod
  rw [if_neg husual]
  by_cases hslash : mem p = UnsafeUri.slash
  · rw [if_pos hslash]
    exact ⟨s, segment :: stack, [], h.slash hne hslash, by simp⟩
  rw [if_neg hslash]
  by_cases hperiod : mem p = period
  · rw [if_pos hperiod]
    exact (lineInv_check (r := { r with uriExt := some (p + 1) }) hstate).mpr
      ⟨s, stack, segment ++ [mem p], h.dot hne hperiod, by simp⟩
  rw [if_neg hperiod]
  refine uriEndByte_kept h.uriRead ?_
  split_ifs with hpercent hquestion hhash hisPlus hcontrol
  · exact h.flagged rfl rfl rfl rfl (fun hno => Bool.false_ne_true hno.2.1.symm)
  · exact h.question hquestion
  · exact h.flagged rfl rfl rfl rfl (fun hno => Bool.false_ne_true hno.1.symm)
  · exact hcheck true hslash hpercent hquestion hhash hperiod
  · exact trivial
  · exact hcheck r.plusInUri hslash hpercent hquestion hhash hperiod

/-- A byte behind the question mark, or anywhere behind a byte that has set a flag. -/
theorem UriRead.next {s : ℕ} (h : UriRead mem r s p) (hargs : NoFlags r → r.argsStart ≠ none)
    (hhash : mem p ≠ RequestLine.hash ∨ ¬NoFlags r) (state : LineState) : UriRead mem { r with state := state } s (p + 1) where
  uriStart := h.uriStart
  lt := h.lt.trans (Nat.lt_succ_self p)
  first := h.first
  args := by
    intro a ha
    obtain ⟨hs, hp, hquestion, hplain⟩ := h.args a ha
    exact ⟨hs, hp.trans (Nat.le_succ p), hquestion, hplain⟩
  untouched := by
    intro hno
    obtain ⟨hnone, stack, segment, huntouched⟩ := h.untouched hno
    have hend : uriLast { r with state := state } (p + 1) = uriLast r p := by
      cases hstart : r.argsStart with
      | none => exact absurd hstart (hargs hno)
      | some a => rw [uriLast, uriLast, hstart]
    rw [hend]
    refine ⟨fun hmem => ?_, stack, segment, huntouched⟩
    rw [between_succ mem h.lt.le, List.mem_append] at hmem
    rcases hmem with hmem | hmem
    · exact hnone hmem
    · exact hhash.elim (fun hne => hne (List.mem_singleton.mp hmem).symm) fun hflags => hflags hno

/-- `sw_uri` -/
theorem uriByte_kept {s : ℕ} (h : UriRead mem r s p) (hargs : NoFlags r → r.argsStart ≠ none) (hstate : r.state = .uri) :
    Kept mem p (uriByte r p (mem p)) := by
  have hkeep : mem p ≠ RequestLine.hash → Kept mem p (.next r) := fun hhash =>
    (lineInv_uri hstate).mpr ⟨s, h.next hargs (.inl hhash) r.state, hargs⟩
  rw [uriByte]
  by_cases husual : isUsual (mem p) = true
  · rw [if_pos husual]
    exact hkeep (usual_ne husual).2.2.2.2.1
  rw [if_neg husual]
  refine uriEndByte_kept h ?_
  split_ifs with hhash hcontrol
  · have hflags : ¬NoFlags { r with complexUri := true } := fun hno => Bool.false_ne_true hno.1.symm
    refine (lineInv_uri (r := { r with complexUri := true }) hstate).mpr ⟨s, ⟨h.uriStart, h.lt.trans (Nat.lt_succ_self p),
      h.first, ?_, fun hno => absurd hno hflags⟩, fun hno => absurd hno hflags⟩
    intro a ha
    obtain ⟨hs, hp, hquestion, hplain⟩ := h.args a ha
    exact ⟨hs, hp.trans (Nat.le_succ p), hquestion, hplain⟩
  · exact trivial
  · exact hkeep hhash

/-! ### The authority -/

theorem noUri_pathRead (h : NoUri r) (hslash : mem p = UnsafeUri.slash) :
    Kept mem p (.next { r with uriStart := some p, state := .afterSlashInUri }) := by
  refine ⟨p, [], [], ⟨rfl, Nat.lt_succ_self p, h.flags, h.argsStart, ?_, ?_⟩, by simp⟩
  · intro k hk
    change r.uriExt = some k at hk
    rw [h.uriExt] at hk
    cases hk
  · show Untouched [] [] _ (r.uriExt.map _)
    rw [between_succ mem (Nat.le_refl p), between_self, hslash, h.uriExt]
    exact untouched_slash

theorem authorityEnd_kept (h : NoUri r) (hschema : SchemaSlash mem r) : Kept mem p (authorityEnd r p (mem p)) := by
  rw [authorityEnd]
  split_ifs with hslash hquestion
  · exact noUri_pathRead (r := r) h hslash
  · refine ⟨p, ⟨rfl, Nat.lt_succ_self p, hquestion, ?_, fun hno => ?_⟩, fun _ => nofun⟩
    · intro a ha
      obtain rfl := Option.some.inj ha
      refine ⟨Nat.lt_succ_self p, Nat.le_refl _, hquestion, ?_⟩
      rw [Nat.add_sub_cancel, between_self]
      simp
    · exact absurd hno.2.2 Bool.false_ne_true.symm
  · obtain ⟨k, hk, hslash'⟩ := hschema
    refine ⟨k + 1, k + 2, ⟨?_, Nat.lt_succ_self _, ?_, ?_, fun _ => ?_⟩, ?_⟩
    · show r.schemaEnd.map (· + 1) = some (k + 1)
      rw [hk]
      rfl
    · show mem (k + 1) = if r.emptyPathInUri then UnsafeUri.question else UnsafeUri.slash
      rw [h.flags.2.2]
      exact hslash'
    · intro a ha
      change r.argsStart = some a at ha
      rw [h.argsStart] at ha
      cases ha
    · have hbetween : between mem (k + 1) (k + 2) = [UnsafeUri.slash] := by
        rw [between_succ mem (Nat.le_refl (k + 1)), between_self, hslash']
        rfl
      have hend : uriLast r (k + 2) = k + 2 := by rw [uriLast, h.argsStart]
      refine ⟨?_, [], [], ?_⟩
      · rw [hbetween]
        decide
      · show Untouched [] [] (between mem (k + 1) (uriLast r (k + 2))) (r.uriExt.map _)
        rw [hend, hbetween, h.uriExt]
        exact untouched_slash
    · show r.schemaEnd.map (· + 2) = some (k + 2)
      rw [hk]
      rfl
  · exact trivial

theorem hostEndByte_kept (h : NoUri r) (hschema : SchemaSlash mem r) : Kept mem p (hostEndByte r p (mem p)) := by
  have h' : NoUri { r with hostEnd := some p } := ⟨h.flags, h.uriExt, h.argsStart⟩
  rw [hostEndByte]
  split_ifs
  · exact ⟨⟨h.flags, h.uriExt, h.argsStart⟩, hschema⟩
  · exact authorityEnd_kept h' hschema

theorem hostByte_kept (h : NoUri r) (hschema : SchemaSlash mem r) (hstate : r.state = .host) :
    Kept mem p (hostByte r p (mem p)) := by
  rw [hostByte]
  split_ifs
  · show LineInv mem (p + 1) r
    rw [LineInv, hstate]
    exact ⟨h, hschema⟩
  · exact hostEndByte_kept h hschema

/-- **A byte of the request line.** -/
theorem lineByte_kept (h : LineInv mem p r) : Kept mem p (lineByte mem p r) := by
  obtain ⟨state, method, requestStart, methodEnd, schemaStart, schemaEnd, hostStart, hostEnd, portEnd, uriStart, uriEnd, uriExt,
    argsStart, httpProtocol, requestEnd, complexUri, quotedUri, plusInUri, emptyPathInUri, httpMajor, httpMinor,
    httpVersion⟩ := r
  cases state with
  | start | method =>
      obtain ⟨hflags, hext, hargs⟩ : NoUri _ := h
      simp only [lineByte]
      split_ifs
      · exact ⟨hflags, hext, hargs⟩
      · exact trivial
      · exact ⟨hflags, hext, hargs⟩
  | spacesBeforeUri =>
      obtain ⟨hflags, hext, hargs⟩ : NoUri _ := h
      simp only [lineByte]
      split_ifs with hslash
      · exact noUri_pathRead ⟨hflags, hext, hargs⟩ hslash
      · exact ⟨hflags, hext, hargs⟩
      · exact ⟨hflags, hext, hargs⟩
      · exact trivial
  | schema =>
      obtain ⟨hflags, hext, hargs⟩ : NoUri _ := h
      simp only [lineByte]
      split_ifs
      · exact ⟨hflags, hext, hargs⟩
      · exact ⟨hflags, hext, hargs⟩
      · exact ⟨⟨hflags, hext, hargs⟩, p, rfl, rfl⟩
      · exact trivial
  | schemaSlash =>
      obtain ⟨⟨hflags, hext, hargs⟩, k, hk, hp⟩ := h
      simp only [lineByte, expect]
      split_ifs with hslash
      · exact ⟨⟨hflags, hext, hargs⟩, k, hk, by rw [← hp, hslash]⟩
      · exact trivial
  | schemaSlashSlash =>
      obtain ⟨⟨hflags, hext, hargs⟩, hschema⟩ := h
      simp only [lineByte, expect]
      split_ifs
      · exact ⟨⟨hflags, hext, hargs⟩, hschema⟩
      · exact trivial
  | hostStart =>
      obtain ⟨⟨hflags, hext, hargs⟩, hschema⟩ := h
      simp only [lineByte]
      split_ifs
      · exact ⟨⟨hflags, hext, hargs⟩, hschema⟩
      · exact hostByte_kept ⟨hflags, hext, hargs⟩ hschema rfl
  | host =>
      obtain ⟨hno, hschema⟩ := h
      exact hostByte_kept hno hschema rfl
  | hostEnd =>
      obtain ⟨hno, hschema⟩ := h
      exact hostEndByte_kept hno hschema
  | hostIpLiteral =>
      obtain ⟨⟨hflags, hext, hargs⟩, hschema⟩ := h
      simp only [lineByte]
      split_ifs
      · exact ⟨⟨hflags, hext, hargs⟩, hschema⟩
      · exact ⟨⟨hflags, hext, hargs⟩, hschema⟩
      · exact ⟨⟨hflags, hext, hargs⟩, hschema⟩
      · exact ⟨⟨hflags, hext, hargs⟩, hschema⟩
      · exact trivial
  | port =>
      obtain ⟨⟨hflags, hext, hargs⟩, hschema⟩ := h
      simp only [lineByte]
      split_ifs
      · exact ⟨⟨hflags, hext, hargs⟩, hschema⟩
      · exact authorityEnd_kept ⟨hflags, hext, hargs⟩ hschema
  | afterSlashInUri =>
      obtain ⟨s, stack, segment, hread, hplus⟩ := h
      exact afterSlashByte_kept hread hplus rfl
  | checkUri =>
      obtain ⟨s, stack, segment, hread, hne⟩ := h
      exact checkUriByte_kept hread hne rfl
  | uri =>
      obtain ⟨s, hread, hargs⟩ := h
      exact uriByte_kept hread hargs rfl
  | http09 | httpH | httpHT | httpHTT | httpHTTP | firstMajorDigit | majorDigit | firstMinorDigit | minorDigit
  | spacesAfterDigit | almostDone =>
      -- behind the URI nothing of it changes
      obtain ⟨s, e, hread, hend⟩ := h
      have hkeep : ∀ r', SameUri _ r' → r'.uriEnd = uriEnd → UriDone mem r' := fun r' hsame hsameEnd =>
        ⟨s, e, hread.of_same hsame, hsameEnd.trans hend⟩
      simp only [lineByte, expect]
      split_ifs <;> first | exact trivial | exact hkeep _ ⟨rfl, rfl, rfl, rfl, rfl, rfl⟩ rfl

/-! ### Accepted lines -/

theorem lineDone_ok {pos : ℕ} {r' : Request} (h : UriDone mem r) (hok : lineDone r p = .ok pos r') : UriDone mem r' := by
  obtain ⟨s, e, hread, hend⟩ := h
  rw [lineDone] at hok
  split_ifs at hok
  · cases hok
    exact ⟨s, e, hread.of_same ⟨rfl, rfl, rfl, rfl, rfl, rfl⟩, hend⟩
  · cases hok
    exact ⟨s, e, hread.of_same ⟨rfl, rfl, rfl, rfl, rfl, rfl⟩, hend⟩

theorem parseLoop_ok {left pos : ℕ} {r' : Request} (h : LineInv mem p r) (hok : parseLoop mem left p r = .ok pos r') :
    UriDone mem r' := by
  induction left generalizing p r with
  | zero => cases hok
  | succ left ih =>
      have hkept := lineByte_kept h
      rw [parseLoop] at hok
      cases hbyte : lineByte mem p r with
      | next r =>
          rw [hbyte] at hok hkept
          exact ih hkept hok
      | done r =>
          rw [hbyte] at hok hkept
          exact lineDone_ok hkept hok
      | error rc =>
          rw [hbyte] at hok
          cases hok

theorem pathOf_append {path : List UInt8} (tail : List UInt8) (hpath : ∀ c ∈ path, c ≠ question ∧ c ≠ RequestLine.hash)
    (htail : ∀ c ∈ tail.head?, c = question ∨ c = RequestLine.hash) :
    pathOf (path ++ tail) = path ∧ (path ++ tail).dropWhile inPath = tail := by
  have hall : ∀ c ∈ path, inPath c = true := fun c hc => decide_eq_true (hpath c hc)
  rw [pathOf, List.takeWhile_append_of_pos hall, List.dropWhile_append_of_pos hall]
  cases tail with
  | nil => exact ⟨List.append_nil path, rfl⟩
  | cons c rest =>
      have hc : ¬inPath c = true := fun hc => by
        obtain ⟨hquestion, hhash⟩ := of_decide_eq_true hc
        exact (htail c rfl).elim hquestion hhash
      rw [List.takeWhile_cons_of_neg hc, List.append_nil]
      exact ⟨rfl, List.dropWhile_cons_of_neg hc⟩

/-- A URI is its path and what begins with a question mark or a hash. -/
theorem exists_path (uri : List UInt8) : ∃ path tail, uri = path ++ tail ∧
    (∀ c ∈ path, c ≠ question ∧ c ≠ RequestLine.hash) ∧ ∀ c ∈ tail.head?, c = question ∨ c = RequestLine.hash := by
  refine ⟨uri.takeWhile inPath, uri.dropWhile inPath, List.takeWhile_append_dropWhile.symm, fun c hc => ?_, fun c hc => ?_⟩
  · exact of_decide_eq_true (List.mem_takeWhile_imp (p := inPath) hc)
  · have hnot : inPath c = false := by
      have hhead := List.head?_dropWhile_not inPath uri
      rw [Option.mem_def.mp hc] at hhead
      exact hhead
    by_contra hne
    exact Bool.false_ne_true (hnot.symm.trans (decide_eq_true (not_or.mp hne)))

/-- What a URI means: its normalised path with the extension, and its arguments. -/
def meaning (merge : Bool) (uri : List UInt8) : Option (List UInt8 × List UInt8 × List UInt8) :=
  (reference merge (pathOf uri).tail).map fun result =>
    (slash :: result.1, (extension (lastSegment result.1)).getD [], argsOf uri)

/-- The URI that is handed to `ngx_http_parse_complex_uri`. -/
theorem parsed_meaning {merge : Bool} {size : ℕ} {emptyPathInUri : Bool} {uri : List UInt8} (plusInUri quotedUri : Bool)
    (hfirst : uri.head? = some (if emptyPathInUri then question else slash))
    (hsize : (pathOf uri).length + (if emptyPathInUri then 1 else 0) ≤ size) :
    (ngxHttpParseComplexUri merge size emptyPathInUri plusInUri quotedUri uri).map
        (fun c => (c.uri, c.exten, argsFrom c.args c.argsStart)) =
      match meaning merge uri with
      | none => throw (.returned ())
      | some m => pure m := by
  obtain ⟨path, tail, rfl, hpath, htail⟩ := exists_path uri
  obtain ⟨hpathOf, hdrop⟩ := pathOf_append tail hpath htail
  have hargs : ∀ st : Scan, argsFrom (complexEnd st (argsPart tail)).args (complexEnd st (argsPart tail)).argsStart =
      argsOf (path ++ tail) := fun st => by
    cases tail <;> rw [argsFrom_complexEnd, argsOf, hdrop]
  have huri : ∀ st : Scan, (complexEnd st (argsPart tail)).uri = st.data ∧
      (complexEnd st (argsPart tail)).exten = (st.uriExt.map st.data.drop).getD [] := fun st => by
    cases argsPart tail with
    | none => exact ⟨rfl, rfl⟩
    | some rest =>
        rw [complexEnd]
        split_ifs <;> exact ⟨rfl, rfl⟩
  rw [hpathOf] at hsize
  rw [meaning, hpathOf]
  cases emptyPathInUri with
  | true =>
      obtain rfl : path = [] := by
        cases path with
        | nil => rfl
        | cons c path => exact absurd (Option.some.inj hfirst) (hpath c List.mem_cons_self).1
      have hreference : reference merge [] = some ([], []) := by
        cases merge <;> rfl
      obtain ⟨hdata, hext⟩ := huri ⟨.plain .usual, [slash], none, plusInUri, quotedUri⟩
      rw [List.tail_nil, hreference, List.nil_append, ngxHttpParseComplexUri_empty merge plusInUri quotedUri htail
        (by simp only [List.length_nil, if_true] at hsize; exact hsize)]
      show pure (_, _, _) = (pure (_, _, _) : Checked Unit _)
      rw [hdata, hext, hargs]
      rfl
  | false =>
      cases path with
      | nil =>
          exfalso
          rcases htail slash hfirst with hslash | hslash <;> exact absurd hslash (by decide)
      | cons c path =>
          obtain rfl : c = slash := Option.some.inj hfirst
          have hparsed := ngxHttpParseComplexUri_path merge size plusInUri quotedUri
            (fun c hc => hpath c (List.mem_cons_of_mem slash hc)) htail (by simpa using hsize)
          rw [List.tail_cons, List.cons_append]
          cases hreference : reference merge path with
          | none =>
              rw [hreference] at hparsed
              rw [hparsed]
              rfl
          | some result =>
              rw [hreference] at hparsed
              obtain ⟨st, hparse, hdata, hext, -⟩ := hparsed
              rw [hparse]
              show pure (_, _, _) = (pure (_, _, _) : Checked Unit _)
              rw [(huri st).1, (huri st).2, hargs, hdata, ← hext, hdata]
              rfl

/-- A URI with arguments. -/
theorem UriRead.split {s e a : ℕ} (h : UriRead mem r s e) (ha : r.argsStart = some a) :
    between mem s e = between mem s (a - 1) ++ UnsafeUri.question :: between mem a e := by
  obtain ⟨hs, hle, hquestion, -⟩ := h.args a ha
  rw [between_append mem (show s ≤ a - 1 by omega) (show a - 1 ≤ e by omega), between_cons mem (show a - 1 < e by omega),
    hquestion, Nat.sub_add_cancel (by omega)]

/-- The URI that is left alone. -/
theorem untouched_meaning (merge : Bool) {s e : ℕ} (h : UriRead mem r s e) (hno : NoFlags r) :
    meaning merge (between mem s e) =
      some (between mem s (uriLast r e), (r.uriExt.map (between mem · (uriLast r e))).getD [],
        argsFrom [] (r.argsStart.map (between mem · e))) := by
  obtain ⟨hhash, stack, segment, huntouched⟩ := h.untouched hno
  have hpath : ∀ c ∈ between mem s (uriLast r e), c ≠ UnsafeUri.question ∧ c ≠ RequestLine.hash := fun c hc =>
    (huntouched.plain c hc).2
  have hslash : UnsafeUri.slash :: (between mem s (uriLast r e)).tail = between mem s (uriLast r e) := by
    rw [huntouched.text, List.tail_cons]
  obtain ⟨hreference, hext⟩ := huntouched.reference merge
  -- the URI is the path, or the path, a question mark and the arguments
  have hparts : pathOf (between mem s e) = between mem s (uriLast r e) ∧
      argsOf (between mem s e) = argsFrom [] (r.argsStart.map (between mem · e)) := by
    cases hargs : r.argsStart with
    | none =>
        have hend : uriLast r e = e := by rw [uriLast, hargs]
        rw [hend] at hpath ⊢
        have happend := pathOf_append [] hpath (by simp)
        rw [List.append_nil] at happend
        exact ⟨happend.1, by rw [argsOf, happend.2]; rfl⟩
    | some a =>
        have hend : uriLast r e = a - 1 := by rw [uriLast, hargs]
        have hnone : ∀ c ∈ between mem a e, decide (c ≠ RequestLine.hash) = true := fun c hc => by
          refine decide_eq_true fun heq => hhash ?_
          rw [h.split hargs, ← heq]
          exact List.mem_append_right _ (List.mem_cons_of_mem _ hc)
        rw [hend] at hpath ⊢
        have happend := pathOf_append (UnsafeUri.question :: between mem a e) hpath
          (fun c hc => .inl (Option.some.inj hc).symm)
        rw [h.split hargs]
        refine ⟨happend.1, ?_⟩
        rw [argsOf, happend.2]
        show (if UnsafeUri.question = UnsafeUri.question then _ else []) = argsFrom [] (some (between mem a e))
        rw [if_pos rfl, List.takeWhile_eq_self_iff.mpr hnone, argsFrom]
        split_ifs with hnil
        · exact hnil
        · rfl
  rw [meaning, hparts.1, hreference, Option.map_some, hslash, hext, hparts.2]

/-- The memory that is allocated for a decoded path is as long as the path. -/
theorem UriRead.length_pathOf {s e : ℕ} (h : UriRead mem r s e) : (pathOf (between mem s e)).length ≤ uriLast r e - s := by
  cases hargs : r.argsStart with
  | none =>
      rw [uriLast, hargs, ← length_between mem s e]
      exact (List.takeWhile_prefix _).length_le
  | some a =>
      obtain ⟨-, -, -, hpath⟩ := h.args a hargs
      have happend := pathOf_append (UnsafeUri.question :: between mem a e) hpath
        (fun c hc => .inl (Option.some.inj hc).symm)
      rw [uriLast, hargs, h.split hargs, happend.1, length_between]

/-- **Paths are normalised.** Of every request line that is accepted, `ngx_http_process_request_uri` makes the normalised
path with its extension, and the arguments, and it rejects the others: those with a path that cannot be decoded and those
with a path that goes above its root. -/
theorem request_path {pos last pos' : ℕ} (merge : Bool)
    (h : ngxHttpParseRequestLine mem pos last Request.new = .ok pos' r) :
    (ngxHttpProcessRequestUri mem merge r).map (fun f => (f.uri, f.exten, f.args)) =
      match meaning merge (between mem (r.uriStart.getD 0) (r.uriEnd.getD 0)) with
      | none => throw (.returned ())
      | some m => pure m := by
  have hnew : LineInv mem pos Request.new := ⟨⟨rfl, rfl, rfl⟩, rfl, rfl⟩
  obtain ⟨s, e, hread, hend⟩ := parseLoop_ok hnew h
  rw [hread.uriStart, hend, Option.getD_some, Option.getD_some]
  by_cases hno : NoFlags r
  · have hflags : ¬(r.complexUri = true ∨ r.quotedUri = true ∨ r.emptyPathInUri = true) := by
      rw [hno.1, hno.2.1, hno.2.2]
      decide
    rw [untouched_meaning merge hread hno]
    simp only [ngxHttpProcessRequestUri, hread.uriStart, hend, Option.getD_some, if_neg hflags]
    show pure (_, _, _) = (pure (_, _, _) : Checked Unit _)
    cases r.uriExt <;> rfl
  · have hflags : r.complexUri = true ∨ r.quotedUri = true ∨ r.emptyPathInUri = true := by
      by_contra hnone
      obtain ⟨hcomplex, hnone⟩ := not_or.mp hnone
      obtain ⟨hquoted, hempty⟩ := not_or.mp hnone
      exact hno ⟨Bool.eq_false_of_not_eq_true hcomplex, Bool.eq_false_of_not_eq_true hquoted,
        Bool.eq_false_of_not_eq_true hempty⟩
    have hfirst : (between mem s e).head? = some (if r.emptyPathInUri then UnsafeUri.question else UnsafeUri.slash) := by
      rw [between_cons mem hread.lt, hread.first]
      rfl
    rw [← parsed_meaning r.plusInUri r.quotedUri hfirst (Nat.add_le_add_right (hread.length_pathOf) _)]
    simp only [ngxHttpProcessRequestUri, hread.uriStart, hend, Option.getD_some, if_pos hflags]
    cases ngxHttpParseComplexUri merge _ r.emptyPathInUri r.plusInUri r.quotedUri (between mem s e) <;> rfl

/-- `GET /%61/.././b.c?d` -/
def exampleLine : List UInt8 := [71, 69, 84, 32, 47, 37, 54, 49, 47, 46, 46, 47, 46, 47, 98, 46, 99, 63, 100, 10]

/-- The request of a line that is accepted. -/
def LineResult.accepted : LineResult → Option Request
  | .ok _ r => some r
  | _ => none

theorem accepted_some {x : LineResult} (h : LineResult.accepted x = some r) : ∃ pos', x = .ok pos' r := by
  cases x with
  | ok pos' r' => exact ⟨pos', by rw [Option.some.inj h]⟩
  | again | error => cases h

theorem exampleLine_accepted : ∃ pos' r, ngxHttpParseRequestLine (exampleLine.getD · 0) 0 exampleLine.length Request.new =
    .ok pos' r := by
  have hok : (LineResult.accepted (ngxHttpParseRequestLine (exampleLine.getD · 0) 0 exampleLine.length Request.new)).isSome =
    true := by decide +kernel
  obtain ⟨r, hr⟩ := Option.isSome_iff_exists.mp hok
  obtain ⟨pos', h⟩ := accepted_some hr
  exact ⟨pos', r, h⟩

theorem request_path_example : ∃ pos' r, ngxHttpParseRequestLine (exampleLine.getD · 0) 0 exampleLine.length Request.new =
      .ok pos' r ∧ (ngxHttpProcessRequestUri (exampleLine.getD · 0) true r).map (fun f => (f.uri, f.exten, f.args)) =
        match meaning true (between (exampleLine.getD · 0) (r.uriStart.getD 0) (r.uriEnd.getD 0)) with
        | none => throw (.returned ())
        | some m => pure m :=
  let ⟨pos', r, h⟩ := exampleLine_accepted
  ⟨pos', r, h, request_path true h⟩

/-! ### What a URI cannot be -/

theorem extension_suffix {segment ext : List UInt8} (h : extension segment = some ext) :
    ∃ name, segment = name ++ period :: ext := by
  rw [extension, afterDot] at h
  split_ifs at h with hmem
  obtain rfl := Option.some.inj h
  set text := segment.drop (leadingDots segment + 1) with htext
  have hsplit := List.takeWhile_append_dropWhile (p := (· ≠ period)) (l := text.reverse)
  cases hdrop : text.reverse.dropWhile (· ≠ period) with
  | nil =>
      have hall := List.dropWhile_eq_nil_iff.mp hdrop period (List.mem_reverse.mpr hmem)
      exact absurd rfl (of_decide_eq_true hall)
  | cons c rest =>
      have hhead := List.head?_dropWhile_not (· ≠ period) text.reverse
      rw [hdrop] at hhead
      obtain rfl : c = period := by
        by_contra hne
        exact Bool.false_ne_true (hhead.symm.trans (decide_eq_true hne))
      have hreverse : text = (period :: rest).reverse ++ (text.reverse.takeWhile (· ≠ period)).reverse := by
        rw [hdrop] at hsplit
        rw [← List.reverse_append, hsplit, List.reverse_reverse]
      generalize (text.reverse.takeWhile (· ≠ period)).reverse = ext at hreverse
      refine ⟨segment.take (leadingDots segment + 1) ++ rest.reverse, ?_⟩
      calc segment = segment.take (leadingDots segment + 1) ++ text := (List.take_append_drop _ segment).symm
        _ = segment.take (leadingDots segment + 1) ++ rest.reverse ++ period :: ext := by
          rw [hreverse]
          simp

/-- **No request leaves the root.** The URI of an accepted line has no segment of dots, and none that is empty if slashes
are merged, so that to process it once more does not change it; what follows the last dot of its last segment is the
extension, and nothing was written outside of the memory for it. -/
theorem request_path_safe {pos last pos' : ℕ} (merge : Bool)
    (h : ngxHttpParseRequestLine mem pos last Request.new = .ok pos' r) :
    Safe (ngxHttpProcessRequestUri mem merge r) fun f => ∃ path, f.uri = UnsafeUri.slash :: path ∧
      (∀ s ∈ path.splitOn UnsafeUri.slash, s ≠ [period] ∧ s ≠ [period, period]) ∧
      (merge = true → ∀ s ∈ (path.splitOn UnsafeUri.slash).dropLast, s ≠ []) ∧
      normalise UnsafeUri.slash period merge path = some path ∧
      (f.exten ≠ [] → ∃ name, lastSegment path = name ++ period :: f.exten) := by
  have hpath := request_path merge h
  cases hprocess : ngxHttpProcessRequestUri mem merge r with
  | error stop =>
      rw [hprocess] at hpath
      cases stop with
      | returned rc => exact trivial
      | undefined =>
          cases hmeaning : meaning merge (between mem (r.uriStart.getD 0) (r.uriEnd.getD 0)) with
          | none =>
              rw [hmeaning] at hpath
              cases hpath
          | some m =>
              rw [hmeaning] at hpath
              cases hpath
  | ok f =>
      rw [hprocess] at hpath
      cases hmeaning : meaning merge (between mem (r.uriStart.getD 0) (r.uriEnd.getD 0)) with
      | none =>
          rw [hmeaning] at hpath
          cases hpath
      | some m =>
          rw [hmeaning] at hpath
          have hfields : (f.uri, f.exten, f.args) = m := Except.ok.inj hpath
          obtain ⟨⟨path, w⟩, hreference, hm⟩ := Option.map_eq_some_iff.mp hmeaning
          obtain ⟨w', -, hnormal⟩ := Option.bind_eq_some_iff.mp hreference
          obtain ⟨path', hnormal', hpair⟩ := Option.map_eq_some_iff.mp hnormal
          obtain rfl : path' = path := (Prod.mk.inj hpair).1
          rw [← hm] at hfields
          obtain ⟨huri, hrest⟩ := Prod.mk.inj hfields
          obtain ⟨hext, -⟩ := Prod.mk.inj hrest
          obtain ⟨stack, last', hclosed, hstack, hlast⟩ := normalise_settled hnormal'
          have hsplit : path'.splitOn UnsafeUri.slash = stack.reverse ++ [last'] := by
            rw [hclosed, splitOn_closed fun s hs => (hstack s hs).noSep, List.splitOn_eq_singleton hlast.noSep]
          refine ⟨path', huri, fun s hs => ?_, fun hmerge s hs => ?_, normalise_idem hnormal', fun hne => ?_⟩
          · rw [hsplit] at hs
            rcases List.mem_append.mp hs with hs | hs
            · have hsettled := hstack s (List.mem_reverse.mp hs)
              exact ⟨hsettled.noDot, hsettled.noDots⟩
            · rw [List.mem_singleton.mp hs]
              exact ⟨hlast.noDot, hlast.noDots⟩
          · rw [hsplit, List.dropLast_concat] at hs
            exact (hstack s (List.mem_reverse.mp hs)).full hmerge
          · cases hextension : extension (lastSegment path') with
            | none => exact absurd (hext.trans (by rw [hextension]; rfl)) hne
            | some ext =>
                rw [hextension] at hext
                rw [hext]
                exact extension_suffix hextension

theorem request_path_safe_example : ∃ pos' r, ngxHttpParseRequestLine (exampleLine.getD · 0) 0 exampleLine.length Request.new =
      .ok pos' r ∧ Safe (ngxHttpProcessRequestUri (exampleLine.getD · 0) true r) fun f =>
        ∃ path, f.uri = UnsafeUri.slash :: path ∧
          (∀ s ∈ path.splitOn UnsafeUri.slash, s ≠ [period] ∧ s ≠ [period, period]) ∧
          (true = true → ∀ s ∈ (path.splitOn UnsafeUri.slash).dropLast, s ≠ []) ∧
          normalise UnsafeUri.slash period true path = some path ∧
          (f.exten ≠ [] → ∃ name, lastSegment path = name ++ period :: f.exten) :=
  let ⟨pos', r, h⟩ := exampleLine_accepted
  ⟨pos', r, h, request_path_safe true h⟩

end NginxDtls.RequestUri
