import NginxDtls.Bytes
import NginxDtls.PathSegments
import NginxDtls.RequestUri

/-! Paths are normalised: what `ngx_http_parse_complex_uri` writes is the decoded path without its dots. The data ends in the
segment that is being read, behind the closed ones, and the state tells whether that segment may still become dots. -/

namespace NginxDtls.RequestUri

open Checked UnsafeUri RequestLine PathSegments

/-! ### The reference -/

/-- The bytes that a path stands for; there are none if an escape is malformed or stands for a zero byte. -/
def decodePath : List UInt8 → Option (List UInt8)
  | [] => some []
  | c :: path =>
    if c = percent then
      match path with
      | high :: low :: path =>
        match hexDigit high, hexDigit low with
        | some high, some low =>
          if (high <<< 4) + low = 0 then none else (decodePath path).map (((high <<< 4) + low) :: ·)
        | _, _ => none
      | _ => none
    else (decodePath path).map (c :: ·)

/-- What is behind the last dot, if there is one. -/
def afterDot (text : List UInt8) : Option (List UInt8) :=
  if period ∈ text then some (text.reverse.takeWhile (· ≠ period)).reverse else none

/-- The dots that a segment begins with, two at most. -/
def leadingDots : List UInt8 → ℕ
  | [] => 0
  | c :: segment => if c = period then (if segment.head? = some period then 2 else 1) else 0

/-- The extension of a segment. The dots it begins with do not start one, nor does the byte behind them. -/
def extension (segment : List UInt8) : Option (List UInt8) := afterDot (segment.drop (leadingDots segment + 1))

/-- The last segment of a path. -/
def lastSegment (path : List UInt8) : List UInt8 := (path.reverse.takeWhile (· ≠ slash)).reverse

/-- A byte that does not end the path of a URI. -/
def inPath (c : UInt8) : Bool := c ≠ question ∧ c ≠ RequestLine.hash

/-- The path of a URI. -/
def pathOf (uri : List UInt8) : List UInt8 := uri.takeWhile inPath

/-- What is between the question mark behind the path and a hash. -/
def argsOf (uri : List UInt8) : List UInt8 :=
  match uri.dropWhile inPath with
  | [] => []
  | c :: rest => if c = question then rest.takeWhile (· ≠ hash) else []

/-! ### Extensions -/

theorem afterDot_append (text : List UInt8) (c : UInt8) :
    afterDot (text ++ [c]) = if c = period then some [] else (afterDot text).map (· ++ [c]) := by
  rw [afterDot, afterDot, List.reverse_append]
  by_cases hc : c = period
  · subst hc
    rw [if_pos (List.mem_append_right text List.mem_cons_self), if_pos rfl]
    rfl
  · have hmem : period ∈ text ++ [c] ↔ period ∈ text := by simp [Ne.symm hc]
    by_cases htext : period ∈ text
    · rw [if_pos (hmem.mpr htext), if_pos htext, if_neg hc]
      simp [hc]
    · rw [if_neg (mt hmem.mp htext), if_neg htext, if_neg hc]
      rfl

/-- What a segment may still become. -/
def stateOf (segment : List UInt8) : PathState :=
  if segment = [] then .slash
  else if segment = [period] then .dot
  else if segment = [period, period] then .dotDot
  else .usual

theorem stateOf_usual {segment : List UInt8} :
    stateOf segment = .usual ↔ segment ≠ [] ∧ segment ≠ [period] ∧ segment ≠ [period, period] := by
  rw [stateOf]
  split_ifs <;> simp_all

theorem leadingDots_append {segment : List UInt8} (h : stateOf segment = .usual) (c : UInt8) :
    leadingDots (segment ++ [c]) = leadingDots segment ∧ leadingDots segment + 1 ≤ segment.length := by
  obtain ⟨hnil, hdot, hdots⟩ := stateOf_usual.mp h
  match segment, hnil, hdot, hdots with
  | [a], _, hdot, _ =>
    have ha : a ≠ period := fun ha => hdot (by rw [ha])
    simp [leadingDots, ha]
  | [a, b], _, _, hdots =>
    by_cases ha : a = period
    · have hb : b ≠ period := fun hb => hdots (by rw [ha, hb])
      simp [leadingDots, ha, hb]
    · simp [leadingDots, ha]
  | a :: b :: d :: segment, _, _, _ =>
    by_cases ha : a = period <;> by_cases hb : b = period <;> simp [leadingDots, ha, hb]

theorem extension_append (segment : List UInt8) (c : UInt8) :
    extension (segment ++ [c]) =
      if stateOf segment = .usual then (if c = period then some [] else (extension segment).map (· ++ [c])) else none := by
  by_cases h : stateOf segment = .usual
  · obtain ⟨hdots, hlength⟩ := leadingDots_append h c
    rw [if_pos h, extension, hdots, List.drop_append_of_le_length hlength, afterDot_append]
    rfl
  · have hnone : segment = [] ∨ segment = [period] ∨ segment = [period, period] := by
      by_contra hnone
      exact h (stateOf_usual.mpr ⟨fun h => hnone (.inl h), fun h => hnone (.inr (.inl h)), fun h => hnone (.inr (.inr h))⟩)
    rw [if_neg h]
    rcases hnone with rfl | rfl | rfl
    · by_cases hc : c = period <;> simp [extension, leadingDots, hc, afterDot]
    · by_cases hc : c = period <;> simp [extension, leadingDots, hc, afterDot]
    · simp [extension, leadingDots, afterDot]

theorem extension_eq_none {segment : List UInt8} (h : stateOf segment ≠ .usual) : extension segment = none := by
  rw [stateOf] at h
  split_ifs at h with hnil hdot hdots
  · subst hnil
    rfl
  · subst hdot
    rfl
  · subst hdots
    rfl
  · exact absurd rfl h

/-! ### One byte -/

/-- The data ends in the segment that is read, behind the closed segments. -/
structure Follows (stack : List (List UInt8)) (segment : List UInt8) (st : Scan) : Prop where
  state : st.state = .plain (stateOf segment)
  data : st.data = slash :: (closed slash stack ++ segment)
  ext : st.uriExt.map st.data.drop = extension segment
  extLe : ∀ k, st.uriExt = some k → k ≤ st.data.length
  noSlash : slash ∉ segment
  noSlashes : ∀ s ∈ stack, slash ∉ s

/-- Where a segment closes, the one behind it is empty; other bytes become part of it. -/
def feedSegment (merge : Bool) (stack : List (List UInt8)) (segment : List UInt8) (c : UInt8) :
    Option (List (List UInt8) × List UInt8) :=
  if c = slash then (push period merge stack segment).map (·, []) else some (stack, segment ++ [c])

theorem usual_ne {c : UInt8} (h : isUsual c = true) :
    c ≠ slash ∧ c ≠ period ∧ c ≠ percent ∧ c ≠ question ∧ c ≠ hash ∧ c ≠ RequestLine.plus := by
  refine ⟨?_, ?_, ?_, ?_, ?_, ?_⟩ <;>
  · rintro rfl
    exact absurd h (by decide)

theorem plus_of_ne {st : Scan} {c : UInt8} (h : c ≠ RequestLine.plus) : st.plus c = st := if_neg h

theorem plus_data (st : Scan) (c : UInt8) : (st.plus c).data = st.data := by
  rw [Scan.plus]
  split_ifs <;> rfl

theorem plus_uriExt (st : Scan) (c : UInt8) : (st.plus c).uriExt = st.uriExt := by
  rw [Scan.plus]
  split_ifs <;> rfl

theorem plus_quotedUri (st : Scan) (c : UInt8) : (st.plus c).quotedUri = st.quotedUri := by
  rw [Scan.plus]
  split_ifs <;> rfl

theorem plus_plusInUri (st : Scan) (c : UInt8) :
    (st.plus c).plusInUri = (st.plusInUri || decide (c = RequestLine.plus)) := by
  rw [Scan.plus]
  split_ifs with hc
  · rw [decide_eq_true hc, Bool.or_true]
  · rw [decide_eq_false hc, Bool.or_false]

theorem put_eq {st : Scan} {size : ℕ} (h : st.data.length < size) (state : PathState) (c : UInt8) :
    st.put size state c = pure { st with state := .plain state, data := st.data ++ [c] } := if_pos h

/-- A byte that is no delimiter goes to the data in every state. -/
theorem plainByte_other {merge : Bool} {size : ℕ} (st : Scan) (state : PathState) {c : UInt8} (hslash : c ≠ slash)
    (hperiod : c ≠ period) (hpercent : c ≠ percent) (hquestion : c ≠ question) (hhash : c ≠ hash) :
    plainByte merge size st state c = .next <$> (st.plus c).put size .usual c := by
  by_cases husual : isUsual c = true
  · rw [plus_of_ne (usual_ne husual).2.2.2.2.2]
    cases state <;> rw [plainByte, if_pos husual]
  · cases state <;> simp only [plainByte, if_neg husual, if_neg hslash, if_neg hperiod, if_neg hpercent, if_neg hquestion,
      if_neg hhash]

/-- The data with a byte more, and the state that goes with it. -/
theorem Follows.put {stack : List (List UInt8)} {segment : List UInt8} {st : Scan} (h : Follows stack segment st) {c : UInt8}
    (hslash : c ≠ slash) (uriExt : Option ℕ)
    (hext : uriExt = if stateOf segment = .usual then (if c = period then some (st.data.length + 1) else st.uriExt) else none)
    (plusInUri quotedUri : Bool) :
    Follows stack (segment ++ [c])
      { state := .plain (stateOf (segment ++ [c])), data := st.data ++ [c], uriExt := uriExt, plusInUri := plusInUri,
        quotedUri := quotedUri } where
  state := rfl
  data := by rw [h.data, List.cons_append, List.append_assoc]
  ext := by
    rw [extension_append, hext]
    split_ifs with husual hperiod
    · subst hperiod
      have hlength : st.data.length + 1 = (st.data ++ [period]).length := by
        rw [List.length_append, List.length_singleton]
      rw [Option.map_some, hlength, List.drop_length]
    · rw [← h.ext, Option.map_map]
      cases hk : st.uriExt with
      | none => rfl
      | some k =>
          rw [Option.map_some, Option.map_some, List.drop_append_of_le_length (h.extLe k hk)]
          rfl
    · rfl
  extLe := by
    intro k hk
    rw [hext] at hk
    rw [List.length_append, List.length_singleton]
    split_ifs at hk
    · exact (Option.some.inj hk).symm.le
    · exact (h.extLe k hk).trans (Nat.le_succ _)
  noSlash := by
    intro hmem
    rcases List.mem_append.mp hmem with hmem | hmem
    · exact h.noSlash hmem
    · exact hslash (List.mem_singleton.mp hmem).symm
  noSlashes := h.noSlashes

theorem Follows.uriExt_eq_none {stack : List (List UInt8)} {segment : List UInt8} {st : Scan} (h : Follows stack segment st)
    (hstate : stateOf segment ≠ .usual) : st.uriExt = none := by
  have hext := h.ext
  rw [extension_eq_none hstate] at hext
  exact Option.map_eq_none_iff.mp hext

/-- A byte that is no separator and no dot ends up in the state `usual`. -/
theorem stateOf_append {segment : List UInt8} {c : UInt8} (h : c ≠ period) : stateOf (segment ++ [c]) = .usual := by
  refine stateOf_usual.mpr ⟨by simp, ?_, ?_⟩
  · intro heq
    have hlast := congrArg List.getLast? heq
    rw [List.getLast?_concat] at hlast
    exact h (Option.some.inj hlast)
  · intro heq
    have hlast := congrArg List.getLast? heq
    rw [List.getLast?_concat] at hlast
    exact h (Option.some.inj hlast)

/-- A dot. -/
theorem plainByte_period {merge : Bool} {size : ℕ} {stack : List (List UInt8)} {segment : List UInt8} {st : Scan}
    (h : Follows stack segment st) :
    plainByte merge size st (stateOf segment) period =
      .next <$> { st with uriExt := if stateOf segment = PathState.usual then some (st.data.length + 1) else none }.put size
        (stateOf (segment ++ [period])) period := by
  have husual : ¬isUsual period = true := by decide
  have hslash : period ≠ slash := by decide
  have hpercent : period ≠ percent := by decide
  have hquestion : period ≠ question := by decide
  have hhash : period ≠ RequestLine.hash := by decide
  by_cases hstate : stateOf segment = .usual
  · have hnext : stateOf (segment ++ [period]) = .usual := by
      obtain ⟨hnil, hdot, -⟩ := stateOf_usual.mp hstate
      refine stateOf_usual.mpr ⟨by simp, fun heq => hnil ?_, fun heq => hdot ?_⟩
      · exact @List.append_cancel_right _ segment [period] [] heq
      · exact @List.append_cancel_right _ segment [period] [period] heq
    rw [hstate, hnext, if_pos rfl, plainByte, if_neg husual, if_neg hslash, if_neg hpercent, if_neg hquestion, if_neg hhash,
      if_pos rfl]
  · have hext : ({ st with uriExt := none } : Scan) = st := by rw [← h.uriExt_eq_none hstate]
    rw [if_neg hstate, hext]
    by_cases hnil : segment = []
    · subst hnil
      show plainByte merge size st .slash period = .next <$> st.put size .dot period
      rw [plainByte, if_neg husual, if_neg hslash, if_pos rfl]
    · by_cases hdot : segment = [period]
      · subst hdot
        show plainByte merge size st .dot period = .next <$> st.put size .dotDot period
        rw [plainByte, if_neg husual, if_neg hslash, if_pos rfl]
      · obtain rfl : segment = [period, period] := by
          by_contra hdots
          exact hstate (stateOf_usual.mpr ⟨hnil, hdot, hdots⟩)
        show plainByte merge size st .dotDot period = .next <$> st.put size .usual period
        rw [plainByte, if_neg husual, if_neg hslash, if_neg hquestion, if_neg hhash, if_neg hpercent,
          plus_of_ne (by decide)]

/-- The way back from inside of a segment leads to its beginning. -/
theorem backToSlash_segment (before : List UInt8) {top : List UInt8} (htop : slash ∉ top) (behind : List UInt8) {n : ℕ}
    (hn : n ≤ top.length) :
    backToSlash (before ++ slash :: (top ++ behind)) (before.length + n) = some (before.length + 1) := by
  induction n with
  | zero =>
      have hat : (before ++ slash :: (top ++ behind)).getD before.length 0 = slash := by simp
      cases hlength : before.length with
      | zero => rw [Nat.add_zero, backToSlash, if_pos (by rw [← hlength, hat])]
      | succ m => rw [Nat.add_zero, backToSlash, if_pos (by rw [← hlength, hat])]
  | succ n ih =>
      have hat : (before ++ slash :: (top ++ behind)).getD (before.length + n + 1) 0 = top.get ⟨n, hn⟩ := by
        rw [List.getD_eq_getElem?_getD, List.getElem?_append_right (by omega)]
        have hindex : before.length + n + 1 - before.length = n + 1 := by omega
        rw [hindex, List.getElem?_cons_succ, List.getElem?_append_left hn, List.getElem?_eq_getElem hn]
        rfl
      have hne : top.get ⟨n, hn⟩ ≠ slash := fun heq => htop (heq ▸ List.get_mem top ⟨n, hn⟩)
      rw [← Nat.add_assoc, backToSlash, hat, if_neg hne]
      exact ih (Nat.le_of_succ_le hn)

/-- A path of closed segments ends in a separator. -/
theorem closed_concat (stack : List (List UInt8)) : ∃ before, slash :: closed slash stack = before ++ [slash] := by
  cases stack with
  | nil => exact ⟨[], rfl⟩
  | cons top rest => exact ⟨slash :: (closed slash rest ++ top), by rw [closed, List.cons_append, List.append_assoc]⟩

/-- Two dots take the last closed segment away, if there is one. -/
theorem back_dots {stack : List (List UInt8)} {st : Scan} (h : Follows stack [period, period] st) :
    st.back = match stack with
      | [] => throw (.returned ())
      | _ :: rest => pure { st with data := slash :: closed slash rest } := by
  cases stack with
  | nil =>
      have hshort : st.data.length < 4 := by
        rw [h.data]
        decide
      rw [Scan.back, if_pos hshort]
  | cons top rest =>
      have htop := h.noSlashes top List.mem_cons_self
      obtain ⟨before, hbefore⟩ := closed_concat rest
      have hdata : st.data = before ++ slash :: (top ++ [slash, period, period]) := by
        calc st.data = (slash :: closed slash rest) ++ (top ++ [slash, period, period]) := by
              rw [h.data, closed]
              simp
          _ = before ++ slash :: (top ++ [slash, period, period]) := by
              rw [hbefore, List.append_assoc, List.singleton_append]
      have hlength : st.data.length = before.length + top.length + 4 := by
        rw [hdata]
        simp
        omega
      have hback : backToSlash st.data (st.data.length - 4) = some (before.length + 1) := by
        rw [hlength, Nat.add_sub_cancel, hdata]
        exact backToSlash_segment before htop _ (Nat.le_refl _)
      have htake : st.data.take (before.length + 1) = slash :: closed slash rest := by
        rw [hbefore, hdata, List.append_cons, List.take_left' (by simp)]
      rw [Scan.back, if_neg (by omega), hback]
      show pure { st with data := st.data.take (before.length + 1) } = _
      rw [htake]

/-- A separator. -/
theorem plainByte_slash (merge : Bool) (size : ℕ) {stack : List (List UInt8)} {segment : List UInt8} {st : Scan}
    (h : Follows stack segment st) (hsize : st.data.length < size) :
    match push period merge stack segment with
    | none => plainByte merge size st (stateOf segment) slash = throw (.returned ())
    | some stack' => ∃ data, plainByte merge size st (stateOf segment) slash =
          pure (.next { st with state := .plain .slash, data := data, uriExt := none }) ∧
        Follows stack' [] { st with state := .plain .slash, data := data, uriExt := none } := by
  have husual : ¬isUsual slash = true := by decide
  have hclosed : ∀ {stack' : List (List UInt8)} {data : List UInt8}, data = slash :: closed slash stack' →
      (∀ s ∈ stack', slash ∉ s) → Follows stack' [] { st with state := .plain .slash, data := data, uriExt := none } :=
    fun hdata hnoSlashes => ⟨rfl, by rw [List.append_nil]; exact hdata, rfl, by simp, List.not_mem_nil, hnoSlashes⟩
  by_cases hstate : stateOf segment = .usual
  · obtain ⟨hnil, hdot, hdots⟩ := stateOf_usual.mp hstate
    rw [push, if_neg hdot, if_neg hdots, if_neg (fun hempty => hnil hempty.2)]
    refine ⟨st.data ++ [slash], ?_, hclosed ?_ ?_⟩
    · rw [hstate, plainByte, if_neg husual, if_pos rfl, put_eq (by exact hsize)]
      rfl
    · rw [h.data, closed, List.cons_append, List.append_assoc]
    · intro s hs
      rcases List.mem_cons.mp hs with rfl | hs
      · exact h.noSlash
      · exact h.noSlashes s hs
  · have hext := h.uriExt_eq_none hstate
    have hsame : ∀ data : List UInt8, ({ st with state := .plain .slash, data := data } : Scan) =
        { st with state := .plain .slash, data := data, uriExt := none } := fun data => by rw [← hext]
    by_cases hnil : segment = []
    · subst hnil
      rw [push, if_neg (List.cons_ne_nil _ _).symm, if_neg (List.cons_ne_nil _ _).symm]
      change match (if merge = true ∧ ([] : List UInt8) = [] then some stack else some ([] :: stack)) with
        | none => plainByte merge size st .slash slash = _
        | some stack' => ∃ data, plainByte merge size st .slash slash = _ ∧ _
      cases merge with
      | true =>
          rw [if_pos ⟨rfl, rfl⟩]
          refine ⟨st.data, ?_, hclosed ?_ h.noSlashes⟩
          · rw [plainByte, if_neg husual, if_pos rfl, if_pos rfl, ← hsame]
          · rw [h.data, List.append_nil]
      | false =>
          rw [if_neg (fun hmerge => Bool.false_ne_true hmerge.1)]
          refine ⟨st.data ++ [slash], ?_, hclosed ?_ ?_⟩
          · rw [plainByte, if_neg husual, if_pos rfl, if_neg Bool.false_ne_true, put_eq hsize, ← hsame]
            rfl
          · rw [h.data, List.append_nil, closed, List.nil_append, List.cons_append]
          · intro s hs
            rcases List.mem_cons.mp hs with rfl | hs
            · exact List.not_mem_nil
            · exact h.noSlashes s hs
    · by_cases hdot : segment = [period]
      · subst hdot
        rw [push, if_pos rfl]
        refine ⟨st.data.dropLast, ?_, hclosed ?_ h.noSlashes⟩
        · show plainByte merge size st .dot slash = _
          rw [plainByte, if_neg husual, if_pos rfl, hsame]
        · rw [h.data, ← List.cons_append, List.dropLast_concat]
      · obtain rfl : segment = [period, period] := by
          by_contra hdots
          exact hstate (stateOf_usual.mpr ⟨hnil, hdot, hdots⟩)
        have hback := back_dots h
        rw [push, if_neg (by simp), if_pos rfl]
        cases stack with
        | nil =>
            show plainByte merge size st .dotDot slash = _
            rw [plainByte, if_neg husual, if_pos rfl, hback]
            rfl
        | cons top rest =>
            refine ⟨slash :: closed slash rest, ?_, hclosed rfl fun s hs => h.noSlashes s (List.mem_cons_of_mem top hs)⟩
            show plainByte merge size st .dotDot slash = _
            rw [plainByte, if_neg husual, if_pos rfl, hback, ← hsame]
            rfl

/-- What a byte that is none of `%`, `?` and `#` does. -/
theorem plainByte_feed (merge : Bool) (size : ℕ) {stack : List (List UInt8)} {segment : List UInt8} {st : Scan}
    (h : Follows stack segment st) (hsize : st.data.length < size) {c : UInt8} (hpercent : c ≠ percent)
    (hquestion : c ≠ question) (hhash : c ≠ RequestLine.hash) :
    match feedSegment merge stack segment c with
    | none => plainByte merge size st (stateOf segment) c = throw (.returned ())
    | some (stack', segment') => ∃ st', plainByte merge size st (stateOf segment) c = pure (.next st') ∧
        Follows stack' segment' st' ∧ st'.data.length ≤ st.data.length + 1 ∧ st'.quotedUri = st.quotedUri ∧
        st'.plusInUri = (st.plusInUri || decide (c = RequestLine.plus)) := by
  by_cases hslash : c = slash
  · subst hslash
    have hbyte := plainByte_slash merge size h hsize
    rw [feedSegment, if_pos rfl]
    cases hpush : push period merge stack segment with
    | none =>
        rw [hpush] at hbyte
        exact hbyte
    | some stack' =>
        rw [hpush] at hbyte
        obtain ⟨data, hbyte, hfollows⟩ := hbyte
        refine ⟨_, hbyte, hfollows, ?_, rfl, (Bool.or_false _).symm⟩
        have hlength := @push_length _ _ slash _ _ _ _ _ hpush
        rw [hfollows.data, h.data, List.append_nil, List.length_cons, List.length_cons, List.length_append]
        omega
  · rw [feedSegment, if_neg hslash]
    by_cases hperiod : c = period
    · subst hperiod
      have hput := h.put hslash (if stateOf segment = PathState.usual then some (st.data.length + 1) else none)
        (by rw [if_pos rfl]) st.plusInUri st.quotedUri
      refine ⟨_, ?_, hput, (List.length_append ..).le, rfl, (Bool.or_false _).symm⟩
      rw [plainByte_period h, put_eq (by exact hsize)]
      rfl
    · have hext : st.uriExt =
          if stateOf segment = PathState.usual then (if c = period then some (st.data.length + 1) else st.uriExt) else none := by
        rw [if_neg hperiod]
        split_ifs with hstate
        · rfl
        · exact h.uriExt_eq_none hstate
      have hput := h.put hslash st.uriExt hext (st.plusInUri || decide (c = RequestLine.plus)) st.quotedUri
      refine ⟨_, ?_, hput, (List.length_append ..).le, rfl, rfl⟩
      rw [plainByte_other st _ hslash hperiod hpercent hquestion hhash, put_eq (by rw [plus_data]; exact hsize),
        stateOf_append hperiod, plus_data, plus_uriExt, plus_quotedUri, plus_plusInUri]
      rfl

end NginxDtls.RequestUri
