import NginxDtls.RequestPath
import Mathlib.Data.List.TakeWhile

/-! Paths are normalised as a whole: escapes are decoded before their byte is fed to the segment, and at the end of the path the
segment that is read closes. -/

namespace NginxDtls.RequestUri

open Checked UnsafeUri RequestLine PathSegments

/-! ### Escapes -/

theorem low_nibble (decoded : UInt8) {d : UInt8} (h : d.toNat < 16) : ((decoded <<< 4) + d).toNat % 16 = d.toNat := by
  have hshift : (decoded <<< 4).toNat % 16 = 0 := by
    have hfour : 2 ^ (UInt8.toNat 4 % 8) = 16 := by decide
    rw [UInt8.toNat_shiftLeft, Nat.shiftLeft_eq, hfour]
    omega
  rw [UInt8.toNat_add]
  omega

theorem complexByte_quoted {merge : Bool} {size : ℕ} {st : Scan} {quotedState : PathState} (h : st.state = .quoted quotedState)
    (ch : UInt8) :
    complexByte merge size st ch = match hexDigit ch with
      | none => throw (.returned ())
      | some d => pure (.next { st with quotedUri := true, state := .quotedSecond quotedState d }) := by
  simp only [complexByte, h, hexDigit, isDigit, decide_eq_true_eq]
  split_ifs <;> rfl

/-- The byte of an escape, when it has been decoded. -/
def decodedByte (merge : Bool) (size : ℕ) (st : Scan) (quotedState : PathState) (c : UInt8) : Checked Unit Round :=
  if c = 0 then throw (.returned ())
  else if c = percent ∨ c = RequestLine.hash ∨ c = question then .next <$> st.put size .usual c
  else plainByte merge size { st.plus c with state := .plain quotedState } quotedState c

theorem complexByte_quotedSecond {merge : Bool} {size : ℕ} {st : Scan} {quotedState : PathState} {decoded : UInt8}
    (h : st.state = .quotedSecond quotedState decoded) (ch : UInt8) :
    complexByte merge size st ch = match hexDigit ch with
      | none => throw (.returned ())
      | some d => decodedByte merge size st quotedState ((decoded <<< 4) + d) := by
  simp only [complexByte, h, hexDigit, isDigit, decide_eq_true_eq]
  by_cases hdigit : 48 ≤ ch ∧ ch ≤ 57
  · have hlow : (ch - 48).toNat ≤ 9 := by
      have hall : ∀ ch : UInt8, 48 ≤ ch ∧ ch ≤ 57 → (ch - 48).toNat ≤ 9 := forall_byte (by decide +kernel)
      exact hall ch hdigit
    have hnibble := low_nibble decoded (d := ch - 48) (by omega)
    have hne : ∀ c : UInt8, 9 < c.toNat % 16 → (decoded <<< 4) + (ch - 48) ≠ c := fun c hc heq => by
      rw [heq] at hnibble
      omega
    rw [if_pos hdigit, if_pos hdigit]
    simp only [decodedByte, hne question (by decide), or_false, plus_of_ne (hne RequestLine.plus (by decide))]
    by_cases hzero : (decoded <<< 4) + (ch - 48) = 0
    · rw [hzero, if_neg (by decide), if_pos rfl, if_pos rfl]
    · rw [if_neg hzero, if_neg hzero]
  · rw [if_neg hdigit, if_neg hdigit]
    by_cases hletter : 97 ≤ ch ||| 0x20 ∧ ch ||| 0x20 ≤ 102
    · have hlow : 10 ≤ ((ch ||| 0x20) - 97 + 10).toNat ∧ ((ch ||| 0x20) - 97 + 10).toNat < 16 := by
        have hall : ∀ ch : UInt8, 97 ≤ ch ||| 0x20 ∧ ch ||| 0x20 ≤ 102 →
            10 ≤ ((ch ||| 0x20) - 97 + 10).toNat ∧ ((ch ||| 0x20) - 97 + 10).toNat < 16 := forall_byte (by decide +kernel)
        exact hall ch hletter
      have hnibble := low_nibble decoded hlow.2
      have hne : ∀ c : UInt8, c.toNat % 16 < 10 → (decoded <<< 4) + ((ch ||| 0x20) - 97 + 10) ≠ c := fun c hc heq => by
        rw [heq] at hnibble
        omega
      rw [if_pos hletter, if_pos hletter]
      simp only [UInt8.add_assoc, decodedByte, hne 0 (by decide), hne percent (by decide), hne RequestLine.hash (by decide),
        false_or, if_false]
    · rw [if_neg hletter, if_neg hletter]

/-- A byte that was escaped is fed to the segment, whatever it is. -/
theorem decodedByte_feed (merge : Bool) (size : ℕ) {stack : List (List UInt8)} {segment : List UInt8} (st : Scan)
    (h : Follows stack segment { st with state := .plain (stateOf segment) }) (hsize : st.data.length < size) {c : UInt8}
    (hc : c ≠ 0) :
    match feedSegment merge stack segment c with
    | none => decodedByte merge size st (stateOf segment) c = throw (.returned ())
    | some (stack', segment') => ∃ st', decodedByte merge size st (stateOf segment) c = pure (.next st') ∧
        Follows stack' segment' st' ∧ st'.data.length ≤ st.data.length + 1 ∧ st'.quotedUri = st.quotedUri ∧
        st'.plusInUri = (st.plusInUri || decide (c = RequestLine.plus)) := by
  rw [decodedByte, if_neg hc]
  by_cases hdelimiter : c = percent ∨ c = RequestLine.hash ∨ c = question
  · have hplain : c ≠ slash ∧ c ≠ period ∧ c ≠ RequestLine.plus := by
      rcases hdelimiter with rfl | rfl | rfl <;> decide
    obtain ⟨hslash, hperiod, hplus⟩ := hplain
    have hext : st.uriExt =
        if stateOf segment = PathState.usual then (if c = period then some (st.data.length + 1) else st.uriExt) else none := by
      rw [if_neg hperiod]
      split_ifs with hstate
      · rfl
      · exact h.uriExt_eq_none hstate
    have hput := h.put hslash st.uriExt hext st.plusInUri st.quotedUri
    rw [feedSegment, if_neg hslash, if_pos hdelimiter, put_eq hsize, ← stateOf_append hperiod]
    refine ⟨_, rfl, hput, (List.length_append ..).le, rfl, ?_⟩
    rw [decide_eq_false hplus, Bool.or_false]
  · obtain ⟨hpercent, hhash, hquestion⟩ : c ≠ percent ∧ c ≠ RequestLine.hash ∧ c ≠ question := by
      refine ⟨fun h => hdelimiter (.inl h), fun h => hdelimiter (.inr (.inl h)), fun h => hdelimiter (.inr (.inr h))⟩
    have hfollows : Follows stack segment { st.plus c with state := .plain (stateOf segment) } := by
      rw [Scan.plus]
      split_ifs
      · exact ⟨rfl, h.data, h.ext, h.extLe, h.noSlash, h.noSlashes⟩
      · exact h
    have hfeed := plainByte_feed merge size hfollows (by rw [plus_data]; exact hsize) hpercent hquestion hhash
    rw [if_neg hdelimiter]
    cases hsegment : feedSegment merge stack segment c with
    | none =>
        rw [hsegment] at hfeed
        exact hfeed
    | some next =>
        obtain ⟨stack', segment'⟩ := next
        rw [hsegment] at hfeed
        obtain ⟨st', hbyte, hfollows', hlength, hquoted, hplus⟩ := hfeed
        refine ⟨st', hbyte, hfollows', ?_, ?_, ?_⟩
        · rw [plus_data] at hlength
          exact hlength
        · exact hquoted.trans (plus_quotedUri st c)
        · rw [hplus, plus_plusInUri, Bool.or_assoc, Bool.or_self]

/-! ### The whole path -/

theorem resolve_feed {merge : Bool} {stack : List (List UInt8)} {segment : List UInt8} (h : slash ∉ segment) (c : UInt8)
    (w : List UInt8) :
    resolve period merge stack ((segment ++ c :: w).splitOn slash) =
      (feedSegment merge stack segment c).bind fun next => resolve period merge next.1 ((next.2 ++ w).splitOn slash) := by
  rw [feedSegment]
  split_ifs with hslash
  · subst hslash
    rw [resolve_sep stack h w, Option.bind_map]
    rfl
  · rw [Option.bind_some, List.append_assoc, List.singleton_append]

/-- What is behind a question mark, if there is one. -/
def argsPart : List UInt8 → Option (List UInt8)
  | [] => none
  | c :: rest => if c = question then some rest else none

/-- What the loop leaves at the end of a path. -/
structure Ended (stack : List (List UInt8)) (last : List UInt8) (st : Scan) : Prop where
  data : st.data = slash :: (closed slash stack ++ last)
  ext : st.uriExt.map st.data.drop = extension last

/-- What becomes of the segment that is read where the path ends. -/
def closeScan (st : Scan) : PathState → Checked Unit Scan
  | .dot => pure { st with data := st.data.dropLast }
  | .dotDot => st.back
  | _ => pure st

theorem closeScan_eq (merge : Bool) {stack : List (List UInt8)} {segment : List UInt8} {st : Scan}
    (h : Follows stack segment st) :
    match close period merge stack segment with
    | none => closeScan st (stateOf segment) = throw (.returned ())
    | some (stack', last) => ∃ st', closeScan st (stateOf segment) = pure st' ∧ Ended stack' last st' ∧
        st'.plusInUri = st.plusInUri ∧ st'.quotedUri = st.quotedUri := by
  by_cases hdot : segment = [period]
  · subst hdot
    rw [close, if_pos (.inl rfl), push, if_pos rfl]
    refine ⟨_, rfl, ⟨?_, ?_⟩, rfl, rfl⟩
    · show st.data.dropLast = _
      rw [h.data, ← List.cons_append, List.dropLast_concat, List.append_nil]
    · show st.uriExt.map _ = none
      rw [h.uriExt_eq_none (by decide)]
      rfl
  · by_cases hdots : segment = [period, period]
    · subst hdots
      have hback := back_dots h
      rw [close, if_pos (.inr rfl), push, if_neg (by simp), if_pos rfl]
      cases stack with
      | nil => exact hback
      | cons top rest =>
          refine ⟨_, hback, ⟨?_, ?_⟩, rfl, rfl⟩
          · rw [List.append_nil]
          · show st.uriExt.map _ = none
            rw [h.uriExt_eq_none (by decide)]
            rfl
    · rw [close, if_neg (not_or.mpr ⟨hdot, hdots⟩)]
      refine ⟨st, ?_, ⟨h.data, h.ext⟩, rfl, rfl⟩
      rw [stateOf, if_neg hdot, if_neg hdots]
      split_ifs <;> rfl

theorem plainByte_question (merge : Bool) (size : ℕ) (st : Scan) (state : PathState) :
    plainByte merge size st state question = .args <$> closeScan st state := by
  cases state <;> rfl

theorem plainByte_hash (merge : Bool) (size : ℕ) (st : Scan) (state : PathState) :
    plainByte merge size st state RequestLine.hash = .done <$> closeScan st state := by
  cases state <;> rfl

/-- The end of the URI, or a delimiter behind the path. -/
theorem complexLoop_close {merge : Bool} {size : ℕ} {st : Scan} {state : PathState} (h : st.state = .plain state)
    {tail : List UInt8} (htail : ∀ c ∈ tail.head?, c = question ∨ c = RequestLine.hash) :
    complexLoop merge size tail st = (·, argsPart tail) <$> closeScan st state := by
  cases tail with
  | nil =>
      obtain ⟨_, data, uriExt, plusInUri, quotedUri⟩ := st
      obtain rfl := h
      cases state <;> rfl
  | cons c p =>
      rw [complexLoop, complexByte, h]
      rcases htail c rfl with rfl | rfl
      · show (plainByte merge size st state question >>= _) = _
        rw [plainByte_question]
        cases closeScan st state <;> rfl
      · show (plainByte merge size st state RequestLine.hash >>= _) = _
        rw [plainByte_hash]
        cases closeScan st state <;> rfl

/-- An escape that the path ends in is malformed. -/
theorem complexLoop_quoted {merge : Bool} {size : ℕ} {st : Scan} (h : ∀ state, st.state ≠ .plain state) {tail : List UInt8}
    (htail : ∀ c ∈ tail.head?, c = question ∨ c = RequestLine.hash) :
    complexLoop merge size tail st = throw (.returned ()) := by
  cases tail with
  | nil =>
      rw [complexLoop]
      cases hstate : st.state with
      | plain state => exact absurd hstate (h state)
      | quoted quotedState => rfl
      | quotedSecond quotedState decoded => rfl
  | cons c p =>
      have hdigit : hexDigit c = none := by
        rcases htail c rfl with rfl | rfl <;> decide
      rw [complexLoop]
      cases hstate : st.state with
      | plain state => exact absurd hstate (h state)
      | quoted quotedState =>
          rw [complexByte_quoted hstate, hdigit]
          rfl
      | quotedSecond quotedState decoded =>
          rw [complexByte_quotedSecond hstate, hdigit]
          rfl

theorem complexLoop_next {merge : Bool} {size : ℕ} {st st' : Scan} {c : UInt8}
    (h : complexByte merge size st c = pure (.next st')) (p : List UInt8) :
    complexLoop merge size (c :: p) st = complexLoop merge size p st' := by
  rw [complexLoop, h]
  rfl

theorem complexLoop_throw {merge : Bool} {size : ℕ} {st : Scan} {c : UInt8}
    (h : complexByte merge size st c = throw (.returned ())) (p : List UInt8) :
    complexLoop merge size (c :: p) st = throw (.returned ()) := by
  rw [complexLoop, h]
  rfl

theorem complexByte_percent {merge : Bool} {size : ℕ} {st : Scan} {state : PathState} (h : st.state = .plain state) :
    complexByte merge size st percent = pure (.next { st with state := .quoted state }) := by
  rw [complexByte, h]
  cases state <;> rfl

/-- What the loop does with a path that stands for `w`: it fails where there is no `w` or where `w` goes above the root, and
otherwise it leaves what the segments resolve to. `quoted` tells whether there is an escape. -/
def Outcome (merge : Bool) (stack : List (List UInt8)) (segment : List UInt8) (w : Option (List UInt8)) (st : Scan)
    (quoted : Bool) (rest : Option (List UInt8)) (m : Checked Unit (Scan × Option (List UInt8))) : Prop :=
  match w.bind fun w => (resolve period merge stack ((segment ++ w).splitOn slash)).map (·, w) with
  | none => m = throw (.returned ())
  | some ((stack', last), w) => ∃ st', m = pure (st', rest) ∧ Ended stack' last st' ∧
      st'.plusInUri = (st.plusInUri || decide (RequestLine.plus ∈ w)) ∧ st'.quotedUri = (st.quotedUri || quoted)

theorem outcome_cons {merge : Bool} {stack : List (List UInt8)} {segment : List UInt8} (h : slash ∉ segment) {c : UInt8}
    {w : Option (List UInt8)} {st : Scan} {quoted : Bool} (quoted' : Bool) {rest : Option (List UInt8)}
    {m : Checked Unit (Scan × Option (List UInt8))}
    (hfeed : match feedSegment merge stack segment c with
      | none => m = throw (.returned ())
      | some (stack', segment') => ∃ st', Outcome merge stack' segment' w st' quoted' rest m ∧
          (st'.quotedUri || quoted') = (st.quotedUri || quoted) ∧
          st'.plusInUri = (st.plusInUri || decide (c = RequestLine.plus))) :
    Outcome merge stack segment (w.map (c :: ·)) st quoted rest m := by
  cases w with
  | none =>
      cases hsegment : feedSegment merge stack segment c with
      | none =>
          rw [hsegment] at hfeed
          exact hfeed
      | some next =>
          rw [hsegment] at hfeed
          obtain ⟨st', houtcome, -⟩ := hfeed
          exact houtcome
  | some w =>
      rw [Outcome, Option.map_some, Option.bind_some, resolve_feed h]
      cases hsegment : feedSegment merge stack segment c with
      | none =>
          rw [hsegment] at hfeed
          exact hfeed
      | some next =>
          rw [hsegment] at hfeed
          obtain ⟨st', houtcome, hquoted, hplus⟩ := hfeed
          rw [Outcome, Option.bind_some] at houtcome
          rw [Option.bind_some]
          cases hresolve : resolve period merge next.1 ((next.2 ++ w).splitOn slash) with
          | none =>
              rw [hresolve] at houtcome
              exact houtcome
          | some result =>
              rw [hresolve] at houtcome
              obtain ⟨st'', hm, hended, hplus', hquoted'⟩ := houtcome
              refine ⟨st'', hm, hended, ?_, ?_⟩
              · rw [hplus', hplus, Bool.or_assoc, ← Bool.decide_or]
                congr 2
                rw [List.mem_cons]
                exact propext (or_congr_left eq_comm)
              · rw [hquoted', hquoted]

/-- The loop over a path. -/
theorem complexLoop_path {merge : Bool} {size : ℕ} {stack : List (List UInt8)} {segment : List UInt8} {st : Scan}
    (h : Follows stack segment st) {path tail : List UInt8} (hpath : ∀ c ∈ path, c ≠ question ∧ c ≠ RequestLine.hash)
    (htail : ∀ c ∈ tail.head?, c = question ∨ c = RequestLine.hash) (hsize : st.data.length + path.length ≤ size) :
    Outcome merge stack segment (decodePath path) st (decide (percent ∈ path)) (argsPart tail)
      (complexLoop merge size (path ++ tail) st) := by
  fun_induction decodePath path generalizing stack segment st with
  | case1 =>
      have hclose := closeScan_eq merge h
      rw [Outcome, Option.bind_some, List.append_nil, resolve_last stack h.noSlash]
      cases hresult : close period merge stack segment with
      | none =>
          rw [hresult] at hclose
          show complexLoop merge size ([] ++ tail) st = _
          rw [List.nil_append, complexLoop_close h.state htail, hclose]
          rfl
      | some result =>
          rw [hresult] at hclose
          obtain ⟨st', hst', hended, hplus, hquoted⟩ := hclose
          refine ⟨st', ?_, hended, ?_, ?_⟩
          · rw [List.nil_append, complexLoop_close h.state htail, hst']
            rfl
          · rw [hplus, decide_eq_false List.not_mem_nil, Bool.or_false]
          · rw [hquoted, decide_eq_false List.not_mem_nil, Bool.or_false]
  | case2 high low path d d' hlow hhigh hzero =>
      show complexLoop merge size (percent :: high :: low :: (path ++ tail)) st = throw (.returned ())
      rw [complexLoop_next (complexByte_percent h.state)]
      rw [complexLoop_next (by rw [complexByte_quoted rfl, hhigh])]
      refine complexLoop_throw ?_ _
      rw [complexByte_quotedSecond rfl, hlow]
      exact if_pos hzero
  | case3 high low path d d' hlow hhigh hzero ih =>
      have hfollows : Follows stack segment { st with quotedUri := true, state := .plain (stateOf segment) } :=
        ⟨rfl, h.data, h.ext, h.extLe, h.noSlash, h.noSlashes⟩
      simp only [List.length_cons] at hsize
      have hbyte := decodedByte_feed merge size
        { st with quotedUri := true, state := .quotedSecond (stateOf segment) d } hfollows (by show st.data.length < size; omega) hzero
      have hpath' : ∀ c ∈ path, c ≠ question ∧ c ≠ RequestLine.hash := fun c hc =>
        hpath c (List.mem_cons_of_mem _ (List.mem_cons_of_mem _ (List.mem_cons_of_mem _ hc)))
      have hquoted : percent ∈ percent :: high :: low :: path := List.mem_cons_self
      refine outcome_cons h.noSlash (decide (percent ∈ path)) ?_
      rw [List.cons_append, complexLoop_next (complexByte_percent h.state), List.cons_append,
        complexLoop_next (by rw [complexByte_quoted rfl, hhigh]), List.cons_append]
      cases hsegment : feedSegment merge stack segment ((d <<< 4) + d') with
      | none =>
          rw [hsegment] at hbyte
          exact complexLoop_throw (by rw [complexByte_quotedSecond rfl, hlow]; exact hbyte) _
      | some next =>
          rw [hsegment] at hbyte
          obtain ⟨st', hst', hfollows', hlength, hquoted', hplus⟩ := hbyte
          refine ⟨st', ?_, ?_, hplus⟩
          · rw [complexLoop_next (by rw [complexByte_quotedSecond rfl, hlow]; exact hst')]
            exact ih hfollows' hpath' (by simp only at hlength; omega)
          · rw [hquoted', decide_eq_true hquoted, Bool.true_or, Bool.or_true]
  | case4 high low path hnone =>
      show complexLoop merge size (percent :: high :: low :: (path ++ tail)) st = throw (.returned ())
      rw [complexLoop_next (complexByte_percent h.state)]
      cases hhigh : hexDigit high with
      | none => exact complexLoop_throw (by rw [complexByte_quoted rfl, hhigh]) _
      | some d =>
          rw [complexLoop_next (by rw [complexByte_quoted rfl, hhigh])]
          refine complexLoop_throw ?_ _
          cases hlow : hexDigit low with
          | none => rw [complexByte_quotedSecond rfl, hlow]
          | some d' => exact absurd hlow fun hlow => hnone d d' hhigh hlow
  | case5 path hshort =>
      show complexLoop merge size (percent :: (path ++ tail)) st = throw (.returned ())
      rw [complexLoop_next (complexByte_percent h.state)]
      match path, hshort with
      | [], _ => exact complexLoop_quoted (by simp) htail
      | [high], _ =>
          cases hhigh : hexDigit high with
          | none => exact complexLoop_throw (by rw [complexByte_quoted rfl, hhigh]) _
          | some d =>
              rw [List.singleton_append, complexLoop_next (by rw [complexByte_quoted rfl, hhigh])]
              exact complexLoop_quoted (by simp) htail
      | high :: low :: path, hshort => exact absurd rfl fun heq => hshort high low path heq
  | case6 c path hpercent ih =>
      have hc := hpath c List.mem_cons_self
      rw [List.length_cons] at hsize
      have hbyte := plainByte_feed merge size h (by omega) hpercent hc.1 hc.2
      have hquoted : percent ∈ c :: path ↔ percent ∈ path := by simp [Ne.symm hpercent]
      refine outcome_cons h.noSlash (decide (percent ∈ path)) ?_
      have hplain : complexByte merge size st c = plainByte merge size st (stateOf segment) c := by rw [complexByte, h.state]
      rw [List.cons_append]
      cases hsegment : feedSegment merge stack segment c with
      | none =>
          rw [hsegment] at hbyte
          exact complexLoop_throw (hplain.trans hbyte) _
      | some next =>
          rw [hsegment] at hbyte
          obtain ⟨st', hst', hfollows', hlength, hquoted', hplus⟩ := hbyte
          refine ⟨st', ?_, ?_, hplus⟩
          · rw [complexLoop_next (hplain.trans hst')]
            exact ih hfollows' (fun c' hc' => hpath c' (List.mem_cons_of_mem c hc')) (by omega)
          · rw [hquoted', decide_eq_decide.mpr hquoted]

/-! ### `ngx_http_parse_complex_uri` -/

theorem lastSegment_closed (stack : List (List UInt8)) {last : List UInt8} (h : slash ∉ last) :
    lastSegment (closed slash stack ++ last) = last := by
  have hreverse : ∀ c ∈ last.reverse, decide (c ≠ slash) = true := fun c hc =>
    decide_eq_true fun heq => h (heq ▸ List.mem_reverse.mp hc)
  rw [lastSegment, List.reverse_append, List.takeWhile_append_of_pos hreverse]
  cases stack with
  | nil => simp [closed]
  | cons top rest => simp [closed]

/-- The path that a decoded path is normalised to, and the decoded one. -/
def reference (merge : Bool) (path : List UInt8) : Option (List UInt8 × List UInt8) :=
  (decodePath path).bind fun w => (normalise slash period merge w).map (·, w)

theorem Outcome.reference {merge : Bool} {path : List UInt8} {st : Scan} {quoted : Bool} {rest : Option (List UInt8)}
    {m : Checked Unit (Scan × Option (List UInt8))} (h : Outcome merge [] [] (decodePath path) st quoted rest m) :
    match reference merge path with
    | none => m = throw (.returned ())
    | some (p, w) => ∃ st', m = pure (st', rest) ∧ st'.data = slash :: p ∧
        st'.uriExt.map st'.data.drop = extension (lastSegment p) ∧
        st'.plusInUri = (st.plusInUri || decide (RequestLine.plus ∈ w)) ∧ st'.quotedUri = (st.quotedUri || quoted) := by
  rw [Outcome] at h
  rw [RequestUri.reference]
  cases hdecode : decodePath path with
  | none =>
      rw [hdecode] at h
      exact h
  | some w =>
      rw [hdecode, Option.bind_some, List.nil_append] at h
      rw [Option.bind_some, normalise]
      cases hresolve : resolve period merge [] (w.splitOn slash) with
      | none =>
          rw [hresolve] at h
          exact h
      | some result =>
          rw [hresolve] at h
          obtain ⟨st', hm, hended, hplus, hquoted⟩ := h
          have hlast := (resolve_settled (by simp) sep_notMem_splitOn hresolve).2.noSep
          refine ⟨st', hm, hended.data, ?_, hplus, hquoted⟩
          rw [hended.ext, lastSegment_closed result.1 hlast]

/-- The URI of a path that begins with a slash. -/
theorem ngxHttpParseComplexUri_path (merge : Bool) (size : ℕ) (plusInUri quotedUri : Bool) {path tail : List UInt8}
    (hpath : ∀ c ∈ path, c ≠ question ∧ c ≠ RequestLine.hash)
    (htail : ∀ c ∈ tail.head?, c = question ∨ c = RequestLine.hash) (hsize : path.length + 1 ≤ size) :
    match reference merge path with
    | none => ngxHttpParseComplexUri merge size false plusInUri quotedUri (slash :: (path ++ tail)) = throw (.returned ())
    | some (p, w) => ∃ st, ngxHttpParseComplexUri merge size false plusInUri quotedUri (slash :: (path ++ tail)) =
          pure (complexEnd st (argsPart tail)) ∧ st.data = slash :: p ∧
        st.uriExt.map st.data.drop = extension (lastSegment p) ∧
        st.plusInUri = (plusInUri || decide (RequestLine.plus ∈ w)) ∧
        st.quotedUri = (quotedUri || decide (percent ∈ path)) := by
  have hfirst : complexLoop merge size (slash :: (path ++ tail)) ⟨.plain .usual, [], none, plusInUri, quotedUri⟩ =
      complexLoop merge size (path ++ tail) ⟨.plain .slash, [slash], none, plusInUri, quotedUri⟩ := by
    refine complexLoop_next ?_ _
    show plainByte merge size _ .usual slash = _
    rw [plainByte, if_neg (by decide), if_pos rfl, put_eq (by show 0 < size; omega)]
    rfl
  have hfollows : Follows [] [] ⟨.plain .slash, [slash], none, plusInUri, quotedUri⟩ :=
    ⟨rfl, rfl, rfl, by simp, List.not_mem_nil, by simp⟩
  have houtcome := (@complexLoop_path merge size _ _ _ hfollows _ _ hpath htail
    (by rw [List.length_singleton]; omega)).reference
  have hparse : ngxHttpParseComplexUri merge size false plusInUri quotedUri (slash :: (path ++ tail)) =
      (complexLoop merge size (path ++ tail) ⟨.plain .slash, [slash], none, plusInUri, quotedUri⟩ >>= fun result =>
        pure (complexEnd result.1 result.2)) := by
    rw [← hfirst]
    rfl
  rw [hparse]
  cases hreference : reference merge path with
  | none =>
      rw [hreference] at houtcome
      rw [houtcome]
      rfl
  | some result =>
      rw [hreference] at houtcome
      obtain ⟨st, hm, hdata, hext, hplus, hquoted⟩ := houtcome
      refine ⟨st, ?_, hdata, hext, hplus, hquoted⟩
      rw [hm]
      rfl

/-- The URI of an empty path. -/
theorem ngxHttpParseComplexUri_empty (merge : Bool) {size : ℕ} (plusInUri quotedUri : Bool) {tail : List UInt8}
    (htail : ∀ c ∈ tail.head?, c = question ∨ c = RequestLine.hash) (hsize : 1 ≤ size) :
    ngxHttpParseComplexUri merge size true plusInUri quotedUri tail =
      pure (complexEnd ⟨.plain .usual, [slash], none, plusInUri, quotedUri⟩ (argsPart tail)) := by
  have hput : (⟨.plain .usual, [], none, plusInUri, quotedUri⟩ : Scan).put size .usual slash =
      pure ⟨.plain .usual, [slash], none, plusInUri, quotedUri⟩ := put_eq (by exact hsize) .usual slash
  rw [ngxHttpParseComplexUri, if_pos rfl, hput, pure_bind]
  show (complexLoop merge size tail _ >>= _) = _
  rw [complexLoop_close rfl htail]
  rfl

/-- The arguments end at a hash. -/
theorem argsFrom_complexEnd (st : Scan) (tail : List UInt8) :
    argsFrom (complexEnd st (argsPart tail)).args (complexEnd st (argsPart tail)).argsStart =
      match tail with
      | [] => []
      | c :: rest => if c = question then rest.takeWhile (· ≠ RequestLine.hash) else [] := by
  cases tail with
  | nil => rfl
  | cons c rest =>
      rw [argsPart]
      by_cases hc : c = question
      · rw [if_pos hc]
        show argsFrom (complexEnd st (some rest)).args _ = if c = question then _ else []
        rw [if_pos hc, complexEnd]
        by_cases hhash : RequestLine.hash ∈ rest
        · rw [if_pos hhash]
          rfl
        · have hall : ∀ c ∈ rest, decide (c ≠ RequestLine.hash) = true := fun c hc =>
            decide_eq_true fun heq => hhash (heq ▸ hc)
          rw [if_neg hhash, List.takeWhile_eq_self_iff.mpr hall, argsFrom]
          split_ifs with hrest
          · exact hrest.symm
          · rfl
      · rw [if_neg hc]
        exact (if_neg hc).symm

end NginxDtls.RequestUri
