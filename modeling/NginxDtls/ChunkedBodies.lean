import NginxDtls.ChunkedFilter
import NginxDtls.ChunkedGrammar
import NginxDtls.ChunkedLength

/-! The calls of the filter, one for each buffer, come to the same however a stream is cut into buffers, and a call never asks
for more bytes than a body still has. -/

namespace NginxDtls.ChunkedBody

/-! ### One call -/

/-- The bytes of a buffer. -/
def Buf.content (buf : Buf) : List UInt8 := bytes buf.mem buf.pos (buf.last - buf.pos)

/-- One call does with a buffer what the stream says. -/
inductive CallAgrees (buf : Buf) : Decoded → Filtered → Prop where
  | again {state : ChunkedState} {size : ℕ} {n : ℤ} {data : List UInt8} {out : List (List UInt8 × Bool)} {rest : ℤ}
      (inside : Inside state size) (small : size ≤ maxOffT - 5) (hrest : 0 < rest)
      (hdata : (out.map Prod.fst).flatten = data) :
      CallAgrees buf (.again state size n data)
        ⟨⟨rest, ⟨state, size, lengthOf state size⟩, n⟩, out, [buf.pos + buf.content.length], none⟩
  | done {ctx : Chunked} {rest : List UInt8} {n : ℤ} {data : List UInt8} {out : List (List UInt8 × Bool)} {k : ℕ}
      (consumed : k + rest.length = buf.content.length) (hdata : (out.map Prod.fst).flatten = data) :
      CallAgrees buf (.done rest n data) ⟨⟨0, ctx, n⟩, out, [buf.pos + k], none⟩
  | invalid {request : Request} {pos : List ℕ} : CallAgrees buf .invalid ⟨request, [], pos, some 400⟩
  | tooLarge {request : Request} {pos : List ℕ} : CallAgrees buf .tooLarge ⟨request, [], pos, some 413⟩

theorem flatten_passed (data : List (List UInt8)) : ((data.map fun data => (data, false)).map Prod.fst).flatten = data.flatten := by
  rw [List.map_map]
  exact congrArg List.flatten (List.map_id data)

theorem lengthOf_pos (state : ChunkedState) (size : ℕ) : 0 < lengthOf state size := by
  cases state
  all_goals
    simp only [lengthOf]
    omega

/-- A call of the filter with one buffer. -/
theorem filter_agrees (conf : Conf) (request : Request) (buf : Buf)
    (hsound : Sound (request.begin conf).chunked.state (request.begin conf).chunked.size) :
    ∃ filtered, ngxHttpRequestBodyChunkedFilter conf request [buf] = some filtered ∧
      CallAgrees buf
        (decode conf (request.begin conf).chunked.state (request.begin conf).chunked.size
          (request.begin conf).contentLengthN buf.content) filtered := by
  have hplaced : Loop.Placed
      ⟨buf.mem, buf.pos, (request.begin conf).chunked, (request.begin conf).contentLengthN, [], none⟩ :=
    { last := fun b hb => by cases hb
      before := fun o ho => by cases ho }
  obtain ⟨⟨l, ends⟩, hresult, hagrees⟩ := filterLoop_ends conf buf.last hplaced hsound (Nat.lt_succ_self _)
  rw [ngxHttpRequestBodyChunkedFilter, chainLoop]
  change Agrees buf.pos buf.last [] (decode _ _ _ _ buf.content) (l, ends) at hagrees
  revert hagrees
  generalize decode conf (request.begin conf).chunked.state (request.begin conf).chunked.size
    (request.begin conf).contentLengthN buf.content = d
  intro hagrees
  rw [hresult]
  cases hagrees with
  | @again _ size state data inside small pos ctx content =>
      have hend : l.pos = buf.pos + buf.content.length := by
        rw [pos, Buf.content, length_bytes]
        omega
      refine ⟨_, rfl, ?_⟩
      dsimp only
      rw [ctx, hend]
      refine .again inside small (lt_max_of_lt_left (Int.natCast_pos.mpr (lengthOf_pos state size))) ?_
      rw [List.nil_append, flatten_passed, content, List.nil_append]
  | @done _ data hstart pos content =>
      have hend : l.pos = buf.pos + (l.pos - buf.pos) := by omega
      refine ⟨_, rfl, ?_⟩
      dsimp only [List.nil_append, chainLoop]
      rw [hend]
      refine .done ?_ ?_
      · rw [length_bytes, Buf.content, length_bytes]
        omega
      · rw [List.map_append, List.flatten_append, flatten_passed, content]
        exact List.append_nil data
  | invalid => exact ⟨_, rfl, .invalid⟩
  | tooLarge => exact ⟨_, rfl, .tooLarge⟩

/-! ### The calls for a body -/

/-- What some calls come to, with the data that is passed on and where the buffers have been read up to. -/
structure Called where
  ends : End
  request : Request
  data : List UInt8
  pos : List ℕ

/-- The calls of the filter, one for each buffer, up to the last chunk or a status. -/
def calls (conf : Conf) : Request → List Buf → Option Called
  | request, [] => some ⟨.again, request, [], []⟩
  | request, buf :: bufs => do
    let filtered ← ngxHttpRequestBodyChunkedFilter conf request [buf]
    let data := (filtered.out.map Prod.fst).flatten
    match filtered.status with
    | some code => some ⟨.status code, filtered.request, data, filtered.pos⟩
    | none =>
      if filtered.request.rest = 0 then some ⟨.done, filtered.request, data, filtered.pos⟩
      else do
        let called ← calls conf filtered.request bufs
        some ⟨called.ends, called.request, data ++ called.data, filtered.pos ++ called.pos⟩

/-- The bytes of all buffers. -/
def stream (bufs : List Buf) : List UInt8 := (bufs.map Buf.content).flatten

/-- The positions after a number of bytes: all of the buffers before the last one that is read. -/
inductive ReadTo : List Buf → List ℕ → ℕ → Prop where
  | here {buf : Buf} {bufs : List Buf} {k : ℕ} (h : k ≤ buf.content.length) : ReadTo (buf :: bufs) [buf.pos + k] k
  | next {buf : Buf} {bufs : List Buf} {pos : List ℕ} {k : ℕ} (h : ReadTo bufs pos k) :
      ReadTo (buf :: bufs) ((buf.pos + buf.content.length) :: pos) (buf.content.length + k)

/-- The calls do with the buffers what the stream says. -/
inductive RunAgrees (conf : Conf) (bufs : List Buf) : Decoded → Called → Prop where
  | again {state : ChunkedState} {size : ℕ} {n : ℤ} {data : List UInt8} {called : Called} (ends : called.ends = .again)
      (inside : Inside state size) (hdata : called.data = data) (hn : (called.request.begin conf).contentLengthN = n)
      (hstate : (called.request.begin conf).chunked.state = state)
      (hsize : (called.request.begin conf).chunked.size = size)
      (hlength : (called.request.begin conf).chunked.length ≤ lengthOf state size) (hsmall : size ≤ maxOffT - 5) :
      RunAgrees conf bufs (.again state size n data) called
  | done {rest : List UInt8} {n : ℤ} {data : List UInt8} {called : Called} {k : ℕ} (ends : called.ends = .done)
      (hdata : called.data = data) (hn : called.request.contentLengthN = n) (read : ReadTo bufs called.pos k)
      (consumed : k + rest.length = (stream bufs).length) : RunAgrees conf bufs (.done rest n data) called
  | invalid {called : Called} (ends : called.ends = .status 400) : RunAgrees conf bufs .invalid called
  | tooLarge {called : Called} (ends : called.ends = .status 413) : RunAgrees conf bufs .tooLarge called

/-- The calls from the second one on. -/
theorem RunAgrees.after {conf : Conf} {buf : Buf} {bufs : List Buf} {data : List UInt8} {d : Decoded} {called : Called}
    (h : RunAgrees conf bufs d called) :
    RunAgrees conf (buf :: bufs) (d.after data)
      ⟨called.ends, called.request, data ++ called.data, (buf.pos + buf.content.length) :: called.pos⟩ := by
  cases h with
  | again ends inside hdata hn hstate hsize hlength hsmall =>
      exact .again ends inside (congrArg (data ++ ·) hdata) hn hstate hsize hlength hsmall
  | done ends hdata hn read consumed =>
      refine .done ends (congrArg (data ++ ·) hdata) hn read.next ?_
      rw [stream, List.map_cons, List.flatten_cons, List.length_append, add_assoc, consumed]
      rfl
  | invalid ends => exact .invalid ends
  | tooLarge ends => exact .tooLarge ends

/-- A request between two calls, or before the first one. -/
structure Request.Ready (conf : Conf) (request : Request) : Prop where
  inside : Inside (request.begin conf).chunked.state (request.begin conf).chunked.size
  small : (request.begin conf).chunked.size ≤ maxOffT - 5
  length : (request.begin conf).chunked.length ≤
    lengthOf (request.begin conf).chunked.state (request.begin conf).chunked.size

theorem Request.begin_of_pos {conf : Conf} {rest : ℤ} (hrest : 0 < rest) (chunked : Chunked) (n : ℤ) :
    Request.begin conf ⟨rest, chunked, n⟩ = ⟨rest, chunked, n⟩ := if_neg (by dsimp only; omega)

theorem Request.Ready.waiting {conf : Conf} {rest n : ℤ} {state : ChunkedState} {size : ℕ} (hinside : Inside state size)
    (hsmall : size ≤ maxOffT - 5) (hrest : 0 < rest) :
    Request.Ready conf ⟨rest, ⟨state, size, lengthOf state size⟩, n⟩ := by
  have hbegin := @Request.begin_of_pos conf rest hrest ⟨state, size, lengthOf state size⟩ n
  exact
    { inside := by rw [hbegin]; exact hinside
      small := by rw [hbegin]; exact hsmall
      length := by rw [hbegin] }

theorem calls_agree (conf : Conf) {request : Request} (h : request.Ready conf) (bufs : List Buf) :
    ∃ called, calls conf request bufs = some called ∧
      RunAgrees conf bufs
        (decode conf (request.begin conf).chunked.state (request.begin conf).chunked.size
          (request.begin conf).contentLengthN (stream bufs)) called := by
  induction bufs generalizing request with
  | nil =>
      refine ⟨_, rfl, ?_⟩
      rw [stream, List.map_nil, List.flatten_nil, decode, if_neg (not_lt.mpr h.small), h.inside.enter]
      exact .again rfl h.inside rfl rfl rfl rfl h.length h.small
  | cons buf bufs ih =>
      obtain ⟨filtered, hfiltered, hagrees⟩ := filter_agrees conf request buf h.inside.toSound
      have hstream : stream (buf :: bufs) = buf.content ++ stream bufs := by rw [stream, List.map_cons, List.flatten_cons]; rfl
      rw [calls, hfiltered, hstream, decode_append conf h.inside.toSound]
      revert hagrees
      generalize decode conf (request.begin conf).chunked.state (request.begin conf).chunked.size
        (request.begin conf).contentLengthN buf.content = d
      intro hagrees
      cases hagrees with
      | @again state size n data out rest inside small hrest hdata =>
          have hbegin := @Request.begin_of_pos conf rest hrest ⟨state, size, lengthOf state size⟩ n
          obtain ⟨called, hcalled, hmore⟩ := @ih ⟨rest, ⟨state, size, lengthOf state size⟩, n⟩ (.waiting inside small hrest)
          rw [hbegin] at hmore
          refine ⟨⟨called.ends, called.request, data ++ called.data, (buf.pos + buf.content.length) :: called.pos⟩, ?_, hmore.after⟩
          dsimp only [Option.bind_eq_bind, Option.bind_some]
          rw [if_neg hrest.ne', hcalled, hdata]
          rfl
      | @done ctx rest n data out k consumed hdata =>
          have hle : k ≤ buf.content.length := by omega
          refine ⟨_, rfl, .done rfl hdata rfl (.here hle) ?_⟩
          rw [hstream, List.length_append, List.length_append, ← add_assoc, consumed]
      | invalid => exact ⟨_, rfl, .invalid rfl⟩
      | tooLarge => exact ⟨_, rfl, .tooLarge rfl⟩

/-! ### Contexts -/

/-- The filter takes contexts to contexts that are reached in calls of the parser and by taking data. -/
theorem filterLoop_reached {conf : Conf} {last rounds : ℕ} {l l' : Loop} (h : Reached l.ctx)
    (hresult : filterLoop conf last rounds l = some (l', .again)) : Reached l'.ctx := by
  induction rounds generalizing l with
  | zero => cases hresult
  | succ rounds ih =>
      rw [filterLoop] at hresult
      cases hparsed : ngxHttpParseChunked l.mem l.pos last l.ctx with
      | mk rc tail =>
          obtain ⟨pos, ctx⟩ := tail
          rw [hparsed] at hresult
          cases rc with
          | again =>
              cases hresult
              exact h.call hparsed (Or.inl rfl)
          | ok =>
              have hctx := h.call hparsed (Or.inr rfl)
              obtain ⟨-, -, -, hok, -⟩ := ngxHttpParseChunked_left h.sound (Or.inr rfl) hparsed
              have hall : Reached { ctx with size := 0 } := by
                have hdata := hctx.data (hok rfl) (le_refl ctx.size)
                rwa [Nat.sub_self] at hdata
              have hpass : ∀ b, Reached (Loop.pass { l with pos := pos, ctx := ctx, b := b } last).ctx := by
                intro b
                rw [Loop.pass]
                dsimp only
                split
                · exact hall
                · rename_i hle
                  exact hctx.data (hok rfl) (not_lt.mp hle)
              dsimp only at hresult
              by_cases hlimit : conf.clientMaxBodySize ≠ 0 ∧ conf.clientMaxBodySize - l.contentLengthN < ctx.size
              · rw [if_pos hlimit] at hresult
                cases hresult
              · rw [if_neg hlimit] at hresult
                cases hb : l.b with
                | none =>
                    rw [hb] at hresult
                    exact ih (hpass _) hresult
                | some b =>
                    rw [hb] at hresult
                    dsimp only at hresult
                    split_ifs at hresult with hcopy
                    · exact ih hall hresult
                    · exact ih (hpass _) hresult
          | done => cases hresult
          | error => cases hresult

theorem filter_reached {conf : Conf} {request : Request} {buf : Buf} {filtered : Filtered}
    (h : Reached (request.begin conf).chunked) (hresult : ngxHttpRequestBodyChunkedFilter conf request [buf] = some filtered)
    (hstatus : filtered.status = none) (hrest : filtered.request.rest ≠ 0) : Reached filtered.request.chunked := by
  rw [ngxHttpRequestBodyChunkedFilter, chainLoop] at hresult
  cases hloop : filterLoop conf buf.last (buf.last - buf.pos + 1)
      ⟨buf.mem, buf.pos, (request.begin conf).chunked, (request.begin conf).contentLengthN, [], none⟩ with
  | none =>
      rw [hloop] at hresult
      cases hresult
  | some result =>
      obtain ⟨l, ends⟩ := result
      rw [hloop] at hresult
      cases ends with
      | again =>
          cases hresult
          exact filterLoop_reached h hloop
      | done =>
          cases hresult
          exact absurd rfl hrest
      | status code =>
          cases hresult
          cases hstatus

/-- A request that waits for more of its body has such a context. -/
theorem calls_reached {conf : Conf} {request : Request} {bufs : List Buf} {called : Called} (h : request.Ready conf)
    (hreached : Reached (request.begin conf).chunked) (hresult : calls conf request bufs = some called)
    (hends : called.ends = .again) : Reached (called.request.begin conf).chunked := by
  induction bufs generalizing request called with
  | nil =>
      cases hresult
      exact hreached
  | cons buf bufs ih =>
      obtain ⟨filtered, hfiltered, hagrees⟩ := filter_agrees conf request buf h.inside.toSound
      have hnext := filter_reached hreached hfiltered
      rw [calls, hfiltered] at hresult
      revert hagrees
      generalize decode conf (request.begin conf).chunked.state (request.begin conf).chunked.size
        (request.begin conf).contentLengthN buf.content = d
      intro hagrees
      cases hagrees with
      | @again state size n data out rest inside small hrest hdata =>
          have hbegin := @Request.begin_of_pos conf rest hrest ⟨state, size, lengthOf state size⟩ n
          dsimp only [Option.bind_eq_bind, Option.bind_some] at hresult
          rw [if_neg hrest.ne'] at hresult
          cases hmore : calls conf ⟨rest, ⟨state, size, lengthOf state size⟩, n⟩ bufs with
          | none =>
              rw [hmore] at hresult
              cases hresult
          | some more =>
              rw [hmore] at hresult
              cases hresult
              have hmoreReached := ih (.waiting inside small hrest) (by rw [hbegin]; exact hnext rfl hrest.ne') hmore hends
              exact hmoreReached
      | done =>
          cases hresult
          cases hends
      | invalid =>
          cases hresult
          cases hends
      | tooLarge =>
          cases hresult
          cases hends

/-! ### Bodies in pieces -/

/-- Two ways to send the same bytes come to the same. -/
inductive SameEnd (conf : Conf) (bufs bufs' : List Buf) (called called' : Called) : Prop where
  | again (ends : called.ends = .again) (ends' : called'.ends = .again) (data : called.data = called'.data)
      (contentLengthN : (called.request.begin conf).contentLengthN = (called'.request.begin conf).contentLengthN)
      (state : (called.request.begin conf).chunked.state = (called'.request.begin conf).chunked.state)
      (size : (called.request.begin conf).chunked.size = (called'.request.begin conf).chunked.size)
  | done {k : ℕ} (ends : called.ends = .done) (ends' : called'.ends = .done) (data : called.data = called'.data)
      (contentLengthN : called.request.contentLengthN = called'.request.contentLengthN)
      (read : ReadTo bufs called.pos k) (read' : ReadTo bufs' called'.pos k)
  | status {code : ℕ} (ends : called.ends = .status code) (ends' : called'.ends = .status code)

theorem RunAgrees.sameEnd {conf : Conf} {bufs bufs' : List Buf} {d : Decoded} {called called' : Called}
    (hstream : stream bufs = stream bufs') (h : RunAgrees conf bufs d called) (h' : RunAgrees conf bufs' d called') :
    SameEnd conf bufs bufs' called called' := by
  cases h with
  | again ends inside hdata hn hstate hsize =>
      cases h' with
      | again ends' inside' hdata' hn' hstate' hsize' =>
          exact .again ends ends' (hdata.trans hdata'.symm) (hn.trans hn'.symm) (hstate.trans hstate'.symm)
            (hsize.trans hsize'.symm)
  | @done rest n data _ k ends hdata hn read consumed =>
      cases h' with
      | @done _ _ _ _ k' ends' hdata' hn' read' consumed' =>
          have hk : k' = k := by
            rw [hstream] at consumed
            omega
          exact .done ends ends' (hdata.trans hdata'.symm) (hn.trans hn'.symm) read (hk ▸ read')
  | invalid ends =>
      cases h' with
      | invalid ends' => exact .status ends ends'
  | tooLarge ends =>
      cases h' with
      | tooLarge ends' => exact .status ends ends'

theorem RunAgrees.of_done {conf : Conf} {bufs : List Buf} {d : Decoded} {called : Called} (h : RunAgrees conf bufs d called)
    (hends : called.ends = .done) : ∃ rest k, d = .done rest called.request.contentLengthN called.data ∧
      ReadTo bufs called.pos k ∧ k + rest.length = (stream bufs).length := by
  cases h with
  | @done rest n data _ k ends hdata hn read consumed => exact ⟨rest, k, by rw [hdata, hn], read, consumed⟩
  | again ends => cases ends.symm.trans hends
  | invalid ends => cases ends.symm.trans hends
  | tooLarge ends => cases ends.symm.trans hends

theorem RunAgrees.ready {conf : Conf} {bufs : List Buf} {d : Decoded} {called : Called} (h : RunAgrees conf bufs d called)
    (hends : called.ends = .again) : called.request.Ready conf := by
  cases h with
  | again ends inside hdata hn hstate hsize hlength hsmall =>
      exact
        { inside := by rw [hstate, hsize]; exact inside
          small := by rw [hsize]; exact hsmall
          length := by rw [hstate, hsize]; exact hlength }
  | done ends => cases ends.symm.trans hends
  | invalid ends => cases ends.symm.trans hends
  | tooLarge ends => cases ends.symm.trans hends

/-- A request that goes on to the last chunk reads no fewer bytes than it has waited for. -/
theorem Request.Ready.length_le {conf : Conf} {request : Request} (h : request.Ready conf) {bufs : List Buf} {called : Called}
    (hresult : calls conf request bufs = some called) (hends : called.ends = .done) :
    ∃ k, ReadTo bufs called.pos k ∧ (request.begin conf).chunked.length ≤ k := by
  obtain ⟨called', hcalled, hagrees⟩ := calls_agree conf h bufs
  obtain rfl := Option.some.inj (hcalled.symm.trans hresult)
  obtain ⟨rest, k, hdecode, hread, hconsumed⟩ := hagrees.of_done hends
  have hlength := decode_length h.inside.toSound hdecode
  have hleast := h.length
  exact ⟨k, hread, by omega⟩

/-- What the calls of the filter do for a request. -/
structure Exact (conf : Conf) (bufs : List Buf) (request : Request) (called : Called) : Prop where
  /-- One buffer with the same bytes comes to the same. -/
  whole : ∀ buf : Buf, buf.content = stream bufs →
    ∃ called', calls conf request [buf] = some called' ∧ SameEnd conf bufs [buf] called called'
  /-- With the last chunk the bytes up to its end are a body, and its data has been passed on. -/
  body : called.ends = .done → ∃ u rest, stream bufs = u ++ rest ∧ Body u called.data ∧
    called.request.contentLengthN = called.data.length ∧ ReadTo bufs called.pos u.length
  /-- Every body is read to its end, unless it is longer than allowed. -/
  complete : ∀ u data rest, stream bufs = u ++ rest → Body u data → conf.Allows data.length →
    called.ends = .done ∧ called.data = data ∧ ReadTo bufs called.pos u.length
  /-- What is waited for is not more than what comes before the end of a body. -/
  waiting : called.ends = .again → Reached (called.request.begin conf).chunked ∧
    ∀ more called', calls conf called.request more = some called' → called'.ends = .done →
      ∃ k, ReadTo more called'.pos k ∧ (called.request.begin conf).chunked.length ≤ k

theorem begin_new (conf : Conf) (chunked : Chunked) (n : ℤ) :
    Request.begin conf ⟨-1, chunked, n⟩ = ⟨conf.largeClientHeaderBuffersSize, ⟨.chunkStart, 0, 0⟩, 0⟩ := if_pos rfl

theorem calls_exact (conf : Conf) (chunked : Chunked) (n : ℤ) (bufs : List Buf) :
    ∃ called, calls conf ⟨-1, chunked, n⟩ bufs = some called ∧ Exact conf bufs ⟨-1, chunked, n⟩ called := by
  have hbegin := begin_new conf chunked n
  have hready : Request.Ready conf ⟨-1, chunked, n⟩ :=
    { inside := by rw [hbegin]; exact ⟨Reached.start.sound, fun h => by cases h⟩
      small := by rw [hbegin]; exact Nat.zero_le _
      length := by rw [hbegin]; exact Nat.zero_le _ }
  obtain ⟨called, hcalled, hagrees⟩ := calls_agree conf hready bufs
  have hreached := @calls_reached _ _ bufs called hready (by rw [hbegin]; exact .start) hcalled
  refine ⟨called, hcalled, ?_⟩
  exact
    { whole := fun buf hbuf => by
        obtain ⟨called', hcalled', hagrees'⟩ := calls_agree conf hready [buf]
        have hstream : stream [buf] = stream bufs := by
          rw [← hbuf, stream, List.map_singleton, List.flatten_singleton]
        rw [hstream] at hagrees'
        exact ⟨called', hcalled', hagrees.sameEnd hstream.symm hagrees'⟩
      body := fun hends => by
        obtain ⟨rest, k, hdecode, hread, hconsumed⟩ := hagrees.of_done hends
        rw [hbegin] at hdecode
        obtain ⟨hn, u, hstream, hbody⟩ := residual_of_decode Reached.start.sound hdecode
        have hk : k = u.length := by
          rw [hstream, List.length_append] at hconsumed
          omega
        exact ⟨u, rest, hstream, hbody, hn.trans (zero_add _), hk ▸ hread⟩
      complete := fun u data rest hstream hbody hallows => by
        rw [hbegin, hstream, decode_body hbody (by rwa [zero_add])] at hagrees
        cases hagrees with
        | @done _ _ _ _ k ends hdata hn read consumed =>
            have hk : k = u.length := by
              rw [hstream, List.length_append] at consumed
              omega
            exact ⟨ends, hdata, hk ▸ read⟩
      waiting := fun hends =>
        ⟨hreached hends, fun _ _ hmore hdone => (hagrees.ready hends).length_le hmore hdone⟩ }

/-- Chunked bodies decode exactly: however a stream is cut into buffers the calls come to what they come to with one buffer; with
the last chunk the data of the chunks has been passed on and the position is right behind the body; and in every call of the parser
the size stays within its type and the length is at most that of every way to go on to the end of the body. -/
theorem chunked_bodies :
    (∀ (conf : Conf) (chunked : Chunked) (n : ℤ) (bufs : List Buf),
      ∃ called, calls conf ⟨-1, chunked, n⟩ bufs = some called ∧ Exact conf bufs ⟨-1, chunked, n⟩ called) ∧
    ∀ ctx, Reached ctx → ∀ mem pos last,
      (∀ left, (parseLoop mem left pos (enter ctx.state ctx.size) ctx.size).2.2.2 ≤ maxOffT) ∧
      ∀ rc pos' ctx', ngxHttpParseChunked mem pos last ctx = (rc, pos', ctx') → rc = .again ∨ rc = .ok →
        ctx'.length ≤ maxOffT ∧ ∀ missing, Missing ctx' missing → ctx'.length ≤ missing := by
  refine ⟨calls_exact, fun ctx h mem pos last => ⟨fun left => h.no_overflow.1 mem left pos, ?_⟩⟩
  intro rc pos' ctx' hparsed hrc
  obtain ⟨hinside, -, -, -, hlength, -⟩ := ngxHttpParseChunked_left h.sound hrc hparsed
  refine ⟨(h.call hparsed hrc).no_overflow.2, fun missing hmissing => ?_⟩
  rw [hlength]
  exact hmissing.le hinside.toSound

/- A chunk in three buffers, and a second one that is copied behind the first. -/
example :
    let buf : List UInt8 → Buf := fun w => ⟨fun i => w.getD i 0, 0, w.length⟩
    (calls ⟨0, 8192⟩ ⟨-1, ⟨.chunkStart, 0, 0⟩, -1⟩
      [buf [51, 13], buf [10, 97], buf [98, 99, 10, 50, 10, 100, 101, 13, 10, 48, 10, 10, 71]]).map
        (fun called => (called.ends, called.data, called.pos, called.request.contentLengthN)) =
      some (.done, [97, 98, 99, 100, 101], [2, 2, 12], 5) := by decide +kernel

end NginxDtls.ChunkedBody
