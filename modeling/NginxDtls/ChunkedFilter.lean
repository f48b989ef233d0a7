import NginxDtls.ChunkedDecode

/-! The filter takes the data of the chunks out of a buffer, behind one another where they are small, and leaves what the stream
says. -/

namespace NginxDtls.ChunkedBody

/-! ### Memory -/

theorem length_bytes (mem : ℕ → UInt8) (pos n : ℕ) : (bytes mem pos n).length = n := by
  induction n generalizing pos with
  | zero => rfl
  | succ n ih => rw [bytes, List.length_cons, ih]

theorem bytes_add (mem : ℕ → UInt8) (pos m n : ℕ) : bytes mem pos (m + n) = bytes mem pos m ++ bytes mem (pos + m) n := by
  induction m generalizing pos with
  | zero => rw [Nat.zero_add, bytes, List.nil_append, Nat.add_zero]
  | succ m ih =>
      have hleft : m + 1 + n = m + n + 1 := by omega
      have hpos : pos + 1 + m = pos + (m + 1) := by omega
      rw [hleft, bytes, bytes, ih, hpos, List.cons_append]

theorem bytes_congr {mem mem' : ℕ → UInt8} {pos n : ℕ} (h : ∀ i, pos ≤ i → i < pos + n → mem i = mem' i) :
    bytes mem pos n = bytes mem' pos n := by
  induction n generalizing pos with
  | zero => rfl
  | succ n ih => rw [bytes, bytes, h pos (le_refl _) (by omega), ih fun i hle hlt => h i (by omega) (by omega)]

/-- Bytes that are moved down one by one are the bytes that have been there. -/
theorem copyBytes_eq {dst src : ℕ} (h : dst ≤ src) (mem : ℕ → UInt8) (n : ℕ) :
    copyBytes mem dst src n = ngxMemmove mem dst src n := by
  induction n generalizing mem dst src with
  | zero =>
      funext i
      rw [copyBytes, ngxMemmove, if_neg (by omega)]
  | succ n ih =>
      rw [copyBytes, ih (Nat.succ_le_succ h)]
      funext i
      rw [ngxMemmove, ngxMemmove]
      by_cases hcopied : dst + 1 ≤ i ∧ i < dst + 1 + n
      · have hfrom : src + 1 + (i - (dst + 1)) = src + (i - dst) := by omega
        rw [if_pos hcopied, if_pos (by omega), hfrom, Function.update_of_ne (by omega)]
      · rw [if_neg hcopied]
        by_cases hfirst : i = dst
        · rw [hfirst, Function.update_self, if_pos (by omega), Nat.sub_self, Nat.add_zero]
        · rw [Function.update_of_ne hfirst, if_neg (by omega)]

theorem bytes_ngxMemmove (mem : ℕ → UInt8) (dst src n : ℕ) : bytes (ngxMemmove mem dst src n) dst n = bytes mem src n := by
  have hall : ∀ k ≤ n, bytes (ngxMemmove mem dst src n) (dst + (n - k)) k = bytes mem (src + (n - k)) k := by
    intro k
    induction k with
    | zero => exact fun _ => rfl
    | succ k ih =>
        intro hk
        have hdst : dst + (n - (k + 1)) + 1 = dst + (n - k) := by omega
        have hsrc : src + (n - (k + 1)) + 1 = src + (n - k) := by omega
        have hfrom : dst + (n - (k + 1)) - dst = n - (k + 1) := by omega
        rw [bytes, bytes, hdst, hsrc, ih (by omega), ngxMemmove, if_pos (by omega), hfrom]
  simpa using hall n (le_refl n)

theorem bytes_ngxMemmove_of_disjoint {mem : ℕ → UInt8} {dst src n pos k : ℕ} (h : pos + k ≤ dst ∨ dst + n ≤ pos) :
    bytes (ngxMemmove mem dst src n) pos k = bytes mem pos k :=
  bytes_congr fun i hle hlt => by rw [ngxMemmove, if_neg (by omega)]

/-! ### One chunk -/

/-- What has been put out lies in front of what is read next, and behind nothing that has been put out. -/
structure Loop.Placed (l : Loop) : Prop where
  last : ∀ b, l.b = some b → b.pos ≤ b.last ∧ b.last ≤ l.pos
  before : ∀ o ∈ l.out, o.pos ≤ o.last ∧ o.last ≤ l.pos ∧ ∀ b, l.b = some b → o.last ≤ b.last

/-- Some bytes of a chunk have been taken. -/
structure Loop.Taken (l l' : Loop) (n : ℕ) : Prop where
  placed : l'.Placed
  pos : l'.pos = l.pos + n
  ctx : l'.ctx = { l.ctx with size := l.ctx.size - n }
  contentLengthN : l'.contentLengthN = l.contentLengthN + n
  content : l'.content.flatten = l.content.flatten ++ bytes l.mem l.pos n
  mem : ∀ k, bytes l'.mem (l.pos + n) k = bytes l.mem (l.pos + n) k

theorem Loop.content_eq (l : Loop) :
    l.content.flatten = (l.out.map fun b => bytes l.mem b.pos (b.last - b.pos)).flatten ++
      (l.b.toList.map fun b => bytes l.mem b.pos (b.last - b.pos)).flatten := by
  rw [Loop.content, List.map_append, List.flatten_append]

theorem Loop.copy_taken {l : Loop} (h : l.Placed) {b : OutBuf} (hb : l.b = some b) : l.Taken (l.copy b) l.ctx.size := by
  obtain ⟨hle, hlast⟩ := h.last b hb
  have hmem : (l.copy b).mem = ngxMemmove l.mem b.last l.pos l.ctx.size := by
    rw [Loop.copy]
    split
    · exact copyBytes_eq hlast l.mem l.ctx.size
    · rfl
  have hout : (l.copy b).out.map (fun o => bytes (l.copy b).mem o.pos (o.last - o.pos)) =
      l.out.map fun o => bytes l.mem o.pos (o.last - o.pos) := by
    apply List.map_congr_left
    intro o ho
    obtain ⟨hole, -, hob⟩ := h.before o ho
    have hob := hob b hb
    rw [hmem, bytes_ngxMemmove_of_disjoint (Or.inl (by omega))]
  have hgrown : bytes (l.copy b).mem b.pos (b.last + l.ctx.size - b.pos) =
      bytes l.mem b.pos (b.last - b.pos) ++ bytes l.mem l.pos l.ctx.size := by
    have hlength : b.last + l.ctx.size - b.pos = b.last - b.pos + l.ctx.size := by omega
    have hend : b.pos + (b.last - b.pos) = b.last := by omega
    rw [hmem, hlength, bytes_add, hend, bytes_ngxMemmove, bytes_ngxMemmove_of_disjoint (Or.inl (by omega))]
  exact
    { placed :=
        { last := fun b' hb' => by
            obtain rfl := Option.some.inj hb'
            change b.pos ≤ b.last + l.ctx.size ∧ b.last + l.ctx.size ≤ l.pos + l.ctx.size
            omega
          before := fun o ho => by
            obtain ⟨hole, hopos, hob⟩ := h.before o ho
            have hob := hob b hb
            refine ⟨hole, hopos.trans (Nat.le_add_right _ _), fun b' hb' => ?_⟩
            obtain rfl := Option.some.inj hb'
            exact hob.trans (Nat.le_add_right _ _) }
      pos := rfl
      ctx := by rw [Nat.sub_self]; rfl
      contentLengthN := rfl
      content := by
        rw [Loop.content_eq, Loop.content_eq, hout, hb]
        change _ ++ ([bytes (l.copy b).mem b.pos (b.last + l.ctx.size - b.pos)]).flatten = _
        rw [hgrown, Option.toList_some, List.map_singleton, List.flatten_singleton, List.flatten_singleton, List.append_assoc]
      mem := fun k => by rw [hmem, bytes_ngxMemmove_of_disjoint (Or.inr (by omega))] }

/-- A chunk is put out as far as it has come. -/
theorem Loop.pass_eq {l : Loop} {last : ℕ} (h : l.pos ≤ last) :
    l.pass last =
      { l with
        pos := l.pos + min (last - l.pos) l.ctx.size
        ctx := { l.ctx with size := l.ctx.size - min (last - l.pos) l.ctx.size }
        contentLengthN := l.contentLengthN + (min (last - l.pos) l.ctx.size : ℕ)
        out := l.out ++ l.b.toList
        b := some ⟨l.pos, l.pos + min (last - l.pos) l.ctx.size⟩ } := by
  rw [Loop.pass]
  dsimp only
  split
  · rename_i hlt
    rw [min_eq_right hlt.le, Nat.sub_self]
  · rename_i hle
    have hend : l.pos + (last - l.pos) = last := by omega
    rw [min_eq_left (not_lt.mp hle), hend]

theorem Loop.pass_taken {l : Loop} (h : l.Placed) (last : ℕ) (hlast : l.pos ≤ last) :
    l.Taken (l.pass last) (min (last - l.pos) l.ctx.size) := by
  rw [Loop.pass_eq hlast]
  generalize min (last - l.pos) l.ctx.size = n
  exact
    { placed :=
        { last := fun b hb => by
            obtain rfl := Option.some.inj hb
            exact ⟨Nat.le_add_right _ _, le_refl _⟩
          before := fun o ho => by
            have hpos : o.pos ≤ o.last ∧ o.last ≤ l.pos := by
              rcases List.mem_append.mp ho with ho | ho
              · obtain ⟨hole, hopos, -⟩ := h.before o ho
                exact ⟨hole, hopos⟩
              · exact h.last o (Option.mem_toList.mp ho)
            refine ⟨hpos.1, hpos.2.trans (Nat.le_add_right _ _), fun b hb => ?_⟩
            obtain rfl := Option.some.inj hb
            exact hpos.2.trans (Nat.le_add_right _ _) }
      pos := rfl
      ctx := rfl
      contentLengthN := rfl
      content := by
        rw [Loop.content_eq, Loop.content]
        dsimp only
        rw [Option.toList_some, List.map_singleton, List.flatten_singleton, Nat.add_sub_cancel_left]
      mem := fun k => rfl }

/-! ### The loop -/

/-- The loop over a buffer leaves what the stream says, behind what has been put out before. -/
inductive Agrees (start last : ℕ) (before : List UInt8) : Decoded → Loop × End → Prop where
  | again {l : Loop} {size : ℕ} {state : ChunkedState} {data : List UInt8} (inside : Inside state size)
      (small : size ≤ maxOffT - 5) (pos : l.pos = max start last) (ctx : l.ctx = ⟨state, size, lengthOf state size⟩)
      (content : l.content.flatten = before ++ data) :
      Agrees start last before (.again state size l.contentLengthN data) (l, .again)
  | done {l : Loop} {data : List UInt8} (hstart : start ≤ l.pos) (pos : l.pos ≤ last)
      (content : l.content.flatten = before ++ data) :
      Agrees start last before (.done (bytes l.mem l.pos (last - l.pos)) l.contentLengthN data) (l, .done)
  | invalid {l : Loop} : Agrees start last before .invalid (l, .status 400)
  | tooLarge {l : Loop} : Agrees start last before .tooLarge (l, .status 413)

theorem Agrees.after {start last : ℕ} {before data : List UInt8} {d : Decoded} {result : Loop × End}
    (h : Agrees start last (before ++ data) d result) : Agrees start last before (d.after data) result := by
  cases h with
  | again inside small pos ctx content => exact .again inside small pos ctx (by rw [content, List.append_assoc])
  | done hstart pos content => exact .done hstart pos (by rw [content, List.append_assoc])
  | invalid => exact .invalid
  | tooLarge => exact .tooLarge

/-- The loop from a position further on. -/
theorem Agrees.earlier {start last n : ℕ} {before : List UInt8} {d : Decoded} {result : Loop × End}
    (h : Agrees (start + n) last before d result) (hn : n ≤ last - start) : Agrees start last before d result := by
  cases h with
  | again inside small pos ctx content =>
      have hend : max (start + n) last = max start last := by omega
      exact .again inside small (pos.trans hend) ctx content
  | done hstart pos content => exact .done ((Nat.le_add_right start n).trans hstart) pos content
  | invalid => exact .invalid
  | tooLarge => exact .tooLarge

/-- What the loop comes to from a state. -/
def Loop.Ends (conf : Conf) (last rounds : ℕ) (l : Loop) : Prop :=
  ∃ result, filterLoop conf last rounds l = some result ∧
    Agrees l.pos last l.content.flatten
      (decode conf l.ctx.state l.ctx.size l.contentLengthN (bytes l.mem l.pos (last - l.pos))) result

/-- It comes to the same when some bytes of a chunk have been taken. -/
theorem Loop.Taken.ends {conf : Conf} {last rounds n : ℕ} {l l' : Loop} (h : l.Taken l' n) (hstate : l.ctx.state = .chunkData)
    (hinside : Inside l.ctx.state l.ctx.size) (hlimit : ¬conf.Exceeded l.contentLengthN l.ctx.size) (hsize : n ≤ l.ctx.size)
    (hlast : n ≤ last - l.pos) (hends : l'.Ends conf last rounds) :
    ∃ result, filterLoop conf last rounds l' = some result ∧
      Agrees l.pos last l.content.flatten
        (decode conf l.ctx.state l.ctx.size l.contentLengthN (bytes l.mem l.pos (last - l.pos))) result := by
  obtain ⟨result, hresult, hagrees⟩ := hends
  have hleft : last - l.pos = n + (last - (l.pos + n)) := by omega
  have hlength := length_bytes l.mem l.pos n
  rw [h.ctx, h.pos, h.contentLengthN, h.content, h.mem, hstate] at hagrees
  refine ⟨result, hresult, ?_⟩
  rw [hstate, hleft, bytes_add, decode_data (hinside.small (by rw [hstate]; decide)) hlimit (by rw [hlength]; exact hsize),
    hlength]
  exact hagrees.after.earlier hlast

/-- With enough rounds the loop comes to an end, and to the right one. -/
theorem filterLoop_ends (conf : Conf) (last : ℕ) {rounds : ℕ} {l : Loop} (hplaced : l.Placed)
    (hsound : Sound l.ctx.state l.ctx.size) (hrounds : last - l.pos < rounds) : l.Ends conf last rounds := by
  induction rounds generalizing l with
  | zero => exact absurd hrounds (Nat.not_lt_zero _)
  | succ rounds ih =>
      have hparsed := ngxHttpParseChunked_parsed conf l.contentLengthN l.mem l.pos last hsound
      rw [Loop.Ends, filterLoop]
      revert hparsed
      generalize ngxHttpParseChunked l.mem l.pos last l.ctx = result
      intro hparsed
      cases hparsed with
      | again hinside hsmall hdecode =>
          rename_i state size
          have hdecode := hdecode []
          rw [List.append_nil, decode, if_neg (not_lt.mpr hsmall), hinside.enter] at hdecode
          have hend : l.pos + (last - l.pos) = max l.pos last := by omega
          refine ⟨_, rfl, ?_⟩
          rw [hdecode]
          exact .again (l := { l with pos := l.pos + (last - l.pos), ctx := ⟨state, size, lengthOf state size⟩ }) hinside hsmall
            hend rfl (List.append_nil _).symm
      | ok hlt hinside hdecode =>
          rename_i k size
          have hdecode := hdecode []
          rw [List.append_nil, List.append_nil] at hdecode
          rw [hdecode]
          dsimp only
          have hpos := hinside.data rfl
          have hplaced' : Loop.Placed { l with pos := l.pos + k, ctx := ⟨.chunkData, size, lengthOf .chunkData size⟩ } :=
            { last := fun b hb => ⟨(hplaced.last b hb).1, (hplaced.last b hb).2.trans (Nat.le_add_right _ _)⟩
              before := fun o ho =>
                ⟨(hplaced.before o ho).1, (hplaced.before o ho).2.1.trans (Nat.le_add_right _ _), (hplaced.before o ho).2.2⟩ }
          by_cases hlimit : conf.Exceeded l.contentLengthN size
          · have hne : bytes l.mem (l.pos + k) (last - (l.pos + k)) ≠ [] := by
              intro hnil
              have hlength := length_bytes l.mem (l.pos + k) (last - (l.pos + k))
              rw [hnil, List.length_nil] at hlength
              omega
            rw [if_pos (show _ ∧ _ from hlimit), decode_exceeded hinside hlimit hne]
            exact ⟨_, rfl, .tooLarge⟩
          · rw [if_neg (show ¬(_ ∧ _) from hlimit)]
            -- the bytes that are taken leave fewer rounds to go
            have hgo : ∀ {l' : Loop} {n : ℕ},
                Loop.Taken { l with pos := l.pos + k, ctx := ⟨.chunkData, size, lengthOf .chunkData size⟩ } l' n →
                  0 < n → n ≤ size → n ≤ last - (l.pos + k) →
                    ∃ result, filterLoop conf last rounds l' = some result ∧
                      Agrees l.pos last l.content.flatten
                        (decode conf .chunkData size l.contentLengthN (bytes l.mem (l.pos + k) (last - (l.pos + k)))) result := by
              intro l' n htaken hn hsize hlast
              have hends : l'.Ends conf last rounds := ih htaken.placed ?_ ?_
              · obtain ⟨result, hresult, hagrees⟩ := htaken.ends rfl hinside hlimit hsize hlast hends
                exact ⟨result, hresult, hagrees.earlier hlt.le⟩
              · rw [htaken.ctx]
                exact hinside.toSound.sub n
              · rw [htaken.pos]
                dsimp only
                omega
            have hpass := hgo (Loop.pass_taken hplaced' last (by dsimp only; omega))
              (lt_min (by dsimp only; omega) hpos) (min_le_right _ _) (min_le_left _ _)
            split
            · rename_i b hb
              by_cases hcopy : size ≤ 128 ∧ last - (l.pos + k) ≥ size
              · rw [if_pos hcopy]
                exact hgo (Loop.copy_taken hplaced' hb) hpos (le_refl _) hcopy.2
              · rw [if_neg hcopy]
                exact hpass
            · exact hpass
      | done hlt hdecode =>
          rename_i k ctx
          have hdecode := hdecode []
          rw [List.append_nil] at hdecode
          refine ⟨_, rfl, ?_⟩
          rw [hdecode, List.append_nil]
          have hstart : l.pos ≤ l.pos + k + 1 := by omega
          have hend : l.pos + k + 1 ≤ last := by omega
          exact .done (l := { l with pos := l.pos + k + 1, ctx := ctx }) hstart hend (List.append_nil _).symm
      | error hdecode =>
          have hdecode := hdecode []
          rw [List.append_nil] at hdecode
          refine ⟨_, rfl, ?_⟩
          rw [hdecode]
          exact .invalid

end NginxDtls.ChunkedBody
