import NginxDtls.ConfStream

/-! Comments between words. While a comment is skipped the start of the word stays at the `#`, so a comment with as many
bytes as the buffer is taken for a parameter that is too long. A shorter one changes no token. -/

namespace NginxDtls.Conf

/-! ### States that are reached -/

/-- The states of the tokenizer over a file, call after call. -/
inductive Reads (file : List UInt8) : ReadToken → Prop
  | init : Reads file (.init (.init file))
  | next {st st' : ReadToken} : Reads file st → confStep st = .next st' → Reads file st'
  | token {st : ReadToken} {rc : Rc} {args : List (List UInt8)} {conf : ConfFile} :
      Reads file st → confStep st = .ret (.token rc args conf) → Reads file (.init conf)

/-- Between two words: blanks are skipped, and no comment. -/
def Locals.BetweenWords (l : Locals) : Prop := l.lastSpace ∧ ¬l.sharpComment

/-- In the file `a` and `b`, the tokenizer is between two words when `b` is to come. -/
def BetweenWords (a b : List UInt8) : Prop :=
  ∃ st, Reads (a ++ b) st ∧ st.conf.unread = b ∧ st.locals.BetweenWords

/-- The bytes are read, with the tokens that they end. -/
inductive Consumes : Locals → List UInt8 → List UInt8 → List (Rc × List (List UInt8)) → Locals → List UInt8 → Prop
  | nil (l : Locals) (span : List UInt8) : Consumes l span [] [] l span
  | next {l l' l'' : Locals} {span span'' bytes : List UInt8} {tokens : List (Rc × List (List UInt8))} {ch : UInt8}
      {mark : Mark} : span.length ≠ ngxConfBuffer → confByte l span ch = .next l' mark →
      Consumes l' (mark.apply span ch) bytes tokens l'' span'' → Consumes l span (ch :: bytes) tokens l'' span''
  | token {l l'' : Locals} {span span'' bytes : List UInt8} {tokens : List (Rc × List (List UInt8))} {ch : UInt8}
      {rc : Rc} {args : List (List UInt8)} : span.length ≠ ngxConfBuffer → confByte l span ch = .done rc args →
      Consumes {} [] bytes tokens l'' span'' → Consumes l span (ch :: bytes) ((rc, args) :: tokens) l'' span''

namespace Consumes

variable {l l' l'' : Locals} {span span' span'' bytes bytes' : List UInt8} {tokens tokens' : List (Rc × List (List UInt8))}

theorem append (h : Consumes l span bytes tokens l' span') (h' : Consumes l' span' bytes' tokens' l'' span'') :
    Consumes l span (bytes ++ bytes') (tokens ++ tokens') l'' span'' := by
  induction h with
  | nil l span => exact h'
  | next hspan hbyte _ ih => exact .next hspan hbyte (ih h')
  | token hspan hbyte _ ih => exact .token hspan hbyte (ih h')

/-- The bytes that come behind play no part. -/
theorem streamTokens (h : Consumes l span bytes tokens l' span') (rest : List UInt8) :
    streamTokens l span (bytes ++ rest) = (streamTokens l' span' rest).map (tokens ++ ·) := by
  induction h with
  | nil l span =>
      rw [List.nil_append]
      cases Conf.streamTokens l span rest <;> rfl
  | next hspan hbyte _ ih =>
      rw [List.cons_append, Conf.streamTokens, if_neg hspan, hbyte]
      exact ih
  | @token l l'' span span'' bytes tokens ch rc args hspan hbyte _ ih =>
      rw [List.cons_append, Conf.streamTokens, if_neg hspan, hbyte]
      dsimp only
      rw [ih]
      cases Conf.streamTokens l'' span'' rest <;> rfl

end Consumes

/-- What a state that is reached has read. -/
theorem Reads.consumes {file : List UInt8} {st : ReadToken} (h : Reads file st) :
    ∃ bytes tokens, file = bytes ++ st.conf.unread ∧ Consumes {} [] bytes tokens st.locals st.span := by
  induction h with
  | init => exact ⟨[], [], rfl, .nil _ _⟩
  | next _ hstep ih =>
      obtain ⟨bytes, tokens, hfile, hconsumes⟩ := ih
      obtain ⟨ch, mark, hunread, hspan, hbyte, hspan'⟩ := confStep_next_inv hstep
      have hlast := hconsumes.append (.next hspan hbyte (.nil _ _))
      rw [← hspan', List.append_nil] at hlast
      exact ⟨bytes ++ [ch], tokens, by rw [hfile, hunread, List.append_assoc]; rfl, hlast⟩
  | @token st rc args conf _ hstep ih =>
      obtain ⟨bytes, tokens, hfile, hconsumes⟩ := ih
      obtain ⟨ch, hunread, hspan, hbyte⟩ := confStep_token_inv hstep
      have hlast := hconsumes.append (.token hspan hbyte (.nil _ _))
      have hstart : (ReadToken.init conf).span = [] :=
        List.drop_eq_nil_of_le (by rw [List.length_take]; exact min_le_left _ _)
      refine ⟨bytes ++ [ch], tokens ++ [(rc, args)], by rw [hfile, hunread, List.append_assoc]; rfl, ?_⟩
      rw [hstart]
      exact hlast

/-! ### The flags between two words -/

/-- The flags exclude each other, and a word that has been read is among the arguments. -/
structure Settled (l : Locals) (span : List UInt8) : Prop where
  quoted : l.lastSpace → l.quoted = false
  needSpace : l.lastSpace → l.needSpace = false
  comment : l.sharpComment → l.lastSpace
  word : l.needSpace → l.args ≠ []
  span : l.BetweenWords → l.args = [] → span.length ≤ 1

theorem settled_init : Settled {} [] :=
  ⟨fun _ => rfl, fun _ => rfl, fun h => absurd h Bool.false_ne_true, fun h => absurd h Bool.false_ne_true,
    fun _ _ => Nat.zero_le 1⟩

/-- Inside of a word and behind one nothing is claimed of the mark. -/
theorem Settled.inside {l : Locals} {span : List UInt8} (hspace : l.lastSpace = false) (hcomment : l.sharpComment = false)
    (hword : l.needSpace → l.args ≠ []) : Settled l span :=
  ⟨fun h => absurd (hspace.symm.trans h) Bool.false_ne_true, fun h => absurd (hspace.symm.trans h) Bool.false_ne_true,
    fun h => absurd (hcomment.symm.trans h) Bool.false_ne_true, hword,
    fun h => absurd (hspace.symm.trans h.1) Bool.false_ne_true⟩

section Settled

variable {l l' : Locals} {span word : List UInt8} {ch : UInt8} {mark : Mark}

/-- What the first byte of a word does, if the call goes on: the mark is set, and either the byte is blank, or a comment
begins, or a word. -/
theorem firstByte_next (h : firstByte l ch = .next l' mark) : mark ≠ .keep ∧
    (l' = l ∧ mark = .here ∨ l' = { l with sharpComment := true } ∨
      l'.lastSpace = false ∧ l'.sharpComment = l.sharpComment ∧ l'.needSpace = l.needSpace) := by
  unfold firstByte at h
  split at h
  · obtain ⟨rfl, rfl⟩ := ByteResult.next.inj h
    exact ⟨Mark.noConfusion, .inl ⟨rfl, rfl⟩⟩
  · split at h
    · split at h
      · cases h
      · split at h <;> cases h
    · split at h
      · split at h <;> cases h
      · split at h
        · obtain ⟨rfl, rfl⟩ := ByteResult.next.inj h
          exact ⟨Mark.noConfusion, .inr (.inl rfl)⟩
        · split at h
          · obtain ⟨rfl, rfl⟩ := ByteResult.next.inj h
            exact ⟨Mark.noConfusion, .inr (.inr ⟨rfl, rfl, rfl⟩)⟩
          · split at h
            · obtain ⟨rfl, rfl⟩ := ByteResult.next.inj h
              exact ⟨Mark.noConfusion, .inr (.inr ⟨rfl, rfl, rfl⟩)⟩
            · split at h
              · obtain ⟨rfl, rfl⟩ := ByteResult.next.inj h
                exact ⟨Mark.noConfusion, .inr (.inr ⟨rfl, rfl, rfl⟩)⟩
              · split at h
                · obtain ⟨rfl, rfl⟩ := ByteResult.next.inj h
                  exact ⟨Mark.noConfusion, .inr (.inr ⟨rfl, rfl, rfl⟩)⟩
                · obtain ⟨rfl, rfl⟩ := ByteResult.next.inj h
                  exact ⟨Mark.noConfusion, .inr (.inr ⟨rfl, rfl, rfl⟩)⟩

theorem firstByte_settled (h : firstByte l ch = .next l' mark) (hspace : l.lastSpace = true) (hquoted : l.quoted = false)
    (hneed : l.needSpace = false) (hcomment : l.sharpComment = false) : Settled l' (mark.apply span ch) := by
  have hword : l.needSpace → l.args ≠ [] := fun hn => absurd (hneed.symm.trans hn) Bool.false_ne_true
  obtain ⟨-, hblank | hsharp | hbegin⟩ := firstByte_next h
  · obtain ⟨rfl, rfl⟩ := hblank
    exact ⟨fun _ => hquoted, fun _ => hneed, fun _ => hspace, hword, fun _ _ => Nat.le_refl 1⟩
  · subst hsharp
    exact ⟨fun _ => hquoted, fun _ => hneed, fun _ => hspace, hword, fun hb => absurd rfl hb.2⟩
  · obtain ⟨hspace', hcomment', hneed'⟩ := hbegin
    exact .inside hspace' (hcomment'.trans hcomment)
      (fun hn => absurd ((hneed'.trans hneed).symm.trans hn) Bool.false_ne_true)

theorem pushWord_settled (h : pushWord l word ch = .next l' mark) (hcomment : l.sharpComment = false)
    (hspace : l.lastSpace = true → l.quoted = false ∧ l.needSpace = false) : Settled l' span := by
  unfold pushWord at h
  split at h
  · cases h
  · split at h
    · cases h
    · obtain ⟨rfl, -⟩ := ByteResult.next.inj h
      have hargs : l.args ++ [copyWord ch word] ≠ [] := List.append_ne_nil_of_right_ne_nil _ (List.cons_ne_nil _ _)
      exact ⟨fun hs => (hspace hs).1, fun hs => (hspace hs).2,
        fun hc => absurd (hcomment.symm.trans hc) Bool.false_ne_true, fun _ => hargs, fun _ hnil => absurd hnil hargs⟩

theorem wordByte_settled (h : wordByte l word ch = .next l' mark) (hspace : l.lastSpace = false)
    (hquoted : l.quoted = false) (hneed : l.needSpace = false) (hcomment : l.sharpComment = false) : Settled l' span := by
  have hword : l.needSpace → l.args ≠ [] := fun hn => absurd (hneed.symm.trans hn) Bool.false_ne_true
  have hin : ∀ {P : Prop}, l.lastSpace = true → P := fun hs => absurd (hspace.symm.trans hs) Bool.false_ne_true
  unfold wordByte at h
  split at h
  · obtain ⟨rfl, -⟩ := ByteResult.next.inj h
    exact .inside hspace hcomment hword
  · split at h
    · obtain ⟨rfl, -⟩ := ByteResult.next.inj h
      exact .inside hspace hcomment hword
    · split at h
      · obtain ⟨rfl, -⟩ := ByteResult.next.inj h
        exact .inside hspace hcomment hword
      · split at h
        · split at h
          · exact pushWord_settled h hcomment hin
          · obtain ⟨rfl, -⟩ := ByteResult.next.inj h
            exact .inside hspace hcomment hword
        · split at h
          · split at h
            · exact pushWord_settled h hcomment hin
            · obtain ⟨rfl, -⟩ := ByteResult.next.inj h
              exact .inside hspace hcomment hword
          · split at h
            · exact pushWord_settled h hcomment (fun _ => ⟨hquoted, hneed⟩)
            · obtain ⟨rfl, -⟩ := ByteResult.next.inj h
              exact .inside hspace hcomment hword

theorem spaceByte_settled (h : spaceByte l ch = .next l' mark) (hquoted : l.quoted = false)
    (hcomment : l.sharpComment = false) (hargs : l.args ≠ []) : Settled l' (mark.apply span ch) := by
  unfold spaceByte at h
  split at h
  · obtain ⟨rfl, -⟩ := ByteResult.next.inj h
    exact ⟨fun _ => hquoted, fun _ => rfl, fun _ => rfl, fun _ => hargs, fun _ hnil => absurd hnil hargs⟩
  · split at h
    · cases h
    · split at h
      · cases h
      · split at h
        · exact firstByte_settled h rfl hquoted rfl hcomment
        · cases h

theorem atByte_eq (h : l.sharpComment = false) : l.atByte ch = l := by
  unfold Locals.atByte
  split
  · rw [← h]
  · rfl

/-- One byte keeps the flags apart. -/
theorem confByte_settled (hl : Settled l span) (h : confByte l span ch = .next l' mark) :
    Settled l' (mark.apply span ch) := by
  have hfields : (l.atByte ch).quoted = l.quoted ∧ (l.atByte ch).needSpace = l.needSpace ∧
      (l.atByte ch).lastSpace = l.lastSpace ∧ (l.atByte ch).args = l.args := by
    unfold Locals.atByte
    split <;> exact ⟨rfl, rfl, rfl, rfl⟩
  obtain ⟨hquoted, hneed, hspace, hargs⟩ := hfields
  unfold confByte at h
  by_cases hcomment : (l.atByte ch).sharpComment
  · -- a byte of a comment
    rw [if_pos hcomment] at h
    obtain ⟨rfl, -⟩ := ByteResult.next.inj h
    refine ⟨fun hs => hquoted.trans (hl.quoted (hspace ▸ hs)), fun hs => hneed.trans (hl.needSpace (hspace ▸ hs)),
      fun _ => hspace.trans (hl.comment ?_), fun hn => hargs ▸ hl.word (hneed ▸ hn), fun hb => absurd hcomment hb.2⟩
    unfold Locals.atByte at hcomment
    split at hcomment
    · exact absurd hcomment Bool.false_ne_true
    · exact hcomment
  · rw [if_neg hcomment] at h
    have hcomment' := Bool.eq_false_of_not_eq_true hcomment
    by_cases hq : l.quoted
    · -- the byte behind a backslash
      rw [if_pos hq] at h
      obtain ⟨rfl, -⟩ := ByteResult.next.inj h
      have hin : l.lastSpace = false := by
        by_contra hs
        exact absurd ((hl.quoted (Bool.eq_true_of_not_eq_false hs)).symm.trans hq) Bool.false_ne_true
      exact .inside (hspace.trans hin) hcomment' (fun hn => hargs ▸ hl.word (hneed ▸ hn))
    · rw [if_neg hq] at h
      have hq' := hquoted.trans (Bool.eq_false_of_not_eq_true hq)
      by_cases hn : l.needSpace
      · rw [if_pos hn] at h
        exact spaceByte_settled h hq' hcomment' (hargs ▸ hl.word hn)
      · rw [if_neg hn] at h
        have hn' := hneed.trans (Bool.eq_false_of_not_eq_true hn)
        by_cases hs : l.lastSpace
        · rw [if_pos hs] at h
          exact firstByte_settled h (hspace.trans hs) hq' hn' hcomment'
        · rw [if_neg hs] at h
          exact wordByte_settled h (hspace.trans (Bool.eq_false_of_not_eq_true hs)) hq' hn' hcomment'

end Settled

theorem Consumes.settled {l l' : Locals} {span span' bytes : List UInt8} {tokens : List (Rc × List (List UInt8))}
    (h : Consumes l span bytes tokens l' span') (hl : Settled l span) : Settled l' span' := by
  induction h with
  | nil l span => exact hl
  | next _ hbyte _ ih => exact ih (confByte_settled hl hbyte)
  | token _ _ _ ih => exact ih settled_init

/-! ### A comment -/

section Comment

variable {l : Locals} {span : List UInt8}

theorem confByte_betweenWords (hb : l.BetweenWords) (hl : Settled l span) (word : List UInt8) (ch : UInt8) :
    confByte l word ch = firstByte l ch := by
  have hcomment := Bool.eq_false_of_not_eq_true hb.2
  unfold confByte
  rw [atByte_eq hcomment, if_neg hb.2, hl.quoted hb.1, if_neg Bool.false_ne_true, hl.needSpace hb.1,
    if_neg Bool.false_ne_true, if_pos hb.1]

/-- The bytes of the word before play no part between two words. -/
theorem streamTokens_betweenWords (hb : l.BetweenWords) (hl : Settled l span) (hspan : span.length ≠ ngxConfBuffer)
    {span' : List UInt8} (hspan' : span'.length ≠ ngxConfBuffer) (rest : List UInt8) :
    streamTokens l span rest = streamTokens l span' rest := by
  cases rest with
  | nil => rfl
  | cons ch rest =>
      rw [streamTokens, streamTokens, if_neg hspan, if_neg hspan', confByte_betweenWords hb hl,
        confByte_betweenWords hb hl]
      cases hbyte : firstByte l ch with
      | next l' mark =>
          cases mark with
          | keep => exact absurd rfl (firstByte_next hbyte).1
          | here => rfl
          | behind => rfl
      | done rc args => rfl
      | error e => rfl

theorem confByte_sharp (hb : l.BetweenWords) (hl : Settled l span) (word : List UInt8) :
    confByte l word sharp = .next { l with sharpComment := true } .here := confByte_betweenWords hb hl word sharp

theorem confByte_comment {ch : UInt8} (hlf : ch ≠ lf) (word : List UInt8) :
    confByte { l with sharpComment := true } word ch = .next { l with sharpComment := true } .keep := by
  have hat : Locals.atByte { l with sharpComment := true } ch = { l with sharpComment := true } := if_neg hlf
  unfold confByte
  rw [hat, if_pos rfl]

theorem confByte_lf (hb : l.BetweenWords) (hl : Settled l span) (word : List UInt8) :
    confByte { l with sharpComment := true } word lf = .next l .here := by
  have hcomment := Bool.eq_false_of_not_eq_true hb.2
  have hat : Locals.atByte { l with sharpComment := true } lf = l := by
    show { l with sharpComment := false } = l
    rw [← hcomment]
  unfold confByte
  rw [hat, if_neg hb.2]
  dsimp only
  rw [hl.quoted hb.1, if_neg Bool.false_ne_true, hl.needSpace hb.1, if_neg Bool.false_ne_true, if_pos hb.1]
  rfl

theorem consumes_comment {comment : List UInt8} (hlf : lf ∉ comment) {word : List UInt8}
    (hlength : word.length + comment.length ≤ ngxConfBuffer) :
    Consumes { l with sharpComment := true } word comment [] { l with sharpComment := true } (word ++ comment) := by
  induction comment generalizing word with
  | nil =>
      rw [List.append_nil]
      exact .nil _ _
  | cons ch comment ih =>
      rw [List.length_cons] at hlength
      have hne : ch ≠ lf := fun heq => hlf (heq ▸ List.mem_cons_self)
      have hrest := @ih (fun hmem => hlf (List.mem_cons_of_mem _ hmem)) (word ++ [ch])
        (by rw [List.length_append, List.length_singleton]; omega)
      rw [List.append_assoc] at hrest
      exact .next (by omega) (confByte_comment hne word) hrest

/-- A comment that leaves no room for its line feed. -/
theorem streamTokens_long {comment : List UInt8} (hlf : lf ∉ comment) {word : List UInt8}
    (hword : word.length ≤ ngxConfBuffer) (hlength : ngxConfBuffer ≤ word.length + comment.length) (ch : UInt8)
    (rest : List UInt8) : streamTokens { l with sharpComment := true } word (comment ++ ch :: rest) = none := by
  have hlf' : lf ∉ comment.take (ngxConfBuffer - word.length) := fun hmem => hlf (List.mem_of_mem_take hmem)
  have htake : (comment.take (ngxConfBuffer - word.length)).length = ngxConfBuffer - word.length := by
    rw [List.length_take]
    omega
  have hread := @consumes_comment l _ hlf' word (by omega)
  have hsplit : comment ++ ch :: rest = comment.take (ngxConfBuffer - word.length) ++
      (comment.drop (ngxConfBuffer - word.length) ++ ch :: rest) := by
    rw [← List.append_assoc, List.take_append_drop]
  have hfull : (word ++ comment.take (ngxConfBuffer - word.length)).length = ngxConfBuffer := by
    rw [List.length_append]
    omega
  obtain ⟨ch', rest', hcons⟩ := List.exists_cons_of_ne_nil
    (List.append_ne_nil_of_right_ne_nil (comment.drop (ngxConfBuffer - word.length)) (List.cons_ne_nil ch rest))
  rw [hsplit, hread.streamTokens, hcons, streamTokens, if_pos hfull]
  rfl

/-- The tokens behind a comment. -/
theorem streamTokens_comment (hb : l.BetweenWords) (hl : Settled l span) (hspan : span.length ≠ ngxConfBuffer)
    {comment : List UInt8} (hlf : lf ∉ comment) (rest : List UInt8) :
    streamTokens l span (sharp :: (comment ++ lf :: rest)) =
      if comment.length ≤ 4094 then streamTokens l [lf] rest else none := by
  rw [streamTokens, if_neg hspan, confByte_sharp hb hl]
  show streamTokens { l with sharpComment := true } [sharp] (comment ++ lf :: rest) = _
  split
  · rename_i hlength
    have hread := @consumes_comment l comment hlf [sharp] (by rw [List.length_singleton]; unfold ngxConfBuffer; omega)
    have hroom : ([sharp] ++ comment).length ≠ ngxConfBuffer := by
      rw [List.length_append, List.length_singleton]
      unfold ngxConfBuffer
      omega
    have hcomment := hread.append (.next hroom (confByte_lf hb hl ([sharp] ++ comment)) (.nil l [lf]))
    have htokens := hcomment.streamTokens rest
    rw [List.append_assoc] at htokens
    exact htokens.trans (by cases streamTokens l [lf] rest <;> rfl)
  · exact streamTokens_long hlf (by decide) (by rw [List.length_singleton]; unfold ngxConfBuffer; omega) lf rest

end Comment

/-- A comment between two words leaves the tokens of a file as they are if and only if it is shorter than the buffer. -/
theorem comment_neutral {a b comment : List UInt8} (htokens : confTokens (.init (a ++ b)) ≠ none)
    (hbetween : BetweenWords a b) (hlf : lf ∉ comment) :
    confTokens (.init (a ++ (sharp :: (comment ++ lf :: b)))) = confTokens (.init (a ++ b)) ↔ comment.length ≤ 4094 := by
  obtain ⟨st, hreads, hunread, hb⟩ := hbetween
  obtain ⟨bytes, tokens, hfile, hconsumes⟩ := hreads.consumes
  rw [hunread] at hfile
  obtain rfl : bytes = a := (List.append_cancel_right hfile).symm
  have hl := hconsumes.settled settled_init
  have hinit : ∀ file, (ConfFile.init file).unread = file := fun file => rfl
  rw [confTokens_stream, hinit, hconsumes.streamTokens] at htokens ⊢
  rw [confTokens_stream, hinit, hconsumes.streamTokens]
  have hrest : streamTokens st.locals st.span b ≠ none := fun hnone => htokens (by rw [hnone]; rfl)
  have hspan : st.span.length ≠ ngxConfBuffer := by
    intro hfull
    cases b with
    | nil =>
        by_cases hargs : st.locals.args = []
        · have hle := hl.span hb hargs
          rw [hfull] at hle
          exact absurd hle (by decide)
        · exact hrest (if_pos (.inl hargs))
    | cons ch b => exact hrest (by rw [streamTokens, if_pos hfull])
  rw [streamTokens_comment hb hl hspan hlf]
  by_cases hlength : comment.length ≤ 4094
  · have hmark : streamTokens st.locals [lf] b = streamTokens st.locals st.span b :=
      (streamTokens_betweenWords hb hl hspan (by rw [List.length_singleton]; decide) b).symm
    rw [if_pos hlength, hmark]
    exact ⟨fun _ => hlength, fun _ => rfl⟩
  · rw [if_neg hlength]
    exact ⟨fun heq => absurd heq.symm htokens, fun h => absurd h hlength⟩

/-- A comment of one byte in front of `x;`. -/
theorem comment_neutral_short : BetweenWords [] [120, 59] ∧
    (confTokens (.init ([] ++ (sharp :: ([97] ++ lf :: [120, 59])))) = confTokens (.init ([] ++ [120, 59])) ↔
      [(97 : UInt8)].length ≤ 4094) := by
  have hbetween : BetweenWords [] [120, 59] := ⟨_, .init, rfl, rfl, Bool.false_ne_true⟩
  have htokens : confTokens (.init ([] ++ [120, 59])) ≠ none := by
    rw [confTokens_stream]
    decide
  exact ⟨hbetween, comment_neutral htokens hbetween (by decide)⟩

/-- A comment of 4095 bytes in front of `x;` makes the file one with an error. -/
theorem comment_not_neutral : BetweenWords [] [120, 59] ∧ lf ∉ List.replicate 4095 (97 : UInt8) ∧
    confTokens (.init ([] ++ [120, 59])) = some [(.ok, [[120]])] ∧
    confTokens (.init ([] ++ (sharp :: (List.replicate 4095 97 ++ lf :: [120, 59])))) = none := by
  have hlf : lf ∉ List.replicate 4095 (97 : UInt8) := fun hmem => absurd (List.eq_of_mem_replicate hmem) (by decide)
  refine ⟨⟨_, .init, rfl, rfl, Bool.false_ne_true⟩, hlf, ?_, ?_⟩
  · rw [confTokens_stream]
    decide
  · rw [confTokens_stream]
    have hlong := @streamTokens_comment {} [] ⟨rfl, Bool.false_ne_true⟩ settled_init (by decide) _ hlf [120, 59]
    rw [List.length_replicate, if_neg (by decide)] at hlong
    exact hlong

end NginxDtls.Conf
