import NginxDtls.ConfStream

/-! Words survive quoting: a word in double quotes, with a backslash in front of its quotes and backslashes, is read back as
it was, whatever its bytes are and wherever the refills fall. -/

namespace NginxDtls.Conf

/-- A backslash in front of every double quote and every backslash. -/
def escape (word : List UInt8) : List UInt8 :=
  word.flatMap fun c => if c = quote ∨ c = backslash then [backslash, c] else [c]

def renderWord (word : List UInt8) : List UInt8 := quote :: (escape word ++ [quote])

/-- Words in quotes, each behind its separator but the first one. -/
def renderWords (word : List UInt8) (words : List (List UInt8 × List UInt8)) : List UInt8 :=
  renderWord word ++ words.flatMap fun p => p.1 ++ renderWord p.2

theorem escape_cons (c : UInt8) (word : List UInt8) :
    escape (c :: word) = (if c = quote ∨ c = backslash then [backslash, c] else [c]) ++ escape word := rfl

theorem copyWord_cons {c : UInt8} (h : c ≠ backslash) (next : UInt8) (src : List UInt8) :
    copyWord next (c :: src) = c :: copyWord next src := by
  cases src with
  | nil => exact if_neg h
  | cons d src => rw [copyWord, if_neg h]

/-- The copy takes the backslashes away again. -/
theorem copyWord_escape (next : UInt8) (word : List UInt8) : copyWord next (escape word) = word := by
  induction word with
  | nil => rfl
  | cons c word ih =>
      rw [escape_cons]
      by_cases hc : c = quote ∨ c = backslash
      · have hescaped : c = quote ∨ c = apostrophe ∨ c = backslash := by
          rcases hc with hquote | hback
          · exact .inl hquote
          · exact .inr (.inr hback)
        rw [if_pos hc, List.cons_append, List.cons_append, List.nil_append, copyWord, if_pos rfl, if_pos hescaped, ih]
      · rw [if_neg hc, List.cons_append, List.nil_append, copyWord_cons (fun h => hc (.inr h)), ih]

/-! ### The states of the tokenizer -/

/-- Between two words. -/
def between (args : List (List UInt8)) : Locals := { args }

/-- Inside of double quotes. -/
def inQuotes (args : List (List UInt8)) (isVariable : Bool) : Locals :=
  { lastSpace := false, dQuoted := true, isVariable, args }

/-- Directly behind a word in quotes. -/
def behindQuotes (args : List (List UInt8)) : Locals := { needSpace := true, lastSpace := false, args }

section Bytes

variable (args : List (List UInt8)) (word : List UInt8)

theorem confByte_quote : confByte (between args) word quote = .next (inQuotes args false) .behind := rfl

theorem confByte_between {ch : UInt8} (h : IsBlank ch) : confByte (between args) word ch = .next (between args) .here := by
  rcases h with rfl | rfl | rfl | rfl <;> rfl

theorem confByte_backslash (v : Bool) : confByte (inQuotes args v) word backslash =
    .next { inQuotes args false with quoted := true } .keep := rfl

theorem confByte_escaped {ch : UInt8} (h : ch = quote ∨ ch = backslash) :
    confByte { inQuotes args false with quoted := true } word ch = .next (inQuotes args false) .keep := by
  rcases h with rfl | rfl <;> rfl

/-- Any other byte in quotes is kept, whether it is special outside or not. -/
theorem confByte_inQuotes {ch : UInt8} (h : ¬(ch = quote ∨ ch = backslash)) (v : Bool) :
    ∃ v', confByte (inQuotes args v) word ch = .next (inQuotes args v') .keep := by
  obtain ⟨hquote, hback⟩ := not_or.mp h
  have hat : (inQuotes args v).atByte ch = inQuotes args v := by
    unfold Locals.atByte
    split <;> rfl
  have hbyte : confByte (inQuotes args v) word ch = wordByte (inQuotes args v) word ch := by
    unfold confByte
    rw [hat]
    rfl
  rw [hbyte]
  unfold wordByte
  by_cases hbrace : ch = leftBrace ∧ (inQuotes args v).isVariable
  · exact ⟨v, if_pos hbrace⟩
  · rw [if_neg hbrace, if_neg hback]
    by_cases hdollar : ch = dollar
    · exact ⟨true, if_pos hdollar⟩
    · rw [if_neg hdollar, if_pos (show (inQuotes args v).dQuoted = true from rfl), if_neg hquote]
      exact ⟨false, rfl⟩

theorem confByte_closing (v : Bool) : confByte (inQuotes args v) word quote =
    .next (behindQuotes (args ++ [copyWord quote word])) .keep := rfl

theorem confByte_behindQuotes {ch : UInt8} (h : IsBlank ch) :
    confByte (behindQuotes args) word ch = .next (between args) .keep := by
  rcases h with rfl | rfl | rfl | rfl <;> rfl

theorem confByte_semicolon : confByte (behindQuotes args) word semicolon = .done .ok args := rfl

end Bytes

/-! ### Reading the words -/

theorem readStream_next {l l' : Locals} {span : List UInt8} {ch : UInt8} {mark : Mark} (hspan : span.length < ngxConfBuffer)
    (h : confByte l span ch = .next l' mark) (rest : List UInt8) :
    readStream l span (ch :: rest) = readStream l' (mark.apply span ch) rest := by
  rw [readStream, if_neg (Nat.ne_of_lt hspan), h]

theorem readStream_escape (args : List (List UInt8)) (word : List UInt8) {span : List UInt8}
    (hspan : span.length + (escape word).length < ngxConfBuffer) (v : Bool) (rest : List UInt8) :
    ∃ v', readStream (inQuotes args v) span (escape word ++ rest) =
      readStream (inQuotes args v') (span ++ escape word) rest := by
  induction word generalizing span v with
  | nil => exact ⟨v, by rw [escape, List.flatMap_nil, List.append_nil, List.nil_append]⟩
  | cons c word ih =>
      rw [escape_cons] at hspan ⊢
      by_cases hc : c = quote ∨ c = backslash
      · rw [if_pos hc, List.cons_append, List.cons_append, List.nil_append, List.length_cons, List.length_cons] at hspan
        obtain ⟨v', hword⟩ := @ih (span ++ [backslash] ++ [c]) (by simp only [List.length_append, List.length_singleton]; omega)
          false
        refine ⟨v', ?_⟩
        rw [if_pos hc]
        have hback := readStream_next (by omega) (confByte_backslash args span v) (c :: (escape word ++ rest))
        have hescaped := readStream_next (by rw [List.length_append, List.length_singleton]; omega)
          (confByte_escaped args (span ++ [backslash]) hc) (escape word ++ rest)
        calc readStream (inQuotes args v) span ([backslash, c] ++ escape word ++ rest)
          _ = readStream (inQuotes args false) (span ++ [backslash] ++ [c]) (escape word ++ rest) := hback.trans hescaped
          _ = readStream (inQuotes args v') (span ++ ([backslash, c] ++ escape word)) rest := by
            rw [hword, List.append_assoc, List.append_assoc]
            rfl
      · rw [if_neg hc, List.cons_append, List.nil_append, List.length_cons] at hspan
        obtain ⟨v₁, hbyte⟩ := confByte_inQuotes args span hc v
        obtain ⟨v', hword⟩ := @ih (span ++ [c]) (by rw [List.length_append, List.length_singleton]; omega) v₁
        refine ⟨v', ?_⟩
        rw [if_neg hc]
        have hnext := readStream_next (by omega) hbyte (escape word ++ rest)
        calc readStream (inQuotes args v) span ([c] ++ escape word ++ rest)
          _ = readStream (inQuotes args v₁) (span ++ [c]) (escape word ++ rest) := hnext
          _ = readStream (inQuotes args v') (span ++ ([c] ++ escape word)) rest := by rw [hword, List.append_assoc]

theorem renderWord_length (word : List UInt8) : (renderWord word).length = (escape word).length + 2 := by
  rw [renderWord, List.length_cons, List.length_append, List.length_singleton]

/-- A word in quotes. -/
theorem readStream_word (args : List (List UInt8)) {word : List UInt8} (hword : (renderWord word).length ≤ ngxConfBuffer)
    {span : List UInt8} (hspan : span.length < ngxConfBuffer) (rest : List UInt8) :
    readStream (between args) span (renderWord word ++ rest) =
      readStream (behindQuotes (args ++ [word])) (escape word ++ [quote]) rest := by
  rw [renderWord_length] at hword
  obtain ⟨v, hescape⟩ := @readStream_escape args word [] (by rw [List.length_nil]; omega) false (quote :: rest)
  have htext : renderWord word ++ rest = quote :: (escape word ++ quote :: rest) := by
    rw [renderWord, List.cons_append, List.append_assoc]
    rfl
  have hopening := readStream_next hspan (confByte_quote args span) (escape word ++ quote :: rest)
  have hclosing := readStream_next (show (escape word).length < ngxConfBuffer by omega)
    (confByte_closing args (escape word) v) rest
  rw [copyWord_escape] at hclosing
  rw [htext, hopening]
  exact hescape.trans hclosing

theorem readStream_blanks (args : List (List UInt8)) {sep : List UInt8} (hsep : ∀ c ∈ sep, IsBlank c) {span : List UInt8}
    (hspan : span.length < ngxConfBuffer) (rest : List UInt8) :
    ∃ span', span'.length < ngxConfBuffer ∧
      readStream (between args) span (sep ++ rest) = readStream (between args) span' rest := by
  induction sep generalizing span with
  | nil => exact ⟨span, hspan, rfl⟩
  | cons c sep ih =>
      have hnext := readStream_next hspan (confByte_between args span (hsep c List.mem_cons_self)) (sep ++ rest)
      obtain ⟨span', hspan', hrest⟩ := @ih (fun d hd => hsep d (List.mem_cons_of_mem _ hd)) [c]
        (by rw [List.length_singleton]; decide)
      exact ⟨span', hspan', hnext.trans hrest⟩

/-- A separator behind a word in quotes. -/
theorem readStream_separator (args : List (List UInt8)) {sep : List UInt8} (hne : sep ≠ [])
    (hsep : ∀ c ∈ sep, IsBlank c) {span : List UInt8} (hspan : span.length + 1 < ngxConfBuffer) (rest : List UInt8) :
    ∃ span', span'.length < ngxConfBuffer ∧
      readStream (behindQuotes args) span (sep ++ rest) = readStream (between args) span' rest := by
  obtain ⟨c, sep, rfl⟩ := List.exists_cons_of_ne_nil hne
  have hnext := readStream_next (by omega) (confByte_behindQuotes args span (hsep c List.mem_cons_self)) (sep ++ rest)
  obtain ⟨span', hspan', hrest⟩ := readStream_blanks args (fun d hd => hsep d (List.mem_cons_of_mem _ hd))
    (show (span ++ [c]).length < ngxConfBuffer by rw [List.length_append, List.length_singleton]; exact hspan) rest
  exact ⟨span', hspan', hnext.trans hrest⟩

theorem readStream_words {args : List (List UInt8)} {word : List UInt8} {words : List (List UInt8 × List UInt8)}
    (hword : (renderWord word).length ≤ 4000) (hwords : ∀ p ∈ words, (renderWord p.2).length ≤ 4000)
    (hsep : ∀ p ∈ words, p.1 ≠ [] ∧ ∀ c ∈ p.1, IsBlank c) {span : List UInt8} (hspan : span.length < ngxConfBuffer)
    (post : List UInt8) :
    readStream (between args) span (renderWords word words ++ semicolon :: post) =
      .token .ok (args ++ (word :: words.map Prod.snd)) post := by
  have hlength := renderWord_length word
  induction words generalizing args word span with
  | nil =>
      rw [renderWords, List.flatMap_nil, List.append_nil, readStream_word args (hword.trans (by decide)) hspan, readStream,
        if_neg (by rw [List.length_append, List.length_singleton]; unfold ngxConfBuffer; omega), confByte_semicolon]
      rfl
  | cons p words ih =>
      have hp := hsep p List.mem_cons_self
      have htext : renderWords word (p :: words) ++ semicolon :: post =
          renderWord word ++ (p.1 ++ (renderWords p.2 words ++ semicolon :: post)) := by
        rw [renderWords, renderWords, List.flatMap_cons]
        simp only [List.append_assoc]
      obtain ⟨span', hspan', hblanks⟩ := readStream_separator (args ++ [word]) hp.1 hp.2
        (show (escape word ++ [quote]).length + 1 < ngxConfBuffer by
          rw [List.length_append, List.length_singleton]
          unfold ngxConfBuffer
          omega) (renderWords p.2 words ++ semicolon :: post)
      rw [htext, readStream_word args (hword.trans (by decide)) hspan, hblanks,
        ih (hwords p List.mem_cons_self) (fun q hq => hwords q (List.mem_cons_of_mem _ hq))
          (fun q hq => hsep q (List.mem_cons_of_mem _ hq)) hspan' (renderWord_length p.2), List.append_assoc]
      rfl

/-- Words in quotes are read back, at whatever byte of the buffer their text begins. -/
theorem ngxConfReadToken_renderWords {word : List UInt8} {words : List (List UInt8 × List UInt8)}
    (hword : (renderWord word).length ≤ 4000) (hwords : ∀ p ∈ words, (renderWord p.2).length ≤ 4000)
    (hsep : ∀ p ∈ words, p.1 ≠ [] ∧ ∀ c ∈ p.1, IsBlank c) {conf : ConfFile} {post : List UInt8}
    (hunread : conf.unread = renderWords word words ++ semicolon :: post) :
    ∃ conf', ngxConfReadToken conf = .token .ok (word :: words.map Prod.snd) conf' ∧ conf'.unread = post := by
  have hstream := ngxConfReadToken_stream conf
  have hwords' := @readStream_words [] word words hword hwords hsep [] (by decide) post
  rw [hunread, show ({} : Locals) = between [] from rfl, hwords', List.nil_append] at hstream
  cases hresult : ngxConfReadToken conf with
  | token rc args conf' =>
      rw [hresult] at hstream
      obtain ⟨rfl, rfl, rfl⟩ := StreamResult.token.inj hstream
      exact ⟨conf', rfl, rfl⟩
  | fileDone =>
      rw [hresult] at hstream
      cases hstream
  | error e line =>
      rw [hresult] at hstream
      cases hstream

/-- Two words with special bytes, in a file that has just been opened. -/
theorem ngxConfReadToken_renderWords_two :
    (ConfFile.init (renderWords [59, 34, 10] [([32, 10], [36, 123, 92])] ++ semicolon :: [35])).unread =
      [34, 59, 92, 34, 10, 34, 32, 10, 34, 36, 123, 92, 92, 34, 59, 35] ∧
    ∃ conf', ngxConfReadToken (.init (renderWords [59, 34, 10] [([32, 10], [36, 123, 92])] ++ semicolon :: [35])) =
      .token .ok [[59, 34, 10], [36, 123, 92]] conf' ∧ conf'.unread = [35] := by
  have hsep : ∀ p ∈ [(([32, 10] : List UInt8), ([36, 123, 92] : List UInt8))], p.1 ≠ [] ∧ ∀ c ∈ p.1, IsBlank c := by
    intro p hp
    obtain rfl := List.mem_singleton.mp hp
    refine ⟨List.cons_ne_nil _ _, fun c hc => ?_⟩
    rcases List.mem_cons.mp hc with rfl | hc
    · exact .inl rfl
    · obtain rfl := List.mem_singleton.mp hc
      exact .inr (.inr (.inr rfl))
  have hword : (renderWord [59, 34, 10]).length ≤ 4000 := by decide
  have hwords : ∀ p ∈ [(([32, 10] : List UInt8), ([36, 123, 92] : List UInt8))], (renderWord p.2).length ≤ 4000 := by
    decide
  exact ⟨rfl, ngxConfReadToken_renderWords hword hwords hsep rfl⟩

end NginxDtls.Conf
