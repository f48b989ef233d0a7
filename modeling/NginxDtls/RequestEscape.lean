import NginxDtls.Escape
import NginxDtls.RequestPathLine

/-! A path that is escaped by `ngx_escape_uri` and sent in a request line is the path that is made of this line. -/

namespace NginxDtls.RequestUri

open Checked UnsafeUri RequestLine PathSegments Escape

theorem hexChar_path (c : UInt8) : (hexChar (c >>> 4) ≠ question ∧ hexChar (c >>> 4) ≠ RequestLine.hash) ∧
    hexChar (c &&& 0xf) ≠ question ∧ hexChar (c &&& 0xf) ≠ RequestLine.hash := by
  revert c
  apply forall_byte
  decide +kernel

/-- What is escaped is in the path up to its end. -/
theorem escape_inPath (path : List UInt8) : ∀ c ∈ ngxEscapeUri .uri path, c ≠ question ∧ c ≠ RequestLine.hash := by
  have hquestion : bitSet EscapeType.uri.map question = true := by decide
  have hhash : bitSet EscapeType.uri.map RequestLine.hash = true := by decide
  induction path with
  | nil => exact nofun
  | cons ch path ih =>
      rw [ngxEscapeUri, writeLoop]
      split_ifs with hbit
      · have hhex := hexChar_path ch
        intro c hc
        simp only [List.singleton_append, List.mem_cons] at hc
        rcases hc with rfl | rfl | rfl | hc
        · decide
        · exact hhex.1
        · exact hhex.2
        · exact ih c hc
      · refine List.forall_mem_cons.mpr ⟨⟨?_, ?_⟩, ih⟩
        · rintro rfl
          exact hbit hquestion
        · rintro rfl
          exact hbit hhash

theorem decodePath_escape {path : List UInt8} (hnul : 0 ∉ path) : decodePath (ngxEscapeUri .uri path) = some path := by
  have hpercent : bitSet EscapeType.uri.map percent = true := by decide
  induction path with
  | nil => rw [ngxEscapeUri, writeLoop, decodePath]
  | cons ch path ih =>
      obtain ⟨hch, hpath⟩ := not_or.mp (mt List.mem_cons.mpr hnul)
      have hrest := ih hpath
      rw [ngxEscapeUri] at hrest
      rw [ngxEscapeUri, writeLoop]
      split_ifs with hbit
      · obtain ⟨hhigh, hlow, hbyte⟩ := hexChar_byte ch
        rw [List.singleton_append]
        unfold decodePath
        simp only [hhigh, hlow, hbyte, if_true, if_neg (Ne.symm hch), hrest]
        rfl
      · have hne : ch ≠ percent := by
          rintro rfl
          exact hbit hpercent
        unfold decodePath
        rw [if_neg hne, hrest]
        rfl

theorem argsOf_eq {uri args : List UInt8} (h : uri.dropWhile inPath = if args = [] then [] else question :: args)
    (hargs : RequestLine.hash ∉ args) : argsOf uri = args := by
  rw [argsOf, h]
  cases args with
  | nil => rfl
  | cons c args =>
      have hall : ∀ c' ∈ c :: args, decide (c' ≠ RequestLine.hash) = true := fun c' hc' =>
        decide_eq_true fun heq => hargs (heq ▸ hc')
      exact List.takeWhile_eq_self_iff.mpr hall

variable {mem : ℕ → UInt8} {r : Request}

/-- **An escaped path is read back.** If a line is accepted whose URI is the escape of a normalised path without zero bytes,
with arguments behind it or not, then what is made of it is this path, and the arguments. -/
theorem escaped_path_read {pos last pos' : ℕ} (merge : Bool)
    (h : ngxHttpParseRequestLine mem pos last Request.new = .ok pos' r) {path args : List UInt8}
    (hnormal : normalise UnsafeUri.slash period merge path = some path) (hnul : 0 ∉ path) (hargs : RequestLine.hash ∉ args)
    (huri : between mem (r.uriStart.getD 0) (r.uriEnd.getD 0) =
      ngxEscapeUri .uri (UnsafeUri.slash :: path) ++ if args = [] then [] else question :: args) :
    (ngxHttpProcessRequestUri mem merge r).map (fun f => (f.uri, f.exten, f.args)) =
      pure (UnsafeUri.slash :: path, (extension (lastSegment path)).getD [], args) := by
  have hslash : ngxEscapeUri .uri (UnsafeUri.slash :: path) = UnsafeUri.slash :: ngxEscapeUri .uri path := by
    rw [ngxEscapeUri, writeLoop, if_neg (by decide)]
    rfl
  have htail : ∀ c ∈ (if args = [] then [] else question :: args).head?, c = question ∨ c = RequestLine.hash := by
    intro c hc
    split_ifs at hc
    · cases hc
    · exact .inl (Option.some.inj hc).symm
  obtain ⟨hpath, hrest⟩ := pathOf_append _ (escape_inPath (UnsafeUri.slash :: path)) htail
  have hmeaning : meaning merge (between mem (r.uriStart.getD 0) (r.uriEnd.getD 0)) =
      some (UnsafeUri.slash :: path, (extension (lastSegment path)).getD [], args) := by
    rw [meaning, huri, hpath, argsOf_eq hrest hargs, hslash, List.tail_cons, reference, decodePath_escape hnul,
      Option.bind_some, hnormal]
    rfl
  rw [request_path merge h, hmeaning]

/-- `GET /a%20b?c` -/
def escapedLine : List UInt8 := [71, 69, 84, 32, 47, 97, 37, 50, 48, 98, 63, 99, 10]

theorem escapedLine_accepted : ∃ pos' r, ngxHttpParseRequestLine (escapedLine.getD · 0) 0 escapedLine.length Request.new =
    .ok pos' r ∧ (r.uriStart, r.uriEnd) = (some 4, some 12) := by
  have hends : (LineResult.accepted (ngxHttpParseRequestLine (escapedLine.getD · 0) 0 escapedLine.length Request.new)).map
      (fun r => (r.uriStart, r.uriEnd)) = some (some 4, some 12) := by decide +kernel
  obtain ⟨r, hr, hends⟩ := Option.map_eq_some_iff.mp hends
  obtain ⟨pos', h⟩ := accepted_some hr
  exact ⟨pos', r, h, hends⟩

theorem escaped_path_read_space : ∃ pos' r, ngxHttpParseRequestLine (escapedLine.getD · 0) 0 escapedLine.length Request.new =
      .ok pos' r ∧
    (ngxHttpProcessRequestUri (escapedLine.getD · 0) true r).map (fun f => (f.uri, f.exten, f.args)) =
      pure ([47, 97, 32, 98], [], [99]) :=
  let ⟨pos', r, h, hends⟩ := escapedLine_accepted
  ⟨pos', r, h, @escaped_path_read _ _ _ _ _ true h [97, 32, 98] [99] (by decide +kernel) (by decide) (by decide)
    (by rw [(Prod.mk.inj hends).1, (Prod.mk.inj hends).2]; decide +kernel)⟩

end NginxDtls.RequestUri
