import NginxDtls.GeoRun

/-! A block that has written its base, read again. The base means the same ranges; what the file has said of the default is
not in it. -/

namespace NginxDtls.Geo

open Zipper RbTree
open Conf (ngxConfBuffer)

/-! ### A block with one file -/

section Block

variable {junk : Range (List UInt8)} {cidr : CidrMode} {files files' : Files} {memory : ValueMemory} {tree : RbTree}
  {depth : ℕ} {ctx ctx' : GeoConf} {name : List UInt8} {pre post ds : List Directive}

/-- A text file without `include` is read the same whatever bases there are. -/
theorem readText_congr (htext : files'.text name = files.text name) {file : List Directive × ℕ}
    (hfile : files.text name = some file) (hplain : Plain file.1) :
    readText junk cidr files' depth ctx name = readText junk cidr files depth ctx name := by
  rw [readText, readText, htext, hfile, Option.bind_some, Option.bind_some, run_plain_congr hplain]

/-- A block that has read one file as text: the directives before it, in it and behind it, with the contexts between. -/
structure OneFile (junk : Range (List UInt8)) (cidr : CidrMode) (files : Files) (depth : ℕ) (start : GeoConf)
    (body : List Directive) (ctx : GeoConf) (pre ds post : List Directive) (name : List UInt8) (ctx₀ ctx₂ : GeoConf) :
    Prop where
  splits : ∃ d, includeOf d = some name ∧ body = pre ++ d :: post
  plainBefore : Plain pre
  plainFile : Plain ds
  plainBehind : Plain post
  text : ∃ time, files.text name = some (ds, time)
  runBefore : pre.foldlM (ngxStreamGeo junk cidr (ngxStreamGeoInclude junk cidr files (depth + 1))) start = some ctx₀
  read : readText junk cidr files depth ctx₀ name = some (textEnd ctx₂)
  runBehind : post.foldlM (ngxStreamGeo junk cidr (ngxStreamGeoInclude junk cidr files (depth + 1))) (textEnd ctx₂) =
    some ctx
  before : PlainRun start pre ctx₀
  file : PlainRun (textStart ctx₀ name) ds ctx₂
  behind : PlainRun (textEnd ctx₂) post ctx
  binary : ctx₀.binaryInclude = false

/-- The first `include`. -/
theorem split_include (body : List Directive) : Plain body ∨ ∃ d name, includeOf d = some name ∧
    ∃ pre post, Plain pre ∧ body = pre ++ d :: post := by
  induction body with
  | nil => exact .inl fun _ hd => absurd hd List.not_mem_nil
  | cons d body ih =>
      cases hname : includeOf d with
      | some name => exact .inr ⟨d, name, hname, [], body, fun _ hd => absurd hd List.not_mem_nil, rfl⟩
      | none =>
          rcases ih with hplain | ⟨d', name, hname', pre, post, hplain, rfl⟩
          · exact .inl (List.forall_mem_cons.mpr ⟨hname, hplain⟩)
          · exact .inr ⟨d', name, hname', d :: pre, post, List.forall_mem_cons.mpr ⟨hname, hplain⟩, rfl⟩

/-- The directives of a block that ends with one file read, and without a base. -/
theorem oneFile {body : List Directive} {start : GeoConf} (hgood : Good start) (hstart : start.includes = 0)
    (hrun : body.foldlM (ngxStreamGeo junk cidr (ngxStreamGeoInclude junk cidr files depth)) start = some ctx)
    (halive : ¬Dead ctx) (hincludes : ctx.includes = 1) (hbinary : ctx.binaryInclude = false) :
    ∃ depth' pre ds post name ctx₀ ctx₂, depth = depth' + 1 ∧
      OneFile junk cidr files depth' start body ctx pre ds post name ctx₀ ctx₂ := by
  have hdead : ∀ depth ctx name ctx', Dead ctx → ngxStreamGeoInclude junk cidr files depth ctx name = some ctx' →
      Dead ctx' := include_dead
  have hlater : ∀ depth, IncludeLater (ngxStreamGeoInclude junk cidr files depth) := include_later
  rcases split_include body with hplain | ⟨d, name, hname, pre, post, hplain, rfl⟩
  · have hend := run_plain (hdead depth) hgood hplain hrun halive
    rw [hend.includes, hstart] at hincludes
    exact absurd hincludes Nat.zero_ne_one
  · rw [List.foldlM_append] at hrun
    obtain ⟨ctx₀, hpre, hrun⟩ := Option.bind_eq_some_iff.mp hrun
    rw [List.foldlM_cons] at hrun
    obtain ⟨ctx₁, hfile, hpost⟩ := Option.bind_eq_some_iff.mp hrun
    rw [ngxStreamGeo_include hname] at hfile
    have halive₁ : ¬Dead ctx₁ := fun h => halive (run_dead (hdead depth) h hpost)
    have halive₀ : ¬Dead ctx₀ := fun h => halive₁ (hdead depth ctx₀ name ctx₁ h hfile)
    have hbefore := run_plain (hdead depth) hgood hplain hpre halive₀
    obtain ⟨hat, hmore⟩ := (hlater depth ctx₀ name ctx₁ hbefore.good hfile).resolve_left halive₁
    have hafter := (run_later (hdead depth) (hlater depth) hat.good hpost).resolve_left halive
    have hbinary₁ : ctx₁.binaryInclude = false := Bool.eq_false_of_not_eq_true fun h =>
      absurd ((hafter.binary h).symm.trans hbinary) (by decide)
    have hbinary₀ : ctx₀.binaryInclude = false := Bool.eq_false_of_not_eq_true fun h =>
      absurd ((hat.binary h).symm.trans hbinary₁) (by decide)
    cases depth with
    | zero => cases hfile
    | succ depth =>
        rcases include_cases hfile with hread | ⟨-, bytes, ranges, rfl⟩
        · have hread' := hread
          obtain ⟨⟨ds, time⟩, htext, hread⟩ := Option.bind_eq_some_iff.mp hread
          obtain ⟨ctx₂, hds, rfl⟩ := Option.map_eq_some_iff.mp hread
          have hcount : ctx₂.includes + 1 ≤ 1 := hafter.includes.trans_eq hincludes
          have hstart₂ : Good (textStart ctx₀ name) := ⟨hbefore.good.tree, hbefore.good.values, hbefore.good.ranges⟩
          have halive₂ : ¬Dead ctx₂ := halive₁
          have hplain₂ : Plain ds := plain_of_run (hdead depth) (hlater depth) hstart₂ hds halive₂ (by omega) hbinary₁
          have hplain₁ : Plain post := plain_of_run (hdead (depth + 1)) (hlater (depth + 1)) hat.good hpost halive
            (by
              rw [hincludes]
              exact Nat.le_add_left 1 ctx₂.includes) hbinary
          exact ⟨depth, pre, ds, post, name, ctx₀, ctx₂, rfl, ⟨d, hname, rfl⟩, hplain, hplain₂, hplain₁, ⟨time, htext⟩, hpre,
            hread', hpost, hbefore, run_plain (hdead depth) hstart₂ hplain₂ hds halive₂,
            run_plain (hdead (depth + 1)) hat.good hplain₁ hpost halive, hbinary₀⟩
        · have htaken : true = false := hbinary₁
          cases htaken

/-! ### Reading again -/

/-- A base in the place of the one that was there. -/
def Files.withBase (files : Files) (name bytes : List UInt8) (mtime : ℕ) : Files :=
  { files with base := Function.update files.base name (some (bytes, mtime)) }

/-- A base with the checks that the reading makes. -/
structure ValidBase (bytes : List UInt8) (ranges : ℕ) : Prop where
  length : 16 ≤ bytes.length
  header : bytes.take 12 = ngxStreamGeoHeader.take 12
  scan : ∃ crc, scanBase bytes = some (ranges, crc) ∧ crc.toNat = leAt bytes 12 4

/-- A valid base that is not older than its text is taken. -/
theorem includeBinaryBase_valid {bytes : List UInt8} {ranges mtime time : ℕ} {ds : List Directive}
    (hvalid : ValidBase bytes ranges) (htext : files.text name = some (ds, time)) (htime : time ≤ mtime)
    (hout : ctx.outsideEntries = false) (hbinary : ctx.binaryInclude = false) :
    ngxStreamGeoIncludeBinaryBase (files.withBase name bytes mtime) ctx name =
      .ok { ctx with high := .base bytes ranges, includeName := name } := by
  obtain ⟨crc, hscan, hcrc⟩ := hvalid.scan
  have hbase : (files.withBase name bytes mtime).base name = some (bytes, mtime) := Function.update_self ..
  have htext' : (files.withBase name bytes mtime).text name = some (ds, time) := htext
  have hchecks : ¬(bytes.length < 16 ∨ bytes.take 12 ≠ ngxStreamGeoHeader.take 12) := by
    rw [not_or, not_lt, not_not]
    exact ⟨hvalid.length, hvalid.header⟩
  rw [ngxStreamGeoIncludeBinaryBase, hbase]
  dsimp only
  rw [hout, if_neg Bool.false_ne_true, hbinary, if_neg Bool.false_ne_true, htext']
  dsimp only
  rw [if_neg (Nat.not_lt.mpr htime), if_neg hchecks, hscan]
  dsimp only
  rw [if_neg (not_not.mpr hcrc)]

section Reload

variable {start : GeoConf} {body : List Directive} {ctx₀ ctx₂ : GeoConf}

theorem Good.withHigh (hgood : Good ctx) (bytes : List UInt8) (ranges : ℕ) (name : List UInt8) :
    Good { ctx with high := .base bytes ranges, includeName := name } :=
  ⟨hgood.tree, hgood.values, rangesGood_empty _⟩

/-- The run behind the directives before the file. -/
theorem OneFile.run_again (h : OneFile junk cidr files depth start body ctx pre ds post name ctx₀ ctx₂) :
    body.foldlM (ngxStreamGeo junk cidr (ngxStreamGeoInclude junk cidr files' (depth + 1))) start =
      (ngxStreamGeoInclude junk cidr files' (depth + 1) ctx₀ name).bind fun ctx₁ =>
        post.foldlM (ngxStreamGeo junk cidr (ngxStreamGeoInclude junk cidr files' (depth + 1))) ctx₁ := by
  obtain ⟨d, hname, rfl⟩ := h.splits
  have hbefore : pre.foldlM (ngxStreamGeo junk cidr (ngxStreamGeoInclude junk cidr files' (depth + 1))) start =
      some ctx₀ := (run_plain_congr h.plainBefore).trans h.runBefore
  rw [List.foldlM_append, hbefore, Option.bind_eq_bind, Option.bind_some, List.foldlM_cons, ngxStreamGeo_include hname,
    Option.bind_eq_bind]

/-- Where the file stands before `ranges`, the base is not read. -/
theorem OneFile.again_text (h : OneFile junk cidr files depth start body ctx pre ds post name ctx₀ ctx₂)
    (hranges : ctx₀.ranges = false) (htext : files'.text name = files.text name) :
    body.foldlM (ngxStreamGeo junk cidr (ngxStreamGeoInclude junk cidr files' (depth + 1))) start = some ctx := by
  obtain ⟨time, hfile⟩ := h.text
  rw [h.run_again, ngxStreamGeoInclude_succ, hranges, if_neg Bool.false_ne_true]
  dsimp only
  rw [readText_congr htext hfile h.plainFile, h.read, Option.bind_some]
  exact (run_plain_congr h.plainBehind).trans h.runBehind

/-- Where it stands behind `ranges`, the base is taken, and the directives behind it are accepted. -/
theorem OneFile.again_base (h : OneFile junk cidr files depth start body ctx pre ds post name ctx₀ ctx₂)
    (hranges : ctx₀.ranges = true) (hout : ctx.outsideEntries = false) (hallow : ctx.allowBinaryInclude = true)
    {bytes : List UInt8} {ranges mtime : ℕ} (hvalid : ValidBase bytes ranges)
    (htime : ∀ ds time, files.text name = some (ds, time) → time ≤ mtime) :
    ∃ ctx', body.foldlM (ngxStreamGeo junk cidr
        (ngxStreamGeoInclude junk cidr (files.withBase name bytes mtime) (depth + 1))) start = some ctx' ∧
      ctx'.ranges = true ∧ ctx'.high = .base bytes ranges ∧
      ctx'.defaultValue = (lastDefault post).or ctx₀.defaultValue := by
  obtain ⟨time, hfile⟩ := h.text
  have hout₀ : ctx₀.outsideEntries = false := by
    have hboth : (ctx₀.allowBinaryInclude && !ctx₀.outsideEntries) = true := by
      rw [h.behind.allow] at hallow
      exact h.file.allow.symm.trans hallow
    exact Bool.not_eq_true' _ ▸ (Bool.and_eq_true_iff.mp hboth).2
  obtain ⟨-, -, hharmless⟩ := h.behind.harmless hout
  have htaken := includeBinaryBase_valid hvalid hfile (htime ds time hfile) hout₀ h.binary
  have hgood := h.before.good.withHigh bytes ranges name
  obtain ⟨ctx', hrun, hhigh, hranges'⟩ := @run_harmless junk cidr
    (ngxStreamGeoInclude junk cidr (files.withBase name bytes mtime) (depth + 1)) _ post hgood hranges
    fun d hd => ⟨h.plainBehind d hd, hharmless d hd⟩
  have halive : ¬Dead ctx' := fun hdead => absurd (hdead.2.symm.trans hranges') (by decide)
  have hplain := run_plain (include_dead (depth + 1)) hgood h.plainBehind hrun halive
  refine ⟨ctx', ?_, hranges', hhigh, hplain.defaultValue⟩
  rw [h.run_again, ngxStreamGeoInclude_succ, hranges, if_pos rfl, htaken]
  exact hrun

end Reload

/-! ### The base that a block writes -/

/-- The value of a `default`, and of none. -/
def defaultValueOf (text : Option (List UInt8)) : VariableValue := (text.map textValue).getD ngxStreamVariableNullValue

theorem defaultValueOf_eq (text : Option (List UInt8)) : defaultValueOf text = textValue (text.getD []) := by
  cases text with
  | none => rfl
  | some text => rfl

theorem defaultValueOf_inj {a b : Option (List UInt8)} : defaultValueOf a = defaultValueOf b ↔ a.getD [] = b.getD [] := by
  rw [defaultValueOf_eq, defaultValueOf_eq]
  exact ⟨congrArg VariableValue.data, congrArg textValue⟩

/-- The size of the file. -/
def fileSize (ctx : GeoConf) (low : Low (List UInt8)) : ℕ :=
  ctx.dataSize + ((List.range 0x10000).map (listSize low)).sum

/-- A block that writes a base. -/
structure Writes (memory : ValueMemory) (ctx : GeoConf) (low : Low (List UInt8)) (w : WrittenBase) : Prop where
  ranges : ctx.ranges = true
  high : ctx.high = .arrays low
  allow : ctx.allowBinaryInclude = true
  outside : ctx.outsideEntries = false
  includes : ctx.includes = 1
  name : w.name = ctx.includeName
  dataSize : w.dataSize = fileSize ctx (finish low)
  create : ngxStreamGeoCreateBinaryBase memory ctx.values (finish low) w.dataSize = some (w.bytes, w.written)

theorem finishBlock_writes {high : High} {defaultValue : VariableValue} {w : WrittenBase}
    (h : finishBlock memory ctx = .ranges high defaultValue (some w)) :
    ∃ low, Writes memory ctx low w ∧ high = .arrays (finish low) ∧ defaultValue = defaultValueOf ctx.defaultValue := by
  rw [finishBlock] at h
  by_cases hranges : ctx.ranges = true
  · rw [if_pos hranges] at h
    cases hhigh : ctx.high with
    | null =>
        rw [hhigh] at h
        cases h
    | base bytes ranges =>
        rw [hhigh] at h
        cases h
    | arrays low =>
        rw [hhigh] at h
        obtain ⟨rfl, rfl, hbase⟩ := GeoBlock.ranges.inj h
        split at hbase
        · rename_i hguard
          obtain ⟨r, hr, rfl⟩ := Option.map_eq_some_iff.mp hbase
          rw [Bool.and_eq_true_iff, Bool.and_eq_true_iff, Bool.and_eq_true_iff] at hguard
          obtain ⟨⟨⟨hallow, hout⟩, -⟩, hincludes⟩ := hguard
          exact ⟨low, ⟨hranges, hhigh, hallow, Bool.not_eq_true' _ ▸ hout, eq_of_beq hincludes, rfl, rfl, hr⟩, rfl, rfl⟩
        · cases hbase
  · rw [if_neg hranges] at h
    cases h

theorem Writes.finishBlock_eq {low : Low (List UInt8)} {w : WrittenBase} (h : Writes memory ctx low w)
    (hentries : 100000 < ctx.entries) :
    finishBlock memory ctx = .ranges (.arrays (finish low)) (defaultValueOf ctx.defaultValue) (some w) := by
  have hguard : (ctx.allowBinaryInclude && !ctx.outsideEntries && decide (ctx.entries > 100000) && ctx.includes == 1) =
      true := by
    rw [h.allow, h.outside, h.includes, decide_eq_true hentries]
    rfl
  have hcreate := h.create
  rw [h.dataSize, fileSize] at hcreate
  rw [finishBlock, if_pos h.ranges, h.high]
  dsimp only
  rw [if_pos hguard, hcreate, Option.map_some, ← h.name]
  refine congrArg (fun w => GeoBlock.ranges (.arrays (finish low)) (defaultValueOf ctx.defaultValue) (some w)) ?_
  exact congrArg (WrittenBase.mk w.name w.bytes w.written) h.dataSize.symm

theorem finish_some {low : Low (List UInt8)} {i : ℕ} {ranges : List (Range (List UInt8))}
    (h : finish low i = some ranges) : ranges = bucket low i ∧ ranges ≠ [] := by
  rw [finish] at h
  rw [bucket]
  cases hi : low i with
  | none =>
      rw [hi] at h
      cases h
  | some l =>
      rw [hi] at h
      cases l with
      | nil => cases h
      | cons r l =>
          obtain rfl := Option.some.inj h
          exact ⟨rfl, List.cons_ne_nil _ _⟩

theorem RangesGood.writable {values : StrTree} {low : Low (List UInt8)} (h : RangesGood values low) :
    Writable values (finish low) where
  known i ranges hi r hr := by
    obtain ⟨rfl, -⟩ := finish_some hi
    exact h.known i r hr
  within i ranges hi r hr := by
    obtain ⟨rfl, -⟩ := finish_some hi
    have hwithin := (h.sorted i).within r hr
    omega
  filled i ranges hi := (finish_some hi).2

/-- The base that is written has the size of the file, is valid, and means the same table. -/
theorem Writes.valid {low : Low (List UInt8)} {w : WrittenBase} (h : Writes memory ctx low w) (hgood : Good ctx) :
    w.written = w.dataSize ∧ w.bytes.length = w.dataSize ∧ ∃ ranges, ValidBase w.bytes ranges ∧
      ∀ i < 0x10000, (High.base w.bytes ranges).table i = (High.arrays (finish low)).table i := by
  have hlow : ctx.low = low := by rw [GeoConf.low, h.high]
  obtain ⟨T, hinv⟩ := hgood.values.inv
  have hcreate := h.create
  have hsize : w.dataSize < 2 ^ 63 := by
    by_contra hnot
    rw [ngxStreamGeoCreateBinaryBase, if_neg hnot] at hcreate
    cases hcreate
  have hsum : w.dataSize = 16 + 16 + 0x10000 * 8 + ((ctx.values.nodes.map ctx.values.str).map valueSize).sum +
      ((List.range 0x10000).map (listSize (finish low))).sum := by
    rw [h.dataSize, fileSize, hgood.values.size]
  have hshort : ∀ n ∈ ctx.values.nodes, (ctx.values.str n).length < 2 ^ 28 := fun n hn =>
    (hgood.values.short n hn).trans_lt (by decide)
  obtain ⟨bytes, ranges, crc, heq, hlength, hheader, hscan, hcrc, htable⟩ :=
    createBinaryBase_eq hinv hshort (hlow ▸ hgood.ranges).writable hsize hsum
  obtain ⟨rfl, hwritten⟩ := Prod.mk.inj (Option.some.inj (hcreate.symm.trans heq))
  exact ⟨hwritten, hlength, ranges, ⟨by omega, hheader, crc, hscan, hcrc⟩, htable⟩

/-! ### The variable -/

theorem lookupBucket_map {V W : Type} (f : V → W) (n : ℕ) (l : List (Range V)) :
    lookupBucket n (l.map fun r => ⟨f r.value, r.start, r.stop⟩) = (lookupBucket n l).map f := by
  induction l with
  | nil => rfl
  | cons r l ih =>
      rw [List.map_cons, lookupBucket, lookupBucket, ih]
      by_cases hr : r.start ≤ n ∧ n ≤ r.stop
      · rw [if_pos hr, if_pos hr, Option.map_some]
      · rw [if_neg hr, if_neg hr]

theorem finish_table (low : Low (List UInt8)) :
    (High.arrays (finish low)).table = finish (High.arrays low).table := by
  funext i
  show (finish low i).map _ = finish (High.arrays low).table i
  rw [finish, finish, High.table]
  dsimp only
  cases low i with
  | none => rfl
  | some l =>
      cases l with
      | nil => rfl
      | cons r l => rfl

theorem geoVariable_arrays (low : Low (List UInt8)) (defaultValue : VariableValue) (addr : GeoAddr) :
    geoVariable (.arrays (finish low)) defaultValue addr = ((lookupBucket (addr.inaddr.toNat % 65536)
      (bucket low (addr.inaddr.toNat / 65536))).map textValue).getD defaultValue := by
  have hbucket : ∀ i, bucket (High.arrays low).table i =
      (bucket low i).map fun r => ⟨textValue r.value, r.start, r.stop⟩ := by
    intro i
    rw [bucket, bucket]
    show ((low i).map _).getD [] = _
    cases low i with
    | none => rfl
    | some l => rfl
  rw [geoVariable, finish_table, variable_eq, hbucket, lookupBucket_map]

/-- No range has the last address. -/
theorem geoVariable_last {low : Low (List UInt8)} (h : lookupBucket 65535 (bucket low 65535) = none)
    (defaultValue : VariableValue) :
    geoVariable (.arrays (finish low)) defaultValue (.inet 0xffffffff) = defaultValue := by
  rw [geoVariable_arrays]
  show ((lookupBucket 65535 (bucket low 65535)).map textValue).getD defaultValue = defaultValue
  rw [h]
  rfl

/-- The variable reads the pointers of the buckets. -/
theorem geoVariable_congr {a b : High} (h : ∀ i < 0x10000, a.table i = b.table i) (defaultValue : VariableValue)
    (addr : GeoAddr) : geoVariable a defaultValue addr = geoVariable b defaultValue addr := by
  have hi : (addr.inaddr >>> 16).toNat < 0x10000 := by
    have hbound := UInt32.toNat_lt addr.inaddr
    rw [shift_high]
    omega
  rw [geoVariable, geoVariable, ngxStreamGeoRangeVariable, ngxStreamGeoRangeVariable, h _ hi]

/-! ### When the variable is the same behind a reload -/

/-- The directives outside the file. -/
def outsideOf (body : List Directive) : List Directive := body.filter fun d => (includeOf d).isNone

/-- The directives with those of the files in their places. -/
def wholeOf (files : Files) (body : List Directive) : List Directive :=
  body.flatMap fun d =>
    match includeOf d with
    | none => [d]
    | some name => ((files.text name).map Prod.fst).getD []

/-- The directive `ranges` stands before the first `include`, so that a base is looked for. -/
def RangesFirst (body : List Directive) : Prop :=
  (body.takeWhile fun d => (includeOf d).isNone).any isRanges = true

instance (body : List Directive) : Decidable (RangesFirst body) := inferInstanceAs (Decidable (_ = _))

theorem Plain.outside (h : Plain ds) : outsideOf ds = ds :=
  List.filter_eq_self.mpr fun d hd => by rw [h d hd, Option.isNone_none]

theorem Plain.whole (h : Plain ds) : wholeOf files ds = ds := by
  induction ds with
  | nil => rfl
  | cons d ds ih =>
      have hd := h d List.mem_cons_self
      rw [wholeOf, List.flatMap_cons, ← wholeOf, ih fun d' hd' => h d' (List.mem_cons_of_mem _ hd'), hd, List.singleton_append]

section Condition

variable {start : GeoConf} {body : List Directive} {ctx₀ ctx₂ : GeoConf}

theorem OneFile.outside (h : OneFile junk cidr files depth start body ctx pre ds post name ctx₀ ctx₂) :
    outsideOf body = pre ++ post := by
  obtain ⟨d, hname, rfl⟩ := h.splits
  have hnot : ¬(includeOf d).isNone = true := by
    rw [hname]
    exact Bool.false_ne_true
  rw [outsideOf, List.filter_append, List.filter_cons, if_neg hnot]
  exact congrArg₂ (· ++ ·) h.plainBefore.outside h.plainBehind.outside

theorem OneFile.whole (h : OneFile junk cidr files depth start body ctx pre ds post name ctx₀ ctx₂) :
    wholeOf files body = pre ++ (ds ++ post) := by
  obtain ⟨d, hname, rfl⟩ := h.splits
  obtain ⟨time, hfile⟩ := h.text
  rw [wholeOf, List.flatMap_append, List.flatMap_cons, ← wholeOf, ← wholeOf, h.plainBefore.whole, h.plainBehind.whole, hname]
  dsimp only
  rw [hfile]
  rfl

theorem OneFile.rangesFirst (h : OneFile junk cidr files depth start body ctx pre ds post name ctx₀ ctx₂)
    (hstart : start.ranges = false) : ctx₀.ranges = true ↔ RangesFirst body := by
  obtain ⟨d, hname, rfl⟩ := h.splits
  have htake : (pre ++ d :: post).takeWhile (fun d => (includeOf d).isNone) = pre := by
    rw [List.takeWhile_append_of_pos fun d' hd' => by rw [h.plainBefore d' hd', Option.isNone_none],
      List.takeWhile_cons_of_neg (by rw [hname]; exact Bool.false_ne_true), List.append_nil]
  rw [RangesFirst, htake, h.before.ranges, hstart, Bool.false_or]

/-- The last `default` of all. -/
theorem OneFile.default_first (h : OneFile junk cidr files depth start body ctx pre ds post name ctx₀ ctx₂)
    (hstart : start.defaultValue = none) : ctx.defaultValue = lastDefault (wholeOf files body) := by
  have hfile : ctx₂.defaultValue = (lastDefault ds).or ctx₀.defaultValue := h.file.defaultValue
  have hbehind : ctx.defaultValue = (lastDefault post).or ctx₂.defaultValue := h.behind.defaultValue
  rw [hbehind, hfile, h.before.defaultValue, hstart, Option.or_none, h.whole, lastDefault_append, lastDefault_append,
    Option.or_assoc]

/-- The last `default` outside the file. -/
theorem OneFile.default_again (h : OneFile junk cidr files depth start body ctx pre ds post name ctx₀ ctx₂)
    (hstart : start.defaultValue = none) :
    (lastDefault post).or ctx₀.defaultValue = lastDefault (outsideOf body) := by
  rw [h.before.defaultValue, hstart, Option.or_none, h.outside, lastDefault_append]

end Condition

section Written

variable {body : List Directive} {high : High} {defaultValue : VariableValue} {w : WrittenBase} {mtime : ℕ}

/-- The run of a block that has written a base. -/
theorem written_run
    (hblock : ngxStreamGeoBlock junk cidr memory tree files depth body = some (.ranges high defaultValue (some w))) :
    ∃ ctx low depth' pre ds post ctx₀ ctx₂, finishBlock memory ctx = .ranges high defaultValue (some w) ∧
      Writes memory ctx low w ∧ high = .arrays (finish low) ∧ defaultValue = defaultValueOf ctx.defaultValue ∧
      depth = depth' + 1 ∧ OneFile junk cidr files depth' (geoStart tree) body ctx pre ds post w.name ctx₀ ctx₂ := by
  obtain ⟨ctx, hrun, hfinish⟩ := Option.map_eq_some_iff.mp hblock
  obtain ⟨low, hwrites, hhigh, hdefault⟩ := finishBlock_writes hfinish
  have halive : ¬Dead ctx := fun hdead => absurd (hdead.2.symm.trans hwrites.ranges) (by decide)
  have hbinary : ctx.binaryInclude = false := by rw [GeoConf.binaryInclude, hwrites.high]
  obtain ⟨depth', pre, ds, post, name, ctx₀, ctx₂, hdepth, hone⟩ := oneFile (good_start tree) rfl hrun halive
    hwrites.includes hbinary
  have hname : name = w.name := by
    rw [hwrites.name, hone.behind.name]
    exact hone.file.name.symm
  subst hname
  exact ⟨ctx, low, depth', pre, ds, post, ctx₀, ctx₂, hfinish, hwrites, hhigh, hdefault, hdepth, hone⟩

/-- The base is written up to its end. -/
theorem written_size
    (hblock : ngxStreamGeoBlock junk cidr memory tree files depth body = some (.ranges high defaultValue (some w))) :
    w.written = w.dataSize ∧ w.bytes.length = w.dataSize := by
  obtain ⟨ctx, low, depth', pre, ds, post, ctx₀, ctx₂, -, hwrites, -, -, -, hone⟩ := written_run hblock
  obtain ⟨hwritten, hlength, -⟩ := hwrites.valid hone.behind.good
  exact ⟨hwritten, hlength⟩

/-- The default of the text, which the last address has. -/
theorem written_default
    (hblock : ngxStreamGeoBlock junk cidr memory tree files depth body = some (.ranges high defaultValue (some w))) :
    defaultValue = defaultValueOf (lastDefault (wholeOf files body)) ∧
      ∀ value, geoVariable high value (.inet 0xffffffff) = value := by
  obtain ⟨ctx, low, depth', pre, ds, post, ctx₀, ctx₂, -, hwrites, rfl, rfl, -, hone⟩ := written_run hblock
  have hlow : ctx.low = low := by rw [GeoConf.low, hwrites.high]
  have hlast := hone.behind.good.ranges.last
  rw [hlow] at hlast
  exact ⟨congrArg defaultValueOf (hone.default_first rfl), geoVariable_last hlast⟩

/-- Where the file stands before `ranges`, it is read as text again. -/
theorem again_text
    (hblock : ngxStreamGeoBlock junk cidr memory tree files depth body = some (.ranges high defaultValue (some w)))
    (hnot : ¬RangesFirst body) : ngxStreamGeoBlock junk cidr memory tree (files.withBase w.name w.bytes mtime) depth body =
      some (.ranges high defaultValue (some w)) := by
  obtain ⟨ctx, low, depth', pre, ds, post, ctx₀, ctx₂, hfinish, -, -, -, rfl, hone⟩ := written_run hblock
  have hranges : ctx₀.ranges = false := Bool.eq_false_of_not_eq_true fun h => hnot ((hone.rangesFirst rfl).mp h)
  have hagain : body.foldlM (ngxStreamGeo junk cidr
      (ngxStreamGeoInclude junk cidr (files.withBase w.name w.bytes mtime) (depth' + 1))) (geoStart tree) = some ctx :=
    hone.again_text hranges rfl
  rw [ngxStreamGeoBlock, hagain, Option.map_some, hfinish]

/-- Where it stands behind `ranges`, its base is read, which means the same ranges. -/
theorem again_base
    (hblock : ngxStreamGeoBlock junk cidr memory tree files depth body = some (.ranges high defaultValue (some w)))
    (hfresh : ∀ ds time, files.text w.name = some (ds, time) → time ≤ mtime) (hfirst : RangesFirst body) :
    ∃ ranges, ngxStreamGeoBlock junk cidr memory tree (files.withBase w.name w.bytes mtime) depth body =
        some (.ranges (.base w.bytes ranges) (defaultValueOf (lastDefault (outsideOf body))) none) ∧
      ∀ value addr, geoVariable (.base w.bytes ranges) value addr = geoVariable high value addr := by
  obtain ⟨ctx, low, depth', pre, ds, post, ctx₀, ctx₂, -, hwrites, rfl, -, rfl, hone⟩ := written_run hblock
  obtain ⟨-, -, ranges, hvalid, htable⟩ := hwrites.valid hone.behind.good
  obtain ⟨ctx', hagain, hranges', hhigh', hdefault'⟩ := hone.again_base ((hone.rangesFirst rfl).mpr hfirst) hwrites.outside
    hwrites.allow hvalid hfresh
  rw [hone.default_again rfl] at hdefault'
  refine ⟨ranges, ?_, geoVariable_congr htable⟩
  rw [ngxStreamGeoBlock, hagain, Option.map_some, finishBlock, if_pos hranges', hhigh', ← hdefault']
  rfl

/-- A block that has written a base, read again when the base is not older than its text: the base has its size, and it
is taken where `ranges` stands before the file. All addresses have the values they had, unless the file has the last
`default`. -/
theorem reload
    (hblock : ngxStreamGeoBlock junk cidr memory tree files depth body = some (.ranges high defaultValue (some w)))
    (hfresh : ∀ ds time, files.text w.name = some (ds, time) → time ≤ mtime) :
    w.written = w.dataSize ∧ w.bytes.length = w.dataSize ∧
      ∃ high' defaultValue' base', ngxStreamGeoBlock junk cidr memory tree (files.withBase w.name w.bytes mtime) depth body =
          some (.ranges high' defaultValue' base') ∧
        ((∃ ranges, high' = .base w.bytes ranges) ↔ RangesFirst body) ∧
        ((∀ addr, geoVariable high' defaultValue' addr = geoVariable high defaultValue addr) ↔
          (RangesFirst body → (lastDefault (outsideOf body)).getD [] = (lastDefault (wholeOf files body)).getD [])) := by
  obtain ⟨hwritten, hlength⟩ := written_size hblock
  refine ⟨hwritten, hlength, ?_⟩
  by_cases hfirst : RangesFirst body
  · obtain ⟨ranges, hagain, hmeans⟩ := again_base hblock hfresh hfirst
    obtain ⟨rfl, hlast⟩ := written_default hblock
    refine ⟨_, _, none, hagain, iff_of_true ⟨ranges, rfl⟩ hfirst, ?_⟩
    rw [← defaultValueOf_inj]
    constructor
    · -- no range has the last address
      intro hall _
      have haddr := hall (.inet 0xffffffff)
      rwa [hmeans, hlast, hlast] at haddr
    · intro hdefault addr
      rw [hmeans, hdefault hfirst]
  · obtain ⟨ctx, low, depth', pre, ds, post, ctx₀, ctx₂, -, -, rfl, -, -, -⟩ := written_run hblock
    refine ⟨_, _, some w, again_text hblock hfirst, iff_of_false ?_ hfirst,
      iff_of_true (fun _ => rfl) fun h => absurd h hfirst⟩
    rintro ⟨ranges, h⟩
    cases h

end Written

/-! ### A file of deletions -/

section Sample

/-- `delete 0.0.0.0-0.0.0.0`, which leaves the table as it is. -/
def deleteNone : Directive :=
  [⟨deleteName, by decide⟩, ⟨[48, 46, 48, 46, 48, 46, 48, 45, 48, 46, 48, 46, 48, 46, 48], by decide⟩]

/-- `default x` -/
def defaultX : Directive := [⟨defaultName, by decide⟩, ⟨[120], by decide⟩]

/-- `1.0.255.0-1.1.0.9` -/
def rangeWord : Word :=
  ⟨[49, 46, 48, 46, 50, 53, 53, 46, 48, 45, 49, 46, 49, 46, 48, 46, 57], by decide⟩

/-- A range in two buckets. -/
def rangeX : Directive := [rangeWord, ⟨[120], by decide⟩]

/-- `ranges; include f;` -/
def sampleBody : List Directive := [[⟨rangesName, by decide⟩], [⟨includeName, by decide⟩, ⟨[102], by decide⟩]]

/-- A file with enough entries to write a base. -/
def sampleFiles (ds : List Directive) : Files := ⟨fun _ => some (ds ++ List.replicate 100001 deleteNone, 1), fun _ => none⟩

/-- The context before the file. -/
def sampleStart (tree : RbTree) : GeoConf := textStart { geoStart tree with ranges := true } [102]

theorem deleteNone_step {incl : GeoConf → List UInt8 → Option GeoConf} (hgood : Good ctx) (hranges : ctx.ranges = true)
    (hbinary : ctx.binaryInclude = false) (hkept : bucket ctx.low 0 = []) :
    ∃ low, ngxStreamGeo junk cidr incl ctx deleteNone =
        some { ctx with high := .arrays low, entries := ctx.entries + 1, outsideEntries := true } ∧
      RangesGood ctx.values low ∧ bucket low = bucket ctx.low := by
  obtain ⟨result, hresult, hbuckets⟩ := deleteRange_spec hgood.ranges.sorted 0 0
  refine ⟨result.1, ?_, hgood.ranges.delete hresult, funext fun h => ?_⟩
  · have hnet : rangeOf [48, 46, 48, 46, 48, 46, 48, 45, 48, 46, 48, 46, 48, 46, 48] = some (0, 0) := by decide
    rw [deleteNone, ngxStreamGeo_pair, if_neg (by decide), if_pos hranges, ngxStreamGeoRange, if_neg (by decide), hbinary,
      if_neg Bool.false_ne_true, if_pos (by decide), hnet, Option.bind_some, if_pos (by decide), hresult, Option.map_some]
  · by_cases hin : InBucket 0 0 h
    · obtain rfl : h = 0 := Nat.le_zero.mp hin.2.2
      rw [(hbuckets 0).1 hin, hkept]
      rfl
    · exact (hbuckets h).2 hin

theorem deleteNone_run {incl : GeoConf → List UInt8 → Option GeoConf} (hgood : Good ctx) (hranges : ctx.ranges = true)
    (hbinary : ctx.binaryInclude = false) (hkept : bucket ctx.low 0 = []) (n : ℕ) :
    ∃ low, (List.replicate (n + 1) deleteNone).foldlM (ngxStreamGeo junk cidr incl) ctx =
        some { ctx with high := .arrays low, entries := ctx.entries + (n + 1), outsideEntries := true } ∧
      RangesGood ctx.values low ∧ bucket low = bucket ctx.low := by
  induction n generalizing ctx with
  | zero =>
      obtain ⟨low, hstep, hlow⟩ := deleteNone_step hgood hranges hbinary hkept
      refine ⟨low, ?_, hlow⟩
      rw [List.replicate_succ, List.foldlM_cons, hstep]
      rfl
  | succ n ih =>
      obtain ⟨low, hstep, hlow, hsame⟩ := deleteNone_step hgood hranges hbinary hkept
      obtain ⟨low', hrun, hlow', hsame'⟩ := @ih { ctx with
        high := .arrays low, entries := ctx.entries + 1, outsideEntries := true } ⟨hgood.tree, hgood.values, hlow⟩ hranges
        rfl (hsame ▸ hkept)
      refine ⟨low', ?_, hlow', hsame'.trans hsame⟩
      rw [List.replicate_succ, List.foldlM_cons, hstep, Option.bind_eq_bind, Option.bind_some, hrun, Nat.add_assoc,
        Nat.add_comm 1]

/-- A file of such deletions behind other directives writes a base. -/
theorem sample_written {ds : List Directive} (hgood : Good ctx)
    (hds : ds.foldlM (ngxStreamGeo junk cidr (ngxStreamGeoInclude junk cidr (sampleFiles ds) 0)) (sampleStart tree) =
      some ctx)
    (hrest : ctx.ranges = true ∧ ctx.includes = 0 ∧ ctx.binaryInclude = false ∧ ctx.allowBinaryInclude = true)
    (hkept : bucket ctx.low 0 = []) (hshort : ∀ h, (bucket ctx.low h).length ≤ 1) (hsize : ctx.dataSize < 2 ^ 62) :
    ∃ low defaultValue w, ngxStreamGeoBlock junk cidr memory tree (sampleFiles ds) 1 sampleBody =
      some (.ranges (.arrays (finish low)) defaultValue (some w)) ∧ bucket low = bucket ctx.low := by
  obtain ⟨hranges, hincludes, hbinary, hallow⟩ := hrest
  obtain ⟨low, hrun, hlow, hsame⟩ := @deleteNone_run junk cidr ctx (ngxStreamGeoInclude junk cidr (sampleFiles ds) 0) hgood
    hranges hbinary hkept 100000
  obtain ⟨ctx', hctx'⟩ : ∃ ctx', ctx' = textEnd
    { ctx with high := .arrays low, entries := ctx.entries + (100000 + 1), outsideEntries := true } := ⟨_, rfl⟩
  -- the run
  have hread : readText junk cidr (sampleFiles ds) 0 { geoStart tree with ranges := true } [102] = some ctx' := by
    rw [readText, sampleFiles, Option.bind_some, ← sampleFiles, List.foldlM_append]
    rw [sampleStart] at hds
    rw [hds, Option.bind_eq_bind, Option.bind_some, hrun, Option.map_some, hctx']
  have hblock : sampleBody.foldlM (ngxStreamGeo junk cidr (ngxStreamGeoInclude junk cidr (sampleFiles ds) 1))
      (geoStart tree) = some ctx' := by
    have hstep : ngxStreamGeo junk cidr (ngxStreamGeoInclude junk cidr (sampleFiles ds) 1) (geoStart tree)
        [⟨rangesName, by decide⟩] = some { geoStart tree with ranges := true } := rfl
    rw [sampleBody, List.foldlM_cons, hstep, Option.bind_eq_bind, Option.bind_some, List.foldlM_cons,
      ngxStreamGeo_include rfl, ngxStreamGeoInclude_succ, if_pos rfl]
    show (readText junk cidr (sampleFiles ds) 0 { geoStart tree with ranges := true } [102]).bind _ = _
    rw [hread]
    rfl
  -- the base
  have hfinish : ∀ i, listSize (finish low) i ≤ 24 := by
    intro i
    rw [listSize]
    cases hi : finish low i with
    | none => exact Nat.zero_le _
    | some ranges =>
        obtain ⟨rfl, -⟩ := finish_some hi
        have hone := hshort i
        rw [← hsame] at hone
        dsimp only
        omega
  have hsum : ((List.range 0x10000).map (listSize (finish low))).sum ≤ 0x10000 * 24 := by
    have hcard := List.sum_le_card_nsmul ((List.range 0x10000).map (listSize (finish low))) 24 fun n hn => by
      obtain ⟨i, -, rfl⟩ := List.mem_map.mp hn
      exact hfinish i
    rwa [List.length_map, List.length_range, smul_eq_mul] at hcard
  obtain ⟨T, hinv⟩ := hgood.values.inv
  obtain ⟨bytes, ranges, crc, hcreate, -⟩ := @createBinaryBase_eq ctx.values T memory hinv
    (fun n hn => (hgood.values.short n hn).trans_lt (by decide)) (finish low) hlow.writable
    (ctx.dataSize + ((List.range 0x10000).map (listSize (finish low))).sum) (by omega) (by rw [hgood.values.size])
  have hwrites : Writes memory ctx' low
      ⟨ctx.includeName, bytes, fileSize ctx (finish low), fileSize ctx (finish low)⟩ := by
    subst hctx'
    exact ⟨hranges, rfl, hallow, rfl, congrArg (· + 1) hincludes, rfl, rfl, hcreate⟩
  have hentries' : 100000 < ctx'.entries := by
    subst hctx'
    exact Nat.lt_add_left ctx.entries (by decide)
  exact ⟨low, _, _, by rw [ngxStreamGeoBlock, hblock, Option.map_some, hwrites.finishBlock_eq hentries'], hsame⟩

end Sample

end Block

/-! ### Two configurations -/

section Configurations

/-- Memory of zeros. -/
def zeroTree : RbTree where
  key _ := 0
  child _ _ := 0
  parent _ := 0
  red _ := false
  root := 0
  sentinel := 0

/-- A mode of addresses with masks that only creates its trees. -/
def treesOnly : CidrMode where
  run ctx _ _ := some { ctx with tree := true }
  tree ctx _ _ ctx' h := by
    obtain rfl := Option.some.inj h
    exact ⟨rfl, rfl⟩

/-- The block of a file of deletions behind these directives, with these bases. -/
def sampleBlock (files : Files) : Option GeoBlock :=
  ngxStreamGeoBlock ⟨[], 0, 0⟩ treesOnly (fun _ => (false, 0)) zeroTree files 1 sampleBody

theorem good_sampleStart (tree : RbTree) : Good (sampleStart tree) := ⟨rfl, (good_start tree).values, rangesGood_empty _⟩

theorem sample_default (ds : List Directive) : lastDefault (wholeOf (sampleFiles ds) sampleBody) = lastDefault ds := by
  have hdeletes : ∀ n, lastDefault (List.replicate n deleteNone) = none := by
    intro n
    induction n with
    | zero => rfl
    | succ n ih =>
        rw [List.replicate_succ, lastDefault, ih]
        rfl
  have hranges : includeOf [⟨rangesName, by decide⟩] = none := rfl
  have hfile : includeOf [⟨includeName, by decide⟩, ⟨[102], by decide⟩] = some [102] := rfl
  rw [wholeOf, sampleBody, List.flatMap_cons, List.flatMap_cons, List.flatMap_nil, hranges, hfile, List.append_nil]
  dsimp only
  rw [sampleFiles, Option.map_some, Option.getD_some, lastDefault_append, lastDefault_append, hdeletes, Option.none_or]
  exact Option.or_none

theorem sampleBlock_range : ∃ low defaultValue w,
    sampleBlock (sampleFiles [rangeX]) = some (.ranges (.arrays (finish low)) defaultValue (some w)) ∧
      bucket low = bucket (Function.update (Function.update emptyTable 256 (some [⟨[120], 65280, 65535⟩])) 257
        (some [⟨[120], 0, 9⟩])) := by
  have hparts : ∀ incl, (ngxStreamGeo ⟨[], 0, 0⟩ treesOnly incl (sampleStart zeroTree) rangeX).map
      (fun ctx => (ctx.high, ctx.dataSize)) = some (.arrays (Function.update (Function.update emptyTable 256
        (some [⟨[120], 65280, 65535⟩])) 257 (some [⟨[120], 0, 9⟩])), 524344) := fun _ => rfl
  obtain ⟨ctx, hctx, hpair⟩ := Option.map_eq_some_iff.mp
    (hparts (ngxStreamGeoInclude ⟨[], 0, 0⟩ treesOnly (sampleFiles [rangeX]) 0))
  obtain ⟨hhigh, hdataSize⟩ := Prod.mk.inj hpair
  have hds : [rangeX].foldlM (ngxStreamGeo ⟨[], 0, 0⟩ treesOnly (ngxStreamGeoInclude ⟨[], 0, 0⟩ treesOnly
      (sampleFiles [rangeX]) 0)) (sampleStart zeroTree) = some ctx := by
    rw [List.foldlM_cons, hctx]
    rfl
  have hlow : ctx.low = Function.update (Function.update emptyTable 256 (some [⟨[120], 65280, 65535⟩])) 257
      (some [⟨[120], 0, 9⟩]) := by
    rw [GeoConf.low, hhigh]
  have hbinary : ctx.binaryInclude = false := by
    rw [GeoConf.binaryInclude, hhigh]
  have hshort : ∀ h, (bucket ctx.low h).length ≤ 1 := by
    intro h
    rw [hlow, bucket_update, bucket_update]
    split_ifs <;> exact Nat.le_of_ble_eq_true rfl
  have hrange : ngxStreamGeoRange ⟨[], 0, 0⟩ (sampleStart zeroTree) rangeWord ⟨[120], by decide⟩ = some ctx := hctx
  obtain ⟨heffect, hgood⟩ := ngxStreamGeoRange_effect (good_sampleStart zeroTree) rfl hrange
  rw [← hlow]
  have hsize : ctx.dataSize < 2 ^ 62 := by
    rw [hdataSize]
    decide
  have hzero : bucket ctx.low 0 = [] := by
    rw [hlow]
    rfl
  cases heffect with
  | ranges hranges _ => cases hranges
  | default _ _ _ _ hdefault => cases hdefault
  | entry _ _ _ _ _ _ _ => exact sample_written hgood hds ⟨rfl, rfl, hbinary, rfl⟩ hzero hshort hsize

theorem sampleBlock_default :
    ∃ high defaultValue w, sampleBlock (sampleFiles [defaultX]) = some (.ranges high defaultValue (some w)) := by
  have hsize : ∀ incl, (ngxStreamGeo ⟨[], 0, 0⟩ treesOnly incl (sampleStart zeroTree) defaultX).map GeoConf.dataSize =
      some 524344 := fun _ => rfl
  obtain ⟨ctx, hctx, hdataSize⟩ := Option.map_eq_some_iff.mp
    (hsize (ngxStreamGeoInclude ⟨[], 0, 0⟩ treesOnly (sampleFiles [defaultX]) 0))
  have hds : [defaultX].foldlM (ngxStreamGeo ⟨[], 0, 0⟩ treesOnly (ngxStreamGeoInclude ⟨[], 0, 0⟩ treesOnly
      (sampleFiles [defaultX]) 0)) (sampleStart zeroTree) = some ctx := by
    rw [List.foldlM_cons, hctx]
    rfl
  have hbound : ctx.dataSize < 2 ^ 62 := by
    rw [hdataSize]
    decide
  have hrange : ngxStreamGeoRange ⟨[], 0, 0⟩ (sampleStart zeroTree) ⟨defaultName, by decide⟩ ⟨[120], by decide⟩ = some ctx :=
    hctx
  obtain ⟨heffect, hgood⟩ := ngxStreamGeoRange_effect (good_sampleStart zeroTree) rfl hrange
  cases heffect with
  | ranges hranges _ => cases hranges
  | default values dataSize _ _ _ =>
      obtain ⟨low, defaultValue, w, hblock, -⟩ := @sample_written ⟨[], 0, 0⟩ treesOnly (fun _ => (false, 0)) zeroTree _ _ hgood hds
        ⟨rfl, rfl, rfl, rfl⟩ rfl (fun _ => Nat.zero_le _) hbound
      exact ⟨_, defaultValue, w, hblock⟩
  | entry _ _ _ _ _ _ hdefault => cases hdefault

/-- A file with a range in two buckets, and without `default`. -/
theorem reload_same : ∃ high defaultValue w,
    sampleBlock (sampleFiles [rangeX]) = some (.ranges high defaultValue (some w)) ∧ w.bytes.length = w.dataSize ∧
      ∃ high' defaultValue' base', sampleBlock ((sampleFiles [rangeX]).withBase w.name w.bytes 1) =
          some (.ranges high' defaultValue' base') ∧
        (∀ addr, geoVariable high' defaultValue' addr = geoVariable high defaultValue addr) ∧
        (geoVariable high' defaultValue' (.inet 0x0100ff05)).data = [120] := by
  obtain ⟨low, defaultValue, w, hblock, hbuckets⟩ := sampleBlock_range
  obtain ⟨-, hlength, high', defaultValue', base', hagain, -, hsame⟩ := reload hblock fun ds time h =>
    (Prod.mk.inj (Option.some.inj h)).2.symm.le
  have hall := hsame.mpr fun _ => by
    rw [sample_default]
    rfl
  refine ⟨_, defaultValue, w, hblock, hlength, high', defaultValue', base', hagain, hall, ?_⟩
  rw [hall, geoVariable_arrays, hbuckets]
  rfl

/-- The `default` of a file is not in its base. -/
theorem reload_default_lost : ∃ high defaultValue w,
    sampleBlock (sampleFiles [defaultX]) = some (.ranges high defaultValue (some w)) ∧
      ∃ ranges defaultValue', sampleBlock ((sampleFiles [defaultX]).withBase w.name w.bytes 1) =
          some (.ranges (.base w.bytes ranges) defaultValue' none) ∧
        (geoVariable high defaultValue (.inet 0xffffffff)).data = [120] ∧
          (geoVariable (.base w.bytes ranges) defaultValue' (.inet 0xffffffff)).data = [] := by
  obtain ⟨high, defaultValue, w, hblock⟩ := sampleBlock_default
  have hfresh : ∀ ds time, (sampleFiles [defaultX]).text w.name = some (ds, time) → time ≤ 1 := fun ds time h =>
    (Prod.mk.inj (Option.some.inj h)).2.symm.le
  obtain ⟨ranges, hagain, hmeans⟩ := again_base hblock hfresh (by decide)
  obtain ⟨hdefault, hlast⟩ := written_default hblock
  refine ⟨high, defaultValue, w, hblock, ranges, _, hagain, ?_, ?_⟩
  · rw [hlast, hdefault, sample_default]
    rfl
  · rw [hmeans, hlast]
    rfl

end Configurations

end NginxDtls.Geo
