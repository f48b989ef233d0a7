import NginxDtls.GeoBase

/-! What holds of the context while a `geo` block is read: the tree has the texts of all values, `data_size` counts them, the
ranges are sorted and have values of the tree, and no range has the last address. -/

namespace NginxDtls.Geo

open Zipper RbTree
open Conf (ngxConfBuffer)

/-! ### Buckets -/

section Buckets

variable {V : Type} {l : List (Range V)} {n : ℕ}

theorem lookupBucket_eq_none : lookupBucket n l = none ↔ ∀ r ∈ l, ¬(r.start ≤ n ∧ n ≤ r.stop) := by
  induction l with
  | nil => exact iff_of_true rfl fun _ hr => absurd hr List.not_mem_nil
  | cons r l ih =>
      rw [lookupBucket, List.forall_mem_cons]
      by_cases hr : r.start ≤ n ∧ n ≤ r.stop
      · rw [if_pos hr]
        exact iff_of_false (Option.some_ne_none _) fun h => h.1 hr
      · rw [if_neg hr, ih]
        exact (and_iff_right hr).symm

theorem lookupBucket_mem {v : V} (h : lookupBucket n l = some v) : ∃ r ∈ l, r.value = v := by
  induction l with
  | nil => cases h
  | cons r l ih =>
      rw [lookupBucket] at h
      split at h
      · exact ⟨r, List.mem_cons_self, Option.some.inj h⟩
      · obtain ⟨r', hr', hv⟩ := ih h
        exact ⟨r', List.mem_cons_of_mem _ hr', hv⟩

/-- The first address of a range has its value. -/
theorem Sorted.lookup_start (hl : Sorted l) {r : Range V} (hr : r ∈ l) : lookupBucket r.start l = some r.value := by
  induction l with
  | nil => exact absurd hr List.not_mem_nil
  | cons r' l ih =>
      have hapart := hl.apart
      rw [List.pairwise_cons] at hapart
      rw [lookupBucket]
      rcases List.mem_cons.mp hr with rfl | hr
      · exact if_pos ⟨Nat.le_refl _, (hl.within r List.mem_cons_self).1⟩
      · have hlt := hapart.1 r hr
        rw [if_neg (by omega)]
        exact ih ⟨hapart.2, fun s hs => hl.within s (List.mem_cons_of_mem _ hs)⟩ hr

/-- The values behind an addition. -/
theorem addRange_values (junk : Range V) {value : V} {low low' : Low V} (hl : ∀ h, Sorted (bucket low h))
    {start stop : UInt32} (hadd : ngxStreamGeoAddRange junk low start stop value = some low') {h : ℕ} {r : Range V}
    (hr : r ∈ bucket low' h) : r.value = value ∨ ∃ r' ∈ bucket low h, r'.value = r.value := by
  obtain ⟨hsorted, hlookup⟩ := (addRange_spec junk value hl start stop).2 low' hadd
  obtain ⟨hstart, hstop⟩ := (hsorted h).within r hr
  have hvalue := hlookup h r.start (by omega)
  rw [(hsorted h).lookup_start hr] at hvalue
  split at hvalue
  · exact .inl (Option.some.inj hvalue)
  · exact .inr (lookupBucket_mem hvalue.symm)

/-- The ranges behind a deletion. -/
theorem deleteRange_mem {low : Low V} (hl : ∀ h, Sorted (bucket low h)) {start stop : UInt32} {result : Low V × Bool}
    (hdelete : ngxStreamGeoDeleteRange low start stop = some result) {h : ℕ} :
    Sorted (bucket result.1 h) ∧ ∀ r ∈ bucket result.1 h, r ∈ bucket low h := by
  obtain ⟨result', hresult, hbuckets⟩ := deleteRange_spec hl start stop
  obtain rfl := Option.some.inj (hdelete.symm.trans hresult)
  by_cases hin : InBucket start stop h
  · rw [(hbuckets h).1 hin]
    exact ⟨(hl h).filter _, fun r hr => List.mem_of_mem_filter hr⟩
  · rw [(hbuckets h).2 hin]
    exact ⟨hl h, fun r hr => hr⟩

end Buckets

/-! ### The context -/

/-- What holds of the tree of values and of the size. -/
structure ValuesGood (values : StrTree) (dataSize : ℕ) : Prop where
  inv : ∃ T, values.Inv T
  sentinel : values.rbtree.sentinel = 1
  nodes : ∀ n ∈ values.nodes, 2 ≤ n ∧ n < values.nodes.length + 2
  short : ∀ n ∈ values.nodes, (values.str n).length ≤ ngxConfBuffer
  size : dataSize = 16 + 16 + 0x10000 * 8 + ((values.nodes.map values.str).map valueSize).sum

/-- What holds of the ranges. -/
structure RangesGood (values : StrTree) (low : Low (List UInt8)) : Prop where
  sorted : ∀ h, Sorted (bucket low h)
  known : ∀ h, ∀ r ∈ bucket low h, Known values r.value
  last : lookupBucket 65535 (bucket low 65535) = none

structure Good (ctx : GeoConf) : Prop where
  tree : ctx.tree = false
  values : ValuesGood ctx.values ctx.dataSize
  ranges : RangesGood ctx.values ctx.low

theorem rangesGood_empty (values : StrTree) : RangesGood values emptyTable :=
  ⟨fun _ => ⟨List.Pairwise.nil, fun _ hr => absurd hr List.not_mem_nil⟩, fun _ _ hr => absurd hr List.not_mem_nil, rfl⟩

theorem good_start (memory : RbTree) : Good (geoStart memory) where
  tree := rfl
  values := ⟨⟨_, StrTree.inv_init memory 1⟩, rfl, fun _ hn => absurd hn List.not_mem_nil,
    fun _ hn => absurd hn List.not_mem_nil, (Nat.add_zero _).symm⟩
  ranges := rangesGood_empty _

theorem RangesGood.mono {values values' : StrTree} {low : Low (List UInt8)} (h : RangesGood values low)
    (hmono : ∀ text, Known values text → Known values' text) : RangesGood values' low :=
  ⟨h.sorted, fun i r hr => hmono _ (h.known i r hr), h.last⟩

theorem RangesGood.delete {values : StrTree} {low : Low (List UInt8)} (h : RangesGood values low) {start stop : UInt32}
    {result : Low (List UInt8) × Bool} (hdelete : ngxStreamGeoDeleteRange low start stop = some result) :
    RangesGood values result.1 where
  sorted _ := (deleteRange_mem h.sorted hdelete).1
  known i r hr := h.known i r ((deleteRange_mem h.sorted hdelete).2 r hr)
  last := lookupBucket_eq_none.mpr fun r hr =>
    lookupBucket_eq_none.mp h.last r ((deleteRange_mem h.sorted hdelete).2 r hr)

theorem RangesGood.add {values : StrTree} {low low' : Low (List UInt8)} (h : RangesGood values low)
    (junk : Range (List UInt8)) {value : List UInt8} (hvalue : Known values value) {start stop : UInt32}
    (hstop : stop ≠ inaddrNone) (hadd : ngxStreamGeoAddRange junk low start stop value = some low') :
    RangesGood values low' where
  sorted := ((addRange_spec junk value h.sorted start stop).2 low' hadd).1
  known i r hr := by
    rcases addRange_values junk h.sorted hadd hr with heq | ⟨r', hr', heq⟩
    · rwa [heq]
    · rw [← heq]
      exact h.known i r' hr'
  last := by
    have hlookup := ((addRange_spec junk value h.sorted start stop).2 low' hadd).2 65535 65535 (by decide)
    have hlt : stop.toNat < 65535 * 65536 + 65535 := by
      have hne : stop.toNat ≠ inaddrNone.toNat := fun heq => hstop (UInt32.toNat_inj.mp heq)
      have hnone : inaddrNone.toNat = 4294967295 := rfl
      have hbound := UInt32.toNat_lt stop
      omega
    rw [hlookup, if_neg (by omega)]
    exact h.last

/-- A value that is asked for is in the tree. -/
theorem ngxStreamGeoValue_eq {ctx : GeoConf} (h : ValuesGood ctx.values ctx.dataSize) {value : List UInt8}
    (hshort : value.length ≤ ngxConfBuffer) : ∃ values dataSize, ngxStreamGeoValue ctx value =
        some ({ ctx with values, dataSize }, value) ∧ ValuesGood values dataSize ∧ Known values value ∧
      ∀ text, Known ctx.values text → Known values text := by
  obtain ⟨T, hinv⟩ := h.inv
  by_cases hknown : Known ctx.values value
  · obtain ⟨n, hn, rfl⟩ := hknown
    refine ⟨ctx.values, ctx.dataSize, ?_, h, ⟨n, hn, rfl⟩, fun _ htext => htext⟩
    rw [ngxStreamGeoValue, hinv.lookup_found hn, Option.bind_some]
  · have hno : ∀ n ∈ ctx.values.nodes, ctx.values.str n ≠ value := fun n hn heq => hknown ⟨n, hn, heq⟩
    have hfresh : ctx.values.nodes.length + 2 ∉ ctx.values.nodes := fun hmem => absurd (h.nodes _ hmem).2 (lt_irrefl _)
    obtain ⟨values, T', hinsert, hinv', hnodes, hnew, hstr, hsentinel⟩ := hinv.insert hfresh
      (by rw [h.sentinel]; omega) hno
    refine ⟨values, ctx.dataSize + ngxAlign (16 + value.length) 8, ?_, ?_, ⟨_, ?_, hnew⟩, ?_⟩
    · rw [ngxStreamGeoValue, hinv.lookup_none hno, Option.bind_some]
      dsimp only
      rw [hinsert, Option.map_some]
    · refine ⟨⟨T', hinv'⟩, hsentinel.trans h.sentinel, ?_, ?_, ?_⟩
      · intro n hn
        rw [hnodes, List.length_cons]
        rw [hnodes] at hn
        rcases List.mem_cons.mp hn with rfl | hn
        · omega
        · have := h.nodes n hn
          omega
      · intro n hn
        rw [hnodes] at hn
        rcases List.mem_cons.mp hn with rfl | hn
        · rwa [hnew]
        · rw [hstr n hn]
          exact h.short n hn
      · have hmap : ctx.values.nodes.map values.str = ctx.values.nodes.map ctx.values.str := List.map_congr_left hstr
        rw [hnodes, List.map_cons, hmap, hnew, List.map_cons, List.sum_cons, h.size, valueSize]
        omega
    · rw [hnodes]
      exact List.mem_cons_self
    · rintro text ⟨n, hn, rfl⟩
      exact ⟨n, hnodes ▸ List.mem_cons_of_mem _ hn, hstr n hn⟩

/-! ### Directives -/

/-- The file of an `include`. -/
def includeOf : Directive → Option (List UInt8)
  | [name, value] => if name.Is includeName then some value.text else none
  | _ => none

/-- The text of a `default`. -/
def defaultOf : Directive → Option (List UInt8)
  | [name, value] => if name.Is defaultName then some value.text else none
  | _ => none

/-- The directive `ranges`. -/
def isRanges : Directive → Bool
  | [word] => decide (word.Is rangesName)
  | _ => false

/-- The other mode, which a block does not leave. -/
def Dead (ctx : GeoConf) : Prop := ctx.tree = true ∧ ctx.ranges = false

/-- What a directive other than `include` does. -/
inductive Effect : GeoConf → Directive → GeoConf → Prop where
  | ranges {ctx : GeoConf} {d : Directive} : isRanges d = true → defaultOf d = none →
      Effect ctx d { ctx with ranges := true }
  | default {ctx : GeoConf} {d : Directive} {text : List UInt8} (values : StrTree) (dataSize : ℕ) :
      isRanges d = false → ctx.ranges = true → defaultOf d = some text →
      Effect ctx d { ctx with values, dataSize, defaultValue := some text }
  | entry {ctx : GeoConf} {d : Directive} (values : StrTree) (dataSize : ℕ) (low : Low (List UInt8)) :
      isRanges d = false → ctx.ranges = true → ctx.binaryInclude = false → defaultOf d = none →
      Effect ctx d { ctx with
        values, dataSize, high := .arrays low, entries := ctx.entries + 1, outsideEntries := true }

section Directive

variable {junk : Range (List UInt8)} {cidr : CidrMode} {incl : GeoConf → List UInt8 → Option GeoConf} {ctx ctx' : GeoConf}

theorem ngxStreamGeo_word (word : Word) : ngxStreamGeo junk cidr incl ctx [word] =
    if word.Is rangesName then (if ctx.tree then none else some { ctx with ranges := true }) else none := rfl

theorem ngxStreamGeo_pair (name value : Word) : ngxStreamGeo junk cidr incl ctx [name, value] =
    if name.Is includeName then incl ctx value.text
    else if ctx.ranges then ngxStreamGeoRange junk ctx name value
    else cidr.run ctx name value := rfl

theorem rangeOf_last {net : List UInt8} {range : UInt32 × UInt32} (h : rangeOf net = some range) :
    range.2 ≠ inaddrNone := by
  unfold rangeOf at h
  split at h
  · cases h
  · split at h
    · cases h
    · rename_i hvalid
      rw [not_or, not_or] at hvalid
      obtain rfl := Option.some.inj h
      exact hvalid.2.1

theorem ngxStreamGeoRange_effect (hgood : Good ctx) (hranges : ctx.ranges = true) {name value : Word}
    (h : ngxStreamGeoRange junk ctx name value = some ctx') : Effect ctx [name, value] ctx' ∧ Good ctx' := by
  have hnot : isRanges [name, value] = false := rfl
  obtain ⟨values, dataSize, hvalue, hvalues, hknown, hmono⟩ := ngxStreamGeoValue_eq hgood.values value.short
  unfold ngxStreamGeoRange at h
  by_cases hdefault : name.Is defaultName
  · have htext : defaultOf [name, value] = some value.text := if_pos hdefault
    rw [if_pos hdefault, hvalue, Option.map_some] at h
    obtain rfl := Option.some.inj h
    exact ⟨.default values dataSize hnot hranges htext, hgood.tree, hvalues, hgood.ranges.mono hmono⟩
  · have htext : defaultOf [name, value] = none := if_neg hdefault
    rw [if_neg hdefault] at h
    by_cases hbinary : ctx.binaryInclude = true
    · rw [if_pos hbinary] at h
      cases h
    · have hbinary' := Bool.eq_false_of_not_eq_true hbinary
      rw [if_neg hbinary] at h
      obtain ⟨net, hnet, h⟩ := Option.bind_eq_some_iff.mp h
      by_cases hdelete : name.Is deleteName
      · rw [if_pos hdelete] at h
        obtain ⟨result, hresult, rfl⟩ := Option.map_eq_some_iff.mp h
        exact ⟨.entry ctx.values ctx.dataSize result.1 hnot hranges hbinary' htext, hgood.tree, hgood.values,
          hgood.ranges.delete hresult⟩
      · rw [if_neg hdelete, hvalue, Option.bind_some] at h
        obtain ⟨low, hlow, rfl⟩ := Option.map_eq_some_iff.mp h
        exact ⟨.entry values dataSize low hnot hranges hbinary' htext, hgood.tree, hvalues,
          (hgood.ranges.mono hmono).add junk hknown (rangeOf_last hnet) hlow⟩

/-- A directive other than `include` in a context that is not dead. -/
theorem ngxStreamGeo_effect (hgood : Good ctx) {d : Directive} (hplain : includeOf d = none)
    (h : ngxStreamGeo junk cidr incl ctx d = some ctx') : Dead ctx' ∨ Effect ctx d ctx' ∧ Good ctx' := by
  match d with
  | [] => cases h
  | [word] =>
      rw [ngxStreamGeo_word] at h
      by_cases hword : word.Is rangesName
      · have htree : ¬ctx.tree = true := by
          rw [hgood.tree]
          exact Bool.false_ne_true
        rw [if_pos hword, if_neg htree] at h
        obtain rfl := Option.some.inj h
        exact .inr ⟨.ranges (decide_eq_true hword) rfl, hgood.tree, hgood.values, hgood.ranges⟩
      · rw [if_neg hword] at h
        cases h
  | [name, value] =>
      have hname : ¬name.Is includeName := by
        intro hname
        rw [includeOf, if_pos hname] at hplain
        cases hplain
      rw [ngxStreamGeo_pair, if_neg hname] at h
      by_cases hranges : ctx.ranges = true
      · rw [if_pos hranges] at h
        exact .inr (ngxStreamGeoRange_effect hgood hranges h)
      · rw [if_neg hranges] at h
        obtain ⟨htree, hsame⟩ := cidr.tree ctx name value ctx' h
        exact .inl ⟨htree, hsame.trans (Bool.eq_false_of_not_eq_true hranges)⟩
  | _ :: _ :: _ :: _ => cases h

/-- A dead context stays so, when included files leave it so. -/
theorem ngxStreamGeo_dead (hincl : ∀ ctx name ctx', Dead ctx → incl ctx name = some ctx' → Dead ctx') (hdead : Dead ctx)
    {d : Directive} (h : ngxStreamGeo junk cidr incl ctx d = some ctx') : Dead ctx' := by
  match d with
  | [] => cases h
  | [word] =>
      rw [ngxStreamGeo_word] at h
      split at h
      · rw [if_pos hdead.1] at h
        cases h
      · cases h
  | [name, value] =>
      rw [ngxStreamGeo_pair] at h
      split at h
      · exact hincl ctx _ ctx' hdead h
      · rw [if_neg (by rw [hdead.2]; exact Bool.false_ne_true)] at h
        obtain ⟨htree, hsame⟩ := cidr.tree ctx name value ctx' h
        exact ⟨htree, hsame.trans hdead.2⟩
  | _ :: _ :: _ :: _ => cases h

end Directive

end NginxDtls.Geo
