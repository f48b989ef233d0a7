import NginxDtls.GeoContext

/-! What the directives of a `geo` block do one after another, with the files they include. -/

namespace NginxDtls.Geo

open Zipper RbTree
open Conf (ngxConfBuffer)

/-! ### Directives without `include` -/

/-- The last `default`. -/
def lastDefault : List Directive → Option (List UInt8)
  | [] => none
  | d :: ds => (lastDefault ds).or (defaultOf d)

theorem lastDefault_append (as bs : List Directive) :
    lastDefault (as ++ bs) = (lastDefault bs).or (lastDefault as) := by
  induction as with
  | nil => exact (Option.or_none).symm
  | cons d as ih => rw [List.cons_append, lastDefault, ih, lastDefault, Option.or_assoc]

/-- No `include` among the directives. -/
def Plain (ds : List Directive) : Prop := ∀ d ∈ ds, includeOf d = none

/-- What directives without `include` do in a context that is not dead at their end. -/
structure PlainRun (ctx : GeoConf) (ds : List Directive) (ctx' : GeoConf) : Prop where
  good : Good ctx'
  includes : ctx'.includes = ctx.includes
  allow : ctx'.allowBinaryInclude = ctx.allowBinaryInclude
  name : ctx'.includeName = ctx.includeName
  ranges : ctx'.ranges = (ctx.ranges || ds.any isRanges)
  defaultValue : ctx'.defaultValue = (lastDefault ds).or ctx.defaultValue
  outside : ctx.outsideEntries = true → ctx'.outsideEntries = true
  binary : ctx.binaryInclude = true → ctx'.high = ctx.high
  harmless : ctx'.outsideEntries = false → ctx.outsideEntries = false ∧ ctx'.high = ctx.high ∧
    ∀ d ∈ ds, isRanges d = true ∨ defaultOf d ≠ none

section Runs

variable {junk : Range (List UInt8)} {cidr : CidrMode} {incl incl' : GeoConf → List UInt8 → Option GeoConf}
  {ctx ctx' : GeoConf} {ds : List Directive}

/-- No directive leaves the other mode. -/
theorem run_dead (hincl : ∀ ctx name ctx', Dead ctx → incl ctx name = some ctx' → Dead ctx') (hdead : Dead ctx)
    (h : ds.foldlM (ngxStreamGeo junk cidr incl) ctx = some ctx') : Dead ctx' := by
  induction ds generalizing ctx with
  | nil => exact Option.some.inj h ▸ hdead
  | cons d ds ih =>
      rw [List.foldlM_cons] at h
      obtain ⟨ctx₁, hd, h⟩ := Option.bind_eq_some_iff.mp h
      exact ih (ngxStreamGeo_dead hincl hdead hd) h

theorem Effect.binary {d : Directive} (h : Effect ctx d ctx') (hbinary : ctx.binaryInclude = true) :
    ctx'.high = ctx.high := by
  cases h with
  | ranges _ _ => rfl
  | default _ _ _ _ _ => rfl
  | entry _ _ _ _ _ hnot _ => exact absurd (hbinary.symm.trans hnot) (by decide)

theorem run_plain (hincl : ∀ ctx name ctx', Dead ctx → incl ctx name = some ctx' → Dead ctx') (hgood : Good ctx)
    (hplain : Plain ds) (h : ds.foldlM (ngxStreamGeo junk cidr incl) ctx = some ctx') (halive : ¬Dead ctx') :
    PlainRun ctx ds ctx' := by
  induction ds generalizing ctx with
  | nil =>
      obtain rfl := Option.some.inj h
      exact ⟨hgood, rfl, rfl, rfl, (Bool.or_false _).symm, rfl, id, fun _ => rfl,
        fun hout => ⟨hout, rfl, fun _ hd => absurd hd List.not_mem_nil⟩⟩
  | cons d ds ih =>
      rw [List.foldlM_cons] at h
      obtain ⟨ctx₁, hd, h⟩ := Option.bind_eq_some_iff.mp h
      rcases ngxStreamGeo_effect hgood (hplain d List.mem_cons_self) hd with hdead | ⟨heffect, hgood₁⟩
      · exact absurd (run_dead hincl hdead h) halive
      · have hrest := ih hgood₁ (fun d' hd' => hplain d' (List.mem_cons_of_mem _ hd')) h
        have hbinary : ctx.binaryInclude = true → ctx'.high = ctx.high := by
          intro hb
          have hhigh := heffect.binary hb
          refine (hrest.binary ?_).trans hhigh
          rw [GeoConf.binaryInclude, hhigh]
          exact hb
        cases heffect with
        | ranges hranges hdefault =>
            refine ⟨hrest.good, hrest.includes, hrest.allow, hrest.name, ?_, ?_, hrest.outside, hbinary, fun hout => ?_⟩
            · rw [hrest.ranges, List.any_cons, hranges, Bool.true_or, Bool.or_true]
            · rw [hrest.defaultValue, lastDefault, hdefault, Option.or_none]
            · obtain ⟨hout₁, hhigh, hds⟩ := hrest.harmless hout
              exact ⟨hout₁, hhigh, List.forall_mem_cons.mpr ⟨.inl hranges, hds⟩⟩
        | default values dataSize hnot hranges htext =>
            refine ⟨hrest.good, hrest.includes, hrest.allow, hrest.name, ?_, ?_, hrest.outside, hbinary, fun hout => ?_⟩
            · rw [hrest.ranges, List.any_cons, hnot, Bool.false_or]
            · rw [hrest.defaultValue, lastDefault, htext, Option.or_assoc, Option.some_or]
            · obtain ⟨hout₁, hhigh, hds⟩ := hrest.harmless hout
              exact ⟨hout₁, hhigh, List.forall_mem_cons.mpr ⟨.inr (by rw [htext]; exact Option.some_ne_none _), hds⟩⟩
        | entry values dataSize low hnot hranges _ hdefault =>
            refine ⟨hrest.good, hrest.includes, hrest.allow, hrest.name, ?_, ?_, fun _ => hrest.outside rfl, hbinary,
              fun hout => ?_⟩
            · rw [hrest.ranges, List.any_cons, hnot, Bool.false_or]
            · rw [hrest.defaultValue, lastDefault, hdefault, Option.or_none]
            · exact absurd (hout.symm.trans (hrest.outside rfl)) (by decide)

/-- Without an `include` the files do not matter. -/
theorem run_plain_congr (hplain : Plain ds) :
    ds.foldlM (ngxStreamGeo junk cidr incl) ctx = ds.foldlM (ngxStreamGeo junk cidr incl') ctx := by
  induction ds generalizing ctx with
  | nil => rfl
  | cons d ds ih =>
      have hd : ngxStreamGeo junk cidr incl ctx d = ngxStreamGeo junk cidr incl' ctx d := by
        have hname := hplain d List.mem_cons_self
        match d with
        | [] => rfl
        | [word] => rfl
        | [name, value] =>
            have hnot : ¬name.Is includeName := by
              intro his
              rw [includeOf, if_pos his] at hname
              cases hname
            rw [ngxStreamGeo_pair, ngxStreamGeo_pair, if_neg hnot, if_neg hnot]
        | _ :: _ :: _ :: _ => rfl
      rw [List.foldlM_cons, List.foldlM_cons, hd]
      exact bind_congr fun ctx₁ => ih fun d' hd' => hplain d' (List.mem_cons_of_mem _ hd')

/-- Directives that are neither entries nor `include` are accepted in ranges mode. -/
theorem run_harmless (hgood : Good ctx) (hranges : ctx.ranges = true)
    (hds : ∀ d ∈ ds, includeOf d = none ∧ (isRanges d = true ∨ defaultOf d ≠ none)) :
    ∃ ctx', ds.foldlM (ngxStreamGeo junk cidr incl) ctx = some ctx' ∧ ctx'.high = ctx.high ∧ ctx'.ranges = true := by
  induction ds generalizing ctx with
  | nil => exact ⟨ctx, rfl, rfl, hranges⟩
  | cons d ds ih =>
      have hrest := fun d' hd' => hds d' (List.mem_cons_of_mem d hd')
      obtain ⟨hplain, hkind⟩ := hds d List.mem_cons_self
      have hstep : ∃ ctx₁, ngxStreamGeo junk cidr incl ctx d = some ctx₁ ∧ ctx₁.high = ctx.high ∧ ctx₁.ranges = true ∧
          Good ctx₁ := by
        match d with
        | [] => exact absurd hkind (by decide)
        | [word] =>
            have hword : word.Is rangesName := by
              rcases hkind with hkind | hkind
              · exact of_decide_eq_true hkind
              · exact absurd rfl hkind
            refine ⟨{ ctx with ranges := true }, ?_, rfl, rfl, hgood.tree, hgood.values, hgood.ranges⟩
            rw [ngxStreamGeo_word, if_pos hword, if_neg (by rw [hgood.tree]; exact Bool.false_ne_true)]
        | [name, value] =>
            have hname : ¬name.Is includeName := by
              intro hname
              rw [includeOf, if_pos hname] at hplain
              cases hplain
            have hdefault : name.Is defaultName := by
              by_contra hnot
              rcases hkind with hkind | hkind
              · exact absurd hkind Bool.false_ne_true
              · exact hkind (if_neg hnot)
            obtain ⟨values, dataSize, hvalue, hvalues, -, hmono⟩ := ngxStreamGeoValue_eq hgood.values value.short
            refine ⟨{ ctx with values, dataSize, defaultValue := some value.text }, ?_, rfl, hranges, hgood.tree, hvalues,
              hgood.ranges.mono hmono⟩
            rw [ngxStreamGeo_pair, if_neg hname, if_pos hranges, ngxStreamGeoRange, if_pos hdefault, hvalue, Option.map_some]
        | _ :: _ :: _ :: _ =>
            rcases hkind with hkind | hkind
            · exact absurd hkind Bool.false_ne_true
            · exact absurd rfl hkind
      obtain ⟨ctx₁, hd, hhigh, hranges₁, hgood₁⟩ := hstep
      obtain ⟨ctx', hrun, hhigh', hranges'⟩ := ih hgood₁ hranges₁ hrest
      refine ⟨ctx', ?_, hhigh'.trans hhigh, hranges'⟩
      rw [List.foldlM_cons, hd]
      exact hrun

/-! ### Directives with `include` -/

/-- What any directives leave in a context that is not dead at their end. -/
structure Later (ctx ctx' : GeoConf) : Prop where
  good : Good ctx'
  includes : ctx.includes ≤ ctx'.includes
  allow : ctx'.allowBinaryInclude = true → ctx.allowBinaryInclude = true
  binary : ctx.binaryInclude = true → ctx'.binaryInclude = true

theorem Later.refl (hgood : Good ctx) : Later ctx ctx := ⟨hgood, Nat.le_refl _, id, id⟩

theorem Later.trans {ctx₁ ctx₂ ctx₃ : GeoConf} (h : Later ctx₁ ctx₂) (h' : Later ctx₂ ctx₃) : Later ctx₁ ctx₃ :=
  ⟨h'.good, h.includes.trans h'.includes, h.allow ∘ h'.allow, h'.binary ∘ h.binary⟩

theorem Effect.later {d : Directive} (h : Effect ctx d ctx') (hgood : Good ctx') : Later ctx ctx' := by
  have hbinary : ctx.binaryInclude = true → ctx'.binaryInclude = true := by
    intro hb
    rw [GeoConf.binaryInclude, h.binary hb]
    exact hb
  cases h with
  | ranges _ _ => exact ⟨hgood, Nat.le_refl _, id, hbinary⟩
  | default _ _ _ _ _ => exact ⟨hgood, Nat.le_refl _, id, hbinary⟩
  | entry _ _ _ _ _ _ _ => exact ⟨hgood, Nat.le_refl _, id, hbinary⟩

/-- What an `include` leaves: the other mode, or one file more, or a base. -/
def IncludeLater (incl : GeoConf → List UInt8 → Option GeoConf) : Prop :=
  ∀ ctx name ctx', Good ctx → incl ctx name = some ctx' →
    Dead ctx' ∨ Later ctx ctx' ∧ (ctx.includes < ctx'.includes ∨ ctx'.binaryInclude = true)

theorem includeOf_eq {d : Directive} {file : List UInt8} (h : includeOf d = some file) :
    ∃ name value, d = [name, value] ∧ name.Is includeName ∧ value.text = file := by
  match d with
  | [] => cases h
  | [_] => cases h
  | [name, value] =>
      rw [includeOf] at h
      split at h
      · rename_i hname
        exact ⟨name, value, rfl, hname, Option.some.inj h⟩
      · cases h
  | _ :: _ :: _ :: _ => cases h

/-- An `include` is what the files do. -/
theorem ngxStreamGeo_include {d : Directive} {file : List UInt8} (h : includeOf d = some file) :
    ngxStreamGeo junk cidr incl ctx d = incl ctx file := by
  obtain ⟨name, value, rfl, hname, rfl⟩ := includeOf_eq h
  rw [ngxStreamGeo_pair, if_pos hname]

theorem step_later (hincl : IncludeLater incl) (hgood : Good ctx) {d : Directive}
    (h : ngxStreamGeo junk cidr incl ctx d = some ctx') : Dead ctx' ∨ Later ctx ctx' := by
  cases hfile : includeOf d with
  | none =>
      rcases ngxStreamGeo_effect hgood hfile h with hdead | ⟨heffect, hgood'⟩
      · exact .inl hdead
      · exact .inr (heffect.later hgood')
  | some file =>
      rw [ngxStreamGeo_include hfile] at h
      exact (hincl ctx file ctx' hgood h).imp_right And.left

theorem run_later (hdead : ∀ ctx name ctx', Dead ctx → incl ctx name = some ctx' → Dead ctx')
    (hincl : IncludeLater incl) (hgood : Good ctx) (h : ds.foldlM (ngxStreamGeo junk cidr incl) ctx = some ctx') :
    Dead ctx' ∨ Later ctx ctx' := by
  induction ds generalizing ctx with
  | nil =>
      obtain rfl := Option.some.inj h
      exact .inr (.refl hgood)
  | cons d ds ih =>
      rw [List.foldlM_cons] at h
      obtain ⟨ctx₁, hd, h⟩ := Option.bind_eq_some_iff.mp h
      rcases step_later hincl hgood hd with hdead₁ | hlater
      · exact .inl (run_dead hdead hdead₁ h)
      · exact (ih hlater.good h).imp_right hlater.trans

/-- Without one file more, and without a base, there was no `include`. -/
theorem plain_of_run (hdead : ∀ ctx name ctx', Dead ctx → incl ctx name = some ctx' → Dead ctx')
    (hincl : IncludeLater incl) (hgood : Good ctx) (h : ds.foldlM (ngxStreamGeo junk cidr incl) ctx = some ctx')
    (halive : ¬Dead ctx') (hincludes : ctx'.includes ≤ ctx.includes) (hbinary : ctx'.binaryInclude = false) :
    Plain ds := by
  intro d hd
  by_contra hne
  obtain ⟨file, hfile⟩ := Option.ne_none_iff_exists'.mp hne
  obtain ⟨as, bs, rfl⟩ := List.append_of_mem hd
  rw [List.foldlM_append] at h
  obtain ⟨ctx₁, has, h⟩ := Option.bind_eq_some_iff.mp h
  rw [List.foldlM_cons] at h
  obtain ⟨ctx₂, hfiles, hbs⟩ := Option.bind_eq_some_iff.mp h
  rw [ngxStreamGeo_include hfile] at hfiles
  have hbefore : Later ctx ctx₁ := (run_later hdead hincl hgood has).resolve_left fun hdead₁ =>
    halive (run_dead hdead (hdead ctx₁ file ctx₂ hdead₁ hfiles) hbs)
  obtain ⟨hat, hmore⟩ := (hincl ctx₁ file ctx₂ hbefore.good hfiles).resolve_left fun hdead₂ =>
    halive (run_dead hdead hdead₂ hbs)
  have hafter : Later ctx₂ ctx' := (run_later hdead hincl hat.good hbs).resolve_left halive
  rcases hmore with hlt | hbase
  · have := hbefore.includes
    have := hafter.includes
    omega
  · exact absurd ((hafter.binary hbase).symm.trans hbinary) (by decide)

end Runs

/-! ### Files -/

section Files

variable {junk : Range (List UInt8)} {cidr : CidrMode} {files : Files} {ctx ctx' : GeoConf} {name : List UInt8}

/-- The context that a text file starts with. -/
def textStart (ctx : GeoConf) (name : List UInt8) : GeoConf :=
  { ctx with
    includeName := name
    allowBinaryInclude := ctx.allowBinaryInclude && !ctx.outsideEntries }

/-- The context behind a text file. -/
def textEnd (ctx : GeoConf) : GeoConf := { ctx with includes := ctx.includes + 1, outsideEntries := false }

/-- What a file that is read as text does. -/
def readText (junk : Range (List UInt8)) (cidr : CidrMode) (files : Files) (depth : ℕ) (ctx : GeoConf)
    (name : List UInt8) : Option GeoConf :=
  (files.text name).bind fun file =>
    (file.1.foldlM (ngxStreamGeo junk cidr (ngxStreamGeoInclude junk cidr files depth)) (textStart ctx name)).map textEnd

theorem ngxStreamGeoInclude_succ (depth : ℕ) : ngxStreamGeoInclude junk cidr files (depth + 1) ctx name =
    match if ctx.ranges then ngxStreamGeoIncludeBinaryBase files ctx name else .declined with
    | .ok ctx => some ctx
    | .error => none
    | .declined => readText junk cidr files depth ctx name := rfl

/-- A base that is taken. -/
theorem includeBinaryBase_ok (h : ngxStreamGeoIncludeBinaryBase files ctx name = .ok ctx') :
    ∃ bytes ranges, ctx' = { ctx with high := .base bytes ranges, includeName := name } := by
  unfold ngxStreamGeoIncludeBinaryBase at h
  repeat' split at h
  all_goals first
    | exact ⟨_, _, (Included.ok.inj h).symm⟩
    | cases h

/-- A file is read as text, or a base is taken. -/
theorem include_cases {depth : ℕ} (h : ngxStreamGeoInclude junk cidr files (depth + 1) ctx name = some ctx') :
    readText junk cidr files depth ctx name = some ctx' ∨
      ctx.ranges = true ∧ ∃ bytes ranges, ctx' = { ctx with high := .base bytes ranges, includeName := name } := by
  rw [ngxStreamGeoInclude_succ] at h
  by_cases hranges : ctx.ranges = true
  · rw [if_pos hranges] at h
    cases hbase : ngxStreamGeoIncludeBinaryBase files ctx name with
    | ok ctx₁ =>
        rw [hbase] at h
        obtain rfl := Option.some.inj h
        exact .inr ⟨hranges, includeBinaryBase_ok hbase⟩
    | declined =>
        rw [hbase] at h
        exact .inl h
    | error =>
        rw [hbase] at h
        cases h
  · rw [if_neg hranges] at h
    exact .inl h

theorem include_dead (depth : ℕ) : ∀ ctx name ctx', Dead ctx →
    ngxStreamGeoInclude junk cidr files depth ctx name = some ctx' → Dead ctx' := by
  induction depth with
  | zero =>
      intro ctx name ctx' _ h
      cases h
  | succ depth ih =>
      intro ctx name ctx' hdead h
      rcases include_cases h with h | ⟨hranges, -⟩
      · obtain ⟨file, -, h⟩ := Option.bind_eq_some_iff.mp h
        obtain ⟨ctx₁, hrun, rfl⟩ := Option.map_eq_some_iff.mp h
        have hstart : Dead (textStart ctx name) := hdead
        have hend : Dead ctx₁ := run_dead ih hstart hrun
        exact hend
      · exact absurd (hdead.2.symm.trans hranges) (by decide)

theorem include_later (depth : ℕ) : IncludeLater (ngxStreamGeoInclude junk cidr files depth) := by
  induction depth with
  | zero =>
      intro ctx name ctx' _ h
      cases h
  | succ depth ih =>
      intro ctx name ctx' hgood h
      rcases include_cases h with h | ⟨-, bytes, ranges, rfl⟩
      · obtain ⟨file, -, h⟩ := Option.bind_eq_some_iff.mp h
        obtain ⟨ctx₁, hrun, rfl⟩ := Option.map_eq_some_iff.mp h
        have hstart : Good (textStart ctx name) := ⟨hgood.tree, hgood.values, hgood.ranges⟩
        rcases run_later (include_dead depth) ih hstart hrun with hdead | hlater
        · exact .inl hdead
        · refine .inr ⟨⟨⟨hlater.good.tree, hlater.good.values, hlater.good.ranges⟩, ?_, fun hallow => ?_, hlater.binary⟩,
            .inl ?_⟩
          · exact Nat.le_succ_of_le hlater.includes
          · exact (Bool.and_eq_true_iff.mp (hlater.allow hallow)).1
          · exact Nat.lt_succ_of_le hlater.includes
      · exact .inr ⟨⟨⟨hgood.tree, hgood.values, rangesGood_empty _⟩, Nat.le_refl _, id, fun _ => rfl⟩, .inr rfl⟩

end Files

end NginxDtls.Geo
