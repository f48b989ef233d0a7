import NginxDtls.Sprintf

/-! `ngx_vslprintf` stays inside of its buffer, and what it writes there is the beginning of what it would write without an
end, except for strings in hexadecimal, whose bytes are two characters or none. -/

namespace NginxDtls.Sprintf

variable {last : Last} {out : List UInt8}

/-! ### Numbers -/

theorem padLoop_eq (last : Last) (zero : UInt8) (missing : ℕ) {out : List UInt8} (hfits : Fits last out) :
    padLoop last zero missing out = limit last (out ++ List.replicate missing zero) := by
  induction missing generalizing out with
  | zero =>
      rw [padLoop, List.replicate_zero, List.append_nil, limit_of_fits hfits]
  | succ missing ih =>
      rw [padLoop]
      split
      · rename_i hbelow
        rw [ih (fits_of_below hbelow zero), List.append_assoc]
        rfl
      · rename_i hfull
        rw [limit_of_full hfits (Bool.eq_false_iff.mpr hfull)]

/-- The last copy is cut at the end of the buffer. -/
theorem copyNum_eq (last : Last) {out : List UInt8} (hfits : Fits last out) (p : List UInt8) :
    copyNum last out p = (limit last (out ++ p), true) := by
  cases last with
  | none => simp [copyNum, ngxCpymem, limit]
  | some k =>
      have hk := hfits k rfl
      have hcut : (out ++ p).take k = out ++ p.take (k - out.length) := by
        rw [List.take_append, List.take_of_length_le hk]
      rw [copyNum, ngxCpymem, limit, hcut]
      split
      · rw [sizeDiff, if_pos hk]
        simp only [Prod.mk.injEq, decide_eq_true_eq, true_and]
        omega
      · rw [List.take_of_length_le (Nat.le_refl _), List.take_of_length_le (by omega)]
        simp

/-- The characters of a number, with what pads it to the width. -/
def numberText (ui64 : ℕ) (zero : UInt8) (hexadecimal width : ℕ) : List UInt8 :=
  let p := if hexadecimal = 0 then decimalLoop ui64 [] else hexLoop hexadecimal ui64 []
  List.replicate (width - p.length) zero ++ p

theorem ngxSprintfNum_eq (last : Last) {out : List UInt8} (hfits : Fits last out) (ui64 : ℕ) (zero : UInt8)
    (hexadecimal width : ℕ) :
    ngxSprintfNum last out ui64 zero hexadecimal width =
      (limit last (out ++ numberText ui64 zero hexadecimal width), true) := by
  rw [ngxSprintfNum, padLoop_eq last zero _ hfits, copyNum_eq last (fits_limit last _), limit_limit_append,
    List.append_assoc, numberText]

theorem fits_of_below_self (hbelow : below last out = true) : Fits last out := by
  intro k hk
  have := fits_of_below hbelow 0 k hk
  rw [List.length_append] at this
  omega

/-! ### Strings -/

theorem copyString_eq (last : Last) (src : List UInt8) {out : List UInt8} (hfits : Fits last out) :
    (copyString last src out).1 = limit last (out ++ src.takeWhile (· ≠ 0)) ∧
      (0 ∈ src → (copyString last src out).2 = true) := by
  induction src generalizing out with
  | nil =>
      refine ⟨?_, fun h => absurd h List.not_mem_nil⟩
      rw [copyString, List.takeWhile_nil, List.append_nil, limit_of_fits hfits]
  | cons c src ih =>
      rw [copyString]
      by_cases hzero : c = 0
      · rw [if_neg (fun h => h.1 hzero), List.takeWhile_cons_of_neg (by simpa using hzero), List.append_nil,
          limit_of_fits hfits]
        exact ⟨rfl, fun _ => rfl⟩
      · rw [List.takeWhile_cons_of_pos (by simpa using hzero)]
        by_cases hbelow : below last out = true
        · obtain ⟨hout, hdefined⟩ := ih (fits_of_below hbelow c)
          rw [if_pos ⟨hzero, hbelow⟩, hout, List.append_assoc]
          refine ⟨rfl, fun hmem => hdefined ?_⟩
          rcases List.mem_cons.mp hmem with h | h
          · exact absurd h.symm hzero
          · exact h
        · rw [if_neg (fun h => hbelow h.2), limit_of_full hfits (Bool.eq_false_iff.mpr hbelow)]
          exact ⟨rfl, fun _ => rfl⟩

theorem copyString_none {src out : List UInt8} (h : (copyString none src out).2 = true) : 0 ∈ src := by
  induction src generalizing out with
  | nil => exact absurd h Bool.false_ne_true
  | cons c src ih =>
      rw [copyString] at h
      by_cases hzero : c = 0
      · exact hzero ▸ List.mem_cons_self
      · rw [if_pos ⟨hzero, rfl⟩] at h
        exact List.mem_cons_of_mem _ (ih h)

theorem copyLen_eq (last : Last) {out src : List UInt8} {len : ℕ} (hfits : Fits last out) :
    (copyLen last out src len).1 = limit last (out ++ src.take len) ∧
      (len ≤ src.length → (copyLen last out src len).2 = true) := by
  cases last with
  | none =>
      refine ⟨rfl, fun hlen => ?_⟩
      exact decide_eq_true hlen
  | some k =>
      have hk := hfits k rfl
      constructor
      · show out ++ src.take (min (sizeDiff k out.length) len) = (out ++ src.take len).take k
        rw [List.take_append, List.take_of_length_le hk, List.take_take, sizeDiff, if_pos hk]
      · intro hlen
        exact decide_eq_true ((Nat.min_le_right _ _).trans hlen)

/-- A character less than two from the end stays where it is. -/
theorem fits_of_belowPair (h : belowPair last out = true) (c d : UInt8) : Fits last (out ++ [c, d]) := by
  rintro k rfl
  have := of_decide_eq_true h
  rw [List.length_append, List.length_cons, List.length_singleton]
  omega

theorem hexString_fits (hexadecimal : ℕ) (src : List UInt8) {out : List UInt8} (hfits : Fits last out) :
    Fits last (hexString hexadecimal last src out).1 := by
  induction src generalizing out with
  | nil => exact hfits
  | cons c src ih =>
      rw [hexString]
      split
      · rename_i h
        exact ih (fits_of_belowPair h.2 _ _)
      · exact hfits

theorem hexString_defined (hexadecimal : ℕ) {src : List UInt8} (h : 0 ∈ src) (out : List UInt8) :
    (hexString hexadecimal last src out).2 = true := by
  induction src generalizing out with
  | nil => exact absurd h List.not_mem_nil
  | cons c src ih =>
      rw [hexString]
      split
      · rename_i hc
        refine ih ?_ _
        rcases List.mem_cons.mp h with h | h
        · exact absurd h.symm hc.1
        · exact h
      · rfl

theorem hexString_none {hexadecimal : ℕ} {src out : List UInt8} (h : (hexString hexadecimal none src out).2 = true) :
    0 ∈ src := by
  induction src generalizing out with
  | nil => exact absurd h Bool.false_ne_true
  | cons c src ih =>
      rw [hexString] at h
      by_cases hzero : c = 0
      · exact hzero ▸ List.mem_cons_self
      · rw [if_pos ⟨hzero, rfl⟩] at h
        exact List.mem_cons_of_mem _ (ih h)

theorem hexBytes_fits (hexadecimal len : ℕ) (src : List UInt8) {out : List UInt8} (hfits : Fits last out) :
    Fits last (hexBytes hexadecimal last len src out).1 := by
  induction src generalizing len out with
  | nil => cases len <;> exact hfits
  | cons c src ih =>
      cases len with
      | zero => exact hfits
      | succ len =>
          rw [hexBytes]
          split
          · rename_i h
            exact ih len (fits_of_belowPair h _ _)
          · exact hfits

theorem hexBytes_defined (hexadecimal : ℕ) {len : ℕ} {src : List UInt8} (h : len ≤ src.length) (out : List UInt8) :
    (hexBytes hexadecimal last len src out).2 = true := by
  induction src generalizing len out with
  | nil =>
      obtain rfl := Nat.le_zero.mp h
      rfl
  | cons c src ih =>
      cases len with
      | zero => rfl
      | succ len =>
          rw [hexBytes]
          split
          · exact ih (Nat.le_of_succ_le_succ h) _
          · rfl

theorem hexBytes_none {hexadecimal len : ℕ} {src out : List UInt8} (h : (hexBytes hexadecimal none len src out).2 = true) :
    len ≤ src.length := by
  induction src generalizing len out with
  | nil =>
      cases len with
      | zero => exact Nat.le_refl _
      | succ len => exact absurd h Bool.false_ne_true
  | cons c src ih =>
      cases len with
      | zero => exact Nat.zero_le _
      | succ len =>
          rw [hexBytes, if_pos (show belowPair none out = true from rfl)] at h
          exact Nat.succ_le_succ (ih h)

/-- A string stays inside of the buffer, and is read there no further than without an end. -/
theorem ngxSprintfStr_fits (src : List UInt8) (len hexadecimal : ℕ) (hfits : Fits last out) :
    Fits last (ngxSprintfStr last out src len hexadecimal).1 := by
  rw [ngxSprintfStr]
  split_ifs
  · rw [(copyString_eq last src hfits).1]
    exact fits_limit _ _
  · rw [(copyLen_eq last hfits).1]
    exact fits_limit _ _
  · exact hexString_fits hexadecimal src hfits
  · exact hexBytes_fits hexadecimal len src hfits

theorem ngxSprintfStr_defined {src : List UInt8} {len hexadecimal : ℕ} {out' : List UInt8}
    (h : (ngxSprintfStr none out' src len hexadecimal).2 = true) (hfits : Fits last out) :
    (ngxSprintfStr last out src len hexadecimal).2 = true := by
  rw [ngxSprintfStr] at h ⊢
  split_ifs at h ⊢
  · exact (copyString_eq last src hfits).2 (copyString_none h)
  · exact (copyLen_eq last hfits).2 (of_decide_eq_true h)
  · exact hexString_defined hexadecimal (hexString_none h) out
  · exact hexBytes_defined hexadecimal (hexBytes_none h) out

/-- The characters of a string that is not in hexadecimal. -/
def stringText (src : List UInt8) (len : ℕ) : List UInt8 :=
  if len = 2 ^ 64 - 1 then src.takeWhile (· ≠ 0) else src.take len

theorem ngxSprintfStr_text (src : List UInt8) (len : ℕ) (hfits : Fits last out) :
    (ngxSprintfStr last out src len 0).1 = limit last (out ++ stringText src len) := by
  rw [ngxSprintfStr, if_pos rfl, stringText]
  split
  · exact (copyString_eq last src hfits).1
  · exact (copyLen_eq last hfits).1

/-! ### One conversion -/

/-- What a conversion writes where there is room, if it is not a string in hexadecimal. -/
def Task.text : Task → List UInt8
  | .str src len _ => stringText src len
  | .num v spec => (if v < 0 then [45] else []) ++ numberText v.natAbs spec.zero spec.hex spec.width
  | .char c => [c]

/-- A string in hexadecimal. -/
def Task.HexString : Task → Prop
  | .str _ _ hexadecimal => hexadecimal ≠ 0
  | _ => False

theorem Task.write_text {task : Task} (htask : ¬task.HexString) (hbelow : below last out = true) :
    (task.write last out).1 = limit last (out ++ task.text) := by
  cases task with
  | str src len hexadecimal =>
      obtain rfl := not_not.mp htask
      exact ngxSprintfStr_text src len (fits_of_below_self hbelow)
  | num v spec =>
      rw [Task.write, Task.text]
      split
      · rw [ngxSprintfNum_eq last (fits_of_below hbelow 45), List.append_assoc]
      · rw [ngxSprintfNum_eq last (fits_of_below_self hbelow), List.nil_append]
  | char c => exact (limit_of_fits (fits_of_below hbelow c)).symm

theorem Task.write_fits (task : Task) (hbelow : below last out = true) : Fits last (task.write last out).1 := by
  by_cases htask : task.HexString
  · cases task with
    | str src len hexadecimal => exact ngxSprintfStr_fits src len hexadecimal (fits_of_below_self hbelow)
    | num v spec => exact absurd htask id
    | char c => exact absurd htask id
  · rw [Task.write_text htask hbelow]
    exact fits_limit _ _

theorem Task.write_defined {task : Task} {out' : List UInt8} (h : (task.write none out').2 = true)
    (hbelow : below last out = true) : (task.write last out).2 = true := by
  cases task with
  | str src len hexadecimal => exact ngxSprintfStr_defined h (fits_of_below_self hbelow)
  | num v spec =>
      rw [Task.write]
      split
      · rw [ngxSprintfNum_eq last (fits_of_below hbelow 45)]
      · rw [ngxSprintfNum_eq last (fits_of_below_self hbelow)]
  | char c => rfl

theorem convert_fits (spec : Spec) (args : List Arg) (hbelow : below last out = true) :
    Fits last (convert last spec out args).1 := by
  obtain hundefined | ⟨slen, args', task, left, -, hconvert⟩ := convert_cases spec args
  · rw [hundefined]
    exact fits_of_below_self hbelow
  · rw [hconvert]
    exact Task.write_fits task hbelow

theorem convert_defined {spec : Spec} {args args' : List Arg} {out' : List UInt8}
    (h : (convert none spec out' args).2 = some args') (hbelow : below last out = true) :
    (convert last spec out args).2 = some args' := by
  obtain hundefined | ⟨slen, popped, task, left, -, hconvert⟩ := convert_cases spec args
  · rw [hundefined] at h
    exact absurd h (by simp)
  · rw [hconvert] at h ⊢
    by_cases hwrite : (task.write none out').2 = true
    · rw [if_pos hwrite] at h
      rw [if_pos (Task.write_defined hwrite hbelow)]
      exact h
    · rw [if_neg hwrite] at h
      exact absurd h (by simp)

/-- The conversions of strings in hexadecimal. -/
def Spec.HexString (spec : Spec) : Prop := spec.hex ≠ 0 ∧ (spec.conv = 86 ∨ spec.conv = 118 ∨ spec.conv = 115)

theorem conversion_hexString {spec : Spec} {slen : UInt64} {args left : List Arg} {task : Task}
    (h : conversion spec slen args = some (task, left)) (htask : task.HexString) : spec.HexString := by
  rw [conversion] at h
  split_ifs at h with hstr hvalue hptr hchar hnul hlf hnumber
  · obtain ⟨⟨mem, len, args'⟩, -, htake⟩ := Option.map_eq_some_iff.mp h
    obtain ⟨rfl, -⟩ := Prod.mk.inj htake
    exact ⟨htask, .inl hstr⟩
  · obtain ⟨⟨mem, len, args'⟩, -, htake⟩ := Option.map_eq_some_iff.mp h
    obtain ⟨rfl, -⟩ := Prod.mk.inj htake
    exact ⟨htask, .inr (.inl hvalue)⟩
  · obtain ⟨⟨mem, args'⟩, -, htake⟩ := Option.map_eq_some_iff.mp h
    obtain ⟨rfl, -⟩ := Prod.mk.inj htake
    exact ⟨htask, .inr (.inr hptr)⟩
  · obtain ⟨⟨w, args'⟩, -, htake⟩ := Option.map_eq_some_iff.mp h
    obtain ⟨rfl, -⟩ := Prod.mk.inj htake
    exact absurd htask id
  · obtain ⟨rfl, -⟩ := Prod.mk.inj (Option.some.inj h)
    exact absurd htask id
  · obtain ⟨rfl, -⟩ := Prod.mk.inj (Option.some.inj h)
    exact absurd htask id
  · obtain ⟨⟨w, args'⟩, -, htake⟩ := Option.bind_eq_some_iff.mp h
    obtain ⟨⟨v, spec'⟩, -, htake⟩ := Option.map_eq_some_iff.mp htake
    obtain ⟨rfl, -⟩ := Prod.mk.inj htake
    exact absurd htask id
  · obtain ⟨rfl, -⟩ := Prod.mk.inj (Option.some.inj h)
    exact absurd htask id

/-- What a conversion writes does not depend on the buffer, but for its end. -/
theorem convert_text {spec : Spec} (hspec : ¬spec.HexString) (args : List Arg) :
    ∃ text, ∀ (last : Last) (out : List UInt8), below last out = true →
      (convert last spec out args).1 = limit last (out ++ text) := by
  obtain hundefined | ⟨slen, args', task, left, hconversion, hconvert⟩ := convert_cases spec args
  · refine ⟨[], fun last out hbelow => ?_⟩
    rw [hundefined, List.append_nil, limit_of_fits (fits_of_below_self hbelow)]
  · refine ⟨task.text, fun last out hbelow => ?_⟩
    rw [hconvert]
    exact Task.write_text (fun htask => hspec (conversion_hexString hconversion htask)) hbelow

/-! ### Runs -/

/-- A format with a string in hexadecimal. -/
def hexStringFormat (fmt : List UInt8) : Prop :=
  match fmt with
  | [] => False
  | c :: fmt =>
    if c = 0 then False
    else if c = 37 then
      match _h : parseSpec fmt with
      | none => False
      | some (spec, rest) => spec.HexString ∨ hexStringFormat rest
    else hexStringFormat fmt
termination_by fmt.length
decreasing_by
  · exact (parseSpec_length (by assumption)).trans (Nat.lt_succ_self _)
  · exact Nat.lt_succ_self _

theorem below_of_not_end {c : UInt8} (h : ¬(c = 0 ∨ below last out = false)) : c ≠ 0 ∧ below last out = true := by
  obtain ⟨hzero, hbelow⟩ := not_or.mp h
  exact ⟨hzero, eq_true_of_ne_false hbelow⟩

theorem vslprintfLoop_fits (fmt : List UInt8) (args : List Arg) (hfits : Fits last out) :
    Fits last (vslprintfLoop last fmt args out).1 := by
  induction hn : fmt.length using Nat.strong_induction_on generalizing fmt args out with
  | _ n ih =>
      subst hn
      cases fmt with
      | nil =>
          rw [vslprintfLoop]
          exact hfits
      | cons c fmt =>
          by_cases hend : c = 0 ∨ below last out = false
          · rw [vslprintfLoop_end hend]
            exact hfits
          · obtain ⟨hzero, hbelow⟩ := below_of_not_end hend
            by_cases hpercent : c = 37
            · subst hpercent
              rw [vslprintfLoop_percent hbelow]
              have hconvert := fun spec => convert_fits spec args hbelow
              cases hspec : parseSpec fmt with
              | none => exact hfits
              | some result =>
                  obtain ⟨spec, rest⟩ := result
                  cases hargs : (convert last spec out args).2 with
                  | none =>
                      simp only [hargs]
                      exact hconvert spec
                  | some args' =>
                      simp only [hargs]
                      exact ih _ ((parseSpec_length hspec).trans (Nat.lt_succ_self _)) rest args' (hconvert spec) rfl
            · rw [vslprintfLoop_plain hzero hpercent hbelow]
              exact ih _ (Nat.lt_succ_self _) fmt args (fits_of_below hbelow c) rfl

/-- Where a run without an end returns, a run with one does. -/
theorem vslprintfLoop_returns (fmt : List UInt8) (args : List Arg) {out' : List UInt8}
    (h : (vslprintfLoop none fmt args out').2 = true) : (vslprintfLoop last fmt args out).2 = true := by
  induction hn : fmt.length using Nat.strong_induction_on generalizing fmt args out out' with
  | _ n ih =>
      subst hn
      cases fmt with
      | nil =>
          rw [vslprintfLoop] at h
          exact absurd h Bool.false_ne_true
      | cons c fmt =>
          by_cases hend : c = 0 ∨ below last out = false
          · rw [vslprintfLoop_end hend]
          · obtain ⟨hzero, hbelow⟩ := below_of_not_end hend
            by_cases hpercent : c = 37
            · subst hpercent
              rw [vslprintfLoop_percent hbelow]
              rw [vslprintfLoop_percent rfl] at h
              cases hspec : parseSpec fmt with
              | none =>
                  rw [hspec] at h
                  exact absurd h Bool.false_ne_true
              | some result =>
                  obtain ⟨spec, rest⟩ := result
                  rw [hspec] at h
                  cases hfull : (convert none spec out' args).2 with
                  | none =>
                      simp only [hfull] at h
                      exact absurd h Bool.false_ne_true
                  | some args' =>
                      simp only [hfull] at h
                      simp only [convert_defined hfull hbelow]
                      exact ih _ ((parseSpec_length hspec).trans (Nat.lt_succ_self _)) rest args' h rfl
            · rw [vslprintfLoop_plain hzero hpercent hbelow]
              rw [vslprintfLoop_plain hzero hpercent rfl] at h
              exact ih _ (Nat.lt_succ_self _) fmt args h rfl

theorem hexStringFormat_plain {c : UInt8} {fmt : List UInt8} (h : ¬hexStringFormat (c :: fmt)) (hzero : c ≠ 0)
    (hpercent : c ≠ 37) : ¬hexStringFormat fmt := by
  rwa [hexStringFormat, if_neg hzero, if_neg hpercent] at h

theorem hexStringFormat_percent {fmt rest : List UInt8} {spec : Spec} (h : ¬hexStringFormat (37 :: fmt))
    (hspec : parseSpec fmt = some (spec, rest)) : ¬spec.HexString ∧ ¬hexStringFormat rest := by
  rw [hexStringFormat, if_neg (by decide), if_pos rfl] at h
  split at h
  · rename_i hnone
    rw [hspec] at hnone
    cases hnone
  · rename_i hsome
    rw [hspec] at hsome
    obtain ⟨rfl, rfl⟩ := Prod.mk.inj (Option.some.inj hsome)
    exact not_or.mp h

/-- A run without an end writes behind what is there. -/
theorem vslprintfLoop_extends {fmt : List UInt8} (hfmt : ¬hexStringFormat fmt) (args : List Arg) (out : List UInt8) :
    ∃ text, (vslprintfLoop none fmt args out).1 = out ++ text := by
  induction hn : fmt.length using Nat.strong_induction_on generalizing fmt args out with
  | _ n ih =>
      subst hn
      cases fmt with
      | nil =>
          rw [vslprintfLoop]
          exact ⟨[], (List.append_nil out).symm⟩
      | cons c fmt =>
          by_cases hzero : c = 0
          · rw [vslprintfLoop_end (.inl hzero)]
            exact ⟨[], (List.append_nil out).symm⟩
          · by_cases hpercent : c = 37
            · subst hpercent
              rw [vslprintfLoop_percent rfl]
              cases hspec : parseSpec fmt with
              | none => exact ⟨[], (List.append_nil out).symm⟩
              | some result =>
                  obtain ⟨spec, rest⟩ := result
                  obtain ⟨hnothex, hrest⟩ := hexStringFormat_percent hfmt hspec
                  obtain ⟨text, htext⟩ := convert_text hnothex args
                  have hout : (convert none spec out args).1 = out ++ text := htext none out rfl
                  cases hargs : (convert none spec out args).2 with
                  | none =>
                      simp only [hargs]
                      exact ⟨text, hout⟩
                  | some args' =>
                      simp only [hargs, hout]
                      obtain ⟨text', htext'⟩ :=
                        ih _ ((parseSpec_length hspec).trans (Nat.lt_succ_self _)) hrest args' (out ++ text) rfl
                      exact ⟨text ++ text', by rw [htext', List.append_assoc]⟩
            · rw [vslprintfLoop_plain hzero hpercent rfl]
              obtain ⟨text, htext⟩ :=
                ih _ (Nat.lt_succ_self _) (hexStringFormat_plain hfmt hzero hpercent) args (out ++ [c]) rfl
              exact ⟨c :: text, by rw [htext, List.append_assoc]; rfl⟩

/-- A run with an end writes the beginning of what a run without one writes. -/
theorem vslprintfLoop_limit {fmt : List UInt8} (hfmt : ¬hexStringFormat fmt) (args : List Arg) (out : List UInt8)
    (h : (vslprintfLoop none fmt args out).2 = true) :
    (vslprintfLoop last fmt args (limit last out)).1 = limit last (vslprintfLoop none fmt args out).1 := by
  induction hn : fmt.length using Nat.strong_induction_on generalizing fmt args out with
  | _ n ih =>
      subst hn
      cases fmt with
      | nil =>
          rw [vslprintfLoop] at h
          exact absurd h Bool.false_ne_true
      | cons c fmt =>
          by_cases hzero : c = 0
          · rw [vslprintfLoop_end (.inl hzero), vslprintfLoop_end (.inl hzero)]
          · by_cases hfull : below last (limit last out) = false
            · obtain ⟨text, htext⟩ := vslprintfLoop_extends hfmt args out
              rw [vslprintfLoop_end (.inr hfull), htext, ← limit_limit_append,
                limit_of_full (fits_limit last out) hfull]
            · have hbelow : below last (limit last out) = true := eq_true_of_ne_false hfull
              by_cases hpercent : c = 37
              · subst hpercent
                rw [vslprintfLoop_percent hbelow, vslprintfLoop_percent rfl]
                rw [vslprintfLoop_percent rfl] at h
                cases hspec : parseSpec fmt with
                | none => rfl
                | some result =>
                    obtain ⟨spec, rest⟩ := result
                    rw [hspec] at h
                    obtain ⟨hnothex, hrest⟩ := hexStringFormat_percent hfmt hspec
                    obtain ⟨text, htext⟩ := convert_text hnothex args
                    have hout : (convert none spec out args).1 = out ++ text := htext none out rfl
                    have hcut := htext last (limit last out) hbelow
                    rw [limit_limit_append] at hcut
                    cases hargs : (convert none spec out args).2 with
                    | none =>
                        simp only [hargs] at h
                        exact absurd h Bool.false_ne_true
                    | some args' =>
                        simp only [hargs, hout] at h
                        simp only [convert_defined hargs hbelow, hargs, hcut, hout]
                        exact ih _ ((parseSpec_length hspec).trans (Nat.lt_succ_self _)) hrest args' (out ++ text) h rfl
              · have hcut : limit last (limit last out ++ [c]) = limit last out ++ [c] :=
                  limit_of_fits (fits_of_below hbelow c)
                rw [vslprintfLoop_plain hzero hpercent rfl] at h
                rw [vslprintfLoop_plain hzero hpercent hbelow, vslprintfLoop_plain hzero hpercent rfl, ← hcut,
                  limit_limit_append]
                exact ih _ (Nat.lt_succ_self _) (hexStringFormat_plain hfmt hzero hpercent) args (out ++ [c]) h rfl

/-- For every format and all arguments: nothing is written behind the buffer and `buf` is returned inside of it, whenever a
buffer without an end would do, and what is in the buffer then is the beginning of that output, if no string is in
hexadecimal. -/
theorem vslprintf_bounded (fmt : List UInt8) (args : List Arg) (k : ℕ) :
    (ngxVslprintf (some k) fmt args).1.length ≤ k ∧
      ((ngxVslprintf none fmt args).2 = true → (ngxVslprintf (some k) fmt args).2 = true ∧
        (¬hexStringFormat fmt →
          (ngxVslprintf (some k) fmt args).1 = (ngxVslprintf none fmt args).1.take k)) := by
  refine ⟨?_, fun hreturns => ⟨?_, fun hfmt => ?_⟩⟩
  · refine vslprintfLoop_fits fmt args ?_ k rfl
    rintro k -
    exact Nat.zero_le k
  · exact vslprintfLoop_returns fmt args hreturns
  · have h := @vslprintfLoop_limit (some k) fmt hfmt args [] hreturns
    rw [limit, List.take_nil] at h
    exact h

theorem vslprintfLoop_convert {fmt rest out out' : List UInt8} {args args' : List Arg} {spec : Spec}
    (hspec : parseSpec fmt = some (spec, rest)) (hconvert : convert none spec out args = (out', some args')) :
    vslprintfLoop none (37 :: fmt) args out = vslprintfLoop none rest args' out' := by
  rw [vslprintfLoop_percent rfl, hspec]
  simp only [hconvert]

/-- `%s:%d` of `ab` and 7, in a buffer of three bytes. -/
theorem vslprintf_bounded_cut :
    (ngxVslprintf none [37, 115, 58, 37, 100, 0] [.ptr [97, 98, 0], .word 7]).2 = true ∧
      (ngxVslprintf (some 3) [37, 115, 58, 37, 100, 0] [.ptr [97, 98, 0], .word 7]).1 = [97, 98, 58] := by
  have hdigit : decimalLoop 7 [] = [55] := by
    rw [decimalLoop]
    rfl
  have hnumber : convert none ⟨32, 0, true, 0, false, 0, 100⟩ [97, 98, 58] [.word 7] = ([97, 98, 58, 55], some []) := by
    show ((copyNum none (padLoop none 32 (0 - (decimalLoop 7 []).length) [97, 98, 58]) (decimalLoop 7 [])).1, if
      (copyNum none (padLoop none 32 (0 - (decimalLoop 7 []).length) [97, 98, 58]) (decimalLoop 7 [])).2 then _ else _) = _
    rw [hdigit]
    rfl
  have hwhole : ngxVslprintf none [37, 115, 58, 37, 100, 0] [.ptr [97, 98, 0], .word 7] = ([97, 98, 58, 55], true) :=
    calc ngxVslprintf none [37, 115, 58, 37, 100, 0] [.ptr [97, 98, 0], .word 7]
        = vslprintfLoop none [58, 37, 100, 0] [.word 7] [97, 98] := vslprintfLoop_convert rfl rfl
      _ = vslprintfLoop none [37, 100, 0] [.word 7] [97, 98, 58] := vslprintfLoop_plain (by decide) (by decide) rfl
      _ = vslprintfLoop none [0] [] [97, 98, 58, 55] := vslprintfLoop_convert rfl hnumber
      _ = ([97, 98, 58, 55], true) := vslprintfLoop_end (.inl rfl)
  have hfmt : ¬hexStringFormat [37, 115, 58, 37, 100, 0] := by
    simp [hexStringFormat, parseSpec, parseWidth, parseFlags, isDigit, Spec.HexString]
  refine ⟨by rw [hwhole], ?_⟩
  rw [((vslprintf_bounded _ _ 3).2 (by rw [hwhole])).2 hfmt, hwhole]
  rfl

end NginxDtls.Sprintf
