import NginxDtls.ScriptRules

/-! When both passes agree. A code is settled when asking for it again changes nothing; the evaluation of a later variable
leaves it so, unless it can run a regular expression that sets captures or the variable itself, or asks for a variable that
is not cacheable. -/

namespace NginxDtls.Script

/-! ### Escapes -/

/-- The second function of a printer writes what the first one counts, and one that does not mark has no escapes. -/
structure Printer.Lawful (p : Printer) : Prop where
  escaped : ∀ data, (p.escaped data).length = data.length + p.extra data
  plain : p.marks = false → ∀ data, p.extra data = 0

theorem scriptCopyVar_lawful : scriptCopyVar.Lawful := ⟨fun _ => rfl, fun _ _ => rfl⟩

theorem logUnescapedVariable_lawful : logUnescapedVariable.Lawful := ⟨fun _ => rfl, fun _ _ => rfl⟩

theorem logVariable_lawful : logVariable.Lawful := by
  refine ⟨fun data => ?_, fun h => absurd h.symm Bool.false_ne_true⟩
  show (data.flatMap logEscape).length = data.length + data.countP (decide <| LogEscaped ·) * 3
  induction data with
  | nil => rfl
  | cons ch data ih =>
      rw [List.flatMap_cons, List.length_append, ih, List.length_cons, List.countP_cons]
      unfold logEscape
      by_cases hch : LogEscaped ch
      · rw [if_pos hch, if_pos (decide_eq_true hch)]
        simp only [List.length_cons, List.length_nil]
        omega
      · rw [if_neg hch, if_neg (fun h => hch (of_decide_eq_true h)), List.length_singleton]
        omega

theorem escapeJson_length (ch : UInt8) : (escapeJson ch).length = 1 + escapeJsonLen ch := by
  unfold escapeJson escapeJsonLen
  by_cases hbackslash : ch = 92 ∨ ch = 34
  · have hgt : ch > 31 := by rcases hbackslash with rfl | rfl <;> decide
    rw [if_pos hgt, if_pos hbackslash, if_pos hbackslash]
    rfl
  · rw [if_neg hbackslash, if_neg hbackslash]
    by_cases hgt : ch > 31
    · rw [if_pos hgt, if_neg (UInt8.not_le.mpr hgt)]
      rfl
    · rw [if_neg hgt, if_pos (UInt8.not_lt.mp hgt)]
      by_cases hshort : ch = 10 ∨ ch = 13 ∨ ch = 9 ∨ ch = 8 ∨ ch = 12
      · rcases hshort with rfl | rfl | rfl | rfl | rfl <;> rfl
      · have hlong := hshort
        simp only [not_or] at hshort
        obtain ⟨h10, h13, h9, h8, h12⟩ := hshort
        rw [if_neg h10, if_neg h13, if_neg h9, if_neg h8, if_neg h12, if_neg hlong]
        rfl

theorem logJsonVariable_lawful : logJsonVariable.Lawful := by
  refine ⟨fun data => ?_, fun h => absurd h.symm Bool.false_ne_true⟩
  show (data.flatMap escapeJson).length = data.length + (data.map escapeJsonLen).sum
  induction data with
  | nil => rfl
  | cons ch data ih =>
      rw [List.flatMap_cons, List.length_append, ih, escapeJson_length, List.length_cons, List.map_cons, List.sum_cons]
      omega

/-! ### Asking for a variable -/

section Passes

variable {conf : List Variable} {junk : ℕ → UInt8}

theorem getIndexed_deep {i : ℕ} {s : Session} (hc : ¬s.Cached i) :
    getIndexedVariable junk conf 0 i s = (s, none) := if_neg fun h => hc h.2

theorem call_cached {get : Get} {i : ℕ} {s s' : Session} {handler : Handler}
    (h : handler.call junk get i s = (s', true)) : s'.Cached i := by
  unfold Handler.call at h
  split at h
  · obtain ⟨rfl, -⟩ := Prod.mk.inj h
    unfold mapVariable
    dsimp only
    split
    · exact .inr (by rw [Session.set_vars, Function.update_self])
    · exact .inr (by rw [Session.set_vars, Function.update_self])
  · obtain ⟨rfl, -⟩ := Prod.mk.inj h
    exact .inl (by rw [Session.set_vars, Function.update_self])
  · split at h
    · obtain ⟨rfl, -⟩ := Prod.mk.inj h
      exact .inr (by rw [Session.set_vars, Function.update_self])
    · obtain ⟨rfl, -⟩ := Prod.mk.inj h
      exact .inl (by rw [Session.set_vars, Function.update_self])
    · exact absurd (Prod.mk.inj h).2 Bool.false_ne_true

/-- Behind its evaluation a variable is cached. -/
theorem getIndexed_evaluated (depth : ℕ) {i : ℕ} (hi : i < conf.length) {s : Session} (hc : ¬s.Cached i) :
    ∃ s', s'.Cached i ∧ (getIndexedVariable junk conf (depth + 1) i s = (s', some (s'.vars i)) ∨
      getIndexedVariable junk conf (depth + 1) i s = (s', none) ∧ (s'.vars i).notFound) := by
  unfold getIndexedVariable
  rw [List.getElem?_eq_getElem hi]
  dsimp only
  rw [if_neg hc]
  cases hcall : conf[i].handler.call junk (getIndexedVariable junk conf depth) i s with
  | mk s' ok =>
      cases ok with
      | true =>
          have hcached := call_cached hcall
          refine ⟨s'.set i { s'.vars i with noCacheable := conf[i].noCacheable || (s'.vars i).noCacheable }, ?_, .inl ?_⟩
          · unfold Session.Cached at hcached ⊢
            rw [Session.set_vars, Function.update_self]
            exact hcached
          · rw [Session.set_vars, Function.update_self]
      | false =>
          refine ⟨s'.set i { s'.vars i with valid := false, notFound := true }, .inl ?_, .inr ⟨rfl, ?_⟩⟩
          · rw [Session.set_vars, Function.update_self]
          · rw [Session.set_vars, Function.update_self]

/-! ### Codes that are settled -/

/-- The variable is known, cached and found. -/
def Found (conf : List Variable) (s : Session) (i : ℕ) : Prop :=
  i < conf.length ∧ s.Cached i ∧ (s.vars i).notFound = false

instance (conf : List Variable) (s : Session) (i : ℕ) : Decidable (Found conf s i) :=
  inferInstanceAs (Decidable (_ ∧ _ ∧ _))

/-- The bytes of a code in a state, without an evaluation. -/
def measure (conf : List Variable) (p : Printer) (s : Session) : Code → ℕ
  | .copy data => data.length
  | .var i =>
    if Found conf s i then (s.vars i).data.length + p.extra (s.vars i).data else p.missing.length
  | .capture n => (s.groups.getD n []).length

/-- Asking for the code changes nothing. -/
def Settled (conf : List Variable) (p : Printer) (depth : ℕ) (s : Session) : Code → Prop
  | .var i => (i < conf.length → s.Cached i ∨ depth = 0) ∧
      (p.marks → Found conf s i → (s.vars i).escape = decide (p.extra (s.vars i).data ≠ 0))
  | _ => True

variable {p : Printer} {depth : ℕ}

/-- Asking for a variable that is settled. -/
theorem getIndexed_settled {i : ℕ} {s : Session} (hs : i < conf.length → s.Cached i ∨ depth = 0) :
    getIndexedVariable junk conf depth i s = (s, some (s.vars i)) ∧ i < conf.length ∧ s.Cached i ∨
      getIndexedVariable junk conf depth i s = (s, none) ∧ ¬Found conf s i := by
  by_cases hi : i < conf.length
  · by_cases hc : s.Cached i
    · exact .inl ⟨getIndexed_cached depth hi hc, hi, hc⟩
    · obtain rfl := (hs hi).resolve_left hc
      exact .inr ⟨getIndexed_deep hc, fun h => hc h.2.1⟩
  · exact .inr ⟨getIndexed_unknown depth hi s, fun h => hi h.1⟩

/-- Copying a code that is settled. -/
theorem copyCode_settled (hp : p.Lawful) {s : Session} {c : Code} (hs : Settled conf p depth s c) :
    (copyCode p (getIndexedVariable junk conf depth) c s).1 = s ∧
      (copyCode p (getIndexedVariable junk conf depth) c s).2.length = measure conf p s c := by
  cases c with
  | copy data => exact ⟨rfl, rfl⟩
  | capture n => exact ⟨rfl, rfl⟩
  | var i =>
      show (p.varCopy _ i s).1 = s ∧ (p.varCopy _ i s).2.length = if _ then _ else _
      unfold Printer.varCopy
      rcases getIndexed_settled hs.1 with ⟨hget, hi, hc⟩ | ⟨hget, hnot⟩
      · rw [hget]
        refine ⟨rfl, ?_⟩
        dsimp only
        by_cases hfound : (s.vars i).notFound
        · rw [if_pos hfound, if_neg fun h => absurd (hfound.symm.trans h.2.2) (by decide)]
        · have hf : Found conf s i := ⟨hi, hc, Bool.eq_false_of_not_eq_true hfound⟩
          rw [if_neg hfound, if_pos hf]
          split
          · exact hp.escaped _
          · rename_i hescape
            have hextra : p.extra (s.vars i).data = 0 := by
              cases hmarks : p.marks with
              | false => exact hp.plain hmarks _
              | true =>
                  have hmark := hs.2 hmarks hf
                  rw [Bool.eq_false_of_not_eq_true hescape] at hmark
                  by_contra hne
                  exact absurd (hmark.trans (decide_eq_true hne)) Bool.false_ne_true
            rw [hextra, Nat.add_zero]
      · rw [hget]
        exact ⟨rfl, (if_neg hnot).symm⟩

theorem copyPass_settled (hp : p.Lawful) {codes : List Code} {s : Session}
    (hs : ∀ c ∈ codes, Settled conf p depth s c) :
    (copyPass p (getIndexedVariable junk conf depth) codes s).2.length = (codes.map (measure conf p s)).sum := by
  induction codes with
  | nil => rfl
  | cons c codes ih =>
      obtain ⟨hstate, hlength⟩ := @copyCode_settled conf junk p depth hp s c (hs c List.mem_cons_self)
      rw [copyPass, List.length_append, hstate, hlength, ih fun c' hc' => hs c' (List.mem_cons_of_mem _ hc'),
        List.map_cons, List.sum_cons]

/-- Behind its measure a code is settled, and this is its length. -/
theorem lenCode_settled {s : Session} (c : Code) :
    Settled conf p depth (lenCode p (getIndexedVariable junk conf depth) c s).1 c ∧
      (lenCode p (getIndexedVariable junk conf depth) c s).2 =
        measure conf p (lenCode p (getIndexedVariable junk conf depth) c s).1 c := by
  cases c with
  | copy data => exact ⟨trivial, rfl⟩
  | capture n => exact ⟨trivial, rfl⟩
  | var i =>
      show Settled conf p depth (p.varLen _ i s).1 (.var i) ∧ (p.varLen _ i s).2 = measure conf p (p.varLen _ i s).1 (.var i)
      have hasked : (∃ s', getIndexedVariable junk conf depth i s = (s', some (s'.vars i)) ∧ i < conf.length ∧
          s'.Cached i) ∨ ∃ s', getIndexedVariable junk conf depth i s = (s', none) ∧ ¬Found conf s' i ∧
            (i < conf.length → s'.Cached i ∨ depth = 0) := by
        by_cases hsettled : i < conf.length → s.Cached i ∨ depth = 0
        · rcases @getIndexed_settled conf junk depth i s hsettled with ⟨hget, hi, hc⟩ | ⟨hget, hnot⟩
          · exact .inl ⟨s, hget, hi, hc⟩
          · exact .inr ⟨s, hget, hnot, hsettled⟩
        · obtain ⟨hi, hnot⟩ := Classical.not_imp.mp hsettled
          obtain ⟨hc, hdepth⟩ := not_or.mp hnot
          obtain ⟨depth', rfl⟩ := Nat.exists_eq_succ_of_ne_zero hdepth
          obtain ⟨s', hcached, hget | ⟨hget, hmissing⟩⟩ := @getIndexed_evaluated conf junk depth' i hi s hc
          · exact .inl ⟨s', hget, hi, hcached⟩
          · exact .inr ⟨s', hget, fun h => absurd (hmissing.symm.trans h.2.2) (by decide), fun _ => .inl hcached⟩
      unfold Printer.varLen
      rcases hasked with ⟨s', hget, hi, hc⟩ | ⟨s', hget, hnot, hsettled⟩
      · rw [hget]
        dsimp only
        by_cases hmissing : (s'.vars i).notFound
        · have hnot : ¬Found conf s' i := fun h => absurd (hmissing.symm.trans h.2.2) (by decide)
          rw [if_pos hmissing]
          exact ⟨⟨fun _ => .inl hc, fun _ hf => absurd hf hnot⟩, (if_neg hnot).symm⟩
        · have hf : Found conf s' i := ⟨hi, hc, Bool.eq_false_of_not_eq_true hmissing⟩
          rw [if_neg hmissing]
          dsimp only
          split
          · have hset : (s'.set i { s'.vars i with escape := decide (p.extra (s'.vars i).data ≠ 0) }).vars i =
                { s'.vars i with escape := decide (p.extra (s'.vars i).data ≠ 0) } := by
              rw [Session.set_vars, Function.update_self]
            have hcached : (s'.set i { s'.vars i with escape := decide (p.extra (s'.vars i).data ≠ 0) }).Cached i := by
              unfold Session.Cached
              rw [hset]
              exact hc
            have hfound : Found conf (s'.set i { s'.vars i with escape := decide (p.extra (s'.vars i).data ≠ 0) }) i := by
              refine ⟨hi, hcached, ?_⟩
              rw [hset]
              exact hf.2.2
            refine ⟨⟨fun _ => .inl hcached, fun _ _ => ?_⟩, ?_⟩
            · rw [hset]
            · show _ = if Found conf _ i then ((Session.vars _ i).data.length + p.extra (Session.vars _ i).data) else _
              rw [if_pos hfound, hset]
          · rename_i hmarks
            exact ⟨⟨fun _ => .inl hc, fun h => absurd h hmarks⟩, (if_pos hf).symm⟩
      · rw [hget]
        exact ⟨⟨hsettled, fun _ hf => absurd hf hnot⟩, (if_neg hnot).symm⟩

/-! ### What a later variable leaves as it is -/

/-- A variable that is as it was. -/
theorem settled_of_vars {s s' : Session} {i : ℕ} (h : s'.vars i = s.vars i) (hs : Settled conf p depth s (.var i)) :
    Settled conf p depth s' (.var i) ∧ measure conf p s' (.var i) = measure conf p s (.var i) := by
  have hcached : s'.Cached i ↔ s.Cached i := by
    unfold Session.Cached
    rw [h]
  have hfound : Found conf s' i ↔ Found conf s i := by
    unfold Found
    rw [hcached, h]
  refine ⟨⟨fun hi => (hs.1 hi).imp_left hcached.mpr, fun hm hf => ?_⟩, ?_⟩
  · rw [h]
    exact hs.2 hm (hfound.mp hf)
  · show (if Found conf s' i then (s'.vars i).data.length + p.extra (s'.vars i).data else _) = if _ then _ else _
    by_cases hf : Found conf s i
    · rw [if_pos hf, if_pos (hfound.mpr hf), h]
    · rw [if_neg hf, if_neg fun hf' => hf (hfound.mp hf')]

/-- Measuring a variable evaluates it, and may mark it. -/
theorem lenCode_var (p : Printer) (get : Get) (i : ℕ) (s : Session) : (lenCode p get (.var i) s).1 = (get i s).1 ∨
    ∃ v, (get i s).2 = some v ∧ (lenCode p get (.var i) s).1 =
      (get i s).1.set i { (get i s).1.vars i with escape := decide (p.extra v.data ≠ 0) } := by
  show (p.varLen get i s).1 = _ ∨ ∃ v, _ ∧ (p.varLen get i s).1 = _
  unfold Printer.varLen
  split
  · rename_i s' v hget
    rw [hget]
    split
    · exact .inl rfl
    · dsimp only
      split
      · exact .inr ⟨v, rfl, rfl⟩
      · exact .inl rfl
  · rename_i s' hget
    rw [hget]
    exact .inl rfl

theorem lenCode_others (p : Printer) (get : Get) (i : ℕ) (s : Session) :
    (lenCode p get (.var i) s).1.groups = (get i s).1.groups ∧
      ∀ j ≠ i, (lenCode p get (.var i) s).1.vars j = (get i s).1.vars j := by
  rcases lenCode_var p get i s with h | ⟨v, -, h⟩
  · rw [h]
    exact ⟨rfl, fun _ _ => rfl⟩
  · rw [h]
    exact ⟨rfl, fun j hj => Function.update_of_ne hj _ _⟩

theorem lenCode_consistent {s : Session} (hs : Consistent conf s) (c : Code) :
    Consistent conf (lenCode p (getIndexedVariable junk conf depth) c s).1 := by
  cases c with
  | copy data => exact hs
  | capture n => exact hs
  | var i =>
      have hget := @Kept.getIndexedVariable conf (fun _ => True) _ junk (kept_consistent conf _)
        (fun _ _ _ _ => .inl trivial) depth i trivial s hs
      rcases lenCode_var p (getIndexedVariable junk conf depth) i s with h | ⟨v, -, h⟩
      · rwa [h]
      · rw [h]
        intro j hj
        rw [Session.set_vars] at hj
        by_cases hij : j = i
        · rw [hij, Function.update_self] at hj
          exact hget j (hij ▸ hj)
        · rw [Function.update_of_ne hij] at hj
          exact hget j hj

/-- The variable is not cacheable. -/
def Volatile (conf : List Variable) (i : ℕ) : Prop := ∃ v, conf[i]? = some v ∧ v.noCacheable

/-- The variable has been measured, and is not evaluated again. -/
def Known (conf : List Variable) (done : List Code) (i : ℕ) : Prop := .var i ∈ done ∧ ¬Volatile conf i

/-- Nothing that is evaluated for the second code, when those of `done` are measured, can change the first one: a match sets
captures and named captures, and a variable that is not cacheable is evaluated again when a map asks for it. -/
def Undisturbed (conf : List Variable) (done : List Code) (q c : Code) : Prop :=
  ∀ y, c = .var y → ∀ u, Evaluates conf (Known conf done) y u →
    match q with
    | .copy _ => True
    | .capture _ => ∀ re, ¬Runs conf u re
    | .var x => (∀ re, Runs conf u re → ∀ n, (n, x) ∉ re.named) ∧ (Volatile conf x → ¬Asks conf u x)

/-- No code is disturbed by a later one that stands in its place for the first time. -/
def SteadyFrom (conf : List Variable) (done : List Code) : List Code → Prop
  | [] => True
  | c :: codes => (c ∉ done → ∀ q ∈ done, Undisturbed conf done q c) ∧ SteadyFrom conf (c :: done) codes

def Steady (conf : List Variable) (codes : List Code) : Prop := SteadyFrom conf [] codes

/-- A code that changes no other variable and no captures. -/
theorem lenCode_alone {s : Session} {q : Code} {y : ℕ} (hq : Settled conf p depth s q)
    (halone : (getIndexedVariable junk conf depth y s).1.groups = s.groups ∧
      ∀ j ≠ y, (getIndexedVariable junk conf depth y s).1.vars j = s.vars j) :
    Settled conf p depth (lenCode p (getIndexedVariable junk conf depth) (.var y) s).1 q ∧
      measure conf p (lenCode p (getIndexedVariable junk conf depth) (.var y) s).1 q = measure conf p s q := by
  obtain ⟨hgroups, hothers⟩ := lenCode_others p (getIndexedVariable junk conf depth) y s
  cases q with
  | copy data => exact ⟨trivial, rfl⟩
  | capture n => exact ⟨trivial, by unfold measure; rw [hgroups, halone.1]⟩
  | var x =>
      by_cases hxy : x = y
      · subst hxy
        have hstate : (getIndexedVariable junk conf depth x s).1 = s := by
          rcases @getIndexed_settled conf junk depth x s hq.1 with ⟨hget, -⟩ | ⟨hget, -⟩
          · rw [hget]
          · rw [hget]
        refine ⟨(@lenCode_settled conf junk p depth s (.var x)).1, ?_⟩
        rcases lenCode_var p (getIndexedVariable junk conf depth) x s with h | ⟨v, -, h⟩
        · rw [h, hstate]
        · rw [h, hstate]
          generalize decide (p.extra v.data ≠ 0) = escape
          have hset : (s.set x { s.vars x with escape }).vars x = { s.vars x with escape } := by
            rw [Session.set_vars, Function.update_self]
          have hfound : Found conf (s.set x { s.vars x with escape }) x ↔ Found conf s x := by
            unfold Found Session.Cached
            rw [hset]
          show (if Found conf (s.set x _) x then ((s.set x _).vars x).data.length +
            p.extra ((s.set x _).vars x).data else _) = if _ then _ else _
          by_cases hf : Found conf s x
          · rw [if_pos hf, if_pos (hfound.mpr hf), hset]
          · rw [if_neg hf, if_neg fun hf' => hf (hfound.mp hf')]
      · exact settled_of_vars ((hothers x hxy).trans (halone.2 x hxy)) hq

/-- What has been measured and is cacheable stays in the session. -/
theorem cachedFor_known {done : List Code} {s : Session} (hs : Consistent conf s)
    (hdone : ∀ q ∈ done, Settled conf p depth s q) (hdepth : depth ≠ 0) (i : ℕ)
    (hi : Known conf done i ∧ i < conf.length) : CachedFor s i := by
  obtain ⟨⟨hmem, hvolatile⟩, hlt⟩ := hi
  exact ⟨((hdone _ hmem).1 hlt).resolve_right hdepth, Bool.eq_false_of_not_eq_true fun hn => hvolatile (hs i hn)⟩

/-- The evaluation of a variable keeps what the writes keep, when the known variables are cached. -/
theorem getIndexed_keeps {done : List Code} {J : Session → Prop} {y : ℕ}
    (hkept : Kept conf (Evaluates conf (Known conf done) y) J) {s : Session} (hs : Consistent conf s)
    (hdone : ∀ q ∈ done, Settled conf p depth s q) (hdepth : depth ≠ 0) (hJ : J s) :
    J (getIndexedVariable junk conf depth y s).1 := by
  have hboth := hkept.and (kept_cachedFor conf (Evaluates conf (Known conf done) y)
    fun i => Known conf done i ∧ i < conf.length)
  have hend := @Kept.getIndexedVariable conf _ _ junk hboth (fun u i hu hasks => ?_) depth y .self s
    ⟨hJ, cachedFor_known hs hdone hdepth⟩
  · exact hend.1
  · by_cases hknown : Known conf done i
    · exact .inr fun s hs hi => (hs.2 i ⟨hknown, hi⟩).1
    · exact .inl (.ask hu hasks hknown)

theorem lenCode_frame {done : List Code} {s : Session} (hs : Consistent conf s)
    (hdone : ∀ q ∈ done, Settled conf p depth s q) {q c : Code} (hq : q ∈ done)
    (hc : Settled conf p depth s c ∨ Undisturbed conf done q c) :
    Settled conf p depth (lenCode p (getIndexedVariable junk conf depth) c s).1 q ∧
      measure conf p (lenCode p (getIndexedVariable junk conf depth) c s).1 q = measure conf p s q := by
  have hsq := hdone q hq
  cases c with
  | copy data => exact ⟨hsq, rfl⟩
  | capture n => exact ⟨hsq, rfl⟩
  | var y =>
      by_cases hsettled : y < conf.length → s.Cached y ∨ depth = 0
      · -- nothing is evaluated
        apply lenCode_alone hsq
        rcases @getIndexed_settled conf junk depth y s hsettled with ⟨hget, -⟩ | ⟨hget, -⟩
        · rw [hget]
          exact ⟨rfl, fun _ _ => rfl⟩
        · rw [hget]
          exact ⟨rfl, fun _ _ => rfl⟩
      · have hundisturbed := hc.resolve_left (fun h => hsettled h.1) y rfl
        obtain ⟨-, hnot⟩ := Classical.not_imp.mp hsettled
        obtain ⟨-, hdepth⟩ := not_or.mp hnot
        obtain ⟨hgroups, hothers⟩ := lenCode_others p (getIndexedVariable junk conf depth) y s
        cases q with
        | copy data => exact ⟨trivial, rfl⟩
        | capture n =>
            have hkept : (getIndexedVariable junk conf depth y s).1.groups = s.groups :=
              getIndexed_keeps (kept_groups (fun u re hu => hundisturbed u hu re) s.groups) hs hdone hdepth rfl
            refine ⟨trivial, ?_⟩
            show (Session.groups _ |>.getD n []).length = (s.groups.getD n []).length
            rw [hgroups, hkept]
        | var x =>
            by_cases hx : x < conf.length
            · have hxy : x ≠ y := by
                rintro rfl
                exact hsettled hsq.1
              have hkept := kept_value ((hsq.1 hx).resolve_right hdepth) (fun hn u hu => (hundisturbed u hu).2 (hs x hn))
                fun u re hu => (hundisturbed u hu).1 re
              exact settled_of_vars ((hothers x hxy).trans (getIndexed_keeps hkept hs hdone hdepth rfl)) hsq
            · exact ⟨⟨fun h => absurd h hx, fun _ hf => absurd hf.1 hx⟩,
                (if_neg fun hf => hx hf.1).trans (if_neg fun hf => hx hf.1).symm⟩

/-! ### Both passes -/

/-- Behind the first pass every code is settled and has the length that was added up, when no code changes what was measured
before it. `R` is what is known of the codes before and of those to come. -/
theorem lengthPass_frames {I : Session → Prop} {R : List Code → List Code → Prop}
    (hstep : ∀ (done : List Code) (c : Code) (codes : List Code) (s : Session), R done (c :: codes) → I s →
      (∀ q ∈ done, Settled conf p depth s q) →
      R (c :: done) codes ∧ I (lenCode p (getIndexedVariable junk conf depth) c s).1 ∧
        ∀ q ∈ done, Settled conf p depth (lenCode p (getIndexedVariable junk conf depth) c s).1 q ∧
          measure conf p (lenCode p (getIndexedVariable junk conf depth) c s).1 q = measure conf p s q)
    {codes done : List Code} (hcodes : R done codes) {s : Session} (hs : I s)
    (hdone : ∀ q ∈ done, Settled conf p depth s q) :
    I (lengthPass p (getIndexedVariable junk conf depth) codes s).1 ∧
    (∀ q ∈ done, Settled conf p depth (lengthPass p (getIndexedVariable junk conf depth) codes s).1 q ∧
      measure conf p (lengthPass p (getIndexedVariable junk conf depth) codes s).1 q = measure conf p s q) ∧
    (∀ c ∈ codes, Settled conf p depth (lengthPass p (getIndexedVariable junk conf depth) codes s).1 c) ∧
    (lengthPass p (getIndexedVariable junk conf depth) codes s).2 =
      (codes.map (measure conf p (lengthPass p (getIndexedVariable junk conf depth) codes s).1)).sum := by
  induction codes generalizing done s with
  | nil => exact ⟨hs, fun q hq => ⟨hdone q hq, rfl⟩, fun _ hc => absurd hc List.not_mem_nil, rfl⟩
  | cons c codes ih =>
      obtain ⟨hsettled, hlength⟩ := @lenCode_settled conf junk p depth s c
      obtain ⟨hrest, hs', hframe⟩ := hstep done c codes s hcodes hs hdone
      have hnext : ∀ q ∈ c :: done, Settled conf p depth (lenCode p (getIndexedVariable junk conf depth) c s).1 q := by
        intro q hq
        rcases List.mem_cons.mp hq with rfl | hq
        · exact hsettled
        · exact (hframe q hq).1
      obtain ⟨hfinal, hpast, hlater, hsum⟩ := ih hrest hs' hnext
      refine ⟨hfinal, fun q hq => ?_, fun c' hc' => ?_, ?_⟩
      · obtain ⟨hq₁, hq₂⟩ := hpast q (List.mem_cons_of_mem _ hq)
        exact ⟨hq₁, hq₂.trans (hframe q hq).2⟩
      · rcases List.mem_cons.mp hc' with rfl | hc'
        · exact (hpast c' List.mem_cons_self).1
        · exact hlater c' hc'
      · rw [lengthPass, List.map_cons, List.sum_cons, hsum, hlength, (hpast c List.mem_cons_self).2]

theorem lenCode_steady (done : List Code) (c : Code) (codes : List Code) (s : Session)
    (hsteady : SteadyFrom conf done (c :: codes)) (hs : Consistent conf s) (hdone : ∀ q ∈ done, Settled conf p depth s q) :
    SteadyFrom conf (c :: done) codes ∧ Consistent conf (lenCode p (getIndexedVariable junk conf depth) c s).1 ∧
      ∀ q ∈ done, Settled conf p depth (lenCode p (getIndexedVariable junk conf depth) c s).1 q ∧
        measure conf p (lenCode p (getIndexedVariable junk conf depth) c s).1 q = measure conf p s q := by
  refine ⟨hsteady.2, lenCode_consistent hs c, fun q hq => ?_⟩
  apply lenCode_frame hs hdone hq
  by_cases hmem : c ∈ done
  · exact .inl (hdone c hmem)
  · exact .inr (hsteady.1 hmem q hq)

/-- The passes agree on steady codes. -/
theorem build_steady (hp : p.Lawful) {codes : List Code} (hsteady : Steady conf codes) {s : Session}
    (hs : Consistent conf s) :
    (build p (getIndexedVariable junk conf depth) codes s).2.bytes.length =
      (build p (getIndexedVariable junk conf depth) codes s).2.length := by
  obtain ⟨-, -, hsettled, hsum⟩ := @lengthPass_frames conf junk p depth (Consistent conf) (SteadyFrom conf)
    lenCode_steady codes [] hsteady s hs fun q hq => absurd hq List.not_mem_nil
  exact (copyPass_settled hp hsettled).trans hsum.symm

theorem flushVariables_consistent {s : Session} (hs : Consistent conf s) (flushes : List ℕ) :
    Consistent conf (flushVariables s flushes) :=
  flushVariables_keeps (fun i _ _ hs j hj => hs j (flushVariable_noCacheable _ i j ▸ hj)) hs

end Passes

/-! ### Values and lines -/

def ComplexValue.codes : ComplexValue → List Code
  | .text _ => []
  | .script _ codes => codes

theorem consistent_new (conf : List Variable) : Consistent conf ⟨fun _ => {}, [], 0⟩ :=
  fun _ h => absurd h Bool.false_ne_true

theorem scriptCompile_captureMap :
    ngxStreamCompileComplexValue (fun _ => 0) false [36, 49, 36, 109] = some (.script [0] [.capture 1, .var 0]) := by
  have hmap : scriptCompile (fun _ => 0) false [36, 109] = some [.var 0] := by
    simp [scriptCompile, IsName]
  have hcapture : scriptCompile (fun _ => 0) false [36, 49, 36, 109] = some [.capture 1, .var 0] := by
    rw [scriptCompile, if_pos (by decide), hmap]
    rfl
  rw [ngxStreamCompileComplexValue, if_pos (by decide), hcapture]
  rfl

/-- The regular expression `^(.*)$` -/
def matchAll : Regex := ⟨fun subject => .matched [subject, subject], []⟩

/-- A map of `AAAA` with these regular expressions and an empty value. -/
def dotMap (regex : List (Regex × MapValue)) : Map := ⟨.text [65, 65, 65, 65], false, fun _ => none, regex, .text []⟩

theorem runs_dotMap {u : ℕ} {re : Regex} : ¬Runs [⟨.map (dotMap []), false⟩] u re := by
  rintro ⟨v, m, hv, hm, subject, value, -, hfinds⟩
  obtain rfl := List.mem_singleton.mp (List.mem_of_getElem? hv)
  obtain rfl := Handler.map.inj hm
  cases hfinds with
  | regex _ _ hregex => exact List.cons_ne_nil _ _ (List.append_eq_nil_iff.mp hregex.symm).2

/-- `$1$m` is steady when the map has no regular expressions. -/
theorem steady_dotMap : Steady [⟨.map (dotMap []), false⟩] [.capture 1, .var 0] := by
  refine ⟨fun _ q hq => absurd hq List.not_mem_nil, fun _ q hq => ?_, trivial⟩
  obtain rfl := List.mem_singleton.mp hq
  exact fun y _ u _ re => runs_dotMap

/-- `$m$1$m` is steady, whatever the map is: it is evaluated before the capture is measured. -/
theorem steady_first (conf : List Variable) : Steady conf [.var 0, .capture 1, .var 0] := by
  refine ⟨fun _ q hq => absurd hq List.not_mem_nil, fun _ q _ y hy => ?_, fun hnew => absurd (by simp) hnew, trivial⟩
  cases hy

end NginxDtls.Script
