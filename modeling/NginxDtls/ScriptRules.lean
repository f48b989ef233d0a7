import NginxDtls.ScriptValue

/-! What the evaluation of a variable may do, read off the configuration: the variables that it may ask for and the regular
expressions that it may run, through however many maps. A property that the writes of these keep is kept by the
evaluation. -/

namespace NginxDtls.Script

open Function (update)

/-! ### What a configuration allows -/

/-- A variable of the value, or of its flushes. -/
def ComplexValue.Mentions (cv : ComplexValue) (i : ℕ) : Prop :=
  match cv with
  | .text _ => False
  | .script flushes codes => i ∈ flushes ∨ .var i ∈ codes

/-- The map may be asked for the text: any one, unless its first parameter is constant. -/
def Map.LooksUp (m : Map) (subject : List UInt8) : Prop := ∀ text, m.value = .text text → subject = m.subject text

/-- What a map can find for a text, with the regular expression that matches. -/
inductive Map.Finds (m : Map) (subject : List UInt8) : Option Regex → MapValue → Prop where
  | name {value : MapValue} (hname : m.hash (strlow subject) = some value) : m.Finds subject none value
  | regex {pre post : List (Regex × MapValue)} {re : Regex} {value : MapValue} {groups : List (List UInt8)}
      (hname : m.hash (strlow subject) = none) (hne : subject ≠ []) (hregex : m.regex = pre ++ (re, value) :: post)
      (hpre : ∀ r ∈ pre, r.1.exec subject = .declined) (hexec : re.exec subject = .matched groups) :
      m.Finds subject (some re) value
  | default (hname : m.hash (strlow subject) = none) : m.Finds subject none m.defaultValue

/-- The variable is in the first parameter of the map, or in a value that it can find. -/
def Map.Asks (m : Map) (i : ℕ) : Prop :=
  m.value.Mentions i ∨ ∃ subject re cv, m.LooksUp subject ∧ m.Finds subject re (.complex cv) ∧ cv.Mentions i

/-- The regular expression can match. -/
def Map.Runs (m : Map) (re : Regex) : Prop := ∃ subject value, m.LooksUp subject ∧ m.Finds subject (some re) value

/-- The evaluation of a map asks for another variable. -/
def Asks (conf : List Variable) (u i : ℕ) : Prop := ∃ v m, conf[u]? = some v ∧ v.handler = .map m ∧ m.Asks i

/-- The evaluation of a map runs a regular expression that matches. -/
def Runs (conf : List Variable) (u : ℕ) (re : Regex) : Prop := ∃ v m, conf[u]? = some v ∧ v.handler = .map m ∧ m.Runs re

/-- The variables that are evaluated when `y` is, but for those that are known. -/
inductive Evaluates (conf : List Variable) (known : ℕ → Prop) (y : ℕ) : ℕ → Prop where
  | self : Evaluates conf known y y
  | ask {u i : ℕ} (hu : Evaluates conf known y u) (hasks : Asks conf u i) (hknown : ¬known i) : Evaluates conf known y i

/-! ### Asking for a variable -/

theorem getIndexed_cached {conf : List Variable} {junk : ℕ → UInt8} (depth : ℕ) {i : ℕ} (hi : i < conf.length) {s : Session}
    (hc : s.Cached i) : getIndexedVariable junk conf depth i s = (s, some (s.vars i)) := by
  cases depth with
  | zero => exact if_pos ⟨hi, hc⟩
  | succ depth =>
      unfold getIndexedVariable
      rw [List.getElem?_eq_getElem hi]
      exact if_pos hc

theorem getIndexed_unknown {conf : List Variable} {junk : ℕ → UInt8} (depth : ℕ) {i : ℕ} (hi : ¬i < conf.length)
    (s : Session) : getIndexedVariable junk conf depth i s = (s, none) := by
  cases depth with
  | zero => exact if_neg fun h => hi h.1
  | succ depth =>
      unfold getIndexedVariable
      rw [List.getElem?_eq_none (Nat.le_of_not_lt hi)]

/-! ### Properties that are kept -/

/-- A property of sessions that every write keeps when the variables of `R` are evaluated. A variable is written when it was
not cached at the start of its evaluation, and only one that is not cacheable is marked as such. -/
structure Kept (conf : List Variable) (R : ℕ → Prop) (I : Session → Prop) : Prop where
  flush : ∀ s u i, R u → Asks conf u i → I s → I (flushVariable s i)
  match_ : ∀ s u re groups, R u → Runs conf u re → I s → I (setCaptures re groups s)
  evaluate : ∀ s, I s → I { s with evaluations := s.evaluations + 1 }
  set : ∀ s s' i v value, conf[i]? = some v → (value.noCacheable → v.noCacheable ∨ (s'.vars i).noCacheable) →
    ¬s.Cached i → I s → I s' → I (s'.set i value)

theorem Kept.and {conf : List Variable} {R : ℕ → Prop} {I J : Session → Prop} (h : Kept conf R I) (h' : Kept conf R J) :
    Kept conf R fun s => I s ∧ J s where
  flush s u i hu hasks hs := ⟨h.flush s u i hu hasks hs.1, h'.flush s u i hu hasks hs.2⟩
  match_ s u re groups hu hruns hs := ⟨h.match_ s u re groups hu hruns hs.1, h'.match_ s u re groups hu hruns hs.2⟩
  evaluate s hs := ⟨h.evaluate s hs.1, h'.evaluate s hs.2⟩
  set s s' i v value hv hvalue hcached hs hs' :=
    ⟨h.set s s' i v value hv hvalue hcached hs.1 hs'.1, h'.set s s' i v value hv hvalue hcached hs.2 hs'.2⟩

section Kept

variable {conf : List Variable} {R : ℕ → Prop} {I : Session → Prop} {junk : ℕ → UInt8} {get : Get}

theorem flushVariables_keeps {flushes : List ℕ} (hflush : ∀ i ∈ flushes, ∀ s, I s → I (flushVariable s i)) {s : Session}
    (hs : I s) : I (flushVariables s flushes) := by
  unfold flushVariables
  induction flushes generalizing s with
  | nil => exact hs
  | cons i flushes ih =>
      exact ih (fun j hj => hflush j (List.mem_cons_of_mem _ hj)) (hflush i List.mem_cons_self s hs)

theorem lenCode_scriptCopyVar (get : Get) (i : ℕ) (s : Session) :
    (lenCode scriptCopyVar get (.var i) s).1 = (get i s).1 := by
  show (scriptCopyVar.varLen get i s).1 = _
  unfold Printer.varLen
  split
  · rename_i s' v hget
    rw [hget]
    split <;> rfl
  · rename_i s' hget
    rw [hget]

theorem copyCode_var (p : Printer) (get : Get) (i : ℕ) (s : Session) : (copyCode p get (.var i) s).1 = (get i s).1 := by
  show (p.varCopy get i s).1 = _
  unfold Printer.varCopy
  split
  · rename_i s' v hget
    rw [hget]
  · rename_i s' hget
    rw [hget]

theorem lengthPass_keeps {codes : List Code} (hget : ∀ i, .var i ∈ codes → ∀ s, I s → I (get i s).1) {s : Session}
    (hs : I s) : I (lengthPass scriptCopyVar get codes s).1 := by
  induction codes generalizing s with
  | nil => exact hs
  | cons c codes ih =>
      apply ih fun i hi => hget i (List.mem_cons_of_mem _ hi)
      cases c with
      | copy data => exact hs
      | var i =>
          rw [lenCode_scriptCopyVar]
          exact hget i List.mem_cons_self s hs
      | capture n => exact hs

theorem copyPass_keeps (p : Printer) {codes : List Code} (hget : ∀ i, .var i ∈ codes → ∀ s, I s → I (get i s).1)
    {s : Session} (hs : I s) : I (copyPass p get codes s).1 := by
  induction codes generalizing s with
  | nil => exact hs
  | cons c codes ih =>
      apply ih fun i hi => hget i (List.mem_cons_of_mem _ hi)
      cases c with
      | copy data => exact hs
      | var i =>
          rw [copyCode_var]
          exact hget i List.mem_cons_self s hs
      | capture n => exact hs

theorem complexValue_keeps {cv : ComplexValue} (hflush : ∀ i, cv.Mentions i → ∀ s, I s → I (flushVariable s i))
    (hget : ∀ i, cv.Mentions i → ∀ s, I s → I (get i s).1) {s : Session} (hs : I s) : I (complexValue get cv s).1 := by
  cases cv with
  | text value => exact hs
  | script flushes codes =>
      exact copyPass_keeps scriptCopyVar (fun i hi => hget i (.inr hi))
        (lengthPass_keeps (fun i hi => hget i (.inr hi)) (flushVariables_keeps (fun i hi => hflush i (.inl hi)) hs))

/-- A constant is given as it is. -/
theorem complexValue_text (get : Get) (text : List UInt8) (junk : ℕ → UInt8) (s : Session) :
    (complexValue get (.text text) s).2.text junk = text := by
  show (List.ofFn fun i : Fin text.length => text.getD i (junk i)) = text
  refine List.ext_getElem List.length_ofFn fun i h h' => ?_
  rw [List.getElem_ofFn]
  exact (List.getElem_eq_getD (junk i)).symm

/-- The loop over the regular expressions: one of them matches, behind others that do not. -/
theorem regexFind_cases (regex : List (Regex × MapValue)) (subject : List UInt8) (s : Session) :
    regexFind regex subject s = (s, none) ∨ ∃ pre post re value groups, regex = pre ++ (re, value) :: post ∧
      (∀ r ∈ pre, r.1.exec subject = .declined) ∧ re.exec subject = .matched groups ∧
      regexFind regex subject s = (setCaptures re groups s, some value) := by
  induction regex with
  | nil => exact .inl rfl
  | cons r regex ih =>
      obtain ⟨re, value⟩ := r
      rw [regexFind]
      cases hexec : re.exec subject with
      | matched groups => exact .inr ⟨[], regex, re, value, groups, rfl, fun _ hr => absurd hr List.not_mem_nil, hexec, rfl⟩
      | error => exact .inl rfl
      | declined =>
          refine ih.imp_right ?_
          rintro ⟨pre, post, re', value', groups, rfl, hpre, hmatch, hfind⟩
          exact ⟨(re, value) :: pre, post, re', value', groups, rfl, List.forall_mem_cons.mpr ⟨hexec, hpre⟩, hmatch, hfind⟩

/-- A look-up changes nothing unless a regular expression matches. -/
theorem mapFind_cases (m : Map) (subject : List UInt8) (s : Session) :
    ∃ re, m.Finds subject re ((mapFind m subject s).2.getD m.defaultValue) ∧
      ((mapFind m subject s).1 = s ∨ ∃ re' groups, re = some re' ∧ (mapFind m subject s).1 = setCaptures re' groups s) := by
  rw [mapFind]
  cases hname : m.hash (strlow subject) with
  | some value => exact ⟨none, .name hname, .inl rfl⟩
  | none =>
      dsimp only
      by_cases hne : subject = []
      · rw [if_pos hne]
        exact ⟨none, .default hname, .inl rfl⟩
      · rw [if_neg hne]
        rcases regexFind_cases m.regex subject s with hfind | ⟨pre, post, re, value, groups, hregex, hpre, hexec, hfind⟩
        · rw [hfind]
          exact ⟨none, .default hname, .inl rfl⟩
        · rw [hfind]
          exact ⟨some re, .regex hname hne hregex hpre hexec, .inr ⟨re, groups, rfl, rfl⟩⟩

theorem Kept.mapVariable (h : Kept conf R I) {i : ℕ} (hi : R i) {v : Variable} (hv : conf[i]? = some v) {m : Map}
    (hm : v.handler = .map m) (hget : ∀ j, Asks conf i j → ∀ s, I s → I (get j s).1) {s : Session}
    (hcached : ¬s.Cached i) (hs : I s) : I (Script.mapVariable junk get m i s) := by
  unfold Script.mapVariable
  have hasks : ∀ {j}, m.Asks j → Asks conf i j := fun hj => ⟨v, m, hv, hm, hj⟩
  have hsource : I (complexValue get m.value s).1 :=
    complexValue_keeps (fun j hj s hs => h.flush s i j hi (hasks (.inl hj)) hs) (fun j hj => hget j (hasks (.inl hj))) hs
  have hlooks : m.LooksUp (m.subject ((complexValue get m.value s).2.text junk)) := fun text htext => by
    rw [htext, complexValue_text]
  obtain ⟨re, hfinds, hstate⟩ :=
    mapFind_cases m (m.subject ((complexValue get m.value s).2.text junk)) (complexValue get m.value s).1
  have hfound : I (mapFind m (m.subject ((complexValue get m.value s).2.text junk)) (complexValue get m.value s).1).1 := by
    rcases hstate with hsame | ⟨re, groups, rfl, hset⟩
    · rw [hsame]
      exact hsource
    · rw [hset]
      exact h.match_ _ i re groups hi ⟨v, m, hv, hm, _, _, hlooks, hfinds⟩ hsource
  dsimp only
  generalize (mapFind m (m.subject ((complexValue get m.value s).2.text junk)) (complexValue get m.value s).1).2.getD
    m.defaultValue = value at hfinds ⊢
  cases value with
  | text data => exact h.set s _ i v _ hv (fun hn => absurd hn Bool.false_ne_true) hcached hs hfound
  | complex cv =>
      have hmentions : ∀ j, cv.Mentions j → m.Asks j := fun j hj => .inr ⟨_, re, cv, hlooks, hfinds, hj⟩
      exact h.set s _ i v _ hv (fun hn => absurd hn Bool.false_ne_true) hcached hs
        (complexValue_keeps (fun j hj s hs => h.flush s i j hi (hasks (hmentions j hj)) hs)
          (fun j hj => hget j (hasks (hmentions j hj))) hfound)

theorem Kept.call (h : Kept conf R I) {i : ℕ} (hi : R i) {v : Variable} (hv : conf[i]? = some v)
    (hget : ∀ j, Asks conf i j → ∀ s, I s → I (get j s).1) {s : Session} (hcached : ¬s.Cached i) (hs : I s) :
    I (v.handler.call junk get i s).1 := by
  unfold Handler.call
  cases hhandler : v.handler with
  | map m => exact h.mapVariable hi hv hhandler hget hcached hs
  | notFound => exact h.set s s i v _ hv .inr hcached hs hs
  | outside value =>
      dsimp only
      have hevaluate := h.evaluate s hs
      split
      · exact h.set s _ i v _ hv (fun hn => absurd hn Bool.false_ne_true) hcached hs hevaluate
      · exact h.set s _ i v _ hv .inr hcached hs hevaluate
      · exact hevaluate

/-- The evaluation of a variable keeps what its writes keep. What it asks for is evaluated as well or always cached. -/
theorem Kept.getIndexedVariable (h : Kept conf R I)
    (hasks : ∀ u i, R u → Asks conf u i → R i ∨ ∀ s, I s → i < conf.length → s.Cached i) (depth : ℕ) {i : ℕ} (hi : R i)
    {s : Session} (hs : I s) : I (Script.getIndexedVariable junk conf depth i s).1 := by
  induction depth generalizing i s with
  | zero =>
      unfold Script.getIndexedVariable
      split <;> exact hs
  | succ depth ih =>
      unfold Script.getIndexedVariable
      split
      · exact hs
      · rename_i v hv
        split
        · exact hs
        · rename_i hcached
          have hget : ∀ j, Asks conf i j → ∀ s, I s → I (Script.getIndexedVariable junk conf depth j s).1 := by
            intro j hj s hs
            rcases hasks i j hi hj with hR | hknown
            · exact ih hR hs
            · by_cases hj : j < conf.length
              · rw [getIndexed_cached depth hj (hknown s hs hj)]
                exact hs
              · rw [getIndexed_unknown depth hj]
                exact hs
          have hcall := @Kept.call conf R I junk _ h i hi v hv hget s hcached hs
          split
          · rename_i s' hs'
            rw [hs'] at hcall
            refine h.set s _ i v _ hv (fun hn => ?_) hcached hs hcall
            exact Bool.or_eq_true_iff.mp hn
          · rename_i s' hs'
            rw [hs'] at hcall
            exact h.set s _ i v _ hv .inr hcached hs hcall

end Kept

/-! ### Three properties that are kept -/

/-- Only variables that are not cacheable are marked as such. -/
def Consistent (conf : List Variable) (s : Session) : Prop :=
  ∀ i, (s.vars i).noCacheable → ∃ v, conf[i]? = some v ∧ v.noCacheable

theorem setNamed_vars {named : List (ℕ × ℕ)} (groups : List (List UInt8)) (s : Session) {i : ℕ}
    (h : ∀ n, (n, i) ∉ named) : (named.foldl (setNamed groups) s).vars i = s.vars i := by
  induction named generalizing s with
  | nil => rfl
  | cons v named ih =>
      rw [List.foldl_cons, ih _ fun n hmem => h n (List.mem_cons_of_mem _ hmem), setNamed, Session.set_vars]
      apply Function.update_of_ne
      rintro rfl
      exact h v.1 List.mem_cons_self

theorem setNamed_noCacheable (named : List (ℕ × ℕ)) (groups : List (List UInt8)) (s : Session) (i : ℕ)
    (h : ((named.foldl (setNamed groups) s).vars i).noCacheable = true) : (s.vars i).noCacheable = true := by
  induction named generalizing s with
  | nil => exact h
  | cons v named ih =>
      rw [List.foldl_cons] at h
      have hs := ih _ h
      rw [setNamed, Session.set_vars] at hs
      by_cases hv : i = v.2
      · rw [hv, Function.update_self] at hs
        exact absurd hs Bool.false_ne_true
      · rwa [Function.update_of_ne hv] at hs

theorem flushVariable_noCacheable (s : Session) (i j : ℕ) :
    ((flushVariable s i).vars j).noCacheable = (s.vars j).noCacheable := by
  unfold flushVariable
  split
  · rw [Session.set_vars]
    by_cases hj : j = i
    · rw [hj, Function.update_self]
    · rw [Function.update_of_ne hj]
  · rfl

theorem kept_consistent (conf : List Variable) (R : ℕ → Prop) : Kept conf R (Consistent conf) where
  flush s _ i _ _ hs j hj := hs j (flushVariable_noCacheable s i j ▸ hj)
  match_ s _ re groups _ _ hs j hj := hs j (setNamed_noCacheable re.named groups s j hj)
  evaluate s hs := hs
  set s s' i v value hv hvalue _ _ hs' := by
    intro j hj
    rw [Session.set_vars] at hj
    by_cases hij : j = i
    · rw [hij, Function.update_self] at hj
      rcases hvalue hj with hn | hn
      · exact ⟨v, hij ▸ hv, hn⟩
      · exact hij ▸ hs' i hn
    · rw [Function.update_of_ne hij] at hj
      exact hs' j hj

/-- A variable that is cached and cacheable. -/
def CachedFor (s : Session) (i : ℕ) : Prop := s.Cached i ∧ (s.vars i).noCacheable = false

theorem setNamed_cachedFor {named : List (ℕ × ℕ)} (groups : List (List UInt8)) {s : Session} {i : ℕ} (h : CachedFor s i) :
    CachedFor (named.foldl (setNamed groups) s) i := by
  induction named generalizing s with
  | nil => exact h
  | cons v named ih =>
      refine ih ?_
      by_cases hv : i = v.2
      · have hset : (setNamed groups s v).vars i =
            { s.vars i with data := groups.getD v.1 [], valid := true, noCacheable := false, notFound := false } := by
          rw [setNamed, Session.set_vars, hv, Function.update_self]
        exact ⟨.inr (by rw [hset]), by rw [hset]⟩
      · have hset : (setNamed groups s v).vars i = s.vars i := by
          rw [setNamed, Session.set_vars, Function.update_of_ne hv]
        rw [CachedFor, Session.Cached, hset]
        exact h

theorem flushVariable_of_ne {s : Session} {i j : ℕ} (h : i = j → (s.vars i).noCacheable = false) :
    (flushVariable s j).vars i = s.vars i := by
  unfold flushVariable
  split
  · rename_i hj
    rw [Session.set_vars, Function.update_of_ne]
    rintro rfl
    rw [h rfl] at hj
    exact absurd hj Bool.false_ne_true
  · rfl

/-- Variables that are cached for good. -/
theorem kept_cachedFor (conf : List Variable) (R known : ℕ → Prop) :
    Kept conf R fun s => ∀ i, known i → CachedFor s i where
  flush s _ j _ _ hs i hi := by
    obtain ⟨hcached, hcacheable⟩ := hs i hi
    rw [CachedFor, Session.Cached, flushVariable_of_ne fun _ => hcacheable]
    exact ⟨hcached, hcacheable⟩
  match_ s _ re groups _ _ hs i hi := setNamed_cachedFor groups (hs i hi)
  evaluate s hs := hs
  set s s' j v value _ _ hj hs hs' i hi := by
    have hne : i ≠ j := fun heq => hj (heq ▸ (hs i hi).1)
    rw [CachedFor, Session.Cached, Session.set_vars, Function.update_of_ne hne]
    exact hs' i hi

/-- The captures, when no regular expression is run. -/
theorem kept_groups {conf : List Variable} {R : ℕ → Prop} (hruns : ∀ u re, R u → ¬Runs conf u re)
    (groups : List (List UInt8)) : Kept conf R fun s => s.groups = groups where
  flush s _ j _ _ hs := by
    unfold flushVariable
    split
    · exact hs
    · exact hs
  match_ s u re groups hu hre _ := absurd hre (hruns u re hu)
  evaluate s hs := hs
  set s s' j v value _ _ _ _ hs' := hs'

/-- A variable that is cached, that no regular expression sets, and that is not asked for if it is not cacheable. -/
theorem kept_value {conf : List Variable} {R : ℕ → Prop} {i : ℕ} {value : Value} (hcached : value.notFound ∨ value.valid)
    (hflush : value.noCacheable = true → ∀ u, R u → ¬Asks conf u i)
    (hnamed : ∀ u re, R u → Runs conf u re → ∀ n, (n, i) ∉ re.named) : Kept conf R fun s => s.vars i = value where
  flush s u j hu hasks hs := by
    rw [flushVariable_of_ne, hs]
    rintro rfl
    rw [hs]
    exact Bool.eq_false_of_not_eq_true fun hn => hflush hn u hu hasks
  match_ s u re groups hu hre hs := by
    show (re.named.foldl (setNamed groups) s).vars i = value
    rw [setNamed_vars groups s (hnamed u re hu hre), hs]
  evaluate s hs := hs
  set s s' j v value' _ _ hj hs hs' := by
    rw [Session.set_vars, Function.update_of_ne, hs']
    rintro rfl
    rw [Session.Cached, hs] at hj
    exact hj hcached

end NginxDtls.Script
