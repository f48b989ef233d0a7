import NginxDtls.Locations
import Mathlib.Data.List.Lex
import Mathlib.Data.Prod.Lex

/-! The order of the names of locations: the slash is the lowest character, and a name is before those that it begins. The queue
of a level is sorted in this order, with an exact location before the inclusive one of its name, and joining them leaves each
name once. -/

namespace NginxDtls.Locations

variable {Conf : Type}

/-! ### Places -/

/-- Where a character has its place. -/
def rank (c : UInt8) : ℕ := if c = 0 then 0 else if c = 47 then 1 else c.toNat + 2

/-- Where a name has its place. -/
def place (name : List UInt8) : List ℕ := name.map rank

theorem rank_injective : Function.Injective rank := by
  intro c d h
  have hc : c.toNat = 0 → c = 0 := fun h0 => UInt8.toNat_inj.mp h0
  have hd : d.toNat = 0 → d = 0 := fun h0 => UInt8.toNat_inj.mp h0
  unfold rank at h
  split_ifs at h <;> first | omega | skip
  all_goals first | (subst_vars; rfl) | exact UInt8.toNat_inj.mp (by omega)

theorem place_injective : Function.Injective place := List.map_injective_iff.mpr rank_injective

@[simp] theorem place_nil : place [] = [] := rfl

@[simp] theorem place_cons (c : UInt8) (s : List UInt8) : place (c :: s) = rank c :: place s := rfl

theorem place_lt_cons {c d : UInt8} {s t : List UInt8} :
    place (c :: s) < place (d :: t) ↔ rank c < rank d ∨ c = d ∧ place s < place t := by
  rw [place_cons, place_cons, List.cons_lt_cons_iff, rank_injective.eq_iff]

/-- A name is not behind those that it begins. -/
theorem place_le_of_begins {a b : List UInt8} (h : a <+: b) : place a ≤ place b := by
  obtain ⟨t, rfl⟩ := h
  induction a with
  | nil => exact not_lt.mp (List.not_lt_nil _)
  | cons c a ih =>
      rw [List.cons_append, place_cons, place_cons, ← not_lt, List.cons_lt_cons_iff, not_or]
      exact ⟨lt_irrefl _, fun hand => absurd hand.2 (not_lt.mpr ih)⟩

/-- What is between a name and another one that it begins, begins with it too. -/
theorem prefix_of_between {a s u : List UInt8} (hbegins : a <+: u) (hlow : place a < place s) (hhigh : place s ≤ place u) :
    a <+: s := by
  induction a generalizing s u with
  | nil => exact List.nil_prefix
  | cons c a ih =>
      obtain ⟨t, rfl⟩ := hbegins
      cases s with
      | nil => exact absurd hlow (by simp)
      | cons d s =>
          rw [List.cons_append, ← not_lt, place_lt_cons] at hhigh
          rw [place_lt_cons] at hlow
          obtain ⟨hrank, htail⟩ := not_or.mp hhigh
          rcases hlow with hlt | ⟨rfl, hlow⟩
          · exact absurd hlt hrank
          · have hle : place s ≤ place (a ++ t) := not_lt.mp fun hlt => htail ⟨rfl, hlt⟩
            exact List.cons_prefix_cons.mpr ⟨rfl, ih ⟨t, rfl⟩ hlow hle⟩

theorem place_append_lt {p a b : List UInt8} : place (p ++ a) < place (p ++ b) ↔ place a < place b := by
  induction p with
  | nil => exact Iff.rfl
  | cons c p ih =>
      rw [List.cons_append, List.cons_append, place_lt_cons, ih]
      exact ⟨fun h => h.elim (fun hlt => absurd hlt (lt_irrefl _)) fun hand => hand.2, fun h => Or.inr ⟨rfl, h⟩⟩

/-! ### Comparing -/

/-- The three outcomes for two characters that differ. -/
theorem filenameCmp_head {c d : UInt8} {a b : List UInt8} (n : ℕ) (hcd : c ≠ d) :
    ngxFilenameCmp (c :: a) (d :: b) (n + 1) < 0 ∧ rank c < rank d ∨
      0 < ngxFilenameCmp (c :: a) (d :: b) (n + 1) ∧ rank d < rank c := by
  have hcmp : ngxFilenameCmp (c :: a) (d :: b) (n + 1) =
      if c = 0 ∨ d = 0 then (c.toNat : ℤ) - d.toNat
      else ((if c = 47 then 0 else c).toNat : ℤ) - (if d = 47 then 0 else d).toNat := by
    rw [ngxFilenameCmp]
    exact if_neg hcd
  have hmap : ∀ e : UInt8, (if e = 47 then 0 else e).toNat = if e.toNat = 47 then 0 else e.toNat := fun e => by
    rw [apply_ite UInt8.toNat, UInt8.toNat_zero]
    exact if_congr UInt8.toNat_inj.symm rfl rfl
  have hrank : ∀ e : UInt8, rank e = if e.toNat = 0 then 0 else if e.toNat = 47 then 1 else e.toNat + 2 := fun e =>
    if_congr UInt8.toNat_inj.symm rfl (if_congr UInt8.toNat_inj.symm rfl rfl)
  have hc : c = 0 ↔ c.toNat = 0 := UInt8.toNat_inj.symm
  have hd : d = 0 ↔ d.toNat = 0 := UInt8.toNat_inj.symm
  have hne : c.toNat ≠ d.toNat := fun h => hcd (UInt8.toNat_inj.mp h)
  rw [hcmp, hmap, hmap, hrank, hrank]
  simp only [hc, hd]
  split_ifs <;> omega

theorem filenameCmp_same {c : UInt8} (a b : List UInt8) (n : ℕ) (hc : c ≠ 0) :
    ngxFilenameCmp (c :: a) (c :: b) (n + 1) = ngxFilenameCmp a b n := by
  rw [ngxFilenameCmp, List.headD_cons, List.headD_cons, if_pos rfl, if_pos hc, List.tail_cons, List.tail_cons]

/-- The comparison of the first characters of two names. -/
theorem filenameCmp_cases {a b : List UInt8} {n : ℕ} (ha : n ≤ a.length) (hb : n ≤ b.length) (h0 : 0 ∉ a) :
    ngxFilenameCmp a b n < 0 ∧ place a < place b ∧ a.take n ≠ b.take n ∨
      ngxFilenameCmp a b n = 0 ∧ a.take n = b.take n ∨
      0 < ngxFilenameCmp a b n ∧ place b < place a ∧ a.take n ≠ b.take n := by
  induction n generalizing a b with
  | zero => exact Or.inr (Or.inl ⟨by rw [ngxFilenameCmp], rfl⟩)
  | succ n ih =>
      cases a with
      | nil => exact absurd ha (by simp)
      | cons c a =>
          cases b with
          | nil => exact absurd hb (by simp)
          | cons d b =>
              obtain ⟨hc, h0⟩ := not_or.mp (mt List.mem_cons.mpr h0)
              simp only [List.take_succ_cons]
              by_cases hcd : c = d
              · subst hcd
                rw [filenameCmp_same a b n (Ne.symm hc)]
                rcases ih (Nat.le_of_succ_le_succ ha) (Nat.le_of_succ_le_succ hb) h0 with
                  ⟨hcmp, hlt, hne⟩ | ⟨hcmp, heq⟩ | ⟨hcmp, hlt, hne⟩
                · exact Or.inl ⟨hcmp, place_lt_cons.mpr (Or.inr ⟨rfl, hlt⟩), fun h => hne (List.cons.inj h).2⟩
                · exact Or.inr (Or.inl ⟨hcmp, by rw [heq]⟩)
                · exact Or.inr (Or.inr ⟨hcmp, place_lt_cons.mpr (Or.inr ⟨rfl, hlt⟩), fun h => hne (List.cons.inj h).2⟩)
              · have htake : c :: a.take n ≠ d :: b.take n := fun h => hcd (List.cons.inj h).1
                rcases @filenameCmp_head c d a b n hcd with ⟨hcmp, hlt⟩ | ⟨hcmp, hlt⟩
                · exact Or.inl ⟨hcmp, place_lt_cons.mpr (Or.inl hlt), htake⟩
                · exact Or.inr (Or.inr ⟨hcmp, place_lt_cons.mpr (Or.inl hlt), htake⟩)

/-- The comparison of two names with what is behind the shorter one. -/
theorem filenameCmp_names {a b : List UInt8} (ha : 0 ∉ a) (hb : 0 ∉ b) :
    ngxFilenameCmp a b (min a.length b.length + 1) < 0 ∧ place a < place b ∨
      ngxFilenameCmp a b (min a.length b.length + 1) = 0 ∧ a = b ∨
      0 < ngxFilenameCmp a b (min a.length b.length + 1) ∧ place b < place a := by
  induction a generalizing b with
  | nil =>
      cases b with
      | nil => exact Or.inr (Or.inl ⟨rfl, rfl⟩)
      | cons d b =>
          have hd : d ≠ 0 := fun h => hb (h ▸ List.mem_cons_self)
          have hpos : d.toNat ≠ 0 := fun h => hd (UInt8.toNat_inj.mp h)
          refine Or.inl ⟨?_, by simp⟩
          simp only [ngxFilenameCmp, List.headD_nil, List.headD_cons, if_neg (Ne.symm hd), true_or, if_true]
          simp only [UInt8.toNat_zero]
          omega
  | cons c a ih =>
      obtain ⟨hc, ha⟩ := not_or.mp (mt List.mem_cons.mpr ha)
      cases b with
      | nil =>
          have hpos : c.toNat ≠ 0 := fun h => hc (UInt8.toNat_inj.mp h).symm
          refine Or.inr (Or.inr ⟨?_, by simp⟩)
          simp only [ngxFilenameCmp, List.headD_nil, List.headD_cons, if_neg (Ne.symm hc), or_true, if_true]
          simp only [UInt8.toNat_zero]
          omega
      | cons d b =>
          have hb' : 0 ∉ b := (not_or.mp (mt List.mem_cons.mpr hb)).2
          rw [List.length_cons, List.length_cons, Nat.succ_min_succ]
          by_cases hcd : c = d
          · subst hcd
            rw [Nat.succ_eq_add_one, filenameCmp_same a b _ (Ne.symm hc)]
            rcases ih ha hb' with ⟨hcmp, hlt⟩ | ⟨hcmp, rfl⟩ | ⟨hcmp, hlt⟩
            · exact Or.inl ⟨hcmp, place_lt_cons.mpr (Or.inr ⟨rfl, hlt⟩)⟩
            · exact Or.inr (Or.inl ⟨hcmp, rfl⟩)
            · exact Or.inr (Or.inr ⟨hcmp, place_lt_cons.mpr (Or.inr ⟨rfl, hlt⟩)⟩)
          · rcases @filenameCmp_head c d a b (min a.length b.length).succ hcd with ⟨hcmp, hlt⟩ | ⟨hcmp, hlt⟩
            · exact Or.inl ⟨hcmp, place_lt_cons.mpr (Or.inl hlt)⟩
            · exact Or.inr (Or.inr ⟨hcmp, place_lt_cons.mpr (Or.inl hlt)⟩)

/-! ### Sorting -/

section Sorted

variable {α κ : Type} [LinearOrder κ] {cmp : α → α → ℤ} {key : α → κ}

theorem insertBack_perm (cmp : α → α → ℤ) (before : List α) (q : α) : (insertBack cmp before q).Perm (q :: before) :=
  List.perm_orderedInsert ..

/-- What comes before, from its end, stays sorted. -/
theorem insertBack_sorted {before : List α} {q : α} (hcmp : ∀ p ∈ before, cmp p q ≤ 0 ↔ key p ≤ key q)
    (h : before.Pairwise fun p p' => key p' ≤ key p) : (insertBack cmp before q).Pairwise fun p p' => key p' ≤ key p := by
  induction before with
  | nil => exact List.pairwise_singleton ..
  | cons p before ih =>
      obtain ⟨hp, hbefore⟩ := List.pairwise_cons.mp h
      have hpq := hcmp p List.mem_cons_self
      rw [insertBack, List.orderedInsert]
      split
      · rename_i hle
        refine List.pairwise_cons.mpr ⟨fun p' hp' => ?_, h⟩
        rcases List.mem_cons.mp hp' with rfl | hp'
        · exact hpq.mp hle
        · exact (hp p' hp').trans (hpq.mp hle)
      · rename_i hnot
        have hqp : key q ≤ key p := le_of_not_ge fun hle => hnot (hpq.mpr hle)
        refine List.pairwise_cons.mpr ⟨fun p' hp' => ?_, ih (fun p' hp' => hcmp p' (List.mem_cons_of_mem _ hp')) hbefore⟩
        rcases List.mem_cons.mp ((insertBack_perm cmp before q).mem_iff.mp hp') with rfl | hp'
        · exact hqp
        · exact hp p' hp'

theorem foldl_insertBack {queue before : List α} (hcmp : ∀ p ∈ before ++ queue, ∀ q ∈ queue, cmp p q ≤ 0 ↔ key p ≤ key q)
    (h : before.Pairwise fun p p' => key p' ≤ key p) :
    (queue.foldl (insertBack cmp) before).Perm (before ++ queue) ∧
      (queue.foldl (insertBack cmp) before).Pairwise fun p p' => key p' ≤ key p := by
  induction queue generalizing before with
  | nil => exact ⟨by rw [List.append_nil, List.foldl_nil], h⟩
  | cons q queue ih =>
      have hperm := insertBack_perm cmp before q
      have hsorted := insertBack_sorted
        (fun p hp => hcmp p (List.mem_append_left _ hp) q List.mem_cons_self) h
      have hall : (insertBack cmp before q ++ queue).Perm (before ++ q :: queue) :=
        (hperm.append_right queue).trans List.perm_middle.symm
      obtain ⟨hperm', hsorted'⟩ := ih
        (fun p hp q' hq' => hcmp p (hall.mem_iff.mp hp) q' (List.mem_cons_of_mem _ hq')) hsorted
      exact ⟨hperm'.trans hall, hsorted'⟩

theorem ngxQueueSort_perm (cmp : α → α → ℤ) (queue : List α) : (ngxQueueSort cmp queue).Perm queue := by
  cases queue with
  | nil => exact List.Perm.refl _
  | cons q queue =>
      have hperm : ∀ before : List α, (queue.foldl (insertBack cmp) before).Perm (before ++ queue) := by
        induction queue with
        | nil => intro before; rw [List.append_nil, List.foldl_nil]
        | cons q' queue ih =>
            intro before
            exact (ih _).trans (((insertBack_perm cmp before q').append_right queue).trans List.perm_middle.symm)
      exact (List.reverse_perm _).trans (hperm [q])

/-- The queue is sorted, where the comparison is that of the keys. -/
theorem ngxQueueSort_sorted {queue : List α} (hcmp : ∀ p ∈ queue, ∀ q ∈ queue, cmp p q ≤ 0 ↔ key p ≤ key q) :
    (ngxQueueSort cmp queue).Pairwise fun p q => key p ≤ key q := by
  cases queue with
  | nil => exact List.Pairwise.nil
  | cons q queue =>
      rw [ngxQueueSort, List.pairwise_reverse]
      exact (foldl_insertBack (fun p hp q' hq' => hcmp p hp q' (List.mem_cons_of_mem _ hq'))
        (List.pairwise_singleton ..)).2

end Sorted

/-! ### The queue of a level -/

/-- A location with a name of bytes other than zero, with no other kind of match, and not redirected. -/
structure Static (l : CoreLocConf Conf) : Prop where
  noname : l.noname = false
  named : l.named = false
  regex : l.regex = false
  autoRedirect : l.autoRedirect = false
  ne : l.name ≠ []
  nul : 0 ∉ l.name

/-- The place of a name, and of one name first the exact location. -/
def keyOf (name : List UInt8) (exact : Bool) : List ℕ ×ₗ ℕ := toLex (place name, if exact then 0 else 1)

theorem cmpConfs_le {first second : CoreLocConf Conf} (hfirst : Static first) (hsecond : Static second) :
    cmpConfs first second ≤ 0 ↔ keyOf first.name first.exactMatch ≤ keyOf second.name second.exactMatch := by
  have hcmp : cmpConfs first second =
      if ngxFilenameCmp first.name second.name (min first.name.length second.name.length + 1) = 0 ∧
        ¬first.exactMatch ∧ second.exactMatch then 1
      else ngxFilenameCmp first.name second.name (min first.name.length second.name.length + 1) := by
    simp [cmpConfs, hfirst.noname, hfirst.named, hfirst.regex, hsecond.noname, hsecond.named, hsecond.regex]
  rw [hcmp, keyOf, keyOf, Prod.Lex.toLex_le_toLex]
  rcases filenameCmp_names hfirst.nul hsecond.nul with ⟨hneg, hlt⟩ | ⟨hzero, heq⟩ | ⟨hpos, hlt⟩
  · rw [if_neg (fun hand => absurd hand.1 hneg.ne)]
    exact ⟨fun _ => Or.inl hlt, fun _ => hneg.le⟩
  · rw [hzero, heq]
    cases first.exactMatch <;> cases second.exactMatch <;> simp
  · rw [if_neg (fun hand => absurd hand.1 hpos.ne')]
    refine ⟨fun hle => absurd hle (not_le.mpr hpos), ?_⟩
    rintro (hlt' | ⟨heq, -⟩)
    · exact absurd hlt' (lt_asymm hlt)
    · exact absurd (le_of_eq heq) (not_le.mpr hlt)

/-- The location is one of the two of its name. -/
def LocationQueue.Own (lq : LocationQueue Conf) (l : CoreLocConf Conf) : Prop := lq.exact = some l ∨ lq.inclusive = some l

/-- A queue element with the locations of its name, and without a list so far. -/
structure Made (lq : LocationQueue Conf) : Prop where
  exact : ∀ l, lq.exact = some l → l.name = lq.name ∧ l.exactMatch = true
  inclusive : ∀ l, lq.inclusive = some l → l.name = lq.name ∧ l.exactMatch = false
  some : lq.exact = none → lq.inclusive ≠ none
  list : lq.list = []
  ne : lq.name ≠ []
  nul : 0 ∉ lq.name

/-- The order of two elements of the sorted queue: by their names, and of one name first the exact one. -/
def Before (a b : LocationQueue Conf) : Prop :=
  place a.name < place b.name ∨ a.name = b.name ∧ a.inclusive = none ∧ b.exact = none

theorem addLocation_cases {l : CoreLocConf Conf} (h : Static l) :
    (l.exactMatch = true ∧ ngxHttpAddLocation l = .mk (some l) none l.name []) ∨
      l.exactMatch = false ∧ ngxHttpAddLocation l = .mk none (some l) l.name [] := by
  rw [ngxHttpAddLocation, h.noname, h.named, h.regex]
  cases hexact : l.exactMatch
  · exact Or.inr ⟨rfl, if_neg (by simp)⟩
  · exact Or.inl ⟨rfl, if_pos (Or.inl rfl)⟩

theorem addLocation_made {l : CoreLocConf Conf} (h : Static l) : Made (ngxHttpAddLocation l) := by
  have hself : ∀ {m : CoreLocConf Conf}, some l = some m → m.name = l.name ∧ m.exactMatch = l.exactMatch := fun heq => by
    obtain rfl := Option.some.inj heq
    exact ⟨rfl, rfl⟩
  rcases addLocation_cases h with ⟨hexact, hadd⟩ | ⟨hexact, hadd⟩
  · rw [hadd]
    exact
      { exact := fun m hm => hexact ▸ hself hm
        inclusive := fun m hm => absurd hm.symm (Option.some_ne_none m)
        some := fun hnone => absurd hnone (Option.some_ne_none l)
        list := rfl
        ne := h.ne
        nul := h.nul }
  · rw [hadd]
    exact
      { exact := fun m hm => absurd hm.symm (Option.some_ne_none m)
        inclusive := fun m hm => hexact ▸ hself hm
        some := fun _ => Option.some_ne_none l
        list := rfl
        ne := h.ne
        nul := h.nul }

theorem addLocation_own {l m : CoreLocConf Conf} (h : Static l) : (ngxHttpAddLocation l).Own m ↔ m = l := by
  rcases addLocation_cases h with ⟨-, hadd⟩ | ⟨-, hadd⟩
  · rw [hadd]
    simp [LocationQueue.Own, LocationQueue.exact, LocationQueue.inclusive, eq_comm]
  · rw [hadd]
    simp [LocationQueue.Own, LocationQueue.exact, LocationQueue.inclusive, eq_comm]

theorem addLocation_clcf {l : CoreLocConf Conf} (h : Static l) : (ngxHttpAddLocation l).clcf = some l := by
  rcases addLocation_cases h with ⟨-, hadd⟩ | ⟨-, hadd⟩
  · rw [hadd]
    rfl
  · rw [hadd]
    rfl

/-- What an element of the queue is at first. -/
theorem addLocation_parts {l : CoreLocConf Conf} (h : Static l) : (ngxHttpAddLocation l).name = l.name ∧
    (ngxHttpAddLocation l).exact.isSome = l.exactMatch ∧ (ngxHttpAddLocation l).inclusive.isSome = !l.exactMatch := by
  rcases addLocation_cases h with ⟨hexact, hadd⟩ | ⟨hexact, hadd⟩
  · rw [hadd, hexact]
    exact ⟨rfl, rfl, rfl⟩
  · rw [hadd, hexact]
    exact ⟨rfl, rfl, rfl⟩

/-- The locations of a level: no two of one kind with one name, and each with a configuration of its own. -/
structure Level (confs : List (CoreLocConf Conf)) : Prop where
  static : ∀ l ∈ confs, Static l
  distinct : confs.Pairwise fun l m => ¬(l.name = m.name ∧ l.exactMatch = m.exactMatch)
  confs : (confs.map CoreLocConf.locConf).Nodup

/-- The sorted queue. -/
theorem sorted_before {confs : List (CoreLocConf Conf)} (h : Level confs) :
    (ngxQueueSort ngxHttpCmpLocations (confs.map ngxHttpAddLocation)).Pairwise Before := by
  have hperm := ngxQueueSort_perm ngxHttpCmpLocations (confs.map ngxHttpAddLocation)
  have hsorted : (ngxQueueSort ngxHttpCmpLocations (confs.map ngxHttpAddLocation)).Pairwise fun a b =>
      keyOf a.name a.exact.isSome ≤ keyOf b.name b.exact.isSome := by
    refine ngxQueueSort_sorted fun a ha b hb => ?_
    obtain ⟨l, hl, rfl⟩ := List.mem_map.mp ha
    obtain ⟨m, hm, rfl⟩ := List.mem_map.mp hb
    obtain ⟨hname, hexact, -⟩ := addLocation_parts (h.static l hl)
    obtain ⟨hname', hexact', -⟩ := addLocation_parts (h.static m hm)
    rw [ngxHttpCmpLocations, addLocation_clcf (h.static l hl), addLocation_clcf (h.static m hm), hname, hexact, hname', hexact']
    exact cmpConfs_le (h.static l hl) (h.static m hm)
  have hdistinct : (ngxQueueSort ngxHttpCmpLocations (confs.map ngxHttpAddLocation)).Pairwise fun a b =>
      ¬(a.name = b.name ∧ a.exact.isSome = b.exact.isSome) := by
    refine (hperm.pairwise_iff fun hab hand => hab ⟨hand.1.symm, hand.2.symm⟩).mpr ?_
    refine List.pairwise_map.mpr (h.distinct.imp_of_mem fun hl hm hne => ?_)
    obtain ⟨hname, hexact, -⟩ := addLocation_parts (h.static _ hl)
    obtain ⟨hname', hexact', -⟩ := addLocation_parts (h.static _ hm)
    rw [hname, hexact, hname', hexact']
    exact hne
  refine (hsorted.and hdistinct).imp_of_mem fun {a b} ha hb hand => ?_
  obtain ⟨hle, hne⟩ := hand
  obtain ⟨l, hl, rfl⟩ := List.mem_map.mp (hperm.mem_iff.mp ha)
  obtain ⟨m, hm, rfl⟩ := List.mem_map.mp (hperm.mem_iff.mp hb)
  obtain ⟨hname, hexact, hinclusive⟩ := addLocation_parts (h.static l hl)
  obtain ⟨hname', hexact', -⟩ := addLocation_parts (h.static m hm)
  rw [keyOf, keyOf, Prod.Lex.toLex_le_toLex] at hle
  rcases hle with hlt | ⟨heq, hkind⟩
  · exact Or.inl hlt
  · have hsame := place_injective heq
    refine Or.inr ⟨hsame, ?_⟩
    rw [hexact, hexact'] at hkind hne
    cases hl' : l.exactMatch <;> cases hm' : m.exactMatch <;> rw [hl', hm'] at hkind hne
    · exact absurd ⟨hsame, rfl⟩ hne
    · exact absurd hkind (Nat.not_succ_le_zero 0)
    · rw [hl'] at hinclusive
      rw [hm'] at hexact'
      exact ⟨Option.not_isSome_iff_eq_none.mp (by simp [hinclusive]), Option.not_isSome_iff_eq_none.mp (by simp [hexact'])⟩
    · exact absurd ⟨hsame, rfl⟩ hne

/-! ### Joining -/

theorem Made.own_name {lq : LocationQueue Conf} {l : CoreLocConf Conf} (h : Made lq) (hl : lq.Own l) : l.name = lq.name := by
  rcases hl with hl | hl
  · exact (h.exact l hl).1
  · exact (h.inclusive l hl).1

theorem Made.exists_own {lq : LocationQueue Conf} (h : Made lq) : ∃ l, lq.Own l := by
  cases hexact : lq.exact with
  | some l => exact ⟨l, Or.inl hexact⟩
  | none =>
      obtain ⟨l, hl⟩ := Option.ne_none_iff_exists'.mp (h.some hexact)
      exact ⟨l, Or.inr hl⟩

/-- The exact location of a name takes in the inclusive one. -/
theorem Made.join {lq lx : LocationQueue Conf} (hq : Made lq) (hx : Made lx) (hname : lq.name = lx.name)
    (hnone : lx.exact = none) : Made (lq.withInclusive lx.inclusive) where
  exact := hq.exact
  inclusive := fun l hl => by
    obtain ⟨heq, hkind⟩ := hx.inclusive l hl
    exact ⟨heq.trans hname.symm, hkind⟩
  some := fun _ => hx.some hnone
  list := hq.list
  ne := hq.ne
  nul := hq.nul

theorem filenameCmp_eq_zero {a b : List UInt8} (ha : 0 ∉ a) :
    a.length = b.length ∧ ngxFilenameCmp a b b.length = 0 ↔ a = b := by
  constructor
  · rintro ⟨hlength, hcmp⟩
    rcases filenameCmp_cases hlength.ge (le_refl _) ha with ⟨hneg, -⟩ | ⟨-, heq⟩ | ⟨hpos, -⟩
    · exact absurd hcmp hneg.ne
    · rwa [← hlength, List.take_length, hlength, List.take_length] at heq
    · exact absurd hcmp hpos.ne'
  · rintro rfl
    refine ⟨rfl, ?_⟩
    rcases filenameCmp_cases (le_refl a.length) (le_refl _) ha with ⟨-, hlt, -⟩ | ⟨hcmp, -⟩ | ⟨-, hlt, -⟩
    · exact absurd hlt (lt_irrefl _)
    · exact hcmp
    · exact absurd hlt (lt_irrefl _)

/-- No name is in the queue twice when the exact locations are joined with the inclusive ones, and no location is lost. -/
theorem join_spec {queue : List (LocationQueue Conf)} (hmade : ∀ q ∈ queue, Made q) (hsorted : queue.Pairwise Before) :
    ∃ joined, ngxHttpJoinExactLocations queue = some joined ∧ (∀ q ∈ joined, Made q) ∧
      (joined.Pairwise fun a b => place a.name < place b.name) ∧
      ∀ l, (∃ q ∈ joined, q.Own l) ↔ ∃ q ∈ queue, q.Own l := by
  fun_induction ngxHttpJoinExactLocations queue with
  | case1 lq lx queue heq hdup =>
      have hname := (filenameCmp_eq_zero (hmade lq List.mem_cons_self).nul).mp heq
      rcases (List.pairwise_cons.mp hsorted).1 lx List.mem_cons_self with hlt | ⟨-, hinclusive, hexact⟩
      · rw [hname] at hlt
        exact absurd hlt (lt_irrefl _)
      · rw [hinclusive, hexact] at hdup
        simp at hdup
  | case2 lq lx queue heq hdup ih =>
      have hq := hmade lq List.mem_cons_self
      have hx := hmade lx (List.mem_cons_of_mem _ List.mem_cons_self)
      have hname := (filenameCmp_eq_zero hq.nul).mp heq
      obtain ⟨hlq, hrest⟩ := List.pairwise_cons.mp hsorted
      obtain ⟨hlx, hqueue⟩ := List.pairwise_cons.mp hrest
      obtain ⟨-, hinclusive, hexact⟩ : lq.name = lx.name ∧ lq.inclusive = none ∧ lx.exact = none := by
        rcases hlq lx List.mem_cons_self with hlt | hsame
        · rw [hname] at hlt
          exact absurd hlt (lt_irrefl _)
        · exact hsame
      have hmade' : ∀ q ∈ lq.withInclusive lx.inclusive :: queue, Made q := fun q hmem => by
        rcases List.mem_cons.mp hmem with rfl | hmem
        · exact hq.join hx hname hexact
        · exact hmade q (List.mem_cons_of_mem _ (List.mem_cons_of_mem _ hmem))
      have hsorted' : (lq.withInclusive lx.inclusive :: queue).Pairwise Before := by
        refine List.pairwise_cons.mpr ⟨fun c hc => Or.inl ?_, hqueue⟩
        rcases hlq c (List.mem_cons_of_mem _ hc) with hlt | ⟨hsame, -, -⟩
        · exact hlt
        · rcases hlx c hc with hlt | ⟨-, hnone, -⟩
          · rw [← hname] at hlt
            exact hlt
          · exact absurd hnone (hx.some hexact)
      obtain ⟨joined, hjoin, hall, hpairwise, hown⟩ := ih hmade' hsorted'
      refine ⟨joined, hjoin, hall, hpairwise, fun l => (hown l).trans ?_⟩
      have hboth : (lq.withInclusive lx.inclusive).Own l ↔ lq.Own l ∨ lx.Own l := by
        rw [LocationQueue.Own, LocationQueue.Own, LocationQueue.Own, hinclusive, hexact]
        show lq.exact = some l ∨ lx.inclusive = some l ↔ _
        simp
      rw [List.exists_mem_cons_iff, List.exists_mem_cons_iff, List.exists_mem_cons_iff, hboth, or_assoc]
  | case3 lq lx queue hne ih =>
      obtain ⟨hlq, hrest⟩ := List.pairwise_cons.mp hsorted
      have hless : ∀ c ∈ lx :: queue, place lq.name < place c.name := by
        have hlx : place lq.name < place lx.name := by
          rcases hlq lx List.mem_cons_self with hlt | ⟨hname, -⟩
          · exact hlt
          · exact absurd ((filenameCmp_eq_zero (hmade lq List.mem_cons_self).nul).mpr hname) hne
        intro c hc
        rcases List.mem_cons.mp hc with rfl | hc
        · exact hlx
        · rcases (List.pairwise_cons.mp hrest).1 c hc with hlt | ⟨hname, -⟩
          · exact hlx.trans hlt
          · exact hname ▸ hlx
      obtain ⟨joined, hjoin, hall, hpairwise, hown⟩ := ih (fun q hmem => hmade q (List.mem_cons_of_mem _ hmem)) hrest
      rw [hjoin]
      refine ⟨lq :: joined, rfl, ?_, List.pairwise_cons.mpr ⟨fun c hc => ?_, hpairwise⟩, fun l => ?_⟩
      · intro q hmem
        rcases List.mem_cons.mp hmem with rfl | hmem
        · exact hmade q List.mem_cons_self
        · exact hall q hmem
      · obtain ⟨l, hl⟩ := (hall c hc).exists_own
        obtain ⟨q, hmem, hq⟩ := (hown l).mp ⟨c, hc, hl⟩
        have hname := ((hall c hc).own_name hl).symm.trans ((hmade q (List.mem_cons_of_mem _ hmem)).own_name hq)
        rw [hname]
        exact hless q hmem
      · rw [List.exists_mem_cons_iff, List.exists_mem_cons_iff, hown l]
  | case4 queue hshort =>
      refine ⟨queue, rfl, hmade, ?_, fun l => Iff.rfl⟩
      match queue, hshort with
      | [], _ => exact List.Pairwise.nil
      | [q], _ => exact List.pairwise_singleton ..
      | lq :: lx :: rest, hshort => exact absurd rfl (hshort lq lx rest)

end NginxDtls.Locations
