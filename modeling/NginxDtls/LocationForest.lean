import NginxDtls.LocationOrder
import Mathlib.Data.List.TakeWhile

/-! The nested lists of locations: below an inclusive location are those whose names begin with its name, and beside it none of
them is left. -/

namespace NginxDtls.Locations

variable {Conf : Type}

/-! ### Nested lists -/

/-- An element of a list below a location of the name `pre`. -/
structure Fine (pre : List UInt8) (q : LocationQueue Conf) : Prop where
  exact : ∀ l, q.exact = some l → l.name = q.name ∧ l.exactMatch = true
  inclusive : ∀ l, q.inclusive = some l → l.name = q.name ∧ l.exactMatch = false
  some : q.exact = none → q.inclusive ≠ none
  leaf : q.inclusive = none → q.list = []
  inside : pre <+: q.name
  ne : q.name ≠ pre
  nul : 0 ∉ q.name

/-- Two elements of one list. -/
def Beside (a b : LocationQueue Conf) : Prop :=
  place a.name < place b.name ∧ (a.inclusive ≠ none → ¬a.name <+: b.name)

/-- Lists in lists, below a location of the name `pre`. -/
inductive Nested : List UInt8 → List (LocationQueue Conf) → Prop where
  | mk {pre : List UInt8} {forest : List (LocationQueue Conf)} (sorted : forest.Pairwise Beside)
      (fine : ∀ q ∈ forest, Fine pre q) (below : ∀ q ∈ forest, Nested q.name q.list) : Nested pre forest

/-- The location is somewhere in the lists. -/
inductive Holds (l : CoreLocConf Conf) : List (LocationQueue Conf) → Prop where
  | own {q : LocationQueue Conf} {forest : List (LocationQueue Conf)} (mem : q ∈ forest) (own : q.Own l) : Holds l forest
  | inner {q : LocationQueue Conf} {forest : List (LocationQueue Conf)} (mem : q ∈ forest) (holds : Holds l q.list) :
      Holds l forest

theorem Fine.own_name {pre : List UInt8} {q : LocationQueue Conf} {l : CoreLocConf Conf} (h : Fine pre q) (hl : q.Own l) :
    l.name = q.name := by
  rcases hl with hl | hl
  · exact (h.exact l hl).1
  · exact (h.inclusive l hl).1

theorem Fine.exists_own {pre : List UInt8} {q : LocationQueue Conf} (h : Fine pre q) : ∃ l, q.Own l := by
  cases hexact : q.exact with
  | some l => exact ⟨l, Or.inl hexact⟩
  | none =>
      obtain ⟨l, hl⟩ := Option.ne_none_iff_exists'.mp (h.some hexact)
      exact ⟨l, Or.inr hl⟩

theorem nested_nil (pre : List UInt8) : Nested pre ([] : List (LocationQueue Conf)) :=
  ⟨List.Pairwise.nil, fun _ hmem => absurd hmem List.not_mem_nil, fun _ hmem => absurd hmem List.not_mem_nil⟩

theorem not_holds_nil {l : CoreLocConf Conf} : ¬Holds l [] := by
  rintro (⟨hmem, -⟩ | ⟨hmem, -⟩)
  · cases hmem
  · cases hmem

theorem holds_cons {l : CoreLocConf Conf} {q : LocationQueue Conf} {forest : List (LocationQueue Conf)} :
    Holds l (q :: forest) ↔ q.Own l ∨ Holds l q.list ∨ Holds l forest := by
  constructor
  · rintro (⟨hmem, hown⟩ | ⟨hmem, hbelow⟩)
    · rcases List.mem_cons.mp hmem with rfl | hmem
      · exact Or.inl hown
      · exact Or.inr (Or.inr (.own hmem hown))
    · rcases List.mem_cons.mp hmem with rfl | hmem
      · exact Or.inr (Or.inl hbelow)
      · exact Or.inr (Or.inr (.inner hmem hbelow))
  · rintro (hown | hbelow | ⟨hmem, hown⟩ | ⟨hmem, hbelow⟩)
    · exact .own List.mem_cons_self hown
    · exact .inner List.mem_cons_self hbelow
    · exact .own (List.mem_cons_of_mem _ hmem) hown
    · exact .inner (List.mem_cons_of_mem _ hmem) hbelow

theorem holds_append {l : CoreLocConf Conf} {left right : List (LocationQueue Conf)} :
    Holds l (left ++ right) ↔ Holds l left ∨ Holds l right := by
  induction left with
  | nil => exact ⟨Or.inr, fun h => h.elim (fun hnil => absurd hnil not_holds_nil) id⟩
  | cons q left ih => rw [List.cons_append, holds_cons, holds_cons, ih, or_assoc, or_assoc]

/-- The lists on both sides of an element, and the one below it. -/
theorem Nested.split {pre : List UInt8} {left right : List (LocationQueue Conf)} {q : LocationQueue Conf}
    (h : Nested pre (left ++ q :: right)) : Nested pre left ∧ Nested pre right ∧ Nested q.name q.list ∧ Fine pre q ∧
      (∀ r ∈ left, Beside r q) ∧ ∀ r ∈ right, Beside q r := by
  obtain ⟨hsorted, hfine, hbelow⟩ := h
  obtain ⟨hleft, hright, hacross⟩ := List.pairwise_append.mp hsorted
  obtain ⟨hq, hright⟩ := List.pairwise_cons.mp hright
  have hmem : q ∈ left ++ q :: right := List.mem_append_right _ List.mem_cons_self
  have hinl : ∀ r ∈ left, r ∈ left ++ q :: right := fun r hr => List.mem_append_left _ hr
  have hinr : ∀ r ∈ right, r ∈ left ++ q :: right := fun r hr => List.mem_append_right _ (List.mem_cons_of_mem _ hr)
  exact ⟨⟨hleft, fun r hr => hfine r (hinl r hr), fun r hr => hbelow r (hinl r hr)⟩,
    ⟨hright, fun r hr => hfine r (hinr r hr), fun r hr => hbelow r (hinr r hr)⟩, hbelow q hmem, hfine q hmem,
    fun r hr => hacross r hr q List.mem_cons_self, hq⟩

/-- A location in the lists is that of an element, or in the list below an element. -/
theorem Nested.root {pre : List UInt8} {forest : List (LocationQueue Conf)} {l : CoreLocConf Conf} (h : Nested pre forest)
    (hl : Holds l forest) : ∃ q ∈ forest, q.name <+: l.name ∧ (q.Own l ∨ q.inclusive ≠ none ∧ Holds l q.list ∧ q.name ≠ l.name) := by
  induction hl generalizing pre with
  | @own q forest hmem hown =>
      obtain ⟨-, hfine, -⟩ := h
      exact ⟨q, hmem, (hfine q hmem).own_name hown ▸ List.prefix_refl _, Or.inl hown⟩
  | @inner q forest hmem hholds ih =>
      obtain ⟨-, hfine, hbelow⟩ := h
      obtain ⟨r, hr, hname, -⟩ := ih (hbelow q hmem)
      have hsome : q.inclusive ≠ none := fun hnone => by
        rw [(hfine q hmem).leaf hnone] at hr
        cases hr
      obtain ⟨-, hfine', -⟩ := hbelow q hmem
      have hlonger := hfine' r hr
      refine ⟨q, hmem, hlonger.inside.trans hname, Or.inr ⟨hsome, hholds, fun heq => hlonger.ne ?_⟩⟩
      rw [← heq] at hname
      exact hname.eq_of_length_le hlonger.inside.length_le

/-! ### Making them -/

/-- A queue before its locations are put into lists. -/
structure Flat (pre : List UInt8) (queue : List (LocationQueue Conf)) : Prop where
  made : ∀ q ∈ queue, Made q
  sorted : queue.Pairwise fun a b => place a.name < place b.name
  inside : ∀ q ∈ queue, pre <+: q.name ∧ q.name ≠ pre

/-- The lists have the locations of the queue. -/
structure Listed (pre : List UInt8) (queue forest : List (LocationQueue Conf)) : Prop where
  nested : Nested pre forest
  holds : ∀ l, Holds l forest ↔ ∃ q ∈ queue, q.Own l
  names : ∀ r ∈ forest, ∃ q ∈ queue, r.name = q.name

theorem below_iff {name : List UInt8} {lx : LocationQueue Conf} (h0 : 0 ∉ name) : below name lx = true ↔ name <+: lx.name := by
  rw [below, decide_eq_true_eq, not_or, not_lt, not_not]
  constructor
  · rintro ⟨hle, hcmp⟩
    rcases filenameCmp_cases (le_refl _) hle h0 with ⟨hneg, -⟩ | ⟨-, heq⟩ | ⟨hpos, -⟩
    · exact absurd hcmp hneg.ne
    · rw [List.take_length] at heq
      exact heq ▸ List.take_prefix ..
    · exact absurd hcmp hpos.ne'
  · intro hbegins
    refine ⟨hbegins.length_le, ?_⟩
    have htake : name.take name.length = lx.name.take name.length := by
      rw [List.take_length]
      exact List.prefix_iff_eq_take.mp hbegins
    rcases filenameCmp_cases (le_refl _) hbegins.length_le h0 with ⟨-, -, hne⟩ | ⟨hcmp, -⟩ | ⟨-, -, hne⟩
    · exact absurd htake hne
    · exact hcmp
    · exact absurd htake hne

theorem Listed.nil (pre : List UInt8) : Listed pre ([] : List (LocationQueue Conf)) [] :=
  ⟨nested_nil pre, fun _ => ⟨fun h => absurd h not_holds_nil, fun ⟨_, hmem, _⟩ => absurd hmem List.not_mem_nil⟩,
    fun _ hmem => absurd hmem List.not_mem_nil⟩

/-- An element with the list below it, before the others. -/
theorem Listed.cons {pre : List UInt8} {lq : LocationQueue Conf} {list tail sub forest : List (LocationQueue Conf)}
    (hflat : Flat pre (lq :: (list ++ tail))) (hleaf : lq.inclusive = none → list = [])
    (htail : lq.inclusive ≠ none → ∀ r ∈ tail, ¬lq.name <+: r.name) (hsub : Listed lq.name list sub)
    (hforest : Listed pre tail forest) : Listed pre (lq :: (list ++ tail)) (lq.withList sub :: forest) := by
  have hmade := hflat.made lq List.mem_cons_self
  obtain ⟨hinside, hne⟩ := hflat.inside lq List.mem_cons_self
  obtain ⟨hlq, -⟩ := List.pairwise_cons.mp hflat.sorted
  have hfine : Fine pre (lq.withList sub) :=
    { exact := hmade.exact
      inclusive := hmade.inclusive
      some := hmade.some
      leaf := fun hnone => by
        show sub = []
        refine List.eq_nil_iff_forall_not_mem.mpr fun r hr => ?_
        obtain ⟨q, hq, -⟩ := hsub.names r hr
        rw [hleaf hnone] at hq
        cases hq
      inside := hinside
      ne := hne
      nul := hmade.nul }
  have hbeside : ∀ r ∈ forest, Beside (lq.withList sub) r := by
    intro r hr
    obtain ⟨q, hq, hname⟩ := hforest.names r hr
    refine ⟨?_, fun hsome => ?_⟩
    · rw [hname]
      exact hlq q (List.mem_append_right _ hq)
    · rw [hname]
      exact htail hsome q hq
  obtain ⟨hsorted, hfines, hbelow⟩ := hforest.nested
  refine ⟨⟨List.pairwise_cons.mpr ⟨hbeside, hsorted⟩, List.forall_mem_cons.mpr ⟨hfine, hfines⟩,
    List.forall_mem_cons.mpr ⟨hsub.nested, hbelow⟩⟩, fun l => ?_, fun r hr => ?_⟩
  · rw [holds_cons, List.exists_mem_cons_iff, hforest.holds l]
    have hlist : Holds l (lq.withList sub).list ↔ ∃ q ∈ list, q.Own l := hsub.holds l
    rw [hlist]
    refine or_congr Iff.rfl ?_
    constructor
    · rintro (⟨q, hq, hown⟩ | ⟨q, hq, hown⟩)
      · exact ⟨q, List.mem_append_left _ hq, hown⟩
      · exact ⟨q, List.mem_append_right _ hq, hown⟩
    · rintro ⟨q, hq, hown⟩
      rcases List.mem_append.mp hq with hq | hq
      · exact Or.inl ⟨q, hq, hown⟩
      · exact Or.inr ⟨q, hq, hown⟩
  · rcases List.mem_cons.mp hr with rfl | hr
    · exact ⟨lq, List.mem_cons_self, rfl⟩
    · obtain ⟨q, hq, hname⟩ := hforest.names r hr
      exact ⟨q, List.mem_cons_of_mem _ (List.mem_append_right _ hq), hname⟩

/-- Behind the elements whose names begin with a name there is none left. -/
theorem dropWhile_not_below {lq : LocationQueue Conf} {queue : List (LocationQueue Conf)} (h0 : 0 ∉ lq.name)
    (hsorted : (lq :: queue).Pairwise fun a b => place a.name < place b.name) :
    ∀ r ∈ queue.dropWhile (below lq.name), ¬lq.name <+: r.name := by
  obtain ⟨hlq, hqueue⟩ := List.pairwise_cons.mp hsorted
  have hsuffix := List.dropWhile_suffix (below lq.name) (l := queue)
  cases htail : queue.dropWhile (below lq.name) with
  | nil => exact fun r hr => absurd hr List.not_mem_nil
  | cons x tail =>
      rw [htail] at hsuffix
      have hx : ¬lq.name <+: x.name := by
        have hfirst := List.head_dropWhile_not (below lq.name) (l := queue) (by rw [htail]; exact List.cons_ne_nil x tail)
        simp only [htail, List.head_cons] at hfirst
        rw [← below_iff h0, hfirst]
        exact Bool.false_ne_true
      intro r hr hbegins
      rcases List.mem_cons.mp hr with rfl | hr
      · exact hx hbegins
      · have hlow := hlq x (hsuffix.subset List.mem_cons_self)
        have hhigh := (List.pairwise_cons.mp (hqueue.sublist hsuffix.sublist)).1 r hr
        exact hx (prefix_of_between hbegins hlow hhigh.le)

theorem Flat.tail {pre : List UInt8} {lq : LocationQueue Conf} {queue tail : List (LocationQueue Conf)}
    (h : Flat pre (lq :: queue)) (hsub : tail.Sublist queue) : Flat pre tail where
  made := fun q hq => h.made q (List.mem_cons_of_mem _ (hsub.subset hq))
  sorted := (List.pairwise_cons.mp h.sorted).2.sublist hsub
  inside := fun q hq => h.inside q (List.mem_cons_of_mem _ (hsub.subset hq))

/-- The elements below one of them. -/
theorem Flat.below {pre : List UInt8} {lq : LocationQueue Conf} {queue list : List (LocationQueue Conf)}
    (h : Flat pre (lq :: queue)) (hsub : list.Sublist queue) (hbelow : ∀ q ∈ list, lq.name <+: q.name) : Flat lq.name list where
  made := (h.tail hsub).made
  sorted := (h.tail hsub).sorted
  inside := fun q hq => by
    refine ⟨hbelow q hq, fun heq => ?_⟩
    have hlt := (List.pairwise_cons.mp h.sorted).1 q (hsub.subset hq)
    rw [heq] at hlt
    exact lt_irrefl _ hlt

theorem LocationQueue.withList_nil {lq : LocationQueue Conf} (h : lq.list = []) : lq.withList [] = lq := by
  cases lq
  rw [LocationQueue.list] at h
  rw [LocationQueue.withList, h]
  rfl

theorem Flat.takeWhile {pre : List UInt8} {lq : LocationQueue Conf} {queue : List (LocationQueue Conf)}
    (h : Flat pre (lq :: queue)) : Flat lq.name (queue.takeWhile (Locations.below lq.name)) :=
  h.below (List.takeWhile_sublist _) fun _ hq =>
    (below_iff (h.made lq List.mem_cons_self).nul).mp (List.mem_takeWhile_imp hq)

/-- An inclusive location with those that begin with its name in its list. -/
theorem Listed.inclusive {pre : List UInt8} {lq : LocationQueue Conf} {queue sub forest : List (LocationQueue Conf)}
    (h : Flat pre (lq :: queue)) (hsome : lq.inclusive ≠ none)
    (hsub : Listed lq.name (queue.takeWhile (below lq.name)) sub) (hforest : Listed pre (queue.dropWhile (below lq.name)) forest) :
    Listed pre (lq :: queue) (lq.withList sub :: forest) := by
  have hnot := dropWhile_not_below (h.made lq List.mem_cons_self).nul h.sorted
  have happend : queue.takeWhile (below lq.name) ++ queue.dropWhile (below lq.name) = queue := List.takeWhile_append_dropWhile
  have hcons := @Listed.cons _ pre lq _ _ _ _ (happend.symm ▸ h) (fun hnone => absurd hnone hsome) (fun _ => hnot)
    hsub hforest
  rwa [happend] at hcons

/-- `ngx_http_create_locations_list` puts the locations into lists. -/
theorem createLocationsList_listed {pre : List UInt8} {queue : List (LocationQueue Conf)} (h : Flat pre queue) :
    Listed pre queue (ngxHttpCreateLocationsList queue) := by
  fun_induction ngxHttpCreateLocationsList queue generalizing pre with
  | case1 lq x queue hnone ih =>
      have hlist := (h.made lq List.mem_cons_self).list
      have hinclusive : lq.inclusive = none := Option.isNone_iff_eq_none.mp hnone
      have htail := ih (h.tail (List.Sublist.refl _))
      have hcons := @Listed.cons _ _ _ [] _ _ _ h (fun _ => rfl) (fun hsome => absurd hinclusive hsome) (Listed.nil lq.name) htail
      rwa [LocationQueue.withList_nil hlist] at hcons
  | case2 lq x queue hnone list tail hempty =>
      rename_i ih
      have hlist := (h.made lq List.mem_cons_self).list
      have hsome : lq.inclusive ≠ none := fun heq => hnone (Option.isNone_iff_eq_none.mpr heq)
      have hnil : (x :: queue).takeWhile (below lq.name) = [] := List.isEmpty_iff.mp hempty
      have hsub : Listed lq.name ((x :: queue).takeWhile (below lq.name)) [] := hnil ▸ Listed.nil lq.name
      have hforest := ih (h.tail (List.dropWhile_sublist _))
      have hcons := Listed.inclusive h hsome hsub hforest
      rwa [LocationQueue.withList_nil hlist] at hcons
  | case3 lq x queue hnone list tail _ hempty =>
      rename_i ih
      have hlist := (h.made lq List.mem_cons_self).list
      have hsome : lq.inclusive ≠ none := fun heq => hnone (Option.isNone_iff_eq_none.mpr heq)
      have hnil : (x :: queue).dropWhile (below lq.name) = [] := List.isEmpty_iff.mp hempty
      rw [hlist, List.nil_append] at ih ⊢
      exact Listed.inclusive h hsome (ih h.takeWhile) (hnil ▸ Listed.nil pre)
  | case4 lq x queue hnone list tail _ _ ih =>
      rename_i ih'
      have hlist := (h.made lq List.mem_cons_self).list
      have hsome : lq.inclusive ≠ none := fun heq => hnone (Option.isNone_iff_eq_none.mpr heq)
      rw [hlist, List.nil_append] at ih ⊢
      exact Listed.inclusive h hsome (ih h.takeWhile) (ih' (h.tail (List.dropWhile_sublist _)))
  | case5 queue hshort =>
      match queue, hshort with
      | [], _ => exact Listed.nil pre
      | [q], _ =>
          have hlist := (h.made q List.mem_cons_self).list
          have hcons := @Listed.cons _ pre q [] [] [] [] h (fun _ => rfl) (fun _ r hr => absurd hr List.not_mem_nil)
            (Listed.nil q.name) (Listed.nil pre)
          rwa [LocationQueue.withList_nil hlist] at hcons
      | lq :: x :: rest, hshort => exact absurd rfl (hshort lq x rest)

end NginxDtls.Locations
