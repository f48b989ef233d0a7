import NginxDtls.LocationForest

/-! The search for a static location. The tree has the middle of each list at its root, the elements before and behind it on its
sides, and the list below it in a tree of its own, so that of the locations that can match only those where the search goes are
left. The length of a node is a byte: where the name of a location is more than 255 bytes longer than that of the location
above it, some addresses get a wrong location. -/

namespace NginxDtls.Locations

variable {Conf : Type}

/-! ### The tree of a list -/

/-- A tree for a list, below a name of `pre` bytes. -/
inductive Builds : ℕ → List (LocationQueue Conf) → LocationTree Conf → Prop where
  | null {pre : ℕ} : Builds pre [] .null
  | node {pre : ℕ} {left right : List (LocationQueue Conf)} {q : LocationQueue Conf} {leftTree rightTree tree : LocationTree Conf}
      (hleft : Builds pre left leftTree) (hright : Builds pre right rightTree)
      (htree : Builds (pre + (q.name.length - pre)) q.list tree) :
      Builds pre (left ++ q :: right) (.node leftTree rightTree tree q.exact q.inclusive
        ((q.exact.map CoreLocConf.autoRedirect).getD false || (q.inclusive.map CoreLocConf.autoRedirect).getD false)
        (UInt8.ofNat (q.name.length - pre)) (q.name.drop pre))

theorem middleLoop_length {α : Type} {middle next : List α} (h : next.length ≤ middle.length) :
    (middleLoop middle next).length + next.length / 2 = middle.length := by
  fun_induction middleLoop middle next with
  | case1 middle a b next rest ih =>
      simp only [List.length_cons] at h ih ⊢
      have htail := ih (by rw [List.length_tail]; omega)
      rw [List.length_tail] at htail
      omega
  | case2 middle a b =>
      rw [List.length_tail]
      simp only [List.length_cons, List.length_nil] at h ⊢
      omega
  | case3 next middle hlong hshort =>
      cases next with
      | nil => simp
      | cons a next =>
          cases next with
          | nil => simp
          | cons b next =>
              cases next with
              | nil => exact absurd rfl (hshort a b)
              | cons c rest => exact absurd rfl (hlong a b c rest)

/-- The middle of a queue is in its second half. -/
theorem ngxQueueMiddle_length {α : Type} (queue : List α) : (ngxQueueMiddle queue).length + queue.length / 2 = queue.length :=
  middleLoop_length (le_refl _)

theorem ifEmpty_null {α : Type} {queue : List α} {tree : LocationTree Conf} {P : LocationTree Conf → Prop} (h : P tree)
    (hnull : queue = [] → P .null) : P (if queue.isEmpty then .null else tree) := by
  split
  · rename_i hempty
    exact hnull (List.isEmpty_iff.mp hempty)
  · exact h

/-- `ngx_http_create_locations_tree` builds a tree for its list. -/
theorem createLocationsTree_builds (locations : List (LocationQueue Conf)) (pre : ℕ) :
    Builds pre locations (ngxHttpCreateLocationsTree locations pre) := by
  fun_induction ngxHttpCreateLocationsTree locations pre with
  | case1 locations pre hmiddle =>
      have hlength := ngxQueueMiddle_length locations
      rw [hmiddle, List.length_nil] at hlength
      obtain rfl := List.length_eq_zero_iff.mp (show locations.length = 0 by omega)
      exact .null
  | case2 locations pre lq tail hmiddle len left =>
      rename_i hleft hright htree
      have hsplit := split_middle hmiddle
      have hlength := ngxQueueMiddle_length locations
      rw [hmiddle, List.length_cons] at hlength
      have hboth : left = [] → tail = [] := fun hnil => by
        have hcount : locations.length = left.length + (tail.length + 1) := by
          conv_lhs => rw [hsplit]
          rw [List.length_append, List.length_cons]
        rw [hnil, List.length_nil] at hcount
        exact List.length_eq_zero_iff.mp (by omega)
      rw [hsplit]
      change Builds pre (left ++ lq :: tail) _
      refine .node (ifEmpty_null hleft fun hnil => ?_) ?_ (ifEmpty_null htree fun hnil => ?_)
      · rw [hnil]
        exact .null
      rotate_left
      · rw [hnil]
        exact .null
      split
      · rename_i hempty
        have hnil : tail = [] := by
          rcases hempty with hempty | hempty
          · exact hboth (List.isEmpty_iff.mp hempty)
          · exact List.isEmpty_iff.mp hempty
        rw [hnil]
        exact .null
      · exact hright

/-! ### What is right -/

/-- The location whose name is the longest one that the address begins with. -/
def Longest (S : CoreLocConf Conf → Prop) (uri : List UInt8) (l : CoreLocConf Conf) : Prop :=
  S l ∧ l.exactMatch = false ∧ l.name <+: uri ∧
    ∀ m, S m → m.exactMatch = false → m.name <+: uri → m.name.length ≤ l.name.length

/-- The result of the search: the exact location with the name, or else the inclusive one with the longest name that the address
begins with, or else what there was before. -/
def Right (S : CoreLocConf Conf → Prop) (uri : List UInt8) (rv : Rc) (locConf : Conf) (result : Rc × Conf) : Prop :=
  (∃ l, S l ∧ l.exactMatch = true ∧ l.name = uri ∧ result = (.ok, l.locConf)) ∨
    (¬∃ l, S l ∧ l.exactMatch = true ∧ l.name = uri) ∧
      ((∃ l, Longest S uri l ∧ result = (.again, l.locConf)) ∨
        (¬∃ l, S l ∧ l.exactMatch = false ∧ l.name <+: uri) ∧ result = (rv, locConf))

/-- The location can be the result. -/
def Relevant (uri : List UInt8) (l : CoreLocConf Conf) : Prop := l.name <+: uri ∧ (l.exactMatch = true → l.name = uri)

/-- Only the locations that can be the result matter. -/
theorem Right.mono {S S' : CoreLocConf Conf → Prop} {uri : List UInt8} {rv : Rc} {locConf : Conf} {result : Rc × Conf}
    (h : Right S uri rv locConf result) (hsub : ∀ l, S l → S' l) (hrel : ∀ l, S' l → Relevant uri l → S l) :
    Right S' uri rv locConf result := by
  have hexact : ∀ l, S' l → l.exactMatch = true → l.name = uri → S l := fun l hl _ hname =>
    hrel l hl ⟨hname ▸ List.prefix_refl _, fun _ => hname⟩
  have hinclusive : ∀ l, S' l → l.exactMatch = false → l.name <+: uri → S l := fun l hl hkind hbegins =>
    hrel l hl ⟨hbegins, fun htrue => absurd (hkind.symm.trans htrue) Bool.false_ne_true⟩
  rcases h with ⟨l, hl, hkind, hname, hresult⟩ | ⟨hno, hrest⟩
  · exact Or.inl ⟨l, hsub l hl, hkind, hname, hresult⟩
  · refine Or.inr ⟨fun ⟨l, hl, hkind, hname⟩ => hno ⟨l, hexact l hl hkind hname, hkind, hname⟩, ?_⟩
    rcases hrest with ⟨l, ⟨hl, hkind, hbegins, hlongest⟩, hresult⟩ | ⟨hnone, hresult⟩
    · exact Or.inl ⟨l, ⟨hsub l hl, hkind, hbegins, fun m hm hmkind hmbegins =>
        hlongest m (hinclusive m hm hmkind hmbegins) hmkind hmbegins⟩, hresult⟩
    · exact Or.inr ⟨fun ⟨l, hl, hkind, hbegins⟩ => hnone ⟨l, hinclusive l hl hkind hbegins, hkind, hbegins⟩, hresult⟩

/-! ### Where a location can be -/

section Sides

variable {pre uri : List UInt8} {left right forest : List (LocationQueue Conf)} {q : LocationQueue Conf} {l : CoreLocConf Conf}

/-- What is before an element can match only if the address is before it too. -/
theorem left_relevant (hnested : Nested pre left) (hbeside : ∀ r ∈ left, Beside r q) (hl : Holds l left)
    (hrel : Relevant uri l) : place uri < place q.name := by
  obtain ⟨r, hr, hname, hown⟩ := hnested.root hl
  obtain ⟨hlt, hnot⟩ := hbeside r hr
  by_contra hge
  have hbegins := prefix_of_between (hname.trans hrel.1) hlt (not_lt.mp hge)
  have hnone : r.inclusive = none := by
    by_contra hsome
    exact hnot hsome hbegins
  obtain ⟨-, hfine, -⟩ := hnested
  rcases hown with hown | ⟨hsome, -⟩
  · have hexact : r.exact = some l := hown.resolve_right fun heq => by
      rw [hnone] at heq
      cases heq
    obtain ⟨heq, hkind⟩ := (hfine r hr).exact l hexact
    rw [← hrel.2 hkind, heq] at hge
    exact hge hlt
  · exact hsome hnone

/-- What is behind an element can match only if the address is behind it too and, for an inclusive one, is not below it. -/
theorem right_relevant (hnested : Nested pre right) (hbeside : ∀ r ∈ right, Beside q r) (hl : Holds l right)
    (hrel : Relevant uri l) : place q.name < place uri ∧ (q.inclusive ≠ none → ¬q.name <+: uri) := by
  obtain ⟨r, hr, hname, -⟩ := hnested.root hl
  obtain ⟨hlt, hnot⟩ := hbeside r hr
  have huri := hname.trans hrel.1
  refine ⟨hlt.trans_le (place_le_of_begins huri), fun hsome hq => ?_⟩
  rcases List.prefix_or_prefix_of_prefix hq huri with hqr | hrq
  · exact hnot hsome hqr
  · exact absurd hlt (not_lt.mpr (place_le_of_begins hrq))

/-- What is at an element or below it can match only if the address begins with its name. -/
theorem middle_relevant (hfine : Fine pre q) (hnested : Nested q.name q.list) (hl : q.Own l ∨ Holds l q.list)
    (hrel : Relevant uri l) : q.name <+: uri := by
  rcases hl with hl | hl
  · exact hfine.own_name hl ▸ hrel.1
  · obtain ⟨r, hr, hname, -⟩ := hnested.root hl
    obtain ⟨-, hfines, -⟩ := hnested
    exact ((hfines r hr).inside.trans hname).trans hrel.1

/-- A location below an element has a longer name. -/
theorem longer_of_holds (hnested : Nested pre forest) (hl : Holds l forest) : pre <+: l.name ∧ pre.length < l.name.length := by
  obtain ⟨r, hr, hname, -⟩ := hnested.root hl
  obtain ⟨-, hfines, -⟩ := hnested
  have hinside := (hfines r hr).inside
  have hlt : pre.length < r.name.length := lt_of_le_of_ne hinside.length_le fun heq =>
    (hfines r hr).ne (hinside.eq_of_length heq).symm
  exact ⟨hinside.trans hname, hlt.trans_le hname.length_le⟩

end Sides

/-! ### The search -/

/-- No name in the lists is more than 255 bytes longer than the one above it. -/
inductive Short : List UInt8 → List (LocationQueue Conf) → Prop where
  | mk {pre : List UInt8} {forest : List (LocationQueue Conf)} (length : ∀ q ∈ forest, q.name.length ≤ pre.length + 255)
      (below : ∀ q ∈ forest, Short q.name q.list) : Short pre forest

theorem Short.split {pre : List UInt8} {left right : List (LocationQueue Conf)} {q : LocationQueue Conf}
    (h : Short pre (left ++ q :: right)) :
    Short pre left ∧ Short pre right ∧ Short q.name q.list ∧ q.name.length ≤ pre.length + 255 := by
  obtain ⟨hlength, hbelow⟩ := h
  have hmem : q ∈ left ++ q :: right := List.mem_append_right _ List.mem_cons_self
  have hinl : ∀ r ∈ left, r ∈ left ++ q :: right := fun r hr => List.mem_append_left _ hr
  have hinr : ∀ r ∈ right, r ∈ left ++ q :: right := fun r hr => List.mem_append_right _ (List.mem_cons_of_mem _ hr)
  exact ⟨⟨fun r hr => hlength r (hinl r hr), fun r hr => hbelow r (hinl r hr)⟩,
    ⟨fun r hr => hlength r (hinr r hr), fun r hr => hbelow r (hinr r hr)⟩, hbelow q hmem, hlength q hmem⟩

/-- No location in the lists is redirected. -/
def NoRedirect (forest : List (LocationQueue Conf)) : Prop := ∀ l, Holds l forest → l.autoRedirect = false

theorem NoRedirect.split {left right : List (LocationQueue Conf)} {q : LocationQueue Conf}
    (h : NoRedirect (left ++ q :: right)) : NoRedirect left ∧ NoRedirect right ∧ NoRedirect q.list ∧
      ((q.exact.map CoreLocConf.autoRedirect).getD false || (q.inclusive.map CoreLocConf.autoRedirect).getD false) = false := by
  have hmem : q ∈ left ++ q :: right := List.mem_append_right _ List.mem_cons_self
  have hown : ∀ l, q.Own l → l.autoRedirect = false := fun l hl => h l (.own hmem hl)
  refine ⟨fun l hl => h l (holds_append.mpr (Or.inl hl)),
    fun l hl => h l (holds_append.mpr (Or.inr (holds_cons.mpr (Or.inr (Or.inr hl))))), fun l hl => h l (.inner hmem hl), ?_⟩
  rw [Bool.or_eq_false_iff]
  constructor
  · cases hexact : q.exact with
    | none => rfl
    | some l => exact hown l (Or.inl hexact)
  · cases hinclusive : q.inclusive with
    | none => rfl
    | some l => exact hown l (Or.inr hinclusive)

/-- The outcomes at a node whose length is `len`. -/
theorem findLoop_node {leftTree rightTree tree : LocationTree Conf} {exact inclusive : Option (CoreLocConf Conf)}
    {nodeLen : UInt8} {name u : List UInt8} (rv : Rc) (locConf : Conf) (hle : nodeLen.toNat ≤ name.length) (h0 : 0 ∉ u) :
    let result := findLoop (.node leftTree rightTree tree exact inclusive false nodeLen name) u rv locConf
    let n := min u.length nodeLen.toNat
    (place u < place name ∧ u.take n ≠ name.take n ∧ result = findLoop leftTree u rv locConf) ∨
      (place name < place u ∧ u.take n ≠ name.take n ∧ result = findLoop rightTree u rv locConf) ∨
      u.take n = name.take n ∧ result =
        if nodeLen.toNat < u.length then
          match inclusive with
          | some inclusive => findLoop tree (u.drop nodeLen.toNat) .again inclusive.locConf
          | none => findLoop rightTree u rv locConf
        else if u.length = nodeLen.toNat then
          match exact with
          | some exact => (.ok, exact.locConf)
          | none => (.again, nodeConf none inclusive locConf)
        else findLoop leftTree u rv locConf := by
  intro result n
  have hn : (if u.length ≤ nodeLen.toNat then u.length else nodeLen.toNat) = n := by
    simp only [n]
    split <;> omega
  have hresult : result =
      if ngxFilenameCmp u name n ≠ 0 then
        if ngxFilenameCmp u name n < 0 then findLoop leftTree u rv locConf else findLoop rightTree u rv locConf
      else if nodeLen.toNat < u.length then
        match inclusive with
        | some inclusive => findLoop tree (u.drop n) .again inclusive.locConf
        | none => findLoop rightTree u rv locConf
      else if u.length = nodeLen.toNat then
        match exact with
        | some exact => (.ok, exact.locConf)
        | none => (.again, nodeConf none inclusive locConf)
      else findLoop leftTree u rv locConf := by
    cases exact <;> cases inclusive <;>
      simp only [result, findLoop, hn, gt_iff_lt, Bool.false_eq_true, and_false, if_false]
  rcases @filenameCmp_cases u name n (min_le_left _ _) ((min_le_right _ _).trans hle) h0 with
    ⟨hneg, hlt, hne⟩ | ⟨hzero, heq⟩ | ⟨hpos, hlt, hne⟩
  · rw [if_pos hneg.ne, if_pos hneg] at hresult
    exact Or.inl ⟨hlt, hne, hresult⟩
  · rw [if_neg (not_not.mpr hzero)] at hresult
    refine Or.inr (Or.inr ⟨heq, hresult.trans ?_⟩)
    by_cases hlong : nodeLen.toNat < u.length
    · have hmin : n = nodeLen.toNat := min_eq_right hlong.le
      rw [if_pos hlong, if_pos hlong, hmin]
    · rw [if_neg hlong, if_neg hlong]
  · rw [if_pos hpos.ne', if_neg (not_lt.mpr hpos.le)] at hresult
    exact Or.inr (Or.inl ⟨hlt, hne, hresult⟩)

/-- The search goes on below an inclusive location. -/
theorem Right.under {S S' : CoreLocConf Conf → Prop} {uri : List UInt8} {rv : Rc} {locConf : Conf} {result : Rc × Conf}
    {i : CoreLocConf Conf} (h : Right S uri .again i.locConf result) (hsub : ∀ l, S l → S' l) (hi : S' i)
    (hkind : i.exactMatch = false) (hbegins : i.name <+: uri) (hlonger : ∀ l, S l → i.name.length < l.name.length)
    (hrel : ∀ l, S' l → Relevant uri l → S l ∨ l.exactMatch = false ∧ l.name.length ≤ i.name.length) :
    Right S' uri rv locConf result := by
  have hinclusive : ∀ l, S' l → l.exactMatch = false → l.name <+: uri → S l ∨ l.name.length ≤ i.name.length :=
    fun l hl hfalse hl' => (hrel l hl ⟨hl', fun htrue => absurd (hfalse.symm.trans htrue) Bool.false_ne_true⟩).imp_right
      And.right
  rcases h with ⟨l, hl, htrue, hname, hresult⟩ | ⟨hno, hrest⟩
  · exact Or.inl ⟨l, hsub l hl, htrue, hname, hresult⟩
  · have hno' : ¬∃ l, S' l ∧ l.exactMatch = true ∧ l.name = uri := by
      rintro ⟨l, hl, htrue, hname⟩
      rcases hrel l hl ⟨hname ▸ List.prefix_refl _, fun _ => hname⟩ with hl' | ⟨hfalse, -⟩
      · exact hno ⟨l, hl', htrue, hname⟩
      · exact Bool.false_ne_true (hfalse.symm.trans htrue)
    refine Or.inr ⟨hno', Or.inl ?_⟩
    rcases hrest with ⟨l, ⟨hl, hfalse, hl', hlongest⟩, hresult⟩ | ⟨hnone, hresult⟩
    · refine ⟨l, ⟨hsub l hl, hfalse, hl', fun m hm hmkind hmbegins => ?_⟩, hresult⟩
      rcases hinclusive m hm hmkind hmbegins with hm' | hle
      · exact hlongest m hm' hmkind hmbegins
      · exact hle.trans (hlonger l hl).le
    · refine ⟨i, ⟨hi, hkind, hbegins, fun m hm hmkind hmbegins => ?_⟩, hresult⟩
      rcases hinclusive m hm hmkind hmbegins with hm' | hle
      · exact absurd ⟨m, hm', hmkind, hmbegins⟩ hnone
      · exact hle

/-- Where a location that can match is, by the place of the address. -/
theorem relevant_cases {pre uri : List UInt8} {left right : List (LocationQueue Conf)} {q : LocationQueue Conf}
    {l : CoreLocConf Conf} (h : Nested pre (left ++ q :: right)) (hl : Holds l (left ++ q :: right)) (hrel : Relevant uri l) :
    (Holds l left ∧ place uri < place q.name) ∨ ((q.Own l ∨ Holds l q.list) ∧ q.name <+: uri) ∨
      Holds l right ∧ place q.name < place uri ∧ (q.inclusive ≠ none → ¬q.name <+: uri) := by
  obtain ⟨hleft, hright, hbelow, hfine, hbefore, hbehind⟩ := h.split
  rw [holds_append, holds_cons] at hl
  rcases hl with hl | hl | hl | hl
  · exact Or.inl ⟨hl, left_relevant hleft hbefore hl hrel⟩
  · exact Or.inr (Or.inl ⟨Or.inl hl, middle_relevant hfine hbelow (Or.inl hl) hrel⟩)
  · exact Or.inr (Or.inl ⟨Or.inr hl, middle_relevant hfine hbelow (Or.inr hl) hrel⟩)
  · exact Or.inr (Or.inr ⟨hl, right_relevant hright hbehind hl hrel⟩)

/-- What the search gives at the node of a name is right for that name. -/
theorem right_here {pre : List UInt8} {left right : List (LocationQueue Conf)} {q : LocationQueue Conf}
    (hnested : Nested pre (left ++ q :: right)) (rv : Rc) (locConf : Conf) :
    Right (Holds · (left ++ q :: right)) q.name rv locConf (match q.exact with
      | some exact => (.ok, exact.locConf)
      | none => (.again, nodeConf none q.inclusive locConf)) := by
  obtain ⟨-, -, hnq, hfine, -, -⟩ := hnested.split
  have hmem : q ∈ left ++ q :: right := List.mem_append_right _ List.mem_cons_self
  cases hexact : q.exact with
  | some e =>
      have he := hfine.exact e hexact
      exact Or.inl ⟨e, .own hmem (Or.inl hexact), he.2, he.1, rfl⟩
  | none =>
      obtain ⟨i, hinclusive⟩ := Option.ne_none_iff_exists'.mp (hfine.some hexact)
      have hi := hfine.inclusive i hinclusive
      have honly : ∀ l, Holds l (left ++ q :: right) → Relevant q.name l → q.inclusive = some l := fun l hl hrel => by
        rcases relevant_cases hnested hl hrel with ⟨-, hlt⟩ | ⟨hl, -⟩ | ⟨-, hlt, -⟩
        · exact absurd hlt (lt_irrefl _)
        · rcases hl with hl | hl
          · exact hl.resolve_left fun heq => by
              rw [hexact] at heq
              cases heq
          · exact absurd hrel.1.length_le (not_le.mpr (longer_of_holds hnq hl).2)
        · exact absurd hlt (lt_irrefl _)
      rw [hinclusive]
      refine Or.inr ⟨?_, Or.inl ⟨i, ⟨.own hmem (Or.inr hinclusive), hi.2, hi.1 ▸ List.prefix_refl _, ?_⟩, rfl⟩⟩
      · rintro ⟨l, hl, htrue, hl'⟩
        have hsome := honly l hl ⟨hl' ▸ List.prefix_refl _, fun _ => hl'⟩
        exact Bool.false_ne_true ((hfine.inclusive l hsome).2.symm.trans htrue)
      · intro m hm hfalse hm'
        have hsome := honly m hm ⟨hm', fun htrue => absurd (hfalse.symm.trans htrue) Bool.false_ne_true⟩
        rw [hinclusive] at hsome
        rw [Option.some.inj hsome]

/-- Where every name is short enough, the search gives what is right. -/
theorem findLoop_right {n : ℕ} {forest : List (LocationQueue Conf)} {tree : LocationTree Conf} (hbuilds : Builds n forest tree)
    {pre u : List UInt8} {rv : Rc} {locConf : Conf} (hn : n = pre.length) (hnested : Nested pre forest)
    (hshort : Short pre forest) (hredirect : NoRedirect forest) (hu : u ≠ []) (h0 : 0 ∉ u) :
    Right (Holds · forest) (pre ++ u) rv locConf (findLoop tree u rv locConf) := by
  induction hbuilds generalizing pre u rv locConf with
  | null =>
      exact Or.inr ⟨fun ⟨_, hl, _⟩ => not_holds_nil hl, Or.inr ⟨fun ⟨_, hl, _⟩ => not_holds_nil hl, rfl⟩⟩
  | @node n left right q leftTree rightTree tree hleft hright htree ihl ihr iht =>
      subst hn
      obtain ⟨hnl, hnr, hnq, hfine, -, -⟩ := hnested.split
      obtain ⟨hsl, hsr, hsq, hle⟩ := hshort.split
      obtain ⟨hrl, hrr, hrq, hauto⟩ := hredirect.split
      obtain ⟨s, hs⟩ := hfine.inside
      have hdrop : q.name.drop pre.length = s := by rw [← hs, List.drop_left]
      have hlength : q.name.length - pre.length = s.length := by rw [← hs, List.length_append, Nat.add_sub_cancel_left]
      have hlen : (UInt8.ofNat s.length).toNat = s.length := by
        refine UInt8.toNat_ofNat_of_lt ?_
        show s.length < 256
        omega
      have hbegins : ∀ {v : List UInt8}, q.name <+: pre ++ v ↔ s <+: v := fun {v} => by
        rw [← hs, List.prefix_append_right_inj]
      have hbefore : place u < place s → place (pre ++ u) < place q.name := fun hlt => hs ▸ place_append_lt.mpr hlt
      have hbehind : place s < place u → place q.name < place (pre ++ u) := fun hlt => hs ▸ place_append_lt.mpr hlt
      have hinl : ∀ l, Holds l left → Holds l (left ++ q :: right) := fun l hl => holds_append.mpr (Or.inl hl)
      have hinr : ∀ l, Holds l right → Holds l (left ++ q :: right) := fun l hl =>
        holds_append.mpr (Or.inr (holds_cons.mpr (Or.inr (Or.inr hl))))
      have hmem : q ∈ left ++ q :: right := List.mem_append_right _ List.mem_cons_self
      rw [hauto, hdrop, hlength]
      rw [hlength] at iht
      have hnode := @findLoop_node _ leftTree rightTree tree q.exact q.inclusive (UInt8.ofNat s.length) s u rv locConf hlen.le h0
      rw [hlen] at hnode
      dsimp only at hnode
      generalize findLoop (.node leftTree rightTree tree q.exact q.inclusive false (UInt8.ofNat s.length) s) u rv locConf =
        result at hnode ⊢
      -- before the name nothing but what is on the left can match
      have hgoLeft : place u < place s → Right (Holds · (left ++ q :: right)) (pre ++ u) rv locConf
          (findLoop leftTree u rv locConf) := fun hlt => by
        refine (ihl rfl hnl hsl hrl hu h0).mono hinl fun l hl hrel => ?_
        rcases relevant_cases hnested hl hrel with ⟨hl, -⟩ | ⟨-, hq⟩ | ⟨-, hlt', -⟩
        · exact hl
        · exact absurd (hbefore hlt) (not_lt.mpr (place_le_of_begins hq))
        · exact absurd (hbefore hlt) (lt_asymm hlt')
      rcases hnode with ⟨hlt, -, rfl⟩ | ⟨hlt, hne, rfl⟩ | ⟨heq, rfl⟩
      · exact hgoLeft hlt
      · refine (ihr rfl hnr hsr hrr hu h0).mono hinr fun l hl hrel => ?_
        rcases relevant_cases hnested hl hrel with ⟨-, hlt'⟩ | ⟨-, hq⟩ | ⟨hl, -⟩
        · exact absurd (hbehind hlt) (lt_asymm hlt')
        · have hsu := hbegins.mp hq
          rw [min_eq_right hsu.length_le, List.take_length, ← List.prefix_iff_eq_take.mp hsu] at hne
          exact absurd rfl hne
        · exact hl
      · by_cases hlong : s.length < u.length
        · -- the address goes on behind the name
          rw [if_pos hlong]
          rw [min_eq_right hlong.le, List.take_length] at heq
          have hsu : s <+: u := heq ▸ List.take_prefix ..
          have hq := hbegins.mpr hsu
          have hlt : place q.name < place (pre ++ u) := by
            refine lt_of_le_of_ne (place_le_of_begins hq) fun hsame => ?_
            have hlengths := congrArg List.length (place_injective hsame)
            rw [← hs, List.length_append, List.length_append] at hlengths
            omega
          have hown : ∀ l, q.Own l → Relevant (pre ++ u) l → l.exactMatch = false := fun l hl hrel => by
            by_contra htrue
            have hname := hrel.2 (Bool.not_eq_false _ ▸ htrue)
            rw [hfine.own_name hl] at hname
            rw [hname] at hlt
            exact lt_irrefl _ hlt
          cases hinclusive : q.inclusive with
          | none =>
              refine (ihr rfl hnr hsr hrr hu h0).mono hinr fun l hl hrel => ?_
              rcases relevant_cases hnested hl hrel with ⟨-, hlt'⟩ | ⟨hl, -⟩ | ⟨hl, -⟩
              · exact absurd hlt (lt_asymm hlt')
              · rcases hl with hl | hl
                · have hexact : q.exact = some l := hl.resolve_right fun heq => by
                    rw [hinclusive] at heq
                    cases heq
                  exact absurd ((hown l hl hrel).symm.trans (hfine.exact l hexact).2) Bool.false_ne_true
                · rw [hfine.leaf hinclusive] at hl
                  exact absurd hl not_holds_nil
              · exact hl
          | some i =>
              have hi := hfine.inclusive i hinclusive
              have hrest : u.drop s.length ≠ [] := fun hnil => by
                have hlengths := congrArg List.length hnil
                rw [List.length_drop, List.length_nil] at hlengths
                omega
              have happend : pre ++ u = q.name ++ u.drop s.length := by
                rw [← hs, List.append_assoc, ← heq, List.length_take, min_eq_left hlong.le, List.take_append_drop]
              have hindex : pre.length + s.length = q.name.length := by rw [← hs, List.length_append]
              have hright' := @iht q.name (u.drop s.length) .again i.locConf hindex hnq hsq hrq hrest
                fun h => h0 (List.mem_of_mem_drop h)
              rw [← happend] at hright'
              refine hright'.under (fun l hl => .inner hmem hl) (.own hmem (Or.inr hinclusive)) hi.2 (hi.1 ▸ hq)
                (fun l hl => hi.1 ▸ (longer_of_holds hnq hl).2) fun l hl hrel => ?_
              rcases relevant_cases hnested hl hrel with ⟨-, hlt'⟩ | ⟨hl, -⟩ | ⟨-, -, hnot⟩
              · exact absurd hlt (lt_asymm hlt')
              · rcases hl with hl | hl
                · exact Or.inr ⟨hown l hl hrel, (hfine.own_name hl).trans hi.1.symm ▸ le_refl _⟩
                · exact Or.inl hl
              · exact absurd hq (hnot (by rw [hinclusive]; exact Option.some_ne_none i))
        · rw [if_neg hlong]
          by_cases hsame : u.length = s.length
          · -- the address is the name
            rw [if_pos hsame]
            rw [hsame, min_self, List.take_length, ← hsame, List.take_length] at heq
            have hname : pre ++ u = q.name := by rw [heq, hs]
            rw [hname]
            exact right_here hnested rv locConf
          · -- the name goes on behind the address
            rw [if_neg hsame]
            refine hgoLeft ?_
            rw [min_eq_left (not_lt.mp hlong), List.take_length] at heq
            have hus : u <+: s := heq ▸ List.take_prefix ..
            refine lt_of_le_of_ne (place_le_of_begins hus) fun hp => hsame ?_
            rw [place_injective hp]

end NginxDtls.Locations
