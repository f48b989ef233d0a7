import NginxDtls.LocationSearch

/-! Where a name is too long for its node. The search then takes a part of the name for all of it, and gets a location wrong for
the name itself or for one that differs from it in the last byte. -/

namespace NginxDtls.Locations

variable {Conf : Type}

/-! ### Long names -/

/-- Some name in the lists is more than 255 bytes longer than the one above it. -/
inductive Long : List UInt8 → List (LocationQueue Conf) → Prop where
  | here {pre : List UInt8} {forest : List (LocationQueue Conf)} {q : LocationQueue Conf} (mem : q ∈ forest)
      (length : pre.length + 255 < q.name.length) : Long pre forest
  | inner {pre : List UInt8} {forest : List (LocationQueue Conf)} {q : LocationQueue Conf} (mem : q ∈ forest)
      (long : Long q.name q.list) : Long pre forest

theorem Nested.short_or_long {pre : List UInt8} {forest : List (LocationQueue Conf)} (h : Nested pre forest) :
    Short pre forest ∨ Long pre forest := by
  induction h with
  | @mk pre forest _ _ _ ih =>
      by_cases hhere : ∃ q ∈ forest, pre.length + 255 < q.name.length
      · obtain ⟨q, hq, hlt⟩ := hhere
        exact Or.inr (.here hq hlt)
      · by_cases hinner : ∃ q ∈ forest, Long q.name q.list
        · obtain ⟨q, hq, hlong⟩ := hinner
          exact Or.inr (.inner hq hlong)
        · exact Or.inl ⟨fun q hq => not_lt.mp fun hlt => hhere ⟨q, hq, hlt⟩,
            fun q hq => (ih q hq).resolve_right fun hlong => hinner ⟨q, hq, hlong⟩⟩

theorem Long.split {pre : List UInt8} {left right : List (LocationQueue Conf)} {q : LocationQueue Conf}
    (h : Long pre (left ++ q :: right)) :
    pre.length + 255 < q.name.length ∨ Long q.name q.list ∨ Long pre left ∨ Long pre right := by
  cases h with
  | @here _ _ r hmem hlt =>
      rcases List.mem_append.mp hmem with hmem | hmem
      · exact Or.inr (Or.inr (Or.inl (.here hmem hlt)))
      · rcases List.mem_cons.mp hmem with rfl | hmem
        · exact Or.inl hlt
        · exact Or.inr (Or.inr (Or.inr (.here hmem hlt)))
  | @inner _ _ r hmem hlong =>
      rcases List.mem_append.mp hmem with hmem | hmem
      · exact Or.inr (Or.inr (Or.inl (.inner hmem hlong)))
      · rcases List.mem_cons.mp hmem with rfl | hmem
        · exact Or.inr (Or.inl hlong)
        · exact Or.inr (Or.inr (Or.inr (.inner hmem hlong)))

/-! ### Wrong results -/

/-- A result that is not right: there is an exact location and it is not taken, or the result is a location whose name the
address does not begin with. -/
def Wrong (S : CoreLocConf Conf → Prop) (uri : List UInt8) (result : Rc × Conf) : Prop :=
  (∃ l, S l ∧ l.exactMatch = true ∧ l.name = uri) ∧ result.1 ≠ .ok ∨
    ∃ l, S l ∧ ¬l.name <+: uri ∧ result.2 = l.locConf ∧ result.1 ≠ .declined

theorem Wrong.mono {S S' : CoreLocConf Conf → Prop} {uri : List UInt8} {result : Rc × Conf} (h : Wrong S uri result)
    (hsub : ∀ l, S l → S' l) : Wrong S' uri result := by
  rcases h with ⟨⟨l, hl, hexact⟩, hrc⟩ | ⟨l, hl, hrest⟩
  · exact Or.inl ⟨⟨l, hsub l hl, hexact⟩, hrc⟩
  · exact Or.inr ⟨l, hsub l hl, hrest⟩

theorem Wrong.not_right {S : CoreLocConf Conf → Prop} {uri : List UInt8} {result : Rc × Conf} {locConf : Conf}
    (hconf : ∀ l m, S l → S m → l.locConf = m.locConf → l = m) (h : Wrong S uri result) :
    ¬Right S uri .declined locConf result := by
  rcases h with ⟨hexact, hrc⟩ | ⟨l, hl, hnot, hresult, hrc⟩
  · rintro (⟨m, -, -, -, rfl⟩ | ⟨hno, -⟩)
    · exact hrc rfl
    · exact hno hexact
  · rintro (⟨m, hm, -, hname, rfl⟩ | ⟨-, ⟨m, ⟨hm, -, hbegins, -⟩, rfl⟩ | ⟨-, rfl⟩⟩)
    · obtain rfl := hconf m l hm hl hresult
      exact hnot (hname ▸ List.prefix_refl _)
    · obtain rfl := hconf m l hm hl hresult
      exact hnot hbegins
    · exact hrc rfl

theorem nodeLen_le (n : ℕ) : (UInt8.ofNat n).toNat ≤ n ∧ (UInt8.ofNat n).toNat ≤ 255 := by
  rw [UInt8.toNat_ofNat']
  exact ⟨Nat.mod_le _ _, by omega⟩

/-- The result is what was there before, or one of the locations. -/
def Sourced (S : CoreLocConf Conf → Prop) (before result : Rc × Conf) : Prop :=
  result = before ∨ ∃ l, S l ∧ result.2 = l.locConf ∧ result.1 ≠ .declined

theorem Sourced.mono {S S' : CoreLocConf Conf → Prop} {before result : Rc × Conf} (h : Sourced S before result)
    (hsub : ∀ l, S l → S' l) : Sourced S' before result :=
  h.imp_right fun ⟨l, hl, hrest⟩ => ⟨l, hsub l hl, hrest⟩

/-- The search gives what it is given, or a location of the lists. -/
theorem findLoop_sourced {n : ℕ} {forest : List (LocationQueue Conf)} {tree : LocationTree Conf} (hbuilds : Builds n forest tree)
    {pre u : List UInt8} {rv : Rc} {locConf : Conf} (hn : n = pre.length) (hnested : Nested pre forest)
    (hredirect : NoRedirect forest) (h0 : 0 ∉ u) :
    Sourced (Holds · forest) (rv, locConf) (findLoop tree u rv locConf) := by
  induction hbuilds generalizing pre u rv locConf with
  | null => exact Or.inl rfl
  | @node n left right q leftTree rightTree tree hleft hright htree ihl ihr iht =>
      obtain ⟨hnl, hnr, hnq, hfine, -, -⟩ := hnested.split
      obtain ⟨hrl, hrr, hrq, hauto⟩ := hredirect.split
      have hindex : n + (q.name.length - n) = q.name.length := by
        have hle := hfine.inside.length_le
        omega
      have hok : Rc.ok ≠ .declined := by decide
      have hagain : Rc.again ≠ .declined := by decide
      have hmem : q ∈ left ++ q :: right := List.mem_append_right _ List.mem_cons_self
      have hinl : ∀ l, Holds l left → Holds l (left ++ q :: right) := fun l hl => holds_append.mpr (Or.inl hl)
      have hinr : ∀ l, Holds l right → Holds l (left ++ q :: right) := fun l hl =>
        holds_append.mpr (Or.inr (holds_cons.mpr (Or.inr (Or.inr hl))))
      have hdrop : (UInt8.ofNat (q.name.length - n)).toNat ≤ (q.name.drop n).length := by
        rw [List.length_drop]
        exact (nodeLen_le _).1
      have hgoLeft := (@ihl pre u rv locConf hn hnl hrl h0).mono hinl
      have hgoRight := (@ihr pre u rv locConf hn hnr hrr h0).mono hinr
      rw [hauto]
      have hnode := @findLoop_node _ leftTree rightTree tree q.exact q.inclusive _ _ u rv locConf hdrop h0
      dsimp only at hnode
      generalize findLoop (.node leftTree rightTree tree q.exact q.inclusive false _ _) u rv locConf = result at hnode ⊢
      rcases hnode with ⟨-, -, rfl⟩ | ⟨-, -, rfl⟩ | ⟨-, rfl⟩
      · exact hgoLeft
      · exact hgoRight
      · split
        · cases hinclusive : q.inclusive with
          | none => exact hgoRight
          | some i =>
              have h0' : 0 ∉ u.drop (UInt8.ofNat (q.name.length - n)).toNat := fun h => h0 (List.mem_of_mem_drop h)
              rcases @iht q.name _ .again i.locConf hindex hnq hrq h0' with heq | ⟨l, hl, hrest⟩
              · refine Or.inr ⟨i, .own hmem (Or.inr hinclusive), ?_⟩
                dsimp only
                rw [heq]
                exact ⟨rfl, hagain⟩
              · exact Or.inr ⟨l, .inner hmem hl, hrest⟩
        · split
          · cases hexact : q.exact with
            | some e => exact Or.inr ⟨e, .own hmem (Or.inl hexact), rfl, hok⟩
            | none =>
                obtain ⟨i, hinclusive⟩ := Option.ne_none_iff_exists'.mp (hfine.some hexact)
                refine Or.inr ⟨i, .own hmem (Or.inr hinclusive), ?_⟩
                rw [hinclusive]
                exact ⟨rfl, hagain⟩
          · exact hgoLeft

/-! ### Names that are too long -/

/-- The name with another last byte. -/
def otherEnd (s : List UInt8) : List UInt8 := s.dropLast ++ [if s.getLast? = some 97 then 98 else 97]

theorem otherEnd_length {s : List UInt8} (h : s ≠ []) : (otherEnd s).length = s.length := by
  rw [otherEnd, List.length_append, List.length_dropLast, List.length_singleton]
  exact Nat.sub_add_cancel (List.length_pos_iff.mpr h)

theorem otherEnd_take {s : List UInt8} {n : ℕ} (hn : n < s.length) : (otherEnd s).take n = s.take n := by
  have hle : n ≤ s.dropLast.length := by
    rw [List.length_dropLast]
    omega
  rw [otherEnd, List.take_append_of_le_length hle, List.dropLast_eq_take, List.take_take, min_eq_left (by omega)]

theorem otherEnd_nul {s : List UInt8} (h : 0 ∉ s) : 0 ∉ otherEnd s := by
  rw [otherEnd, List.mem_append, List.mem_singleton, not_or]
  refine ⟨fun hmem => h (List.mem_of_mem_dropLast hmem), ?_⟩
  split <;> decide

theorem otherEnd_ne (s : List UInt8) : otherEnd s ≠ s := by
  intro heq
  have hlast := congrArg List.getLast? heq
  rw [otherEnd, List.getLast?_concat] at hlast
  split at hlast
  · rename_i hsome
    rw [hsome] at hlast
    exact absurd (Option.some.inj hlast) (by decide)
  · rename_i hnot
    exact hnot hlast.symm

theorem take_short {u w : List UInt8} {n : ℕ} (hn : n ≤ 255) (h : u.take 255 = w.take 255) : u.take n = w.take n := by
  have htake := congrArg (List.take n) h
  rwa [List.take_take, List.take_take, min_eq_left hn] at htake

/-- At a node that is too short for its name the search goes on as if the name were not longer. -/
theorem findLoop_cut {leftTree rightTree tree : LocationTree Conf} {exact inclusive : Option (CoreLocConf Conf)}
    {s u : List UInt8} (rv : Rc) (locConf : Conf) (hs : 255 < s.length) (hlength : u.length = s.length)
    (htake : u.take 255 = s.take 255) (h0 : 0 ∉ u) :
    findLoop (.node leftTree rightTree tree exact inclusive false (UInt8.ofNat s.length) s) u rv locConf =
      match inclusive with
      | some inclusive => findLoop tree (u.drop (UInt8.ofNat s.length).toNat) .again inclusive.locConf
      | none => findLoop rightTree u rv locConf := by
  obtain ⟨hle, hle'⟩ := nodeLen_le s.length
  have hnode := @findLoop_node _ leftTree rightTree tree exact inclusive _ s u rv locConf hle h0
  dsimp only at hnode
  have hshort : (UInt8.ofNat s.length).toNat < u.length := by omega
  have hsame := take_short hle' htake
  rw [min_eq_right hshort.le] at hnode
  rcases hnode with ⟨-, hne, -⟩ | ⟨-, hne, -⟩ | ⟨-, hresult⟩
  · exact absurd hsame hne
  · exact absurd hsame hne
  · refine hresult.trans ((if_pos hshort).trans ?_)
    cases inclusive <;> rfl

/-- A node that is too short for its name makes the name wrong, or the one with another last byte. -/
theorem wrong_here {pre s : List UInt8} {left right : List (LocationQueue Conf)} {q : LocationQueue Conf}
    {leftTree rightTree tree : LocationTree Conf} (hnested : Nested pre (left ++ q :: right)) (hs : pre ++ s = q.name)
    (hlong : 255 < s.length) (hright : Builds pre.length right rightTree) (htree : Builds q.name.length q.list tree)
    (hredirect : NoRedirect (left ++ q :: right)) :
    ∃ u, u.length = s.length ∧ u.take 255 = s.take 255 ∧ 0 ∉ u ∧ ∀ rv locConf, rv ≠ .ok →
      Wrong (Holds · (left ++ q :: right)) (pre ++ u)
        (findLoop (.node leftTree rightTree tree q.exact q.inclusive false (UInt8.ofNat s.length) s) u rv locConf) := by
  obtain ⟨-, hnr, hnq, hfine, -, hbehind⟩ := hnested.split
  obtain ⟨-, hrr, hrq, -⟩ := hredirect.split
  have hmem : q ∈ left ++ q :: right := List.mem_append_right _ List.mem_cons_self
  have hinr : ∀ l, Holds l right → Holds l (left ++ q :: right) := fun l hl =>
    holds_append.mpr (Or.inr (holds_cons.mpr (Or.inr (Or.inr hl))))
  have hagain : Rc.again ≠ .ok := by decide
  have hagain' : Rc.again ≠ .declined := by decide
  have hne : s ≠ [] := List.ne_nil_of_length_pos (by omega)
  have hnul : 0 ∉ s := fun h => hfine.nul (hs ▸ List.mem_append_right _ h)
  -- below the element there are only names that begin with its name
  have hbelow : ∀ {uri l}, Holds l q.list → l.name <+: uri → q.name <+: uri := fun hl hbegins =>
    (longer_of_holds hnq hl).1.trans hbegins
  cases hexact : q.exact with
  | some e =>
      have he := hfine.exact e hexact
      have hexists : ∃ l, Holds l (left ++ q :: right) ∧ l.exactMatch = true ∧ l.name = pre ++ s :=
        ⟨e, .own hmem (Or.inl hexact), he.2, he.1.trans hs.symm⟩
      refine ⟨s, rfl, rfl, hnul, fun rv locConf hrv => ?_⟩
      rw [findLoop_cut rv locConf hlong rfl rfl hnul]
      cases hinclusive : q.inclusive with
      | none =>
          rcases @findLoop_sourced _ _ _ _ hright pre s rv locConf rfl hnr hrr hnul with heq | ⟨l, hl, hrest⟩
          · refine Or.inl ⟨hexists, ?_⟩
            dsimp only
            rw [heq]
            exact hrv
          · obtain ⟨r, hr, hname, -⟩ := hnr.root hl
            have hlt := (hbehind r hr).1.trans_le (place_le_of_begins hname)
            refine Or.inr ⟨l, hinr l hl, fun hbegins => ?_, hrest⟩
            rw [hs] at hbegins
            exact not_lt.mpr (place_le_of_begins hbegins) hlt
      | some i =>
          rcases @findLoop_sourced _ _ _ _ htree q.name (s.drop (UInt8.ofNat s.length).toNat) .again i.locConf rfl hnq hrq
            (fun h => hnul (List.mem_of_mem_drop h)) with heq | ⟨l, hl, hrest⟩
          · refine Or.inl ⟨hexists, ?_⟩
            dsimp only
            rw [heq]
            exact hagain
          · refine Or.inr ⟨l, .inner hmem hl, fun hbegins => ?_, hrest⟩
            rw [hs] at hbegins
            exact absurd hbegins.length_le (not_le.mpr (longer_of_holds hnq hl).2)
  | none =>
      obtain ⟨i, hinclusive⟩ := Option.ne_none_iff_exists'.mp (hfine.some hexact)
      have hlength := otherEnd_length hne
      have htake := otherEnd_take hlong
      have hnul' := otherEnd_nul hnul
      refine ⟨otherEnd s, hlength, htake, hnul', fun rv locConf _ => ?_⟩
      have hnot : ¬q.name <+: pre ++ otherEnd s := fun hbegins => by
        rw [← hs, List.prefix_append_right_inj] at hbegins
        exact otherEnd_ne s (hbegins.eq_of_length hlength.symm).symm
      rw [findLoop_cut rv locConf hlong hlength htake hnul', hinclusive]
      rcases @findLoop_sourced _ _ _ _ htree q.name ((otherEnd s).drop (UInt8.ofNat s.length).toNat) .again i.locConf rfl hnq
        hrq (fun h => hnul' (List.mem_of_mem_drop h)) with heq | ⟨l, hl, hrest⟩
      · refine Or.inr ⟨i, .own hmem (Or.inr hinclusive), (hfine.inclusive i hinclusive).1 ▸ hnot, ?_⟩
        dsimp only
        rw [heq]
        exact ⟨rfl, hagain'⟩
      · exact Or.inr ⟨l, .inner hmem hl, fun hbegins => hnot (hbelow hl hbegins), hrest⟩

/-- The order with a name is decided by the first bytes in which it differs. -/
theorem place_lt_take {a a' b : List UInt8} {n : ℕ} (htake : a'.take n = a.take n) (hne : a.take n ≠ b.take n)
    (hlt : place a < place b) (hn : n ≤ a'.length) : place a' < place b := by
  induction n generalizing a a' b with
  | zero => exact absurd rfl hne
  | succ n ih =>
      cases a' with
      | nil => exact absurd hn (by simp)
      | cons c' a' =>
          cases a with
          | nil => cases htake
          | cons c a =>
              rw [List.take_succ_cons, List.take_succ_cons] at htake
              obtain ⟨rfl, htail⟩ := List.cons.inj htake
              cases b with
              | nil => exact absurd hlt (List.not_lt_nil _)
              | cons d b =>
                  rw [List.take_succ_cons, List.take_succ_cons] at hne
                  rw [place_lt_cons] at hlt ⊢
                  rcases hlt with hlt | ⟨rfl, hlt⟩
                  · exact Or.inl hlt
                  · exact Or.inr ⟨rfl, ih htail (fun heq => hne (by rw [heq])) hlt (Nat.le_of_succ_le_succ hn)⟩

/-- Where a name is too long, the search gets a location wrong. -/
theorem findLoop_wrong {n : ℕ} {forest : List (LocationQueue Conf)} {tree : LocationTree Conf} (hbuilds : Builds n forest tree)
    {pre : List UInt8} (hn : n = pre.length) (hnested : Nested pre forest) (hredirect : NoRedirect forest)
    (hlong : Long pre forest) :
    ∃ l w u, Holds l forest ∧ l.name = pre ++ w ∧ 255 < w.length ∧ u.length = w.length ∧ u.take 255 = w.take 255 ∧ 0 ∉ u ∧
      ∀ rv locConf, rv ≠ .ok → Wrong (Holds · forest) (pre ++ u) (findLoop tree u rv locConf) := by
  induction hbuilds generalizing pre with
  | null =>
      cases hlong with
      | here hmem _ => cases hmem
      | inner hmem _ => cases hmem
  | @node n left right q leftTree rightTree tree hleft hright htree ihl ihr iht =>
      subst hn
      obtain ⟨hnl, hnr, hnq, hfine, hbefore, hbehind⟩ := hnested.split
      obtain ⟨hrl, hrr, hrq, hauto⟩ := hredirect.split
      obtain ⟨s, hs⟩ := hfine.inside
      have hdrop : q.name.drop pre.length = s := by rw [← hs, List.drop_left]
      have hlength : q.name.length - pre.length = s.length := by rw [← hs, List.length_append, Nat.add_sub_cancel_left]
      have hindex : pre.length + s.length = q.name.length := by rw [← hs, List.length_append]
      have hmem : q ∈ left ++ q :: right := List.mem_append_right _ List.mem_cons_self
      have hinl : ∀ l, Holds l left → Holds l (left ++ q :: right) := fun l hl => holds_append.mpr (Or.inl hl)
      have hinr : ∀ l, Holds l right → Holds l (left ++ q :: right) := fun l hl =>
        holds_append.mpr (Or.inr (holds_cons.mpr (Or.inr (Or.inr hl))))
      rw [hlength, hindex] at htree iht
      rw [hauto, hdrop, hlength]
      by_cases hcut : 255 < s.length
      · obtain ⟨l, hl⟩ := hfine.exists_own
        have hname := hfine.own_name hl
        obtain ⟨u, hlength', htake, hnul, hwrong⟩ := wrong_here hnested hs hcut hright htree hredirect
        exact ⟨l, s, u, .own hmem hl, hname.trans hs.symm, hcut, hlength', htake, hnul, hwrong⟩
      · -- the node is long enough, and the search goes to the part with the long name
        have hlen : (UInt8.ofNat s.length).toNat = s.length := by
          refine UInt8.toNat_ofNat_of_lt ?_
          show s.length < 256
          omega
        have hnode : ∀ {u : List UInt8} (rv : Rc) (locConf : Conf), 0 ∉ u → s.length < u.length →
            let result := findLoop (.node leftTree rightTree tree q.exact q.inclusive false (UInt8.ofNat s.length) s) u rv
              locConf
            (place u < place s ∧ u.take s.length ≠ s ∧ result = findLoop leftTree u rv locConf) ∨
              (place s < place u ∧ u.take s.length ≠ s ∧ result = findLoop rightTree u rv locConf) ∨
              u.take s.length = s ∧ result = match q.inclusive with
                | some inclusive => findLoop tree (u.drop s.length) .again inclusive.locConf
                | none => findLoop rightTree u rv locConf := by
          intro u rv locConf h0 hlt
          have hnode := @findLoop_node _ leftTree rightTree tree q.exact q.inclusive _ s u rv locConf hlen.le h0
          rw [hlen] at hnode
          dsimp only at hnode ⊢
          rwa [min_eq_right hlt.le, List.take_length, if_pos hlt] at hnode
        rcases hlong.split with hlt | hlong | hlong | hlong
        · rw [← hs, List.length_append] at hlt
          omega
        · obtain ⟨l, w, u, hl, hname, hw, hlength', htake, hnul, hwrong⟩ := iht rfl hnq hrq hlong
          have hsnul : 0 ∉ s := fun h => hfine.nul (hs ▸ List.mem_append_right _ h)
          have hsu : 0 ∉ s ++ u := fun h => (List.mem_append.mp h).elim hsnul hnul
          refine ⟨l, s ++ w, s ++ u, .inner hmem hl, ?_, ?_, ?_, ?_, hsu, fun rv locConf _ => ?_⟩
          · rw [hname, ← hs, List.append_assoc]
          · rw [List.length_append]
            omega
          · rw [List.length_append, List.length_append, hlength']
          · rw [List.take_append, List.take_append, take_short (Nat.sub_le _ _) htake]
          · have hlt : s.length < (s ++ u).length := by
              rw [List.length_append]
              omega
            obtain ⟨i, hinclusive⟩ : ∃ i, q.inclusive = some i := Option.ne_none_iff_exists'.mp fun hnone => by
              rw [hfine.leaf hnone] at hl
              exact not_holds_nil hl
            rcases hnode rv locConf hsu hlt with ⟨-, hne, -⟩ | ⟨-, hne, -⟩ | ⟨-, hresult⟩
            · exact absurd List.take_left hne
            · exact absurd List.take_left hne
            · rw [hinclusive] at hresult ⊢
              rw [hresult, List.drop_left]
              have happend : pre ++ (s ++ u) = q.name ++ u := by rw [← hs, List.append_assoc]
              rw [happend]
              exact (hwrong .again i.locConf (by decide)).mono fun l hl => .inner hmem hl
        · obtain ⟨l, w, u, hl, hname, hw, hlength', htake, hnul, hwrong⟩ := ihl rfl hnl hrl hlong
          refine ⟨l, w, u, hinl l hl, hname, hw, hlength', htake, hnul, fun rv locConf hrv => ?_⟩
          have hws : place w < place s := by
            have hlt := left_relevant hnl hbefore hl ⟨List.prefix_refl l.name, fun _ => rfl⟩
            rwa [hname, ← hs, place_append_lt] at hlt
          have htake' := take_short (Nat.not_lt.mp hcut) htake
          have hne : w.take s.length ≠ s.take s.length := fun heq => by
            rw [List.take_length] at heq
            exact not_lt.mpr (place_le_of_begins (List.prefix_iff_eq_take.mpr heq.symm)) hws
          have hus := place_lt_take htake' hne hws (by omega)
          rcases hnode rv locConf hnul (by omega) with ⟨-, -, hresult⟩ | ⟨hsu, -, -⟩ | ⟨heq, -⟩
          · rw [hresult]
            exact (hwrong rv locConf hrv).mono hinl
          · exact absurd hus (lt_asymm hsu)
          · rw [htake'] at heq
            rw [List.take_length] at hne
            exact absurd heq hne
        · obtain ⟨l, w, u, hl, hname, hw, hlength', htake, hnul, hwrong⟩ := ihr rfl hnr hrr hlong
          refine ⟨l, w, u, hinr l hl, hname, hw, hlength', htake, hnul, fun rv locConf hrv => ?_⟩
          obtain ⟨hsw, hnone⟩ : place s < place w ∧ (q.inclusive ≠ none → ¬s <+: w) := by
            have hboth := right_relevant hnr hbehind hl ⟨List.prefix_refl l.name, fun _ => rfl⟩
            rwa [hname, ← hs, place_append_lt, List.prefix_append_right_inj] at hboth
          have htake' := take_short (Nat.not_lt.mp hcut) htake
          have hright' := (hwrong rv locConf hrv).mono hinr
          rcases hnode rv locConf hnul (by omega) with ⟨hus, hne, -⟩ | ⟨-, -, hresult⟩ | ⟨heq, hresult⟩
          · have hws := place_lt_take htake'.symm (by rwa [List.take_length]) hus (by omega)
            exact absurd hsw (lt_asymm hws)
          · rwa [hresult]
          · rw [htake'] at heq
            have hinclusive : q.inclusive = none := by
              by_contra hsome
              exact hnone hsome (List.prefix_iff_eq_take.mpr heq.symm)
            rw [hinclusive] at hresult ⊢
            rwa [hresult]

end NginxDtls.Locations
