import NginxDtls.ResolverAnswer

/-! What is left of a response that is dropped while its answers are scanned: the time to live of the node, which the
scan lowers before it looks at a record. -/

namespace NginxDtls.Dns

open Reading

variable {n : ℕ} {b : ℕ → UInt8}

/-- An address record of the type that was asked for, of the right length and in the message; records of other types
are not looked into. -/
def Record.Accepted (n qtype : ℕ) (r : Record) : Prop :=
  (r.type = ngxResolveA → qtype = ngxResolveA ∧ r.len = 4 ∧ r.data + 4 ≤ n) ∧
    (r.type = ngxResolveAaaa → qtype = ngxResolveAaaa ∧ r.len = 16 ∧ r.data + 16 ≤ n)

instance (n qtype : ℕ) (r : Record) : Decidable (r.Accepted n qtype) :=
  inferInstanceAs (Decidable ((_ → _) ∧ (_ → _)))

/-- The times to live of the records of class IN from `i` on, up to the first that is not accepted. -/
def scannedTtls (n qtype : ℕ) (b : ℕ → UInt8) : ℕ → ℕ → List ℕ
  | 0, _ => []
  | a + 1, i =>
    match (readRecord n i).val b with
    | .short => []
    | .invalidName => []
    | .record r =>
      if r.cls ≠ 1 then []
      else r.ttl :: if r.Accepted n qtype then scannedTtls n qtype b a (r.data + r.len) else []

theorem scanA_ttl {qtype a i naddrs ttl : ℕ} {cname : Option ℕ} :
    ((scanA n qtype a i naddrs cname ttl).val b).2 = (scannedTtls n qtype b a i).foldl min ttl := by
  induction a generalizing i naddrs cname ttl with
  | zero => rfl
  | succ a ih =>
    rw [scanA, scannedTtls, val_bind]
    cases (readRecord n i).val b with
    | short => rfl
    | invalidName => rfl
    | record r =>
      dsimp only
      by_cases hcls : r.cls = 1
      case neg => rw [if_pos hcls, if_pos hcls]; rfl
      rw [if_neg (not_not.mpr hcls), if_neg (not_not.mpr hcls), List.foldl_cons]
      have hnext {k : ℕ} {c : Option ℕ} (h : r.Accepted n qtype) :
          ((scanA n qtype a (r.data + r.len) k c (min ttl r.ttl)).val b).2 =
            (if r.Accepted n qtype then scannedTtls n qtype b a (r.data + r.len) else []).foldl min (min ttl r.ttl) := by
        rw [if_pos h]
        exact ih
      by_cases hA : r.type = ngxResolveA
      · have haccepted : r.Accepted n qtype ↔ qtype = ngxResolveA ∧ r.len = 4 ∧ r.data + 4 ≤ n :=
          ⟨fun h => h.1 hA, fun h => ⟨fun _ => h, fun hAaaa => absurd (hA.symm.trans hAaaa) (by decide)⟩⟩
        rw [if_pos hA]
        by_cases h : r.Accepted n qtype
        · obtain ⟨hqtype, hlen, hroom⟩ := haccepted.mp h
          rw [if_neg (not_not.mpr hqtype), if_neg (not_not.mpr hlen), if_neg (not_lt.mpr hroom)]
          exact hnext h
        · rw [if_neg h]
          split_ifs with hqtype hlen hroom
          · rfl
          · rfl
          · rfl
          · exact absurd (haccepted.mpr ⟨not_not.mp hqtype, not_not.mp hlen, not_lt.mp hroom⟩) h
      by_cases hAaaa : r.type = ngxResolveAaaa
      · have haccepted : r.Accepted n qtype ↔ qtype = ngxResolveAaaa ∧ r.len = 16 ∧ r.data + 16 ≤ n :=
          ⟨fun h => h.2 hAaaa, fun h => ⟨fun hA' => absurd hA' hA, fun _ => h⟩⟩
        rw [if_neg hA, if_pos hAaaa]
        by_cases h : r.Accepted n qtype
        · obtain ⟨hqtype, hlen, hroom⟩ := haccepted.mp h
          rw [if_neg (not_not.mpr hqtype), if_neg (not_not.mpr hlen), if_neg (not_lt.mpr hroom)]
          exact hnext h
        · rw [if_neg h]
          split_ifs with hqtype hlen hroom
          · rfl
          · rfl
          · rfl
          · exact absurd (haccepted.mpr ⟨not_not.mp hqtype, not_not.mp hlen, not_lt.mp hroom⟩) h
      have haccepted : r.Accepted n qtype := ⟨fun h => absurd h hA, fun h => absurd h hAaaa⟩
      rw [if_neg hA, if_neg hAaaa]
      by_cases hcname : r.type = ngxResolveCname
      · rw [if_pos hcname]
        exact hnext haccepted
      · rw [if_neg hcname]
        exact hnext haccepted

/-- A smallest time to live stays the same if there is none below it. -/
theorem foldl_min_eq_iff {l : List ℕ} {ttl : ℕ} : l.foldl min ttl = ttl ↔ ∀ x ∈ l, ttl ≤ x := by
  have hle (l : List ℕ) (t : ℕ) : l.foldl min t ≤ t := by
    induction l generalizing t with
    | nil => exact le_rfl
    | cons x l ih => exact (ih (min t x)).trans (min_le_left t x)
  induction l with
  | nil => exact ⟨fun _ x hx => absurd hx List.not_mem_nil, fun _ => rfl⟩
  | cons x l ih =>
    rw [List.foldl_cons, List.forall_mem_cons]
    by_cases hx : ttl ≤ x
    · rw [min_eq_left hx, and_iff_right hx]
      exact ih
    · refine iff_of_false (fun h => hx ?_) fun h => hx h.1
      exact h ▸ (hle l (min ttl x)).trans (min_le_right ttl x)

/-- A tree with the node that it has is the same tree. -/
theorem Tree.set_eq_self_iff {K : Type} [DecidableEq K] {t : Tree K} {k : K} {rn rn' : Node}
    (hnode : t.node k = some rn) : t.set k rn' = t ↔ rn' = rn := by
  constructor
  · intro h
    have hk := congrFun (congrArg Tree.node h) k
    simp only [Tree.set, Function.update_self, hnode] at hk
    exact Option.some_inj.mp hk
  · rintro rfl
    rw [Tree.set, ← hnode, Function.update_eq_self]

theorem Node.ttl_eq_iff {rn : Node} {ttl : ℕ} : { rn with ttl := ttl } = rn ↔ ttl = rn.ttl :=
  ⟨fun h => congrArg Node.ttl h, fun h => by rw [h]⟩

/-- The node that the answers are for is the one of the tree. -/
theorem checkA_node {alloc : Site → Bool} {r : Resolver} {m : Answers} {qtype : ℕ} {k : List UInt8} {rn : Node}
    (hcheck : (checkA alloc r m qtype).val b = .inr (k, rn)) : r.names.node k = some rn := by
  rw [checkA, val_bind] at hcheck
  cases hname : (ngxResolverCopy (alloc .question) 12 m.n).val b with
  | none => rw [hname] at hcheck; cases hcheck
  | some name =>
    rw [hname] at hcheck
    dsimp only at hcheck
    cases hnode : r.names.node name with
    | none => rw [hnode] at hcheck; cases hcheck
    | some node =>
      rw [hnode] at hcheck
      dsimp only at hcheck
      generalize (if m.code = 0 then node.code else m.code) = code at hcheck
      split_ifs at hcheck
      all_goals try cases hcheck
      cases hfail : failA alloc r qtype name node code m.nan with
      | some res => rw [hfail] at hcheck; cases hcheck
      | none =>
        rw [hfail] at hcheck
        cases hcheck
        exact hnode

/-! ### Which responses are dropped -/

theorem exportAddrs_not_dropped {alloc : Site → Bool} {r : Resolver} {k : List UInt8} {rn : Node} {err : String} :
    (exportAddrs alloc r k rn).1 ≠ .dropped err := by
  rw [exportAddrs]
  split_ifs <;> exact fun h => by cases h

/-- Before the scan nothing is dropped for what it is. -/
theorem checkA_not_dropped {alloc : Site → Bool} {r : Resolver} {m : Answers} {qtype : ℕ} {res : Outcome}
    {err : String} (hcheck : (checkA alloc r m qtype).val b = .inl res) : res.1 ≠ .dropped err := by
  rw [checkA, val_bind] at hcheck
  cases hname : (ngxResolverCopy (alloc .question) 12 m.n).val b with
  | none => rw [hname] at hcheck; cases hcheck; exact fun h => by cases h
  | some name =>
    rw [hname] at hcheck
    dsimp only at hcheck
    cases hnode : r.names.node name with
    | none => rw [hnode] at hcheck; cases hcheck; exact fun h => by cases h
    | some node =>
      rw [hnode] at hcheck
      dsimp only at hcheck
      generalize (if m.code = 0 then node.code else m.code) = code at hcheck
      split_ifs at hcheck
      all_goals try (cases hcheck; exact fun h => by cases h)
      cases hfail : failA alloc r qtype name node code m.nan with
      | none => rw [hfail] at hcheck; cases hcheck
      | some out =>
        rw [hfail] at hcheck
        cases hcheck
        rw [failA] at hfail
        dsimp only at hfail
        generalize (if code = 0 ∧ m.nan = 0 then ngxResolveNxdomain else code) = code' at hfail
        split_ifs at hfail
        all_goals
          obtain rfl := Option.some_inj.mp hfail
          first
          | exact exportAddrs_not_dropped
          | exact fun h => by cases h

/-- After the scan nothing is dropped for what it is. -/
theorem finishA_not_dropped {alloc : Site → Bool} {r : Resolver} {m : Answers} {qtype naddrs : ℕ} {k : List UInt8}
    {rn : Node} {cname : Option ℕ} {err : String} :
    ((finishA alloc r m qtype k rn naddrs cname).val b).1 ≠ .dropped err := by
  rw [finishA, val_bind]
  cases (storeAddrs alloc m qtype rn naddrs).val b with
  | none => exact fun h => by cases h
  | some rn =>
    dsimp only
    split_ifs <;> try exact exportAddrs_not_dropped
    all_goals try exact fun h => by cases h
    all_goals
      cases cname with
      | none => exact fun h => by cases h
      | some src =>
        dsimp only
        first
        | exact fun h => by cases h
        | rw [val_bind]
          split <;> exact fun h => by cases h

/-- A response that is dropped leaves the resolver as it was if and only if no record that the scan has gone through
has a time to live below that of the node. -/
theorem dropped_unchanged_iff (alloc : Site → Bool) (r : Resolver) (m : Answers) (qtype : ℕ) (b : ℕ → UInt8)
    (err : String) (hdrop : ((ngxResolverProcessA alloc r m qtype).val b).1 = .dropped err) :
    ((ngxResolverProcessA alloc r m qtype).val b).2.1 = r ↔
      ∀ k rn, (checkA alloc r m qtype).val b = .inr (k, rn) →
        ∀ ttl ∈ scannedTtls m.n qtype b m.nan m.ans, rn.ttl ≤ ttl := by
  rw [ngxResolverProcessA, val_bind] at hdrop ⊢
  cases hcheck : (checkA alloc r m qtype).val b with
  | inl res =>
    rw [hcheck] at hdrop
    exact absurd hdrop (checkA_not_dropped hcheck)
  | inr node =>
    obtain ⟨k, rn⟩ := node
    rw [hcheck] at hdrop
    have httl := @scanA_ttl m.n b qtype m.nan m.ans 0 rn.ttl none
    dsimp only at hdrop ⊢
    rw [val_bind] at hdrop ⊢
    cases hscan : (scanA m.n qtype m.nan m.ans 0 none rn.ttl).val b with
    | mk scan ttl =>
      rw [hscan] at hdrop httl
      cases scan with
      | scanned naddrs cname => exact absurd hdrop finishA_not_dropped
      | exit e =>
        have hsame : { r with names := r.names.set k { rn with ttl := ttl } } = r ↔ ttl = rn.ttl := by
          rw [← Node.ttl_eq_iff, ← Tree.set_eq_self_iff (checkA_node hcheck)]
          exact ⟨fun h => congrArg Resolver.names h, fun h => by rw [h]⟩
        refine hsame.trans ?_
        rw [show ttl = _ from httl, foldl_min_eq_iff]
        refine ⟨fun h k' rn' hnode => ?_, fun h => h k rn rfl⟩
        cases hnode
        exact h

/-- The response to the query for the addresses of `a` with a record of one minute and then a record of the wrong
length. -/
def wrongLength : List UInt8 :=
  [0, 0, 0x80, 0, 0, 1, 0, 2, 0, 0, 0, 0, 1, 97, 0, 0, 1, 0, 1,
    0xc0, 12, 0, 1, 0, 1, 0, 0, 0, 60, 0, 4, 10, 0, 0, 1,
    0xc0, 12, 0, 1, 0, 1, 0, 0, 0, 60, 0, 5, 10, 0, 0, 1, 0]

/-- The response with one address for an hour. -/
def oneAddress : List UInt8 :=
  [0, 0, 0x80, 0, 0, 1, 0, 1, 0, 0, 0, 0, 1, 97, 0, 0, 1, 0, 1,
    0xc0, 12, 0, 1, 0, 1, 0, 0, 14, 16, 0, 4, 10, 0, 0, 1]

/-- A resolver that has asked for the addresses of `a`. -/
def askedAddrs : Resolver where
  names := ⟨fun k => if k = [97] then some { name := [97], query := some 0, naddrs6 := 0 } else none, [[97]], []⟩
  srvs := ⟨fun _ => none, [], []⟩
  addrs := ⟨fun _ => none, [], []⟩
  addrs6 := ⟨fun _ => none, [], []⟩
  now := 0
  expire := 30
  valid := 0
  resendTimeout := 5

/-- What `ngx_resolver_process_a` makes of a message, with the answers after the question for `a`. -/
def processAnswers (r : Resolver) (message : List UInt8) (nan : ℕ) : Outcome :=
  (ngxResolverProcessA (fun _ => true) r
    { n := message.length, ident := 0, code := 0, nan := nan, trunc := false, ans := 19 } ngxResolveA).val
    (message.getD · 0)

theorem wrong_length_lowers_ttl :
    (processAnswers askedAddrs wrongLength 2).1 = .dropped "invalid A record in DNS response" ∧
      (processAnswers askedAddrs wrongLength 2).2.1.names.node [97] ≠ askedAddrs.names.node [97] ∧
      ((processAnswers askedAddrs oneAddress 1).2.1.names.node [97]).map Node.valid = some 3600 ∧
      ((processAnswers (processAnswers askedAddrs wrongLength 2).2.1 oneAddress 1).2.1.names.node [97]).map
        Node.valid = some 60 := by
  decide

theorem dropped_unchanged_iff_wrong_length :
    ((ngxResolverProcessA (fun _ => true) askedAddrs
      { n := 52, ident := 0, code := 0, nan := 2, trunc := false, ans := 19 } ngxResolveA).val
        (wrongLength.getD · 0)).1 = .dropped "invalid A record in DNS response" ∧
    (((ngxResolverProcessA (fun _ => true) askedAddrs
      { n := 52, ident := 0, code := 0, nan := 2, trunc := false, ans := 19 } ngxResolveA).val
        (wrongLength.getD · 0)).2.1 = askedAddrs ↔
      ∀ k rn, (checkA (fun _ => true) askedAddrs
        { n := 52, ident := 0, code := 0, nan := 2, trunc := false, ans := 19 } ngxResolveA).val
          (wrongLength.getD · 0) = .inr (k, rn) →
        ∀ ttl ∈ scannedTtls 52 ngxResolveA (wrongLength.getD · 0) 2 19, rn.ttl ≤ ttl) :=
  ⟨by decide, dropped_unchanged_iff _ _ _ _ _ "invalid A record in DNS response" (by decide)⟩

end NginxDtls.Dns
