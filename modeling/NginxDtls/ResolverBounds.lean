import NginxDtls.ResolverAnswer

/-! Which bytes of a response are read. The passes without checks go where the passes with checks went. Only one check
is not enough: a name that starts at the end of the message is read, after the six bytes of a service. -/

namespace NginxDtls.Dns

open Reading

variable {n : ℕ} {b : ℕ → UInt8}

/-! ### Names -/

theorem rd16_inside {i : ℕ} (h : i + 1 < n) : (rd16 i).Inside n b := by
  simp only [rd16, inside_rd_bind, inside_pure, and_true]
  omega

theorem copyScan_inside {k p len : ℕ} (hp : p < n) : (copyScan n k p len).Inside n b := by
  induction k generalizing p len with
  | zero => exact inside_pure _
  | succ k ih =>
    simp only [copyScan, inside_rd_bind, inside_ite, inside_pure, implies_true, true_and]
    exact ⟨hp, fun _ => ⟨fun _ _ hlast => ⟨by omega, fun hnext => ih (by omega)⟩, fun _ hnext => ih (by omega)⟩⟩

/-- The second pass reads what the first has read. -/
theorem copyLabels_inside {k p len len' : ℕ} {dst : List UInt8} (hp : p < n)
    (hscan : (copyScan n k p len).val b = some len') : (copyLabels k p dst).Inside n b := by
  induction k generalizing p len dst with
  | zero => exact inside_pure _
  | succ k ih =>
    rw [copyScan] at hscan
    simp only [val_rd_bind, val_ite, val_pure] at hscan
    rw [copyLabels]
    simp only [inside_rd_bind, inside_ite, inside_bytesFrom_bind, inside_pure, implies_true, true_and]
    refine ⟨hp, fun hzero => ?_⟩
    rw [if_neg hzero] at hscan
    split_ifs at hscan with hpointer hlabel hlast hnext hnext
    · exact ⟨fun _ => ⟨by omega, ih (by omega) hscan⟩, fun h => absurd hpointer h⟩
    · exact ⟨fun h => absurd h hpointer, fun _ => ⟨inside_bytesFrom (by omega), ih (by omega) hscan⟩⟩

theorem ngxResolverCopy_inside {alloc : Bool} {src : ℕ} (hsrc : src < n) :
    (ngxResolverCopy alloc src n).Inside n b := by
  simp only [ngxResolverCopy, inside_bind, inside_ite, inside_pure, implies_true, true_and]
  refine ⟨copyScan_inside hsrc, fun hsome _ _ => ?_⟩
  cases hlen : (copyScan n 128 src 0).val b with
  | none => exact absurd (by rw [hlen]; rfl) hsome
  | some len => exact copyLabels_inside hsrc hlen

theorem skipName_inside {k i : ℕ} : (skipName n k i).Inside n b := by
  induction k generalizing i with
  | zero => exact inside_pure _
  | succ k ih =>
    simp only [skipName, inside_rd_bind, inside_ite, inside_pure, implies_true, true_and, and_true]
    exact fun hi => ⟨hi, fun _ _ => ih⟩

/-- The loop without checks ends where the loop with checks did. -/
theorem skipChecked_of {k i j : ℕ} (h : (skipName n k i).val b = .root j ∨ (skipName n k i).val b = .pointer j) :
    (skipChecked k i).Inside n b ∧ (skipChecked k i).val b = some j := by
  induction k generalizing i with
  | zero => simp [skipName] at h
  | succ k ih =>
    rw [skipName] at h
    rw [skipChecked]
    simp only [val_ite, val_rd_bind, val_pure] at h
    simp only [inside_rd_bind, inside_ite, inside_pure, implies_true, true_and, val_rd_bind, val_ite, val_pure]
    by_cases hi : i < n
    · rw [if_pos hi] at h
      split_ifs at h ⊢ with hpointer hzero
      · simp at h
        exact ⟨⟨hi, fun hp => absurd hpointer hp⟩, by rw [h]⟩
      · simp at h
        exact ⟨⟨hi, fun _ hz => absurd hzero hz⟩, by rw [h]⟩
      · exact ⟨⟨hi, fun _ _ => (ih h).1⟩, (ih h).2⟩
    · simp [hi] at h

/-! ### Records -/

theorem readHeader_inside {i : ℕ} (h : i + 10 < n) : (readHeader i).Inside n b := by
  simp only [readHeader, inside_bind, inside_pure, and_true]
  exact ⟨rd16_inside (by omega), rd16_inside (by omega), rd16_inside (by omega), rd16_inside (by omega),
    rd16_inside (by omega)⟩

/-- What stands at the start of a record. -/
theorem readRecord_spec {i : ℕ} : (readRecord n i).Inside n b ∧
    ∀ r, (readRecord n i).val b = .record r → r.data < n ∧ (readChecked n i).Inside n b ∧
      (readChecked n i).val b = some (r.type, r.data, r.len) := by
  have hheader {j : ℕ} (hj : (skipName n (n + 1) i).val b = .root j ∨ (skipName n (n + 1) i).val b = .pointer j)
      (hroom : j + 10 < n) {r : Record} (hr : (readHeader j).val b = r) :
      r.data < n ∧ (readChecked n i).Inside n b ∧ (readChecked n i).val b = some (r.type, r.data, r.len) := by
    obtain ⟨hinside, hval⟩ := skipChecked_of hj
    subst hr
    refine ⟨hroom, ?_, ?_⟩
    · rw [readChecked, inside_bind, hval]
      refine ⟨hinside, ?_⟩
      dsimp only
      rw [inside_bind, inside_bind]
      exact ⟨rd16_inside (by omega), rd16_inside (by omega), inside_pure _⟩
    · rw [readChecked, val_bind, hval]
      rfl
  rw [readRecord, inside_bind, val_bind]
  cases hname : (skipName n (n + 1) i).val b with
  | short => exact ⟨⟨skipName_inside, inside_pure _⟩, fun r hr => by cases hr⟩
  | root j =>
    dsimp only
    split_ifs with hshort hroom
    · exact ⟨⟨skipName_inside, inside_pure _⟩, fun r hr => by cases hr⟩
    · exact ⟨⟨skipName_inside, inside_pure _⟩, fun r hr => by cases hr⟩
    · refine ⟨⟨skipName_inside, ?_⟩, fun r hr => hheader (Or.inl hname) (not_le.mp hroom) (Scan.record.inj hr)⟩
      rw [inside_bind]
      exact ⟨readHeader_inside (not_le.mp hroom), inside_pure _⟩
  | pointer j =>
    dsimp only
    split_ifs with hroom
    · exact ⟨⟨skipName_inside, inside_pure _⟩, fun r hr => by cases hr⟩
    · refine ⟨⟨skipName_inside, ?_⟩, fun r hr => hheader (Or.inr hname) (not_le.mp hroom) (Scan.record.inj hr)⟩
      rw [inside_bind]
      exact ⟨readHeader_inside (not_le.mp hroom), inside_pure _⟩

/-! ### Addresses -/

theorem scanA_inside {qtype a i naddrs ttl : ℕ} {cname : Option ℕ} :
    (scanA n qtype a i naddrs cname ttl).Inside n b := by
  induction a generalizing i naddrs cname ttl with
  | zero => exact inside_pure _
  | succ a ih =>
    rw [scanA, inside_bind]
    refine ⟨readRecord_spec.1, ?_⟩
    cases (readRecord n i).val b with
    | short => exact inside_pure _
    | invalidName => exact inside_pure _
    | record r =>
      dsimp only
      split_ifs <;> first | exact inside_pure _ | exact ih

/-- What the first pass has accepted, the second pass reads in the message; an alias is in the message. -/
theorem collectAddrs_inside {qtype a i naddrs ttl total ttl' naddrs' : ℕ} {cname cname' : Option ℕ}
    {addrs : List (List UInt8)} (hcname : ∀ src ∈ cname, src < n)
    (h : (scanA n qtype a i naddrs cname ttl).val b = (.scanned naddrs' cname', ttl')) :
    (collectAddrs n total a i addrs).Inside n b ∧ ∀ src ∈ cname', src < n := by
  induction a generalizing i naddrs cname ttl addrs with
  | zero =>
    rw [scanA, val_pure] at h
    cases h
    exact ⟨inside_pure _, hcname⟩
  | succ a ih =>
    rw [scanA, val_bind] at h
    obtain ⟨-, hspec⟩ := @readRecord_spec n b i
    cases hrecord : (readRecord n i).val b with
    | short => rw [hrecord] at h; cases h
    | invalidName => rw [hrecord] at h; cases h
    | record r =>
      rw [hrecord] at h
      obtain ⟨hdata, hinside, hval⟩ := hspec r hrecord
      rw [collectAddrs, inside_bind, hval]
      dsimp only at h ⊢
      simp only [inside_ite, inside_bytesFrom_bind, inside_pure, implies_true, true_and]
      have hnext {c : Option ℕ} {k t : ℕ} (hc : ∀ src ∈ c, src < n)
          (hscan : (scanA n qtype a (r.data + r.len) k c t).val b = (.scanned naddrs' cname', ttl'))
          (hroom : r.type = ngxResolveA ∨ r.type = ngxResolveAaaa →
            r.data + (if r.type = ngxResolveA then 4 else 16) ≤ n) :
          ((readChecked n i).Inside n b ∧
            (r.type = ngxResolveA ∨ r.type = ngxResolveAaaa →
              (bytesFrom r.data (if r.type = ngxResolveA then 4 else 16)).Inside n b ∧
              (¬(addrs ++ [(List.range' r.data (if r.type = ngxResolveA then 4 else 16)).map b]).length = total →
                (collectAddrs n total a (r.data + r.len)
                  (addrs ++ [(List.range' r.data (if r.type = ngxResolveA then 4 else 16)).map b])).Inside n b)) ∧
            (¬(r.type = ngxResolveA ∨ r.type = ngxResolveAaaa) →
              (collectAddrs n total a (r.data + r.len) addrs).Inside n b)) ∧ ∀ src ∈ cname', src < n :=
        ⟨⟨hinside, fun htype => ⟨inside_bytesFrom (hroom htype), fun _ => (ih hc hscan).1⟩,
          fun _ => (ih hc hscan).1⟩, (@ih _ _ _ _ addrs hc hscan).2⟩
      split_ifs at h with hcls htype hqtype hlen hshort haaaa hqtype hlen hshort halias
      all_goals try (rw [val_pure] at h; cases h)
      · exact hnext hcname h fun _ => by rw [if_pos htype]; omega
      · exact hnext hcname h fun _ => by rw [if_neg htype]; omega
      · refine hnext ?_ h fun hor => absurd hor (not_or.mpr ⟨htype, haaaa⟩)
        intro src hsrc
        obtain rfl := Option.mem_some_iff.mp hsrc
        exact hdata
      · exact hnext hcname h fun hor => absurd hor (not_or.mpr ⟨htype, haaaa⟩)

theorem storeAddrs_inside {alloc : Site → Bool} {m : Answers} {qtype naddrs : ℕ} {rn : Node}
    (hcollect : (collectAddrs m.n naddrs m.nan m.ans []).Inside m.n b) :
    (storeAddrs alloc m qtype rn naddrs).Inside m.n b := by
  rw [storeAddrs]
  split_ifs
  · exact inside_pure _
  · exact inside_pure _
  · rw [inside_bind]
    exact ⟨hcollect, inside_pure _⟩

theorem finishA_inside {alloc : Site → Bool} {r : Resolver} {m : Answers} {qtype naddrs : ℕ} {k : List UInt8}
    {rn : Node} {cname : Option ℕ} (hcollect : (collectAddrs m.n naddrs m.nan m.ans []).Inside m.n b)
    (hcname : ∀ src ∈ cname, src < m.n) : (finishA alloc r m qtype k rn naddrs cname).Inside m.n b := by
  rw [finishA, inside_bind]
  refine ⟨storeAddrs_inside hcollect, ?_⟩
  cases (storeAddrs alloc m qtype rn naddrs).val b with
  | none => exact inside_pure _
  | some rn =>
    dsimp only
    split_ifs <;> try exact inside_pure _
    all_goals
      cases cname with
      | none => exact inside_pure _
      | some src =>
        first
        | exact inside_pure _
        | rw [inside_bind]
          refine ⟨ngxResolverCopy_inside (hcname src rfl), ?_⟩
          split <;> exact inside_pure _

theorem checkA_inside {alloc : Site → Bool} {r : Resolver} {m : Answers} {qtype : ℕ} (hn : 12 < m.n) :
    (checkA alloc r m qtype).Inside m.n b := by
  rw [checkA, inside_bind]
  refine ⟨ngxResolverCopy_inside hn, ?_⟩
  split
  · exact inside_pure _
  · split
    · exact inside_pure _
    · split_ifs <;> first | exact inside_pure _ | (dsimp only; split <;> exact inside_pure _)

theorem ngxResolverProcessA_inside {alloc : Site → Bool} {r : Resolver} {m : Answers} {qtype : ℕ} (hn : 12 < m.n) :
    (ngxResolverProcessA alloc r m qtype).Inside m.n b := by
  rw [ngxResolverProcessA, inside_bind]
  refine ⟨checkA_inside hn, ?_⟩
  cases (checkA alloc r m qtype).val b with
  | inl res => exact inside_pure _
  | inr node =>
    dsimp only
    rw [inside_bind]
    refine ⟨scanA_inside, ?_⟩
    cases hscan : (scanA m.n qtype m.nan m.ans 0 none node.2.ttl).val b with
    | mk scan ttl =>
      cases scan with
      | exit e => exact inside_pure _
      | scanned naddrs cname =>
        obtain ⟨hcollect, hcname⟩ := @collectAddrs_inside m.n b qtype m.nan m.ans 0 _ naddrs ttl naddrs none cname []
          (fun src hsrc => by cases hsrc) hscan
        exact finishA_inside hcollect hcname

/-! ### Services -/

/-- The scan of the answers from `i` on gets to a service that has nothing but its six bytes left in the message. -/
def srvOverruns (n : ℕ) (b : ℕ → UInt8) : ℕ → ℕ → Prop
  | 0, _ => False
  | a + 1, i =>
    match (readRecord n i).val b with
    | .short => False
    | .invalidName => False
    | .record r =>
      r.cls = 1 ∧
        if r.type = ngxResolveSrv then
          r.data + 6 = n ∨
            r.data + 6 < n ∧ (copyScan n 128 (r.data + 6) 0).val b ≠ none ∧ srvOverruns n b a (r.data + r.len)
        else srvOverruns n b a (r.data + r.len)

theorem copyScan_reads (last k p len : ℕ) : p ∈ (copyScan last (k + 1) p len b).2 := by
  rw [copyScan]
  exact List.mem_cons_self

theorem scanSrv_inside_iff {a i nsrvs ttl : ℕ} {cname : Option ℕ} :
    (scanSrv n a i nsrvs cname ttl).Inside n b ↔ ¬srvOverruns n b a i := by
  induction a generalizing i nsrvs cname ttl with
  | zero => exact ⟨fun _ => not_false, fun _ => inside_pure _⟩
  | succ a ih =>
    rw [scanSrv, inside_bind, srvOverruns, and_iff_right readRecord_spec.1]
    cases (readRecord n i).val b with
    | short => exact ⟨fun _ => not_false, fun _ => inside_pure _⟩
    | invalidName => exact ⟨fun _ => not_false, fun _ => inside_pure _⟩
    | record r =>
      dsimp only
      by_cases hcls : r.cls = 1
      case neg => simp [hcls]
      by_cases hsrv : r.type = ngxResolveSrv
      case neg =>
        simp only [hcls, hsrv, ne_eq, not_true_eq_false, if_false, true_and]
        split_ifs <;> exact ih
      simp only [hcls, hsrv, ne_eq, not_true_eq_false, if_true, if_false, true_and]
      rcases lt_trichotomy (r.data + 6) n with hlt | heq | hgt
      · rw [if_neg (by omega), inside_bind, and_iff_right (copyScan_inside hlt)]
        cases htarget : (copyScan n 128 (r.data + 6) 0).val b with
        | none => simp [hlt.ne]
        | some len =>
          simp only [Option.isNone_some, Bool.false_eq_true, if_false, hlt.ne, hlt, reduceCtorEq, not_false_eq_true,
            true_and, false_or]
          exact ih
      · rw [if_neg (by omega), inside_bind]
        refine ⟨fun h => ?_, fun h => absurd (Or.inl heq) h⟩
        have hread := h.1 _ (copyScan_reads n 127 (r.data + 6) 0)
        omega
      · rw [if_pos hgt]
        have hno : ¬(r.data + 6 = n ∨ r.data + 6 < n ∧ (copyScan n 128 (r.data + 6) 0).val b ≠ none ∧
            srvOverruns n b a (r.data + r.len)) := by omega
        exact ⟨fun _ => hno, fun _ => inside_pure _⟩

/-- What the first pass has accepted, the second pass reads in the message; an alias is in the message. -/
theorem collectSrvs_inside {alloc : Site → Bool} {a i nsrvs ttl nsrvs' ttl' : ℕ} {cname cname' : Option ℕ}
    {srvs : List Srv} (hcname : ∀ src ∈ cname, src < n) (hno : ¬srvOverruns n b a i)
    (h : (scanSrv n a i nsrvs cname ttl).val b = (.scanned nsrvs' cname', ttl')) :
    (collectSrvs alloc n a i srvs).Inside n b ∧ ∀ src ∈ cname', src < n := by
  induction a generalizing i nsrvs cname ttl srvs with
  | zero =>
    rw [scanSrv, val_pure] at h
    cases h
    exact ⟨inside_pure _, hcname⟩
  | succ a ih =>
    rw [scanSrv, val_bind] at h
    rw [srvOverruns] at hno
    obtain ⟨-, hspec⟩ := @readRecord_spec n b i
    cases hrecord : (readRecord n i).val b with
    | short => rw [hrecord] at h; cases h
    | invalidName => rw [hrecord] at h; cases h
    | record r =>
      rw [hrecord] at h hno
      obtain ⟨hdata, hinside, hval⟩ := hspec r hrecord
      rw [collectSrvs, inside_bind, hval]
      dsimp only at h hno ⊢
      rw [and_assoc]
      refine ⟨hinside, ?_⟩
      by_cases hcls : r.cls = 1
      case neg => rw [if_pos hcls] at h; cases h
      rw [if_neg (not_not.mpr hcls)] at h
      split_ifs at h hno ⊢ with hsrv hshort halias
      · cases h
      · rw [val_bind] at h
        have hlt : r.data + 6 < n := by
          rcases Nat.lt_or_eq_of_le (not_lt.mp hshort) with hlt | heq
          · exact hlt
          · exact absurd ⟨hcls, Or.inl heq⟩ hno
        cases htarget : (copyScan n 128 (r.data + 6) 0).val b with
        | none => rw [htarget] at h; cases h
        | some len =>
          rw [htarget] at h
          have hrest : ¬srvOverruns n b a (r.data + r.len) := fun hover =>
            hno ⟨hcls, Or.inr ⟨hlt, by rw [htarget]; exact Option.some_ne_none len, hover⟩⟩
          have hnext (srvs : List Srv) := @ih _ _ _ _ srvs hcname hrest h
          refine ⟨?_, (hnext []).2⟩
          simp only [inside_bind]
          refine ⟨rd16_inside (by omega), rd16_inside (by omega), rd16_inside (by omega),
            ngxResolverCopy_inside hlt, ?_⟩
          split
          · exact inside_pure _
          · exact (hnext _).1
      · refine ih ?_ (fun hover => hno ⟨hcls, hover⟩) h
        intro src hsrc
        obtain rfl := Option.mem_some_iff.mp hsrc
        exact hdata
      · exact ih hcname (fun hover => hno ⟨hcls, hover⟩) h

theorem finishSrv_inside {alloc : Site → Bool} {r : Resolver} {m : Answers} {nsrvs : ℕ} {k : List UInt8} {rn : Node}
    {cname : Option ℕ} (hcollect : (collectSrvs alloc m.n m.nan m.ans []).Inside m.n b)
    (hcname : ∀ src ∈ cname, src < m.n) : (finishSrv alloc r m k rn nsrvs cname).Inside m.n b := by
  rw [finishSrv]
  split_ifs
  · exact inside_pure _
  · rw [inside_bind]
    refine ⟨hcollect, ?_⟩
    dsimp only
    split_ifs <;> exact inside_pure _
  · cases cname with
    | none => exact inside_pure _
    | some src =>
      dsimp only
      rw [inside_bind]
      refine ⟨ngxResolverCopy_inside (hcname src rfl), ?_⟩
      split <;> exact inside_pure _

theorem checkSrv_inside {alloc : Site → Bool} {r : Resolver} {m : Answers} (hn : 12 < m.n) :
    (checkSrv alloc r m).Inside m.n b := by
  rw [checkSrv, inside_bind]
  refine ⟨ngxResolverCopy_inside hn, ?_⟩
  split
  · exact inside_pure _
  · split
    · exact inside_pure _
    · dsimp only
      split_ifs <;> exact inside_pure _

theorem ngxResolverProcessSrv_inside_iff {alloc : Site → Bool} {r : Resolver} {m : Answers} (hn : 12 < m.n) :
    (ngxResolverProcessSrv alloc r m).Inside m.n b ↔
      ∀ k rn, (checkSrv alloc r m).val b = .inr (k, rn) → ¬srvOverruns m.n b m.nan m.ans := by
  rw [ngxResolverProcessSrv, inside_bind, and_iff_right (checkSrv_inside hn)]
  cases (checkSrv alloc r m).val b with
  | inl res => exact ⟨fun _ k rn hcheck => (by cases hcheck), fun _ => inside_pure _⟩
  | inr node =>
    dsimp only
    rw [inside_bind, scanSrv_inside_iff]
    refine ⟨fun h _ _ _ => h.1, fun h => ?_⟩
    have hno := h node.1 node.2 rfl
    refine ⟨hno, ?_⟩
    cases hscan : (scanSrv m.n m.nan m.ans 0 none node.2.ttl).val b with
    | mk scan ttl =>
      cases scan with
      | exit e => exact inside_pure _
      | scanned nsrvs cname =>
        obtain ⟨hcollect, hcname⟩ := @collectSrvs_inside m.n b alloc m.nan m.ans 0 _ nsrvs ttl none cname []
          (fun src hsrc => by cases hsrc) hno hscan
        exact finishSrv_inside hcollect hcname

/-! ### Names of addresses -/

section Zero

variable {z i : ℕ}

/-- Digits do not go past a zero byte. -/
theorem ngxAtoi_stops {k value : ℕ} (hz : b z = 0) (hzn : z < n) (hi : i ≤ z) :
    (ngxAtoi k i value).Inside n b ∧ ∀ v, (ngxAtoi k i value).val b = some v → i + k ≤ z := by
  induction k generalizing i value with
  | zero => exact ⟨inside_pure _, fun _ _ => hi⟩
  | succ k ih =>
    rw [ngxAtoi]
    simp only [inside_rd_bind, inside_ite, inside_pure, implies_true, true_and, val_rd_bind, val_ite, val_pure]
    have hnext (hdigit : ¬((b i).toNat < 48 ∨ 57 < (b i).toNat)) : i + 1 ≤ z := by
      rcases Nat.lt_or_eq_of_le hi with hlt | rfl
      · exact hlt
      · exact absurd (Or.inl (by simp [hz])) hdigit
    refine ⟨⟨by omega, fun hdigit _ => (ih (hnext hdigit)).1⟩, fun v hv => ?_⟩
    split_ifs at hv with hdigit hmax
    have hle := (ih (hnext hdigit)).2 v hv
    omega

theorem readOctets_stops {k mask addr : ℕ} (hz : b z = 0) (hzn : z < n) (hi : i ≤ z) :
    (readOctets k mask i addr).Inside n b ∧
      ∀ addr' j, (readOctets k mask i addr).val b = some (addr', j) → j ≤ z := by
  induction k generalizing mask i addr with
  | zero =>
    refine ⟨inside_pure _, fun addr' j h => ?_⟩
    cases h
    exact hi
  | succ k ih =>
    rw [readOctets, inside_rd_bind, val_rd_bind]
    by_cases hlen : (b i).toNat = 0
    · rw [if_pos hlen]
      exact ⟨⟨by omega, inside_pure _⟩, fun addr' j h => by cases h⟩
    have hlt : i < z := lt_of_le_of_ne hi fun h => hlen (by rw [h, hz]; rfl)
    obtain ⟨hinside, hroom⟩ := @ngxAtoi_stops n b z (i + 1) (b i).toNat 0 hz hzn hlt
    rw [if_neg hlen, inside_bind, val_bind]
    cases hoctet : (ngxAtoi (b i).toNat (i + 1) 0).val b with
    | none => exact ⟨⟨by omega, hinside, inside_pure _⟩, fun addr' j h => by cases h⟩
    | some octet =>
      dsimp only
      have hnext := hroom octet hoctet
      split_ifs
      · exact ⟨⟨by omega, hinside, inside_pure _⟩, fun addr' j h => by cases h⟩
      · exact ⟨⟨by omega, hinside, (ih hnext).1⟩, (ih hnext).2⟩

theorem readNibble_stops (hz : b z = 0) (hzn : z < n) (hi : i ≤ z) :
    (readNibble i).Inside n b ∧ ∀ d, (readNibble i).val b = some d → i + 2 ≤ z := by
  rw [readNibble]
  simp only [inside_rd_bind, inside_ite, inside_pure, implies_true, true_and, val_rd_bind, val_ite, val_pure, and_true]
  by_cases hlen : (b i).toNat = 1
  · have hlt : i < z := lt_of_le_of_ne hi fun h => by rw [h, hz] at hlen; cases hlen
    refine ⟨⟨by omega, fun _ => by omega⟩, fun d hd => ?_⟩
    rw [if_neg (not_not.mpr hlen)] at hd
    have hne : i + 1 ≠ z := fun h => by rw [h, hz] at hd; cases hd
    omega
  · refine ⟨⟨by omega, fun h => absurd hlen h⟩, fun d hd => ?_⟩
    rw [if_pos hlen] at hd
    cases hd

theorem readAddr6_stops {k : ℕ} {addr6 : List UInt8} (hz : b z = 0) (hzn : z < n) (hi : i ≤ z) :
    (readAddr6 k i addr6).Inside n b ∧
      ∀ addr' j, (readAddr6 k i addr6).val b = some (addr', j) → j ≤ z := by
  induction k generalizing i addr6 with
  | zero =>
    refine ⟨inside_pure _, fun addr' j h => ?_⟩
    cases h
    exact hi
  | succ k ih =>
    obtain ⟨hlo, hlow⟩ := readNibble_stops hz hzn hi
    rw [readAddr6, inside_bind, val_bind]
    cases hl : (readNibble i).val b with
    | none => exact ⟨⟨hlo, inside_pure _⟩, fun addr' j h => by cases h⟩
    | some lo =>
      have hi2 := hlow lo hl
      obtain ⟨hhi, hhigh⟩ := readNibble_stops hz hzn hi2
      dsimp only
      rw [inside_bind, val_bind]
      cases hh : (readNibble (i + 2)).val b with
      | none => exact ⟨⟨hlo, hhi, inside_pure _⟩, fun addr' j h => by cases h⟩
      | some hi' =>
        have hi4 := hhigh hi' hh
        exact ⟨⟨hlo, hhi, (ih hi4).1⟩, (ih hi4).2⟩

theorem ngxTolower_zero : ngxTolower 0 = 0 := rfl

/-- A comparison does not go past a zero byte. -/
theorem ngxStrcasecmp_stops {pattern : List UInt8} (hz : b z = 0) (hzn : z < n) (hi : i ≤ z) :
    (ngxStrcasecmp pattern i).Inside n b := by
  induction pattern generalizing i with
  | nil => exact inside_pure _
  | cons c2 rest ih =>
    rw [ngxStrcasecmp]
    simp only [inside_byteAt_bind, inside_ite, inside_pure, implies_true, true_and, and_true]
    refine ⟨by omega, fun _ hzero => ih ?_⟩
    refine lt_of_le_of_ne hi fun h => hzero ?_
    rw [h, hz, ngxTolower_zero]

theorem readInAddr_stops (hz : b z = 0) (hzn : z < n) (hi : i ≤ z) : (readInAddr i).Inside n b := by
  obtain ⟨hinside, hend⟩ := @readOctets_stops n b z i 4 0 0 hz hzn hi
  rw [readInAddr, inside_bind]
  cases hoctets : (readOctets 4 0 i 0).val b with
  | none => exact ⟨hinside, inside_pure _⟩
  | some addr =>
    dsimp only
    rw [inside_bind]
    exact ⟨hinside, ngxStrcasecmp_stops hz hzn (hend addr.1 addr.2 hoctets), inside_pure _⟩

theorem readIp6Addr_stops (hz : b z = 0) (hzn : z < n) (hi : i ≤ z) : (readIp6Addr i).Inside n b := by
  obtain ⟨hinside, hend⟩ := @readAddr6_stops n b z i 16 [] hz hzn hi
  rw [readIp6Addr, inside_bind]
  cases hnibbles : (readAddr6 16 i []).val b with
  | none => exact ⟨hinside, inside_pure _⟩
  | some addr =>
    dsimp only
    rw [inside_bind]
    exact ⟨hinside, ngxStrcasecmp_stops hz hzn (hend addr.1 addr.2 hnibbles), inside_pure _⟩

end Zero

/-- The first pass stays in the message, and so is the name that it finds. -/
theorem scanPtr_inside {a i : ℕ} : (scanPtr n a i).Inside n b ∧
    ∀ src ttl, (scanPtr n a i).val b = .inr (src, ttl) → src < n := by
  induction a generalizing i with
  | zero => exact ⟨inside_pure _, fun src ttl h => by cases h⟩
  | succ a ih =>
    obtain ⟨hinside, hspec⟩ := @readRecord_spec n b i
    rw [scanPtr, inside_bind, val_bind]
    cases hrecord : (readRecord n i).val b with
    | short => exact ⟨⟨hinside, inside_pure _⟩, fun src ttl h => by cases h⟩
    | invalidName => exact ⟨⟨hinside, inside_pure _⟩, fun src ttl h => by cases h⟩
    | record r =>
      dsimp only
      split_ifs
      · exact ⟨⟨hinside, inside_pure _⟩, fun src ttl h => by cases h⟩
      · refine ⟨⟨hinside, inside_pure _⟩, fun src ttl h => ?_⟩
        cases h
        exact (hspec r hrecord).1
      · exact ⟨⟨hinside, ih.1⟩, ih.2⟩

theorem finishPtr_inside {K : Type} [DecidableEq K] {alloc : Site → Bool} {r : Resolver} {m : Answers} {t : Tree K}
    {k : K} {i : ℕ} : (finishPtr alloc r m t k i).Inside m.n b := by
  rw [finishPtr]
  cases t.node k with
  | none => exact inside_pure _
  | some rn =>
    dsimp only
    generalize (if m.code = 0 ∧ m.nan = 0 then ngxResolveNxdomain else m.code) = code
    split_ifs <;> try exact inside_pure _
    obtain ⟨hinside, hsrc⟩ := @scanPtr_inside m.n b m.nan (i + 4)
    rw [inside_bind]
    refine ⟨hinside, ?_⟩
    cases hscan : (scanPtr m.n m.nan (i + 4)).val b with
    | inl e => exact inside_pure _
    | inr found =>
      dsimp only
      rw [inside_bind]
      refine ⟨ngxResolverCopy_inside (hsrc found.1 found.2 hscan), ?_⟩
      split
      · exact inside_pure _
      · split_ifs <;> exact inside_pure _

theorem ngxResolverProcessPtr_inside {alloc : Site → Bool} {r : Resolver} {m : Answers} {z : ℕ} (hz : b z = 0)
    (hzn : z < m.n) (h12 : 12 ≤ z) : (ngxResolverProcessPtr alloc r m).Inside m.n b := by
  rw [ngxResolverProcessPtr, inside_bind]
  refine ⟨ngxResolverCopy_inside (by omega), ?_⟩
  split_ifs
  · exact inside_pure _
  · rw [inside_bind]
    refine ⟨readInAddr_stops hz hzn h12, ?_⟩
    cases (readInAddr 12).val b with
    | some addr =>
      dsimp only
      rw [inside_bind]
      exact ⟨finishPtr_inside, inside_pure _⟩
    | none =>
      dsimp only
      rw [inside_bind]
      refine ⟨readIp6Addr_stops hz hzn h12, ?_⟩
      cases (readIp6Addr 12).val b with
      | some addr =>
        dsimp only
        rw [inside_bind]
        exact ⟨finishPtr_inside, inside_pure _⟩
      | none => exact inside_pure _

/-! ### Responses -/

theorem questionEnd_spec {k i : ℕ} : (questionEnd n k i).Inside n b ∧
    ∀ z, (questionEnd n k i).val b = .inr z → i ≤ z ∧ z < n ∧ b z = 0 := by
  induction k generalizing i with
  | zero => exact ⟨inside_pure _, fun z h => by cases h⟩
  | succ k ih =>
    rw [questionEnd]
    simp only [inside_rd_bind, inside_ite, inside_pure, implies_true, true_and, and_true, val_rd_bind, val_ite,
      val_pure]
    refine ⟨fun hi => ⟨hi, fun _ _ => ih.1⟩, fun z h => ?_⟩
    split_ifs at h with hi hpointer hzero
    · obtain rfl := Sum.inr.inj h
      exact ⟨le_rfl, hi, UInt8.toNat_inj.mp hzero⟩
    · obtain ⟨hle, hlt, hz⟩ := ih.2 z h
      exact ⟨by omega, hlt, hz⟩

/-- The header and the question stay in the message; a zero byte ends the name that is asked for. -/
theorem checkResponse_spec {tcp : Bool} : (checkResponse n tcp).Inside n b ∧
    ∀ m qtype, (checkResponse n tcp).val b = .inr (m, qtype) → m.n = n ∧ ∃ z, 12 ≤ z ∧ z < n ∧ b z = 0 := by
  rw [checkResponse]
  split_ifs with hshort
  · exact ⟨inside_pure _, fun m qtype h => by cases h⟩
  have hheader (i : ℕ) (hi : i + 1 < 12) : (rd16 i).Inside n b := rd16_inside (by omega)
  obtain ⟨hinside, hzero⟩ := @questionEnd_spec n b (n + 1) 12
  simp only [inside_bind, val_bind, and_assoc]
  refine ⟨hheader 0 (by omega), hheader 2 (by omega), hheader 4 (by omega), hheader 6 (by omega), ?_⟩
  generalize (rd16 2).val b = flags
  generalize (rd16 6).val b = nan
  split_ifs
  all_goals try exact ⟨inside_pure _, fun m qtype h => by cases h⟩
  all_goals
    simp only [inside_bind, val_bind, and_assoc]
    refine ⟨hinside, ?_⟩
    cases hquestion : (questionEnd n (n + 1) 12).val b with
    | inl e => exact ⟨inside_pure _, fun m qtype h => by cases h⟩
    | inr z =>
      obtain ⟨hle, hlt, hz⟩ := hzero z hquestion
      dsimp only
      split_ifs with hroot hroom
      · exact ⟨inside_pure _, fun m qtype h => by cases h⟩
      · exact ⟨inside_pure _, fun m qtype h => by cases h⟩
      simp only [inside_bind, val_bind, and_assoc]
      refine ⟨rd16_inside (by omega), rd16_inside (by omega), ?_⟩
      split_ifs
      · exact ⟨inside_pure _, fun m qtype h => by cases h⟩
      · refine ⟨inside_pure _, fun m qtype h => ?_⟩
        cases h
        exact ⟨rfl, z, hle, hlt, hz⟩

/-- The response is read in its bounds unless the scan of the answers gets to a service with nothing but its six bytes
left in the message. -/
theorem response_inside_iff (alloc : Site → Bool) (r : Resolver) (n : ℕ) (tcp : Bool) (b : ℕ → UInt8) :
    (ngxResolverProcessResponse alloc r n tcp).Inside n b ↔
      ∀ m, (checkResponse n tcp).val b = .inr (m, ngxResolveSrv) →
        ∀ k rn, (checkSrv alloc r m).val b = .inr (k, rn) → ¬srvOverruns n b m.nan m.ans := by
  obtain ⟨hinside, hspec⟩ := @checkResponse_spec n b tcp
  rw [ngxResolverProcessResponse, inside_bind, and_iff_right hinside]
  cases hcheck : (checkResponse n tcp).val b with
  | inl e => exact ⟨fun _ m h => (by cases h), fun _ => inside_pure _⟩
  | inr response =>
    obtain ⟨m, qtype⟩ := response
    obtain ⟨hn, z, h12, hzn, hz⟩ := hspec m qtype hcheck
    subst hn
    have hother (hne : qtype ≠ ngxResolveSrv) : ∀ m', (Sum.inr (m, qtype) : Exit ⊕ Answers × ℕ) =
        .inr (m', ngxResolveSrv) → ∀ k rn, (checkSrv alloc r m').val b = .inr (k, rn) →
          ¬srvOverruns m.n b m'.nan m'.ans := fun m' h => by
      cases h
      exact absurd rfl hne
    dsimp only
    split_ifs with haddr hsrv hptr
    · refine iff_of_true (ngxResolverProcessA_inside (by omega)) (hother ?_)
      rcases haddr with rfl | rfl <;> decide
    · subst hsrv
      rw [ngxResolverProcessSrv_inside_iff (by omega)]
      refine ⟨fun h m' hm => ?_, fun h => h m rfl⟩
      cases hm
      exact h
    · exact iff_of_true (ngxResolverProcessPtr_inside hz hzn h12) (hother hsrv)
    · exact iff_of_true (inside_pure _) (hother hsrv)

/-- The response to the query for the services of `a` that has one service, whose target is the end of the message. -/
def shortService : List UInt8 :=
  [0, 0, 0x80, 0, 0, 1, 0, 1, 0, 0, 0, 0, 1, 97, 0, 0, 33, 0, 1,
    0xc0, 12, 0, 33, 0, 1, 0, 0, 0, 60, 0, 6, 0, 1, 0, 1, 0, 80]

/-- A resolver that has asked for the services of `a`. -/
def askedServices : Resolver where
  names := ⟨fun _ => none, [], []⟩
  srvs := ⟨fun k => if k = [97] then some { name := [97], query := some 0 } else none, [[97]], []⟩
  addrs := ⟨fun _ => none, [], []⟩
  addrs6 := ⟨fun _ => none, [], []⟩
  now := 0
  expire := 30
  valid := 0
  resendTimeout := 5

theorem short_service_read_past_end :
    shortService.length = 37 ∧
      ¬(ngxResolverProcessResponse (fun _ => true) askedServices 37 false).Inside 37 (shortService.getD · 0) := by
  have hread : 37 ∈ (ngxResolverProcessResponse (fun _ => true) askedServices 37 false (shortService.getD · 0)).2 := by
    decide
  exact ⟨rfl, fun h => absurd (h 37 hread) (lt_irrefl 37)⟩

end NginxDtls.Dns
