import NginxDtls.LimitConnZone

/-! What the handler does to the zones, told by cleanup records. The records of all sessions together are what the
counters count; only a session that is counted and gets no record for it is missing there. -/

namespace NginxDtls.LimitConn

open Zipper RbTree

/-! ### Records -/

/-- The zone and the node of a cleanup record of this module. -/
def Cleanup.record : Cleanup → Option (ℕ × ℕ)
  | .limitConn zone node => some (zone, node)
  | .other => none

def records (pool : List Cleanup) : List (ℕ × ℕ) := pool.filterMap Cleanup.record

@[simp] theorem records_nil : records [] = [] := rfl

@[simp] theorem records_other (pool : List Cleanup) : records (.other :: pool) = records pool := rfl

@[simp] theorem records_limitConn (zone node : ℕ) (pool : List Cleanup) :
    records (.limitConn zone node :: pool) = (zone, node) :: records pool := rfl

/-- The zone and the key of a record. -/
def keyed (zones : ℕ → Zone) (r : ℕ × ℕ) : ℕ × List UInt8 := (r.1, ((zones r.1).node r.2).data)

/-- Every zone counts exactly the records of its nodes. -/
def Counts (zones : ℕ → Zone) (rec : List (ℕ × ℕ)) : Prop :=
  ∀ z, ∃ T, (zones z).Inv T fun n => rec.count (z, n)

theorem Counts.perm {zones : ℕ → Zone} {rec rec' : List (ℕ × ℕ)} (h : Counts zones rec) (hperm : rec.Perm rec') :
    Counts zones rec' := by
  intro z
  obtain ⟨T, hinv⟩ := h z
  refine ⟨T, ?_⟩
  have hheld : (fun n => rec'.count (z, n)) = fun n => rec.count (z, n) := by
    funext n
    exact (hperm.count_eq _).symm
  rwa [hheld]

/-- A change of one zone. -/
theorem Counts.update {zones : ℕ → Zone} {rec rec' : List (ℕ × ℕ)} {z : ℕ} {zone : Zone} {T : BTree ℕ}
    (h : Counts zones rec) (hzone : zone.Inv T fun n => rec'.count (z, n))
    (hrest : ∀ z', z' ≠ z → ∀ n, rec'.count (z', n) = rec.count (z', n)) :
    Counts (Function.update zones z zone) rec' := by
  intro z'
  by_cases hz : z' = z
  · subst hz
    rw [Function.update_self]
    exact ⟨T, hzone⟩
  · rw [Function.update_of_ne hz]
    simp only [hrest z' hz]
    exact h z'

theorem Counts.mem {zones : ℕ → Zone} {rec : List (ℕ × ℕ)} {r : ℕ × ℕ} (hr : r ∈ rec) {T : BTree ℕ}
    (hinv : (zones r.1).Inv T fun n => rec.count (r.1, n)) : r.2 ∈ T.toList :=
  hinv.mem_of_held (List.count_pos_iff.mpr hr)

theorem count_cons_other {rec : List (ℕ × ℕ)} {z n z' : ℕ} (hz : z' ≠ z) (n' : ℕ) :
    ((z, n) :: rec).count (z', n') = rec.count (z', n') :=
  List.count_cons_of_ne (fun heq => hz (Prod.mk.inj heq).1.symm)

theorem count_cons_zone {rec : List (ℕ × ℕ)} {z n : ℕ} (n' : ℕ) :
    ((z, n) :: rec).count (z, n') = if n' = n then rec.count (z, n') + 1 else rec.count (z, n') := by
  by_cases hn : n' = n
  · subst hn
    rw [if_pos rfl, List.count_cons_self]
  · rw [if_neg hn]
    exact List.count_cons_of_ne fun heq => hn (Prod.mk.inj heq).2.symm

/-! ### Cleanup -/

/-- The cleanup of a record takes it out of its counter and leaves the keys. -/
theorem cleanup_counts {zones : ℕ → Zone} {rec : List (ℕ × ℕ)} {z n : ℕ} (h : Counts zones ((z, n) :: rec)) :
    ∃ zones', ngxStreamLimitConnCleanup zones z n = some zones' ∧ Counts zones' rec ∧
      ∀ r, keyed zones' r = keyed zones r := by
  obtain ⟨T, hinv⟩ := h z
  have hheld : 0 < ((z, n) :: rec).count (z, n) := by
    rw [List.count_cons_self]
    omega
  obtain ⟨zone', T', hleave, hinv', hdata⟩ := @Zone.Inv.leave _ _ _ hinv n hheld
  have htaken : (fun n' => if n' = n then ((z, n) :: rec).count (z, n') - 1 else ((z, n) :: rec).count (z, n')) =
      fun n' => rec.count (z, n') := by
    funext n'
    rw [count_cons_zone]
    split <;> rfl
  rw [htaken] at hinv'
  refine ⟨Function.update zones z zone', ?_, h.update hinv' fun z' hz n' => (count_cons_other hz n').symm, fun r => ?_⟩
  · rw [ngxStreamLimitConnCleanup, hleave]
    rfl
  · unfold keyed
    by_cases hz : r.1 = z
    · rw [hz, Function.update_self, hdata]
    · rw [Function.update_of_ne hz]

/-- Destroying a pool takes out its records. -/
theorem destroyPool_counts {zones : ℕ → Zone} {rec : List (ℕ × ℕ)} {pool : List Cleanup}
    (h : Counts zones (records pool ++ rec)) :
    ∃ zones', ngxDestroyPool zones pool = some zones' ∧ Counts zones' rec ∧ ∀ r, keyed zones' r = keyed zones r := by
  induction pool generalizing zones with
  | nil => exact ⟨zones, rfl, h, fun _ => rfl⟩
  | cons c pool ih =>
      cases c with
      | other => exact ih h
      | limitConn z n =>
          obtain ⟨zones₁, hclean, hcounts, hkeyed⟩ := cleanup_counts h
          obtain ⟨zones', hrest, hcounts', hkeyed'⟩ := ih hcounts
          refine ⟨zones', ?_, hcounts', fun r => (hkeyed' r).trans (hkeyed r)⟩
          rw [ngxDestroyPool, hclean]
          exact hrest

/-- The cleanup records of this module for the given zones and nodes. -/
def recordsOf (own : List (ℕ × ℕ)) : List Cleanup := own.map fun r => .limitConn r.1 r.2

theorem recordsOf_cons (r : ℕ × ℕ) (own : List (ℕ × ℕ)) :
    recordsOf (r :: own) = .limitConn r.1 r.2 :: recordsOf own := rfl

theorem records_recordsOf (own : List (ℕ × ℕ)) (base : List Cleanup) :
    records (recordsOf own ++ base) = own ++ records base := by
  induction own with
  | nil => rfl
  | cons r own ih => exact congrArg (r :: ·) ih

/-- With no other records of this module in the pool, `ngx_stream_limit_conn_cleanup_all` takes out its own, which are
on top. -/
theorem cleanupAll_counts {zones : ℕ → Zone} {own rec : List (ℕ × ℕ)} {base : List Cleanup} (hbase : records base = [])
    (h : Counts zones (own ++ rec)) :
    ∃ zones', ngxStreamLimitConnCleanupAll zones (recordsOf own ++ base) = some (zones', base) ∧ Counts zones' rec ∧
      ∀ r, keyed zones' r = keyed zones r := by
  induction own generalizing zones with
  | nil =>
      refine ⟨zones, ?_, h, fun _ => rfl⟩
      cases base with
      | nil => rfl
      | cons c base =>
          cases c with
          | other => rfl
          | limitConn z n => exact absurd hbase (List.cons_ne_nil _ _)
  | cons r own ih =>
      obtain ⟨zones₁, hclean, hcounts, hkeyed⟩ := cleanup_counts h
      obtain ⟨zones', hrest, hcounts', hkeyed'⟩ := ih hcounts
      refine ⟨zones', ?_, hcounts', fun r' => (hkeyed' r').trans (hkeyed r')⟩
      rw [recordsOf_cons, List.cons_append, ngxStreamLimitConnCleanupAll, hclean]
      exact hrest

/-! ### Counting -/

/-- At a limit the session is one too many, or it is counted at the node of its key. -/
theorem count_counts {zones : ℕ → Zone} {rec : List (ℕ × ℕ)} (h : Counts zones rec) (limit : Limit)
    (key : List UInt8) {slab : Option ℕ}
    (hslab : ∀ node ∈ slab, node ≠ limitConnSentinel ∧ node ∉ (zones limit.zone).used) :
    (zones limit.zone).count key limit.conn slab = some .rejected ∨
      ∃ zone' n, (zones limit.zone).count key limit.conn slab = some (.counted zone' n) ∧
        Counts (Function.update zones limit.zone zone') ((limit.zone, n) :: rec) ∧ (zone'.node n).data = key ∧
        ∀ r ∈ rec, keyed (Function.update zones limit.zone zone') r = keyed zones r := by
  obtain ⟨T, hinv⟩ := h limit.zone
  have hupdate : ∀ zone' n T', zone'.Inv T' (fun n' => if n' = n then rec.count (limit.zone, n') + 1
        else rec.count (limit.zone, n')) →
      Counts (Function.update zones limit.zone zone') ((limit.zone, n) :: rec) := fun zone' n T' hinv' => by
    refine h.update (T := T') ?_ fun z' hz n' => count_cons_other hz n'
    simp only [count_cons_zone]
    exact hinv'
  have hkeyed : ∀ zone' : Zone, (∀ n ∈ T.toList, (zone'.node n).data = ((zones limit.zone).node n).data) →
      ∀ r ∈ rec, keyed (Function.update zones limit.zone zone') r = keyed zones r := fun zone' hdata r hr => by
    unfold keyed
    by_cases hz : r.1 = limit.zone
    · have hmem : r.2 ∈ T.toList := Counts.mem hr (by rw [hz]; exact hinv)
      rw [hz, Function.update_self, hdata r.2 hmem]
    · rw [Function.update_of_ne hz]
  rcases hinv.lookup_cases key with ⟨hlookup, hno⟩ | ⟨n, hn, hdata, hlookup⟩
  · rw [Zone.count, hlookup]
    cases slab with
    | none => exact Or.inl rfl
    | some node =>
        obtain ⟨zone', T', hins, hinv', hnew, hold⟩ := hinv.insert hno (hslab node rfl) ⟨limit.pos, limit.le⟩
        refine Or.inr ⟨zone', node, ?_, hupdate zone' node T' hinv', hnew,
          hkeyed zone' fun n hn => by rw [hold n hn]⟩
        simp only [Option.bind_eq_bind, Option.bind_some, hins]
  · rw [Zone.count, hlookup]
    simp only [Option.bind_eq_bind, Option.bind_some]
    by_cases hfull : limit.conn ≤ ((zones limit.zone).node n).conn
    · rw [if_pos hfull]
      exact Or.inl rfl
    · rw [if_neg hfull]
      obtain ⟨hinv', hdata'⟩ := hinv.enter hn (not_le.mp hfull) limit.le
      exact Or.inr ⟨_, n, rfl, hupdate _ n T hinv', (hdata' n).trans hdata, hkeyed _ fun n' _ => hdata' n'⟩

/-! ### The loop of the handler -/

/-- What the handler leaves: the records of the session on top of its pool, those that it should have besides, and
the zones that count them with the records `rec` of the other sessions. -/
structure Outcome (zones : ℕ → Zone) (base : List Cleanup) (rec : List (ℕ × ℕ)) (passed : Passed)
    (own leaked : List (ℕ × ℕ)) : Prop where
  cleanup : passed.cleanup = recordsOf own ++ base
  counts : Counts passed.zones (leaked ++ (own ++ rec))
  admitted : passed.admitted = own.map (keyed passed.zones)
  distinct : (own.map Prod.fst).Nodup
  keys : ∀ r ∈ leaked, 0 < (keyed passed.zones r).2.length ∧ (keyed passed.zones r).2.length ≤ 255
  others : ∀ r ∈ rec, keyed passed.zones r = keyed zones r

theorem limitLoop_outcome (dryRun : Bool) (met : ℕ → Met) {limits : List Limit} {zones : ℕ → Zone}
    {base : List Cleanup} {own rec : List (ℕ × ℕ)} (status : Status) (hbase : records base = [])
    (h : Counts zones (own ++ rec)) (hdistinct : (limits.map Limit.zone).Nodup) (hown : (own.map Prod.fst).Nodup)
    (hfresh : ∀ r ∈ own, r.1 ∉ limits.map Limit.zone)
    (hslab : ∀ limit ∈ limits, ∀ node ∈ (met limit.zone).slab,
      node ≠ limitConnSentinel ∧ node ∉ (zones limit.zone).used) :
    ∃ passed own' leaked,
      limitLoop dryRun met limits zones (recordsOf own ++ base) status (own.map (keyed zones)) = some passed ∧
        Outcome zones base rec passed own' leaked ∧ (leaked = [] ↔ RecordsFit met limits zones) := by
  induction limits generalizing zones own status with
  | nil =>
      exact ⟨_, own, [], rfl, ⟨rfl, h, rfl, hown, fun _ hr => absurd hr List.not_mem_nil, fun _ _ => rfl⟩,
        iff_of_true rfl trivial⟩
  | cons limit limits ih =>
      rw [List.map_cons, List.nodup_cons] at hdistinct
      have hfresh' : ∀ r ∈ own, r.1 ≠ limit.zone ∧ r.1 ∉ limits.map Limit.zone := fun r hr => by
        have := hfresh r hr
        rw [List.map_cons, List.mem_cons, not_or] at this
        exact this
      rw [limitLoop, RecordsFit]
      cases hkey : (met limit.zone).key with
      | none =>
          exact ⟨_, own, [], rfl, ⟨rfl, h, rfl, hown, fun _ hr => absurd hr List.not_mem_nil, fun _ _ => rfl⟩,
            iff_of_true rfl trivial⟩
      | some key =>
          dsimp only
          by_cases hskip : key.length = 0 ∨ 255 < key.length
          · rw [if_pos hskip, if_pos hskip]
            exact ih status h hdistinct.2 hown (fun r hr => (hfresh' r hr).2)
              fun limit' hlimit => hslab limit' (List.mem_cons_of_mem _ hlimit)
          · rw [if_neg hskip, if_neg hskip]
            rcases count_counts h limit key (hslab limit List.mem_cons_self) with
              hcount | ⟨zone', n, hcount, hcounts, hdata, hkeyed⟩
            · -- one too many: what the session has got so far is given back
              obtain ⟨zones', hall, hcounts, hkeyed⟩ := cleanupAll_counts hbase h
              rw [hcount]
              simp only [Option.bind_eq_bind, Option.bind_some, hall]
              refine ⟨_, [], [], rfl, ?_, iff_of_true rfl trivial⟩
              cases dryRun <;>
                exact ⟨rfl, hcounts, rfl, List.nodup_nil, fun _ hr => absurd hr List.not_mem_nil, fun r _ => hkeyed r⟩
            · rw [hcount]
              simp only [Option.bind_eq_bind, Option.bind_some]
              have hself : keyed (Function.update zones limit.zone zone') (limit.zone, n) = (limit.zone, key) := by
                unfold keyed
                rw [Function.update_self, hdata]
              have hmine : own.map (keyed (Function.update zones limit.zone zone')) = own.map (keyed zones) :=
                List.map_congr_left fun r hr => hkeyed r (List.mem_append_left _ hr)
              by_cases hrecord : (met limit.zone).cleanup = true
              · -- the record comes on top, and the zone is not met again
                rw [if_pos hrecord]
                have hadmitted : (limit.zone, key) :: own.map (keyed zones) =
                    ((limit.zone, n) :: own).map (keyed (Function.update zones limit.zone zone')) := by
                  rw [List.map_cons, hself, hmine]
                rw [hadmitted]
                obtain ⟨passed, own', leaked, hloop, houtcome, hfit⟩ :=
                  @ih (Function.update zones limit.zone zone') ((limit.zone, n) :: own) .passed hcounts hdistinct.2
                    (by
                      rw [List.map_cons, List.nodup_cons]
                      refine ⟨fun hmem => ?_, hown⟩
                      obtain ⟨r, hr, hz⟩ := List.mem_map.mp hmem
                      exact (hfresh' r hr).1 hz)
                    (by
                      intro r hr
                      rcases List.mem_cons.mp hr with rfl | hr
                      · exact hdistinct.1
                      · exact (hfresh' r hr).2)
                    (by
                      intro limit' hlimit
                      have hz : limit'.zone ≠ limit.zone := fun heq =>
                        hdistinct.1 (heq ▸ List.mem_map_of_mem hlimit)
                      rw [Function.update_of_ne hz]
                      exact hslab limit' (List.mem_cons_of_mem _ hlimit))
                refine ⟨passed, own', leaked, hloop, { houtcome with others := fun r hr => ?_ }, ?_⟩
                · rw [houtcome.others r hr, hkeyed r (List.mem_append_right _ hr)]
                · rw [hfit]
                  exact ⟨fun hrest => ⟨hrecord, hrest⟩, And.right⟩
              · -- no memory for the record of a session that is counted
                rw [if_neg hrecord]
                refine ⟨_, own, [(limit.zone, n)], rfl, ⟨rfl, hcounts, hmine.symm, hown, ?_, fun r hr =>
                  hkeyed r (List.mem_append_right _ hr)⟩, iff_of_false (List.cons_ne_nil _ _) fun hfit => hrecord hfit.1⟩
                intro r hr
                rw [List.mem_singleton.mp hr]
                show 0 < (keyed (Function.update zones limit.zone zone') _).2.length ∧ _
                rw [hself]
                exact ⟨by dsimp only; omega, by dsimp only; omega⟩

end NginxDtls.LimitConn
