import NginxDtls.LimitConnRecords
import NginxDtls.Run

/-! The counters over whole runs: they are exact for as long as every session that is counted gets its cleanup record,
and never again after that has failed once. -/

namespace NginxDtls.LimitConn

open Zipper RbTree Run

/-! ### What holds of a state -/

namespace State

/-- The records of the live sessions. -/
def records (st : State) : List (ℕ × ℕ) := st.live.flatMap fun s => LimitConn.records (st.session s).cleanup

/-- The records of the live sessions but one. -/
def others (st : State) (s : ℕ) : List (ℕ × ℕ) :=
  (st.live.erase s).flatMap fun s' => LimitConn.records (st.session s').cleanup

theorem records_perm {st : State} {s : ℕ} (hs : s ∈ st.live) :
    st.records.Perm (LimitConn.records (st.session s).cleanup ++ st.others s) :=
  (List.perm_cons_erase hs).flatMap_right _

/-- The zones count the records of the live sessions, and `leaked` ones that no session has. A live session is let pass
under what its records stand for, once in each zone. -/
structure Held (st : State) (leaked : List (ℕ × ℕ)) : Prop where
  live : st.live.Nodup
  counts : Counts st.zones (leaked ++ st.records)
  admitted : ∀ s ∈ st.live,
    (st.session s).admitted = (LimitConn.records (st.session s).cleanup).map (keyed st.zones)
  distinct : ∀ s ∈ st.live, ((LimitConn.records (st.session s).cleanup).map Prod.fst).Nodup
  uncalled : ∀ s ∈ st.live, (st.session s).called = false → LimitConn.records (st.session s).cleanup = []
  keys : ∀ r ∈ leaked, 0 < (keyed st.zones r).2.length ∧ (keyed st.zones r).2.length ≤ 255

namespace Held

variable {st : State} {leaked : List (ℕ × ℕ)}

theorem mem_records {s : ℕ} (hs : s ∈ st.live) {r : ℕ × ℕ} (hr : r ∈ LimitConn.records (st.session s).cleanup) :
    r ∈ leaked ++ st.records :=
  List.mem_append_right _ (List.mem_flatMap.mpr ⟨s, hs, hr⟩)

/-- A session has one record for the node of the key, or it is not let pass under it. -/
theorem count_session (h : st.Held leaked) {s : ℕ} (hs : s ∈ st.live) {z n : ℕ} {T : BTree ℕ}
    (hinv : (st.zones z).Inv T fun n => (leaked ++ st.records).count (z, n)) (hn : n ∈ T.toList) :
    (LimitConn.records (st.session s).cleanup).count (z, n) =
      if (z, ((st.zones z).node n).data) ∈ (st.session s).admitted then 1 else 0 := by
  by_cases hmem : (z, n) ∈ LimitConn.records (st.session s).cleanup
  · rw [List.count_eq_one_of_mem (List.Nodup.of_map _ (h.distinct s hs)) hmem, if_pos]
    rw [h.admitted s hs]
    exact List.mem_map.mpr ⟨(z, n), hmem, rfl⟩
  · rw [List.count_eq_zero_of_not_mem hmem, if_neg]
    intro hin
    rw [h.admitted s hs] at hin
    obtain ⟨r, hr, hkeyed⟩ := List.mem_map.mp hin
    obtain ⟨rz, rn⟩ := r
    obtain ⟨hz, hdata⟩ := Prod.mk.inj hkeyed
    dsimp only at hz hdata
    subst hz
    have hrn : rn ∈ T.toList := Counts.mem (mem_records hs hr) hinv
    exact hmem (hinv.node_unique hrn hn hdata ▸ hr)

theorem count_flatMap (sessions : List ℕ) (p : ℕ → Bool) (f : ℕ → List (ℕ × ℕ)) (r : ℕ × ℕ)
    (hf : ∀ s ∈ sessions, (f s).count r = if p s then 1 else 0) :
    (sessions.flatMap f).count r = sessions.countP p := by
  induction sessions with
  | nil => rfl
  | cons s sessions ih =>
      rw [List.flatMap_cons, List.count_append, hf s List.mem_cons_self, List.countP_cons,
        ih fun s' hs => hf s' (List.mem_cons_of_mem _ hs)]
      omega

/-- A node counts the live sessions under its key and the leaked records. -/
theorem conn_eq (h : st.Held leaked) {z n : ℕ} {T : BTree ℕ}
    (hinv : (st.zones z).Inv T fun n => (leaked ++ st.records).count (z, n)) (hn : n ∈ T.toList) :
    ((st.zones z).node n).conn = leaked.count (z, n) + st.admitted z ((st.zones z).node n).data := by
  rw [(hinv.conn n hn).1, List.count_append, State.records, State.admitted]
  congr 1
  refine count_flatMap _ _ _ _ fun s hs => ?_
  rw [h.count_session hs hinv hn]
  simp only [decide_eq_true_eq]

theorem exact_of_nil (h : st.Held []) : st.Exact where
  stored := by
    intro z key _ _
    obtain ⟨T, hinv⟩ := h.counts z
    rcases hinv.lookup_cases key with ⟨hlookup, hno⟩ | ⟨n, hn, hdata, hlookup⟩
    · refine ⟨none, hlookup, Or.inl ⟨rfl, ?_⟩⟩
      rw [State.admitted, List.countP_eq_zero]
      intro s hs hin
      rw [decide_eq_true_eq, h.admitted s hs] at hin
      obtain ⟨⟨rz, rn⟩, hr, hkeyed⟩ := List.mem_map.mp hin
      obtain ⟨hz, hdata⟩ := Prod.mk.inj hkeyed
      dsimp only at hz hdata
      subst hz
      exact hno rn (Counts.mem (mem_records hs hr) hinv) hdata
    · have hconn := h.conn_eq hinv hn
      rw [List.count_nil, Nat.zero_add, hdata] at hconn
      have hpos := (hinv.conn n hn).2
      rw [← (hinv.conn n hn).1] at hpos
      exact ⟨some n, hlookup, Or.inr ⟨n, rfl, hpos, hconn, (hinv.limit n hn).1⟩⟩
  nodes := by
    intro z n hn
    obtain ⟨T, hinv⟩ := h.counts z
    have hmem := hinv.nodes.mem_iff.mpr hn
    refine ⟨?_, hinv.lookup_found hmem⟩
    rw [(hinv.conn n hmem).1]
    exact (hinv.conn n hmem).2

/-- A counter with a leaked record is too high. -/
theorem not_exact (h : st.Held leaked) (hleaked : leaked ≠ []) : ¬st.Exact := by
  intro hexact
  obtain ⟨⟨z, n⟩, hr⟩ := List.exists_mem_of_ne_nil _ hleaked
  obtain ⟨T, hinv⟩ := h.counts z
  have hn : n ∈ T.toList := Counts.mem (List.mem_append_left _ hr) hinv
  have hkey := h.keys _ hr
  have hconn := h.conn_eq hinv hn
  have hpos : 0 < leaked.count (z, n) := List.count_pos_iff.mpr hr
  obtain ⟨found, hlookup, hcases⟩ := hexact.stored z ((st.zones z).node n).data hkey.1 hkey.2
  rw [hinv.lookup_found hn] at hlookup
  rcases hcases with ⟨hnone, _⟩ | ⟨n', hsome, _, hnumber, _⟩
  · rw [hnone] at hlookup
    cases hlookup
  · rw [hsome] at hlookup
    cases hlookup
    omega

end Held

/-! ### One event -/

theorem held_start (memory : ℕ → Zone) : (start memory).Held [] where
  live := List.nodup_nil
  counts := fun z => by
    have hheld : (fun n => ([] ++ (LimitConn.start memory).records).count (z, n)) = fun _ => 0 := rfl
    rw [hheld]
    exact ⟨.leaf, valid_init _ _, .nil, .nil, fun _ hn => absurd hn List.not_mem_nil, rfl,
      fun _ hn => absurd hn List.not_mem_nil, fun _ hn => absurd hn List.not_mem_nil, fun _ _ => rfl⟩
  admitted := fun _ hs => absurd hs List.not_mem_nil
  distinct := fun _ hs => absurd hs List.not_mem_nil
  uncalled := fun _ hs => absurd hs List.not_mem_nil
  keys := fun _ hr => absurd hr List.not_mem_nil

/-- The state with other zones and one other session. -/
def put (st : State) (zones : ℕ → Zone) (s : ℕ) (session : Session) : State :=
  { st with zones, session := Function.update st.session s session }

@[simp] theorem put_zones (st : State) (zones : ℕ → Zone) (s : ℕ) (session : Session) :
    (st.put zones s session).zones = zones := rfl

@[simp] theorem put_live (st : State) (zones : ℕ → Zone) (s : ℕ) (session : Session) :
    (st.put zones s session).live = st.live := rfl

@[simp] theorem put_self (st : State) (zones : ℕ → Zone) (s : ℕ) (session : Session) :
    (st.put zones s session).session s = session := Function.update_self ..

theorem put_of_ne (st : State) (zones : ℕ → Zone) (session : Session) {s s' : ℕ} (hne : s' ≠ s) :
    (st.put zones s session).session s' = st.session s' := Function.update_of_ne hne ..

theorem others_put {st : State} (hlive : st.live.Nodup) (zones : ℕ → Zone) (s : ℕ) (session : Session) :
    (st.put zones s session).others s = st.others s := by
  refine List.flatMap_congr fun s' hs => ?_
  have hne : s' ≠ s := fun heq => hlive.not_mem_erase (heq ▸ hs)
  rw [put_of_ne _ _ _ hne]

theorem mem_others {st : State} {s s' : ℕ} (hs : s' ∈ st.live) (hne : s' ≠ s) {r : ℕ × ℕ}
    (hr : r ∈ LimitConn.records (st.session s').cleanup) : r ∈ st.others s :=
  List.mem_flatMap.mpr ⟨s', (List.mem_erase_of_ne hne).mpr hs, hr⟩

/-- A live session gets other records, and the zones count those with the records of the others. -/
theorem Held.change {st : State} (h : st.Held []) {s : ℕ} (hs : s ∈ st.live) {zones : ℕ → Zone} {session : Session}
    {leaked : List (ℕ × ℕ)} (hcounts : Counts zones (leaked ++ (LimitConn.records session.cleanup ++ st.others s)))
    (hothers : ∀ r ∈ st.others s, keyed zones r = keyed st.zones r)
    (hadmitted : session.admitted = (LimitConn.records session.cleanup).map (keyed zones))
    (hdistinct : ((LimitConn.records session.cleanup).map Prod.fst).Nodup)
    (hcalled : session.called = false → LimitConn.records session.cleanup = [])
    (hkeys : ∀ r ∈ leaked, 0 < (keyed zones r).2.length ∧ (keyed zones r).2.length ≤ 255) :
    (st.put zones s session).Held leaked where
  live := h.live
  counts := by
    have hperm := @records_perm (st.put zones s session) s hs
    rw [others_put h.live, put_self] at hperm
    exact hcounts.perm (hperm.symm.append_left _)
  admitted := by
    intro s' hs'
    by_cases hne : s' = s
    · subst hne
      rw [put_self]
      exact hadmitted
    · have hlive : s' ∈ st.live := hs'
      rw [put_of_ne _ _ _ hne, h.admitted s' hlive]
      exact List.map_congr_left fun r hr => (hothers r (mem_others hlive hne hr)).symm
  distinct := by
    intro s' hs'
    by_cases hne : s' = s
    · subst hne
      rw [put_self]
      exact hdistinct
    · rw [put_of_ne _ _ _ hne]
      exact h.distinct s' hs'
  uncalled := by
    intro s' hs'
    by_cases hne : s' = s
    · subst hne
      rw [put_self]
      exact hcalled
    · rw [put_of_ne _ _ _ hne]
      exact h.uncalled s' hs'
  keys := hkeys

/-- A session without records, which may get live. -/
theorem Held.start {st : State} (h : st.Held []) {s : ℕ} (hs : s ∉ st.live) :
    State.Held { st.put st.zones s ⟨[], false, .unset, []⟩ with live := s :: st.live } [] := by
  have hother : ∀ s' ∈ st.live, (st.put st.zones s ⟨[], false, .unset, []⟩).session s' = st.session s' :=
    fun s' hs' => put_of_ne _ _ _ fun heq => hs (heq ▸ hs')
  have hrecords : State.records { st.put st.zones s ⟨[], false, .unset, []⟩ with live := s :: st.live } =
      st.records := by
    rw [State.records, List.flatMap_cons, put_self]
    exact List.flatMap_congr fun s' hs' => by rw [hother s' hs']
  refine ⟨List.nodup_cons.mpr ⟨hs, h.live⟩, ?_, ?_, ?_, ?_, h.keys⟩
  · rw [hrecords]
    exact h.counts
  · intro s' hs'
    dsimp only at hs' ⊢
    rcases List.mem_cons.mp hs' with rfl | hs'
    · simp
    · rw [hother s' hs']
      exact h.admitted s' hs'
  · intro s' hs'
    dsimp only at hs' ⊢
    rcases List.mem_cons.mp hs' with rfl | hs'
    · simp
    · rw [hother s' hs']
      exact h.distinct s' hs'
  · intro s' hs'
    dsimp only at hs' ⊢
    rcases List.mem_cons.mp hs' with rfl | hs'
    · simp
    · rw [hother s' hs']
      exact h.uncalled s' hs'

/-- A pool is destroyed with the records of its session. -/
theorem Held.destroy {st : State} (h : st.Held []) {s : ℕ} (hs : s ∈ st.live) :
    ∃ zones, ngxDestroyPool st.zones (st.session s).cleanup = some zones ∧
      State.Held { st with zones, live := st.live.erase s } [] := by
  obtain ⟨zones, hpool, hcounts, hkeyed⟩ := destroyPool_counts (h.counts.perm (records_perm hs))
  have hkeyed' : keyed zones = keyed st.zones := funext hkeyed
  refine ⟨zones, hpool, h.live.erase s, hcounts, ?_, ?_, ?_, fun _ hr => absurd hr List.not_mem_nil⟩
  · intro s' hs'
    rw [hkeyed']
    exact h.admitted s' (List.mem_of_mem_erase hs')
  · exact fun s' hs' => h.distinct s' (List.mem_of_mem_erase hs')
  · exact fun s' hs' => h.uncalled s' (List.mem_of_mem_erase hs')

/-- A call of the handler, which leaks a count exactly when a cleanup record is missing. -/
theorem Held.handler {st : State} (h : st.Held []) {s : ℕ} {conf : Conf} {met : ℕ → Met}
    (hallows : st.Allows (.handler s conf met)) :
    ∃ st' leaked, step (some st) (.handler s conf met) = some st' ∧ st'.Held leaked ∧
      (leaked = [] ↔ RecordsFit met conf.limits st.zones) := by
  obtain ⟨hs, hcalled, hslab⟩ := hallows
  have hbase := h.uncalled s hs hcalled
  have hcounts : Counts st.zones ([] ++ st.others s) := by
    have := h.counts.perm (records_perm hs)
    rwa [hbase] at this
  obtain ⟨passed, own, leaked, hloop, houtcome, hfit⟩ :=
    limitLoop_outcome conf.dryRun met .unset hbase hcounts conf.distinct List.nodup_nil
      (fun _ hr => absurd hr List.not_mem_nil) hslab
  have hrecords : LimitConn.records passed.cleanup = own := by
    rw [houtcome.cleanup, records_recordsOf, hbase, List.append_nil]
  refine ⟨_, leaked, congrArg (Option.map _) hloop, ?_, hfit⟩
  refine h.change hs ?_ houtcome.others ?_ ?_ (fun hfalse => absurd hfalse Bool.true_eq_false.mp) houtcome.keys
  · dsimp only
    rw [hrecords]
    exact houtcome.counts
  · dsimp only
    rw [hrecords]
    exact houtcome.admitted
  · dsimp only
    rw [hrecords]
    exact houtcome.distinct

/-- An admitted event leaks a count exactly when a cleanup record is missing. -/
theorem Held.step {st : State} (h : st.Held []) {event : Event} (hallows : st.Allows event) :
    ∃ st' leaked, step (some st) event = some st' ∧ st'.Held leaked ∧ (leaked = [] ↔ st.NoLeak event) := by
  cases event with
  | start s => exact ⟨_, [], rfl, h.start hallows, iff_of_true rfl trivial⟩
  | other s =>
      refine ⟨_, [], rfl, ?_, iff_of_true rfl trivial⟩
      have hcounts := h.counts.perm (records_perm hallows)
      exact @Held.change st h s hallows st.zones { st.session s with cleanup := .other :: (st.session s).cleanup } []
        hcounts (fun _ _ => rfl) (h.admitted s hallows) (h.distinct s hallows) (h.uncalled s hallows)
        (fun _ hr => absurd hr List.not_mem_nil)
  | handler s conf met => exact h.handler hallows
  | destroy s =>
      obtain ⟨zones, hpool, hheld⟩ := h.destroy hallows
      exact ⟨_, [], congrArg (Option.map _) hpool, hheld, iff_of_true rfl trivial⟩

end State

/-! ### Runs -/

/-- Of every run, the counters are exact in every state that it goes through if and only if every session that is
counted gets its cleanup record. -/
theorem counters_exact_iff (memory : ℕ → Zone) {es : List Event}
    (hallowed : Along step (fun st event => ∀ st' ∈ st, st'.Allows event) (some (start memory)) es) :
    (∀ es', es' <+: es → ∃ st ∈ run step (some (start memory)) es', st.Exact) ↔
      Along step (fun st event => ∀ st' ∈ st, st'.NoLeak event) (some (start memory)) es := by
  refine reached_iff_along (I := fun st => ∃ st' ∈ st, st'.Held []) (P := fun st => ∃ st' ∈ st, st'.Exact)
    ?_ ?_ ?_ ⟨start memory, rfl, State.held_start memory⟩ hallowed
  · rintro st ⟨st', hst, hheld⟩
    exact ⟨st', hst, hheld.exact_of_nil⟩
  · rintro st event ⟨st', rfl, hheld⟩ hallows hfit
    obtain ⟨st'', leaked, hstep, hheld', hleak⟩ := hheld.step (hallows st' rfl)
    rw [hleak.mpr (hfit st' rfl)] at hheld'
    exact ⟨st'', hstep, hheld'⟩
  · rintro st event ⟨st', rfl, hheld⟩ hallows ⟨st₁, hst₁, hexact⟩ st₂ hst₂
    cases hst₂
    obtain ⟨st'', leaked, hstep, hheld', hleak⟩ := hheld.step (hallows st' rfl)
    rw [hstep] at hst₁
    cases hst₁
    exact hleak.mp (by_contra fun hne => hheld'.not_exact hne hexact)

/-- Zones over memory of zeros. -/
def zeroMemory : ℕ → Zone :=
  fun _ => ⟨⟨fun _ => 0, fun _ _ => 0, fun _ => 0, fun _ => false, 0, 0⟩, fun _ => ⟨[], 0, 0⟩, []⟩

/-- `limit_conn` of one connection for each key. -/
def oneConnection : Conf := ⟨[⟨0, 1, Nat.one_pos, by decide⟩], false, by decide⟩

/-- A key of one byte, and a slab with room for it. -/
def metOnce (cleanup : Bool) : ℕ → Met := fun _ => ⟨some [97], some 2, cleanup⟩

/-- A session comes and goes. -/
def oneSession (cleanup : Bool) : List Event := [.start 0, .handler 0 oneConnection (metOnce cleanup), .destroy 0]

theorem oneSession_allowed (cleanup : Bool) :
    Along step (fun st event => ∀ st' ∈ st, st'.Allows event) (some (start zeroMemory)) (oneSession cleanup) := by
  refine ⟨?_, ?_, ?_, trivial⟩
  · rintro st ⟨⟩
    exact List.not_mem_nil
  · rintro st ⟨⟩
    refine ⟨List.mem_singleton_self 0, rfl, fun limit hlimit node hnode => ?_⟩
    cases hnode
    exact ⟨by decide, List.not_mem_nil⟩
  · intro st hst
    have hlive : (run step (some (start zeroMemory)) ((oneSession cleanup).take 2)).map State.live = some [0] := by
      cases cleanup <;> rfl
    have hrun : run step (some (start zeroMemory)) ((oneSession cleanup).take 2) = some st := hst
    rw [hrun] at hlive
    have hlive : st.live = [0] := Option.some.inj hlive
    show 0 ∈ st.live
    rw [hlive]
    exact List.mem_singleton_self 0

/-- A session that is counted and gets its record: the counters are exact all the time. -/
theorem counters_exact_iff_oneSession :
    Along step (fun st event => ∀ st' ∈ st, st'.Allows event) (some (start zeroMemory)) (oneSession true) ∧
      ∀ es', es' <+: oneSession true → ∃ st ∈ run step (some (start zeroMemory)) es', st.Exact := by
  refine ⟨oneSession_allowed true, (counters_exact_iff zeroMemory (oneSession_allowed true)).mpr ?_⟩
  refine ⟨fun _ _ => trivial, ?_, fun _ _ => trivial, trivial⟩
  rintro st ⟨⟩
  exact ⟨rfl, trivial⟩

/-- There is no memory for the cleanup record of a session that is counted: with the session gone, the counter of its
key is one for good. -/
theorem missing_record_keeps_count :
    ∃ st, run step (some (start zeroMemory)) (oneSession false) = some st ∧ st.live = [] ∧
      ngxStreamLimitConnLookup (st.zones 0) [97] = some (some 2) ∧ ((st.zones 0).node 2).conn = 1 ∧
      ¬∀ es', es' <+: oneSession false → ∃ st ∈ run step (some (start zeroMemory)) es', st.Exact := by
  refine ⟨_, rfl, rfl, rfl, rfl, fun hexact => ?_⟩
  obtain ⟨st, hst, hexact⟩ := hexact (oneSession false) List.prefix_rfl
  have hlookup : st.admitted 0 [97] = 0 ∧ ngxStreamLimitConnLookup (st.zones 0) [97] = some (some 2) ∧
      ((st.zones 0).node 2).conn = 1 := by
    cases hst
    exact ⟨rfl, rfl, rfl⟩
  obtain ⟨hadmitted, hfound, hconn⟩ := hlookup
  obtain ⟨found, hlookup, hcases⟩ := hexact.stored 0 [97] (by decide) (by decide)
  rw [hfound] at hlookup
  cases hlookup
  rcases hcases with ⟨hnone, _⟩ | ⟨node, hnode, _, hnumber, _⟩
  · cases hnone
  · cases hnode
    omega

end NginxDtls.LimitConn
