import NginxDtls.LimitReqWorkers

/-! What holds of the zones and the workers after every step: the count of a node is the number of the references to it, a node
with references stays in its zone, and a worker has references for those limits that it has passed and not yet dealt with. -/

namespace NginxDtls.LimitReq

open LimitConn Run

variable {N : ℕ}

/-! ### What a step does to a zone -/

/-- The node is the same one with the same stored excess and time. -/
structure Kept (sh sh' : Shctx) (n : ℕ) : Prop where
  mem : n ∈ sh.queue
  data : sh'.data n = sh.data n
  excess : (sh'.node n).excess = (sh.node n).excess
  last : (sh'.node n).last = (sh.node n).last

/-- The node is for a key that had none, with zero excess. -/
structure Fresh (sh sh' : Shctx) (n : ℕ) : Prop where
  data : ∀ m ∈ sh.queue, sh.data m ≠ sh'.data n
  excess : (sh'.node n).excess = 0

/-- No node with references is freed. -/
def Guarded (sh sh' : Shctx) : Prop :=
  ∀ n ∈ sh.queue, (sh.node n).count ≠ 0 → n ∈ sh'.queue ∧ sh'.data n = sh.data n

/-- The nodes that a step may delete: without references, and idle or, where there is no memory, the one used least recently. -/
def Deleted (rate now : ℕ) (slab : Slab) (sh : Shctx) (n : ℕ) : Prop :=
  (sh.node n).count = 0 ∧ (Idle rate now (sh.node n) ∨ Forced rate now slab sh n)

/-- Nothing is stored: a node of the zone stays as it is or is deleted, and the others are new. -/
structure Untouched (rate now : ℕ) (slab : Slab) (sh sh' : Shctx) : Prop where
  stored : ∀ n ∈ sh'.queue, Kept sh sh' n ∨ Fresh sh sh' n
  before : ∀ n ∈ sh.queue, n ∈ sh'.queue ∧ Kept sh sh' n ∨ Deleted rate now slab sh n

/-- A request is accounted for at the node of its key, which is a new one if there was none, and at no other node. -/
structure ChargedAt (rate now : ℕ) (slab : Slab) (key : List UInt8) (sh sh' : Shctx) : Prop where
  node : ∃ lr ∈ sh'.queue, sh'.data lr = key ∧
    ((lr ∈ sh.queue ∧ sh.data lr = key ∧ (sh'.node lr).excess = (charge rate now (sh.node lr)).excess ∧
        (sh'.node lr).last = (charge rate now (sh.node lr)).last) ∨
      Fresh sh sh' lr ∧ (sh'.node lr).last = now) ∧
    ∀ n ∈ sh'.queue, n ≠ lr → Kept sh sh' n
  before : ∀ n ∈ sh.queue, n ∈ sh'.queue ∧ sh'.data n = sh.data n ∨ Deleted rate now slab sh n

theorem Kept.refl {sh : Shctx} {n : ℕ} (hn : n ∈ sh.queue) : Kept sh sh n := ⟨hn, rfl, rfl, rfl⟩

theorem Untouched.refl (rate now : ℕ) (slab : Slab) (sh : Shctx) : Untouched rate now slab sh sh where
  stored := fun _ hn => Or.inl (Kept.refl hn)
  before := fun _ hn => Or.inl ⟨hn, Kept.refl hn⟩

theorem Untouched.guarded {rate now : ℕ} {slab : Slab} {sh sh' : Shctx} (h : Untouched rate now slab sh sh') :
    Guarded sh sh' := fun n hn hcount => by
  rcases h.before n hn with ⟨hmem, hkept⟩ | hdeleted
  · exact ⟨hmem, hkept.data⟩
  · exact absurd hdeleted.1 hcount

theorem ChargedAt.guarded {rate now : ℕ} {slab : Slab} {key : List UInt8} {sh sh' : Shctx}
    (h : ChargedAt rate now slab key sh sh') : Guarded sh sh' := fun n hn hcount => by
  rcases h.before n hn with hstays | hdeleted
  · exact hstays
  · exact absurd hdeleted.1 hcount

theorem setNode_self (sh : Shctx) (node : ℕ) (lr : LimitReqNode) : (sh.setNode node lr).node node = lr :=
  Function.update_self ..

theorem setNode_of_ne (sh : Shctx) {node n : ℕ} (lr : LimitReqNode) (hn : n ≠ node) :
    (sh.setNode node lr).node n = sh.node n := Function.update_of_ne hn ..

theorem setNode_data (sh : Shctx) (node : ℕ) (lr : LimitReqNode) (hdata : lr.data = sh.data node) (n : ℕ) :
    (sh.setNode node lr).data n = sh.data n := by
  by_cases hn : n = node
  · subst hn
    exact (congrArg LimitReqNode.data (setNode_self sh n lr)).trans hdata
  · exact congrArg LimitReqNode.data (setNode_of_ne sh lr hn)

/-- A node whose count alone changes. -/
theorem untouched_setNode (rate now : ℕ) (slab : Slab) {sh : Shctx} {queue : List ℕ} (hqueue : ∀ n, n ∈ queue ↔ n ∈ sh.queue)
    {node : ℕ} {lr : LimitReqNode} (hdata : lr.data = sh.data node) (hexcess : lr.excess = (sh.node node).excess)
    (hlast : lr.last = (sh.node node).last) : Untouched rate now slab sh { sh.setNode node lr with queue := queue } := by
  have hkept : ∀ n ∈ sh.queue, Kept sh { sh.setNode node lr with queue := queue } n := by
    refine fun n hn => ⟨hn, setNode_data sh _ _ hdata n, ?_, ?_⟩
    · by_cases heq : n = node
      · subst heq
        exact (congrArg LimitReqNode.excess (setNode_self sh n lr)).trans hexcess
      · exact congrArg LimitReqNode.excess (setNode_of_ne sh lr heq)
    · by_cases heq : n = node
      · subst heq
        exact (congrArg LimitReqNode.last (setNode_self sh n lr)).trans hlast
      · exact congrArg LimitReqNode.last (setNode_of_ne sh lr heq)
  exact ⟨fun n hn => Or.inl (hkept n ((hqueue n).mp hn)), fun n hn => Or.inl ⟨(hqueue n).mpr hn, hkept n hn⟩⟩

/-- A node that is charged. -/
theorem chargedAt_setNode (slab : Slab) {sh : Shctx} {queue : List ℕ} (hqueue : ∀ n, n ∈ queue ↔ n ∈ sh.queue) {node rate now : ℕ}
    (hnode : node ∈ sh.queue) {lr : LimitReqNode} (hdata : lr.data = sh.data node)
    (hexcess : lr.excess = (charge rate now (sh.node node)).excess)
    (hlast : lr.last = (charge rate now (sh.node node)).last) :
    ChargedAt rate now slab (sh.data node) sh { sh.setNode node lr with queue := queue } where
  node := by
    refine ⟨node, (hqueue node).mpr hnode, setNode_data sh _ _ hdata node, Or.inl ⟨hnode, rfl, ?_, ?_⟩, fun n hn hne => ?_⟩
    · exact (congrArg LimitReqNode.excess (setNode_self sh node lr)).trans hexcess
    · exact (congrArg LimitReqNode.last (setNode_self sh node lr)).trans hlast
    · exact ⟨(hqueue n).mp hn, setNode_data sh _ _ hdata n, congrArg LimitReqNode.excess (setNode_of_ne sh lr hne),
        congrArg LimitReqNode.last (setNode_of_ne sh lr hne)⟩
  before := fun n hn => Or.inl ⟨(hqueue n).mpr hn, setNode_data sh _ _ hdata n⟩

theorem bump_mem {sh : Shctx} {lr : ℕ} (hmem : lr ∈ sh.queue) (n : ℕ) : n ∈ lr :: sh.queue.erase lr ↔ n ∈ sh.queue :=
  (List.perm_cons_erase hmem).symm.mem_iff

section Expire

variable {sh kept : Shctx} {removed : List ℕ}

theorem Expired.mem (h : Expired sh kept removed) {n : ℕ} (hn : n ∈ kept.queue) : n ∈ sh.queue :=
  h.queue ▸ List.mem_append_left _ hn

theorem Expired.isKept (h : Expired sh kept removed) {n : ℕ} (hn : n ∈ kept.queue) : Kept sh kept n where
  mem := h.mem hn
  data := by rw [Shctx.data, h.node]; rfl
  excess := by rw [h.node]
  last := by rw [h.node]

/-- A node stays, or is deleted. -/
theorem Expired.cases (h : Expired sh kept removed) {rate now : ℕ} {slab : Slab}
    (hgone : ∀ n ∈ removed, Idle rate now (sh.node n) ∨ Forced rate now slab sh n) {n : ℕ} (hn : n ∈ sh.queue) :
    n ∈ kept.queue ∨ Deleted rate now slab sh n := by
  rw [h.queue] at hn
  rcases List.mem_append.mp hn with hn | hn
  · exact Or.inl hn
  · exact Or.inr ⟨h.count n hn, hgone n hn⟩

/-- Where a node is made behind those that stay. -/
theorem Expired.created (h : Expired sh kept removed) {node : ℕ} (hnode : node ∉ kept.queue) (lr : LimitReqNode)
    (tree : RbTree) {n : ℕ} (hn : n ∈ kept.queue) :
    Kept sh { kept.setNode node lr with rbtree := tree, queue := node :: kept.queue } n := by
  have hsame := setNode_of_ne kept lr (fun heq : n = node => hnode (heq ▸ hn))
  exact ⟨h.mem hn, (congrArg LimitReqNode.data hsame).trans (h.isKept hn).data,
    (congrArg LimitReqNode.excess hsame).trans (h.isKept hn).excess, (congrArg LimitReqNode.last hsame).trans (h.isKept hn).last⟩

end Expire

/-- What a lookup does to the stored excesses and times. -/
theorem LookedUp.effect {rate burst now : ℕ} {sh : Shctx} {key : List UInt8} {account : Bool} {slab : Slab} {looked : Looked}
    (h : LookedUp rate burst sh key now account slab looked) :
    if looked.rc = .ok then ChargedAt rate now slab key sh looked.sh else Untouched rate now slab sh looked.sh := by
  cases h with
  | @busy lr hmem hdata hover =>
      rw [if_neg (by simp)]
      exact
        { stored := fun n hn => Or.inl ⟨(bump_mem hmem n).mp hn, rfl, rfl, rfl⟩
          before := fun n hn => Or.inl ⟨(bump_mem hmem n).mpr hn, hn, rfl, rfl, rfl⟩ }
  | @charged lr hmem hdata hle haccount =>
      rw [if_pos rfl, ← hdata]
      exact chargedAt_setNode slab (bump_mem hmem) hmem rfl rfl rfl
  | @held lr hmem hdata hle haccount =>
      rw [if_neg (by simp)]
      exact untouched_setNode rate now slab (bump_mem hmem) rfl rfl rfl
  | @created kept removed tree node hno hexpired hgone hnode =>
      have hself := setNode_self kept node (newNode key now account)
      have hfresh : Fresh sh { kept.setNode node (newNode key now account) with
          rbtree := tree, queue := node :: kept.queue } node := by
        refine ⟨fun m hm heq => hno m hm (heq.trans ?_), (congrArg LimitReqNode.excess hself).trans ?_⟩
        · refine (congrArg LimitReqNode.data hself).trans ?_
          cases account <;> rfl
        · cases account <;> rfl
      have hdata : Shctx.data { kept.setNode node (newNode key now account) with
          rbtree := tree, queue := node :: kept.queue } node = key := by
        refine (congrArg LimitReqNode.data hself).trans ?_
        cases account <;> rfl
      have hbefore : ∀ n ∈ sh.queue, n ∈ node :: kept.queue ∧ Kept sh { kept.setNode node (newNode key now account) with
          rbtree := tree, queue := node :: kept.queue } n ∨ Deleted rate now slab sh n := fun n hn => by
        rcases hexpired.cases hgone hn with hkept | hdeleted
        · exact Or.inl ⟨List.mem_cons_of_mem _ hkept, hexpired.created hnode _ tree hkept⟩
        · exact Or.inr hdeleted
      cases account with
      | true =>
          rw [if_pos rfl]
          refine ⟨⟨node, List.mem_cons_self, hdata, Or.inr ⟨hfresh, congrArg LimitReqNode.last hself⟩, ?_⟩,
            fun n hn => (hbefore n hn).imp_left fun hand => ⟨hand.1, hand.2.data⟩⟩
          intro n hn hne
          exact hexpired.created hnode _ tree (List.mem_of_ne_of_mem hne hn)
      | false =>
          rw [if_neg (by simp)]
          refine ⟨fun n hn => ?_, hbefore⟩
          rcases List.mem_cons.mp hn with rfl | hn
          · exact Or.inr hfresh
          · exact Or.inl (hexpired.created hnode _ tree hn)
  | @failed kept removed hno hexpired hgone hslab =>
      rw [if_neg (by simp)]
      exact ⟨fun n hn => Or.inl (hexpired.isKept hn), fun n hn => (hexpired.cases hgone hn).imp_left fun hkept =>
        ⟨hkept, hexpired.isKept hkept⟩⟩

/-- The reference of a lookup is counted. -/
theorem LookedUp.count {rate burst now : ℕ} {sh : Shctx} {key : List UInt8} {account : Bool} {slab : Slab} {looked : Looked}
    (h : LookedUp rate burst sh key now account slab looked) : ∀ m ∈ looked.sh.queue, (looked.sh.node m).count =
      (if m ∈ sh.queue ∧ looked.sh.data m = sh.data m then (sh.node m).count else 0) +
        if looked.node = some m then 1 else 0 := by
  cases h with
  | @busy lr hmem hdata hover =>
      intro m hm
      rw [if_pos ⟨(bump_mem hmem m).mp hm, rfl⟩, if_neg (by simp), add_zero]
      rfl
  | @charged lr hmem hdata hle haccount =>
      intro m hm
      have hsame : ((sh.bump lr).setNode lr (charge rate now (sh.node lr))).data m = sh.data m :=
        setNode_data (sh.bump lr) lr (charge rate now (sh.node lr)) rfl m
      rw [if_pos ⟨(bump_mem hmem m).mp hm, hsame⟩, if_neg (by simp), add_zero]
      by_cases heq : m = lr
      · subst heq
        rw [setNode_self]
        rfl
      · rw [setNode_of_ne _ _ heq]
        rfl
  | @held lr hmem hdata hle haccount =>
      intro m hm
      have hsame : ((sh.bump lr).setNode lr { sh.node lr with count := (sh.node lr).count + 1 }).data m = sh.data m :=
        setNode_data (sh.bump lr) lr { sh.node lr with count := (sh.node lr).count + 1 } rfl m
      rw [if_pos ⟨(bump_mem hmem m).mp hm, hsame⟩]
      by_cases heq : m = lr
      · subst heq
        rw [setNode_self, if_pos rfl]
      · rw [setNode_of_ne _ _ heq, if_neg (fun h => heq (Option.some.inj h).symm), add_zero]
        rfl
  | @created kept removed tree node hno hexpired hgone hnode =>
      intro m hm
      have hself := setNode_self kept node (newNode key now account)
      have hdata : (kept.setNode node (newNode key now account)).data node = key := by
        refine (congrArg LimitReqNode.data hself).trans ?_
        cases account <;> rfl
      show ((kept.setNode node (newNode key now account)).node m).count =
        (if m ∈ sh.queue ∧ (kept.setNode node (newNode key now account)).data m = sh.data m then _ else 0) +
          if (if account = true then none else some node) = some m then 1 else 0
      by_cases heq : m = node
      · subst heq
        rw [if_neg (fun hand => hno m hand.1 (hand.2.symm.trans hdata)), hself]
        cases account
        · simp [newNode]
        · simp [newNode]
      · have hkept : m ∈ kept.queue := List.mem_of_ne_of_mem heq hm
        have hsame := setNode_of_ne kept (newNode key now account) heq
        have hold : (kept.setNode node (newNode key now account)).data m = sh.data m :=
          (congrArg LimitReqNode.data hsame).trans (hexpired.isKept hkept).data
        have hnot : ¬(if account = true then none else some node) = some m := by
          split
          · simp
          · exact fun h => heq (Option.some.inj h).symm
        rw [if_pos ⟨hexpired.mem hkept, hold⟩, if_neg hnot, hsame, hexpired.node, add_zero]
  | @failed kept removed hno hexpired hgone hslab =>
      intro m hm
      rw [if_pos ⟨hexpired.mem hm, (hexpired.isKept hm).data⟩, if_neg (by simp), hexpired.node, add_zero]

/-- The reference of a lookup is to the node of the key, and there is one exactly if the next zone is asked. -/
theorem LookedUp.ref {rate burst now : ℕ} {sh : Shctx} {key : List UInt8} {account : Bool} {slab : Slab} {looked : Looked}
    (h : LookedUp rate burst sh key now account slab looked) :
    (looked.rc = .again ∧ account = false ∧
        ∃ lr, looked.node = some lr ∧ lr ∈ looked.sh.queue ∧ looked.sh.data lr = key) ∨
      looked.node = none ∧ (looked.rc = .ok ∧ account = true ∨ looked.rc = .busy ∨ looked.rc = .error) := by
  cases h with
  | busy hmem hdata hover => exact Or.inr ⟨rfl, Or.inr (Or.inl rfl)⟩
  | charged hmem hdata hle haccount => exact Or.inr ⟨rfl, Or.inl ⟨rfl, haccount⟩⟩
  | @held lr hmem hdata hle haccount =>
      have hsame : ((sh.bump lr).setNode lr { sh.node lr with count := (sh.node lr).count + 1 }).data lr = sh.data lr :=
        setNode_data (sh.bump lr) lr { sh.node lr with count := (sh.node lr).count + 1 } rfl lr
      exact Or.inl ⟨rfl, haccount, lr, rfl, (bump_mem hmem lr).mpr hmem, hsame.trans hdata⟩
  | @created kept removed tree node hno hexpired hgone hnode =>
      cases account with
      | true => exact Or.inr ⟨rfl, Or.inl ⟨rfl, rfl⟩⟩
      | false =>
          exact Or.inl ⟨rfl, rfl, node, rfl, List.mem_cons_self,
            congrArg LimitReqNode.data (setNode_self kept node (newNode key now false))⟩
  | failed hno hexpired hgone hslab => exact Or.inr ⟨rfl, Or.inr (Or.inr rfl)⟩

/-! ### Workers -/

instance (call : Call) : DecidablePred call.Usable := fun i =>
  match hkey : call.key i with
  | none => isFalse fun ⟨key, hmem, _⟩ => by rw [hkey] at hmem; cases hmem
  | some key =>
    if h : key.length ≠ 0 ∧ key.length ≤ 65535 then isTrue ⟨key, hkey, h⟩
    else isFalse fun ⟨key', hmem, h'⟩ => by
      rw [hkey] at hmem
      exact h (Option.some.inj hmem ▸ h')

/-- The zones of the limits from `i` on whose keys are usable. -/
def usableZones (call : Call) : List Limit → ℕ → List ℕ
  | [], _ => []
  | l :: limits, i => if call.Usable i then l.zone :: usableZones call limits (i + 1) else usableZones call limits (i + 1)

/-- The zones of the limits from the `n`th on whose keys are usable. -/
def Call.zonesFrom (call : Call) (n : ℕ) : List ℕ := usableZones call (call.conf.limits.drop n) n

/-- The limit is the one of the zone, and its key is usable. -/
def Call.UsesZone (call : Call) (i zone : ℕ) : Prop :=
  (call.conf.limits[i]?.map Limit.zone = some zone) ∧ call.Usable i

theorem Call.zone_unique {call : Call} {i j zone : ℕ} (hi : call.conf.limits[i]?.map Limit.zone = some zone)
    (hj : call.conf.limits[j]?.map Limit.zone = some zone) : i = j := by
  rw [← List.getElem?_map] at hi hj
  have hlt : i < (call.conf.limits.map Limit.zone).length := (List.getElem?_eq_some_iff.mp hi).1
  exact (List.getElem?_inj hlt call.conf.distinct).mp (hi.trans hj.symm)

theorem Call.zonesFrom_succ {call : Call} {n : ℕ} {l : Limit} (h : call.conf.limits[n]? = some l) :
    call.zonesFrom n = if call.Usable n then l.zone :: call.zonesFrom (n + 1) else call.zonesFrom (n + 1) := by
  obtain ⟨hlt, heq⟩ := List.getElem?_eq_some_iff.mp h
  rw [zonesFrom, List.drop_eq_getElem_cons hlt, heq, usableZones, zonesFrom]

theorem Call.zonesFrom_length (call : Call) : call.zonesFrom call.conf.limits.length = [] := by
  rw [zonesFrom, List.drop_length, usableZones]

theorem mem_usableZones {call : Call} {limits : List Limit} {n zone : ℕ} : zone ∈ usableZones call limits n ↔
    ∃ i, limits[i]?.map Limit.zone = some zone ∧ call.Usable (n + i) := by
  induction limits generalizing n with
  | nil => simp [usableZones]
  | cons l limits ih =>
      have hsplit : (∃ i, (l :: limits)[i]?.map Limit.zone = some zone ∧ call.Usable (n + i)) ↔
          l.zone = zone ∧ call.Usable n ∨ ∃ i, limits[i]?.map Limit.zone = some zone ∧ call.Usable (n + 1 + i) := by
        constructor
        · rintro ⟨i, hzone, husable⟩
          cases i with
          | zero => exact Or.inl ⟨Option.some.inj hzone, husable⟩
          | succ i =>
              rw [← Nat.add_assoc, Nat.add_right_comm] at husable
              exact Or.inr ⟨i, hzone, husable⟩
        · rintro (⟨rfl, husable⟩ | ⟨i, hzone, husable⟩)
          · exact ⟨0, rfl, husable⟩
          · refine ⟨i + 1, hzone, ?_⟩
            rwa [← Nat.add_assoc, Nat.add_right_comm]
      rw [hsplit, usableZones]
      by_cases husable : call.Usable n
      · rw [if_pos husable, List.mem_cons, ih]
        constructor
        · rintro (rfl | h)
          · exact Or.inl ⟨rfl, husable⟩
          · exact Or.inr h
        · rintro (⟨rfl, -⟩ | h)
          · exact Or.inl rfl
          · exact Or.inr h
      · rw [if_neg husable, ih]
        constructor
        · exact Or.inr
        · rintro (⟨-, h⟩ | h)
          · exact absurd h husable
          · exact h

theorem Call.mem_zonesFrom {call : Call} {zone : ℕ} : zone ∈ call.zonesFrom 0 ↔ ∃ i, call.UsesZone i zone := by
  rw [zonesFrom, List.drop_zero, mem_usableZones]
  simp only [Nat.zero_add, UsesZone]

theorem usableZones_sublist (call : Call) (limits : List Limit) (n : ℕ) :
    (usableZones call limits n).Sublist (limits.map Limit.zone) := by
  induction limits generalizing n with
  | nil => exact List.Sublist.refl _
  | cons l limits ih =>
      rw [usableZones, List.map_cons]
      split
      · exact (ih (n + 1)).cons_cons _
      · exact (ih (n + 1)).cons _

theorem Call.nodup_zonesFrom (call : Call) : (call.zonesFrom 0).Nodup := by
  rw [zonesFrom, List.drop_zero]
  exact call.conf.distinct.sublist (usableZones_sublist call _ 0)

/-- The statuses of a request that is let pass. -/
def Status.Accepted (status : Status) : Prop := status = .passed ∨ status = .delayed ∨ status = .delayedDryRun

instance : DecidablePred Status.Accepted := fun _ => inferInstanceAs (Decidable (_ ∨ _ ∨ _))

namespace Worker

/-- The references are those of the usable limits below `n`. -/
def Passed (worker : Worker) (n : ℕ) : Prop :=
  ∀ zone, (∃ lr, (zone, lr) ∈ worker.held) ↔ ∃ i < n, worker.call.UsesZone i zone

/-- What the worker has done, by where it is. -/
def At (worker : Worker) : Prop :=
  match worker.pc with
  | .looking n rc _ _ => worker.call.status = .unset ∧ worker.Passed n ∧ worker.charged = [] ∧
      n ≤ worker.call.conf.limits.length ∧ (rc = .again ∨ rc = .declined ∧ ∀ i < n, ¬worker.call.Usable i)
  | .accounting n _ _ _ => worker.call.status = .unset ∧ worker.Passed n ∧ worker.charged = worker.call.zonesFrom n ∧
      n ≤ worker.call.conf.limits.length
  | .unlocking n _ status => worker.call.status = .unset ∧ worker.Passed n ∧ worker.charged = [] ∧
      n ≤ worker.call.conf.limits.length ∧ ¬status.Accepted
  | .returned _ status => worker.held = [] ∧
      (worker.call.status = .unset → worker.charged = if status.Accepted then worker.call.zonesFrom 0 else []) ∧
      (worker.call.status ≠ .unset → worker.charged = [])

/-- The contexts of the worker are the references of its request. -/
structure Inv (worker : Worker) : Prop where
  ctx : ∀ zone lr, worker.node zone = some lr ↔ (zone, lr) ∈ worker.held
  at_ : worker.At

variable {worker : Worker}

theorem Passed.nil (h : worker.Passed 0) : worker.held = [] := by
  refine List.eq_nil_iff_forall_not_mem.mpr fun r hr => ?_
  obtain ⟨i, hi, -⟩ := (h r.1).mp ⟨r.2, hr⟩
  exact Nat.not_lt_zero i hi

/-- A limit whose key is not usable is passed over. -/
theorem Passed.skip {n : ℕ} (h : worker.Passed n) (hn : ¬worker.call.Usable n) : worker.Passed (n + 1) := by
  intro zone
  rw [h zone]
  constructor
  · rintro ⟨i, hi, huses⟩
    exact ⟨i, by omega, huses⟩
  · rintro ⟨i, hi, huses⟩
    have hne : i ≠ n := by
      rintro rfl
      exact hn huses.2
    exact ⟨i, by omega, huses⟩

/-- A limit that has not been passed over has a reference. -/
theorem Passed.back {n zone : ℕ} (h : worker.Passed (n + 1)) (hzone : worker.call.conf.limits[n]?.map Limit.zone = some zone)
    (hnone : ∀ lr, (zone, lr) ∉ worker.held) : worker.Passed n ∧ ¬worker.call.Usable n := by
  have hn : ¬worker.call.Usable n := fun husable => by
    obtain ⟨lr, hlr⟩ := (h zone).mpr ⟨n, Nat.lt_succ_self n, hzone, husable⟩
    exact hnone lr hlr
  refine ⟨fun zone' => ?_, hn⟩
  rw [h zone']
  constructor
  · rintro ⟨i, hi, huses⟩
    have hne : i ≠ n := by
      rintro rfl
      exact hn huses.2
    exact ⟨i, by omega, huses⟩
  · rintro ⟨i, hi, huses⟩
    exact ⟨i, by omega, huses⟩

/-- The reference of a limit is given back. -/
theorem Passed.release {n zone : ℕ} (h : worker.Passed (n + 1))
    (hzone : worker.call.conf.limits[n]?.map Limit.zone = some zone) : (worker.release zone).Passed n := by
  intro zone'
  have hheld : ∀ lr, (zone', lr) ∈ (worker.release zone).held ↔ (zone', lr) ∈ worker.held ∧ zone' ≠ zone := fun lr => by
    rw [Worker.release, List.mem_filter, decide_eq_true_eq]
  constructor
  · rintro ⟨lr, hlr⟩
    obtain ⟨hmem, hne⟩ := (hheld lr).mp hlr
    obtain ⟨i, hi, huses⟩ := (h zone').mp ⟨lr, hmem⟩
    have hin : i ≠ n := by
      rintro rfl
      exact hne (Option.some.inj (huses.1.symm.trans hzone))
    exact ⟨i, by omega, huses⟩
  · rintro ⟨i, hi, huses⟩
    obtain ⟨lr, hlr⟩ := (h zone').mpr ⟨i, by omega, huses⟩
    refine ⟨lr, (hheld lr).mpr ⟨hlr, ?_⟩⟩
    rintro rfl
    have hin := Call.zone_unique huses.1 hzone
    omega

/-- A limit below the ones that have been passed has no reference, and gets one. -/
theorem Passed.hold {n zone lr : ℕ} (h : worker.Passed n) (huses : worker.call.UsesZone n zone) (node : ℕ → Option ℕ) :
    Passed { worker with node := node, held := (zone, lr) :: worker.held } (n + 1) := by
  intro zone'
  constructor
  · rintro ⟨lr', hlr⟩
    rcases List.mem_cons.mp hlr with heq | hmem
    · obtain ⟨rfl, rfl⟩ := Prod.mk.inj heq
      exact ⟨n, Nat.lt_succ_self n, huses⟩
    · obtain ⟨i, hi, huses'⟩ := (h zone').mp ⟨lr', hmem⟩
      exact ⟨i, by omega, huses'⟩
  · rintro ⟨i, hi, huses'⟩
    by_cases hin : i = n
    · subst hin
      obtain rfl := Option.some.inj (huses'.1.symm.trans huses.1)
      exact ⟨lr, List.mem_cons_self⟩
    · obtain ⟨lr', hmem⟩ := (h zone').mpr ⟨i, by omega, huses'⟩
      exact ⟨lr', List.mem_cons_of_mem _ hmem⟩

theorem Passed.not_held {n zone : ℕ} (h : worker.Passed n)
    (hzone : worker.call.conf.limits[n]?.map Limit.zone = some zone) (lr : ℕ) : (zone, lr) ∉ worker.held := fun hmem => by
  obtain ⟨i, hi, huses⟩ := (h zone).mp ⟨lr, hmem⟩
  have hin := Call.zone_unique huses.1 hzone
  omega

/-- Behind the loop of the handler. -/
theorem leave_at (rate : ℕ → ℕ) {n : ℕ} (excess limit : ℕ) {rc : Rc} (hstatus : worker.call.status = .unset)
    (hpassed : worker.Passed n) (hle : n ≤ worker.call.conf.limits.length)
    (hdeclined : rc = .declined → ∀ i < n, ¬worker.call.Usable i)
    (hcharged : worker.charged = if rc = .again ∨ rc = .ok then worker.call.zonesFrom n else []) :
    (worker.leave rate n rc excess limit).At := by
  cases rc with
  | declined =>
      have hnil : worker.held = [] := List.eq_nil_iff_forall_not_mem.mpr fun r hr => by
        obtain ⟨i, hi, huses⟩ := (hpassed r.1).mp ⟨r.2, hr⟩
        exact hdeclined rfl i hi huses.2
      rw [if_neg (by simp)] at hcharged
      have hnot : ¬worker.call.status.Accepted := by
        rw [hstatus]
        decide
      exact ⟨hnil, fun _ => by rw [if_neg hnot]; exact hcharged, fun hne => absurd hstatus hne⟩
  | busy =>
      rw [if_neg (by simp)] at hcharged
      rw [leave]
      split
      · exact ⟨hstatus, hpassed, hcharged, hle, by decide⟩
      · exact ⟨hstatus, hpassed, hcharged, hle, by decide⟩
  | error =>
      rw [if_neg (by simp)] at hcharged
      rw [leave]
      split
      · exact ⟨hstatus, hpassed, hcharged, hle, by decide⟩
      · exact ⟨hstatus, hpassed, hcharged, hle, by decide⟩
  | again =>
      rw [if_pos (Or.inl rfl)] at hcharged
      exact ⟨hstatus, hpassed, hcharged, hle⟩
  | ok =>
      rw [if_pos (Or.inr rfl)] at hcharged
      exact ⟨hstatus, hpassed, hcharged, hle⟩

@[simp] theorem leave_held (rate : ℕ → ℕ) (n : ℕ) (rc : Rc) (excess limit : ℕ) :
    (worker.leave rate n rc excess limit).held = worker.held := by
  cases rc <;> rw [leave] <;> split <;> rfl

@[simp] theorem leave_node (rate : ℕ → ℕ) (n : ℕ) (rc : Rc) (excess limit : ℕ) :
    (worker.leave rate n rc excess limit).node = worker.node := by
  cases rc <;> rw [leave] <;> split <;> rfl

@[simp] theorem leave_charged (rate : ℕ → ℕ) (n : ℕ) (rc : Rc) (excess limit : ℕ) :
    (worker.leave rate n rc excess limit).charged = worker.charged := by
  cases rc <;> rw [leave] <;> split <;> rfl

@[simp] theorem leave_call (rate : ℕ → ℕ) (n : ℕ) (rc : Rc) (excess limit : ℕ) :
    (worker.leave rate n rc excess limit).call = worker.call := by
  cases rc <;> rw [leave] <;> split <;> rfl

theorem leave_inv (hctx : ∀ zone lr, worker.node zone = some lr ↔ (zone, lr) ∈ worker.held) {rate : ℕ → ℕ} {n : ℕ} {rc : Rc}
    {excess limit : ℕ} (hat : (worker.leave rate n rc excess limit).At) : (worker.leave rate n rc excess limit).Inv := by
  refine ⟨fun zone lr => ?_, hat⟩
  rw [leave_node, leave_held]
  exact hctx zone lr

end Worker

end NginxDtls.LimitReq
