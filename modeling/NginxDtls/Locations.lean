import Mathlib.Data.List.Sort
import Mathlib.Tactic

/-! The static locations of one level: `ngx_http.c` sorts the queue of them, joins an exact location with the inclusive one of the
same name, puts the locations below an inclusive one into a list of their own and makes a tree of all of this, and
`ngx_http_core_find_static_location` looks the address of a request up in the tree. -/

namespace NginxDtls.Locations

variable {Conf : Type}

/-! ### Names -/

/-- `ngx_filename_cmp`, where there is a zero behind a text. -/
def ngxFilenameCmp : List UInt8 → List UInt8 → ℕ → ℤ
  | _, _, 0 => 0
  | s1, s2, n + 1 =>
    let c1 := s1.headD 0
    let c2 := s2.headD 0
    if c1 = c2 then if c1 ≠ 0 then ngxFilenameCmp s1.tail s2.tail n else 0
    else if c1 = 0 ∨ c2 = 0 then (c1.toNat : ℤ) - c2.toNat
    else
      -- the slash is the lowest character
      let c1 := if c1 = 47 then 0 else c1
      let c2 := if c2 = 47 then 0 else c2
      (c1.toNat : ℤ) - c2.toNat

/-- The sign of `ngx_strcmp`. -/
def ngxStrcmp (s1 s2 : List UInt8) : ℤ := if s1 = s2 then 0 else if s1 < s2 then -1 else 1

/-! ### Queues -/

/-- The loop of `ngx_queue_middle`, with what is in the queue from `middle` on and from `next` on. -/
def middleLoop {α : Type} : List α → List α → List α
  | middle, _ :: _ :: next :: rest => middleLoop middle.tail (next :: rest)
  | middle, [_, _] => middle.tail
  | middle, _ => middle

/-- `ngx_queue_middle`: what is in the queue from the middle on. -/
def ngxQueueMiddle {α : Type} (queue : List α) : List α := middleLoop queue queue

/-- `ngx_queue_split`: what stays in the queue; the rest is from `q` on. -/
def ngxQueueSplit {α : Type} (queue q : List α) : List α := queue.take (queue.length - q.length)

/-- A round of the loop of `ngx_queue_sort`: `q` goes behind the last one before it that is not greater. What comes before is
written from its end. -/
def insertBack {α : Type} (cmp : α → α → ℤ) (before : List α) (q : α) : List α :=
  before.orderedInsert (fun q prev => cmp prev q ≤ 0) q

/-- `ngx_queue_sort` -/
def ngxQueueSort {α : Type} (cmp : α → α → ℤ) : List α → List α
  | [] => []
  | q :: queue => (queue.foldl (insertBack cmp) [q]).reverse

/-! ### Locations -/

/-- `ngx_http_core_loc_conf_t` -/
structure CoreLocConf (Conf : Type) where
  name : List UInt8
  exactMatch : Bool
  autoRedirect : Bool
  noname : Bool
  named : Bool
  regex : Bool
  locConf : Conf

/-- `ngx_http_location_queue_t`; `list` is the queue of the locations below it. -/
inductive LocationQueue (Conf : Type) where
  | mk (exact inclusive : Option (CoreLocConf Conf)) (name : List UInt8) (list : List (LocationQueue Conf))

namespace LocationQueue

def exact : LocationQueue Conf → Option (CoreLocConf Conf)
  | .mk exact _ _ _ => exact

def inclusive : LocationQueue Conf → Option (CoreLocConf Conf)
  | .mk _ inclusive _ _ => inclusive

def name : LocationQueue Conf → List UInt8
  | .mk _ _ name _ => name

def list : LocationQueue Conf → List (LocationQueue Conf)
  | .mk _ _ _ list => list

def withInclusive (lq : LocationQueue Conf) (inclusive : Option (CoreLocConf Conf)) : LocationQueue Conf :=
  .mk lq.exact inclusive lq.name lq.list

def withList (lq : LocationQueue Conf) (list : List (LocationQueue Conf)) : LocationQueue Conf :=
  .mk lq.exact lq.inclusive lq.name list

end LocationQueue

/-- `ngx_http_add_location`: what is added to the queue. -/
def ngxHttpAddLocation (clcf : CoreLocConf Conf) : LocationQueue Conf :=
  if clcf.exactMatch ∨ clcf.regex ∨ clcf.named ∨ clcf.noname then .mk (some clcf) none clcf.name []
  else .mk none (some clcf) clcf.name []

/-- `lq->exact ? lq->exact : lq->inclusive` -/
def LocationQueue.clcf (lq : LocationQueue Conf) : Option (CoreLocConf Conf) := lq.exact.or lq.inclusive

/-- `ngx_http_cmp_locations` of two configurations. -/
def cmpConfs (first second : CoreLocConf Conf) : ℤ :=
  if first.noname ∧ ¬second.noname then 1
  else if ¬first.noname ∧ second.noname then -1
  else if first.noname ∨ second.noname then 0
  else if first.named ∧ ¬second.named then 1
  else if ¬first.named ∧ second.named then -1
  else if first.named ∧ second.named then ngxStrcmp first.name second.name
  else if first.regex ∧ ¬second.regex then 1
  else if ¬first.regex ∧ second.regex then -1
  else if first.regex ∨ second.regex then 0
  else
    let rc := ngxFilenameCmp first.name second.name (min first.name.length second.name.length + 1)
    -- an exact location is before the inclusive one of its name
    if rc = 0 ∧ ¬first.exactMatch ∧ second.exactMatch then 1 else rc

/-- `ngx_http_cmp_locations`; one of `exact` and `inclusive` is there. -/
def ngxHttpCmpLocations (one two : LocationQueue Conf) : ℤ :=
  match one.clcf, two.clcf with
  | some first, some second => cmpConfs first second
  | _, _ => 0

/-- `ngx_http_join_exact_locations`, from `q` on. -/
def ngxHttpJoinExactLocations : List (LocationQueue Conf) → Option (List (LocationQueue Conf))
  | lq :: lx :: queue =>
    if lq.name.length = lx.name.length ∧ ngxFilenameCmp lq.name lx.name lx.name.length = 0 then
      -- a duplicate location
      if lq.exact.isSome ∧ lx.exact.isSome ∨ lq.inclusive.isSome ∧ lx.inclusive.isSome then none
      else ngxHttpJoinExactLocations (lq.withInclusive lx.inclusive :: queue)
    else (ngxHttpJoinExactLocations (lx :: queue)).map (lq :: ·)
  | queue => some queue
  termination_by queue => queue.length

/-- The loop of `ngx_http_create_locations_list` goes on behind `lx`. -/
def below (name : List UInt8) (lx : LocationQueue Conf) : Bool :=
  ¬(lx.name.length < name.length ∨ ngxFilenameCmp name lx.name name.length ≠ 0)

section Size

theorem sizeOf_append (queue queue' : List (LocationQueue Conf)) :
    sizeOf (queue ++ queue') + 1 = sizeOf queue + sizeOf queue' := by
  induction queue with
  | nil => simp [Nat.add_comm]
  | cons q queue ih =>
      simp only [List.cons_append, List.cons.sizeOf_spec]
      omega

theorem sizeOf_takeWhile_dropWhile (p : LocationQueue Conf → Bool) (queue : List (LocationQueue Conf)) :
    sizeOf (queue.takeWhile p) + sizeOf (queue.dropWhile p) = sizeOf queue + 1 := by
  rw [← sizeOf_append, List.takeWhile_append_dropWhile]

theorem sizeOf_queue_pos (queue : List (LocationQueue Conf)) : 0 < sizeOf queue := by
  cases queue <;> simp

theorem LocationQueue.sizeOf_list (lq : LocationQueue Conf) : sizeOf lq.list < sizeOf lq := by
  cases lq
  simp only [LocationQueue.list, LocationQueue.mk.sizeOf_spec]
  omega

end Size

/-- `ngx_http_create_locations_list`, from `q` on. -/
def ngxHttpCreateLocationsList : List (LocationQueue Conf) → List (LocationQueue Conf)
  | lq :: x :: queue =>
    if lq.inclusive.isNone then lq :: ngxHttpCreateLocationsList (x :: queue)
    else
      let list := (x :: queue).takeWhile (below lq.name)
      let tail := (x :: queue).dropWhile (below lq.name)
      if list.isEmpty then lq :: ngxHttpCreateLocationsList tail
      else if tail.isEmpty then [lq.withList (ngxHttpCreateLocationsList (lq.list ++ list))]
      else lq.withList (ngxHttpCreateLocationsList (lq.list ++ list)) :: ngxHttpCreateLocationsList tail
  | queue => queue
  termination_by queue => sizeOf queue
  decreasing_by
    all_goals
      have hsplit := sizeOf_takeWhile_dropWhile (below lq.name) (x :: queue)
      have hdrop := sizeOf_queue_pos ((x :: queue).dropWhile (below lq.name))
      have happend := sizeOf_append lq.list ((x :: queue).takeWhile (below lq.name))
      have hlist := lq.sizeOf_list
      simp only [List.cons.sizeOf_spec] at *
      omega

/-! ### Trees -/

/-- `ngx_http_location_tree_node_t`; `len` is an `u_char`. -/
inductive LocationTree (Conf : Type) where
  | null
  | node (left right tree : LocationTree Conf) (exact inclusive : Option (CoreLocConf Conf)) (autoRedirect : Bool)
    (len : UInt8) (name : List UInt8)

theorem middleLoop_suffix {α : Type} (middle next : List α) : middleLoop middle next <:+ middle := by
  fun_induction middleLoop middle next with
  | case1 middle a b next rest ih => exact ih.trans (List.tail_suffix middle)
  | case2 middle a b => exact List.tail_suffix middle
  | case3 next middle _ _ => exact List.suffix_refl middle

/-- The queue is what stays in it, the middle and the rest. -/
theorem split_middle {α : Type} {queue tail : List α} {q : α} (h : ngxQueueMiddle queue = q :: tail) :
    queue = ngxQueueSplit queue (q :: tail) ++ q :: tail := by
  obtain ⟨left, hleft⟩ : q :: tail <:+ queue := h ▸ middleLoop_suffix queue queue
  have hlength : queue.length - (q :: tail).length = left.length := by
    rw [← hleft, List.length_append, Nat.add_sub_cancel]
  rw [ngxQueueSplit, hlength, ← hleft, List.take_left]

/-- `ngx_http_create_locations_tree`; `NULL` is for the empty queues that it is not called for. -/
def ngxHttpCreateLocationsTree (locations : List (LocationQueue Conf)) (pre : ℕ) : LocationTree Conf :=
  match h : ngxQueueMiddle locations with
  | [] => .null
  | lq :: tail =>
    let len := lq.name.length - pre
    let left := ngxQueueSplit locations (lq :: tail)
    .node (if left.isEmpty then .null else ngxHttpCreateLocationsTree left pre)
      (if left.isEmpty ∨ tail.isEmpty then .null else ngxHttpCreateLocationsTree tail pre)
      (if lq.list.isEmpty then .null else ngxHttpCreateLocationsTree lq.list (pre + len))
      lq.exact lq.inclusive ((lq.exact.map CoreLocConf.autoRedirect).getD false ||
        (lq.inclusive.map CoreLocConf.autoRedirect).getD false)
      (UInt8.ofNat len) (lq.name.drop pre)
  termination_by sizeOf locations
  decreasing_by
    all_goals
      have hsplit := sizeOf_append (ngxQueueSplit locations (lq :: tail)) (lq :: tail)
      rw [← split_middle h, List.cons.sizeOf_spec] at hsplit
      have hleft := sizeOf_queue_pos (ngxQueueSplit locations (lq :: tail))
      have hlist := lq.sizeOf_list
      omega

/-- `ngx_http_init_static_location_trees` of one level; `none` is for an error. -/
def ngxHttpInitStaticLocationTrees (locations : List (LocationQueue Conf)) : Option (LocationTree Conf) :=
  if locations.isEmpty then some .null
  else do
    let locations ← ngxHttpJoinExactLocations locations
    some (ngxHttpCreateLocationsTree (ngxHttpCreateLocationsList locations) 0)

/-- The tree for the locations of the configuration, in its order. -/
def staticLocations (confs : List (CoreLocConf Conf)) : Option (LocationTree Conf) :=
  ngxHttpInitStaticLocationTrees (ngxQueueSort ngxHttpCmpLocations (confs.map ngxHttpAddLocation))

/-! ### The search -/

inductive Rc where
  | ok
  | done
  | again
  | declined
  deriving DecidableEq, Repr

/-- `node->exact ? node->exact->loc_conf : node->inclusive->loc_conf`, where one of them is there. -/
def nodeConf (exact inclusive : Option (CoreLocConf Conf)) (locConf : Conf) : Conf :=
  ((exact.or inclusive).map CoreLocConf.locConf).getD locConf

/-- The loop of `ngx_http_core_find_static_location`, with `rv` and `r->loc_conf`. -/
def findLoop : LocationTree Conf → List UInt8 → Rc → Conf → Rc × Conf
  | .null, _, rv, locConf => (rv, locConf)
  | .node left right tree exact inclusive autoRedirect nodeLen name, uri, rv, locConf =>
    let len := uri.length
    let n := if len ≤ nodeLen.toNat then len else nodeLen.toNat
    let rc := ngxFilenameCmp uri name n
    if rc ≠ 0 then if rc < 0 then findLoop left uri rv locConf else findLoop right uri rv locConf
    else if len > nodeLen.toNat then
      match inclusive with
      | some inclusive => findLoop tree (uri.drop n) .again inclusive.locConf
      | none => findLoop right uri rv locConf
    else if len = nodeLen.toNat then
      match exact with
      | some exact => (.ok, exact.locConf)
      | none => (.again, nodeConf none inclusive locConf)
    else if len + 1 = nodeLen.toNat ∧ autoRedirect then findLoop left uri .done (nodeConf exact inclusive locConf)
    else findLoop left uri rv locConf

/-- `ngx_http_core_find_static_location` -/
def ngxHttpCoreFindStaticLocation (node : LocationTree Conf) (uri : List UInt8) (locConf : Conf) : Rc × Conf :=
  findLoop node uri .declined locConf

end NginxDtls.Locations
