import NginxDtls.RadixKeys
import NginxDtls.Run

/-! Deletions and searches as they are in `ngx_radix_tree.c`: which calls are answered by what is stored and stay inside
the tree and the key. A leaf is deleted without a look at its value, a root without children is unlinked from the parent
that it does not have, and the search for a 128-bit key reads the byte behind the key below a node of the last level. -/

namespace NginxDtls.Radix

open Run

/-- The functions for one kind of keys, with the bits of a key. -/
structure Family (K B : Type) where
  loop : KeyLoop B
  bytes : K → B
  insert : ℕ → RadixTree → K → K → UInt64 → ℕ → Option (Ret × RadixTree)
  delete : RadixTree → K → K → Option (Ret × RadixTree)
  find : RadixTree → K → Option UInt64

/-- The 32-bit functions. -/
def family32 : Family UInt32 UInt32 where
  loop := loop32
  bytes := id
  insert pagesize t key mask value pages := some (loop32.insert pagesize t key mask value pages)
  delete := loop32.delete
  find := loop32.find

/-- The 128-bit functions. -/
def family128 : Family Key128 (ℕ → UInt8) where
  loop := loop128
  bytes := Key128.bytes
  insert := RadixTree.ngxRadix128treeInsert
  delete := RadixTree.ngxRadix128treeDelete
  find := RadixTree.ngxRadix128treeFind

inductive Call (K : Type) where
  | insert (key mask : K) (value : UInt64) (pages : ℕ)
  | delete (key mask : K)
  | find (key : K)

section Calls

variable {K B : Type} (f : Family K B) (pagesize : ℕ)

/-- The sides of a prefix. -/
def Family.sides (key mask : K) : List Bool := f.loop.sides (f.bytes key) (f.bytes mask)

/-- The tree, with the values that are stored, behind a call. There is none behind a read outside the tree or the key. -/
def callStep : State → Call K → State
  | none, _ => none
  | some s, .insert key mask value pages => (f.insert pagesize s.1 key mask value pages).map fun result =>
    (result.2, if result.1 = .ok then Function.update s.2 (f.sides key mask) (storedValue value) else s.2)
  | some s, .delete key mask => (f.delete s.1 key mask).map fun result =>
    (result.2, if result.1 = .ok then Function.update s.2 (f.sides key mask) none else s.2)
  | some s, .find key => (f.find s.1 key).map fun _ => s

/-- The root is not among the freed nodes. -/
def RootKept (t : RadixTree) : Prop := ∀ freed, FreeList t t.free freed → t.root ∉ freed

/-- The call comes to its end without a read outside the tree or the key and keeps the root. A deletion succeeds exactly
where a value is stored, and fails without a change of any search elsewhere. -/
def CallRight : State → Call K → Prop
  | none, _ => True
  | some s, .insert key mask value pages =>
    ∃ result, f.insert pagesize s.1 key mask value pages = some result ∧ RootKept result.2
  | some s, .delete key mask => ∃ result, f.delete s.1 key mask = some result ∧ RootKept result.2 ∧
    (result.1 = .ok ↔ s.2 (f.sides key mask) ≠ none) ∧
      (s.2 (f.sides key mask) = none → result.1 = .error ∧ ∀ addr, f.find result.2 addr = f.find s.1 addr)
  | some s, .find key => f.find s.1 key ≠ none

/-- The prefix ends at a leaf that has no value or is the root. -/
def EmptyLeaf (t : RadixTree) (sides : List Bool) : Prop :=
  ∃ n, t.walk (some t.root) sides = some n ∧ (t.node n).right = none ∧ (t.node n).left = none ∧
    ((t.node n).value = radixNoValue ∨ sides = [])

variable (overread : RadixTree → K → Prop)

/-- No deletion of an empty leaf, and no search that reads behind the key. -/
def CallSafe : State → Call K → Prop
  | some s, .delete key mask => ¬EmptyLeaf s.1 (f.sides key mask)
  | some s, .find key => ¬overread s.1 key
  | _, _ => True

/-- The functions are those over sides, and the search reads behind the key exactly in the given cases. -/
structure Family.Lawful : Prop where
  insert : ∀ t key mask value pages, f.insert pagesize t key mask value pages =
    some (f.loop.insert pagesize t (f.bytes key) (f.bytes mask) value pages)
  delete : ∀ {t T}, Holds f.loop t T → ∀ key mask,
    f.delete t key mask = f.loop.delete t (f.bytes key) (f.bytes mask)
  find : ∀ {t T}, Holds f.loop t T → ∀ key, f.find t key ≠ none ↔ ¬overread t key

end Calls

/-! ### The root -/

theorem FreeList.unique {t : RadixTree} {ptr : Option ℕ} {l l' : List ℕ} (h : FreeList t ptr l) (h' : FreeList t ptr l') :
    l = l' := by
  induction l generalizing ptr l' with
  | nil =>
      obtain rfl : ptr = none := h
      cases l' with
      | nil => rfl
      | cons n l' => cases h'.1
  | cons n l ih =>
      obtain ⟨rfl, h⟩ := h
      cases l' with
      | nil => cases h'
      | cons n' l' =>
          obtain ⟨heq, h'⟩ := h'
          obtain rfl := Option.some.inj heq
          rw [ih h h']

section Families

variable {K B : Type} {f : Family K B} {pagesize : ℕ} {overread : RadixTree → K → Prop} {t : RadixTree} {T : Table}

theorem Holds.rootKept {l : KeyLoop B} (h : Holds l t T) : RootKept t := by
  obtain ⟨P, freed, hrep, -⟩ := h
  intro freed' hfree
  rw [hfree.unique hrep.free]
  exact hrep.apart hrep.root

/-! ### Deletions -/

/-- What a deletion does. -/
inductive Deleted (l : KeyLoop B) (t : RadixTree) (T : Table) (sides : List Bool) : Option (Ret × RadixTree) → Prop where
  | fault (hleaf : EmptyLeaf t sides) (hroot : sides = []) : Deleted l t T sides none
  | empty (t' : RadixTree) (hleaf : EmptyLeaf t sides) (hnone : T sides = none) (hholds : Holds l t' T) :
    Deleted l t T sides (some (.ok, t'))
  | absent (hleaf : ¬EmptyLeaf t sides) (hnone : T sides = none) : Deleted l t T sides (some (.error, t))
  | stored (t' : RadixTree) (hleaf : ¬EmptyLeaf t sides) (hsome : T sides ≠ none)
    (hholds : Holds l t' (Function.update T sides none)) : Deleted l t T sides (some (.ok, t'))

theorem Holds.deleted {l : KeyLoop B} (h : Holds l t T) (sides : List Bool) : Deleted l t T sides (t.delete sides) := by
  obtain ⟨P, freed, hrep, hT⟩ := h
  have hwalk := hrep.walk hrep.root sides
  rw [List.append_nil] at hwalk
  cases hn : P sides.reverse with
  | none =>
      rw [hn] at hwalk
      have hleaf : ¬EmptyLeaf t sides := by
        rintro ⟨n, hnode, -⟩
        rw [hwalk] at hnode
        cases hnode
      rw [RadixTree.delete, hwalk]
      exact .absent hleaf (by rw [hT, valueAt_of_none hn])
  | some n =>
      rw [hn] at hwalk
      have hvalue : T sides = storedValue (t.node n).value := by rw [hT, valueAt_of_some hn]
      have hleaf_iff : EmptyLeaf t sides ↔ ¬((t.node n).right.isSome = true ∨ (t.node n).left.isSome = true) ∧
          ((t.node n).value = radixNoValue ∨ sides = []) := by
        constructor
        · rintro ⟨m, hm, hright, hleft, hempty⟩
          obtain rfl := Option.some.inj (hwalk.symm.trans hm)
          rw [hright, hleft]
          exact ⟨by simp, hempty⟩
        · rintro ⟨hchild, hempty⟩
          rw [not_or] at hchild
          exact ⟨n, hwalk, by simpa using hchild.1, by simpa using hchild.2, hempty⟩
      by_cases hchild : (t.node n).right.isSome = true ∨ (t.node n).left.isSome = true
      · have hleaf : ¬EmptyLeaf t sides := fun hleaf => (hleaf_iff.mp hleaf).1 hchild
        rw [RadixTree.delete, hwalk]
        dsimp only
        rw [if_pos hchild]
        by_cases hstored : (t.node n).value = radixNoValue
        · rw [if_neg (not_not.mpr hstored)]
          exact .absent hleaf (by rw [hvalue, storedValue_eq_none.mpr hstored])
        · rw [if_pos hstored]
          refine .stored _ hleaf (by rw [hvalue]; exact mt storedValue_eq_none.mp hstored)
            ⟨P, freed, hrep.setValue n radixNoValue, fun p => ?_⟩
          rw [update_reverse hT, hrep.valueAt_setValue hn, storedValue_eq_none.mpr rfl]
      · by_cases hroot : sides = []
        · have hleaf := hleaf_iff.mpr ⟨hchild, Or.inr hroot⟩
          rw [RadixTree.delete, hwalk]
          dsimp only
          rw [if_neg hchild, hroot]
          exact .fault (hroot ▸ hleaf) rfl
        · obtain ⟨t', P', freed', hrun, hrep', hvalue'⟩ := @Rep.prune _ t P freed hrep _ n sides.length
            (by simpa using hroot) hn (hrep.leaf hn hchild) (by rw [List.length_reverse])
          have hholds : Holds l t' (Function.update T sides none) :=
            ⟨P', freed', hrep', fun p => by rw [hvalue', update_reverse hT]⟩
          have hdelete : t.delete sides = some (.ok, t') := by
            rw [RadixTree.delete, hwalk]
            dsimp only
            rw [if_neg hchild, hrun]
            rfl
          rw [hdelete]
          by_cases hstored : (t.node n).value = radixNoValue
          · have hnone : T sides = none := by rw [hvalue, storedValue_eq_none.mpr hstored]
            rw [Function.update_eq_self_iff.mpr hnone.symm] at hholds
            exact .empty t' (hleaf_iff.mpr ⟨hchild, Or.inl hstored⟩) hnone hholds
          · refine .stored t' (fun hleaf => ?_) (by rw [hvalue]; exact mt storedValue_eq_none.mp hstored) hholds
            exact (hleaf_iff.mp hleaf).2.elim hstored hroot

/-! ### Calls -/

/-- A call is right exactly if it is safe. -/
theorem callRight_iff (hf : f.Lawful pagesize overread) (h : Holds f.loop t T) (call : Call K) :
    CallRight f pagesize (some (t, T)) call ↔ CallSafe f overread (some (t, T)) call := by
  cases call with
  | insert key mask value pages =>
      refine iff_of_true ⟨_, hf.insert t key mask value pages, ?_⟩ trivial
      exact (h.insert (f.bytes key) (f.bytes mask) value pages).rootKept
  | find key => exact hf.find h key
  | delete key mask =>
      rw [CallRight, CallSafe, hf.delete h, KeyLoop.delete, ← Family.sides]
      dsimp only
      have hdeleted := h.deleted (f.sides key mask)
      generalize t.delete (f.sides key mask) = result at hdeleted ⊢
      cases hdeleted with
      | fault hleaf _ => exact iff_of_false (fun hright => by obtain ⟨_, hrun, -⟩ := hright; cases hrun) (not_not.mpr hleaf)
      | empty t' hleaf hnone _ =>
          refine iff_of_false ?_ (not_not.mpr hleaf)
          rintro ⟨result, hrun, -, hok, -⟩
          obtain rfl := Option.some.inj hrun
          exact hok.mp rfl hnone
      | absent hleaf hnone =>
          refine iff_of_true ⟨_, rfl, h.rootKept, ?_, fun _ => ⟨rfl, fun _ => rfl⟩⟩ hleaf
          exact iff_of_false (fun hok => by cases hok) (not_not.mpr hnone)
      | stored t' hleaf hsome hholds =>
          exact iff_of_true ⟨_, rfl, hholds.rootKept, iff_of_true rfl hsome, fun hnone => absurd hnone hsome⟩ hleaf

/-- The tree of a state holds its table. -/
def StateHolds (f : Family K B) (s : State) : Prop := ∃ t T, s = some (t, T) ∧ Holds f.loop t T

theorem StateHolds.step (hf : f.Lawful pagesize overread) {s : State} (h : StateHolds f s) {call : Call K}
    (hsafe : CallSafe f overread s call) : StateHolds f (callStep f pagesize s call) := by
  obtain ⟨t, T, rfl, hholds⟩ := h
  cases call with
  | insert key mask value pages =>
      rw [callStep, hf.insert]
      exact ⟨_, _, rfl, hholds.insert (f.bytes key) (f.bytes mask) value pages⟩
  | find key =>
      obtain ⟨value, hvalue⟩ := Option.ne_none_iff_exists'.mp ((hf.find hholds key).mpr hsafe)
      rw [callStep, hvalue]
      exact ⟨t, T, rfl, hholds⟩
  | delete key mask =>
      rw [callStep, hf.delete hholds, KeyLoop.delete, ← Family.sides]
      rw [CallSafe] at hsafe
      dsimp only at hsafe ⊢
      have hdeleted := hholds.deleted (f.sides key mask)
      generalize t.delete (f.sides key mask) = result at hdeleted ⊢
      cases hdeleted with
      | fault hleaf _ => exact absurd hleaf hsafe
      | empty t' hleaf _ _ => exact absurd hleaf hsafe
      | absent _ _ => exact ⟨t, T, rfl, hholds⟩
      | stored t' _ _ hholds' => exact ⟨t', _, rfl, hholds'⟩

end Families

/-! ### The two families -/

/-- The 32-bit search has no bit to test below the last level. -/
theorem family32_lawful (pagesize : ℕ) : family32.Lawful pagesize fun _ _ => False where
  insert _ _ _ _ _ := rfl
  delete _ _ _ := rfl
  find h key := by
    obtain ⟨value, hvalue, -⟩ := h.find bits32 key
    exact iff_of_true (fun hnone => by cases hvalue.symm.trans hnone) not_false

/-- The tree has a node for all bits of the key. -/
def FullPath (t : RadixTree) (key : Key128) : Prop := t.walk (some t.root) (RadixTree.allSides128 key 0) ≠ none

theorem family128_lawful (pagesize : ℕ) : family128.Lawful pagesize FullPath where
  insert t key mask value pages := RadixTree.ngxRadix128treeInsert_eq pagesize t key mask value pages
  delete h key mask := RadixTree.ngxRadix128treeDelete_eq h key mask
  find {t _} h key := by
    obtain ⟨value, hvalue, -⟩ := h.find bits128 (Key128.bytes key)
    have hfind : family128.find t key = _ := RadixTree.ngxRadix128treeFind_eq t key
    rw [FullPath, not_not, hfind, show loop128.find t key.bytes = some value from hvalue]
    split
    · rename_i hnone
      exact iff_of_true (Option.some_ne_none value) hnone
    · rename_i hsome
      exact iff_of_false (not_not.mpr rfl) hsome

/-- Of a family of functions: the calls of a history are all right exactly if they are all safe. -/
theorem Family.Lawful.right_iff_safe {K B : Type} {f : Family K B} {pagesize : ℕ} {overread : RadixTree → K → Prop}
    (hf : f.Lawful pagesize overread) {t : RadixTree} (h : Holds f.loop t emptyTable) (calls : List (Call K)) :
    Along (callStep f pagesize) (CallRight f pagesize) (some (t, emptyTable)) calls ↔
      Along (callStep f pagesize) (CallSafe f overread) (some (t, emptyTable)) calls := by
  refine @along_iff _ _ _ _ (StateHolds f) _ ?_ (fun _ _ hs hsafe => hs.step hf hsafe) _ calls ⟨t, emptyTable, rfl, h⟩
  rintro _ call ⟨t, T, rfl, hholds⟩
  exact callRight_iff hf hholds call

/-- Histories of the calls of either family on a tree that was created. -/
theorem calls_right_iff (pagesize pages : ℕ) (preallocate : Preallocate) {t : RadixTree}
    (hcreate : radixTreeCreate pagesize pages preallocate = some t) (calls : List (Call UInt32))
    (calls128 : List (Call Key128)) :
    RootKept t ∧
      (Along (callStep family32 pagesize) (CallRight family32 pagesize) (some (t, emptyTable)) calls ↔
        Along (callStep family32 pagesize) (CallSafe family32 fun _ _ => False) (some (t, emptyTable)) calls) ∧
      (Along (callStep family128 pagesize) (CallRight family128 pagesize) (some (t, emptyTable)) calls128 ↔
        Along (callStep family128 pagesize) (CallSafe family128 FullPath) (some (t, emptyTable)) calls128) := by
  have hholds := holds_create hcreate
  exact ⟨hholds.rootKept, (family32_lawful pagesize).right_iff_safe hholds calls,
    (family128_lawful pagesize).right_iff_safe hholds.loop128 calls128⟩

/-- 10.0.0.0/8 and 10.1.0.0/16, of which the first one is deleted. -/
def calls32 : List (Call UInt32) :=
  [.insert 0x0a000000 0xff000000 1 2, .insert 0x0a010000 0xffff0000 2 2, .delete 0x0a000000 0xff000000, .find 0x0a010203]

/-- 2001::/16 and 2001:db8::/32, of which the second one is deleted. -/
def calls128 : List (Call Key128) :=
  let key : Key128 := (Vector.replicate 16 0).set 0 0x20 |>.set 1 0x01
  let mask : Key128 := (Vector.replicate 16 0).set 0 255 |>.set 1 255
  [.insert key mask 1 2, .insert (key.set 2 0x0d |>.set 3 0xb8) (mask.set 2 255 |>.set 3 255) 2 2,
    .delete (key.set 2 0x0d |>.set 3 0xb8) (mask.set 2 255 |>.set 3 255), .find key]

theorem calls_right_iff_preallocated : ∃ t, radixTreeCreate 4096 1 (.bits 1) = some t ∧ RootKept t ∧
    (Along (callStep family32 4096) (CallRight family32 4096) (some (t, emptyTable)) calls32 ↔
      Along (callStep family32 4096) (CallSafe family32 fun _ _ => False) (some (t, emptyTable)) calls32) ∧
    (Along (callStep family128 4096) (CallRight family128 4096) (some (t, emptyTable)) calls128 ↔
      Along (callStep family128 4096) (CallSafe family128 FullPath) (some (t, emptyTable)) calls128) := by
  have hcreate : (radixTreeCreate 4096 1 (.bits 1)).isSome = true := by decide +kernel
  obtain ⟨t, ht⟩ := Option.isSome_iff_exists.mp hcreate
  exact ⟨t, ht, calls_right_iff 4096 1 (.bits 1) ht calls32 calls128⟩

/-- Every call of every history is right. -/
def AlwaysRight {K B : Type} (f : Family K B) : Prop :=
  ∀ (pagesize pages : ℕ) (preallocate : Preallocate) (t : RadixTree) (calls : List (Call K)),
    radixTreeCreate pagesize pages preallocate = some t →
    Along (callStep f pagesize) (CallRight f pagesize) (some (t, emptyTable)) calls

set_option maxRecDepth 20000 in
/-- The preallocated leaf 128.0.0.0/1 is deleted with success, the deletion of 0.0.0.0/0 from an empty tree follows the
parent of the root, and the search for an address that is stored with all of its bits reads its byte 16. -/
theorem calls_not_right : ¬AlwaysRight family32 ∧
    (∃ t, radixTreeCreate 4096 1 (.bits 0) = some t ∧ ¬CallRight family32 4096 (some (t, emptyTable)) (.delete 0 0)) ∧
    ¬AlwaysRight family128 := by
  refine ⟨fun h => ?_, ⟨_, rfl, ?_⟩, fun h => ?_⟩
  · have hcalls := h 4096 1 (.bits 1) _ [.delete 0x80000000 0x80000000] rfl
    obtain ⟨⟨result, hrun, -, hok, -⟩, -⟩ := hcalls
    have hret : result.1 = .ok := by
      rw [← Option.some.inj hrun]
    exact hok.mp hret rfl
  · rintro ⟨result, hrun, -⟩
    cases hrun
  · have hcalls := h 4096 2 (.bits 0) _
      [.insert (Vector.replicate 16 0) (Vector.replicate 16 255) 7 2, .find (Vector.replicate 16 0)] rfl
    exact hcalls.2.1 rfl

end NginxDtls.Radix
