import Mathlib.Tactic

/-! Prefix codes as binary trees with numbered nodes, and a reader that takes one bit after another. It reads exactly the
codes of symbols with the beginning of a code behind them, however its input is cut. -/

namespace NginxDtls.PrefixCode

variable {α : Type}

inductive CodeTree (α : Type) where
  | empty
  | leaf (a : α)
  | node (number : ℕ) (zero one : CodeTree α)
  deriving DecidableEq

namespace CodeTree

/-- The tree behind some bits. -/
def follow : CodeTree α → List Bool → CodeTree α
  | t, [] => t
  | .node _ zero one, b :: bs => follow (if b then one else zero) bs
  | _, _ :: _ => .empty

def insert (a : α) : List Bool → CodeTree α → CodeTree α
  | [], _ => .leaf a
  | true :: bs, .node n zero one => .node n zero (insert a bs one)
  | false :: bs, .node n zero one => .node n (insert a bs zero) one
  | true :: bs, _ => .node 0 .empty (insert a bs .empty)
  | false :: bs, _ => .node 0 (insert a bs .empty) .empty

/-- The number of nodes that are not leaves. -/
def size : CodeTree α → ℕ
  | .node _ zero one => zero.size + one.size + 1
  | _ => 0

/-- The nodes numbered from `n` on, a node before what is below it. -/
def renumber : ℕ → CodeTree α → CodeTree α
  | n, .node _ zero one => .node n (renumber (n + 1) zero) (renumber (n + 1 + zero.size) one)
  | _, t => t

/-- The symbols with their codes. -/
def leaves : CodeTree α → List (List Bool × α)
  | .empty => []
  | .leaf a => [([], a)]
  | .node _ zero one =>
    (zero.leaves.map fun x => (false :: x.1, x.2)) ++ one.leaves.map fun x => (true :: x.1, x.2)

/-- The nodes that are not leaves, with the ways to them. -/
def inners : List Bool → CodeTree α → List (List Bool × CodeTree α)
  | p, .node n zero one => (p, .node n zero one) :: (inners (p ++ [false]) zero ++ inners (p ++ [true]) one)
  | _, _ => []

def Inner : CodeTree α → Prop
  | .node _ _ _ => True
  | _ => False

instance : DecidablePred (Inner (α := α)) := fun t =>
  match t with
  | .node _ _ _ => isTrue trivial
  | .empty | .leaf _ => isFalse id

theorem follow_nil (t : CodeTree α) : t.follow [] = t := by
  cases t <;> rfl

theorem follow_append (t : CodeTree α) (p q : List Bool) : t.follow (p ++ q) = (t.follow p).follow q := by
  induction p generalizing t with
  | nil => rw [follow_nil, List.nil_append]
  | cons b p ih =>
      cases t with
      | node n zero one => exact ih _
      | empty | leaf => cases q <;> rfl

/-- What goes on has a node behind it. -/
theorem inner_of_follow_cons {t : CodeTree α} {b : Bool} {q : List Bool} {a : α} (h : t.follow (b :: q) = .leaf a) :
    t.Inner := by
  cases t with
  | node => trivial
  | empty | leaf => cases h

theorem mem_leaves {t : CodeTree α} {p : List Bool} {a : α} (h : t.follow p = .leaf a) : (p, a) ∈ t.leaves := by
  induction p generalizing t with
  | nil =>
      rw [follow_nil] at h
      rw [h]
      exact List.mem_singleton_self _
  | cons b p ih =>
      cases t with
      | node n zero one =>
          rw [leaves, List.mem_append]
          cases b with
          | false => exact .inl (List.mem_map.mpr ⟨(p, a), ih h, rfl⟩)
          | true => exact .inr (List.mem_map.mpr ⟨(p, a), ih h, rfl⟩)
      | empty | leaf => cases h

theorem mem_inners {t : CodeTree α} (p : List Bool) {q : List Bool} (h : (t.follow q).Inner) :
    (p ++ q, t.follow q) ∈ inners p t := by
  induction q generalizing t p with
  | nil =>
      rw [follow_nil] at h ⊢
      cases t with
      | node n zero one =>
          rw [List.append_nil]
          exact List.mem_cons_self
      | empty | leaf => exact h.elim
  | cons b q ih =>
      cases t with
      | node n zero one =>
          have hcons : p ++ b :: q = p ++ [b] ++ q := by simp
          rw [hcons, inners]
          refine List.mem_cons_of_mem _ (List.mem_append.mpr ?_)
          cases b with
          | false => exact .inl (ih _ h)
          | true => exact .inr (ih _ h)
      | empty | leaf => exact h.elim

end CodeTree

variable (root : CodeTree α)

/-- The tree has the codes of the symbols. -/
structure Codes (root : CodeTree α) (code : α → List Bool) : Prop where
  inner : root.Inner
  leaf : ∀ a, root.follow (code a) = .leaf a
  code_eq : ∀ p a, root.follow p = .leaf a → code a = p

/-- The reader: the bits that it has read since the last symbol, and the symbols. -/
def read : List Bool → List Bool → Option (List Bool × List α)
  | p, [] => some (p, [])
  | p, b :: bs =>
    match root.follow (p ++ [b]) with
    | .leaf a => (read [] bs).map fun r => (r.1, a :: r.2)
    | .node _ _ _ => read (p ++ [b]) bs
    | .empty => none

variable {root} {code : α → List Bool} {p q bs : List Bool} {a : α} {as : List α}

theorem read_leaf {b : Bool} (h : root.follow (p ++ [b]) = .leaf a) (bs : List Bool) :
    read root p (b :: bs) = (read root [] bs).map fun r => (r.1, a :: r.2) := by
  rw [read, h]

theorem read_inner {b : Bool} (h : (root.follow (p ++ [b])).Inner) (bs : List Bool) :
    read root p (b :: bs) = read root (p ++ [b]) bs := by
  rw [read]
  cases hfollow : root.follow (p ++ [b]) with
  | node => rfl
  | empty | leaf =>
      rw [hfollow] at h
      exact h.elim

theorem read_append (xs ys : List Bool) : read root p (xs ++ ys) =
    (read root p xs).bind fun r => (read root r.1 ys).map fun r' => (r'.1, r.2 ++ r'.2) := by
  induction xs generalizing p with
  | nil =>
      rw [List.nil_append, read, Option.bind_some]
      cases read root p ys <;> rfl
  | cons b xs ih =>
      rw [List.cons_append, read, read]
      cases root.follow (p ++ [b]) with
      | empty => rfl
      | node => exact ih
      | leaf a =>
          simp only [ih]
          cases read root [] xs with
          | none => rfl
          | some r =>
              simp only [Option.bind_some, Option.map_some]
              cases read root r.1 ys <;> rfl

/-- What is read is the codes of the symbols, and what is left begins a code. -/
theorem read_sound (h : Codes root code) (hp : (root.follow p).Inner) (hread : read root p bs = some (q, as)) :
    p ++ bs = as.flatMap code ++ q ∧ (root.follow q).Inner := by
  induction bs generalizing p q as with
  | nil =>
      obtain ⟨rfl, rfl⟩ := Prod.mk.inj (Option.some.inj hread)
      exact ⟨by simp, hp⟩
  | cons b bs ih =>
      have hcons : p ++ b :: bs = p ++ [b] ++ bs := by simp
      cases hfollow : root.follow (p ++ [b]) with
      | empty =>
          rw [read, hfollow] at hread
          cases hread
      | node =>
          have hinner : (root.follow (p ++ [b])).Inner := by rw [hfollow]; trivial
          rw [read_inner hinner] at hread
          rw [hcons]
          exact ih hinner hread
      | leaf a =>
          rw [read_leaf hfollow, Option.map_eq_some_iff] at hread
          obtain ⟨⟨q', as'⟩, hread', heq⟩ := hread
          obtain ⟨rfl, rfl⟩ := Prod.mk.inj heq
          obtain ⟨hbs, hq⟩ := ih (by rw [CodeTree.follow_nil]; exact h.inner) hread'
          refine ⟨?_, hq⟩
          rw [hcons, ← h.code_eq _ _ hfollow, ← List.nil_append bs, hbs, List.flatMap_cons, List.append_assoc]

/-- The rest of a code is read as its symbol. -/
theorem read_code (h : Codes root code) (hq : q ≠ []) (hcode : code a = p ++ q) (bs : List Bool) :
    read root p (q ++ bs) = (read root [] bs).map fun r => (r.1, a :: r.2) := by
  induction q generalizing p with
  | nil => exact absurd rfl hq
  | cons b q ih =>
      have hleaf : root.follow (p ++ [b] ++ q) = .leaf a := by
        rw [List.append_assoc, List.singleton_append, ← hcode]
        exact h.leaf a
      cases q with
      | nil =>
          rw [List.append_nil] at hleaf
          exact read_leaf hleaf bs
      | cons b' q =>
          have hinner : (root.follow (p ++ [b])).Inner := by
            rw [CodeTree.follow_append] at hleaf
            exact CodeTree.inner_of_follow_cons hleaf
          rw [List.cons_append, read_inner hinner]
          exact ih (List.cons_ne_nil _ _) (by rw [hcode, List.append_assoc, List.singleton_append])

theorem Codes.code_ne_nil (h : Codes root code) (a : α) : code a ≠ [] := by
  intro hnil
  have hleaf := h.leaf a
  rw [hnil, CodeTree.follow_nil] at hleaf
  have hinner := h.inner
  rw [hleaf] at hinner
  exact hinner

theorem read_encode (h : Codes root code) (as : List α) (bs : List Bool) :
    read root [] (as.flatMap code ++ bs) = (read root [] bs).map fun r => (r.1, as ++ r.2) := by
  induction as with
  | nil =>
      rw [List.flatMap_nil, List.nil_append]
      cases read root [] bs <;> rfl
  | cons a as ih =>
      rw [List.flatMap_cons, List.append_assoc, read_code h (h.code_ne_nil a) rfl, ih]
      cases read root [] bs <;> rfl

/-- What begins a code is read and kept. -/
theorem read_pending (hinner : (root.follow (p ++ q)).Inner) : read root p q = some (p ++ q, []) := by
  induction q generalizing p with
  | nil => rw [read, List.append_nil]
  | cons b q ih =>
      have hcons : p ++ b :: q = p ++ [b] ++ q := by simp
      rw [hcons] at hinner ⊢
      have hb : (root.follow (p ++ [b])).Inner := by
        cases q with
        | nil =>
            rw [List.append_nil] at hinner
            exact hinner
        | cons b' q =>
            rw [CodeTree.follow_append] at hinner
            cases hfollow : root.follow (p ++ [b]) with
            | node => trivial
            | empty | leaf =>
                rw [hfollow] at hinner
                exact hinner.elim
      rw [read_inner hb]
      exact ih hinner

/-- The reader accepts exactly codes with the beginning of another one behind them. -/
theorem read_eq_some_iff (h : Codes root code) :
    read root [] bs = some (q, as) ↔ bs = as.flatMap code ++ q ∧ (root.follow q).Inner := by
  constructor
  · intro hread
    have hnil : (root.follow []).Inner := by
      rw [CodeTree.follow_nil]
      exact h.inner
    exact read_sound h hnil hread
  · rintro ⟨rfl, hq⟩
    have hpending := read_pending (p := []) (q := q) (by rw [List.nil_append]; exact hq)
    rw [read_encode h, hpending, Option.map_some, List.append_nil, List.nil_append]

/-- The reader with the tree behind what it has read, for evaluation. -/
def walk (root : CodeTree α) : CodeTree α → List Bool → List Bool → Option (CodeTree α × List Bool × List α)
  | t, p, [] => some (t, p, [])
  | .node _ zero one, p, b :: bs =>
    match if b then one else zero with
    | .leaf a => (walk root root [] bs).map fun r => (r.1, r.2.1, a :: r.2.2)
    | .node n zero one => walk root (.node n zero one) (p ++ [b]) bs
    | .empty => none
  | _, _, _ :: _ => none

theorem walk_eq_read (p bs : List Bool) :
    walk root (root.follow p) p bs = (read root p bs).map fun r => (root.follow r.1, r.1, r.2) := by
  induction bs generalizing p with
  | nil => cases hfollow : root.follow p <;> simp [walk, read, hfollow]
  | cons b bs ih =>
      have hnil := ih []
      have hcons := ih (p ++ [b])
      rw [CodeTree.follow_nil] at hnil
      rw [CodeTree.follow_append] at hcons
      rw [read, CodeTree.follow_append]
      cases hfollow : root.follow p with
      | empty | leaf => rfl
      | node n zero one =>
          rw [hfollow] at hcons
          have hb : (CodeTree.node n zero one).follow [b] = if b then one else zero := CodeTree.follow_nil _
          rw [hb] at hcons ⊢
          rw [walk]
          cases hchild : (if b then one else zero) with
          | empty => rfl
          | leaf a =>
              simp only [hnil]
              cases read root [] bs <;> rfl
          | node n' zero' one' =>
              rw [hchild] at hcons
              exact hcons

end NginxDtls.PrefixCode
