import Mathlib.Tactic

/-! Paths of segments between separators, in which a segment of one dot stands for nothing and one of two dots takes away the
segment before it. A segment takes the separator behind it along; what is behind the last separator is not closed. -/

namespace NginxDtls.PathSegments

variable {α : Type} [DecidableEq α] (sep dot : α)

/-- A closed segment after the ones before it, the nearest first. -/
def push (merge : Bool) (stack : List (List α)) (segment : List α) : Option (List (List α)) :=
  if segment = [dot] then some stack
  else if segment = [dot, dot] then stack.tail?
  else if merge ∧ segment = [] then some stack
  else some (segment :: stack)

/-- The last segment leaves nothing behind if it is a dot or two. -/
def close (merge : Bool) (stack : List (List α)) (last : List α) : Option (List (List α) × List α) :=
  if last = [dot] ∨ last = [dot, dot] then (push dot merge stack last).map fun stack => (stack, []) else some (stack, last)

/-- The segments of a path, one after another. -/
def resolve (merge : Bool) : List (List α) → List (List α) → Option (List (List α) × List α)
  | stack, [] => some (stack, [])
  | stack, [last] => close dot merge stack last
  | stack, segment :: next :: segments =>
    (push dot merge stack segment).bind fun stack => resolve merge stack (next :: segments)

/-- The text of closed segments. -/
def closed : List (List α) → List α
  | [] => []
  | segment :: stack => closed stack ++ (segment ++ [sep])

/-- A path behind a separator without dots, and with `merge` without empty segments; there is none if two dots have no segment
before them. -/
def normalise (merge : Bool) (path : List α) : Option (List α) :=
  (resolve dot merge [] (path.splitOn sep)).map fun resolved => closed sep resolved.1 ++ resolved.2

variable {sep dot} {merge : Bool}

/-! ### Segments in turn -/

theorem resolve_cons (stack : List (List α)) (segment : List α) {segments : List (List α)} (h : segments ≠ []) :
    resolve dot merge stack (segment :: segments) =
      (push dot merge stack segment).bind fun stack => resolve dot merge stack segments := by
  cases segments with
  | nil => exact absurd rfl h
  | cons next segments => rfl

/-- A separator closes the segment before it. -/
theorem resolve_sep (stack : List (List α)) {segment : List α} (h : sep ∉ segment) (w : List α) :
    resolve dot merge stack ((segment ++ sep :: w).splitOn sep) =
      (push dot merge stack segment).bind fun stack => resolve dot merge stack (w.splitOn sep) := by
  rw [List.splitOn_append_cons_self_of_not_mem h, resolve_cons stack segment (List.splitOn_ne_nil sep w)]

theorem resolve_last (stack : List (List α)) {last : List α} (h : sep ∉ last) :
    resolve dot merge stack (last.splitOn sep) = close dot merge stack last := by
  rw [List.splitOn_eq_singleton h]
  rfl

/-! ### What is left -/

/-- No dots, and no separator. -/
structure Proper (sep dot : α) (segment : List α) : Prop where
  noSep : sep ∉ segment
  noDot : segment ≠ [dot]
  noDots : segment ≠ [dot, dot]

/-- A closed segment that stays where it is. -/
structure Settled (sep dot : α) (merge : Bool) (segment : List α) : Prop extends Proper sep dot segment where
  full : merge = true → segment ≠ []

theorem push_settled {stack stack' : List (List α)} {segment : List α} (hstack : ∀ s ∈ stack, Settled sep dot merge s)
    (hsep : sep ∉ segment) (h : push dot merge stack segment = some stack') : ∀ s ∈ stack', Settled sep dot merge s := by
  rw [push] at h
  split_ifs at h with hdot hdots hempty
  · obtain rfl := Option.some.inj h
    exact hstack
  · cases stack with
    | nil => cases h
    | cons top stack =>
        obtain rfl := Option.some.inj h
        exact fun s hs => hstack s (List.mem_cons_of_mem top hs)
  · obtain rfl := Option.some.inj h
    exact hstack
  · obtain rfl := Option.some.inj h
    intro s hs
    rcases List.mem_cons.mp hs with rfl | hs
    · exact ⟨⟨hsep, hdot, hdots⟩, fun hmerge hnil => hempty ⟨hmerge, hnil⟩⟩
    · exact hstack s hs

theorem close_settled {stack stack' : List (List α)} {last last' : List α} (hstack : ∀ s ∈ stack, Settled sep dot merge s)
    (hsep : sep ∉ last) (h : close dot merge stack last = some (stack', last')) :
    (∀ s ∈ stack', Settled sep dot merge s) ∧ Proper sep dot last' := by
  rw [close] at h
  split_ifs at h with hdots
  · obtain ⟨stack₁, hpush, heq⟩ := Option.map_eq_some_iff.mp h
    obtain ⟨rfl, rfl⟩ := Prod.mk.inj heq
    exact ⟨push_settled hstack hsep hpush, ⟨List.not_mem_nil, (List.cons_ne_nil _ _).symm, (List.cons_ne_nil _ _).symm⟩⟩
  · obtain ⟨rfl, rfl⟩ := Prod.mk.inj (Option.some.inj h)
    exact ⟨hstack, hsep, fun heq => hdots (Or.inl heq), fun heq => hdots (Or.inr heq)⟩

theorem resolve_settled {stack stack' : List (List α)} {segments : List (List α)} {last : List α}
    (hstack : ∀ s ∈ stack, Settled sep dot merge s) (hsep : ∀ s ∈ segments, sep ∉ s)
    (h : resolve dot merge stack segments = some (stack', last)) :
    (∀ s ∈ stack', Settled sep dot merge s) ∧ Proper sep dot last := by
  induction segments generalizing stack with
  | nil =>
      obtain ⟨rfl, rfl⟩ := Prod.mk.inj (Option.some.inj h)
      exact ⟨hstack, List.not_mem_nil, (List.cons_ne_nil _ _).symm, (List.cons_ne_nil _ _).symm⟩
  | cons segment segments ih =>
      have hsegment := hsep segment List.mem_cons_self
      by_cases hnil : segments = []
      · subst hnil
        exact close_settled hstack hsegment h
      · rw [resolve_cons stack segment hnil] at h
        obtain ⟨stack₁, hpush, hrest⟩ := Option.bind_eq_some_iff.mp h
        exact ih (push_settled hstack hsegment hpush) (fun s hs => hsep s (List.mem_cons_of_mem segment hs)) hrest

theorem sep_notMem_splitOn {path : List α} : ∀ s ∈ path.splitOn sep, sep ∉ s := by
  induction path with
  | nil =>
      intro s hs
      rw [List.splitOn_nil, List.mem_singleton] at hs
      rw [hs]
      exact List.not_mem_nil
  | cons c path ih =>
      intro s hs
      rw [List.splitOn_cons_eq_if_modifyHead] at hs
      split_ifs at hs with hc
      · rcases List.mem_cons.mp hs with rfl | hs
        · exact List.not_mem_nil
        · exact ih s hs
      · obtain ⟨first, rest, heq⟩ := List.exists_cons_of_ne_nil (List.splitOn_ne_nil sep path)
        rw [heq, List.modifyHead_cons] at hs
        rw [heq] at ih
        rcases List.mem_cons.mp hs with rfl | hs
        · intro hmem
          rcases List.mem_cons.mp hmem with rfl | hmem
          · exact hc (beq_self_eq_true sep)
          · exact ih first List.mem_cons_self hmem
        · exact ih s (List.mem_cons_of_mem first hs)

theorem splitOn_closed {stack : List (List α)} (hstack : ∀ s ∈ stack, sep ∉ s) {w : List α} :
    (closed sep stack ++ w).splitOn sep = stack.reverse ++ w.splitOn sep := by
  induction stack generalizing w with
  | nil => rfl
  | cons segment stack ih =>
      have htail : ∀ s ∈ stack, sep ∉ s := fun s hs => hstack s (List.mem_cons_of_mem segment hs)
      have hfirst := hstack segment List.mem_cons_self
      rw [closed, List.append_assoc, ih htail, List.append_assoc, List.singleton_append,
        List.splitOn_append_cons_self_of_not_mem hfirst, List.reverse_cons, List.append_assoc, List.singleton_append]

/-- Segments that are settled stay. -/
theorem resolve_of_settled (stack : List (List α)) {segments : List (List α)} {last : List α}
    (h : ∀ s ∈ segments, Settled sep dot merge s) (hlast : Proper sep dot last) :
    resolve dot merge stack (segments ++ [last]) = some (segments.reverse ++ stack, last) := by
  induction segments generalizing stack with
  | nil =>
      show close dot merge stack last = some (stack, last)
      rw [close, if_neg (not_or.mpr ⟨hlast.noDot, hlast.noDots⟩)]
  | cons s segments ih =>
      have hs := h s List.mem_cons_self
      have hpush : push dot merge stack s = some (s :: stack) := by
        rw [push, if_neg hs.noDot, if_neg hs.noDots, if_neg fun hempty => hs.full hempty.1 hempty.2]
      rw [List.cons_append, resolve_cons stack s (by simp), hpush, Option.bind_some,
        ih (s :: stack) fun s' hs' => h s' (List.mem_cons_of_mem s hs'), List.reverse_cons, List.append_assoc]
      rfl

/-- A path of settled segments is normal. -/
theorem normalise_closed {stack : List (List α)} {last : List α} (h : ∀ s ∈ stack, Settled sep dot merge s)
    (hlast : Proper sep dot last) : normalise sep dot merge (closed sep stack ++ last) = some (closed sep stack ++ last) := by
  have hresolve : resolve dot merge [] ((closed sep stack ++ last).splitOn sep) = some (stack, last) := by
    rw [splitOn_closed fun s hs => (h s hs).noSep, List.splitOn_eq_singleton hlast.noSep,
      resolve_of_settled [] (fun s hs => h s (List.mem_reverse.mp hs)) hlast, List.reverse_reverse, List.append_nil]
  rw [normalise, hresolve]
  rfl

/-- What is left is settled: every closed segment, and the last one but for being empty. -/
theorem normalise_settled {path path' : List α} (h : normalise sep dot merge path = some path') :
    ∃ stack last, path' = closed sep stack ++ last ∧ (∀ s ∈ stack, Settled sep dot merge s) ∧ Proper sep dot last := by
  obtain ⟨⟨stack, last⟩, hresolve, rfl⟩ := Option.map_eq_some_iff.mp h
  obtain ⟨hstack, hlast⟩ := resolve_settled (by simp) sep_notMem_splitOn hresolve
  exact ⟨stack, last, rfl, hstack, hlast⟩

/-- A normal path stays as it is. -/
theorem normalise_idem {path path' : List α} (h : normalise sep dot merge path = some path') :
    normalise sep dot merge path' = some path' := by
  obtain ⟨stack, last, rfl, hstack, hlast⟩ := normalise_settled h
  exact normalise_closed hstack hlast

/-! ### Lengths -/

theorem push_length {stack stack' : List (List α)} {segment : List α} (h : push dot merge stack segment = some stack') :
    (closed sep stack').length ≤ (closed sep stack).length + segment.length + 1 := by
  rw [push] at h
  split_ifs at h
  · obtain rfl := Option.some.inj h
    omega
  · cases stack with
    | nil => cases h
    | cons top stack =>
        obtain rfl := Option.some.inj h
        simp only [closed, List.length_append]
        omega
  · obtain rfl := Option.some.inj h
    omega
  · obtain rfl := Option.some.inj h
    simp only [closed, List.length_append, List.length_singleton]
    omega

end NginxDtls.PathSegments
