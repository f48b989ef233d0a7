import Mathlib.Tactic

/-! Byte memory with a record of every access. A program over memory objects `O` is a function on
stores; reading and writing append to the trace, so a bound on the indices a run touches is a
statement about the trace, and a run that leaves an object still has a definite result. What a
sequence of writes at increasing positions leaves behind is described by its image: one entry per
position, `none` where the program skips a byte. -/

namespace NginxDtls.Memory

/-- An access to `count` consecutive indices of one object. -/
structure Access (O : Type) where
  object : O
  first : Nat
  count : Nat
  write : Bool

/-- Every index of the access is below the size of its object. -/
def Access.Within {O : Type} (size : O → Nat) (a : Access O) : Prop :=
  ∀ i, a.first ≤ i → i < a.first + a.count → i < size a.object

theorem Access.within_of_le {O : Type} {size : O → Nat} {a : Access O}
    (h : a.first + a.count ≤ size a.object) : a.Within size :=
  fun _ _ hi => hi.trans_le h

theorem Access.within_iff {O : Type} {size : O → Nat} {a : Access O} (hcount : 0 < a.count) :
    a.Within size ↔ a.first + a.count ≤ size a.object := by
  constructor
  · intro h
    have := h (a.first + a.count - 1) (by omega) (by omega)
    omega
  · exact Access.within_of_le

/-- Memory contents, one byte function per object, and the accesses made so far, newest first. -/
structure Store (O : Type) where
  bytes : O → Nat → UInt8
  trace : List (Access O)

/-- A program that reads and writes memory. -/
def Mem (O α : Type) : Type := Store O → α × Store O

namespace Mem

variable {O α β : Type}

instance : Monad (Mem O) where
  pure a := fun s => (a, s)
  bind m f := fun s => f (m s).1 (m s).2

@[simp] theorem pure_run (a : α) (s : Store O) : (pure a : Mem O α) s = (a, s) := rfl

@[simp] theorem bind_run (m : Mem O α) (f : α → Mem O β) (s : Store O) :
    (m >>= f) s = f (m s).1 (m s).2 := rfl

@[simp] theorem ite_run (c : Prop) [Decidable c] (m n : Mem O α) (s : Store O) :
    (if c then m else n) s = if c then m s else n s := by
  split <;> rfl

end Mem

/-! ### Byte functions and images -/

/-- The `n` bytes of `f` from index `i`. -/
def bytesAt (f : Nat → UInt8) (i n : Nat) : List UInt8 := (List.range n).map fun k => f (i + k)

@[simp] theorem bytesAt_length (f : Nat → UInt8) (i n : Nat) : (bytesAt f i n).length = n := by
  simp [bytesAt]

theorem bytesAt_getElem? (f : Nat → UInt8) (i : Nat) {n k : Nat} (hk : k < n) :
    (bytesAt f i n)[k]? = some (f (i + k)) := by
  simp [bytesAt, hk]

theorem bytesAt_congr {f g : Nat → UInt8} {i n : Nat}
    (h : ∀ k, i ≤ k → k < i + n → f k = g k) : bytesAt f i n = bytesAt g i n := by
  apply List.map_congr_left
  intro k hk
  have := List.mem_range.mp hk
  exact h _ (by omega) (by omega)

/-- The contents `f` with the image `img` laid over it from index `i` on. -/
def overlay (f : Nat → UInt8) (i : Nat) (img : List (Option UInt8)) : Nat → UInt8 := fun k =>
  if i ≤ k then ((img[k - i]?).join).getD (f k) else f k

theorem overlay_of_lt {f : Nat → UInt8} {i k : Nat} {img : List (Option UInt8)} (hk : k < i) :
    overlay f i img k = f k := by
  simp [overlay, Nat.not_le.mpr hk]

theorem overlay_of_ge {f : Nat → UInt8} {i k : Nat} {img : List (Option UInt8)}
    (hk : i + img.length ≤ k) : overlay f i img k = f k := by
  have hnone : img[k - i]? = none := List.getElem?_eq_none (by omega)
  simp [overlay, hnone]

theorem overlay_some {f : Nat → UInt8} {i j : Nat} {img : List (Option UInt8)} {b : UInt8}
    (h : img[j]? = some (some b)) : overlay f i img (i + j) = b := by
  simp [overlay, h]

theorem overlay_none {f : Nat → UInt8} {i j : Nat} {img : List (Option UInt8)}
    (h : img[j]? = some none) : overlay f i img (i + j) = f (i + j) := by
  simp [overlay, h]

@[simp] theorem overlay_nil (f : Nat → UInt8) (i : Nat) : overlay f i [] = f := by
  funext k
  simp [overlay]

/-- Two images laid one behind the other are one image. -/
theorem overlay_append (f : Nat → UInt8) (i : Nat) (a b : List (Option UInt8)) :
    overlay (overlay f i a) (i + a.length) b = overlay f i (a ++ b) := by
  funext k
  by_cases hlow : k < i
  · rw [overlay_of_lt (by omega), overlay_of_lt hlow, overlay_of_lt hlow]
  obtain ⟨j, rfl⟩ : ∃ j, k = i + j := ⟨k - i, by omega⟩
  by_cases ha : j < a.length
  · rw [overlay_of_lt (by omega)]
    simp [overlay, List.getElem?_append_left ha]
  · have hge : i + a.length ≤ i + j := by omega
    rw [overlay, if_pos hge, overlay_of_ge hge]
    have hsub : i + j - (i + a.length) = j - a.length := by omega
    simp [overlay, List.getElem?_append_right (Nat.not_lt.mp ha), hsub]

theorem overlay_replicate_none (f : Nat → UInt8) (i n : Nat) :
    overlay f i (List.replicate n none) = f := by
  funext k
  by_cases hlow : k < i
  · exact overlay_of_lt hlow
  · obtain ⟨j, rfl⟩ : ∃ j, k = i + j := ⟨k - i, by omega⟩
    by_cases hj : j < n
    · exact overlay_none (by simp [hj])
    · exact overlay_of_ge (by simp; omega)

/-! ### Accesses -/

variable {O : Type} [DecidableEq O]

/-- `f` in place of the contents of `o`. -/
def Store.set (s : Store O) (o : O) (f : Nat → UInt8) : Store O :=
  { s with bytes := Function.update s.bytes o f }

def Store.log (s : Store O) (a : Access O) : Store O := { s with trace := a :: s.trace }

@[simp] theorem Store.set_bytes_self (s : Store O) (o : O) (f : Nat → UInt8) :
    (s.set o f).bytes o = f := by
  simp [Store.set]

@[simp] theorem Store.set_bytes_of_ne (s : Store O) {o o' : O} (h : o' ≠ o) (f : Nat → UInt8) :
    (s.set o f).bytes o' = s.bytes o' := by
  simp [Store.set, h]

@[simp] theorem Store.set_trace (s : Store O) (o : O) (f : Nat → UInt8) :
    (s.set o f).trace = s.trace := rfl

omit [DecidableEq O] in
@[simp] theorem Store.log_bytes (s : Store O) (a : Access O) : (s.log a).bytes = s.bytes := rfl

omit [DecidableEq O] in
@[simp] theorem Store.log_trace (s : Store O) (a : Access O) :
    (s.log a).trace = a :: s.trace := rfl

/-- Read `n` bytes of `o` from index `i`. -/
def readBytes (o : O) (i n : Nat) : Mem O (List UInt8) := fun s =>
  (bytesAt (s.bytes o) i n, s.log ⟨o, i, n, false⟩)

/-- Write a byte list to `o` from index `i`. -/
def writeBytes (o : O) (i : Nat) (l : List UInt8) : Mem O Unit := fun s =>
  ((), (s.set o (overlay (s.bytes o) i (l.map some))).log ⟨o, i, l.length, true⟩)

def readByte (o : O) (i : Nat) : Mem O UInt8 := fun s => (s.bytes o i, s.log ⟨o, i, 1, false⟩)

def writeByte (o : O) (i : Nat) (b : UInt8) : Mem O Unit := writeBytes o i [b]

/-- `ngx_memcpy(dst + i, src + j, n)`. -/
def ngxMemcpy (dst : O) (i : Nat) (src : O) (j n : Nat) : Mem O Unit := do
  writeBytes dst i (← readBytes src j n)

omit [DecidableEq O] in
@[simp] theorem readByte_run (o : O) (i : Nat) (s : Store O) :
    readByte o i s = (s.bytes o i, s.log ⟨o, i, 1, false⟩) := rfl

omit [DecidableEq O] in
@[simp] theorem readBytes_run (o : O) (i n : Nat) (s : Store O) :
    readBytes o i n s = (bytesAt (s.bytes o) i n, s.log ⟨o, i, n, false⟩) := rfl

@[simp] theorem writeBytes_run (o : O) (i : Nat) (l : List UInt8) (s : Store O) :
    writeBytes o i l s =
      ((), (s.set o (overlay (s.bytes o) i (l.map some))).log ⟨o, i, l.length, true⟩) := rfl

/-! ### Where a program may look and what it may depend on -/

section Runs

variable {R : Access O → Prop} {P P' : (O → Nat → UInt8) → Prop} {α β : Type}
  {Q Q' : α → (O → Nat → UInt8) → Prop} {Q₂ : β → (O → Nat → UInt8) → Prop}

/-- Started from contents that satisfy `P`, the program makes only accesses that satisfy `R` and ends
with a result and contents that satisfy `Q`. -/
def Runs (R : Access O → Prop) (P : (O → Nat → UInt8) → Prop) (m : Mem O α)
    (Q : α → (O → Nat → UInt8) → Prop) : Prop :=
  ∀ s, P s.bytes →
    (∃ t, (m s).2.trace = t ++ s.trace ∧ ∀ a ∈ t, R a) ∧ Q (m s).1 (m s).2.bytes

omit [DecidableEq O] in
theorem Runs.pure {a : α} (hQ : ∀ b, P b → Q a b) : Runs R P (Pure.pure a : Mem O α) Q :=
  fun _ hs => ⟨⟨[], by simp, by simp⟩, hQ _ hs⟩

omit [DecidableEq O] in
theorem Runs.bind {m : Mem O α} {f : α → Mem O β} (hm : Runs R P m Q)
    (hf : ∀ a, Runs R (Q a) (f a) Q₂) : Runs R P (m >>= f) Q₂ := by
  intro s hs
  obtain ⟨⟨t, ht, hR⟩, hQ⟩ := hm s hs
  obtain ⟨⟨t', ht', hR'⟩, hQ'⟩ := hf (m s).1 (m s).2 hQ
  refine ⟨⟨t' ++ t, by rw [Mem.bind_run, ht', ht, List.append_assoc], fun a ha => ?_⟩, hQ'⟩
  rcases List.mem_append.mp ha with h | h
  · exact hR' a h
  · exact hR a h

omit [DecidableEq O] in
theorem Runs.ite {c : Prop} [Decidable c] {m n : Mem O α} (hm : c → Runs R P m Q)
    (hn : ¬c → Runs R P n Q) : Runs R P (if c then m else n) Q := by
  by_cases h : c
  · rw [if_pos h]
    exact hm h
  · rw [if_neg h]
    exact hn h

omit [DecidableEq O] in
theorem Runs.assume {m : Mem O α} (h : (∃ b, P b) → Runs R P m Q) : Runs R P m Q :=
  fun s hs => h ⟨_, hs⟩ s hs

omit [DecidableEq O] in
theorem Runs.conseq {m : Mem O α} (hm : Runs R P m Q) (hP : ∀ b, P' b → P b)
    (hQ : ∀ a b, Q a b → Q' a b) : Runs R P' m Q' :=
  fun s hs => ⟨(hm s (hP _ hs)).1, hQ _ _ (hm s (hP _ hs)).2⟩

omit [DecidableEq O] in
/-- Accesses made once stay in the trace. -/
theorem Runs.mem_trace {m : Mem O α} (hm : Runs R P m Q) {s : Store O} (hs : P s.bytes)
    {a : Access O} (ha : a ∈ s.trace) : a ∈ (m s).2.trace := by
  obtain ⟨⟨t, ht, -⟩, -⟩ := hm s hs
  rw [ht]
  exact List.mem_append_right _ ha

omit [DecidableEq O] in
/-- The accesses of a run from an empty trace. -/
theorem Runs.trace_all {m : Mem O α} (hm : Runs R P m Q) {s : Store O} (hs : P s.bytes)
    (hempty : s.trace = []) : ∀ a ∈ (m s).2.trace, R a := by
  obtain ⟨⟨t, ht, hR⟩, -⟩ := hm s hs
  rw [ht, hempty, List.append_nil]
  exact hR

/-- Contents that agree below the sizes of the visible objects. -/
def Agree (size : O → Nat) (vis : O → Prop) (f g : O → Nat → UInt8) : Prop :=
  ∀ o i, vis o → i < size o → f o i = g o i

/-- The program stays inside its objects, and its result and the visible contents it leaves do not
depend on anything but the visible contents it starts from. -/
structure Confined (size : O → Nat) (vis : O → Prop) (P : (O → Nat → UInt8) → Prop) (m : Mem O α)
    (Q : α → (O → Nat → UInt8) → Prop) : Prop where
  runs : Runs (·.Within size) P m Q
  same : ∀ s t, P s.bytes → Agree size vis s.bytes t.bytes →
    (m s).1 = (m t).1 ∧ Agree size vis (m s).2.bytes (m t).2.bytes

variable {size : O → Nat} {vis : O → Prop}

omit [DecidableEq O] in
theorem Confined.pure {a : α} (hQ : ∀ b, P b → Q a b) :
    Confined size vis P (Pure.pure a : Mem O α) Q :=
  ⟨Runs.pure hQ, fun _ _ _ h => ⟨rfl, h⟩⟩

omit [DecidableEq O] in
theorem Confined.bind {m : Mem O α} {f : α → Mem O β} (hm : Confined size vis P m Q)
    (hf : ∀ a, Confined size vis (Q a) (f a) Q₂) : Confined size vis P (m >>= f) Q₂ := by
  refine ⟨hm.runs.bind fun a => (hf a).runs, fun s t hs h => ?_⟩
  obtain ⟨hval, hagree⟩ := hm.same s t hs h
  rw [Mem.bind_run, Mem.bind_run, ← hval]
  exact (hf _).same _ _ (hm.runs s hs).2 hagree

omit [DecidableEq O] in
theorem Confined.ite {c : Prop} [Decidable c] {m n : Mem O α} (hm : c → Confined size vis P m Q)
    (hn : ¬c → Confined size vis P n Q) : Confined size vis P (if c then m else n) Q := by
  by_cases h : c
  · rw [if_pos h]
    exact hm h
  · rw [if_neg h]
    exact hn h

omit [DecidableEq O] in
theorem Confined.conseq {m : Mem O α} (hm : Confined size vis P m Q) (hP : ∀ b, P' b → P b)
    (hQ : ∀ a b, Q a b → Q' a b) : Confined size vis P' m Q' :=
  ⟨fun s hs => ⟨(hm.runs s (hP _ hs)).1, hQ _ _ (hm.runs s (hP _ hs)).2⟩,
    fun s t hs h => hm.same s t (hP _ hs) h⟩

/-- A program that stays inside its objects whatever they contain. -/
def Stays (size : O → Nat) (vis : O → Prop) (m : Mem O α) : Prop :=
  Confined size vis (fun _ => True) m fun _ _ => True

omit [DecidableEq O] in
theorem Stays.confined {m : Mem O α} (hm : Stays size vis m)
    (hQ : ∀ s : Store O, P s.bytes → Q (m s).1 (m s).2.bytes) : Confined size vis P m Q :=
  ⟨fun s hs => ⟨(hm.runs s trivial).1, hQ s hs⟩, fun s t _ h => hm.same s t trivial h⟩

omit [DecidableEq O] in
theorem Stays.bind {m : Mem O α} {f : α → Mem O β} (hm : Stays size vis m)
    (hf : ∀ a, Stays size vis (f a)) : Stays size vis (m >>= f) :=
  Confined.bind hm hf

omit [DecidableEq O] in
/-- What follows a program that stays inside its objects, when nothing has to be known about what that
program computes. -/
theorem Stays.andThen {m : Mem O α} {f : α → Mem O β} (hm : Stays size vis m)
    (hf : ∀ a, Confined size vis (fun _ => True) (f a) Q₂) : Confined size vis P (m >>= f) Q₂ :=
  (Confined.bind hm hf).conseq (fun _ _ => trivial) fun _ _ h => h

omit [DecidableEq O] in
theorem Stays.andRuns {m : Mem O α} {f : α → Mem O β} (hm : Stays size vis m)
    (hf : ∀ a, Runs (·.Within size) (fun _ => True) (f a) Q₂) :
    Runs (·.Within size) P (m >>= f) Q₂ :=
  (Runs.bind (Confined.runs hm) hf).conseq (fun _ _ => trivial) fun _ _ h => h

omit [DecidableEq O] in
/-- A precondition may be assumed once, whatever the contents are. -/
theorem Confined.assume {m : Mem O α} (h : (∃ b, P b) → Confined size vis P m Q) :
    Confined size vis P m Q :=
  ⟨fun s hs => (h ⟨_, hs⟩).runs s hs, fun s t hs => (h ⟨_, hs⟩).same s t hs⟩

omit [DecidableEq O] in
theorem Confined.readByte {o : O} {i : Nat} {Q : UInt8 → (O → Nat → UInt8) → Prop}
    (hvis : vis o) (hi : i < size o) (hQ : ∀ b, P b → Q (b o i) b) :
    Confined size vis P (readByte o i) Q := by
  refine ⟨fun s hs => ⟨⟨[⟨o, i, 1, false⟩], rfl, ?_⟩, hQ _ hs⟩, fun s t _ h => ⟨h o i hvis hi, h⟩⟩
  intro a ha
  rw [List.mem_singleton.mp ha]
  exact Access.within_of_le hi

omit [DecidableEq O] in
theorem Confined.readBytes {o : O} {i n : Nat} {Q : List UInt8 → (O → Nat → UInt8) → Prop}
    (hvis : vis o) (hi : i + n ≤ size o) (hQ : ∀ b, P b → Q (bytesAt (b o) i n) b) :
    Confined size vis P (readBytes o i n) Q := by
  refine ⟨fun s hs => ⟨⟨[⟨o, i, n, false⟩], rfl, ?_⟩, hQ _ hs⟩, fun s t _ h => ⟨?_, h⟩⟩
  · intro a ha
    rw [List.mem_singleton.mp ha]
    exact Access.within_of_le hi
  · exact bytesAt_congr fun k _ hk => h o k hvis (by omega)

omit [DecidableEq O] in
/-- Reading outside the visible objects keeps the bounds. -/
theorem Runs.readBytes {o : O} {i n : Nat} {Q : List UInt8 → (O → Nat → UInt8) → Prop}
    (hi : i + n ≤ size o) (hQ : ∀ b, P b → Q (bytesAt (b o) i n) b) :
    Runs (·.Within size) P (readBytes o i n) Q := by
  refine fun s hs => ⟨⟨[⟨o, i, n, false⟩], rfl, ?_⟩, hQ _ hs⟩
  intro a ha
  rw [List.mem_singleton.mp ha]
  exact Access.within_of_le hi

theorem overlay_congr {f g : Nat → UInt8} {i k : Nat} {img : List (Option UInt8)} (h : f k = g k) :
    overlay f i img k = overlay g i img k := by
  simp only [overlay, h]

theorem Confined.writeBytes {o : O} {i : Nat} {l : List UInt8}
    {Q : Unit → (O → Nat → UInt8) → Prop} (hi : i + l.length ≤ size o)
    (hQ : ∀ b, P b → Q () (Function.update b o (overlay (b o) i (l.map some)))) :
    Confined size vis P (writeBytes o i l) Q := by
  refine ⟨fun s hs => ⟨⟨[⟨o, i, l.length, true⟩], rfl, ?_⟩, hQ _ hs⟩, fun s t _ h => ⟨rfl, ?_⟩⟩
  · intro a ha
    rw [List.mem_singleton.mp ha]
    exact Access.within_of_le hi
  · intro o' k hvis hk
    simp only [writeBytes_run, Store.log_bytes, Store.set]
    by_cases ho : o' = o
    · subst ho
      rw [Function.update_self, Function.update_self]
      exact overlay_congr (h o' k hvis hk)
    · rw [Function.update_of_ne ho, Function.update_of_ne ho]
      exact h o' k hvis hk

theorem Confined.writeByte {o : O} {i : Nat} {v : UInt8} {Q : Unit → (O → Nat → UInt8) → Prop}
    (hi : i < size o) (hQ : ∀ b, P b → Q () (Function.update b o (overlay (b o) i [some v]))) :
    Confined size vis P (writeByte o i v) Q :=
  Confined.writeBytes hi hQ

theorem Confined.ngxMemcpy {dst src : O} {i j n : Nat} {Q : Unit → (O → Nat → UInt8) → Prop}
    (hvis : vis src) (hr : j + n ≤ size src) (hw : i + n ≤ size dst)
    (hQ : ∀ b, P b →
      Q () (Function.update b dst (overlay (b dst) i ((bytesAt (b src) j n).map some)))) :
    Confined size vis P (ngxMemcpy dst i src j n) Q := by
  refine Confined.bind (Q := fun l b => P b ∧ l = bytesAt (b src) j n)
    (Confined.readBytes hvis hr fun b hb => ⟨hb, rfl⟩) fun l => Confined.assume ?_
  rintro ⟨-, -, rfl⟩
  refine Confined.writeBytes (by simpa using hw) ?_
  rintro b ⟨hb, hl⟩
  rw [hl]
  exact hQ b hb

omit [DecidableEq O] in
/-- What follows a program whose result is known. -/
theorem Stays.next {m : Mem O α} {a : α} (hm : Stays size vis m) (ha : ∀ s, (m s).1 = a)
    {f : α → Mem O β} (hf : Stays size vis (f a)) : Stays size vis (m >>= f) := by
  refine Confined.bind (hm.confined (Q := fun x _ => x = a) fun s _ => ha s) fun x => ?_
  refine Confined.assume fun ⟨_, hx⟩ => ?_
  rw [hx]
  exact hf.conseq (fun _ _ => trivial) fun _ _ h => h

omit [DecidableEq O] in
/-- What follows a program whose result the precondition determines, and that leaves the precondition
as it is. -/
theorem Stays.known {m : Mem O α} {a : α} {f : α → Mem O β} (hm : Stays size vis m)
    (hknown : ∀ s : Store O, P s.bytes → (m s).1 = a ∧ P (m s).2.bytes)
    (hf : Confined size vis P (f a) Q₂) : Confined size vis P (m >>= f) Q₂ := by
  refine Confined.bind (hm.confined (Q := fun x b => x = a ∧ P b) hknown) fun x => ?_
  refine Confined.assume fun ⟨_, hx, _⟩ => ?_
  rw [hx]
  exact hf.conseq (fun _ h => h.2) fun _ _ h => h

omit [DecidableEq O] in
/-- What follows a program that leaves a precondition as it is. -/
theorem Stays.keeping {m : Mem O α} {f : α → Mem O β} (hm : Stays size vis m)
    (hkeep : ∀ s : Store O, P s.bytes → P (m s).2.bytes)
    (hf : ∀ a, Confined size vis P (f a) Q₂) : Confined size vis P (m >>= f) Q₂ :=
  Confined.bind (hm.confined (Q := fun _ b => P b) hkeep) hf

omit [DecidableEq O] in
theorem stays_readByte {o : O} {i : Nat} (hvis : vis o) (hi : i < size o) :
    Stays size vis (Memory.readByte o i) :=
  Confined.readByte hvis hi fun _ _ => trivial

omit [DecidableEq O] in
theorem stays_readBytes {o : O} {i n : Nat} (hvis : vis o) (hi : i + n ≤ size o) :
    Stays size vis (Memory.readBytes o i n) :=
  Confined.readBytes hvis hi fun _ _ => trivial

theorem stays_writeByte {o : O} {i : Nat} {v : UInt8} (hi : i < size o) :
    Stays size vis (Memory.writeByte o i v) :=
  Confined.writeByte hi fun _ _ => trivial

theorem stays_ngxMemcpy {dst src : O} {i j n : Nat} (hvis : vis src) (hr : j + n ≤ size src)
    (hw : i + n ≤ size dst) : Stays size vis (Memory.ngxMemcpy dst i src j n) :=
  Confined.ngxMemcpy hvis hr hw fun _ _ => trivial

end Runs

/-! ### What a program leaves alone -/

/-- The program does not change the object `o`. -/
def Frames {α : Type} (o : O) (m : Mem O α) : Prop := ∀ s, (m s).2.bytes o = s.bytes o

section Frames

variable {o : O} {α β : Type}

omit [DecidableEq O] in
theorem Frames.pure (a : α) : Frames o (Pure.pure a : Mem O α) := fun _ => rfl

omit [DecidableEq O] in
theorem Frames.bind {m : Mem O α} {f : α → Mem O β} (hm : Frames o m) (hf : ∀ a, Frames o (f a)) :
    Frames o (m >>= f) :=
  fun s => (hf (m s).1 (m s).2).trans (hm s)

omit [DecidableEq O] in
theorem Frames.ite {c : Prop} [Decidable c] {m n : Mem O α} (hm : Frames o m) (hn : Frames o n) :
    Frames o (if c then m else n) := by
  by_cases h : c
  · rw [if_pos h]
    exact hm
  · rw [if_neg h]
    exact hn

theorem Frames.writeByte {dst : O} (h : o ≠ dst) (i : Nat) (v : UInt8) :
    Frames o (writeByte dst i v) := by
  intro s
  rw [Memory.writeByte, writeBytes_run, Store.log_bytes, Store.set_bytes_of_ne _ h]

theorem Frames.ngxMemcpy {dst src : O} (h : o ≠ dst) (i j n : Nat) :
    Frames o (ngxMemcpy dst i src j n) := by
  intro s
  rw [Memory.ngxMemcpy, Mem.bind_run, writeBytes_run, Store.log_bytes, Store.set_bytes_of_ne _ h]
  rfl

end Frames

/-! ### What a program lays down -/

/-- Run from `s`, the program returns `a`, lays the image `img` over `o` from index `i` on, and
leaves every other object as it is. -/
def Emits (s : Store O) (o : O) (i : Nat) (img : List (Option UInt8)) {α : Type} (m : Mem O α)
    (a : α) : Prop :=
  (m s).1 = a ∧ (m s).2.bytes = Function.update s.bytes o (overlay (s.bytes o) i img)

section Emits

variable {s : Store O} {o : O} {i : Nat} {img img' : List (Option UInt8)} {α β : Type}

theorem Emits.pure (a : α) : Emits s o i [] (Pure.pure a : Mem O α) a :=
  ⟨rfl, by simp⟩

/-- Programs that lay down neighbouring images lay down their concatenation. -/
theorem Emits.bind {m : Mem O α} {f : α → Mem O β} {a : α} {b : β} (hm : Emits s o i img m a)
    (hf : Emits (m s).2 o (i + img.length) img' (f a) b) :
    Emits s o i (img ++ img') (m >>= f) b := by
  obtain ⟨hret, hbytes⟩ := hm
  obtain ⟨hret', hbytes'⟩ := hf
  refine ⟨by rw [Mem.bind_run, hret, hret'], ?_⟩
  rw [Mem.bind_run, hret, hbytes', hbytes, ← overlay_append]
  simp

theorem Emits.writeBytes (l : List UInt8) : Emits s o i (l.map some) (writeBytes o i l) () :=
  ⟨rfl, rfl⟩

/-- An image laid down from its last byte to its first. -/
theorem Emits.writeByte_before {m : Mem O Unit} {b : UInt8} (hm : Emits s o (i + 1) img m ()) :
    Emits s o i (some b :: img) (m >>= fun _ => writeByte o i b) () := by
  obtain ⟨-, hbytes⟩ := hm
  refine ⟨rfl, ?_⟩
  rw [Mem.bind_run, writeByte, writeBytes_run]
  simp only [Store.log_bytes, Store.set, hbytes, Function.update_self, Function.update_idem]
  congr 1
  funext k
  by_cases hk : i = k
  · subst hk
    simp [overlay]
  · by_cases hlt : k < i
    · rw [overlay_of_lt hlt, overlay_of_lt (by omega), overlay_of_lt hlt]
    · obtain ⟨j, rfl⟩ : ∃ j, k = i + 1 + j := ⟨k - (i + 1), by omega⟩
      rw [overlay_of_ge (by simp)]
      simp [overlay, show i ≤ i + 1 + j by omega, show i + 1 + j - i = j + 1 by omega]

/-- Skipped bytes behind an image belong to it. -/
theorem Emits.pad {m : Mem O α} {a : α} (hm : Emits s o i img m a) (n : Nat) :
    Emits s o i (img ++ List.replicate n none) m a := by
  refine ⟨hm.1, ?_⟩
  rw [hm.2, ← overlay_append, overlay_replicate_none]

end Emits

/-! ### Reading an image back -/

/-- The contents `f` agree with the image `img` from index `i` on, where the image has a byte. -/
def Holds (f : Nat → UInt8) (i : Nat) (img : List (Option UInt8)) : Prop :=
  ∀ j b, img[j]? = some (some b) → f (i + j) = b

theorem holds_overlay (f : Nat → UInt8) (i : Nat) (img : List (Option UInt8)) :
    Holds (overlay f i img) i img :=
  fun _ _ h => overlay_some h

theorem Holds.congr {f g : Nat → UInt8} {i : Nat} {img : List (Option UInt8)} (h : Holds f i img)
    (hfg : ∀ k, i ≤ k → k < i + img.length → g k = f k) : Holds g i img := by
  intro j b hj
  have hlt : j < img.length := (List.getElem?_eq_some_iff.mp hj).1
  rw [hfg (i + j) (by omega) (by omega)]
  exact h j b hj

theorem holds_append {f : Nat → UInt8} {i : Nat} {a b : List (Option UInt8)} :
    Holds f i (a ++ b) ↔ Holds f i a ∧ Holds f (i + a.length) b := by
  constructor
  · intro h
    constructor
    · intro j x hj
      have hlt : j < a.length := (List.getElem?_eq_some_iff.mp hj).1
      exact h j x (by rw [List.getElem?_append_left hlt, hj])
    · intro j x hj
      rw [Nat.add_assoc]
      exact h (a.length + j) x (by rw [List.getElem?_append_right (by omega)]; simpa using hj)
  · rintro ⟨ha, hb⟩ j x hj
    by_cases hlt : j < a.length
    · exact ha j x (by rwa [List.getElem?_append_left hlt] at hj)
    · rw [List.getElem?_append_right (by omega)] at hj
      have := hb (j - a.length) x hj
      rwa [Nat.add_assoc, Nat.add_sub_cancel' (by omega)] at this

theorem holds_map_some {f : Nat → UInt8} {i : Nat} {l : List UInt8} (h : Holds f i (l.map some)) :
    bytesAt f i l.length = l := by
  apply List.ext_getElem?
  intro k
  by_cases hk : k < l.length
  · rw [bytesAt_getElem? _ _ hk, List.getElem?_eq_getElem hk]
    exact congrArg some (h k _ (by simp [hk]))
  · rw [List.getElem?_eq_none (by simp; omega), List.getElem?_eq_none (by omega)]

end NginxDtls.Memory
