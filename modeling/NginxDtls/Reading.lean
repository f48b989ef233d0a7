import Mathlib.Data.List.Basic
import Mathlib.Data.List.GetD

/-! Programs that read a byte string through indices. A program gives its result and the indices that it read; whether
it stays inside a string can be told step by step. -/

namespace NginxDtls.Reading

/-- A program that reads bytes: on any contents its result, and the indices that it reads. -/
def Read (α : Type) : Type := (ℕ → UInt8) → α × List ℕ

variable {α β : Type}

/-- The result on the contents. -/
def Read.val (m : Read α) (b : ℕ → UInt8) : α := (m b).1

/-- The indices that are read, in order. -/
def Read.reads (m : Read α) (b : ℕ → UInt8) : List ℕ := (m b).2

/-- Every index that is read is below `n`. -/
def Read.Inside (m : Read α) (n : ℕ) (b : ℕ → UInt8) : Prop := ∀ i ∈ (m b).2, i < n

instance : Monad Read where
  pure a := fun _ => (a, [])
  bind m f := fun b => ((f (m b).1 b).1, (m b).2 ++ (f (m b).1 b).2)

/-- The byte at an index. -/
def byteAt (i : ℕ) : Read UInt8 := fun b => (b i, [i])

/-- The number at an index. -/
def rd (i : ℕ) : Read ℕ := fun b => ((b i).toNat, [i])

/-- Bytes from an index on. -/
def bytesFrom (i n : ℕ) : Read (List UInt8) := fun b => ((List.range' i n).map b, List.range' i n)

section Rules

variable {n : ℕ} {b : ℕ → UInt8}

@[simp] theorem val_pure (a : α) : (pure a : Read α).val b = a := rfl

@[simp] theorem val_bind (m : Read α) (f : α → Read β) : (m >>= f).val b = (f (m.val b)).val b := rfl

@[simp] theorem val_byteAt (i : ℕ) : (byteAt i).val b = b i := rfl

@[simp] theorem val_rd (i : ℕ) : (rd i).val b = (b i).toNat := rfl

@[simp] theorem val_bytesFrom (i k : ℕ) : (bytesFrom i k).val b = (List.range' i k).map b := rfl

@[simp] theorem val_ite (c : Prop) [Decidable c] (m m' : Read α) :
    (if c then m else m').val b = if c then m.val b else m'.val b := by
  split <;> rfl

@[simp] theorem reads_pure (a : α) : (pure a : Read α).reads b = [] := rfl

@[simp] theorem reads_rd_bind (i : ℕ) (f : ℕ → Read β) : (rd i >>= f).reads b = i :: (f (b i).toNat).reads b := rfl

@[simp] theorem reads_bytesFrom_bind (i k : ℕ) (f : List UInt8 → Read β) :
    (bytesFrom i k >>= f).reads b = List.range' i k ++ (f ((List.range' i k).map b)).reads b := rfl

@[simp] theorem reads_ite (c : Prop) [Decidable c] (m m' : Read α) :
    (if c then m else m').reads b = if c then m.reads b else m'.reads b := by
  split <;> rfl

@[simp] theorem inside_pure (a : α) : (pure a : Read α).Inside n b := fun _ hi => absurd hi List.not_mem_nil

/-- A program stays inside if its steps do. -/
theorem inside_bind (m : Read α) (f : α → Read β) :
    (m >>= f).Inside n b ↔ m.Inside n b ∧ (f (m.val b)).Inside n b := by
  constructor
  · intro h
    exact ⟨fun i hi => h i (List.mem_append_left _ hi), fun i hi => h i (List.mem_append_right _ hi)⟩
  · rintro ⟨hm, hf⟩ i hi
    rcases List.mem_append.mp hi with hi | hi
    · exact hm i hi
    · exact hf i hi

theorem inside_ite (c : Prop) [Decidable c] (m m' : Read α) :
    (if c then m else m').Inside n b ↔ (c → m.Inside n b) ∧ (¬c → m'.Inside n b) := by
  split
  case isTrue h => exact ⟨fun hm => ⟨fun _ => hm, fun hn => absurd h hn⟩, fun hm => hm.1 h⟩
  case isFalse h => exact ⟨fun hm => ⟨fun hc => absurd hc h, fun _ => hm⟩, fun hm => hm.2 h⟩

@[simp] theorem inside_byteAt (i : ℕ) : (byteAt i).Inside n b ↔ i < n :=
  ⟨fun h => h i List.mem_cons_self, fun h j hj => by rwa [List.mem_singleton.mp hj]⟩

@[simp] theorem inside_rd (i : ℕ) : (rd i).Inside n b ↔ i < n :=
  ⟨fun h => h i List.mem_cons_self, fun h j hj => by rwa [List.mem_singleton.mp hj]⟩

@[simp] theorem val_rd_bind (i : ℕ) (f : ℕ → Read β) : (rd i >>= f).val b = (f (b i).toNat).val b := rfl

@[simp] theorem val_byteAt_bind (i : ℕ) (f : UInt8 → Read β) : (byteAt i >>= f).val b = (f (b i)).val b := rfl

@[simp] theorem val_bytesFrom_bind (i k : ℕ) (f : List UInt8 → Read β) :
    (bytesFrom i k >>= f).val b = (f ((List.range' i k).map b)).val b := rfl

theorem inside_rd_bind (i : ℕ) (f : ℕ → Read β) :
    (rd i >>= f).Inside n b ↔ i < n ∧ (f (b i).toNat).Inside n b := by
  rw [inside_bind, inside_rd]
  rfl

theorem inside_byteAt_bind (i : ℕ) (f : UInt8 → Read β) :
    (byteAt i >>= f).Inside n b ↔ i < n ∧ (f (b i)).Inside n b := by
  rw [inside_bind, inside_byteAt]
  rfl

theorem inside_bytesFrom_bind (i k : ℕ) (f : List UInt8 → Read β) :
    (bytesFrom i k >>= f).Inside n b ↔ (bytesFrom i k).Inside n b ∧ (f ((List.range' i k).map b)).Inside n b :=
  inside_bind _ f

theorem inside_bytesFrom {i k : ℕ} (h : i + k ≤ n) : (bytesFrom i k).Inside n b := by
  intro j hj
  have hlt := (List.mem_range'_1.mp hj).2
  omega

end Rules

/-! ### Programs that may fail -/

/-- A program, and what follows if it has a result. -/
def andThen (m : Read (Option α)) (f : α → Read (Option β)) : Read (Option β) := do
  match ← m with
  | none => pure none
  | some a => f a

theorem val_andThen (m : Read (Option α)) (f : α → Read (Option β)) (b : ℕ → UInt8) :
    (andThen m f).val b = (m.val b).bind fun a => (f a).val b := by
  rw [andThen, val_bind]
  cases m.val b with
  | none => rfl
  | some a => rfl

theorem inside_andThen (m : Read (Option α)) (f : α → Read (Option β)) {n : ℕ} {b : ℕ → UInt8} :
    (andThen m f).Inside n b ↔ m.Inside n b ∧ ∀ a, m.val b = some a → (f a).Inside n b := by
  rw [andThen, inside_bind]
  refine and_congr_right fun _ => ?_
  cases m.val b with
  | none => exact iff_of_true (inside_pure _) fun a h => absurd h (Option.some_ne_none a).symm
  | some a => exact ⟨fun h a' ha' => Option.some.inj ha' ▸ h, fun h => h a rfl⟩

/-- A program on the bytes up to an end, which starts at `p` and tells where it has stopped, does not depend on what
stands behind. -/
def SelfDelimited (p : ℕ) (m : ℕ → Read (Option (ℕ × α))) : Prop :=
  ∀ last b p' a, p ≤ last → (m last).val b = some (p', a) → p ≤ p' ∧ p' ≤ last ∧
    ∀ last' b', p' ≤ last' → (∀ i < p', b' i = b i) → (m last').val b' = some (p', a)

section SelfDelimited

variable {p : ℕ}

theorem SelfDelimited.result (p : ℕ) (a : α) : SelfDelimited p fun _ => pure (some (p, a)) := by
  intro last b p' a' hp h
  obtain ⟨rfl, rfl⟩ := Prod.mk.inj (Option.some.inj h)
  exact ⟨Nat.le_refl _, hp, fun _ _ _ _ => rfl⟩

/-- One program behind another. -/
theorem SelfDelimited.andThen {m : ℕ → Read (Option (ℕ × α))} {f : ℕ → ℕ × α → Read (Option (ℕ × β))}
    (hm : SelfDelimited p m) (hf : ∀ p' a, SelfDelimited p' fun last => f last (p', a)) :
    SelfDelimited p fun last => Reading.andThen (m last) (f last) := by
  intro last b p₂ c hp h
  rw [val_andThen] at h
  obtain ⟨⟨p₁, a⟩, hfirst, h⟩ := Option.bind_eq_some_iff.mp h
  obtain ⟨hle, hlast, hsame⟩ := hm last b p₁ a hp hfirst
  obtain ⟨hle', hlast', hsame'⟩ := hf p₁ a last b p₂ c hlast h
  refine ⟨Nat.le_trans hle hle', hlast', fun last' b' hend hagree => ?_⟩
  rw [val_andThen, hsame last' b' (Nat.le_trans hle' hend) fun i hi => hagree i (Nat.lt_of_lt_of_le hi hle'), Option.bind_some]
  exact hsame' last' b' hend hagree

end SelfDelimited

/-! ### Contents -/

/-- The contents have the bytes of a list from an index on. -/
def Holds (b : ℕ → UInt8) (p : ℕ) (l : List UInt8) : Prop := (List.range' p l.length).map b = l

section Contents

variable {b : ℕ → UInt8} {p : ℕ}

@[simp] theorem holds_nil : Holds b p [] := rfl

theorem holds_cons {c : UInt8} {l : List UInt8} : Holds b p (c :: l) ↔ b p = c ∧ Holds b (p + 1) l := by
  simp only [Holds, List.length_cons, List.range'_succ, List.map_cons, List.cons.injEq]

theorem holds_append {l l' : List UInt8} : Holds b p (l ++ l') ↔ Holds b p l ∧ Holds b (p + l.length) l' := by
  induction l generalizing p with
  | nil => simp
  | cons c l ih =>
    rw [List.cons_append, holds_cons, holds_cons, ih, and_assoc, List.length_cons, Nat.add_right_comm, Nat.add_assoc]

theorem holds_getD (pre l post : List UInt8) : Holds (fun i => (pre ++ l ++ post).getD i 0) pre.length l := by
  apply List.ext_getElem
  · simp
  · intro j hj hl
    simp only [List.getElem_map, List.getElem_range', Nat.one_mul, List.append_assoc]
    rw [List.getD_append_right _ _ _ _ (Nat.le_add_right _ _), Nat.add_sub_cancel_left, List.getD_append _ _ _ _ hl,
      List.getD_eq_getElem _ _ hl]

end Contents

end NginxDtls.Reading
