/-
SecuritySystem/Lib/SharedCounter.lean

A counter that several threads increment without a lock.

`counter++` is a load and a store.  Between the two, other threads may load and
store as well, and what they have stored in the meantime is then overwritten.
So the counter is never ahead of the number of stores, whatever the schedule
(`Bounded`), and it is that number as long as no other thread has a value
loaded at a store (`Exact`).  The value is that of a machine word, and wraps
around.
-/
import Mathlib.Logic.Function.Basic
import Mathlib.Order.Basic

namespace SharedCounter

/-- The counter, and for each thread the value that it has loaded. -/
structure Cell (w : ℕ) (ι : Type*) where
  value : BitVec w
  loaded : ι → Option (BitVec w)

variable {w n : ℕ} {ι : Type*} [DecidableEq ι] {c c' : Cell w ι} {i j : ι} {v : BitVec w}

namespace Cell

/-- A thread loads the counter. -/
def load (c : Cell w ι) (i : ι) : Cell w ι :=
  { c with loaded := Function.update c.loaded i (some c.value) }

/-- It stores the value that it has loaded, and one more. -/
def store (c : Cell w ι) (i : ι) (v : BitVec w) : Cell w ι :=
  ⟨v + 1, Function.update c.loaded i none⟩

@[simp] theorem load_self (c : Cell w ι) (i : ι) : (c.load i).loaded i = some c.value :=
  Function.update_self ..

@[simp] theorem store_self (c : Cell w ι) (i : ι) (v : BitVec w) : (c.store i v).loaded i = none :=
  Function.update_self ..

theorem load_of_ne (c : Cell w ι) (hj : j ≠ i) : (c.load i).loaded j = c.loaded j :=
  Function.update_of_ne hj ..

theorem store_of_ne (c : Cell w ι) (v : BitVec w) (hj : j ≠ i) :
    (c.store i v).loaded j = c.loaded j :=
  Function.update_of_ne hj ..

end Cell

theorem ofNat_succ (w n : ℕ) : BitVec.ofNat w n + 1 = BitVec.ofNat w (n + 1) :=
  (BitVec.ofNat_add n 1).symm

/-! ### Any schedule -/

/-- The counter, and what the threads have loaded, are at most `n`. -/
structure Bounded (n : ℕ) (c : Cell w ι) : Prop where
  value : ∃ k ≤ n, c.value = .ofNat w k
  loaded : ∀ i v, c.loaded i = some v → ∃ k ≤ n, v = .ofNat w k

omit [DecidableEq ι] in
theorem bounded_zero (h : ∀ i, c.loaded i = none) (hvalue : c.value = 0) : Bounded 0 c where
  value := ⟨0, Nat.le_refl 0, hvalue⟩
  loaded i v hv := by
    rw [h i] at hv
    cases hv

omit [DecidableEq ι] in
/-- What a thread has loaded may be forgotten. -/
theorem Bounded.keep (h : Bounded n c) (hvalue : c'.value = c.value)
    (hloaded : ∀ i v, c'.loaded i = some v → c.loaded i = some v) : Bounded n c' where
  value := hvalue ▸ h.value
  loaded i v hv := h.loaded i v (hloaded i v hv)

theorem Bounded.load (h : Bounded n c) (i : ι) : Bounded n (c.load i) where
  value := h.value
  loaded j v hv := by
    by_cases hj : j = i
    · subst hj
      rw [Cell.load_self] at hv
      exact Option.some.inj hv ▸ h.value
    · rw [Cell.load_of_ne c hj] at hv
      exact h.loaded j v hv

theorem Bounded.store (h : Bounded n c) (hv : c.loaded i = some v) :
    Bounded (n + 1) (c.store i v) where
  value := by
    obtain ⟨k, hk, rfl⟩ := h.loaded i v hv
    exact ⟨k + 1, Nat.succ_le_succ hk, ofNat_succ w k⟩
  loaded j u hu := by
    have hne : j ≠ i := by
      rintro rfl
      rw [Cell.store_self] at hu
      cases hu
    rw [Cell.store_of_ne c v hne] at hu
    obtain ⟨k, hk, rfl⟩ := h.loaded j u hu
    exact ⟨k, Nat.le_succ_of_le hk, rfl⟩

/-! ### One thread at a time -/

/-- The counter is `n`, and nobody has loaded anything else. -/
structure Exact (n : ℕ) (c : Cell w ι) : Prop where
  value : c.value = .ofNat w n
  loaded : ∀ i v, c.loaded i = some v → v = c.value

omit [DecidableEq ι] in
theorem exact_zero (h : ∀ i, c.loaded i = none) (hvalue : c.value = 0) : Exact 0 c where
  value := hvalue
  loaded i v hv := by
    rw [h i] at hv
    cases hv

omit [DecidableEq ι] in
theorem Exact.keep (h : Exact n c) (hvalue : c'.value = c.value)
    (hloaded : ∀ i v, c'.loaded i = some v → c.loaded i = some v) : Exact n c' where
  value := hvalue.trans h.value
  loaded i v hv := (h.loaded i v (hloaded i v hv)).trans hvalue.symm

theorem Exact.load (h : Exact n c) (i : ι) : Exact n (c.load i) where
  value := h.value
  loaded j v hv := by
    by_cases hj : j = i
    · subst hj
      rw [Cell.load_self] at hv
      exact (Option.some.inj hv).symm
    · rw [Cell.load_of_ne c hj] at hv
      exact h.loaded j v hv

/-- With no other value loaded, a store counts. -/
theorem Exact.store (h : Exact n c) (hv : c.loaded i = some v)
    (halone : ∀ j, j ≠ i → c.loaded j = none) : Exact (n + 1) (c.store i v) where
  value := by
    show v + 1 = _
    rw [h.loaded i v hv, h.value, ofNat_succ]
  loaded j u hu := by
    have hne : j ≠ i := by
      rintro rfl
      rw [Cell.store_self] at hu
      cases hu
    rw [Cell.store_of_ne c v hne, halone j hne] at hu
    cases hu

end SharedCounter
