/-
SecuritySystem/Lib/Words.lean

Machine words in memory, byte by byte.

`leBytes k n` are the `k` bytes of the number `n`, lowest first, and `ofLe` is
the number read back; a word in network byte order is read by `ofBe`.
`readAt` reads a few bytes at an offset of an object of known size.
-/
import SecuritySystem.Lib.CMemory
import Mathlib.Data.List.GetD

namespace CMem

/-! ### Byte order -/

/-- The `k` lowest bytes of `n`, lowest first. -/
def leBytes : ℕ → ℕ → List UInt8
  | 0, _ => []
  | k + 1, n => UInt8.ofNat n :: leBytes k (n / 256)

/-- The number whose bytes are given, lowest first. -/
def ofLe : List UInt8 → ℕ
  | [] => 0
  | b :: bs => b.toNat + 256 * ofLe bs

/-- The number whose bytes are given, highest first. -/
def ofBe (bs : List UInt8) : ℕ := ofLe bs.reverse

@[simp] theorem length_leBytes (k n : ℕ) : (leBytes k n).length = k := by
  induction k generalizing n with
  | zero => rfl
  | succ k ih => rw [leBytes, List.length_cons, ih]

/-- The `j`-th of these bytes. -/
theorem getD_leBytes {k n j : ℕ} (h : j < k) :
    (leBytes k n).getD j 0 = UInt8.ofNat (n / 2 ^ (8 * j)) := by
  induction j generalizing k n with
  | zero =>
    obtain ⟨k, rfl⟩ := Nat.exists_eq_succ_of_ne_zero h.ne'
    rw [Nat.mul_zero, Nat.pow_zero, Nat.div_one]
    rfl
  | succ j ih =>
    obtain ⟨k, rfl⟩ := Nat.exists_eq_succ_of_ne_zero (Nat.ne_zero_of_lt h)
    rw [leBytes, List.getD_cons_succ, ih (Nat.lt_of_succ_lt_succ h), Nat.div_div_eq_div_mul,
      Nat.mul_succ, Nat.add_comm, Nat.pow_add]

theorem ofLe_leBytes {k n : ℕ} (h : n < 256 ^ k) : ofLe (leBytes k n) = n := by
  induction k generalizing n with
  | zero =>
    have hn : n = 0 := Nat.lt_one_iff.mp h
    rw [hn]
    rfl
  | succ k ih =>
    have hk : n / 256 < 256 ^ k := Nat.div_lt_of_lt_mul (by rwa [pow_succ'] at h)
    rw [leBytes, ofLe, ih hk, UInt8.toNat_ofNat']
    exact Nat.mod_add_div n 256

theorem ofLe_lt (bs : List UInt8) : ofLe bs < 256 ^ bs.length := by
  induction bs with
  | nil => exact Nat.one_pos
  | cons b bs ih =>
    have hb := b.toNat_lt
    rw [ofLe, List.length_cons, pow_succ']
    omega

theorem leBytes_ofLe (bs : List UInt8) : leBytes bs.length (ofLe bs) = bs := by
  induction bs with
  | nil => rfl
  | cons b bs ih =>
    have hrest : (b.toNat + 256 * ofLe bs) / 256 = ofLe bs := by
      rw [Nat.add_mul_div_left _ _ (by decide), Nat.div_eq_of_lt b.toNat_lt, Nat.zero_add]
    have hlow : UInt8.ofNat (b.toNat + 256 * ofLe bs) = b := by
      apply UInt8.toNat.inj
      rw [UInt8.toNat_ofNat', Nat.add_mul_mod_self_left, Nat.mod_eq_of_lt b.toNat_lt]
    rw [ofLe, List.length_cons, leBytes, hrest, hlow, ih]

/-! ### Reading at an offset -/

/-- The `n` bytes at offset `i` of the object `mem`. -/
def readAt (mem : List UInt8) (i n : ℕ) : Except Fault (List UInt8) :=
  if i + n ≤ mem.length then .ok ((mem.drop i).take n) else .error .outOfBounds

theorem readAt_append (before x behind : List UInt8) :
    readAt (before ++ (x ++ behind)) before.length x.length = .ok x := by
  rw [readAt, if_pos (by simp), List.drop_left, List.take_left]

/-- The byte at offset `i`. -/
def load (mem : List UInt8) (i : ℕ) : Except Fault UInt8 :=
  if h : i < mem.length then .ok mem[i] else .error .outOfBounds

theorem readAt_of_le {mem : List UInt8} {i n : ℕ} (h : i + n ≤ mem.length) :
    readAt mem i n = .ok ((mem.drop i).take n) := if_pos h

theorem readAt_of_lt {mem : List UInt8} {i n : ℕ} (h : mem.length < i + n) :
    readAt mem i n = .error .outOfBounds := if_neg (Nat.not_le.mpr h)

theorem readAt_zero {mem : List UInt8} {i : ℕ} (h : i ≤ mem.length) : readAt mem i 0 = .ok [] := by
  rw [readAt_of_le h, List.take_zero]

theorem load_of_le {mem : List UInt8} {i : ℕ} (h : mem.length ≤ i) :
    load mem i = .error .outOfBounds := dif_neg (Nat.not_lt.mpr h)

/-- Reading byte by byte. -/
theorem readAt_succ {mem : List UInt8} {i : ℕ} (h : i < mem.length) (n : ℕ) :
    readAt mem i (n + 1) = (readAt mem (i + 1) n).map (mem[i] :: ·) := by
  by_cases hn : i + 1 + n ≤ mem.length
  · rw [readAt_of_le (by omega), readAt_of_le hn, List.drop_eq_getElem_cons h, List.take_succ_cons]
    rfl
  · rw [readAt_of_lt (by omega), readAt_of_lt (by omega)]
    rfl

/-- Reading in two pieces. -/
theorem readAt_add (mem : List UInt8) (i m n : ℕ) :
    readAt mem i (m + n) = do
      let x ← readAt mem i m
      let y ← readAt mem (i + m) n
      return x ++ y := by
  by_cases hm : i + m ≤ mem.length
  · rw [readAt_of_le hm]
    by_cases hn : i + m + n ≤ mem.length
    · rw [readAt_of_le (by omega), readAt_of_le hn, List.take_add, List.drop_drop]
      rfl
    · rw [readAt_of_lt (by omega), readAt_of_lt (by omega)]
      rfl
  · rw [readAt_of_lt (by omega), readAt_of_lt (by omega)]
    rfl

/-! ### Reads that end without a fault -/

theorem readAt_eq_ok {mem x : List UInt8} {i n : ℕ} (h : readAt mem i n = .ok x) :
    x = (mem.drop i).take n := by
  by_cases hn : i + n ≤ mem.length
  · rw [readAt_of_le hn] at h
    exact (Except.ok.inj h).symm
  · rw [readAt_of_lt (Nat.not_le.mp hn)] at h
    cases h

theorem load_eq_ok {mem : List UInt8} {i : ℕ} {b : UInt8} (h : load mem i = .ok b) :
    b = mem.getD i 0 := by
  by_cases hi : i < mem.length
  · rw [load, dif_pos hi] at h
    rw [List.getD_eq_getElem mem 0 hi]
    exact (Except.ok.inj h).symm
  · rw [load_of_le (Nat.not_lt.mp hi)] at h
    cases h

theorem completes_readAt_iff {mem : List UInt8} {i n : ℕ} :
    Completes (readAt mem i n) ↔ i + n ≤ mem.length := by
  by_cases h : i + n ≤ mem.length
  · exact iff_of_true ⟨_, readAt_of_le h⟩ h
  · refine iff_of_false ?_ h
    rw [readAt_of_lt (Nat.not_le.mp h)]
    exact fun ⟨_, h⟩ => nomatch h

/-- A read in front of the rest. -/
theorem completes_readAt_bind_iff {α : Type} {mem : List UInt8} {i n : ℕ}
    {f : List UInt8 → Except Fault α} :
    Completes (readAt mem i n >>= f) ↔
      i + n ≤ mem.length ∧ Completes (f ((mem.drop i).take n)) := by
  by_cases h : i + n ≤ mem.length
  · rw [readAt_of_le h, and_iff_right h]
    rfl
  · rw [readAt_of_lt (Nat.not_le.mp h)]
    exact iff_of_false (fun ⟨_, h⟩ => nomatch h) fun hi => h hi.1

theorem completes_load_bind_iff {α : Type} {mem : List UInt8} {i : ℕ}
    {f : UInt8 → Except Fault α} :
    Completes (load mem i >>= f) ↔ i < mem.length ∧ Completes (f (mem.getD i 0)) := by
  by_cases h : i < mem.length
  · rw [load, dif_pos h, and_iff_right h, List.getD_eq_getElem mem 0 h]
    rfl
  · rw [load_of_le (Nat.not_lt.mp h)]
    exact iff_of_false (fun ⟨_, h⟩ => nomatch h) fun hi => h hi.1

theorem length_of_readAt {mem x : List UInt8} {i n : ℕ} (h : readAt mem i n = .ok x) :
    x.length = n := by
  by_cases hn : i + n ≤ mem.length
  · rw [readAt_of_le hn] at h
    cases h
    rw [List.length_take, List.length_drop]
    omega
  · rw [readAt_of_lt (Nat.not_le.mp hn)] at h
    cases h

end CMem
