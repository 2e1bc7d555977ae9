/-
SecuritySystem/Lib/CMemory.lean

What C programs do with memory and strings, as far as it is visible in their
results.

A C string is the list of bytes before its terminating NUL, so it cannot hold
a NUL itself; `CString` carries that as a field.  A program that only has a
pointer reads whatever lies there up to the first NUL: `CString.ofMem`.  The
string functions of the C library follow on `CString`.

An access that C leaves undefined ends a run with a `Fault`; programs that may
fault are computations in `Except Fault`.
-/
import Mathlib.Data.List.Infix
import Mathlib.Data.List.TakeWhile
import Mathlib.Data.Nat.Digits.Lemmas

namespace CMem

/-- Accesses whose behaviour C leaves undefined. -/
inductive Fault
  /-- an array is indexed outside its bounds -/
  | outOfBounds
  /-- a null or dangling pointer is dereferenced -/
  | badPointer
  /-- an object is read after `free` -/
  | useAfterFree
  /-- a string does not fit the buffer it is written to -/
  | overflow
deriving DecidableEq, Repr

/-- A C string: the bytes before the terminating NUL. -/
structure CString where
  bytes : List UInt8
  noNul : (0 : UInt8) ∉ bytes
deriving DecidableEq

namespace CString

@[ext] theorem ext {s t : CString} (h : s.bytes = t.bytes) : s = t := by
  cases s; cases t; cases h; rfl

/-- The string read from the memory at a pointer: everything up to the first
NUL. -/
def ofMem (mem : List UInt8) : CString where
  bytes := mem.takeWhile (· ≠ 0)
  noNul := fun h => by simpa using List.mem_takeWhile_imp h

/-- A string in memory is read to its end, and whatever lies behind it up to
the first NUL. -/
theorem bytes_ofMem_append (s : CString) (rest : List UInt8) :
    (ofMem (s.bytes ++ rest)).bytes = s.bytes ++ (ofMem rest).bytes := by
  have hall : ∀ b ∈ s.bytes, (decide (b ≠ 0)) = true := by
    intro b hb
    exact decide_eq_true fun h0 => s.noNul (h0 ▸ hb)
  show (s.bytes ++ rest).takeWhile (· ≠ 0) = s.bytes ++ rest.takeWhile (· ≠ 0)
  exact List.takeWhile_append_of_pos hall

/-- Memory that begins with a string reads as that string if a NUL, or the
end, follows, and not otherwise. -/
theorem ofMem_bytes_append_iff {s : CString} {rest : List UInt8} :
    ofMem (s.bytes ++ rest) = s ↔ rest.headD 0 = 0 := by
  have hrest : (ofMem rest).bytes = [] ↔ rest.headD 0 = 0 := by
    show rest.takeWhile (· ≠ 0) = [] ↔ _
    rcases rest with - | ⟨b, rest⟩
    · simp
    · by_cases hb : b = 0 <;> simp [hb]
  rw [← hrest]
  constructor
  · intro h
    have hb := s.bytes_ofMem_append rest
    rw [h] at hb
    exact List.self_eq_append_right.mp hb
  · intro h
    apply ext
    rw [bytes_ofMem_append, h, List.append_nil]

theorem ofMem_bytes_append (s : CString) {rest : List UInt8} (h : rest.headD 0 = 0) :
    ofMem (s.bytes ++ rest) = s := ofMem_bytes_append_iff.mpr h

@[simp] theorem ofMem_bytes (s : CString) : ofMem s.bytes = s := by
  have h : ofMem (s.bytes ++ []) = s := s.ofMem_bytes_append rfl
  rwa [List.append_nil] at h

/-- What is behind a NUL plays no part. -/
theorem ofMem_append_nul (text behind : List UInt8) : ofMem (text ++ 0 :: behind) = ofMem text := by
  apply ext
  show (text ++ 0 :: behind).takeWhile (· ≠ 0) = text.takeWhile (· ≠ 0)
  induction text with
  | nil => rfl
  | cons c text ih =>
    rw [List.cons_append, List.takeWhile_cons, List.takeWhile_cons, ih]

/-- `strlen` -/
def strlen (s : CString) : ℕ := s.bytes.length

theorem strlen_ofMem_le (mem : List UInt8) : (ofMem mem).strlen ≤ mem.length :=
  (List.takeWhile_prefix _).length_le

/-- `strncmp(s, t, n) == 0` -/
def strncmpEq (s t : CString) (n : ℕ) : Bool := s.bytes.take n == t.bytes.take n

/-- Comparing over the whole length of `s` asks whether `s` is a prefix of
`t`. -/
theorem strncmpEq_strlen {s t : CString} :
    strncmpEq s t s.strlen = true ↔ s.bytes <+: t.bytes := by
  simp only [strncmpEq, strlen, List.take_length, beq_iff_eq]
  constructor
  · intro h
    exact h ▸ List.take_prefix _ _
  · intro h
    exact List.prefix_iff_eq_take.mp h

/-! ### Building and searching -/

instance : Append CString where
  append s t := ⟨s.bytes ++ t.bytes, fun h => (List.mem_append.mp h).elim s.noNul t.noNul⟩

@[simp] theorem bytes_append (s t : CString) : (s ++ t).bytes = s.bytes ++ t.bytes := rfl

theorem strlen_append (s t : CString) : (s ++ t).strlen = s.strlen + t.strlen :=
  List.length_append

/-- The first `n` characters. -/
def take (s : CString) (n : ℕ) : CString :=
  ⟨s.bytes.take n, fun h => s.noNul (List.mem_of_mem_take h)⟩

/-- The string behind the first `n` characters. -/
def drop (s : CString) (n : ℕ) : CString :=
  ⟨s.bytes.drop n, fun h => s.noNul (List.mem_of_mem_drop h)⟩

/-- A string literal. -/
def lit (s : String) : CString := ofMem s.toUTF8.data.toList

/-- A number, as `printf` writes it to a base up to 16. -/
def numeral (base n : ℕ) : CString :=
  ofMem ((if n = 0 then [0] else (base.digits n).reverse).map fun d =>
    .ofNat (if d < 10 then 48 + d else 55 + d))

theorem strlen_numeral_le {base n k : ℕ} (hb : 1 < base) (hk : 0 < k) (h : n < base ^ k) :
    (numeral base n).strlen ≤ k := by
  unfold numeral
  refine ((List.takeWhile_prefix _).length_le).trans ?_
  rw [List.length_map]
  split
  · exact hk
  · rw [List.length_reverse]
    exact (Nat.digits_length_le_iff hb n).mpr h

/-- `%d` -/
def decimal (n : ℤ) : CString :=
  if n < 0 then lit "-" ++ numeral 10 n.natAbs else numeral 10 n.natAbs

theorem strlen_decimal_le {n : ℤ} {k : ℕ} (hk : 0 < k) (h : n.natAbs < 10 ^ k) :
    (decimal n).strlen ≤ k + 1 := by
  have hn : (numeral 10 n.natAbs).strlen ≤ k := strlen_numeral_le (by omega) hk h
  have hminus : (lit "-").strlen = 1 := by decide
  unfold decimal
  split
  · rw [strlen_append, hminus]
    omega
  · omega

/-- `strstr(s, t) != NULL` -/
def strstr (s t : CString) : Bool := decide (t.bytes <:+: s.bytes)

/-- `strrchr(s, c)`: what lies from the last `c` on. -/
def strrchr (s : CString) (c : UInt8) : Option (List UInt8) :=
  if c ∈ s.bytes then some (c :: (s.bytes.reverse.takeWhile (· ≠ c)).reverse) else none

theorem strrchr_eq_none {s : CString} {c : UInt8} : s.strrchr c = none ↔ c ∉ s.bytes := by
  unfold strrchr
  split
  · next h => exact iff_of_false (Option.some_ne_none _) fun hn => hn h
  · next h => exact iff_of_true rfl h

/-- A tail of length 1 is the last character. -/
theorem length_strrchr_eq_one {s : CString} {c : UInt8} {tail : List UInt8}
    (h : s.strrchr c = some tail) : tail.length = 1 ↔ s.bytes.getLast? = some c := by
  unfold strrchr at h
  split at h
  · next hc =>
    obtain rfl := Option.some.inj h
    rw [List.length_cons, List.length_reverse, Nat.add_eq_right, List.length_eq_zero_iff,
      List.getLast?_eq_head?_reverse]
    rcases hr : s.bytes.reverse with - | ⟨b, rest⟩
    · rw [List.reverse_eq_nil_iff.mp hr] at hc
      cases hc
    · by_cases hb : b = c <;> simp [hb]
  · cases h

end CString

/-- `sprintf` into a buffer of `size` bytes: the string, with its NUL, must
fit. -/
def sprintf (size : ℕ) (text : CString) : Except Fault CString :=
  if text.strlen < size then .ok text else .error .overflow

theorem sprintf_of_lt {size : ℕ} {text : CString} (h : text.strlen < size) :
    sprintf size text = .ok text := if_pos h

theorem sprintf_of_ge {size : ℕ} {text : CString} (h : size ≤ text.strlen) :
    sprintf size text = .error .overflow := if_neg (Nat.not_lt.mpr h)

/-! ### Computations that end without a fault -/

/-- The computation has a result. -/
def Completes {α : Type} (x : Except Fault α) : Prop := ∃ r, x = .ok r

@[simp] theorem completes_ok {α : Type} (a : α) : Completes (.ok a : Except Fault α) := ⟨a, rfl⟩

@[simp] theorem completes_pure {α : Type} (a : α) : Completes (pure a : Except Fault α) := ⟨a, rfl⟩

theorem completes_map_iff {α β : Type} {x : Except Fault α} {f : α → β} :
    Completes (x.map f) ↔ Completes x := by
  cases x with
  | error e => exact iff_of_false (fun ⟨_, h⟩ => nomatch h) (fun ⟨_, h⟩ => nomatch h)
  | ok a => exact iff_of_true ⟨f a, rfl⟩ ⟨a, rfl⟩

theorem ok_bind {ε α β : Type} (a : α) (f : α → Except ε β) : (Except.ok a >>= f) = f a := rfl

/-- A result behind `x` comes from a result of `x`. -/
theorem bind_eq_ok {α β : Type} {x : Except Fault α} {f : α → Except Fault β} {r : β}
    (h : (x >>= f) = .ok r) : ∃ a, x = .ok a ∧ f a = .ok r := by
  cases x with
  | error e => cases h
  | ok a => exact ⟨a, rfl, h⟩

theorem completes_bind_iff {α β : Type} {x : Except Fault α} {f : α → Except Fault β} :
    Completes (x >>= f) ↔ ∃ a, x = .ok a ∧ Completes (f a) := by
  constructor
  · rintro ⟨r, h⟩
    obtain ⟨a, hx, hr⟩ := bind_eq_ok h
    exact ⟨a, hx, r, hr⟩
  · rintro ⟨a, rfl, h⟩
    exact h

/-- Nothing after `x` can fault. -/
theorem completes_bind_pure_iff {α β : Type} {x : Except Fault α} {f : α → β} :
    Completes (do let a ← x; return f a) ↔ Completes x := by
  rw [completes_bind_iff]
  exact exists_congr fun a => and_iff_left (completes_pure (f a))

end CMem
