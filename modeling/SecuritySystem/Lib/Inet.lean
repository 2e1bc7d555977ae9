/-
SecuritySystem/Lib/Inet.lean

Numbers and addresses as the C library reads them.

`atoi` skips blanks, takes a sign and decimal digits, and stops at anything
else; the number is clamped to 64 bits and cut to 32.  `inet_aton` takes one to
four numbers with dots between them, each decimal, octal or hex as in C; all but
the last are bytes, and the last fills the bytes that are left.
-/
import SecuritySystem.Lib.Words

namespace CMem

/-- `isspace` in the C locale. -/
def isspace (c : UInt8) : Bool := c = 32 ∨ 9 ≤ c ∧ c ≤ 13

/-- A decimal digit. -/
def isdigit (c : UInt8) : Bool := 48 ≤ c ∧ c ≤ 57

/-- The value of a hex digit. -/
def xdigit (c : UInt8) : Option ℕ :=
  if isdigit c then some (c.toNat - 48)
  else if 97 ≤ c ∧ c ≤ 102 then some (c.toNat - 87)
  else if 65 ≤ c ∧ c ≤ 70 then some (c.toNat - 55)
  else none

/-- The number `n` with the digits that follow, and what is behind them. -/
def spanDigits (base : ℕ) : ℕ → List UInt8 → ℕ × List UInt8
  | n, [] => (n, [])
  | n, c :: s =>
    match xdigit c with
    | some d => if d < base then spanDigits base (base * n + d) s else (n, c :: s)
    | none => (n, c :: s)

/-- The largest `long`. -/
def LONG_MAX : ℤ := 0x7fffffffffffffff

/-- `strtol(s, NULL, 10)` -/
def strtol (s : List UInt8) : ℤ :=
  match s.dropWhile isspace with
  | [] => 0
  | c :: s =>
    if c = 45 then max (-LONG_MAX - 1) (-(spanDigits 10 0 s).1)
    else if c = 43 then min LONG_MAX (spanDigits 10 0 s).1
    else min LONG_MAX (spanDigits 10 0 (c :: s)).1

/-- `atoi`, the bits of an `int`. -/
def atoi (s : CString) : BitVec 32 := BitVec.ofInt 32 (strtol s.bytes)

/-- `strtoul(s, &end, 0)` on a text that begins with a digit. -/
def strtoul (s : List UInt8) : ℕ × List UInt8 :=
  match s with
  | 48 :: x :: c :: s' =>
    if (x = 120 ∨ x = 88) ∧ (xdigit c).isSome then spanDigits 16 0 (c :: s') else spanDigits 8 0 s
  | 48 :: _ => spanDigits 8 0 s
  | _ => spanDigits 10 0 s

/-- A number of an address, and what is behind it. -/
def inetNumber (s : List UInt8) : Option (ℕ × List UInt8) :=
  if (s.head?.map isdigit).getD false then
    let (val, rest) := strtoul s
    if val ≤ 0xffffffff then some (val, rest) else none
  else none

/-- The bytes in front of the last dot, the number behind it, and the rest; `k`
more dots are allowed. -/
def inetParts : ℕ → List UInt8 → Option (List UInt8 × ℕ × List UInt8)
  | 0, s => do
    let (val, rest) ← inetNumber s
    if rest.head? = some 46 then none else return ([], val, rest)
  | k + 1, s => do
    let (val, rest) ← inetNumber s
    match rest with
    | 46 :: rest' =>
      if 0xff < val then none
      else
        let (front, last, rest) ← inetParts k rest'
        return (.ofNat val :: front, last, rest)
    | _ => return ([], val, rest)

/-- `inet_aton`: the word `s_addr` on a little-endian machine. -/
def inetAton (cp : CString) : Option (BitVec 32) := do
  let (front, last, rest) ← inetParts 3 cp.bytes
  if (rest.head?.map isspace).getD true ∧ last < 256 ^ (4 - front.length) then
    return BitVec.ofNat 32 (ofLe (front ++ (leBytes (4 - front.length) last).reverse))
  else none

end CMem
