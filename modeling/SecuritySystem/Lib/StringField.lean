/-
SecuritySystem/Lib/StringField.lean

Strings that are copied into fields without their NUL.

`strncpy(field, v, strlen(v))` writes the characters of `v` and nothing else,
so behind them stays what was there before.  A field that began as zeros holds
the last string written, with a NUL behind it, exactly when that string fits
and no earlier one was longer (`shows_foldl_put_iff`).

Fields are parts of an object: `field off n mem` are the `n` bytes at `off`.  A
write changes the field it is made to, and those that lie behind it if it is
too long.
-/
import SecuritySystem.Lib.CMemory

namespace CMem

/-! ### Writing to an object -/

/-- The object with `v` written at offset `off`. -/
def writeAt (mem : List UInt8) (off : ℕ) (v : List UInt8) : Except Fault (List UInt8) :=
  if off + v.length ≤ mem.length then .ok (mem.take off ++ (v ++ mem.drop (off + v.length)))
  else .error .overflow

/-- The `n` bytes at offset `off`. -/
def field (off n : ℕ) (mem : List UInt8) : List UInt8 := (mem.drop off).take n

/-- A field of `n` bytes after a write to its beginning. -/
def overlay (n : ℕ) (b v : List UInt8) : List UInt8 := (v ++ b.drop v.length).take n

/-- Cleared memory. -/
def zeros (n : ℕ) : List UInt8 := List.replicate n 0

/-- A string is copied to the field without its NUL. -/
def put (n : ℕ) (b : List UInt8) (v : CString) : List UInt8 := overlay n b v.bytes

/-- The first byte is cleared before. -/
def putCleared (n : ℕ) (b : List UInt8) (v : CString) : List UInt8 := put n (overlay n b [0]) v

/-- The field begins with the string and a NUL. -/
def Shows (b : List UInt8) (v : CString) : Prop := v.bytes ++ [0] <+: b

instance (b : List UInt8) (v : CString) : Decidable (Shows b v) :=
  inferInstanceAs (Decidable (_ <+: _))

/-- The string that an object holds; to read on behind the object is a
fault. -/
def readIn : List UInt8 → Except Fault (List UInt8)
  | [] => .error .outOfBounds
  | c :: rest => if c = 0 then .ok [] else (readIn rest).map (c :: ·)

variable {mem mem' b v : List UInt8} {off off' n : ℕ}

theorem writeAt_eq_ok (h : writeAt mem off v = .ok mem') :
    off + v.length ≤ mem.length ∧ mem' = mem.take off ++ (v ++ mem.drop (off + v.length)) := by
  unfold writeAt at h
  split at h
  · next hle => exact ⟨hle, (Except.ok.inj h).symm⟩
  · cases h

theorem length_writeAt (h : writeAt mem off v = .ok mem') : mem'.length = mem.length := by
  obtain ⟨hle, rfl⟩ := writeAt_eq_ok h
  rw [List.length_append, List.length_append, List.length_take, List.length_drop]
  omega

theorem completes_writeAt_iff : Completes (writeAt mem off v) ↔ off + v.length ≤ mem.length := by
  constructor
  · rintro ⟨mem', h⟩
    exact (writeAt_eq_ok h).1
  · intro hle
    exact ⟨_, if_pos hle⟩

/-- What is written stands at its offset, and nothing else has changed. -/
theorem getElem?_writeAt (h : writeAt mem off v = .ok mem') (p : ℕ) :
    mem'[p]? = if off ≤ p ∧ p < off + v.length then v[p - off]? else mem[p]? := by
  obtain ⟨hle, rfl⟩ := writeAt_eq_ok h
  have hfront : (mem.take off).length = off := List.length_take_of_le (by omega)
  by_cases hp : p < off
  · rw [if_neg (by omega), List.getElem?_append_left (by rwa [hfront]), List.getElem?_take_of_lt hp]
  have hge : off ≤ p := Nat.not_lt.mp hp
  rw [List.getElem?_append_right (by rwa [hfront]), hfront]
  by_cases hin : p < off + v.length
  · rw [if_pos ⟨hge, hin⟩, List.getElem?_append_left (by omega)]
  · rw [if_neg (fun h => hin h.2), List.getElem?_append_right (by omega), List.getElem?_drop]
    exact congrArg (mem[·]?) (by omega)

/-- The field that is written to. -/
theorem field_writeAt (h : writeAt mem off v = .ok mem') :
    field off n mem' = overlay n (field off n mem) v := by
  obtain ⟨hle, rfl⟩ := writeAt_eq_ok h
  have hoff : (mem.take off).length = off := List.length_take_of_le (by omega)
  rw [field, field, overlay, List.drop_left' hoff, List.drop_take, List.drop_drop,
    List.take_append, List.take_append, List.take_take, Nat.min_eq_left (Nat.sub_le_sub_right
      (Nat.le_refl n) _)]

/-- A field in front of it. -/
theorem field_writeAt_of_le (h : writeAt mem off v = .ok mem') (hle : off' + n ≤ off) :
    field off' n mem' = field off' n mem := by
  obtain ⟨hin, rfl⟩ := writeAt_eq_ok h
  have hoff : (mem.take off).length = off := List.length_take_of_le (by omega)
  have hlen : n ≤ ((mem.take off).drop off').length := by
    rw [List.length_drop, hoff]
    omega
  rw [field, field, List.drop_append_of_le_length (by omega), List.take_append_of_le_length hlen,
    List.drop_take, List.take_take, Nat.min_eq_left (by omega)]

/-- A field behind it, if the write does not reach so far. -/
theorem field_writeAt_of_ge (h : writeAt mem off v = .ok mem') (hge : off + v.length ≤ off') :
    field off' n mem' = field off' n mem := by
  obtain ⟨hin, rfl⟩ := writeAt_eq_ok h
  obtain ⟨k, rfl⟩ := Nat.exists_eq_add_of_le hge
  have hfront : (mem.take off ++ v).length = off + v.length := by
    rw [List.length_append, List.length_take_of_le (by omega)]
  rw [field, field, ← List.append_assoc, ← hfront, List.drop_length_add_append, hfront,
    List.drop_drop]

/-- A write of the right length sets the field. -/
theorem overlay_of_length_eq (h : v.length = n) : overlay n b v = v := by
  rw [overlay, List.take_left' h]

theorem drop_field (k : ℕ) : (field off n mem).drop k = field (off + k) (n - k) mem := by
  rw [field, List.drop_take, List.drop_drop, field]

theorem field_zeros {m : ℕ} (h : off + n ≤ m) : field off n (zeros m) = zeros n := by
  rw [field, zeros, List.drop_replicate, List.take_replicate, Nat.min_eq_left (by omega), zeros]

/-! ### Reading a string inside an object -/

/-- Without a NUL the read leaves the object. -/
theorem readIn_of_not_mem (h : (0 : UInt8) ∉ mem) : readIn mem = .error .outOfBounds := by
  induction mem with
  | nil => rfl
  | cons c mem ih =>
    obtain ⟨hc, hmem⟩ := not_or.mp fun hc => h (List.mem_cons.mpr hc)
    rw [readIn, if_neg fun h0 => hc h0.symm, ih hmem]
    rfl

/-! ### Writing a string with its NUL -/

/-- The characters one after the other, and a NUL behind them. -/
def writeString (mem v : List UInt8) : Except Fault (List UInt8) := do
  let mem ← writeAt mem 0 v
  writeAt mem v.length [0]

theorem completes_writeString_iff : Completes (writeString mem v) ↔ v.length < mem.length := by
  rw [writeString, completes_bind_iff]
  constructor
  · rintro ⟨mem', hwrite, hnul⟩
    exact (completes_writeAt_iff.mp hnul).trans_eq (length_writeAt hwrite)
  · intro hlt
    obtain ⟨mem', hwrite⟩ : Completes (writeAt mem 0 v) :=
      completes_writeAt_iff.mpr ((Nat.zero_add _).trans_le hlt.le)
    exact ⟨mem', hwrite, completes_writeAt_iff.mpr (hlt.trans_eq (length_writeAt hwrite).symm)⟩

/-- It reads back. -/
theorem ofMem_writeString (h : writeString mem v = .ok mem') : CString.ofMem mem' = .ofMem v := by
  obtain ⟨mem₁, hwrite, hnul⟩ := bind_eq_ok h
  obtain ⟨-, rfl⟩ := writeAt_eq_ok hwrite
  obtain ⟨-, rfl⟩ := writeAt_eq_ok hnul
  rw [List.take_zero, List.nil_append, List.take_left, List.singleton_append]
  exact CString.ofMem_append_nul _ _

/-! ### What a field shows -/

theorem getElem?_overlay {p : ℕ} (hp : p < n) (b v : List UInt8) :
    (overlay n b v)[p]? = if p < v.length then v[p]? else b[p]? := by
  rw [overlay, List.getElem?_take_of_lt hp]
  split
  · next h => exact List.getElem?_append_left h
  · next h =>
    have hge : v.length ≤ p := Nat.not_lt.mp h
    rw [List.getElem?_append_right hge, List.getElem?_drop, Nat.add_sub_of_le hge]

theorem length_overlay_le (b v : List UInt8) : (overlay n b v).length ≤ n :=
  List.length_take_le n _

theorem prefix_overlay (hle : v.length ≤ n) (b : List UInt8) : v <+: overlay n b v := by
  rw [overlay, List.take_append, List.take_of_length_le hle]
  exact List.prefix_append _ _

section Strings

variable {s : CString} {vs : List CString} {f : List UInt8 → CString → List UInt8}

theorem shows_iff : Shows b s ↔ s.bytes <+: b ∧ b[s.strlen]? = some 0 := by
  constructor
  · rintro ⟨rest, rfl⟩
    refine ⟨⟨[0] ++ rest, by rw [← List.append_assoc]⟩, ?_⟩
    rw [List.append_assoc, CString.strlen, List.getElem?_append_right (Nat.le_refl _), Nat.sub_self]
    rfl
  · rintro ⟨⟨rest, rfl⟩, h⟩
    rw [CString.strlen, List.getElem?_append_right (Nat.le_refl _), Nat.sub_self] at h
    cases rest with
    | nil => cases h
    | cons c rest =>
      obtain rfl := Option.some.inj h
      exact ⟨rest, by rw [List.append_assoc]; rfl⟩

/-- A string ends at a NUL. -/
theorem strlen_ofMem_le_of_getElem? {p : ℕ} (h : b[p]? = some 0) :
    (CString.ofMem b).strlen ≤ p := by
  by_contra hlt
  obtain ⟨rest, hrest⟩ : (CString.ofMem b).bytes <+: b := List.takeWhile_prefix _
  have hget : b[p]? = (CString.ofMem b).bytes[p]? := by
    conv_lhs => rw [← hrest]
    exact List.getElem?_append_left (Nat.not_le.mp hlt)
  exact CString.noNul _ (List.mem_of_getElem? (hget.symm.trans h))

theorem bytes_ofMem_cons {c : UInt8} (hc : c ≠ 0) (b : List UInt8) :
    (CString.ofMem (c :: b)).bytes = c :: (CString.ofMem b).bytes := by
  show (c :: b).takeWhile (· ≠ 0) = c :: b.takeWhile (· ≠ 0)
  rw [List.takeWhile_cons, if_pos (decide_eq_true hc)]

/-- A character of what the object reads as has no NUL in front of it. -/
theorem mem_ofMem_iff {c : UInt8} (hc : c ≠ 0) :
    c ∈ (CString.ofMem b).bytes ↔ ∃ p : ℕ, b[p]? = some c ∧ ∀ q < p, b[q]? ≠ some 0 := by
  induction b with
  | nil => exact iff_of_false List.not_mem_nil fun ⟨p, hp, _⟩ => nomatch hp
  | cons d b ih =>
    by_cases hd : d = 0
    · -- the object reads as the empty string
      subst hd
      refine iff_of_false List.not_mem_nil ?_
      rintro ⟨- | p, hp, hfront⟩
      · exact hc (Option.some.inj hp).symm
      · exact hfront 0 (Nat.succ_pos p) rfl
    · rw [bytes_ofMem_cons hd, List.mem_cons, ih]
      constructor
      · rintro (rfl | ⟨p, hp, hfront⟩)
        · exact ⟨0, rfl, fun q hq => absurd hq (Nat.not_lt_zero q)⟩
        · refine ⟨p + 1, hp, ?_⟩
          rintro (- | q) hq
          · exact fun h => hd (Option.some.inj h)
          · exact hfront q (Nat.lt_of_succ_lt_succ hq)
      · rintro ⟨- | p, hp, hfront⟩
        · exact .inl (Option.some.inj hp).symm
        · exact .inr ⟨p, hp, fun q hq => hfront (q + 1) (Nat.succ_lt_succ hq)⟩

/-- If there is a NUL, the object shows what it reads as. -/
theorem shows_ofMem (h : (CString.ofMem b).strlen < b.length) : Shows b (.ofMem b) := by
  induction b with
  | nil => cases h
  | cons c b ih =>
    by_cases hc : c = 0
    · subst hc
      exact ⟨b, rfl⟩
    · rw [CString.strlen, bytes_ofMem_cons hc] at h
      rw [Shows, bytes_ofMem_cons hc, List.cons_append]
      exact (List.prefix_cons_inj c).mpr (ih (Nat.lt_of_succ_lt_succ h))

/-- An object reads as a string that is shorter exactly when it shows it. -/
theorem ofMem_eq_iff_shows (h : s.strlen < b.length) : CString.ofMem b = s ↔ Shows b s := by
  constructor
  · rintro rfl
    exact shows_ofMem h
  · rintro ⟨rest, rfl⟩
    rw [List.append_assoc]
    exact CString.ofMem_bytes_append s rfl

/-- The character at `p` of the last string that reaches there. -/
def lastAt (vs : List CString) (p : ℕ) : Option UInt8 :=
  (vs.filter (p < ·.strlen)).getLast?.bind (·.bytes[p]?)

theorem lastAt_concat (vs : List CString) (v : CString) (p : ℕ) :
    lastAt (vs ++ [v]) p = if p < v.strlen then v.bytes[p]? else lastAt vs p := by
  unfold lastAt
  rw [List.filter_append]
  by_cases hp : p < v.strlen
  · have hone : [v].filter (p < ·.strlen) = [v] := by simp [hp]
    rw [hone, List.getLast?_concat, if_pos hp]
    rfl
  · have hnone : [v].filter (p < ·.strlen) = [] := by simpa using hp
    rw [hnone, List.append_nil, if_neg hp]

theorem lastAt_ne_zero (vs : List CString) (p : ℕ) : lastAt vs p ≠ some 0 := by
  intro h
  obtain ⟨v, -, hv⟩ := Option.bind_eq_some_iff.mp h
  exact v.noNul (List.mem_of_getElem? hv)

theorem lastAt_isSome_iff {p : ℕ} : (lastAt vs p).isSome ↔ ∃ v ∈ vs, p < v.strlen := by
  induction vs using List.reverseRecOn with
  | nil => simp [lastAt]
  | append_singleton vs v ih =>
    rw [lastAt_concat]
    by_cases hp : p < v.strlen
    · rw [if_pos hp, List.getElem?_eq_getElem hp]
      exact iff_of_true rfl ⟨v, List.mem_append_right _ List.mem_cons_self, hp⟩
    · rw [if_neg hp, ih]
      simp [hp]

/-- Behind the first byte the field has what was last written, or its old bytes. -/
theorem getElem?_foldl_eq {p : ℕ}
    (hf : ∀ b v, (f b v)[p]? = if p < v.strlen then v.bytes[p]? else b[p]?) :
    (vs.foldl f b)[p]? = (lastAt vs p).or b[p]? := by
  induction vs using List.reverseRecOn with
  | nil => rfl
  | append_singleton vs v ih =>
    rw [List.foldl_append, List.foldl_cons, List.foldl_nil, hf, lastAt_concat, ih]
    by_cases hp : p < v.strlen
    · rw [if_pos hp, if_pos hp, List.getElem?_eq_getElem hp, Option.some_or]
    · rw [if_neg hp, if_neg hp]

/-- Where a field has a NUL after some strings were written by `f`: none of them
reached there, and it had one before. -/
theorem getElem?_foldl {p : ℕ}
    (hf : ∀ b v, (f b v)[p]? = if p < v.strlen then v.bytes[p]? else b[p]?) :
    (vs.foldl f b)[p]? = some 0 ↔ (∀ v ∈ vs, v.strlen ≤ p) ∧ b[p]? = some 0 := by
  have hreach : (∀ v ∈ vs, v.strlen ≤ p) ↔ ¬ (lastAt vs p).isSome := by
    rw [lastAt_isSome_iff]
    push Not
    rfl
  rw [getElem?_foldl_eq hf, hreach]
  rcases hlast : lastAt vs p with - | c
  · rw [Option.none_or, and_iff_right (by simp)]
  · rw [Option.some_or]
    refine iff_of_false (fun h => lastAt_ne_zero vs p (hlast.trans h)) fun h => h.1 rfl

/-- A field of zeros after strings, written in a way that does what `put` does
where the last one ends. -/
theorem shows_foldl_iff (hlast : vs.getLast? = some s) (hlen : ∀ b, (f b s).length ≤ n)
    (hfront : ∀ b, s.strlen ≤ n → s.bytes <+: f b s)
    (hf : s.strlen < n → ∀ b v, (f b v)[s.strlen]? =
      if s.strlen < v.strlen then v.bytes[s.strlen]? else b[s.strlen]?) :
    Shows (vs.foldl f (zeros n)) s ↔ s.strlen < n ∧ ∀ v ∈ vs, v.strlen ≤ s.strlen := by
  obtain ⟨front, rfl⟩ := List.getLast?_eq_some_iff.mp hlast
  rw [shows_iff]
  constructor
  · rintro ⟨-, hnul⟩
    have hlt : s.strlen < n := by
      obtain ⟨hin, -⟩ := List.getElem?_eq_some_iff.mp hnul
      rw [List.foldl_append, List.foldl_cons, List.foldl_nil] at hin
      exact hin.trans_le (hlen _)
    exact ⟨hlt, ((getElem?_foldl (hf hlt)).mp hnul).1⟩
  · rintro ⟨hlt, hall⟩
    have hzero : (zeros n)[s.strlen]? = some 0 := by
      rw [zeros, List.getElem?_replicate, if_pos hlt]
    refine ⟨?_, (getElem?_foldl (hf hlt)).mpr ⟨hall, hzero⟩⟩
    rw [List.foldl_append]
    exact hfront _ hlt.le

/-- **Strings written one over the other**: the field shows the last one
exactly when that one fits and none was longer. -/
theorem shows_foldl_put_iff (hlast : vs.getLast? = some s) :
    Shows (vs.foldl (put n) (zeros n)) s ↔ s.strlen < n ∧ ∀ v ∈ vs, v.strlen ≤ s.strlen :=
  shows_foldl_iff hlast (fun b => length_overlay_le b s.bytes)
    (fun b hle => prefix_overlay hle b) fun hlt b v => getElem?_overlay hlt b v.bytes

/-- Behind its first byte a cleared field is as `put` leaves it. -/
theorem getElem?_putCleared {p : ℕ} (hpos : 0 < p) (hp : p < n) (b : List UInt8) (v : CString) :
    (putCleared n b v)[p]? = if p < v.strlen then v.bytes[p]? else b[p]? := by
  have hbehind : ¬ p < [(0 : UInt8)].length := Nat.not_lt.mpr hpos
  rw [putCleared, put, getElem?_overlay hp, getElem?_overlay hp, if_neg hbehind]
  rfl

/-- Clearing the first byte helps the empty string only. -/
theorem shows_foldl_putCleared_iff (hlast : vs.getLast? = some s) (hn : 0 < n) :
    Shows (vs.foldl (putCleared n) (zeros n)) s ↔
      s.strlen < n ∧ (s.strlen = 0 ∨ ∀ v ∈ vs, v.strlen ≤ s.strlen) := by
  by_cases hs : s.strlen = 0
  · have hnil : s.bytes = [] := List.length_eq_zero_iff.mp hs
    obtain ⟨front, rfl⟩ := List.getLast?_eq_some_iff.mp hlast
    refine iff_of_true (shows_iff.mpr ⟨hnil ▸ List.nil_prefix, ?_⟩) ⟨hs ▸ hn, .inl hs⟩
    rw [List.foldl_append, hs]
    show (overlay n (overlay n _ [0]) s.bytes)[0]? = some 0
    rw [hnil, getElem?_overlay hn, getElem?_overlay hn]
    rfl
  · rw [or_iff_right hs]
    exact shows_foldl_iff hlast (fun b => length_overlay_le _ s.bytes)
      (fun b hle => prefix_overlay hle _) (getElem?_putCleared (Nat.pos_of_ne_zero hs))

/-- Behind a string that is not empty the first byte is no exception. -/
theorem getElem?_foldl_putCleared (hlast : vs.getLast? = some s) (hs : 0 < s.strlen) {p : ℕ}
    (hp : p < n) (b : List UInt8) :
    (vs.foldl (putCleared n) b)[p]? = (lastAt vs p).or b[p]? := by
  rcases Nat.eq_zero_or_pos p with rfl | hpos
  · obtain ⟨front, rfl⟩ := List.getLast?_eq_some_iff.mp hlast
    have hlen : 0 < s.bytes.length := hs
    rw [List.foldl_append, List.foldl_cons, List.foldl_nil, putCleared, put, getElem?_overlay hp,
      lastAt_concat, if_pos hlen, if_pos hs, List.getElem?_eq_getElem hlen, Option.some_or]
  · exact getElem?_foldl_eq (getElem?_putCleared hpos hp)

/-- **What can be read of several strings**: the last must not be empty, and the
character must stand where no later string has come. -/
theorem mem_ofMem_foldl_putCleared_iff {c : UInt8} (hc : c ≠ 0) (hvs : ∀ v ∈ vs, v.strlen < n) :
    c ∈ (CString.ofMem (vs.foldl (putCleared n) (zeros n))).bytes ↔
      (∀ last ∈ vs.getLast?, 0 < last.strlen) ∧ ∃ p, lastAt vs p = some c := by
  rw [mem_ofMem_iff hc]
  have hzeros : ∀ p, (zeros n)[p]? ≠ some c := fun p hp =>
    hc (List.eq_of_mem_replicate (List.mem_of_getElem? hp))
  constructor
  · rintro ⟨p, hp, hfront⟩
    rcases hlast : vs.getLast? with - | last
    · rw [List.getLast?_eq_none_iff.mp hlast] at hp
      exact absurd hp (hzeros p)
    have hmem : last ∈ vs := List.mem_of_getLast? hlast
    -- an empty string at the end would hide everything
    have hpos : 0 < last.strlen := by
      by_contra hzero
      have hempty : last.strlen = 0 := Nat.eq_zero_of_not_pos hzero
      have hnul := ((shows_foldl_putCleared_iff hlast (Nat.zero_lt_of_lt (hvs last hmem))).mpr
        ⟨hvs last hmem, .inl hempty⟩)
      have hfirst := (shows_iff.mp hnul).2
      rw [hempty] at hfirst
      rcases Nat.eq_zero_or_pos p with rfl | hp0
      · exact hc (Option.some.inj (hp.symm.trans hfirst))
      · exact hfront 0 hp0 hfirst
    have hpn : p < n := by
      obtain ⟨front, rfl⟩ := List.getLast?_eq_some_iff.mp hlast
      rw [List.foldl_append] at hp
      exact (List.getElem?_eq_some_iff.mp hp).1.trans_le (length_overlay_le _ last.bytes)
    refine ⟨fun v hv => Option.some.inj hv ▸ hpos, p, ?_⟩
    rw [getElem?_foldl_putCleared hlast hpos hpn] at hp
    rcases hat : lastAt vs p with - | d
    · rw [hat, Option.none_or] at hp
      exact absurd hp (hzeros p)
    · rwa [hat, Option.some_or] at hp
  · rintro ⟨hlast, p, hp⟩
    obtain ⟨v, hv, hreach⟩ := lastAt_isSome_iff.mp (Option.isSome_of_eq_some hp)
    obtain ⟨last, hlast'⟩ := Option.isSome_iff_exists.mp
      (List.getLast?_isSome.mpr (List.ne_nil_of_mem hv))
    have hpn : p < n := hreach.trans (hvs v hv)
    refine ⟨p, ?_, fun q hq => ?_⟩
    · rw [getElem?_foldl_putCleared hlast' (hlast last hlast') hpn, hp, Option.some_or]
    · -- the same string stands in front of the character, and holds no NUL
      obtain ⟨d, hd⟩ := Option.isSome_iff_exists.mp
        (lastAt_isSome_iff.mpr ⟨v, hv, hq.trans hreach⟩)
      rw [getElem?_foldl_putCleared hlast' (hlast last hlast') (hq.trans hpn), hd, Option.some_or,
        ← hd]
      exact lastAt_ne_zero vs q

end Strings

end CMem
