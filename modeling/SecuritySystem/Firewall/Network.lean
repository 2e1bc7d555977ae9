/-
SecuritySystem/Firewall/Network.lean

Which packets the firewall service counts as untrusted.

`start` stores the prefix of the untrusted network, a word in network byte
order, and computes the mask as `prefix & ((1 << n) - 1)`, in host order and
with the prefix itself in it.  So the test of the handler, `(ip & netmask) ==
net_bits`, asks whether the source contains the bits of the prefix.  On a
little-endian machine that is membership in `prefix/n` for five networks only,
each a whole number of bytes long with all their bits set
(`countsNetwork_iff`); for all others it counts strangers or misses members.

C leaves `1 << 32` undefined, so the over-wide shift is a parameter here.
-/
import SecuritySystem.Firewall.Packet

namespace SecuritySystem.Firewall

open CMem

/-! ### Addresses and networks -/

/-- The `k`-th bit of an address as it goes over the wire: the bytes in memory
in their order, each from its highest bit on. -/
def netBit (w : BitVec 32) (k : ℕ) : Bool :=
  ((leBytes 4 w.toNat).getD (k / 8) 0).toNat.testBit (7 - k % 8)

/-- The first bits of the address are those of the prefix. -/
def InNetwork (net : Network) (addr : BitVec 32) : Prop :=
  ∀ k < net.netmask.toNat, netBit addr k = netBit net.ipPrefix k

instance (net : Network) (addr : BitVec 32) : Decidable (InNetwork net addr) :=
  inferInstanceAs (Decidable (∀ k < net.netmask.toNat, _ = _))

/-- `1 << n`, and what the machine makes of it when `n` is no bit of a word. -/
def oneShl (wide : ℕ → BitVec 32) (n : BitVec 32) : BitVec 32 :=
  if n.toNat < 32 then 1#32 <<< n.toNat else wide n.toNat

/-- The two assignments of `start`. -/
def Globals.setNetwork (wide : ℕ → BitVec 32) (net : Network) (g : Globals) : Globals :=
  { g with
    netBits := net.ipPrefix
    netmask := net.ipPrefix &&& (oneShl wide net.netmask - 1) }

/-- The source address of a packet. -/
def sourceOf (packet : List UInt8) : BitVec 32 :=
  wordOf ((packet.drop (SIZE_ETHERNET + 12)).take 4)

/-- The handler counts the packets from the network, and no others. -/
def CountsNetwork (wide : ℕ → BitVec 32) (net : Network) : Prop :=
  ∀ (packet : List UInt8) (g : Globals) (r : Handled), g.fwKeepRunning ≠ 0 →
    20 ≤ sizeIp packet → fwGotPacket packet true (g.setNetwork wide net) = .ok r →
      r.globals.untrustedCounter =
        if InNetwork net (sourceOf packet) then g.untrustedCounter + 1 else g.untrustedCounter

/-! ### Bits -/

/-- Where the `k`-th bit of an address is in its word on a little-endian
machine. -/
def bitIndex (k : ℕ) : ℕ := 8 * (k / 8) + (7 - k % 8)

theorem bitIndex_bitIndex (k : ℕ) : bitIndex (bitIndex k) = k := by
  unfold bitIndex
  omega

theorem bitIndex_lt {k : ℕ} (h : k < 32) : bitIndex k < 32 := by
  unfold bitIndex
  omega

theorem netBit_eq {w : BitVec 32} {k : ℕ} (h : k < 32) : netBit w k = w.getLsbD (bitIndex k) := by
  have hbit : 7 - k % 8 < 8 := by omega
  rw [netBit, getD_leBytes (by omega), UInt8.toNat_ofNat', Nat.testBit_mod_two_pow,
    decide_eq_true hbit, Bool.true_and, Nat.testBit_div_two_pow, BitVec.getLsbD, bitIndex,
    Nat.add_comm]

/-! ### The test of the handler -/

section Test

variable {n : ℕ} {P M : BitVec 32}

/-- The address contains the bits of the prefix, if the mask leaves them. -/
theorem and_eq_iff {src : BitVec 32} (hmask : P &&& M = P) :
    src &&& (P &&& M) = P ↔ ∀ i < 32, P.getLsbD i = true → src.getLsbD i = true := by
  rw [hmask]
  constructor
  · intro h i _ hi
    rw [← h, BitVec.getLsbD_and, Bool.and_eq_true] at hi
    exact hi.1
  · intro h
    apply BitVec.eq_of_getLsbD_eq
    intro i hi
    rw [BitVec.getLsbD_and]
    cases hP : P.getLsbD i with
    | false => exact Bool.and_false _
    | true => rw [h i hi hP, Bool.and_true]

/-- A word with one bit cleared. -/
theorem getLsbD_clear {i : ℕ} (hi : i < 32) (j : ℕ) :
    (P &&& ~~~ BitVec.twoPow 32 i).getLsbD j = (P.getLsbD j && !decide (i = j)) := by
  rw [BitVec.getLsbD_and, BitVec.getLsbD_not, BitVec.getLsbD_twoPow, decide_eq_true hi,
    Bool.true_and]
  by_cases hj : j < 32
  · rw [decide_eq_true hj, Bool.true_and]
  · rw [BitVec.getLsbD_of_ge P j (Nat.not_lt.mp hj), Bool.false_and, Bool.false_and]

/-- **When the test is membership**: the prefix consists of the first `n` bits,
all set, and the mask leaves them. -/
theorem test_iff_member (hn : n ≤ 32) :
    (∀ src, src &&& (P &&& M) = P ↔ ∀ k < n, netBit src k = netBit P k) ↔
      (∀ i < 32, P.getLsbD i = decide (bitIndex i < n)) ∧ P &&& M = P := by
  constructor
  · intro h
    have hmask : P &&& M = P := by
      -- the prefix itself is in the network
      have hself := (h P).mpr fun k _ => rfl
      rwa [← BitVec.and_assoc, BitVec.and_self] at hself
    refine ⟨fun i hi => ?_, hmask⟩
    by_cases hin : bitIndex i < n
    · -- the address of ones passes the test, so the bits of the network are ones
      have hones := (h (BitVec.allOnes 32)).mp ((and_eq_iff hmask).mpr fun j hj _ => by
        rw [BitVec.getLsbD_allOnes]
        exact decide_eq_true hj) (bitIndex i) hin
      rw [netBit_eq (bitIndex_lt hi), netBit_eq (bitIndex_lt hi), bitIndex_bitIndex,
        BitVec.getLsbD_allOnes, decide_eq_true hi] at hones
      rw [decide_eq_true hin]
      exact hones.symm
    · -- a host bit of the prefix could be cleared without leaving the network
      rw [decide_eq_false hin]
      by_contra hbit
      have hset : P.getLsbD i = true := Bool.eq_true_of_not_eq_false hbit
      have htest := (h (P &&& ~~~ BitVec.twoPow 32 i)).mpr fun k hk => by
        have hne : i ≠ bitIndex k := by
          rintro rfl
          rw [bitIndex_bitIndex] at hin
          exact hin hk
        rw [netBit_eq (hk.trans_le hn), netBit_eq (hk.trans_le hn),
          getLsbD_clear hi, decide_eq_false hne]
        exact Bool.and_true _
      have hcleared := (and_eq_iff hmask).mp htest i hi hset
      rw [getLsbD_clear hi, decide_eq_true rfl, Bool.not_true, Bool.and_false] at hcleared
      exact Bool.false_ne_true hcleared
  · rintro ⟨hbits, hmask⟩ src
    rw [and_eq_iff hmask]
    constructor
    · intro h k hk
      have hk32 : k < 32 := hk.trans_le hn
      have hset : P.getLsbD (bitIndex k) = true := by
        rw [hbits _ (bitIndex_lt hk32), bitIndex_bitIndex]
        exact decide_eq_true hk
      rw [netBit_eq hk32, netBit_eq hk32, hset]
      exact h _ (bitIndex_lt hk32) hset
    · intro h i hi hset
      have hin : bitIndex i < n := of_decide_eq_true ((hbits i hi).symm.trans hset)
      have hmember := h _ hin
      rw [netBit_eq (bitIndex_lt hi), netBit_eq (bitIndex_lt hi), bitIndex_bitIndex, hset]
        at hmember
      exact hmember

end Test

/-! ### The masks of `start` -/

/-- `(1 << n) - 1` -/
theorem getLsbD_low_mask {n i : ℕ} (hn : n < 32) (hi : i < 32) :
    (1#32 <<< n - 1).getLsbD i = decide (i < n) := by
  have hmask : 1#32 <<< n - 1 = BitVec.ofNat 32 (2 ^ n - 1) := by
    have hpow : 2 ^ n < 2 ^ 32 := Nat.pow_lt_pow_right (by decide) hn
    have hpos : 0 < 2 ^ n := Nat.two_pow_pos n
    apply BitVec.eq_of_toNat_eq
    have hone : BitVec.toNat (1 : BitVec 32) = 1 := rfl
    have hone' : 1 % 2 ^ 32 = 1 := rfl
    simp only [BitVec.toNat_sub, BitVec.toNat_shiftLeft, BitVec.toNat_ofNat, Nat.shiftLeft_eq, hone,
      hone', Nat.one_mul]
    omega
  rw [hmask, BitVec.getLsbD_ofNat, decide_eq_true hi, Bool.true_and, Nat.testBit_two_pow_sub_one]

/-- Network bits that all lie among the lowest ones make whole bytes. -/
theorem mod_eight_of_bitIndex_lt {n : ℕ} (h : ∀ k < n, bitIndex k < n) : n % 8 = 0 := by
  by_contra hne
  have hlast := h (8 * (n / 8)) (by omega)
  unfold bitIndex at hlast
  omega

/-- The words whose first bits in network order are set, for whole bytes. -/
theorem eq_of_bits {P C : BitVec 32} {n : ℕ} (hP : ∀ i < 32, P.getLsbD i = decide (bitIndex i < n))
    (hC : ∀ i < 32, C.getLsbD i = decide (bitIndex i < n)) : P = C :=
  BitVec.eq_of_getLsbD_eq fun i hi => (hP i hi).trans (hC i hi).symm

/-- The prefixes and mask lengths with which the test is membership. -/
theorem network_iff (wide : ℕ → BitVec 32) {P m : BitVec 32} (hm : m.toNat ≤ 32) :
    ((∀ i < 32, P.getLsbD i = decide (bitIndex i < m.toNat)) ∧ P &&& (oneShl wide m - 1) = P) ↔
      (P, m) ∈ [(0, 0), (0xff, 8), (0xffff, 16), (0xffffff, 24)] ∨
        (P, m) = (0xffffffff, 32) ∧ wide 32 = 0 := by
  constructor
  · rintro ⟨hbits, hmask⟩
    by_cases h32 : m.toNat < 32
    · left
      have hbytes : m.toNat % 8 = 0 := by
        apply mod_eight_of_bitIndex_lt
        intro k hk
        have hset : P.getLsbD (bitIndex k) = true := by
          rw [hbits _ (bitIndex_lt (hk.trans h32)), bitIndex_bitIndex]
          exact decide_eq_true hk
        rw [← hmask, oneShl, if_pos h32, BitVec.getLsbD_and, Bool.and_eq_true,
          getLsbD_low_mask h32 (bitIndex_lt (hk.trans h32))] at hset
        exact of_decide_eq_true hset.2
      have hcases : m = 0 ∨ m = 8 ∨ m = 16 ∨ m = 24 := by bv_omega
      rcases hcases with rfl | rfl | rfl | rfl
      · obtain rfl : P = 0 := eq_of_bits hbits (by decide)
        decide
      · obtain rfl : P = 0xff := eq_of_bits hbits (by decide)
        decide
      · obtain rfl : P = 0xffff := eq_of_bits hbits (by decide)
        decide
      · obtain rfl : P = 0xffffff := eq_of_bits hbits (by decide)
        decide
    · right
      obtain rfl : m = 32 := by bv_omega
      obtain rfl : P = 0xffffffff := eq_of_bits hbits (by decide)
      refine ⟨rfl, ?_⟩
      have hones : wide 32 - 1 = 0xffffffff := BitVec.allOnes_and.symm.trans hmask
      rw [← BitVec.sub_add_cancel (wide 32) 1, hones]
      rfl
  · rintro (hmem | ⟨heq, hwide⟩)
    · simp only [List.mem_cons, List.not_mem_nil, or_false, Prod.mk.injEq] at hmem
      rcases hmem with ⟨rfl, rfl⟩ | ⟨rfl, rfl⟩ | ⟨rfl, rfl⟩ | ⟨rfl, rfl⟩
      all_goals
        rw [oneShl, if_pos (by decide)]
        decide
    · obtain ⟨rfl, rfl⟩ := Prod.mk.inj heq
      have hshl : oneShl wide 32 = 0 := hwide
      rw [hshl]
      exact ⟨by decide, by decide⟩

/-! ### What is counted -/

/-- With a valid header length the handler gets to the test. -/
theorem ipPacket_globals {packet : List UInt8} {g : Globals} {r : Handled}
    (hip : 20 ≤ sizeIp packet) (h : ipPacket packet g = .ok r) :
    r.globals = g.countSource (sourceOf packet) := by
  obtain ⟨vhl, hvhl, h⟩ := bind_eq_ok h
  obtain rfl := load_eq_ok hvhl
  have hsize : ¬ ipHl (packet.getD SIZE_ETHERNET 0) * 4 < 20 := Nat.not_lt.mpr hip
  dsimp only at h
  rw [if_neg hsize] at h
  obtain ⟨src, hsrc, h⟩ := bind_eq_ok h
  obtain rfl := readAt_eq_ok hsrc
  obtain ⟨dst, -, h⟩ := bind_eq_ok h
  obtain ⟨rest, -, h⟩ := bind_eq_ok h
  obtain rfl := Except.ok.inj h
  rfl

theorem fwGotPacket_counter {packet : List UInt8} {g : Globals} {r : Handled}
    (hrun : g.fwKeepRunning ≠ 0) (hip : 20 ≤ sizeIp packet)
    (h : fwGotPacket packet true g = .ok r) :
    r.globals.untrustedCounter =
      if sourceOf packet &&& g.netmask = g.netBits then g.untrustedCounter + 1
      else g.untrustedCounter := by
  rw [fwGotPacket, if_neg hrun, if_neg (by decide)] at h
  cases hr : ipPacket packet { g with ipBits := 0, count := g.count + 1 } with
  | error e =>
    rw [hr] at h
    cases h
  | ok r' =>
    rw [hr] at h
    obtain rfl := Except.ok.inj h
    show r'.globals.untrustedCounter = _
    rw [ipPacket_globals hip hr]
    rfl

/-- A packet from an address: UDP, with nothing behind the IP header. -/
def packetFrom (src : BitVec 32) : List UInt8 :=
  [0, 0, 0, 0, 0, 0, 0, 0, 0, 0, 0, 0, 8, 0, 0x45, 0, 0, 20, 0, 0, 0, 0, 64, 17, 0, 0] ++
    (leBytes 4 src.toNat ++ [10, 0, 0, 2])

theorem sourceOf_packetFrom (src : BitVec 32) : sourceOf (packetFrom src) = src := by
  have hbytes : ((packetFrom src).drop (SIZE_ETHERNET + 12)).take 4 = leBytes 4 src.toNat := rfl
  rw [sourceOf, hbytes, wordOf, ofLe_leBytes src.isLt, BitVec.ofNat_toNat, BitVec.setWidth_eq]

theorem captured_packetFrom (src : BitVec 32) : Captured (packetFrom src) where
  first := by
    show 15 ≤ 34
    decide
  ip := fun _ => Nat.le_refl 34
  tcp := fun _ h => nomatch h
  payload := fun _ h => nomatch h

/-- What is counted is what passes the test. -/
theorem countsNetwork_iff_test (wide : ℕ → BitVec 32) (net : Network) :
    CountsNetwork wide net ↔ ∀ src,
      src &&& (net.ipPrefix &&& (oneShl wide net.netmask - 1)) = net.ipPrefix ↔
        InNetwork net src := by
  constructor
  · intro h src
    let g : Globals := ⟨1, 0, 0, 0, 0, 0⟩
    have hrun : (g.setNetwork wide net).fwKeepRunning ≠ 0 := by
      show (1 : BitVec 32) ≠ 0
      decide
    have hip : 20 ≤ sizeIp (packetFrom src) := by
      show 20 ≤ ipHl 0x45 * 4
      decide
    obtain ⟨r, hr⟩ : Completes (fwGotPacket (packetFrom src) true (g.setNetwork wide net)) := by
      rw [fwGotPacket, if_neg hrun, if_neg (by decide), completes_map_iff, ipPacket_completes_iff]
      exact captured_packetFrom src
    have hcounter := fwGotPacket_counter hrun hip hr
    rw [h _ g r hrun hip hr, sourceOf_packetFrom] at hcounter
    have hcounter : (if InNetwork net src then (1 : BitVec 32) else 0) =
        if src &&& (net.ipPrefix &&& (oneShl wide net.netmask - 1)) = net.ipPrefix then 1 else 0 :=
      hcounter
    split at hcounter <;> split at hcounter
    · next hin htest => exact iff_of_true htest hin
    · cases hcounter
    · cases hcounter
    · next hin htest => exact iff_of_false htest hin
  · intro h packet g r hrun hip hr
    have hrun' : (g.setNetwork wide net).fwKeepRunning ≠ 0 := hrun
    rw [fwGotPacket_counter hrun' hip hr]
    exact if_congr (h (sourceOf packet)) rfl rfl

/-- **Exactly when the counter counts the untrusted network**: for 0.0.0.0/0,
255.0.0.0/8, 255.255.0.0/16 and 255.255.255.0/24, and for 255.255.255.255/32 on
a machine where the over-wide shift gives 0. -/
theorem countsNetwork_iff (wide : ℕ → BitVec 32) (net : Network)
    (hmask : net.netmask.toNat ≤ 32) :
    CountsNetwork wide net ↔
      (net.ipPrefix, net.netmask) ∈ [(0, 0), (0xff, 8), (0xffff, 16), (0xffffff, 24)] ∨
        (net.ipPrefix, net.netmask) = (0xffffffff, 32) ∧ wide 32 = 0 := by
  rw [countsNetwork_iff_test, ← network_iff wide hmask]
  exact test_iff_member hmask

theorem countsNetwork_iff_classA : CountsNetwork (fun _ => 1) ⟨0xff, 8⟩ :=
  (countsNetwork_iff _ ⟨0xff, 8⟩ (by decide)).mpr (.inl (by decide))

/-- With 192.168.0.0/24 a packet from 193.168.0.1 is counted, whose address
contains the bits of the prefix. -/
theorem not_countsNetwork_stranger :
    ¬ ∀ wide net, net.netmask.toNat ≤ 32 → CountsNetwork wide net := by
  intro h
  have htest := (countsNetwork_iff_test _ _).mp (h (fun _ => 1) ⟨0xa8c0, 24⟩ (by decide))
  exact absurd ((htest 0x0100a8c1).mp (by decide)) (by decide)

end SecuritySystem.Firewall
