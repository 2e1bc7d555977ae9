/-
SecuritySystem/Firewall/NetworkText.lean

What the two network lines of the configuration store.

A value is to be an address and the length of a mask, `a.b.c.d/m`.  Nothing sees
to that: without a slash the null pointer is given to `strlen`, a prefix of 15
bytes leaves no room for its NUL, `inet_aton` takes other forms of an address as
well, and `atoi` takes everything behind the slash (`networkRight_iff`).
-/
import SecuritySystem.Lib.InetText
import SecuritySystem.ConfigScan

namespace SecuritySystem.Firewall

open CMem CMem.CString

/-! ### Values -/

/-- The parts of a value, in front of the slash and behind it. -/
def prefixPart (value : CString) : CString := value.take (value.bytes.idxOf PARSER_SLASH)

/-- The length of the mask. -/
def maskPart (value : CString) : CString := value.drop (value.bytes.idxOf PARSER_SLASH + 1)

/-- The value reads `a.b.c.d/m`, where `m` is a length of a mask. -/
structure NetworkText (value : CString) (a b c d : UInt8) (m : ℕ) : Prop where
  quad : prefixPart value = dottedQuad a b c d
  nonempty : (maskPart value).bytes ≠ []
  number : readNumeral 10 (maskPart value).bytes = some m
  le : m ≤ 32

/-- The configuration is rejected, or the network of the value is stored: the
four bytes of the address as they stand there, and the mask. -/
def NetworkRight (off : ℕ) (value : CString) (result : Except Fault (SetResult FwAttrs)) : Prop :=
  match result with
  | .ok (.done attrs') => ∃ a b c d m, NetworkText value a b c d m ∧
      field off NETWORK_SIZE attrs' = [a, b, c, d] ++ leBytes 4 m
  | .ok (.failed _ _) => True
  | .ok .unknown => False
  | .error _ => False

/-- A value that does no harm: there is a slash, the prefix fits its buffer, and
either `inet_aton` does not take it, or it is a network. -/
structure NetworkSound (value : CString) : Prop where
  slash : PARSER_SLASH ∈ value.bytes
  fits : value.bytes.idxOf PARSER_SLASH < FW_IP_PREFIX_MAXLEN
  text : inetAton (prefixPart value) = none ∨ ∃ a b c d m, NetworkText value a b c d m

/-! ### What is stored -/

variable {value : CString} {attrs attrs' : FwAttrs} {off : ℕ}

theorem wordBytes_ofLe {bs : List UInt8} (h : bs.length = 4) :
    wordBytes (BitVec.ofNat 32 (ofLe bs)) = bs := by
  have hlt : ofLe bs < 2 ^ 32 := (ofLe_lt bs).trans_eq (by rw [h]; decide)
  rw [wordBytes, BitVec.toNat_ofNat, Nat.mod_eq_of_lt hlt, ← h, leBytes_ofLe]

/-- The bytes of a network that reads as one. -/
theorem networkBytes_of_text {a b c d : UInt8} {m : ℕ} (hslash : PARSER_SLASH ∈ value.bytes)
    (hfits : value.bytes.idxOf PARSER_SLASH < FW_IP_PREFIX_MAXLEN)
    (h : NetworkText value a b c d m) :
    networkBytes value = some ([a, b, c, d] ++ leBytes 4 m) := by
  have hmask : netmaskOf value = BitVec.ofNat 32 m :=
    atoi_of_readNumeral h.nonempty h.number ((Int.ofNat_le.mpr h.le).trans (by decide))
  have hword : wordBytes (BitVec.ofNat 32 m) = leBytes 4 m := by
    rw [wordBytes, BitVec.toNat_ofNat, Nat.mod_eq_of_lt (h.le.trans_lt (by decide))]
  rw [networkBytes, ipPrefixOf_of_lt hslash hfits]
  show (inetAton (prefixPart value)).map _ = _
  rw [h.quad, inetAton_dottedQuad, Option.map_some, wordBytes_ofLe rfl, hmask, hword]

/-- A network that was stored. -/
theorem networkRight_of_done (hslash : PARSER_SLASH ∈ value.bytes)
    (hfits : value.bytes.idxOf PARSER_SLASH < FW_IP_PREFIX_MAXLEN) {addr : BitVec 32}
    (haddr : inetAton (prefixPart value) = some addr)
    (hdone : setNetworkAt off value attrs = .ok (.done attrs')) :
    NetworkRight off value (setNetworkAt off value attrs) ↔ NetworkSound value := by
  rw [hdone]
  constructor
  · rintro ⟨a, b, c, d, m, htext, -⟩
    exact ⟨hslash, hfits, .inr ⟨a, b, c, d, m, htext⟩⟩
  · rintro ⟨-, -, hnone | ⟨a, b, c, d, m, htext⟩⟩
    · rw [haddr] at hnone
      cases hnone
    · refine ⟨a, b, c, d, m, htext, ?_⟩
      have hstored := (setNetworkAt_done hdone).1
      rw [networkBytes_of_text hslash hfits htext] at hstored
      exact (Option.some.inj hstored).symm

theorem networkRight_setNetworkAt_iff (value : CString) (hattrs : Whole attrs)
    (hoff : off + NETWORK_SIZE ≤ ATTRS_SIZE) :
    NetworkRight off value (setNetworkAt off value attrs) ↔ NetworkSound value := by
  have hassign : AssignmentIs Whole (networkKind value) (setNetworkAt off value attrs) :=
    assignmentIs_network hattrs hoff
  unfold networkKind at hassign
  by_cases hfits : PARSER_SLASH ∈ value.bytes ∧ value.bytes.idxOf PARSER_SLASH < FW_IP_PREFIX_MAXLEN
  · rw [if_pos hfits] at hassign
    cases haddr : inetAton (prefixPart value) with
    | none =>
      rw [prefixPart] at haddr
      rw [haddr] at hassign
      -- the process ends
      obtain hunknown | ⟨why, attrs', hfailed⟩ := hassign
      · exact absurd hunknown setNetworkAt_ne_unknown
      · rw [hfailed]
        exact iff_of_true trivial ⟨hfits.1, hfits.2, .inl haddr⟩
    | some addr =>
      have hsome := haddr
      rw [prefixPart] at haddr
      rw [haddr] at hassign
      obtain ⟨attrs', hdone, -⟩ := hassign
      exact networkRight_of_done hfits.1 hfits.2 hsome hdone
  · rw [if_neg hfits] at hassign
    -- the copy of the prefix has faulted
    refine iff_of_false (fun hright => ?_) fun hsound => hfits ⟨hsound.slash, hsound.fits⟩
    rcases hresult : setNetworkAt off value attrs with e | r
    · rw [hresult] at hright
      exact hright
    · exact hassign ⟨r, hresult⟩

/-! ### The two keys -/

/-- **When a network line is right**, for every value and both keys: exactly when
the value is a network, or has an address that is rejected, in front of a slash
and of at most 14 bytes. -/
theorem networkRight_iff (value : CString) (attrs : FwAttrs) (hattrs : attrs.length = ATTRS_SIZE) :
    (NetworkRight UNTRUSTED_OFFSET value (fwSet FW_UNTRUSTED_NETWORK_DEFINE value attrs) ↔
        NetworkSound value) ∧
      (NetworkRight TRUSTED_OFFSET value (fwSet FW_TRUSTED_NETWORK_DEFINE value attrs) ↔
        NetworkSound value) := by
  rw [fwSet_eq_untrusted, fwSet_eq_trusted]
  exact ⟨networkRight_setNetworkAt_iff value hattrs (by decide),
    networkRight_setNetworkAt_iff value hattrs (by decide)⟩

theorem networkText_ten : NetworkText (lit "10.0.0.0/8") 10 0 0 0 8 where
  quad := by decide +kernel
  nonempty := by decide
  number := by decide
  le := by decide

theorem networkRight_iff_ten :
    NetworkRight UNTRUSTED_OFFSET (lit "10.0.0.0/8")
      (fwSet FW_UNTRUSTED_NETWORK_DEFINE (lit "10.0.0.0/8") (zeros ATTRS_SIZE)) :=
  ((networkRight_iff _ _ (by decide)).1).mpr
    ⟨by decide, by decide, .inr ⟨10, 0, 0, 0, 8, networkText_ten⟩⟩

/-- The longest address. -/
theorem not_networkRight_longest :
    ¬ ∀ (value : CString) (attrs : FwAttrs), attrs.length = ATTRS_SIZE →
      NetworkRight UNTRUSTED_OFFSET value (fwSet FW_UNTRUSTED_NETWORK_DEFINE value attrs) ∧
        NetworkRight TRUSTED_OFFSET value (fwSet FW_TRUSTED_NETWORK_DEFINE value attrs) := by
  intro h
  have hright := (h (lit "255.255.255.255/32") (zeros ATTRS_SIZE) (by decide)).1
  rw [fwSet_eq_untrusted] at hright
  have hsound := (networkRight_setNetworkAt_iff _ whole_zeros (by decide)).mp hright
  exact absurd hsound.fits (by decide)

end SecuritySystem.Firewall
