/-
SecuritySystem/Firewall/Config.lean

The configuration of the firewall service.

`fw_config_attrs_t` is taken as its 52 bytes, because the parser copies the
interface and the filter with `strncpy` and the length of the value: a value of
more than 15 bytes leaves no room for a NUL, and one of more than 16 runs into
the fields behind.  So the two take effect exactly when their last value has at
most 15 bytes and none was longer; then the other fields, which are stored whole,
hold their last values as well (`fw_effective_iff`).
-/
import SecuritySystem.Lib.Inet
import SecuritySystem.Parser

namespace SecuritySystem.Firewall

open CMem CMem.CString

/-- The key of the interface. -/
def FW_INTERFACE_DEFINE : CString := lit "interface"

/-- The key of the filter of libpcap. -/
def FW_FILTER_DEFINE : CString := lit "filter"

/-- The key of the number of packets. -/
def FW_PACKET_NUM_DEFINE : CString := lit "packet_num"

/-- The key of the network that is blocked. -/
def FW_UNTRUSTED_NETWORK_DEFINE : CString := lit "untrusted_net"

/-- The key of the network that is accepted. -/
def FW_TRUSTED_NETWORK_DEFINE : CString := lit "trusted_net"

/-- The size of the array for a prefix. -/
def FW_IP_PREFIX_MAXLEN : ℕ := 15

/-- The number of packets that stands for no limit. -/
def FW_SNIFF_INF_COUNT : BitVec 32 := -1

/-- The value that asks for it. -/
def FW_CONFIG_INF_PCKS : CString := lit "inf"

/-- As much of the value as is compared. -/
def FW_CONFIG_INF_PCKS_LEN : ℕ := 3

/-- The size of the two strings. -/
def FW_MIN_BUF_SIZE : ℕ := 16

/-! ### The bytes of `fw_config_attrs_t` -/

/-- `fw_config_attrs_t`, byte by byte. -/
abbrev FwAttrs := List UInt8

/-- `sizeof(fw_config_attrs_t)` -/
def ATTRS_SIZE : ℕ := 52

/-- Where `fw_attr_interface` stands. -/
def INTERFACE_OFFSET : ℕ := 0

/-- Where `fw_attr_filter` stands. -/
def FILTER_OFFSET : ℕ := 16

/-- Where `fw_untrusted_network` stands. -/
def UNTRUSTED_OFFSET : ℕ := 32

/-- Where `fw_trusted_network` stands. -/
def TRUSTED_OFFSET : ℕ := 40

/-- Where `fw_attr_pcts_num` stands. -/
def PCTS_NUM_OFFSET : ℕ := 48

/-- A `fw_network_t` has the prefix in its first four bytes and the mask in the
others. -/
def NETWORK_SIZE : ℕ := 8

/-- A word in memory, lowest byte first. -/
def wordBytes (w : BitVec 32) : List UInt8 := leBytes 4 w.toNat

/-! ### The code -/

/-- The number of packets to capture. -/
def pctsNum (slice : CString) : BitVec 32 :=
  if strncmpEq FW_CONFIG_INF_PCKS slice FW_CONFIG_INF_PCKS_LEN then FW_SNIFF_INF_COUNT
  else atoi slice

/-- The part in front of the slash, copied to its buffer of 15 bytes; there must
be a slash, and the copy must leave a NUL. -/
def ipPrefixOf (slice : CString) : Except Fault CString :=
  if PARSER_SLASH ∉ slice.bytes then .error .badPointer
  else do
    let ipPrefix ← writeAt (zeros FW_IP_PREFIX_MAXLEN) 0
      (slice.take (slice.bytes.idxOf PARSER_SLASH)).bytes
    if 0 ∈ ipPrefix then return .ofMem ipPrefix else .error .outOfBounds

/-- The number behind the slash. -/
def netmaskOf (slice : CString) : BitVec 32 :=
  atoi (slice.drop (slice.bytes.idxOf PARSER_SLASH + 1))

/-- A network is stored at its offset: first the mask, then the prefix if
`inet_aton` takes it; else the process ends. -/
def setNetworkAt (off : ℕ) (slice : CString) (attrs : FwAttrs) :
    Except Fault (SetResult FwAttrs) := do
  let ipPrefix ← ipPrefixOf slice
  let attrs ← writeAt attrs (off + 4) (wordBytes (netmaskOf slice))
  match inetAton ipPrefix with
  | none => return .failed .exited attrs
  | some addr =>
    let attrs ← writeAt attrs off (wordBytes addr)
    return .done attrs

/-- The branches on the key. -/
def fwSet (beforeValue slice : CString) (attrs : FwAttrs) : Except Fault (SetResult FwAttrs) :=
  if beforeValue = FW_INTERFACE_DEFINE then do
    let attrs ← writeAt attrs INTERFACE_OFFSET slice.bytes
    return .done attrs
  else if beforeValue = FW_FILTER_DEFINE then do
    let attrs ← writeAt attrs FILTER_OFFSET slice.bytes
    return .done attrs
  else if beforeValue = FW_PACKET_NUM_DEFINE then do
    let attrs ← writeAt attrs PCTS_NUM_OFFSET (wordBytes (pctsNum slice))
    return .done attrs
  else if beforeValue = FW_UNTRUSTED_NETWORK_DEFINE then setNetworkAt UNTRUSTED_OFFSET slice attrs
  else if beforeValue = FW_TRUSTED_NETWORK_DEFINE then setNetworkAt TRUSTED_OFFSET slice attrs
  else .ok .unknown

/-- On the text that `parser_read_conf` has read; `none` is its null pointer. -/
def fwParseAndSerializeConfig (buffer : Option (List UInt8)) (attrs : FwAttrs) :
    Except Fault (Parsed FwAttrs) :=
  match buffer with
  | none => .ok ⟨some .error, attrs, []⟩
  | some buffer => lineLoop PARSER_FILE_STROKE_MAX_LEN fwSet [] buffer attrs

/-! ### What a key does -/

/-- The keys of the service. -/
def fwKnown (key : CString) : Bool :=
  key = FW_INTERFACE_DEFINE ∨ key = FW_FILTER_DEFINE ∨ key = FW_PACKET_NUM_DEFINE ∨
    key = FW_UNTRUSTED_NETWORK_DEFINE ∨ key = FW_TRUSTED_NETWORK_DEFINE

/-- What a network line stores, if it is a network. -/
def networkBytes (slice : CString) : Option (List UInt8) :=
  match ipPrefixOf slice with
  | .error _ => none
  | .ok ipPrefix =>
    (inetAton ipPrefix).map fun addr => wordBytes addr ++ wordBytes (netmaskOf slice)

variable {key value : CString} {attrs attrs' : FwAttrs}

theorem length_wordBytes (w : BitVec 32) : (wordBytes w).length = 4 := length_leBytes 4 w.toNat

/-- The buffer for the prefix takes 14 characters and the NUL. -/
theorem ipPrefixOf_of_lt (hslash : PARSER_SLASH ∈ value.bytes)
    (hlt : value.bytes.idxOf PARSER_SLASH < FW_IP_PREFIX_MAXLEN) :
    ipPrefixOf value = .ok (value.take (value.bytes.idxOf PARSER_SLASH)) := by
  have hlen : (value.take (value.bytes.idxOf PARSER_SLASH)).bytes.length =
      value.bytes.idxOf PARSER_SLASH :=
    List.length_take_of_le (List.idxOf_lt_length_iff.mpr hslash).le
  have hfit : 0 + (value.take (value.bytes.idxOf PARSER_SLASH)).bytes.length ≤
      (zeros FW_IP_PREFIX_MAXLEN).length := by
    rw [Nat.zero_add, hlen, zeros, List.length_replicate]
    exact hlt.le
  obtain ⟨k, hk⟩ := Nat.exists_eq_succ_of_ne_zero (Nat.sub_ne_zero_of_lt hlt)
  have hrest : (zeros FW_IP_PREFIX_MAXLEN).drop (value.bytes.idxOf PARSER_SLASH) =
      0 :: zeros k := by
    rw [zeros, List.drop_replicate, hk, List.replicate_succ, zeros]
  rw [ipPrefixOf, if_neg (not_not.mpr hslash), writeAt, if_pos hfit, Nat.zero_add, hlen, hrest,
    List.take_zero, List.nil_append]
  show (if 0 ∈ _ then Except.ok _ else _) = _
  rw [if_pos (List.mem_append_right _ List.mem_cons_self)]
  exact congrArg Except.ok (ofMem_bytes_append _ rfl)

/-- There must be a slash, and the prefix must fit. -/
theorem completes_ipPrefixOf_iff : Completes (ipPrefixOf value) ↔ PARSER_SLASH ∈ value.bytes ∧
    value.bytes.idxOf PARSER_SLASH < FW_IP_PREFIX_MAXLEN := by
  constructor
  · rintro ⟨ipPrefix, h⟩
    unfold ipPrefixOf at h
    split at h
    · cases h
    next hslash =>
    have hslash : PARSER_SLASH ∈ value.bytes := not_not.mp hslash
    refine ⟨hslash, ?_⟩
    obtain ⟨buffer, hwrite, h⟩ := bind_eq_ok h
    split at h
    · next hnul =>
      obtain ⟨hle, rfl⟩ := writeAt_eq_ok hwrite
      have hlen : (value.take (value.bytes.idxOf PARSER_SLASH)).bytes.length =
          value.bytes.idxOf PARSER_SLASH :=
        List.length_take_of_le (List.idxOf_lt_length_iff.mpr hslash).le
      by_contra hge
      rw [List.take_zero, List.nil_append, Nat.zero_add, hlen, zeros, List.drop_replicate,
        Nat.sub_eq_zero_of_le (Nat.not_lt.mp hge), List.replicate_zero, List.append_nil] at hnul
      exact CString.noNul _ hnul
    · cases h
  · rintro ⟨hslash, hlt⟩
    exact ⟨_, ipPrefixOf_of_lt hslash hlt⟩

/-- A network that is stored fills its field, and nothing else. -/
theorem setNetworkAt_done {off : ℕ} (h : setNetworkAt off value attrs = .ok (.done attrs')) :
    networkBytes value = some (field off NETWORK_SIZE attrs') ∧
      ∀ off' n, off' + n ≤ off ∨ off + NETWORK_SIZE ≤ off' →
        field off' n attrs' = field off' n attrs := by
  obtain ⟨ipPrefix, hprefix, h⟩ := bind_eq_ok h
  obtain ⟨attrs₁, hmask, h⟩ := bind_eq_ok h
  cases haddr : inetAton ipPrefix with
  | none =>
    rw [haddr] at h
    cases h
  | some addr =>
    rw [haddr] at h
    obtain ⟨attrs₂, hword, h⟩ := bind_eq_ok h
    obtain rfl := SetResult.done.inj (Except.ok.inj h)
    constructor
    · have hmaskField : (field off NETWORK_SIZE attrs₁).drop 4 = wordBytes (netmaskOf value) := by
        rw [drop_field, field_writeAt hmask]
        exact overlay_of_length_eq (length_wordBytes _)
      have hfull : (wordBytes addr ++ wordBytes (netmaskOf value)).length = NETWORK_SIZE := by
        rw [List.length_append, length_wordBytes, length_wordBytes]
        rfl
      rw [field_writeAt hword, overlay, length_wordBytes, hmaskField,
        List.take_of_length_le hfull.le, networkBytes, hprefix]
      dsimp only
      rw [haddr, Option.map_some]
    · intro off' n hapart
      rcases hapart with hle | hge
      · rw [field_writeAt_of_le hword hle, field_writeAt_of_le hmask (by omega)]
      · have hsize : NETWORK_SIZE = 8 := rfl
        rw [field_writeAt_of_ge hword (by rw [length_wordBytes]; omega),
          field_writeAt_of_ge hmask (by rw [length_wordBytes]; omega)]

/-- What the branches can do. -/
theorem fwSet_cases {r : SetResult FwAttrs} (h : fwSet key value attrs = .ok r) :
    (key = FW_INTERFACE_DEFINE ∧
        ∃ attrs', writeAt attrs INTERFACE_OFFSET value.bytes = .ok attrs' ∧ r = .done attrs') ∨
      (key = FW_FILTER_DEFINE ∧
        ∃ attrs', writeAt attrs FILTER_OFFSET value.bytes = .ok attrs' ∧ r = .done attrs') ∨
      (key = FW_PACKET_NUM_DEFINE ∧
        ∃ attrs', writeAt attrs PCTS_NUM_OFFSET (wordBytes (pctsNum value)) = .ok attrs' ∧
          r = .done attrs') ∨
      (key = FW_UNTRUSTED_NETWORK_DEFINE ∧ setNetworkAt UNTRUSTED_OFFSET value attrs = .ok r) ∨
      (key = FW_TRUSTED_NETWORK_DEFINE ∧ setNetworkAt TRUSTED_OFFSET value attrs = .ok r) ∨
      (fwKnown key = false ∧ r = .unknown) := by
  unfold fwSet at h
  by_cases hinterface : key = FW_INTERFACE_DEFINE
  · rw [if_pos hinterface] at h
    obtain ⟨attrs', hwrite, h⟩ := bind_eq_ok h
    exact .inl ⟨hinterface, attrs', hwrite, (Except.ok.inj h).symm⟩
  rw [if_neg hinterface] at h
  by_cases hfilter : key = FW_FILTER_DEFINE
  · rw [if_pos hfilter] at h
    obtain ⟨attrs', hwrite, h⟩ := bind_eq_ok h
    exact .inr (.inl ⟨hfilter, attrs', hwrite, (Except.ok.inj h).symm⟩)
  rw [if_neg hfilter] at h
  by_cases hpcts : key = FW_PACKET_NUM_DEFINE
  · rw [if_pos hpcts] at h
    obtain ⟨attrs', hwrite, h⟩ := bind_eq_ok h
    exact .inr (.inr (.inl ⟨hpcts, attrs', hwrite, (Except.ok.inj h).symm⟩))
  rw [if_neg hpcts] at h
  by_cases huntrusted : key = FW_UNTRUSTED_NETWORK_DEFINE
  · rw [if_pos huntrusted] at h
    exact .inr (.inr (.inr (.inl ⟨huntrusted, h⟩)))
  rw [if_neg huntrusted] at h
  by_cases htrusted : key = FW_TRUSTED_NETWORK_DEFINE
  · rw [if_pos htrusted] at h
    exact .inr (.inr (.inr (.inr (.inl ⟨htrusted, h⟩))))
  · rw [if_neg htrusted] at h
    refine .inr (.inr (.inr (.inr (.inr ⟨decide_eq_false ?_, (Except.ok.inj h).symm⟩))))
    rintro (hkey | hkey | hkey | hkey | hkey)
    · exact hinterface hkey
    · exact hfilter hkey
    · exact hpcts hkey
    · exact huntrusted hkey
    · exact htrusted hkey

/-- A network line is never taken for an unknown key. -/
theorem setNetworkAt_ne_unknown {off : ℕ} : setNetworkAt off value attrs ≠ .ok .unknown := by
  intro h
  obtain ⟨ipPrefix, -, h⟩ := bind_eq_ok h
  obtain ⟨attrs₁, -, h⟩ := bind_eq_ok h
  cases haddr : inetAton ipPrefix with
  | none =>
    rw [haddr] at h
    cases h
  | some addr =>
    rw [haddr] at h
    obtain ⟨attrs₂, -, h⟩ := bind_eq_ok h
    cases h

theorem fwSet_unknown_iff (key value : CString) (attrs : FwAttrs) (r : SetResult FwAttrs)
    (h : fwSet key value attrs = .ok r) : r = .unknown ↔ fwKnown key = false := by
  obtain ⟨rfl, attrs', -, rfl⟩ | ⟨rfl, attrs', -, rfl⟩ | ⟨rfl, attrs', -, rfl⟩ | ⟨rfl, h⟩ |
    ⟨rfl, h⟩ | ⟨hkey, rfl⟩ := fwSet_cases h
  · exact iff_of_false (fun h => nomatch h) (by decide)
  · exact iff_of_false (fun h => nomatch h) (by decide)
  · exact iff_of_false (fun h => nomatch h) (by decide)
  · exact iff_of_false (fun hr => setNetworkAt_ne_unknown (hr ▸ h)) (by decide)
  · exact iff_of_false (fun hr => setNetworkAt_ne_unknown (hr ▸ h)) (by decide)
  · exact iff_of_true rfl hkey

/-! ### Which bytes a key changes -/

/-- The field of a key: its offset and its size. -/
def fieldOf (key : CString) : ℕ × ℕ :=
  if key = FW_INTERFACE_DEFINE then (INTERFACE_OFFSET, FW_MIN_BUF_SIZE)
  else if key = FW_FILTER_DEFINE then (FILTER_OFFSET, FW_MIN_BUF_SIZE)
  else if key = FW_PACKET_NUM_DEFINE then (PCTS_NUM_OFFSET, 4)
  else if key = FW_UNTRUSTED_NETWORK_DEFINE then (UNTRUSTED_OFFSET, NETWORK_SIZE)
  else (TRUSTED_OFFSET, NETWORK_SIZE)

/-- The value stays inside its field. -/
def Fits (kv : CString × CString) : Prop :=
  kv.1 = FW_INTERFACE_DEFINE ∨ kv.1 = FW_FILTER_DEFINE → kv.2.strlen ≤ FW_MIN_BUF_SIZE

/-- The field at `off` lies in front of the field of the key, or behind a value
that stays inside. -/
def Apart (off n : ℕ) (kv : CString × CString) : Prop :=
  off + n ≤ (fieldOf kv.1).1 ∨ Fits kv ∧ (fieldOf kv.1).1 + (fieldOf kv.1).2 ≤ off

theorem known_cases (h : fwKnown key = true) :
    key = FW_INTERFACE_DEFINE ∨ key = FW_FILTER_DEFINE ∨ key = FW_PACKET_NUM_DEFINE ∨
      key = FW_UNTRUSTED_NETWORK_DEFINE ∨ key = FW_TRUSTED_NETWORK_DEFINE := of_decide_eq_true h

/-- **The frame**: a key leaves the other fields alone. -/
theorem field_fwSet {off n : ℕ} (h : fwSet key value attrs = .ok (.done attrs'))
    (hapart : Apart off n (key, value)) : field off n attrs' = field off n attrs := by
  obtain ⟨rfl, attrs₁, hwrite, heq⟩ | ⟨rfl, attrs₁, hwrite, heq⟩ | ⟨rfl, attrs₁, hwrite, heq⟩ |
    ⟨rfl, hset⟩ | ⟨rfl, hset⟩ | ⟨-, heq⟩ := fwSet_cases h
  · obtain rfl := SetResult.done.inj heq
    rcases hapart with hle | ⟨hfits, hge⟩
    · exact field_writeAt_of_le hwrite hle
    · exact field_writeAt_of_ge hwrite ((Nat.add_le_add_left (hfits (.inl rfl)) _).trans hge)
  · obtain rfl := SetResult.done.inj heq
    rcases hapart with hle | ⟨hfits, hge⟩
    · exact field_writeAt_of_le hwrite hle
    · exact field_writeAt_of_ge hwrite ((Nat.add_le_add_left (hfits (.inr rfl)) _).trans hge)
  · obtain rfl := SetResult.done.inj heq
    rcases hapart with hle | ⟨-, hge⟩
    · exact field_writeAt_of_le hwrite hle
    · exact field_writeAt_of_ge hwrite (by rw [length_wordBytes]; exact hge)
  · exact (setNetworkAt_done hset).2 off n (hapart.imp id And.right)
  · exact (setNetworkAt_done hset).2 off n (hapart.imp id And.right)
  · cases heq

/-- The fields do not overlap. -/
theorem apart_of_ne {key' : CString} (hkey : fwKnown key = true) (hkey' : fwKnown key' = true)
    (hne : key' ≠ key) (hfits : Fits (key', value)) :
    Apart (fieldOf key).1 (fieldOf key).2 (key', value) := by
  have hfields : (fieldOf key).1 + (fieldOf key).2 ≤ (fieldOf key').1 ∨
      (fieldOf key').1 + (fieldOf key').2 ≤ (fieldOf key).1 := by
    obtain rfl | rfl | rfl | rfl | rfl := known_cases hkey
    all_goals
      obtain rfl | rfl | rfl | rfl | rfl := known_cases hkey'
      all_goals first
        | exact absurd rfl hne
        | decide
  exact hfields.imp id fun hge => ⟨hfits, hge⟩

/-- Nothing lies in front of the interface. -/
theorem apart_interface {key' : CString} (hkey' : fwKnown key' = true)
    (hne : key' ≠ FW_INTERFACE_DEFINE) :
    Apart INTERFACE_OFFSET FW_MIN_BUF_SIZE (key', value) := by
  have hbehind : INTERFACE_OFFSET + FW_MIN_BUF_SIZE ≤ (fieldOf key').1 := by
    obtain rfl | rfl | rfl | rfl | rfl := known_cases hkey'
    · exact absurd rfl hne
    all_goals decide
  exact .inl hbehind

/-! ### The fields after a run -/

/-- The value of a string key is copied to its field. -/
theorem field_string {off : ℕ} (hwrite : writeAt attrs off value.bytes = .ok attrs') :
    field off FW_MIN_BUF_SIZE attrs' =
      put FW_MIN_BUF_SIZE (field off FW_MIN_BUF_SIZE attrs) value := field_writeAt hwrite

theorem fwSet_interface (h : fwSet FW_INTERFACE_DEFINE value attrs = .ok (.done attrs')) :
    writeAt attrs INTERFACE_OFFSET value.bytes = .ok attrs' := by
  rw [fwSet, if_pos rfl] at h
  obtain ⟨attrs₁, hwrite, h⟩ := bind_eq_ok h
  obtain rfl := SetResult.done.inj (Except.ok.inj h)
  exact hwrite

theorem fwSet_filter (h : fwSet FW_FILTER_DEFINE value attrs = .ok (.done attrs')) :
    writeAt attrs FILTER_OFFSET value.bytes = .ok attrs' := by
  rw [fwSet, if_neg (by decide), if_pos rfl] at h
  obtain ⟨attrs₁, hwrite, h⟩ := bind_eq_ok h
  obtain rfl := SetResult.done.inj (Except.ok.inj h)
  exact hwrite

theorem fwSet_packetNum (h : fwSet FW_PACKET_NUM_DEFINE value attrs = .ok (.done attrs')) :
    field PCTS_NUM_OFFSET 4 attrs' = wordBytes (pctsNum value) := by
  rw [fwSet, if_neg (by decide), if_neg (by decide), if_pos rfl] at h
  obtain ⟨attrs₁, hwrite, h⟩ := bind_eq_ok h
  obtain rfl := SetResult.done.inj (Except.ok.inj h)
  rw [field_writeAt hwrite, overlay_of_length_eq (length_wordBytes _)]

theorem fwSet_eq_untrusted : fwSet FW_UNTRUSTED_NETWORK_DEFINE value attrs =
    setNetworkAt UNTRUSTED_OFFSET value attrs := by
  rw [fwSet, if_neg (by decide), if_neg (by decide), if_neg (by decide), if_pos rfl]

theorem fwSet_eq_trusted : fwSet FW_TRUSTED_NETWORK_DEFINE value attrs =
    setNetworkAt TRUSTED_OFFSET value attrs := by
  rw [fwSet, if_neg (by decide), if_neg (by decide), if_neg (by decide), if_neg (by decide),
    if_pos rfl]

theorem fwSet_untrusted (h : fwSet FW_UNTRUSTED_NETWORK_DEFINE value attrs = .ok (.done attrs')) :
    some (field UNTRUSTED_OFFSET NETWORK_SIZE attrs') = networkBytes value := by
  rw [fwSet_eq_untrusted] at h
  exact (setNetworkAt_done h).1.symm

theorem fwSet_trusted (h : fwSet FW_TRUSTED_NETWORK_DEFINE value attrs = .ok (.done attrs')) :
    some (field TRUSTED_OFFSET NETWORK_SIZE attrs') = networkBytes value := by
  rw [fwSet_eq_trusted] at h
  exact (setNetworkAt_done h).1.symm

section Run

variable {kvs : List (CString × CString)} (h : Sets fwSet attrs kvs attrs')

include h

/-- The field of a key is a fold over its values if the other keys leave it
alone. -/
theorem field_of_sets {β : Type} {step : β → CString → β} {off n : ℕ} (part : List UInt8 → β)
    (hkey : ∀ {value attrs attrs'}, fwSet key value attrs = .ok (.done attrs') →
      part (field off n attrs') = step (part (field off n attrs)) value)
    (hapart : ∀ kv ∈ kvs, kv.1 ≠ key → Apart off n kv) :
    part (field off n attrs') = (valuesOf key kvs).foldl step (part (field off n attrs)) :=
  h.part (fun attrs => part (field off n attrs)) (fun kv => kv.1 ≠ key → Apart off n kv) hkey
    (fun hne hapart hset => congrArg part (field_fwSet hset (hapart hne))) hapart

theorem interface_of_sets :
    field INTERFACE_OFFSET FW_MIN_BUF_SIZE attrs' =
      (valuesOf FW_INTERFACE_DEFINE kvs).foldl (put FW_MIN_BUF_SIZE)
        (field INTERFACE_OFFSET FW_MIN_BUF_SIZE attrs) :=
  field_of_sets h id (fun hset => field_string (fwSet_interface hset)) fun kv hkv hne =>
    apart_interface (h.forall_known fwSet_unknown_iff kv hkv) hne

/-- The other fields, as long as the strings in front of them fit. -/
theorem field_of_sets_of_fits {β : Type} {step : β → CString → β} {off n : ℕ}
    (part : List UInt8 → β) (key : CString) (hknown : fwKnown key = true)
    (hfield : fieldOf key = (off, n))
    (hkey : ∀ {value attrs attrs'}, fwSet key value attrs = .ok (.done attrs') →
      part (field off n attrs') = step (part (field off n attrs)) value)
    (hfits : ∀ kv ∈ kvs, kv.1 ≠ key → Fits kv) :
    part (field off n attrs') = (valuesOf key kvs).foldl step (part (field off n attrs)) := by
  refine field_of_sets h part hkey fun kv hkv hne => ?_
  have hapart := apart_of_ne hknown (h.forall_known fwSet_unknown_iff kv hkv) hne (hfits kv hkv hne)
  rw [hfield] at hapart
  exact hapart

theorem filter_of_sets (hfits : ∀ kv ∈ kvs, kv.1 ≠ FW_FILTER_DEFINE → Fits kv) :
    field FILTER_OFFSET FW_MIN_BUF_SIZE attrs' =
      (valuesOf FW_FILTER_DEFINE kvs).foldl (put FW_MIN_BUF_SIZE)
        (field FILTER_OFFSET FW_MIN_BUF_SIZE attrs) :=
  field_of_sets_of_fits h id FW_FILTER_DEFINE (by decide) (by decide)
    (fun hset => field_string (fwSet_filter hset)) hfits

section Fits

variable (hfits : ∀ kv ∈ kvs, Fits kv)

include hfits

theorem pctsNum_of_sets (hlast : (valuesOf FW_PACKET_NUM_DEFINE kvs).getLast? = some value) :
    field PCTS_NUM_OFFSET 4 attrs' = wordBytes (pctsNum value) := by
  have hfold : field PCTS_NUM_OFFSET 4 attrs' =
      (valuesOf FW_PACKET_NUM_DEFINE kvs).foldl (fun _ v => wordBytes (pctsNum v)) _ :=
    field_of_sets_of_fits h id FW_PACKET_NUM_DEFINE (by decide) (by decide) fwSet_packetNum
      fun kv hkv _ => hfits kv hkv
  exact hfold.trans (foldl_eq_of_getLast? _ hlast)

theorem untrusted_of_sets
    (hlast : (valuesOf FW_UNTRUSTED_NETWORK_DEFINE kvs).getLast? = some value) :
    some (field UNTRUSTED_OFFSET NETWORK_SIZE attrs') = networkBytes value := by
  have hfold : some (field UNTRUSTED_OFFSET NETWORK_SIZE attrs') =
      (valuesOf FW_UNTRUSTED_NETWORK_DEFINE kvs).foldl (fun _ v => networkBytes v) _ :=
    field_of_sets_of_fits h some FW_UNTRUSTED_NETWORK_DEFINE (by decide) (by decide) fwSet_untrusted
      fun kv hkv _ => hfits kv hkv
  exact hfold.trans (foldl_eq_of_getLast? _ hlast)

theorem trusted_of_sets
    (hlast : (valuesOf FW_TRUSTED_NETWORK_DEFINE kvs).getLast? = some value) :
    some (field TRUSTED_OFFSET NETWORK_SIZE attrs') = networkBytes value := by
  have hfold : some (field TRUSTED_OFFSET NETWORK_SIZE attrs') =
      (valuesOf FW_TRUSTED_NETWORK_DEFINE kvs).foldl (fun _ v => networkBytes v) _ :=
    field_of_sets_of_fits h some FW_TRUSTED_NETWORK_DEFINE (by decide) (by decide) fwSet_trusted
      fun kv hkv _ => hfits kv hkv
  exact hfold.trans (foldl_eq_of_getLast? _ hlast)

end Fits

end Run

/-! ### Which texts take effect -/

/-- Each field that was set has the last value it was given. -/
structure FwEffective (kvs : List (CString × CString)) (attrs : FwAttrs) : Prop where
  interface : ∀ v, (valuesOf FW_INTERFACE_DEFINE kvs).getLast? = some v →
    Shows (field INTERFACE_OFFSET FW_MIN_BUF_SIZE attrs) v
  filter : ∀ v, (valuesOf FW_FILTER_DEFINE kvs).getLast? = some v →
    Shows (field FILTER_OFFSET FW_MIN_BUF_SIZE attrs) v
  pctsNum : ∀ v, (valuesOf FW_PACKET_NUM_DEFINE kvs).getLast? = some v →
    field PCTS_NUM_OFFSET 4 attrs = wordBytes (pctsNum v)
  untrusted : ∀ v, (valuesOf FW_UNTRUSTED_NETWORK_DEFINE kvs).getLast? = some v →
    some (field UNTRUSTED_OFFSET NETWORK_SIZE attrs) = networkBytes v
  trusted : ∀ v, (valuesOf FW_TRUSTED_NETWORK_DEFINE kvs).getLast? = some v →
    some (field TRUSTED_OFFSET NETWORK_SIZE attrs) = networkBytes v

/-- The last value of a string leaves room for the NUL, and none was longer. -/
def LastFits (vs : List CString) : Prop :=
  ∀ v, vs.getLast? = some v → v.strlen < FW_MIN_BUF_SIZE ∧ ∀ v' ∈ vs, v'.strlen ≤ v.strlen

instance (vs : List CString) : Decidable (LastFits vs) :=
  inferInstanceAs (Decidable (∀ v ∈ vs.getLast?, _))

/-- This holds of the interface and of the filter. -/
structure FwLastFits (kvs : List (CString × CString)) : Prop where
  interface : LastFits (valuesOf FW_INTERFACE_DEFINE kvs)
  filter : LastFits (valuesOf FW_FILTER_DEFINE kvs)

instance (kvs : List (CString × CString)) : Decidable (FwLastFits kvs) :=
  decidable_of_iff
    (LastFits (valuesOf FW_INTERFACE_DEFINE kvs) ∧ LastFits (valuesOf FW_FILTER_DEFINE kvs))
    ⟨fun h => ⟨h.1, h.2⟩, fun h => ⟨h.interface, h.filter⟩⟩

/-- Values that end like this stay inside the field. -/
theorem LastFits.strlen_le {vs : List CString} (h : LastFits vs) :
    ∀ v ∈ vs, v.strlen ≤ FW_MIN_BUF_SIZE := by
  intro v hv
  obtain ⟨last, hlast⟩ := Option.isSome_iff_exists.mp
    (List.getLast?_isSome.mpr (List.ne_nil_of_mem hv))
  obtain ⟨hlt, hall⟩ := h last hlast
  exact (hall v hv).trans hlt.le

theorem fits_of_lastFits {kvs : List (CString × CString)}
    (h : LastFits (valuesOf FW_INTERFACE_DEFINE kvs)) :
    ∀ kv ∈ kvs, kv.1 ≠ FW_FILTER_DEFINE → Fits kv := by
  rintro ⟨key, value⟩ hkv hne (rfl | rfl)
  · exact h.strlen_le value (mem_valuesOf.mpr hkv)
  · exact absurd rfl hne

theorem FwLastFits.fits {kvs : List (CString × CString)} (h : FwLastFits kvs) :
    ∀ kv ∈ kvs, Fits kv := by
  rintro ⟨key, value⟩ hkv (rfl | rfl)
  · exact h.interface.strlen_le value (mem_valuesOf.mpr hkv)
  · exact h.filter.strlen_le value (mem_valuesOf.mpr hkv)

/-- The fields of a run on an empty `fw_config_attrs_t`. -/
theorem fwEffective_iff {kvs : List (CString × CString)}
    (h : Sets fwSet (zeros ATTRS_SIZE) kvs attrs) : FwEffective kvs attrs ↔ FwLastFits kvs := by
  have hinterface : ∀ {v}, (valuesOf FW_INTERFACE_DEFINE kvs).getLast? = some v →
      (Shows (field INTERFACE_OFFSET FW_MIN_BUF_SIZE attrs) v ↔ v.strlen < FW_MIN_BUF_SIZE ∧
        ∀ v' ∈ valuesOf FW_INTERFACE_DEFINE kvs, v'.strlen ≤ v.strlen) := by
    intro v hlast
    rw [interface_of_sets h, field_zeros (by decide)]
    exact shows_foldl_put_iff hlast
  have hfilter : LastFits (valuesOf FW_INTERFACE_DEFINE kvs) →
      ∀ {v}, (valuesOf FW_FILTER_DEFINE kvs).getLast? = some v →
      (Shows (field FILTER_OFFSET FW_MIN_BUF_SIZE attrs) v ↔ v.strlen < FW_MIN_BUF_SIZE ∧
        ∀ v' ∈ valuesOf FW_FILTER_DEFINE kvs, v'.strlen ≤ v.strlen) := by
    intro hlastFits v hlast
    rw [filter_of_sets h (fits_of_lastFits hlastFits), field_zeros (by decide)]
    exact shows_foldl_put_iff hlast
  constructor
  · intro heff
    have hlastFits : LastFits (valuesOf FW_INTERFACE_DEFINE kvs) :=
      fun v hv => (hinterface hv).mp (heff.interface v hv)
    exact ⟨hlastFits, fun v hv => (hfilter hlastFits hv).mp (heff.filter v hv)⟩
  · intro hlast
    exact
      { interface := fun v hv => (hinterface hv).mpr (hlast.interface v hv)
        filter := fun v hv => (hfilter hlast.interface hv).mpr (hlast.filter v hv)
        pctsNum := fun v hv => pctsNum_of_sets h hlast.fits hv
        untrusted := fun v hv => untrusted_of_sets h hlast.fits hv
        trusted := fun v hv => trusted_of_sets h hlast.fits hv }

/-- **The configuration of the firewall takes effect** exactly when no setting
stands behind a line that stops the loop, no value is found behind the NUL, and
the interface and the filter end with a value of at most 15 bytes that is no
shorter than those before. -/
theorem fw_effective_iff {text : CString} {behind : List UInt8} {r : Parsed FwAttrs}
    (h : fwParseAndSerializeConfig (some (text.bytes ++ 0 :: behind)) (zeros ATTRS_SIZE) = .ok r)
    (hsuccess : r.failure = none) :
    r.applied = settings fwKnown text ∧ FwEffective (settings fwKnown text) r.state ↔
      NoneSkipped fwKnown (textLines text) ∧ EmptyBehind fwKnown text behind ∧
        FwLastFits (settings fwKnown text) := by
  have hseen : Reads PARSER_FILE_STROKE_MAX_LEN fwSet fwKnown (linesSeen text behind)
      (zeros ATTRS_SIZE) r.applied r.state :=
    lineLoop_reads (Nat.le_refl _) fwSet_unknown_iff h hsuccess
  rw [← and_assoc, ← hseen.eq_settings_iff]
  refine and_congr_right fun happlied => ?_
  rw [← happlied]
  exact fwEffective_iff hseen.sets

end SecuritySystem.Firewall
