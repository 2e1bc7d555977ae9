/-
SecuritySystem/Firewall/ConfigFrame.lean

What one line of the configuration changes in `fw_config_attrs_t`.

A network and the number of packets are stored whole, so their lines change the
field that is named and nothing else.  The interface and the filter are copied
without a NUL and without regard to the 16 bytes of their fields: such a line is
right exactly when the memory was prepared for it, with a NUL where the value
ends, and with the value's own bytes in front of that as far as it reaches behind
the field (`lineRight_iff`).  A value that ends behind the struct, and a network
without a slash or with a prefix too long for its buffer, are faults, and no line
with a fault is right.  `eachSet_lineRight_iff` says this of all lines of a run.
-/
import SecuritySystem.ConfigScan

namespace SecuritySystem.Firewall

open CMem CMem.CString

/-! ### Lines that do what they say -/

/-- The value of the key is kept as a string. -/
def IsString (key : CString) : Prop := key = FW_INTERFACE_DEFINE ∨ key = FW_FILTER_DEFINE

/-- The value of the key is kept as a prefix and a mask. -/
def IsNetwork (key : CString) : Prop :=
  key = FW_UNTRUSTED_NETWORK_DEFINE ∨ key = FW_TRUSTED_NETWORK_DEFINE

instance : DecidablePred IsString := fun _ => inferInstanceAs (Decidable (_ ∨ _))

instance : DecidablePred IsNetwork := fun _ => inferInstanceAs (Decidable (_ ∨ _))

/-- The line has changed its own field only, and a string can be read back. -/
structure LineRight (attrs : FwAttrs) (key value : CString) (attrs' : FwAttrs) : Prop where
  frame : ∀ p, p < (fieldOf key).1 ∨ (fieldOf key).1 + (fieldOf key).2 ≤ p → attrs'[p]? = attrs[p]?
  shows : IsString key → Shows (attrs'.drop (fieldOf key).1) value

/-- The memory before the line, and the value: inside of the struct there is a NUL
where a string will end, and what of it lies behind the field is there already; a
network has a slash, and a prefix that leaves room for a NUL. -/
structure Prepared (attrs : FwAttrs) (key value : CString) : Prop where
  string : IsString key → attrs[(fieldOf key).1 + value.strlen]? = some 0 ∧
    ∀ p < value.strlen, FW_MIN_BUF_SIZE ≤ p → value.bytes[p]? = attrs[(fieldOf key).1 + p]?
  network : IsNetwork key → PARSER_SLASH ∈ value.bytes ∧
    value.bytes.idxOf PARSER_SLASH < FW_IP_PREFIX_MAXLEN

instance (attrs : FwAttrs) (key value : CString) : Decidable (Prepared attrs key value) :=
  decidable_of_iff
    ((IsString key → attrs[(fieldOf key).1 + value.strlen]? = some 0 ∧
        ∀ p < value.strlen, FW_MIN_BUF_SIZE ≤ p →
          value.bytes[p]? = attrs[(fieldOf key).1 + p]?) ∧
      (IsNetwork key → PARSER_SLASH ∈ value.bytes ∧
        value.bytes.idxOf PARSER_SLASH < FW_IP_PREFIX_MAXLEN))
    ⟨fun h => ⟨h.1, h.2⟩, fun h => ⟨h.string, h.network⟩⟩

/-- `P` holds of each line, up to one that is not accepted, and no line faults. -/
def EachSet (P : FwAttrs → CString → CString → FwAttrs → Prop) :
    FwAttrs → List (CString × CString) → Prop
  | _, [] => True
  | attrs, (key, value) :: kvs =>
    match fwSet key value attrs with
    | .ok (.done attrs') => P attrs key value attrs' ∧ EachSet P attrs' kvs
    | .ok _ => True
    | .error _ => False

/-- The memory is prepared for each line, up to one that is not accepted. -/
def EachPrepared : FwAttrs → List (CString × CString) → Prop
  | _, [] => True
  | attrs, (key, value) :: kvs => Prepared attrs key value ∧
    match fwSet key value attrs with
    | .ok (.done attrs') => EachPrepared attrs' kvs
    | _ => True

instance decidableEachPrepared :
    (attrs : FwAttrs) → (kvs : List (CString × CString)) → Decidable (EachPrepared attrs kvs)
  | _, [] => isTrue trivial
  | attrs, (key, value) :: kvs =>
    have : Decidable (match fwSet key value attrs with
        | .ok (.done attrs') => EachPrepared attrs' kvs
        | _ => True) :=
      match fwSet key value attrs with
      | .ok (.done attrs') => decidableEachPrepared attrs' kvs
      | .ok .unknown => isTrue trivial
      | .ok (.failed _ _) => isTrue trivial
      | .error _ => isTrue trivial
    inferInstanceAs (Decidable (_ ∧ _))

/-! ### One line -/

section Line

variable {attrs attrs' : FwAttrs} {key value : CString}

/-- A string line. -/
theorem lineRight_of_write (hkey : IsString key) (hnet : ¬ IsNetwork key)
    (hsize : (fieldOf key).2 = FW_MIN_BUF_SIZE)
    (hwrite : writeAt attrs (fieldOf key).1 value.bytes = .ok attrs') :
    LineRight attrs key value attrs' ↔ Prepared attrs key value := by
  generalize hoff : (fieldOf key).1 = off at hwrite
  have hlen : value.bytes.length = value.strlen := rfl
  have hbyte := getElem?_writeAt hwrite
  rw [hlen] at hbyte
  -- the byte behind the value is the old one
  have hend : attrs'[off + value.strlen]? = attrs[off + value.strlen]? := by
    rw [hbyte, if_neg (fun h => Nat.lt_irrefl _ h.2)]
  have hshows : Shows (attrs'.drop off) value ↔ attrs[off + value.strlen]? = some 0 := by
    obtain ⟨hle, rfl⟩ := writeAt_eq_ok hwrite
    have hfront : (attrs.take off).length = off := List.length_take_of_le (by omega)
    rw [shows_iff, List.getElem?_drop, hend, List.drop_left' hfront]
    exact and_iff_right (List.prefix_append _ _)
  -- outside of the field only the end of a long value is written
  have hframe : (∀ p, p < off ∨ off + FW_MIN_BUF_SIZE ≤ p → attrs'[p]? = attrs[p]?) ↔
      ∀ p < value.strlen, FW_MIN_BUF_SIZE ≤ p → value.bytes[p]? = attrs[off + p]? := by
    constructor
    · intro h p hp hge
      rw [← h (off + p) (.inr (by omega)), hbyte, if_pos (by omega), Nat.add_sub_cancel_left]
    · rintro h p (hlt | hge)
      · rw [hbyte, if_neg (by omega)]
      · obtain ⟨k, rfl⟩ := Nat.exists_eq_add_of_le ((Nat.le_add_right _ _).trans hge)
        rw [hbyte]
        by_cases hk : k < value.strlen
        · rw [if_pos (by omega), Nat.add_sub_cancel_left]
          exact h k hk (by omega)
        · rw [if_neg (by omega)]
  constructor
  · rintro ⟨hother, hshown⟩
    refine ⟨fun _ => ?_, fun h => absurd h hnet⟩
    rw [hoff, hsize] at hother
    rw [hoff] at hshown ⊢
    exact ⟨hshows.mp (hshown hkey), hframe.mp hother⟩
  · intro h
    obtain ⟨hnul, hbehind⟩ := h.string hkey
    rw [hoff] at hnul hbehind
    refine ⟨?_, fun _ => ?_⟩
    · rw [hoff, hsize]
      exact hframe.mpr hbehind
    · rw [hoff]
      exact hshows.mpr hnul

/-- The other lines are right if they are stored. -/
theorem lineRight_of_frame (hkey : ¬ IsString key)
    (hframe : ∀ p, p < (fieldOf key).1 ∨ (fieldOf key).1 + (fieldOf key).2 ≤ p →
      attrs'[p]? = attrs[p]?)
    (hnet : IsNetwork key → PARSER_SLASH ∈ value.bytes ∧
      value.bytes.idxOf PARSER_SLASH < FW_IP_PREFIX_MAXLEN) :
    LineRight attrs key value attrs' ↔ Prepared attrs key value :=
  iff_of_true ⟨hframe, fun h => absurd h hkey⟩ ⟨fun h => absurd h hkey, hnet⟩

/-- A network that does not fault. -/
theorem room_of_setNetworkAt {off : ℕ} {r : SetResult FwAttrs}
    (h : setNetworkAt off value attrs = .ok r) :
    PARSER_SLASH ∈ value.bytes ∧ value.bytes.idxOf PARSER_SLASH < FW_IP_PREFIX_MAXLEN := by
  obtain ⟨ipPrefix, hread, -⟩ := bind_eq_ok h
  exact completes_ipPrefixOf_iff.mp ⟨ipPrefix, hread⟩

/-- A stored network changes no byte outside of its field. -/
theorem frame_of_setNetworkAt {off p : ℕ} (h : setNetworkAt off value attrs = .ok (.done attrs'))
    (hp : p < off ∨ off + NETWORK_SIZE ≤ p) : attrs'[p]? = attrs[p]? := by
  have hbyte : ∀ mem : List UInt8, (field p 1 mem)[0]? = mem[p]? := by
    intro mem
    rw [field, List.getElem?_take_of_lt Nat.one_pos, List.getElem?_drop, Nat.add_zero]
  have hfield := (setNetworkAt_done h).2 p 1 (hp.imp Nat.succ_le_of_lt id)
  rw [← hbyte attrs', ← hbyte attrs, hfield]

/-- **When a line is right**: exactly when the memory was prepared for it. -/
theorem lineRight_iff (h : fwSet key value attrs = .ok (.done attrs')) :
    LineRight attrs key value attrs' ↔ Prepared attrs key value := by
  obtain ⟨rfl, attrs₁, hwrite, heq⟩ | ⟨rfl, attrs₁, hwrite, heq⟩ | ⟨rfl, attrs₁, hwrite, heq⟩ |
    ⟨rfl, hset⟩ | ⟨rfl, hset⟩ | ⟨-, heq⟩ := fwSet_cases h
  · obtain rfl := SetResult.done.inj heq
    exact lineRight_of_write (.inl rfl) (by decide) (by decide) hwrite
  · obtain rfl := SetResult.done.inj heq
    exact lineRight_of_write (.inr rfl) (by decide) (by decide) hwrite
  · obtain rfl := SetResult.done.inj heq
    refine lineRight_of_frame (by decide) (fun p hp => ?_) fun h => absurd h (by decide)
    have hfield : fieldOf FW_PACKET_NUM_DEFINE = (PCTS_NUM_OFFSET, 4) := by decide
    rw [hfield] at hp
    rw [getElem?_writeAt hwrite, length_wordBytes, if_neg (by omega)]
  · exact lineRight_of_frame (by decide) (fun p hp => frame_of_setNetworkAt hset hp) fun _ =>
      room_of_setNetworkAt hset
  · exact lineRight_of_frame (by decide) (fun p hp => frame_of_setNetworkAt hset hp) fun _ =>
      room_of_setNetworkAt hset
  · cases heq

/-- A line that is not stored, and does not fault. -/
theorem prepared_of_ok {r : SetResult FwAttrs} (h : fwSet key value attrs = .ok r)
    (hdone : ∀ attrs', r ≠ .done attrs') : Prepared attrs key value := by
  obtain ⟨-, attrs₁, -, heq⟩ | ⟨-, attrs₁, -, heq⟩ | ⟨-, attrs₁, -, heq⟩ | ⟨rfl, hset⟩ |
    ⟨rfl, hset⟩ | ⟨hkey, -⟩ := fwSet_cases h
  · exact absurd heq (hdone attrs₁)
  · exact absurd heq (hdone attrs₁)
  · exact absurd heq (hdone attrs₁)
  · exact ⟨fun h => absurd h (by decide), fun _ => room_of_setNetworkAt hset⟩
  · exact ⟨fun h => absurd h (by decide), fun _ => room_of_setNetworkAt hset⟩
  · have hnot : ∀ key', fwKnown key' = true → key ≠ key' := by
      rintro key' hkey' rfl
      exact Bool.noConfusion (hkey.symm.trans hkey')
    exact ⟨fun h => h.elim (fun he => absurd he (hnot _ (by decide)))
        fun he => absurd he (hnot _ (by decide)),
      fun h => h.elim (fun he => absurd he (hnot _ (by decide)))
        fun he => absurd he (hnot _ (by decide))⟩

/-- In a whole struct, a line that faults was not prepared. -/
theorem not_prepared_of_error {e : Fault} (hattrs : Whole attrs)
    (h : fwSet key value attrs = .error e) : ¬ Prepared attrs key value := by
  intro hprepared
  have hset := assignmentIs_fwSet key value attrs hattrs
  rw [h] at hset
  -- only a faulty line ends so
  have hkind : fwSetKind key value = .faulty := by
    rcases hkind : fwSetKind key value with - | - | -
    · rw [hkind] at hset
      obtain ⟨attrs', he, -⟩ := hset
      cases he
    · rw [hkind] at hset
      rcases hset with he | ⟨why, attrs', he⟩
      · cases he
      · cases he
    · rfl
  have hstring : ∀ off, IsString key → (fieldOf key).1 = off → stringKind off value ≠ .faulty := by
    rintro off hkey rfl
    obtain ⟨hlt, -⟩ := List.getElem?_eq_some_iff.mp (hprepared.string hkey).1
    rw [stringKind, if_pos (hattrs ▸ hlt.le)]
    exact fun h => nomatch h
  unfold fwSetKind at hkind
  split at hkind
  · next hkey => exact hstring _ (.inl hkey) (by rw [hkey]; rfl) hkind
  split at hkind
  · next hkey => exact hstring _ (.inr hkey) (by rw [hkey]; rfl) hkind
  split at hkind
  · cases hkind
  split at hkind
  · next hkey =>
    rw [networkKind, if_pos (hprepared.network hkey)] at hkind
    split at hkind <;> cases hkind
  · cases hkind

/-- A stored line leaves the struct whole. -/
theorem whole_fwSet (hattrs : Whole attrs) (h : fwSet key value attrs = .ok (.done attrs')) :
    Whole attrs' := by
  have hset := assignmentIs_fwSet key value attrs hattrs
  rw [h] at hset
  rcases hkind : fwSetKind key value with - | - | -
  · rw [hkind] at hset
    obtain ⟨attrs₁, he, hwhole⟩ := hset
    obtain rfl := SetResult.done.inj (Except.ok.inj he)
    exact hwhole
  · rw [hkind] at hset
    rcases hset with he | ⟨why, attrs₁, he⟩
    · cases he
    · cases he
  · rw [hkind] at hset
    exact absurd ⟨_, rfl⟩ hset

end Line

/-! ### All lines -/

/-- **When every line is right**, in every order and from every content of
`fw_config_attrs_t`: exactly when the memory is prepared for each of them. -/
theorem eachSet_lineRight_iff (attrs : FwAttrs) (kvs : List (CString × CString))
    (hattrs : attrs.length = ATTRS_SIZE) :
    EachSet LineRight attrs kvs ↔ EachPrepared attrs kvs := by
  induction kvs generalizing attrs with
  | nil => exact Iff.rfl
  | cons kv kvs ih =>
    obtain ⟨key, value⟩ := kv
    unfold EachSet EachPrepared
    rcases hset : fwSet key value attrs with e | r
    · exact iff_of_false id fun h => not_prepared_of_error hattrs hset h.1
    · rcases r with attrs' | - | ⟨why, attrs'⟩
      · exact and_congr (lineRight_iff hset) (ih attrs' (whole_fwSet hattrs hset))
      · exact iff_of_true trivial ⟨prepared_of_ok hset (fun _ h => nomatch h), trivial⟩
      · exact iff_of_true trivial ⟨prepared_of_ok hset (fun _ h => nomatch h), trivial⟩

/-- The shipped settings, and the interface once more. -/
theorem eachSet_lineRight_shipped :
    EachSet LineRight (zeros ATTRS_SIZE)
      [(FW_INTERFACE_DEFINE, lit "eno1"), (FW_FILTER_DEFINE, lit "ip"),
        (FW_PACKET_NUM_DEFINE, lit "10"), (FW_UNTRUSTED_NETWORK_DEFINE, lit "192.168.0.0/24"),
        (FW_INTERFACE_DEFINE, lit "wlan0")] :=
  (eachSet_lineRight_iff _ _ (by decide)).mpr (by decide +kernel)

/-- A filter of 24 characters, in a `fw_config_attrs_t` of zeros. -/
def longFilter : CString := lit "host 192.168.0.1 and tcp"

/-- It reaches into the untrusted network. -/
theorem not_eachSet_lineRight_filter :
    ¬ ∀ (attrs : FwAttrs) (kvs : List (CString × CString)), attrs.length = ATTRS_SIZE →
      (∀ kv ∈ kvs, fwKnown kv.1 = true ∧ kv.2.strlen ≤ PARSER_FILE_STROKE_MAX_LEN) →
      EachSet LineRight attrs kvs := by
  intro h
  have hall := h (zeros ATTRS_SIZE) [(FW_FILTER_DEFINE, longFilter)] (by decide) (by decide)
  have hset : fwSet FW_FILTER_DEFINE longFilter (zeros ATTRS_SIZE) =
      .ok (.done (zeros 16 ++ (longFilter.bytes ++ zeros 12))) := rfl
  rw [EachSet, hset] at hall
  exact absurd ((lineRight_iff hset).mp hall.1) (by decide)

end SecuritySystem.Firewall
