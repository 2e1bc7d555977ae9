/-
SecuritySystem/HashTableMemory.lean

Where the hash table reads: the string it is given, its slots, and the blocks
of its items.

The loop of the key steps on before it reads, and still stays within the string
and its terminator.  The key it makes is reduced modulo `HASH_KEY_MAX_LEN` for
tables of every size, so it is an index of the smaller ones only by chance
(`slotInside_iff`).  And the block of an item is as long as its string, with
no byte for the terminator, so no stored item can be read as a string
(`blocksRead_iff`).
-/
import SecuritySystem.HashTableSafety
import SecuritySystem.Lib.StringField

namespace SecuritySystem

open CMem

variable {t t₀ : HashTable} {l : List Addr} {v : CString}
variable {size : ℤ} {junk : BitVec 32} {calls : List (CString × Beyond)}

/-! ### The loop of the key -/

/-- `while (*str++) hash += *str;` on an object, from offset `p` on: the sum,
and the offsets read. -/
def keyLoop : List UInt8 → ℕ → UInt32 → Except Fault (UInt32 × List ℕ)
  | [], _, _ => .error .outOfBounds
  | c :: rest, p, hash =>
    if c = 0 then .ok (hash, [p])
    else
      match rest with
      | [] => .error .outOfBounds
      | d :: _ =>
        (keyLoop rest (p + 1) (hash + charToHash d)).map fun r => (r.1, p :: (p + 1) :: r.2)

/-- `__hash_key_generator` on an object. -/
def hashKeyIn (str : List UInt8) : Except Fault (UInt32 × List ℕ) :=
  (keyLoop str 0 0).map fun r => (r.1 % HASH_KEY_MAX_LEN, r.2)

theorem keyLoop_string {bs : List UInt8} (hbs : 0 ∉ bs) (behind : List UInt8) (p : ℕ)
    (hash : UInt32) : ∃ reads, keyLoop (bs ++ 0 :: behind) p hash = .ok (hashLoop bs hash, reads) ∧
      ∀ i ∈ reads, i ≤ p + bs.length := by
  induction bs generalizing p hash with
  | nil =>
    refine ⟨[p], rfl, fun i hi => ?_⟩
    rw [List.mem_singleton.mp hi]
    exact Nat.le_add_right _ _
  | cons c bs ih =>
    obtain ⟨hc, hbs⟩ := not_or.mp fun h => hbs (List.mem_cons.mpr h)
    obtain ⟨reads, he, hreads⟩ := ih hbs (p + 1) (hash + charToHash (bs.headD 0))
    refine ⟨p :: (p + 1) :: reads, ?_, fun i hi => ?_⟩
    · -- the character behind is the next one, or the terminator
      have hnext : ∃ rest, bs ++ 0 :: behind = bs.headD 0 :: rest := by
        cases bs with
        | nil => exact ⟨behind, rfl⟩
        | cons d bs => exact ⟨bs ++ 0 :: behind, rfl⟩
      obtain ⟨rest, hrest⟩ := hnext
      rw [List.cons_append, hrest, keyLoop, if_neg fun h => hc h.symm, ← hrest, he, hashLoop]
      rfl
    · rw [List.length_cons]
      rcases List.mem_cons.mp hi with rfl | hi
      · omega
      · rcases List.mem_cons.mp hi with rfl | hi
        · omega
        · have hle := hreads i hi
          omega

/-- **The key**: nothing behind the terminator is read. -/
theorem hashKeyIn_string (v : CString) (behind : List UInt8) :
    ∃ reads, hashKeyIn (v.bytes ++ 0 :: behind) = .ok (hashKeyGenerator v, reads) ∧
      ∀ i ∈ reads, i ≤ v.strlen := by
  obtain ⟨reads, he, hreads⟩ := keyLoop_string v.noNul behind 0 0
  refine ⟨reads, by rw [hashKeyIn, he]; rfl, fun i hi => ?_⟩
  have hle := hreads i hi
  rwa [Nat.zero_add] at hle

/-! ### The slots -/

/-- An insert of `v` and a look-up by the value `v` index the table inside its
bounds, and the key is made of `v` up to its terminator. -/
structure SlotInside (t : HashTable) (v : CString) : Prop where
  insert : ∀ b, Completes (hashTableInsertItem b t v)
  search : Completes (hashTableSearchItem t 0 (some v))
  key : ∀ behind, ∃ reads, hashKeyIn (v.bytes ++ 0 :: behind) = .ok (hashKeyGenerator v, reads) ∧
    ∀ i ∈ reads, i ≤ v.strlen

theorem Chained.slotInside_iff_lt (h : Chained t l) (v : CString) :
    SlotInside t v ↔ (hashKeyGenerator v).toNat < t.size := by
  have hsearch : hashTableSearchItem t 0 (some v) = t.slotAt (hashKeyGenerator v).toNat := rfl
  constructor
  · rintro ⟨-, ⟨r, hr⟩, -⟩
    by_contra hge
    rw [hsearch, HashTable.slotAt_of_ge (Nat.le_of_not_lt hge)] at hr
    cases hr
  · intro hlt
    refine ⟨fun b => ?_, ⟨_, hsearch.trans (HashTable.slotAt_of_lt hlt)⟩, hashKeyIn_string v⟩
    have ho := hashTableInsertItem_cases h b v
    generalize hashTableInsertItem b t v = r at ho
    cases ho with
    | refused t' => exact ⟨_, rfl⟩
    | outside _ _ hge => exact absurd hlt (Nat.not_lt.mpr hge)
    | taken t' => exact ⟨_, rfl⟩
    | added t' => exact ⟨_, rfl⟩

/-- **Exactly when the index lies inside**, for every reachable table of any
size. -/
theorem slotInside_iff (h : Reachable size junk t) (v : CString) :
    SlotInside t v ↔ (hashKeyGenerator v).toNat < size.toNat := by
  obtain ⟨l, hl, hc⟩ := h.chained
  rw [hl.slotInside_iff_lt, hc.size]

/-- In a table of the largest size it always does. -/
theorem slotInside_largest (h : Reachable HASH_TABLE_MAX junk t) (v : CString) :
    SlotInside t v := by
  obtain ⟨l, hl, hc⟩ := h.chained
  exact (hl.slotInside_iff_lt v).mpr (hc.size.symm ▸ hashKeyGenerator_lt v)

theorem slotInside_iff_biba :
    ∃ t, t.strings = [biba] ∧ (SlotInside t babi ↔
      (hashKeyGenerator babi).toNat < HASH_TABLE_MAX.toNat) := by
  obtain ⟨t, ht, hs⟩ := reachable_biba ⟨[], []⟩
  exact ⟨t, hs, slotInside_iff ht babi⟩

/-- In a table of one slot, "biba" has the index 300. -/
theorem not_slotInside_one :
    ¬ ∀ (size : ℤ) (junk : BitVec 32) (t : HashTable) (v : CString), Reachable size junk t →
      SlotInside t v := by
  intro hall
  obtain ⟨t₀, hcreate⟩ : ∃ t₀, hashTableCreate 1 0 = some t₀ := ⟨_, if_neg (by decide)⟩
  have hinside := hall 1 0 t₀ biba ⟨t₀, [], hcreate, rfl⟩
  have hlt := ((hashTableCreate_chained hcreate).slotInside_iff_lt biba).mp hinside
  rw [(hashTableCreate_counted hcreate).size] at hlt
  exact absurd hlt (by decide)

/-! ### The blocks -/

/-- The block that `__hash_item_create` makes for a string: `malloc` and
`memset` of `value_len` bytes, and `strncpy` of as many. -/
def valueBlock (value : CString) : List UInt8 := put value.strlen (zeros value.strlen) value

/-- It is the string, and nothing behind it. -/
theorem valueBlock_eq (v : CString) : valueBlock v = v.bytes := overlay_of_length_eq rfl

/-- The block of each stored item is that of one of the strings inserted; it
holds the string with its terminator, and a read of it as a string stays inside
and gives that string. -/
def BlocksRead (inserted : List CString) (t : HashTable) : Prop :=
  ∀ a ∈ t.chain, ∃ v ∈ inserted, t.blockOf a = valueBlock v ∧ Shows (t.blockOf a) v ∧
    readIn (t.blockOf a) = .ok v.bytes

/-- Whatever is stored, a read of its block leaves the block. -/
theorem Chained.readIn_blockOf (h : Chained t l) {a : Addr} (ha : a ∈ l) :
    readIn (t.blockOf a) = .error .outOfBounds := by
  obtain ⟨v, hv, -⟩ := h.stored a ha
  rw [hv.blockOf_eq]
  exact readIn_of_not_mem v.noNul

theorem Chained.blocksRead_iff_nil (h : Chained t l) (inserted : List CString) :
    BlocksRead inserted t ↔ t.strings = [] := by
  rw [BlocksRead, h.chain_eq, ← List.length_eq_zero_iff, h.length_strings,
    List.length_eq_zero_iff]
  constructor
  · intro hread
    apply List.eq_nil_iff_forall_not_mem.mpr
    intro a ha
    obtain ⟨v, -, -, -, hok⟩ := hread a ha
    rw [h.readIn_blockOf ha] at hok
    cases hok
  · rintro rfl a ha
    cases ha

/-- **Exactly when the blocks can be read**, for every run of inserts: when it
has stored nothing. -/
theorem blocksRead_iff (hcreate : hashTableCreate size junk = some t₀)
    (hrun : insertAll t₀ calls = .ok t) :
    BlocksRead (calls.map Prod.fst) t ↔
      junk = BitVec.ofNat 32 size.toNat ∨ ∀ v ∈ calls.map Prod.fst, ¬ Storable v := by
  have h₀ := hashTableCreate_chained hcreate
  have hc₀ := hashTableCreate_counted hcreate
  obtain ⟨l, hl, -⟩ := insertAll_counted h₀ hc₀ hrun
  have hnil : t₀.strings = [] := List.length_eq_zero_iff.mp h₀.length_strings
  rw [hl.blocksRead_iff_nil, insertAll_strings h₀ hc₀ hrun, hnil, FirstCome.addAll_eq_nil_iff]
  simp [policy]

/-- "biba" alone: its block has four bytes, and the terminator would be the
fifth. -/
theorem blocksRead_iff_biba :
    ∃ t, t.strings = [biba] ∧ (BlocksRead [biba] t ↔
      (0 : BitVec 32) = BitVec.ofNat 32 HASH_TABLE_MAX.toNat ∨ ∀ v ∈ [biba], ¬ Storable v) := by
  obtain ⟨t₀, t, hcreate, hrun, -, hs⟩ := insertAll_created 0 [(biba, ⟨[], []⟩)]
  refine ⟨t, hs.trans ?_, blocksRead_iff hcreate hrun⟩
  show (policy 10000 0).addAll [] [biba] = [biba]
  decide

theorem not_blocksRead_biba :
    ¬ ∀ (size : ℤ) (junk : BitVec 32) (t₀ t : HashTable) (calls : List (CString × Beyond)),
      (∀ v ∈ calls.map Prod.fst, v.strlen ≤ HASH_ITEM_MAX_SIZE_STR) →
      hashTableCreate size junk = some t₀ → insertAll t₀ calls = .ok t →
      BlocksRead (calls.map Prod.fst) t := by
  intro hall
  obtain ⟨t₀, t, hcreate, hrun, ⟨l, hl, -⟩, hs⟩ := insertAll_created 0 [(biba, ⟨[], []⟩)]
  have hnil := (hl.blocksRead_iff_nil _).mp (hall _ 0 t₀ t _ (by decide) hcreate hrun)
  rw [hs] at hnil
  have hstored : (policy 10000 0).addAll [] [biba] = [biba] := by decide
  exact absurd (hstored.symm.trans hnil) (by decide)

end SecuritySystem
