/-
SecuritySystem/HashTableRun.lean

Runs of inserts on a hash table.

`Reachable size junk t` says that some run of inserts on a table of the given
size, whose `count` was created with the value `junk`, ends in `t`.  The step
lemma `InsertOutcome.chained` and its run lemma `Reachable.chained` give every
reachable table its list.

Seen from outside, a table is a first-come store of strings: `policy` is its
policy, and `hashTableInsertItem_strings` says that an insert is an addition to
that store.

The program makes tables of the largest size only.  There every key is an
index, so no insert faults, and runs of inserts go through (`InOrder.insertAll`).
-/
import SecuritySystem.HashTableInv
import SecuritySystem.Lib.FirstCome

namespace SecuritySystem

open CMem Linked

variable {t t' : HashTable} {l : List Addr} {u v : CString} {b : Beyond}
variable {size : ℤ} {junk : BitVec 32}

/-! ### Stored strings -/

namespace Chained

/-- The stored strings are the strings of the items of the list. -/
theorem mem_strings (h : Chained t l) : v ∈ t.strings ↔ ∃ a ∈ l, t.Stores a v := by
  rw [HashTable.strings, h.chain_eq, List.mem_filterMap]
  refine exists_congr fun a => and_congr_right fun ha => ?_
  obtain ⟨u, hu, -⟩ := h.stored a ha
  have hc : t.contents a = some (hashKeyGenerator u, u.bytes) := hu
  simp only [hc, Option.map_some, CString.ofMem_bytes, Option.some.injEq]
  exact ⟨fun he => he ▸ hu, fun hv => hu.unique hv⟩

/-- A stored string is storable, and its item is in its slot. -/
theorem of_mem_strings (h : Chained t l) (hv : v ∈ t.strings) :
    Storable v ∧ (hashKeyGenerator v).toNat < t.size ∧
      ∃ a, t.Stores a v ∧ t.table (hashKeyGenerator v).toNat = some a := by
  obtain ⟨a, ha, hav⟩ := h.mem_strings.mp hv
  obtain ⟨u, hu, hok, hlt⟩ := h.stored a ha
  obtain rfl := hav.unique hu
  exact ⟨hok, hlt, a, hav, h.table_key ha hav⟩

theorem mem_strings_of_table (h : Chained t l) {k : ℕ} {a : Addr} (hk : t.table k = some a)
    (hu : t.Stores a u) : u ∈ t.strings :=
  h.mem_strings.mpr ⟨a, h.mem_of_table hk, hu⟩

/-- The slot of a key is empty exactly when no stored string has that key. -/
theorem table_eq_none (h : Chained t l) :
    t.table (hashKeyGenerator v).toNat = none ↔
      ∀ u ∈ t.strings, hashKeyGenerator u ≠ hashKeyGenerator v := by
  constructor
  · intro hn u hu hk
    obtain ⟨-, -, a, -, ha⟩ := h.of_mem_strings hu
    rw [hk, hn] at ha
    cases ha
  · intro hall
    rcases hs : t.table (hashKeyGenerator v).toNat with - | a
    · rfl
    · obtain ⟨u, hu, hk, -⟩ := h.stores_of_table hs
      exact absurd (UInt32.toNat_inj.mp hk) (hall u (h.mem_strings_of_table hs hu))

theorem length_strings (h : Chained t l) : t.strings.length = l.length := by
  have hsome : ∀ a ∈ l, ((t.contents a).map fun c => CString.ofMem c.2).isSome := by
    intro a ha
    obtain ⟨u, hu, -⟩ := h.stored a ha
    have hc : t.contents a = some (hashKeyGenerator u, u.bytes) := hu
    simp [hc]
  rw [HashTable.strings, h.chain_eq, List.length_filterMap_eq_countP, List.countP_eq_length]
  exact hsome

end Chained

/-- The bytes of the block of an item. -/
def HashTable.blockOf (t : HashTable) (a : Addr) : List UInt8 :=
  ((t.items a).map HashItem.value).getD []

theorem HashTable.Stores.blockOf_eq {a : Addr} (h : t.Stores a v) : t.blockOf a = v.bytes := by
  obtain ⟨it, hit, hc⟩ := Option.map_eq_some_iff.mp h
  rw [HashTable.blockOf, hit]
  exact (Prod.mk.inj hc).2

theorem Chained.strings_eq (h : Chained t l) :
    t.strings = l.map fun a => CString.ofMem (t.blockOf a) := by
  rw [HashTable.strings, h.chain_eq, ← List.filterMap_eq_map]
  apply List.filterMap_congr
  intro a ha
  obtain ⟨v, hv, -⟩ := h.stored a ha
  have hc : t.contents a = some (hashKeyGenerator v, v.bytes) := hv
  rw [hc, Function.comp_apply, hv.blockOf_eq]
  rfl

/-- The view of a table includes its strings. -/
theorem HashTable.SameView.strings (hv : t.SameView t') (h : Chained t l) :
    t'.strings = t.strings := by
  rw [HashTable.strings, HashTable.strings, (h.congr hv).chain_eq, h.chain_eq]
  apply List.filterMap_congr
  intro a ha
  rw [hv.contents (h.below a ha)]

/-- A pushed item puts its string in front. -/
theorem Pushed.strings (hp : Pushed t t' v) (h : Chained t l) (h' : Chained t' (t.brk :: l)) :
    t'.strings = v :: t.strings := by
  have hc : t'.contents t.brk = some (hashKeyGenerator v, v.bytes) := hp.stores
  rw [HashTable.strings, HashTable.strings, h'.chain_eq, h.chain_eq, List.filterMap_cons, hc]
  simp only [Option.map_some, CString.ofMem_bytes]
  congr 1
  apply List.filterMap_congr
  intro a ha
  rw [hp.contents (h.below a ha)]

/-! ### Steps and runs -/

/-- The table that an insert leaves has its list again: the old one, or the
old one with the fresh item in front. -/
theorem InsertOutcome.chained {rc : UInt32} (h : Chained t l)
    (ho : InsertOutcome b t v (.ok (rc, t'))) :
    (Chained t' l ∧ t.SameView t') ∨ (Chained t' (t.brk :: l) ∧ Pushed t t' v) := by
  cases ho with
  | refused _ _ hv => exact .inl ⟨h.congr hv, hv⟩
  | taken _ _ _ _ _ _ _ _ hv => exact .inl ⟨h.congr hv, hv⟩
  | added _ _ hok hlt hfree hp => exact .inr ⟨hp.chained h hok hlt hfree, hp⟩

/-- The table of an insert that went through. -/
theorem hashTableInsertItem_ok {rc : UInt32} (h : Chained t l)
    (he : hashTableInsertItem b t v = .ok (rc, t')) :
    (Chained t' l ∧ t.SameView t') ∨ (Chained t' (t.brk :: l) ∧ Pushed t t' v) :=
  (he ▸ hashTableInsertItem_cases h b v : InsertOutcome b t v (.ok (rc, t'))).chained h

/-- `t` has the size of the table and as many items as `count` has moved from
its first value. -/
structure Counted (size : ℕ) (junk : BitVec 32) (t : HashTable) (l : List Addr) : Prop where
  size : t.size = size
  count : t.count = junk + BitVec.ofNat 32 l.length

theorem Counted.step {n : ℕ} {rc : UInt32} (hc : Counted n junk t l) (h : Chained t l)
    (he : hashTableInsertItem b t v = .ok (rc, t')) :
    ∃ l', Chained t' l' ∧ Counted n junk t' l' := by
  rcases hashTableInsertItem_ok h he with ⟨h', hv⟩ | ⟨h', hp⟩
  · exact ⟨l, h', hv.size.trans hc.size, hv.count.trans hc.count⟩
  · refine ⟨_, h', hp.size.trans hc.size, ?_⟩
    rw [hp.count, hc.count, List.length_cons, BitVec.ofNat_add, BitVec.add_assoc]
    rfl

theorem insertAll_counted {n : ℕ} {calls : List (CString × Beyond)} (h : Chained t l)
    (hc : Counted n junk t l) (he : insertAll t calls = .ok t') :
    ∃ l', Chained t' l' ∧ Counted n junk t' l' := by
  induction calls generalizing t l with
  | nil =>
    obtain rfl : t = t' := Except.ok.inj he
    exact ⟨l, h, hc⟩
  | cons call calls ih =>
    obtain ⟨v, b⟩ := call
    rcases hi : hashTableInsertItem b t v with f | ⟨rc, t₁⟩
    · simp only [insertAll, hi, bind, Except.bind] at he
      cases he
    · simp only [insertAll, hi, bind, Except.bind] at he
      obtain ⟨l₁, h₁, hc₁⟩ := hc.step h hi
      exact ih h₁ hc₁ he

/-- The tables that runs of inserts lead to. -/
def Reachable (size : ℤ) (junk : BitVec 32) (t : HashTable) : Prop :=
  ∃ t₀ calls, hashTableCreate size junk = some t₀ ∧ insertAll t₀ calls = .ok t

theorem hashTableCreate_counted {t₀ : HashTable} (h : hashTableCreate size junk = some t₀) :
    Counted size.toNat junk t₀ [] := by
  unfold hashTableCreate at h
  split at h
  · cases h
  · obtain rfl := Option.some.inj h
    exact ⟨rfl, by simp⟩

/-- Every reachable table has its list. -/
theorem Reachable.chained (h : Reachable size junk t) :
    ∃ l, Chained t l ∧ Counted size.toNat junk t l := by
  obtain ⟨t₀, calls, hcreate, hrun⟩ := h
  exact insertAll_counted (hashTableCreate_chained hcreate) (hashTableCreate_counted hcreate) hrun

/-! ### The table as a first-come store -/

/-- The policy of a table: one string per key, only storable strings, and
no room once the counter equals the size. -/
def policy (size : ℕ) (junk : BitVec 32) : FirstCome.Policy CString UInt32 where
  key := hashKeyGenerator
  ok := fun v => decide (Storable v)
  room := fun n => decide (junk + BitVec.ofNat 32 n ≠ BitVec.ofNat 32 size)

/-- **Refinement**: on the stored strings an insert is an addition to the
first-come store. -/
theorem hashTableInsertItem_strings {n : ℕ} {rc : UInt32} (h : Chained t l)
    (hc : Counted n junk t l) (he : hashTableInsertItem b t v = .ok (rc, t')) :
    t'.strings = (policy n junk).add t.strings v := by
  have hroom : (policy n junk).room t.strings.length =
      decide (t.count ≠ BitVec.ofNat 32 t.size) := by
    rw [policy, h.length_strings, hc.count, hc.size]
  have hfree : (policy n junk).free t.strings v = true ↔
      t.table (hashKeyGenerator v).toNat = none := by
    rw [FirstCome.free_iff, h.table_eq_none]
    rfl
  have ho := hashTableInsertItem_cases h b v
  rw [he] at ho
  cases ho with
  | refused _ hr hv =>
    rw [hv.strings h]
    rcases hr with hfull | hok
    · exact (FirstCome.add_of_full (by simp [hroom, hfull]) v).symm
    · simp [FirstCome.Policy.add, policy, hok]
  | taken _ a w hfull hok hs hu hk hv =>
    have hne : ¬ (policy n junk).free t.strings v = true := fun hf => by
      rw [hfree.mp hf] at hs
      cases hs
    rw [hv.strings h, FirstCome.Policy.add, if_neg (by simp [hne])]
  | added _ hfull hok hlt hs hp =>
    have hok' : (policy n junk).ok v = true := by simp [policy, hok]
    rw [hp.strings h (hp.chained h hok hlt hs), FirstCome.Policy.add,
      if_pos (by simp [hroom, hfull, hok', hfree.mpr hs])]

/-- A run of inserts that goes through adds its strings. -/
theorem insertAll_strings {n : ℕ} {calls : List (CString × Beyond)} (h : Chained t l)
    (hc : Counted n junk t l) (he : insertAll t calls = .ok t') :
    t'.strings = (policy n junk).addAll t.strings (calls.map Prod.fst) := by
  induction calls generalizing t l with
  | nil =>
    obtain rfl : t = t' := Except.ok.inj he
    rfl
  | cons call calls ih =>
    obtain ⟨v, b⟩ := call
    obtain ⟨⟨rc, t₁⟩, hi, he⟩ := bind_eq_ok he
    obtain ⟨l₁, h₁, hc₁⟩ := hc.step h hi
    rw [ih h₁ hc₁ he, hashTableInsertItem_strings h hc hi]
    rfl

/-! ### Tables of the largest size -/

theorem hashKeyGenerator_lt (v : CString) : (hashKeyGenerator v).toNat < 10000 := by
  rw [hashKeyGenerator, UInt32.toNat_mod]
  exact Nat.mod_lt _ (by decide)

/-- Linking an item allocates nothing. -/
theorem linkItem_brk {k : ℕ} {a : Addr} (he : linkItem t k a = .ok t') : t'.brk = t.brk := by
  unfold linkItem at he
  rcases hn : t.node with - | node
  · simp only [hn] at he
    obtain rfl := Except.ok.inj he
    rfl
  · simp only [hn, HashTable.deref, bind, Except.bind] at he
    split at he
    · cases he
    · split at he
      · cases he
      · obtain rfl := Except.ok.inj he
        rfl

/-- The strings that `__hash_item_create` allocates a block for. -/
def GetsBlock (v : CString) : Prop :=
  hashKeyGenerator v ≠ 0 ∧ v.strlen ≤ HASH_ITEM_MAX_SIZE_STR

instance : DecidablePred GetsBlock := fun v => by
  unfold GetsBlock; infer_instance

theorem Storable.getsBlock (h : Storable v) : GetsBlock v := ⟨h.key_ne_zero, h.2⟩

/-- Behind the allocation nothing is allocated. -/
theorem insertAtSlot_brk {key : UInt32} {a : Addr} {rc : UInt32}
    (he : insertAtSlot b t key a = .ok (rc, t')) : t'.brk = t.brk := by
  unfold insertAtSlot at he
  obtain ⟨slot, -, he⟩ := bind_eq_ok he
  rcases slot with - | head
  · obtain ⟨t₁, hl, he⟩ := bind_eq_ok he
    obtain ⟨-, rfl⟩ := Prod.mk.inj (Except.ok.inj he)
    exact linkItem_brk hl
  · obtain ⟨stored, -, he⟩ := bind_eq_ok he
    split at he
    · obtain ⟨fresh, -, he⟩ := bind_eq_ok he
      split at he <;> obtain ⟨-, rfl⟩ := Prod.mk.inj (Except.ok.inj he) <;> rfl
    · obtain ⟨-, rfl⟩ := Prod.mk.inj (Except.ok.inj he)
      rfl

/-- An insert takes one block, or none. -/
theorem hashTableInsertItem_brk {rc : UInt32} (he : hashTableInsertItem b t v = .ok (rc, t')) :
    t'.brk = if t.count ≠ BitVec.ofNat 32 t.size ∧ GetsBlock v then t.brk + 1 else t.brk := by
  unfold hashTableInsertItem at he
  by_cases hfull : t.count = BitVec.ofNat 32 t.size
  · rw [if_pos hfull] at he
    obtain ⟨-, rfl⟩ := Prod.mk.inj (Except.ok.inj he)
    rw [if_neg fun h => h.1 hfull]
  rw [if_neg hfull] at he
  by_cases hkey : hashKeyGenerator v = 0
  · simp only [hkey, if_true] at he
    obtain ⟨-, rfl⟩ := Prod.mk.inj (Except.ok.inj he)
    rw [if_neg fun h => h.2.1 hkey]
  simp only [if_neg hkey, hashItemCreate] at he
  by_cases hlen : v.strlen > HASH_ITEM_MAX_SIZE_STR
  · simp only [if_pos hlen] at he
    obtain ⟨-, rfl⟩ := Prod.mk.inj (Except.ok.inj he)
    rw [if_neg fun h => Nat.not_le_of_lt hlen h.2.2]
  simp only [if_neg hlen] at he
  rw [if_pos ⟨hfull, hkey, Nat.le_of_not_lt hlen⟩]
  by_cases hsmall : hashKeyGenerator v ≤ 1
  · -- the block is lost with its item
    simp only [if_pos hsmall] at he
    obtain ⟨-, rfl⟩ := Prod.mk.inj (Except.ok.inj he)
    rfl
  · simp only [if_neg hsmall] at he
    rw [insertAtSlot_brk he]
    rfl

/-- A table of the largest size that inserts have left in order. -/
def InOrder (junk : BitVec 32) (t : HashTable) : Prop :=
  ∃ l, Chained t l ∧ Counted 10000 junk t l

theorem inOrder_create {t₀ : HashTable} (h : hashTableCreate HASH_TABLE_MAX junk = some t₀) :
    InOrder junk t₀ ∧ t₀.strings = [] :=
  ⟨⟨[], hashTableCreate_chained h, hashTableCreate_counted h⟩,
    List.length_eq_zero_iff.mp (hashTableCreate_chained h).length_strings⟩

/-- **One insert** on a table in order: it goes through, adds its string to the
store, and leaves the table in order. -/
theorem InOrder.insert (h : InOrder junk t) (v : CString) (b : Beyond) :
    ∃ rc t', hashTableInsertItem b t v = .ok (rc, t') ∧ InOrder junk t' ∧
      t'.strings = (policy 10000 junk).add t.strings v ∧ t'.brk ≤ t.brk + 1 := by
  obtain ⟨l, hl, hc⟩ := h
  obtain ⟨rc, t', he⟩ : ∃ rc t', hashTableInsertItem b t v = .ok (rc, t') := by
    have ho := hashTableInsertItem_cases hl b v
    generalize hashTableInsertItem b t v = r at ho
    cases ho with
    | refused t' => exact ⟨1, t', rfl⟩
    | outside _ _ hge =>
      -- every key is an index of a table of this size
      have hlt := hashKeyGenerator_lt v
      rw [hc.size] at hge
      omega
    | taken t' => exact ⟨_, t', rfl⟩
    | added t' => exact ⟨0, t', rfl⟩
  refine ⟨rc, t', he, hc.step hl he, hashTableInsertItem_strings hl hc he, ?_⟩
  rw [hashTableInsertItem_brk he]
  split
  · exact le_rfl
  · exact Nat.le_succ _

/-- **A run of inserts** on a table in order. -/
theorem InOrder.insertAll (h : InOrder junk t) (calls : List (CString × Beyond)) :
    ∃ t', insertAll t calls = .ok t' ∧ InOrder junk t' ∧
      t'.strings = (policy 10000 junk).addAll t.strings (calls.map Prod.fst) := by
  induction calls generalizing t with
  | nil => exact ⟨t, rfl, h, rfl⟩
  | cons call calls ih =>
    obtain ⟨v, b⟩ := call
    obtain ⟨rc, t₁, he, h₁, hs₁, -⟩ := h.insert v b
    obtain ⟨t', hrun, h', hs'⟩ := ih h₁
    refine ⟨t', ?_, h', ?_⟩
    · simp only [SecuritySystem.insertAll, he, bind, Except.bind]
      exact hrun
    · rw [hs', hs₁]
      rfl

/-- Every run of inserts on a fresh table of the largest size goes through, and
leaves what a first-come store keeps of its strings. -/
theorem insertAll_created (junk : BitVec 32) (calls : List (CString × Beyond)) :
    ∃ t₀ t, hashTableCreate HASH_TABLE_MAX junk = some t₀ ∧ insertAll t₀ calls = .ok t ∧
      InOrder junk t ∧ t.strings = (policy 10000 junk).addAll [] (calls.map Prod.fst) := by
  obtain ⟨t₀, hcreate⟩ := exists_hashTableCreate junk
  obtain ⟨h, hnil⟩ := inOrder_create hcreate
  obtain ⟨t, hrun, ht, hs⟩ := h.insertAll calls
  exact ⟨t₀, t, hcreate, hrun, ht, hnil ▸ hs⟩

end SecuritySystem
