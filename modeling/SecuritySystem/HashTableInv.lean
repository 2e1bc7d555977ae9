/-
SecuritySystem/HashTableInv.lean

The invariant of the hash table and what one insert can do to it.

A table is seen in three ways: through its slots, through the list from
`node`, and through the items themselves.  `Chained t l` says that the three
views agree: `l` is the list met from `node` along `previous`, `next` undoes
`previous`, every item of `l` stores a string under its own key, and the slots
refer to the items of `l` and to nothing else.

`hashTableInsertItem_cases` is the inversion lemma of an insert: it is refused,
indexes outside the table, finds its slot taken, or adds one item.  The
invariant and every later fact about inserts is read off that lemma.
-/
import SecuritySystem.HashTable
import Mathlib.Data.Finset.Card
import Mathlib.Data.Finset.Dedup
import Mathlib.Data.Finset.Range

namespace SecuritySystem

open CMem Linked

variable {t t' : HashTable} {l : List Addr} {v : CString} {b : Beyond}

/-! ### Writing to the heap of items -/

namespace HashTable

@[simp] theorem alloc_table (it : HashItem) : (t.alloc it).table = t.table := rfl
@[simp] theorem alloc_node (it : HashItem) : (t.alloc it).node = t.node := rfl
@[simp] theorem alloc_size (it : HashItem) : (t.alloc it).size = t.size := rfl
@[simp] theorem alloc_count (it : HashItem) : (t.alloc it).count = t.count := rfl
@[simp] theorem alloc_brk (it : HashItem) : (t.alloc it).brk = t.brk + 1 := rfl

@[simp] theorem alloc_items_brk (it : HashItem) : (t.alloc it).items t.brk = some it :=
  Function.update_self ..

theorem alloc_items_of_lt (it : HashItem) {a : Addr} (h : a < t.brk) :
    (t.alloc it).items a = t.items a :=
  Function.update_of_ne (Nat.ne_of_lt h) ..

theorem slotAt_of_lt {k : ℕ} (h : k < t.size) : t.slotAt k = .ok (t.table k) := if_pos h

theorem slotAt_of_ge {k : ℕ} (h : t.size ≤ k) : t.slotAt k = .error .outOfBounds :=
  if_neg (Nat.not_lt.mpr h)

/-- The item at `a` stores the string `v`, under the key of `v`. -/
def Stores (t : HashTable) (a : Addr) (v : CString) : Prop :=
  t.contents a = some (hashKeyGenerator v, v.bytes)

/-- The string an item stores is determined by its block. -/
theorem Stores.unique {a : Addr} {u : CString} (hu : t.Stores a u) (hv : t.Stores a v) :
    u = v := by
  have h := hu.symm.trans hv
  simp only [Option.some.injEq, Prod.mk.injEq] at h
  exact CString.ext h.2

/-- `t'` has the slots, the list and the count of `t`, and all of its items as
they were; it may have allocated more. -/
structure SameView (t t' : HashTable) : Prop where
  table : t'.table = t.table
  node : t'.node = t.node
  size : t'.size = t.size
  count : t'.count = t.count
  brk : t.brk ≤ t'.brk
  items : ∀ a < t.brk, t'.items a = t.items a

theorem SameView.refl (t : HashTable) : SameView t t :=
  ⟨rfl, rfl, rfl, rfl, le_rfl, fun _ _ => rfl⟩

theorem sameView_alloc (it : HashItem) : SameView t (t.alloc it) :=
  ⟨rfl, rfl, rfl, rfl, Nat.le_succ _, fun _ h => alloc_items_of_lt it h⟩

theorem SameView.contents (h : SameView t t') {a : Addr} (ha : a < t.brk) :
    t'.contents a = t.contents a := by
  unfold HashTable.contents
  rw [h.items a ha]

end HashTable

/-! ### The invariant -/

/-- Strings that `__hash_item_create` makes an item of. -/
def Storable (v : CString) : Prop :=
  1 < hashKeyGenerator v ∧ v.strlen ≤ HASH_ITEM_MAX_SIZE_STR

instance : DecidablePred Storable := fun v => by
  unfold Storable; infer_instance

theorem Storable.key_ne_zero (h : Storable v) : hashKeyGenerator v ≠ 0 := by
  intro h0
  have hpos := h.1
  rw [h0] at hpos
  exact absurd hpos (by decide)

/-- The slots, the list `l` from `node`, and the items agree. -/
structure Chained (t : HashTable) (l : List Addr) : Prop where
  doubly : Doubly t.previousOf t.nextOf t.node l
  /-- items are allocated in the order of their addresses, so the list is
  newest first -/
  newest : l.Pairwise (· > ·)
  below : ∀ a ∈ l, a < t.brk
  stored : ∀ a ∈ l, ∃ v, t.Stores a v ∧ Storable v ∧ (hashKeyGenerator v).toNat < t.size
  slot : ∀ k a, t.table k = some a ↔
    a ∈ l ∧ ∃ v, t.Stores a v ∧ (hashKeyGenerator v).toNat = k

/-- A table of the size that the services ask for is created. -/
theorem exists_hashTableCreate (junk : BitVec 32) :
    ∃ t₀, hashTableCreate HASH_TABLE_MAX junk = some t₀ := ⟨_, if_neg (by decide)⟩

theorem hashTableCreate_chained {size : ℤ} {junk : BitVec 32}
    (h : hashTableCreate size junk = some t) : Chained t [] := by
  unfold hashTableCreate at h
  split at h
  · cases h
  · obtain rfl := Option.some.inj h
    exact ⟨Doubly.nil, List.Pairwise.nil, by simp, by simp, by simp⟩

namespace Chained

theorem follows (h : Chained t l) : Follows t.previousOf t.node l := h.doubly.follows

/-- Nothing that leaves the view of a table alone can break the invariant. -/
theorem congr (h : Chained t l) (hv : t.SameView t') : Chained t' l := by
  have hc : ∀ a ∈ l, t'.contents a = t.contents a := fun a ha => hv.contents (h.below a ha)
  have hs : ∀ a ∈ l, ∀ v, t'.Stores a v ↔ t.Stores a v := fun a ha v => by
    unfold HashTable.Stores
    rw [hc a ha]
  refine ⟨?_, h.newest, fun a ha => (h.below a ha).trans_le hv.brk, fun a ha => ?_, ?_⟩
  · rw [hv.node]
    apply h.doubly.congr
    · intro a ha
      unfold HashTable.previousOf
      rw [hv.items a (h.below a ha)]
    · intro a ha
      unfold HashTable.nextOf
      rw [hv.items a (h.below a ha)]
  · obtain ⟨v, hav, hok⟩ := h.stored a ha
    exact ⟨v, (hs a ha v).mpr hav, hv.size ▸ hok⟩
  · intro k a
    rw [hv.table, h.slot k a]
    exact and_congr_right fun ha => exists_congr fun v => and_congr_left fun _ => (hs a ha v).symm

/-- A string that is stored sits in the slot of its key. -/
theorem table_key (h : Chained t l) {a : Addr} (ha : a ∈ l) (hv : t.Stores a v) :
    t.table (hashKeyGenerator v).toNat = some a :=
  (h.slot _ a).mpr ⟨ha, v, hv, rfl⟩

theorem mem_of_table (h : Chained t l) {k : ℕ} {a : Addr} (hk : t.table k = some a) : a ∈ l :=
  ((h.slot k a).mp hk).1

/-- The item in slot `k` stores a string of key `k`. -/
theorem stores_of_table (h : Chained t l) {k : ℕ} {a : Addr} (hk : t.table k = some a) :
    ∃ v, t.Stores a v ∧ (hashKeyGenerator v).toNat = k ∧ Storable v ∧ k < t.size := by
  obtain ⟨ha, v, hv, rfl⟩ := (h.slot k a).mp hk
  obtain ⟨u, hu, hok, hlt⟩ := h.stored a ha
  obtain rfl := hv.unique hu
  exact ⟨v, hv, rfl, hok, hlt⟩

theorem brk_not_mem (h : Chained t l) : t.brk ∉ l := fun hm =>
  Nat.lt_irrefl _ (h.below _ hm)

theorem length_le_brk (h : Chained t l) : l.length ≤ t.brk := by
  have hsub : l.toFinset ⊆ Finset.range t.brk := fun a ha =>
    Finset.mem_range.mpr (h.below a (List.mem_toFinset.mp ha))
  have hcard := Finset.card_le_card hsub
  rwa [List.toFinset_card_of_nodup h.follows.nodup, Finset.card_range] at hcard

/-- The event handler's walk meets exactly the items of the list. -/
theorem chain_eq (h : Chained t l) : t.chain = l :=
  h.follows.walk_eq h.length_le_brk

end Chained

/-! ### One insert -/

theorem hashItemCreate_of_storable (h : Storable v) :
    hashItemCreate t v =
      (some t.brk, t.alloc ⟨hashKeyGenerator v, v.bytes, none, none⟩) := by
  unfold hashItemCreate
  rw [if_neg (Nat.not_lt.mpr h.2), if_neg (UInt32.not_le.mpr h.1)]

theorem hashItemCreate_of_not_storable (h : ¬ Storable v) :
    ∃ t', hashItemCreate t v = (none, t') ∧ t.SameView t' := by
  unfold hashItemCreate
  split
  · exact ⟨t, rfl, .refl t⟩
  · next hlen =>
    have hkey : hashKeyGenerator v ≤ 1 := by
      by_contra hk
      exact h ⟨UInt32.not_le.mp hk, Nat.le_of_not_lt hlen⟩
    rw [if_pos hkey]
    exact ⟨_, rfl, HashTable.sameView_alloc _⟩

/-- `t'` is `t` with one more item, at the fresh address `t.brk`: it stores
`v`, sits in the slot of its key and in front of the list. -/
structure Pushed (t t' : HashTable) (v : CString) : Prop where
  table : t'.table = Function.update t.table (hashKeyGenerator v).toNat (some t.brk)
  node : t'.node = some t.brk
  size : t'.size = t.size
  count : t'.count = t.count + 1
  brk : t'.brk = t.brk + 1
  fresh : t'.items t.brk = some ⟨hashKeyGenerator v, v.bytes, t.node, none⟩
  old : ∀ a < t.brk, t'.items a = (t.items a).map fun it =>
    if t.node = some a then { it with next := some t.brk } else it

namespace Pushed

theorem stores (h : Pushed t t' v) : t'.Stores t.brk v := by
  simp [HashTable.Stores, HashTable.contents, h.fresh]

/-- No stored item changes its key or its block. -/
theorem contents (h : Pushed t t' v) {a : Addr} (ha : a < t.brk) :
    t'.contents a = t.contents a := by
  rw [HashTable.contents, HashTable.contents, h.old a ha, Option.map_map]
  congr 1
  funext it
  simp only [Function.comp_apply]
  split <;> rfl

theorem stores_iff (h : Pushed t t' v) {a : Addr} (ha : a < t.brk) (u : CString) :
    t'.Stores a u ↔ t.Stores a u := by
  rw [HashTable.Stores, HashTable.Stores, h.contents ha]

theorem previousOf (h : Pushed t t' v) {a : Addr} (ha : a < t.brk) :
    t'.previousOf a = t.previousOf a := by
  rw [HashTable.previousOf, HashTable.previousOf, h.old a ha]
  rcases t.items a with - | it
  · rfl
  · show (if t.node = some a then { it with next := some t.brk } else it).previous = _
    split <;> rfl

theorem nextOf (h : Pushed t t' v) {a : Addr} (ha : a < t.brk) (hne : t.node ≠ some a) :
    t'.nextOf a = t.nextOf a := by
  rw [HashTable.nextOf, HashTable.nextOf, h.old a ha]
  simp [hne]

/-- The list has the new item in front. -/
theorem chained (h : Pushed t t' v) (hc : Chained t l) (hok : Storable v)
    (hlt : (hashKeyGenerator v).toNat < t.size)
    (hfree : t.table (hashKeyGenerator v).toNat = none) : Chained t' (t.brk :: l) where
  doubly := by
    rw [h.node]
    apply hc.doubly.push hc.brk_not_mem
    · simp [HashTable.previousOf, h.fresh]
    · exact fun a ha => h.previousOf (hc.below a ha)
    · simp [HashTable.nextOf, h.fresh]
    · intro a ha
      have hal : a ∈ l := hc.follows.head_mem ha
      obtain ⟨v, hv, -⟩ := hc.stored a hal
      obtain ⟨it, hit, -⟩ := Option.map_eq_some_iff.mp hv
      simp [HashTable.nextOf, h.old a (hc.below a hal), hit, ha]
    · exact fun a ha hne => h.nextOf (hc.below a ha) hne
  newest := List.pairwise_cons.mpr ⟨fun a ha => hc.below a ha, hc.newest⟩
  below := by
    intro a ha
    rw [h.brk]
    rcases List.mem_cons.mp ha with rfl | ha
    · exact Nat.lt_succ_self _
    · exact Nat.lt_succ_of_lt (hc.below a ha)
  stored := by
    intro a ha
    rw [h.size]
    rcases List.mem_cons.mp ha with rfl | ha
    · exact ⟨v, h.stores, hok, hlt⟩
    · obtain ⟨u, hu, hrest⟩ := hc.stored a ha
      exact ⟨u, (h.stores_iff (hc.below a ha) u).mpr hu, hrest⟩
  slot := by
    intro k a
    rw [h.table, Function.update_apply]
    by_cases hk : k = (hashKeyGenerator v).toNat
    · -- the slot of `v`: the new item, and no old one, since the slot was empty
      rw [if_pos hk]
      constructor
      · intro he
        obtain rfl := Option.some.inj he
        exact ⟨List.mem_cons_self, v, h.stores, hk.symm⟩
      · rintro ⟨ha, u, hu, hku⟩
        rcases List.mem_cons.mp ha with rfl | ha
        · rfl
        · have hu' := (h.stores_iff (hc.below a ha) u).mp hu
          have ht := hc.table_key ha hu'
          rw [hku, hk, hfree] at ht
          cases ht
    · -- any other slot: the old items, since the new one has the key of `v`
      rw [if_neg hk, hc.slot k a]
      constructor
      · rintro ⟨ha, u, hu, hku⟩
        exact ⟨List.mem_cons_of_mem _ ha, u, (h.stores_iff (hc.below a ha) u).mpr hu, hku⟩
      · rintro ⟨ha, u, hu, hku⟩
        rcases List.mem_cons.mp ha with rfl | ha
        · exact absurd (hku.symm.trans (by rw [hu.unique h.stores])) hk
        · exact ⟨ha, u, (h.stores_iff (hc.below a ha) u).mp hu, hku⟩

end Pushed

theorem Chained.exists_item (h : Chained t l) {a : Addr} (ha : a ∈ l) :
    ∃ it, t.items a = some it := by
  obtain ⟨v, hv, -⟩ := h.stored a ha
  obtain ⟨it, hit, -⟩ := Option.map_eq_some_iff.mp hv
  exact ⟨it, hit⟩

/-- The linking branch, run on the table with the fresh block. -/
theorem linkItem_pushed (h : Chained t l) (v : CString) :
    ∃ t', linkItem (t.alloc ⟨hashKeyGenerator v, v.bytes, none, none⟩)
      (hashKeyGenerator v).toNat t.brk = .ok t' ∧ Pushed t t' v := by
  rcases hn : t.node with - | node
  · refine ⟨_, by simp only [linkItem, HashTable.alloc_node, hn]; rfl, ?_⟩
    refine ⟨rfl, rfl, rfl, rfl, rfl, ?_, fun a ha => ?_⟩
    · simp [hn]
    · simp [HashTable.alloc_items_of_lt _ ha, hn]
  · -- the old head gets its `next`, the fresh item its `previous`
    have hmem : node ∈ l := h.follows.head_mem hn
    have hlt : node < t.brk := h.below node hmem
    obtain ⟨old, hold⟩ := h.exists_item hmem
    have hne : t.brk ≠ node := (Nat.ne_of_lt hlt).symm
    refine ⟨_, by
      simp only [linkItem, HashTable.alloc_node, hn, HashTable.deref, HashTable.setItem,
        HashTable.alloc_items_of_lt _ hlt, hold, bind, Except.bind, Function.update_of_ne hne,
        HashTable.alloc_items_brk]
      rfl, ?_⟩
    refine ⟨rfl, rfl, rfl, rfl, rfl, ?_, fun a ha => ?_⟩
    · simp [hn]
    · have hab : a ≠ t.brk := Nat.ne_of_lt ha
      by_cases han : a = node
      · subst han
        simp [Function.update_of_ne hab, hold, hn]
      · have hna : ¬ node = a := fun e => han e.symm
        simp [Function.update_of_ne hab, Function.update_of_ne han,
          HashTable.alloc_items_of_lt _ ha, hn, hna]

/-! ### What an insert can do -/

/-- Strings the table refuses before it looks at a slot. -/
theorem hashTableInsertItem_refused
    (h : t.count = BitVec.ofNat 32 t.size ∨ ¬ Storable v) :
    ∃ t', hashTableInsertItem b t v = .ok (1, t') ∧ t.SameView t' := by
  unfold hashTableInsertItem
  by_cases hfull : t.count = BitVec.ofNat 32 t.size
  · exact ⟨t, if_pos hfull, .refl t⟩
  · rw [if_neg hfull]
    by_cases hkey : hashKeyGenerator v = 0
    · exact ⟨t, if_pos hkey, .refl t⟩
    · obtain ⟨t', he, hv⟩ := hashItemCreate_of_not_storable (t := t) (h.resolve_left hfull)
      refine ⟨t', ?_, hv⟩
      simp only [if_neg hkey, he]

/-- The other strings get an item, which may or may not be linked. -/
theorem hashTableInsertItem_storable (hfull : t.count ≠ BitVec.ofNat 32 t.size)
    (hok : Storable v) :
    hashTableInsertItem b t v =
      insertAtSlot b (t.alloc ⟨hashKeyGenerator v, v.bytes, none, none⟩)
        (hashKeyGenerator v) t.brk := by
  rw [hashTableInsertItem, if_neg hfull]
  simp only [if_neg hok.key_ne_zero, hashItemCreate_of_storable hok]

/-- Everything an insert can do to a table whose views agree. -/
inductive InsertOutcome (b : Beyond) (t : HashTable) (v : CString) :
    Except Fault (UInt32 × HashTable) → Prop
  /-- the table counts as full, or there is no item for the string -/
  | refused (t' : HashTable) :
      t.count = BitVec.ofNat 32 t.size ∨ ¬ Storable v → t.SameView t' →
      InsertOutcome b t v (.ok (1, t'))
  /-- the key lies outside the table -/
  | outside :
      t.count ≠ BitVec.ofNat 32 t.size → Storable v → t.size ≤ (hashKeyGenerator v).toNat →
      InsertOutcome b t v (.error .outOfBounds)
  /-- the slot is taken by an item that stores `u` -/
  | taken (t' : HashTable) (a : Addr) (u : CString) :
      t.count ≠ BitVec.ofNat 32 t.size → Storable v →
      t.table (hashKeyGenerator v).toNat = some a → t.Stores a u →
      hashKeyGenerator u = hashKeyGenerator v → t.SameView t' →
      InsertOutcome b t v (.ok (if isRepetition b u.bytes v.bytes then 0 else 2, t'))
  /-- the slot is empty and gets the new item -/
  | added (t' : HashTable) :
      t.count ≠ BitVec.ofNat 32 t.size → Storable v → (hashKeyGenerator v).toNat < t.size →
      t.table (hashKeyGenerator v).toNat = none → Pushed t t' v →
      InsertOutcome b t v (.ok (0, t'))

theorem hashTableInsertItem_cases (h : Chained t l) (b : Beyond) (v : CString) :
    InsertOutcome b t v (hashTableInsertItem b t v) := by
  by_cases hr : t.count = BitVec.ofNat 32 t.size ∨ ¬ Storable v
  · obtain ⟨t', he, hv⟩ := hashTableInsertItem_refused (b := b) hr
    rw [he]
    exact .refused t' hr hv
  · -- an item is made; what happens to it depends on its slot alone
    obtain ⟨hfull, hok⟩ := not_or.mp hr
    rw [not_not] at hok
    rw [hashTableInsertItem_storable hfull hok, insertAtSlot]
    by_cases hlt : (hashKeyGenerator v).toNat < t.size
    · rw [HashTable.slotAt_of_lt (by exact hlt), HashTable.alloc_table]
      rcases hs : t.table (hashKeyGenerator v).toNat with - | a
      · obtain ⟨t', he, hp⟩ := linkItem_pushed h v
        simp only [bind, Except.bind, he]
        exact .added t' hfull hok hlt hs hp
      · obtain ⟨u, hu, hku, -⟩ := h.stores_of_table hs
        obtain ⟨it, hit, hc⟩ := Option.map_eq_some_iff.mp hu
        simp only [Prod.mk.injEq] at hc
        have hkey : hashKeyGenerator u = hashKeyGenerator v := UInt32.toNat_inj.mp hku
        have ha : a < t.brk := h.below a (h.mem_of_table hs)
        simp only [bind, Except.bind, HashTable.deref, HashTable.alloc_items_of_lt _ ha, hit,
          HashTable.alloc_items_brk, hc.1, hc.2, hkey, if_true]
        rw [← apply_ite fun rc : UInt32 => Except.ok (rc, _)]
        exact .taken _ a u hfull hok hs hu hkey (HashTable.sameView_alloc _)
    · rw [HashTable.slotAt_of_ge (by exact Nat.le_of_not_lt hlt)]
      exact .outside hfull hok (Nat.le_of_not_lt hlt)

end SecuritySystem
