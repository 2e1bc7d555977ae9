/-
SecuritySystem/HashTableSafety.lean

What a user of the hash table can rely on.

Three results about reachable tables.  The three views of a table agree
(`insertAll_viewsAgree`).  A look-up by value answers for the string asked
exactly when no other stored string has its key (`hashTableSearchItem_iff`).
And an insert reports success exactly for stored strings unless a proper prefix
of the string sits in its slot, or the table counts as full
(`hashTableInsertItem_iff`).
-/
import SecuritySystem.HashTableRun

namespace SecuritySystem

open CMem Linked

variable {t t' : HashTable} {l : List Addr} {u v : CString} {b : Beyond}
variable {size : ℤ} {junk : BitVec 32}

/-! ### The three views agree -/

/-- `a` is in some slot. -/
def HashTable.InTable (t : HashTable) (a : Addr) : Prop := ∃ k, t.table k = some a

theorem Chained.inTable_iff (h : Chained t l) (a : Addr) : t.InTable a ↔ a ∈ l := by
  constructor
  · rintro ⟨k, hk⟩
    exact h.mem_of_table hk
  · intro ha
    obtain ⟨v, hv, -⟩ := h.stored a ha
    exact ⟨_, h.table_key ha hv⟩

/-- The slots, the list from `node` and the items are three views of one
set. -/
structure ViewsAgree (t : HashTable) : Prop where
  /-- an occupied slot holds an item with the slot's number as its key, which
  is the key of the item's string; slots 0 and 1 are empty -/
  slot : ∀ k a, t.table k = some a → ∃ it, t.items a = some it ∧ it.key.toNat = k ∧
    hashKeyGenerator (CString.ofMem it.value) = it.key ∧ 2 ≤ k ∧ k < 10000
  /-- looking a stored item up by its key and by its value gives that item -/
  lookup : ∀ k a it, t.table k = some a → t.items a = some it →
    hashTableSearchItem t it.key none = .ok (some a) ∧
    hashTableSearchItem t 0 (some (CString.ofMem it.value)) = .ok (some a)
  /-- from `node` along `previous` one meets every stored item once, newest
  first, and then `NULL` -/
  list : ∃ l, Follows t.previousOf t.node l ∧ l.Nodup ∧ l.Pairwise (· > ·) ∧
    ∀ a, a ∈ l ↔ t.InTable a
  /-- on stored items `next` is the inverse of `previous` -/
  inverse : ∀ a c, (t.InTable a ∧ t.previousOf a = some c) ↔
    (t.InTable c ∧ t.nextOf c = some a)
  /-- no two slots share an item -/
  unshared : ∀ k k' a, t.table k = some a → t.table k' = some a → k = k'

/-- One insert of `v` leaves the views as they were, or adds one item at an
empty slot and at the head of the list; no stored item changes its key or its
value. -/
structure InsertStep (t : HashTable) (v : CString) (rc : UInt32) (t' : HashTable) : Prop where
  views : (t'.table = t.table ∧ t'.node = t.node ∧ t'.chain = t.chain ∧ t'.count = t.count ∧
      ∀ a ∈ t.chain, t'.items a = t.items a) ∨
    (rc = 0 ∧ ∃ a, a ∉ t.chain ∧ t.table (hashKeyGenerator v).toNat = none ∧
      t'.table = Function.update t.table (hashKeyGenerator v).toNat (some a) ∧
      t'.node = some a ∧ t'.chain = a :: t.chain ∧ t'.count = t.count + 1 ∧ t'.Stores a v)
  contents : ∀ a ∈ t.chain, t'.contents a = t.contents a

theorem Chained.viewsAgree (h : Chained t l) : ViewsAgree t where
  slot := by
    intro k a hk
    obtain ⟨v, hv, hkv, hok, -⟩ := h.stores_of_table hk
    obtain ⟨it, hit, hc⟩ := Option.map_eq_some_iff.mp hv
    simp only [Prod.mk.injEq] at hc
    refine ⟨it, hit, by rw [hc.1, hkv], by rw [hc.2, hc.1, CString.ofMem_bytes], ?_, ?_⟩
    · rw [← hkv]
      exact UInt32.lt_iff_toNat_lt.mp hok.1
    · exact hkv ▸ hashKeyGenerator_lt v
  lookup := by
    intro k a it hk hit
    obtain ⟨v, hv, hkv, hok, hlt⟩ := h.stores_of_table hk
    have hc : t.contents a = some (hashKeyGenerator v, v.bytes) := hv
    rw [HashTable.contents, hit] at hc
    simp only [Option.map_some, Option.some.injEq, Prod.mk.injEq] at hc
    have hslot : t.slotAt (hashKeyGenerator v).toNat = .ok (some a) := by
      rw [HashTable.slotAt_of_lt (hkv ▸ hlt), hkv, hk]
    constructor
    · simp only [hashTableSearchItem, hashTableGetHiByKey, hc.1, if_neg hok.key_ne_zero]
      exact hslot
    · simp only [hashTableSearchItem, hashTableGetHiByVal, hc.2, CString.ofMem_bytes, if_true]
      exact hslot
  list := ⟨l, h.follows, h.follows.nodup, h.newest, fun a => (h.inTable_iff a).symm⟩
  inverse := by
    intro a c
    rw [h.inTable_iff, h.inTable_iff]
    exact h.doubly.inverse a c
  unshared := by
    intro k k' a hk hk'
    obtain ⟨v, hv, hkv, -⟩ := h.stores_of_table hk
    obtain ⟨w, hw, hkw, -⟩ := h.stores_of_table hk'
    rw [← hkv, ← hkw, hv.unique hw]

theorem insertStep_of_sameView {rc : UInt32} (h : Chained t l) (hv : t.SameView t') :
    InsertStep t v rc t' where
  views := by
    refine .inl ⟨hv.table, hv.node, (h.congr hv).chain_eq.trans h.chain_eq.symm, hv.count, ?_⟩
    intro a ha
    exact hv.items a (h.below a (h.chain_eq ▸ ha))
  contents := fun a ha => hv.contents (h.below a (h.chain_eq ▸ ha))

/-- In a table of the largest size no insert faults, and each one is a step
as described. -/
theorem hashTableInsertItem_step (h : Chained t l) (hsize : t.size = 10000) (v : CString)
    (b : Beyond) :
    ∃ rc t', hashTableInsertItem b t v = .ok (rc, t') ∧ InsertStep t v rc t' := by
  have ho := hashTableInsertItem_cases h b v
  generalize hashTableInsertItem b t v = r at ho
  cases ho with
  | refused t' _ hv => exact ⟨1, t', rfl, insertStep_of_sameView h hv⟩
  | outside _ _ hge =>
    have hlt := hashKeyGenerator_lt v
    omega
  | taken t' a u _ _ _ _ _ hv => exact ⟨_, t', rfl, insertStep_of_sameView h hv⟩
  | added t' _ hok hlt hfree hp =>
    refine ⟨0, t', rfl, ⟨.inr ⟨rfl, t.brk, ?_, hfree, hp.table, hp.node, ?_, hp.count, hp.stores⟩,
      fun a ha => hp.contents (h.below a (h.chain_eq ▸ ha))⟩⟩
    · rw [h.chain_eq]
      exact h.brk_not_mem
    · rw [(hp.chained h hok hlt hfree).chain_eq, h.chain_eq]

/-- **The views agree in every reachable state**, whatever `count` held when
the table was created, and every further insert is a step that keeps them. -/
theorem insertAll_viewsAgree (junk : BitVec 32) (calls : List (CString × Beyond)) :
    ∃ t₀ t, hashTableCreate HASH_TABLE_MAX junk = some t₀ ∧ insertAll t₀ calls = .ok t ∧
      ViewsAgree t ∧ ∀ v b, ∃ rc t', hashTableInsertItem b t v = .ok (rc, t') ∧
        InsertStep t v rc t' := by
  obtain ⟨t₀, t, hcreate, hrun, ⟨l, h, hc⟩, -⟩ := insertAll_created junk calls
  exact ⟨t₀, t, hcreate, hrun, h.viewsAgree, fun v b => hashTableInsertItem_step h hc.size v b⟩

/-- `hash_table_free` frees every stored item, and none twice. -/
theorem Chained.nodup_free (h : Chained t l) :
    (hashTableFree t).Nodup ∧ ∀ a, a ∈ hashTableFree t ↔ a ∈ l := by
  constructor
  · apply List.Nodup.filterMap _ List.nodup_range
    intro k k' a hk hk'
    exact h.viewsAgree.unshared k k' a hk hk'
  · intro a
    rw [hashTableFree, List.mem_filterMap, ← h.inTable_iff]
    constructor
    · rintro ⟨k, -, hk⟩
      exact ⟨k, hk⟩
    · rintro ⟨k, hk⟩
      obtain ⟨v, -, -, -, hlt⟩ := h.stores_of_table hk
      exact ⟨k, List.mem_range.mpr hlt, hk⟩

/-- The slots hold the items of the list, in another order. -/
theorem Chained.perm_free (h : Chained t l) : (hashTableFree t).Perm l :=
  (List.perm_ext_iff_of_nodup h.nodup_free.1 h.follows.nodup).mpr h.nodup_free.2

/-- So they hold the stored strings. -/
theorem Chained.map_free (h : Chained t l) :
    ((hashTableFree t).map fun a => CString.ofMem (t.blockOf a)).Perm t.strings := by
  rw [h.strings_eq]
  exact h.perm_free.map _

/-! ### Looking a string up -/

/-- A look-up by value answers for the string `v` itself: what it returns has
exactly `v` in its block, and it returns `NULL` when `v` is not stored. -/
def LookupSound (t : HashTable) (v : CString) : Prop :=
  ∃ r, hashTableSearchItem t 0 (some v) = .ok r ∧
    (∀ a, r = some a → (t.items a).map HashItem.value = some v.bytes) ∧
    (v ∉ t.strings → r = none)

/-- The look-up returns whatever sits in the slot of the key, so it is sound
for `v` exactly when no other stored string has the key of `v`. -/
theorem Chained.lookupSound_iff (h : Chained t l) (v : CString) :
    LookupSound t v ↔ (hashKeyGenerator v).toNat < t.size ∧
      ∀ u ∈ t.strings, hashKeyGenerator u = hashKeyGenerator v → u = v := by
  have hsearch : hashTableSearchItem t 0 (some v) = t.slotAt (hashKeyGenerator v).toNat := rfl
  constructor
  · rintro ⟨r, hr, hval, -⟩
    rw [hsearch] at hr
    by_cases hlt : (hashKeyGenerator v).toNat < t.size
    · refine ⟨hlt, fun u hu hk => ?_⟩
      obtain ⟨-, -, a, ha, hs⟩ := h.of_mem_strings hu
      rw [HashTable.slotAt_of_lt hlt, ← hk, hs] at hr
      have hb := hval a (Except.ok.inj hr).symm
      obtain ⟨it, hit, hc⟩ := Option.map_eq_some_iff.mp ha
      rw [hit, Option.map_some, Option.some.injEq] at hb
      simp only [Prod.mk.injEq] at hc
      exact CString.ext (hc.2.symm.trans hb)
    · rw [HashTable.slotAt_of_ge (Nat.le_of_not_lt hlt)] at hr
      cases hr
  · -- whatever sits in the slot has the key of `v`, so it stores `v`
    rintro ⟨hlt, huniq⟩
    refine ⟨_, hsearch.trans (HashTable.slotAt_of_lt hlt), fun a ha => ?_, fun hv => ?_⟩
    · obtain ⟨u, hu, hk, -⟩ := h.stores_of_table ha
      obtain rfl := huniq u (h.mem_strings_of_table ha hu) (UInt32.toNat_inj.mp hk)
      obtain ⟨it, hit, hc⟩ := Option.map_eq_some_iff.mp hu
      simp only [Prod.mk.injEq] at hc
      rw [hit, Option.map_some, hc.2]
    · refine h.table_eq_none.mpr fun u hu hk => hv ?_
      exact huniq u hu hk ▸ hu

/-- **Look-up by value**, for every reachable table and every string. -/
theorem hashTableSearchItem_iff (h : Reachable size junk t) (v : CString) :
    LookupSound t v ↔ (hashKeyGenerator v).toNat < t.size ∧
      ∀ u ∈ t.strings, hashKeyGenerator u = hashKeyGenerator v → u = v := by
  obtain ⟨l, hl, -⟩ := h.chained
  exact hl.lookupSound_iff v

/-- "biba" -/
def biba : CString := ⟨[98, 105, 98, 97], by decide⟩

/-- "babi", with the key of "biba" -/
def babi : CString := ⟨[98, 97, 98, 105], by decide⟩

/-- The table with "biba" alone. -/
theorem reachable_biba (b : Beyond) : ∃ t, Reachable HASH_TABLE_MAX 0 t ∧ t.strings = [biba] := by
  obtain ⟨t₀, t, hcreate, hrun, -, hs⟩ := insertAll_created 0 [(biba, b)]
  refine ⟨t, ⟨t₀, _, hcreate, hrun⟩, hs.trans ?_⟩
  show (policy 10000 0).addAll [] [biba] = [biba]
  decide

theorem hashTableSearchItem_iff_biba :
    ∃ t, t.strings = [biba] ∧ (LookupSound t biba ↔ (hashKeyGenerator biba).toNat < t.size ∧
      ∀ u ∈ t.strings, hashKeyGenerator u = hashKeyGenerator biba → u = biba) := by
  obtain ⟨t, ht, hs⟩ := reachable_biba ⟨[], []⟩
  exact ⟨t, hs, hashTableSearchItem_iff ht biba⟩

/-- After an insert of "biba", a look-up of "babi" returns the item of
"biba". -/
theorem not_lookupSound_babi :
    ¬ ∀ (size : ℤ) (junk : BitVec 32) (t : HashTable) (v : CString),
      Reachable size junk t → LookupSound t v := by
  intro hall
  obtain ⟨t, ht, hs⟩ := reachable_biba ⟨[], []⟩
  obtain ⟨l, hl, -⟩ := ht.chained
  have huniq := ((hl.lookupSound_iff babi).mp (hall _ _ t babi ht)).2
  have heq : biba = babi := huniq biba (by simp [hs]) (by decide)
  exact absurd heq (by decide)

/-! ### The return code of an insert -/

/-- An insert of `v` returns 0 exactly when `v` is stored afterwards, and when
it returns 0 for a repetition, leaving the strings as they were, `v` was
stored before. -/
def InsertExact (b : Beyond) (t : HashTable) (v : CString) : Prop :=
  ∃ rc t', hashTableInsertItem b t v = .ok (rc, t') ∧ (rc = 0 ↔ v ∈ t'.strings) ∧
    (rc = 0 → t'.strings = t.strings → v ∈ t.strings)

theorem isRepetition_iff (hb : b.Terminated) :
    isRepetition b u.bytes v.bytes = true ↔ u.bytes <+: v.bytes := by
  simp only [isRepetition, u.ofMem_bytes_append hb.1, v.ofMem_bytes_append hb.2,
    CString.strncmpEq_strlen]

/-- The item in the slot of `v` is the only one with the key of `v`. -/
theorem Chained.eq_of_slot (h : Chained t l) {a : Addr} {w : CString}
    (hs : t.table (hashKeyGenerator v).toNat = some a) (hw : t.Stores a w) (hu : u ∈ t.strings)
    (hk : hashKeyGenerator u = hashKeyGenerator v) : u = w := by
  obtain ⟨-, -, a', ha', hs'⟩ := h.of_mem_strings hu
  rw [hk, hs] at hs'
  exact (Option.some.inj hs' ▸ ha').unique hw

/-- The return code tells the truth about `v` unless the table counts as full
although `v` is stored, or an item in the slot of `v` stores a proper prefix
of it. -/
theorem Chained.insertExact_iff (h : Chained t l) (hb : b.Terminated) (v : CString) :
    InsertExact b t v ↔
      (t.count = BitVec.ofNat 32 t.size → v ∉ t.strings) ∧
      (t.count ≠ BitVec.ofNat 32 t.size → Storable v →
        (hashKeyGenerator v).toNat < t.size ∧
        ∀ u ∈ t.strings, hashKeyGenerator u = hashKeyGenerator v → u.bytes <+: v.bytes →
          u = v) := by
  have ho := hashTableInsertItem_cases h b v
  unfold InsertExact
  generalize hashTableInsertItem b t v = r at ho
  cases ho with
  | refused t' hr hv =>
    have hs := hv.strings h
    constructor
    · rintro ⟨rc, t₁, he, hiff, -⟩
      obtain ⟨rfl, rfl⟩ := Prod.mk.inj (Except.ok.inj he)
      have hns : v ∉ t.strings := fun hm => absurd (hiff.mpr (hs ▸ hm)) (by decide)
      exact ⟨fun _ => hns, fun hne hok => absurd hr (by simp [hne, hok])⟩
    · rintro ⟨hfull, -⟩
      have hns : v ∉ t.strings := by
        rcases hr with hc | hok
        · exact hfull hc
        · exact fun hm => hok (h.of_mem_strings hm).1
      exact ⟨1, t', rfl, by simp [hs, hns], fun h0 => absurd h0 (by decide)⟩
  | outside hne hok hge =>
    constructor
    · rintro ⟨rc, t₁, he, -⟩
      cases he
    · rintro ⟨-, hrest⟩
      exact absurd (hrest hne hok).1 (Nat.not_lt.mpr hge)
  | taken t' a w hne hok hs hw hk hv =>
    have hstr := hv.strings h
    have hmem : w ∈ t.strings := h.mem_strings_of_table hs hw
    have huniq : ∀ u ∈ t.strings, hashKeyGenerator u = hashKeyGenerator v → u = w :=
      fun u hu hku => h.eq_of_slot hs hw hu hku
    have hlt : (hashKeyGenerator v).toNat < t.size := hk ▸ (h.of_mem_strings hmem).2.1
    constructor
    · rintro ⟨rc, t₁, he, hiff, -⟩
      obtain ⟨rfl, rfl⟩ := Prod.mk.inj (Except.ok.inj he)
      refine ⟨fun hc => absurd hc hne, fun _ _ => ⟨hlt, fun u hu hku hpre => ?_⟩⟩
      obtain rfl := huniq u hu hku
      rw [if_pos ((isRepetition_iff hb).mpr hpre)] at hiff
      exact (huniq v (hstr ▸ hiff.mp rfl) rfl).symm
    · -- `v` repeats exactly if the string in its slot, the only one with its key, is `v`
      rintro ⟨-, hrest⟩
      have hpre := (hrest hne hok).2 w hmem hk
      have hiff : isRepetition b w.bytes v.bytes = true ↔ v ∈ t.strings := by
        rw [isRepetition_iff hb]
        constructor
        · exact fun hp => hpre hp ▸ hmem
        · exact fun hv' => huniq v hv' rfl ▸ List.prefix_rfl
      refine ⟨_, t', rfl, ?_, fun h0 _ => ?_⟩
      · rw [hstr, ← hiff]
        by_cases hrep : isRepetition b w.bytes v.bytes = true <;> simp [hrep]
      · by_contra hns
        rw [if_neg (fun hrep => hns (hiff.mp hrep))] at h0
        exact absurd h0 (by decide)
  | added t' hne hok hlt hs hp =>
    have hstr := hp.strings h (hp.chained h hok hlt hs)
    constructor
    · intro _
      refine ⟨fun hc => absurd hc hne, fun _ _ => ⟨hlt, fun u hu hku _ => ?_⟩⟩
      exact absurd hku (h.table_eq_none.mp hs u hu)
    · intro _
      refine ⟨0, t', rfl, by simp [hstr], fun _ hsame => ?_⟩
      have hlen := congrArg List.length (hstr.symm.trans hsame)
      rw [List.length_cons] at hlen
      omega

/-- **The return code of an insert**, for every reachable table and every
string, the blocks read as the strings copied into them. -/
theorem hashTableInsertItem_iff (h : Reachable size junk t) (hb : b.Terminated) (v : CString) :
    InsertExact b t v ↔
      (t.count = BitVec.ofNat 32 t.size → v ∉ t.strings) ∧
      (t.count ≠ BitVec.ofNat 32 t.size → Storable v →
        (hashKeyGenerator v).toNat < t.size ∧
        ∀ u ∈ t.strings, hashKeyGenerator u = hashKeyGenerator v → u.bytes <+: v.bytes →
          u = v) := by
  obtain ⟨l, hl, -⟩ := h.chained
  exact hl.insertExact_iff hb v

/-- "biba", followed by two characters that cancel out in the sum. -/
def bibaLonger : CString := ⟨[98, 105, 98, 97, 1, 255], by decide⟩

theorem hashTableInsertItem_iff_biba :
    ∃ t, t.strings = [biba] ∧ (InsertExact ⟨[], []⟩ t biba ↔
      (t.count = BitVec.ofNat 32 t.size → biba ∉ t.strings) ∧
      (t.count ≠ BitVec.ofNat 32 t.size → Storable biba →
        (hashKeyGenerator biba).toNat < t.size ∧
        ∀ u ∈ t.strings, hashKeyGenerator u = hashKeyGenerator biba →
          u.bytes <+: biba.bytes → u = biba)) := by
  obtain ⟨t, ht, hs⟩ := reachable_biba ⟨[], []⟩
  exact ⟨t, hs, hashTableInsertItem_iff ht ⟨rfl, rfl⟩ biba⟩

/-- After "biba", an insert of the longer string returns 0 as a repetition,
and the string is not stored. -/
theorem not_insertExact_bibaLonger :
    ¬ ∀ (size : ℤ) (junk : BitVec 32) (t : HashTable) (b : Beyond) (v : CString),
      Reachable size junk t → b.Terminated → InsertExact b t v := by
  intro hall
  obtain ⟨t, ht, hs⟩ := reachable_biba ⟨[], []⟩
  obtain ⟨l, hl, hc⟩ := ht.chained
  have hb : Beyond.Terminated ⟨[], []⟩ := ⟨rfl, rfl⟩
  have hlen : l.length = 1 := by rw [← hl.length_strings, hs]; rfl
  have hne : t.count ≠ BitVec.ofNat 32 t.size := by
    rw [hc.count, hc.size, hlen]
    decide
  have huniq := ((hl.insertExact_iff hb bibaLonger).mp (hall _ _ t _ bibaLonger ht hb)).2 hne
    (by decide)
  have heq : biba = bibaLonger := huniq.2 biba (by simp [hs]) (by decide) (by decide)
  exact absurd heq (by decide)

end SecuritySystem
