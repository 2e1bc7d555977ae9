/-
SecuritySystem/Backup/TableCount.lean

What `count` of a hash table counts.

`hash_table_create` leaves `count` as it finds it, and each insert that links
an item adds one.  So `count` is the number of occupied slots plus what was in
the memory of the table; whoever asks for a full table, or for a void one, gets
the right answer exactly when that was 0 (`countRight_iff`).
-/
import SecuritySystem.HashTableSafety
import SecuritySystem.Backup.ScanFree

namespace SecuritySystem.Backup

open CMem

variable {t : HashTable} {l : List Addr} {size : ℤ} {junk : BitVec 32}

/-- The number of occupied slots. -/
def occupied (t : HashTable) : ℕ := (List.range t.size).countP fun k => (t.table k).isSome

/-- `count` is the number of occupied slots; a table of the largest size is
never refused as full; and `backup_fs_iteration_main` on such a table turns its
code to the one for a void table exactly when the start has left nothing in
it. -/
structure CountRight (t : HashTable) : Prop where
  occupied : t.count.toInt = occupied t
  notFull : t.size = HASH_TABLE_MAX.toNat → t.count ≠ BitVec.ofNat 32 t.size
  void : t.size = HASH_TABLE_MAX.toNat →
    ∀ env root items s rc, backupCheckFsAndRun env ⟨root, t⟩ items = (s, .ok rc) →
      backupFsIterationMain env ⟨root, t⟩ items =
        (s, .ok (if s.arg.hashTable.strings = [] then HELPERS_INVALID_EXIT else rc))

theorem occupied_eq (h : Chained t l) : occupied t = l.length := by
  rw [occupied, ← List.length_filterMap_eq_countP]
  exact h.perm_free.length_eq

/-- Slots 0 and 1 stay empty, and no slot behind the largest size is used. -/
theorem occupied_le (h : Chained t l) : occupied t ≤ 9998 := by
  have hsub : ((List.range t.size).filter fun k => (t.table k).isSome).toFinset ⊆
      Finset.Ico 2 10000 := by
    intro k hk
    obtain ⟨-, hk⟩ := List.mem_filter.mp (List.mem_toFinset.mp hk)
    obtain ⟨a, ha⟩ := Option.isSome_iff_exists.mp hk
    obtain ⟨_, -, -, -, htwo, hlt⟩ := h.viewsAgree.slot k a ha
    exact Finset.mem_Ico.mpr ⟨htwo, hlt⟩
  have hcard := Finset.card_le_card hsub
  rwa [List.toFinset_card_of_nodup (List.nodup_range.filter _), Nat.card_Ico,
    ← List.countP_eq_length_filter] at hcard

theorem length_le (h : Chained t l) : l.length ≤ 9998 := occupied_eq h ▸ occupied_le h

theorem toInt_ofNat_count {n : ℕ} (h : n ≤ 9998) : (BitVec.ofNat 32 n).toInt = n := by
  rw [BitVec.toInt_ofNat']
  exact Int.bmod_eq_of_le (by omega) (by omega)

/-- From 0, the count is that of the slots. -/
theorem toInt_count_iff {n : ℕ} (h : Chained t l) (hc : Counted n junk t l) :
    t.count.toInt = occupied t ↔ junk = 0 := by
  rw [occupied_eq h, ← toInt_ofNat_count (length_le h), BitVec.toInt_inj, hc.count]
  exact BitVec.add_left_eq_self

theorem count_eq_zero_iff (h : InOrder 0 t) : t.count = 0 ↔ t.strings = [] := by
  obtain ⟨l, hl, hc⟩ := h
  have hcount : t.count = BitVec.ofNat 32 l.length := hc.count.trans (BitVec.zero_add _)
  rw [← List.length_eq_zero_iff, hl.length_strings, hcount, ← BitVec.toInt_inj,
    toInt_ofNat_count (length_le hl)]
  exact Int.natCast_eq_zero

/-- A table whose count started from 0. -/
theorem countRight_of_zero (h : Reachable size 0 t) : CountRight t := by
  obtain ⟨l, hl, hc⟩ := h.chained
  have hcount := (toInt_count_iff hl hc).mpr rfl
  refine ⟨hcount, fun hsize he => ?_, fun hsize env root items s rc hrun => ?_⟩
  · have hle := occupied_le hl
    have h10000 : (BitVec.ofNat 32 10000).toInt = 10000 := by decide
    rw [he, hsize] at hcount
    have heq : (10000 : ℤ) = occupied t := h10000.symm.trans hcount
    omega
  · -- the start keeps the count in step
    have hin : InOrder 0 t := ⟨l, hl, hsize, hc.count⟩
    have hvoid := count_eq_zero_iff (strings_of_ok ⟨root, t⟩ hin hrun).1
    rw [backupFsIterationMain, hrun]
    by_cases h0 : s.arg.hashTable.strings = []
    · rw [if_pos h0]
      exact if_pos (hvoid.mpr h0)
    · rw [if_neg h0]
      exact if_neg fun he => h0 (hvoid.mp he)

/-- **Exactly when the count is right**, for every reachable table: when it was
created in memory that held 0 there. -/
theorem countRight_iff (h : Reachable size junk t) : CountRight t ↔ junk = 0 := by
  obtain ⟨l, hl, hc⟩ := h.chained
  constructor
  · exact fun hright => (toInt_count_iff hl hc).mp hright.occupied
  · rintro rfl
    exact countRight_of_zero h

/-- The table with "biba" alone, created in memory that held 0. -/
theorem countRight_iff_biba : ∃ t, t.strings = [biba] ∧ (CountRight t ↔ (0 : BitVec 32) = 0) := by
  obtain ⟨t, ht, hs⟩ := reachable_biba ⟨[], []⟩
  exact ⟨t, hs, countRight_iff ht⟩

/-- A fresh table in memory that held 10000: nothing is stored, and it counts as full. -/
theorem not_countRight_full :
    ¬ ∀ (size : ℤ) (junk : BitVec 32) (t : HashTable), Reachable size junk t → CountRight t := by
  intro hall
  obtain ⟨t₀, hcreate⟩ := exists_hashTableCreate 10000
  have hright := hall HASH_TABLE_MAX 10000 t₀ ⟨t₀, [], hcreate, rfl⟩
  have hc := hashTableCreate_counted hcreate
  exact hright.notFull hc.size (by rw [hc.count, hc.size]; decide)

end SecuritySystem.Backup
