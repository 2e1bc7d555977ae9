/-
SecuritySystem/HashTableBlocks.lean

The blocks that a run of inserts takes, and what becomes of them.

An insert allocates an item before it looks whether the slot is free, and drops
it if it is not: then nothing points to the item any more.  `hash_table_free`
frees the stored items, each one once, so what a table keeps for good are the
items of the inserts that were given a block in vain (`lost`), and there is
nothing else: `insertAll_blocks` is the balance of any run.
-/
import SecuritySystem.HashTableSafety

namespace SecuritySystem

open CMem FirstCome

variable {t t' t₀ : HashTable} {l : List Addr} {v : CString} {b : Beyond} {n : ℕ}
variable {size : ℤ} {junk : BitVec 32} {calls : List (CString × Beyond)} {rc : UInt32}

/-! ### Blocks in vain -/

/-- With the strings `stored` in the table, `v` gets a block and is not added. -/
def Wasted (n : ℕ) (junk : BitVec 32) (stored : List CString) (v : CString) : Prop :=
  (policy n junk).room stored.length = true ∧ GetsBlock v ∧ (policy n junk).add stored v = stored

instance (n : ℕ) (junk : BitVec 32) (stored : List CString) (v : CString) :
    Decidable (Wasted n junk stored v) :=
  inferInstanceAs (Decidable (_ ∧ _))

/-- The blocks that a run of inserts gets in vain. -/
def lost (n : ℕ) (junk : BitVec 32) : List CString → List CString → ℕ
  | _, [] => 0
  | stored, v :: vs =>
    (if Wasted n junk stored v then 1 else 0) + lost n junk ((policy n junk).add stored v) vs

/-- Nothing is lost exactly if no insert gets a block in vain. -/
theorem lost_eq_zero_iff {stored vs : List CString} :
    lost n junk stored vs = 0 ↔ ∀ front v back, vs = front ++ v :: back →
      ¬ Wasted n junk ((policy n junk).addAll stored front) v := by
  induction vs generalizing stored with
  | nil =>
    refine iff_of_true rfl fun front v back h => ?_
    exact absurd h.symm (List.append_ne_nil_of_right_ne_nil front (List.cons_ne_nil v back))
  | cons v vs ih =>
    rw [lost, Nat.add_eq_zero_iff, ih]
    constructor
    · rintro ⟨hv, hvs⟩ front u back h
      rcases front with - | ⟨w, front⟩
      · obtain ⟨rfl, -⟩ := List.cons.inj h
        intro hw
        rw [addAll_nil] at hw
        rw [if_pos hw] at hv
        cases hv
      · obtain ⟨rfl, hrest⟩ := List.cons.inj h
        exact hvs front u back hrest
    · intro hall
      refine ⟨if_neg (hall [] v vs rfl), fun front u back h => ?_⟩
      exact hall (v :: front) u back (by rw [h, List.cons_append])

/-! ### The balance -/

/-- Different addresses below `m` are all of them exactly if they are `m`. -/
theorem forall_lt_mem_iff {l : List Addr} {m : ℕ} (hnd : l.Nodup) (hlt : ∀ a ∈ l, a < m) :
    (∀ a < m, a ∈ l) ↔ m = l.length := by
  have hsub : l.Subperm (List.range m) := hnd.subperm fun a ha => List.mem_range.mpr (hlt a ha)
  constructor
  · intro hall
    have hsup : (List.range m).Subperm l :=
      List.nodup_range.subperm fun a ha => hall a (List.mem_range.mp ha)
    have hle := hsup.length_le
    have hle' := hsub.length_le
    rw [List.length_range] at hle hle'
    exact Nat.le_antisymm hle hle'
  · intro hm a ha
    have hperm := hsub.perm_of_length_le (by rw [List.length_range, hm])
    exact hperm.mem_iff.mpr (List.mem_range.mpr ha)

/-- What is added was given a block. -/
theorem getsBlock_of_ok (h : (policy n junk).ok v = true) : GetsBlock v :=
  Storable.getsBlock (of_decide_eq_true h)

/-- **One insert**: a block for a string that is added, or in vain, or none. -/
theorem hashTableInsertItem_blocks (h : Chained t l) (hc : Counted n junk t l)
    (he : hashTableInsertItem b t v = .ok (rc, t')) :
    t.strings.length + t'.brk = t'.strings.length + t.brk +
      if Wasted n junk t.strings v then 1 else 0 := by
  have hroom : (policy n junk).room t.strings.length = true ↔
      t.count ≠ BitVec.ofNat 32 t.size := by
    rw [h.length_strings, hc.count, hc.size]
    exact decide_eq_true_iff
  have hbrk := hashTableInsertItem_brk he
  rw [hashTableInsertItem_strings h hc he]
  rcases add_cases (P := policy n junk) t.strings v with ⟨hr, hok, -, hadd⟩ | ⟨-, hadd⟩
  · -- the string is added, with its block
    have hnot : ¬ Wasted n junk t.strings v := fun hw => by
      have hlen := congrArg List.length (hadd.symm.trans hw.2.2)
      rw [List.length_cons] at hlen
      omega
    rw [if_pos ⟨hroom.mp hr, getsBlock_of_ok hok⟩] at hbrk
    rw [if_neg hnot, hadd, hbrk, List.length_cons]
    omega
  · rw [hadd]
    by_cases hblock : (policy n junk).room t.strings.length = true ∧ GetsBlock v
    · have hw : Wasted n junk t.strings v := ⟨hblock.1, hblock.2, hadd⟩
      rw [if_pos ⟨hroom.mp hblock.1, hblock.2⟩] at hbrk
      rw [if_pos hw, hbrk]
      omega
    · have hnot : ¬ Wasted n junk t.strings v := fun hw => hblock ⟨hw.1, hw.2.1⟩
      rw [if_neg fun hc => hblock ⟨hroom.mpr hc.1, hc.2⟩] at hbrk
      rw [if_neg hnot, hbrk]
      rfl

/-- A run of inserts. -/
theorem insertAll_brk (h : Chained t l) (hc : Counted n junk t l)
    (he : insertAll t calls = .ok t') :
    t.strings.length + t'.brk =
      t'.strings.length + t.brk + lost n junk t.strings (calls.map Prod.fst) := by
  induction calls generalizing t l with
  | nil =>
    obtain rfl : t = t' := Except.ok.inj he
    rfl
  | cons call calls ih =>
    obtain ⟨v, b⟩ := call
    obtain ⟨⟨rc, t₁⟩, hi, he⟩ := bind_eq_ok he
    obtain ⟨l₁, h₁, hc₁⟩ := hc.step h hi
    have hstep := hashTableInsertItem_blocks h hc hi
    have hrun := ih h₁ hc₁ he
    rw [hashTableInsertItem_strings h hc hi] at hstep hrun
    rw [List.map_cons, lost]
    dsimp only
    omega

/-- **The blocks of any run** on a fresh table: `hash_table_free` frees the
items of the stored strings, none twice, and all others were got in vain; there
are none of these exactly if each string that got a block was added. -/
theorem insertAll_blocks (hcreate : hashTableCreate size junk = some t₀)
    (he : insertAll t₀ calls = .ok t) :
    (hashTableFree t).Nodup ∧
      ((hashTableFree t).map fun a => CString.ofMem (t.blockOf a)).Perm t.strings ∧
      (∀ a ∈ hashTableFree t, a < t.brk) ∧
      t.brk = (hashTableFree t).length + lost size.toNat junk [] (calls.map Prod.fst) ∧
      ((∀ a < t.brk, a ∈ hashTableFree t) ↔
        ∀ front v back, calls.map Prod.fst = front ++ v :: back →
          ¬ Wasted size.toNat junk ((policy size.toNat junk).addAll [] front) v) := by
  have h₀ := hashTableCreate_chained hcreate
  have hc₀ := hashTableCreate_counted hcreate
  obtain ⟨l, h, -⟩ := insertAll_counted h₀ hc₀ he
  have hnil : t₀.strings = [] := List.length_eq_zero_iff.mp h₀.length_strings
  have hbrk : t₀.brk = 0 := by
    unfold hashTableCreate at hcreate
    split at hcreate
    · cases hcreate
    · obtain rfl := Option.some.inj hcreate
      rfl
  have hlength : (hashTableFree t).length = t.strings.length := by
    rw [h.length_strings, h.perm_free.length_eq]
  have hbelow : ∀ a ∈ hashTableFree t, a < t.brk := fun a ha =>
    h.below a (h.perm_free.mem_iff.mp ha)
  have hbalance := insertAll_brk h₀ hc₀ he
  rw [hnil, hbrk, List.length_nil, Nat.add_zero, Nat.zero_add, ← hlength] at hbalance
  refine ⟨h.nodup_free.1, h.map_free, hbelow, hbalance, ?_⟩
  rw [forall_lt_mem_iff h.nodup_free.1 hbelow, ← lost_eq_zero_iff, hbalance]
  exact Nat.add_eq_left

/-- The item of a second "biba" is lost, and that of "babi" as well. -/
theorem insertAll_blocks_biba :
    ∃ t₀ t, hashTableCreate HASH_TABLE_MAX 0 = some t₀ ∧
      insertAll t₀ [(biba, ⟨[], []⟩), (biba, ⟨[], []⟩), (babi, ⟨[], []⟩)] = .ok t ∧
      t.brk = (hashTableFree t).length + 2 := by
  obtain ⟨t₀, t, hcreate, hrun, -⟩ :=
    insertAll_created 0 [(biba, ⟨[], []⟩), (biba, ⟨[], []⟩), (babi, ⟨[], []⟩)]
  have hlost : lost HASH_TABLE_MAX.toNat 0 [] [biba, biba, babi] = 2 := by decide
  obtain ⟨-, -, -, hbrk, -⟩ := insertAll_blocks hcreate hrun
  exact ⟨t₀, t, hcreate, hrun, hbrk.trans (congrArg _ hlost)⟩

end SecuritySystem
