/-
SecuritySystem/Lib/FirstCome.lean

First-come stores: bags that keep at most one element per key, the one that
came first.

A `Policy` fixes the key of an element, which elements are acceptable at all,
and at which fill levels there is room for one more.  `add` puts an acceptable
element in front when there is room and its key is free, and otherwise leaves
the store alone; `addAll` adds a list of elements one after the other.  The
store itself is the list of its elements, newest first.

The question a user of such a store has is which of the elements that were
offered are in it afterwards.  `forall_mem_addAll_iff` answers it: all of them
are exactly when they are acceptable, clash neither with each other nor with
what was there, and there is room at every fill level on the way.
-/
import Mathlib.Data.Finset.Card
import Mathlib.Data.Finset.Dedup

namespace FirstCome

variable {α κ : Type*} [DecidableEq κ]

/-- What a first-come store goes by. -/
structure Policy (α κ : Type*) where
  /-- two elements of one key exclude each other -/
  key : α → κ
  /-- elements that may be stored at all -/
  ok : α → Bool
  /-- fill levels at which one more element fits -/
  room : ℕ → Bool

variable (P : Policy α κ)

/-- The key of `v` is not taken in `l`. -/
def Policy.free (l : List α) (v : α) : Bool := l.all fun u => P.key u != P.key v

/-- Add one element, in front, if the policy lets it in. -/
def Policy.add (l : List α) (v : α) : List α :=
  if P.room l.length && P.ok v && P.free l v then v :: l else l

/-- Add the elements of a list one after the other. -/
def Policy.addAll (l vs : List α) : List α := vs.foldl P.add l

/-- The keys that the acceptable elements of a list ask for. -/
def Policy.wanted (vs : List α) : Finset κ := ((vs.filter P.ok).map P.key).toFinset

variable {P}

/-! ### One addition -/

theorem free_iff {l : List α} {v : α} :
    P.free l v = true ↔ ∀ u ∈ l, P.key u ≠ P.key v := by
  simp [Policy.free]

/-- What one addition can do, guards included. -/
theorem add_cases (l : List α) (v : α) :
    (P.room l.length = true ∧ P.ok v = true ∧ P.free l v = true ∧ P.add l v = v :: l) ∨
    ((P.room l.length = false ∨ P.ok v = false ∨ P.free l v = false) ∧ P.add l v = l) := by
  unfold Policy.add
  split
  · next h =>
    simp only [Bool.and_eq_true] at h
    exact .inl ⟨h.1.1, h.1.2, h.2, rfl⟩
  · next h =>
    refine .inr ⟨?_, rfl⟩
    by_contra hc
    simp only [not_or, Bool.not_eq_false] at hc
    exact h (by simp [hc.1, hc.2.1, hc.2.2])

theorem suffix_add (l : List α) (v : α) : l <:+ P.add l v := by
  rcases add_cases (P := P) l v with ⟨-, -, -, h⟩ | ⟨-, h⟩
  · rw [h]
    exact List.suffix_cons v l
  · rw [h]

/-- A full store stays as it is. -/
theorem add_of_full {l : List α} (h : P.room l.length = false) (v : α) : P.add l v = l := by
  simp [Policy.add, h]

/-- Distinct keys stay distinct. -/
theorem nodup_add {l : List α} (h : (l.map P.key).Nodup) (v : α) :
    ((P.add l v).map P.key).Nodup := by
  rcases add_cases (P := P) l v with ⟨-, -, hf, he⟩ | ⟨-, he⟩
  · rw [he, List.map_cons, List.nodup_cons]
    refine ⟨fun hm => ?_, h⟩
    obtain ⟨u, hu, hk⟩ := List.mem_map.mp hm
    exact free_iff.mp hf u hu hk
  · rwa [he]

theorem mem_add {l : List α} {u v : α} (h : u ∈ P.add l v) :
    u ∈ l ∨ u = v ∧ P.ok v = true := by
  rcases add_cases (P := P) l v with ⟨-, hok, -, he⟩ | ⟨-, he⟩
  · rw [he] at h
    rcases List.mem_cons.mp h with rfl | h
    · exact .inr ⟨rfl, hok⟩
    · exact .inl h
  · exact .inl (he ▸ h)

/-! ### Adding a list -/

@[simp] theorem addAll_nil (l : List α) : P.addAll l [] = l := rfl

@[simp] theorem addAll_cons (l : List α) (v : α) (vs : List α) :
    P.addAll l (v :: vs) = P.addAll (P.add l v) vs := rfl

theorem addAll_append (l vs ws : List α) :
    P.addAll l (vs ++ ws) = P.addAll (P.addAll l vs) ws := List.foldl_append ..

theorem suffix_addAll (l vs : List α) : l <:+ P.addAll l vs := by
  induction vs generalizing l with
  | nil => exact List.suffix_rfl
  | cons v vs ih => exact (suffix_add l v).trans (ih _)

theorem addAll_of_full {l : List α} (h : P.room l.length = false) (vs : List α) :
    P.addAll l vs = l := by
  induction vs with
  | nil => rfl
  | cons v vs ih => rw [addAll_cons, add_of_full h, ih]

theorem nodup_addAll {l : List α} (h : (l.map P.key).Nodup) (vs : List α) :
    ((P.addAll l vs).map P.key).Nodup := by
  induction vs generalizing l with
  | nil => exact h
  | cons v vs ih => exact ih (nodup_add h v)

/-- Whatever is in the store was there before or was offered and acceptable. -/
theorem mem_addAll {l vs : List α} {u : α} (h : u ∈ P.addAll l vs) :
    u ∈ l ∨ u ∈ vs ∧ P.ok u = true := by
  induction vs generalizing l with
  | nil => exact .inl h
  | cons v vs ih =>
    rcases ih h with h | ⟨h, hok⟩
    · rcases mem_add h with h | ⟨rfl, hok⟩
      · exact .inl h
      · exact .inr ⟨List.mem_cons_self, hok⟩
    · exact .inr ⟨List.mem_cons_of_mem v h, hok⟩

/-- There was room at every fill level the store passed. -/
theorem room_of_lt_length {l vs : List α} {j : ℕ} (hl : l.length ≤ j)
    (hj : j < (P.addAll l vs).length) : P.room j = true := by
  induction vs generalizing l with
  | nil => exact absurd hj (by simpa using hl)
  | cons v vs ih =>
    rcases add_cases (P := P) l v with ⟨hroom, -, -, he⟩ | ⟨-, he⟩
    · rcases Nat.eq_or_lt_of_le hl with rfl | hl
      · exact hroom
      · exact ih (by rw [he]; exact hl) hj
    · exact ih (by rw [he]; exact hl) hj

/-- An acceptable element whose key is missing in the end was refused because
the store was full. -/
theorem full_of_missing {l vs : List α} {v : α} (hv : v ∈ vs) (hok : P.ok v = true)
    (hk : P.free (P.addAll l vs) v = true) : P.room (P.addAll l vs).length = false := by
  induction vs generalizing l with
  | nil => cases hv
  | cons w vs ih =>
    rcases List.mem_cons.mp hv with rfl | hv
    · have hfree : P.free l v = true := free_iff.mpr fun u hu =>
        free_iff.mp hk u ((suffix_addAll l (v :: vs)).subset hu)
      rcases add_cases (P := P) l v with ⟨-, -, -, he⟩ | ⟨hc, he⟩
      · have hmem : v ∈ P.addAll l (v :: vs) :=
          (suffix_addAll (P.add l v) vs).subset (he ▸ List.mem_cons_self)
        exact absurd rfl (free_iff.mp hk v hmem)
      · have hfull : P.room l.length = false := by simpa [hok, hfree] using hc
        rw [addAll_cons, he, addAll_of_full hfull, hfull]
    · exact ih hv hk

/-- What additions put in front of a store. -/
theorem exists_new (l vs : List α) : ∃ new, P.addAll l vs = new ++ l ∧
    ∀ u ∈ new, u ∈ vs ∧ P.ok u = true ∧ P.free l u = true := by
  induction vs generalizing l with
  | nil => exact ⟨[], rfl, fun u hu => absurd hu List.not_mem_nil⟩
  | cons v vs ih =>
    obtain ⟨new, he, hnew⟩ := ih (P.add l v)
    rcases add_cases (P := P) l v with ⟨-, hok, hfree, hadd⟩ | ⟨-, hadd⟩
    · refine ⟨new ++ [v], by rw [addAll_cons, he, hadd, List.append_cons], fun u hu => ?_⟩
      rcases List.mem_append.mp hu with hu | hu
      · obtain ⟨hmem, hok', hfree'⟩ := hnew u hu
        rw [hadd, free_iff] at hfree'
        exact ⟨List.mem_cons_of_mem v hmem, hok',
          free_iff.mpr fun w hw => hfree' w (List.mem_cons_of_mem v hw)⟩
      · obtain rfl := List.mem_singleton.mp hu
        exact ⟨List.mem_cons_self, hok, hfree⟩
    · rw [hadd] at hnew
      refine ⟨new, by rw [addAll_cons, he, hadd], fun u hu => ?_⟩
      obtain ⟨hmem, hrest⟩ := hnew u hu
      exact ⟨List.mem_cons_of_mem v hmem, hrest⟩

/-- What was offered and refused once is refused ever after: a second filling
puts nothing in front that the first one was offered. -/
theorem exists_new_not_mem (l us vs : List α) :
    ∃ new, P.addAll (P.addAll l us) vs = new ++ P.addAll l us ∧
      ∀ u ∈ new, u ∈ vs ∧ u ∉ us := by
  obtain ⟨new, he, hnew⟩ := exists_new (P := P) (P.addAll l us) vs
  refine ⟨new, he, fun u hu => ⟨(hnew u hu).1, fun hus => ?_⟩⟩
  obtain ⟨-, hok, hfree⟩ := hnew u hu
  -- its key is free, so the store was full, and nothing was put in front
  rw [addAll_of_full (full_of_missing hus hok hfree)] at he
  rw [List.self_eq_append_left.mp he] at hu
  cases hu

/-- Nothing is stored at all if there is no room, or nothing acceptable. -/
theorem addAll_eq_nil_iff {vs : List α} :
    P.addAll [] vs = [] ↔ P.room 0 = false ∨ ∀ v ∈ vs, P.ok v = false := by
  constructor
  · intro hnil
    by_contra hc
    simp only [not_or, not_forall, Bool.not_eq_false] at hc
    obtain ⟨hroom, v, hv, hok⟩ := hc
    have hfull := full_of_missing hv hok (by rw [hnil]; rfl)
    rw [hnil] at hfull
    exact absurd (hfull.symm.trans hroom) (by decide)
  · rintro (hroom | hok)
    · exact addAll_of_full hroom vs
    · apply List.eq_nil_iff_forall_not_mem.mpr
      intro u hu
      obtain ⟨huvs, hok'⟩ := (mem_addAll hu).resolve_left List.not_mem_nil
      exact absurd ((hok u huvs).symm.trans hok') (by decide)

/-! ### What ends up in the store -/

omit [DecidableEq κ] in
/-- Elements of a store with distinct keys are told apart by their keys. -/
theorem eq_of_key_eq {l : List α} (h : (l.map P.key).Nodup) {u v : α} (hu : u ∈ l) (hv : v ∈ l)
    (hk : P.key u = P.key v) : u = v :=
  List.inj_on_of_nodup_map h hu hv hk

section Fits

variable [DecidableEq α] {l vs : List α} {v : α}

/-- A list of elements that the store can take: they are acceptable, agree with
whatever has their key, and find room. -/
structure Policy.Fits (P : Policy α κ) (l vs : List α) : Prop where
  ok : ∀ v ∈ vs, v ∉ l → P.ok v = true
  old : ∀ u ∈ l, ∀ v ∈ vs, P.key u = P.key v → u = v
  new : ∀ u ∈ vs, ∀ v ∈ vs, P.key u = P.key v → u = v
  room : ∀ j, l.length ≤ j → j < l.length + (vs.toFinset \ l.toFinset).card → P.room j = true

/-- What is stored fits. -/
theorem fits_of_forall_mem (hl : (l.map P.key).Nodup) (h : ∀ v ∈ vs, v ∈ P.addAll l vs) :
    P.Fits l vs := by
  have hnd := nodup_addAll hl vs
  have hsuf := suffix_addAll (P := P) l vs
  refine ⟨fun v hv hvl => ?_, fun u hu v hv => eq_of_key_eq hnd (hsuf.subset hu) (h v hv),
    fun u hu v hv => eq_of_key_eq hnd (h u hu) (h v hv), fun j hlj hj => ?_⟩
  · exact ((mem_addAll (h v hv)).resolve_left hvl).2
  · -- the store holds the old elements and, besides, all the new ones
    have hcard : (l.toFinset ∪ vs.toFinset).card ≤ (P.addAll l vs).length := by
      refine le_trans (Finset.card_le_card ?_) (List.toFinset_card_le _)
      intro u hu
      rcases Finset.mem_union.mp hu with hu | hu
      · exact List.mem_toFinset.mpr (hsuf.subset (List.mem_toFinset.mp hu))
      · exact List.mem_toFinset.mpr (h u (List.mem_toFinset.mp hu))
    have hlen : l.toFinset.card = l.length :=
      List.toFinset_card_of_nodup (List.Nodup.of_map _ hl)
    rw [← Finset.union_sdiff_self_eq_union, Finset.card_union_of_disjoint
      Finset.disjoint_sdiff, hlen] at hcard
    exact room_of_lt_length hlj (lt_of_lt_of_le hj hcard)

/-- A new element takes one place. -/
theorem card_sdiff_cons (vs : List α) (hvl : v ∉ l) :
    ((v :: vs).toFinset \ l.toFinset).card = (vs.toFinset \ (v :: l).toFinset).card + 1 := by
  have hvmem : v ∉ vs.toFinset \ (v :: l).toFinset := by simp
  rw [← Finset.card_insert_of_notMem hvmem]
  congr 1
  ext u
  by_cases huv : u = v <;> simp [huv, hvl]

omit [DecidableEq α] in
/-- An element that is there keeps its key. -/
theorem add_of_mem (hvl : v ∈ l) : P.add l v = l := by
  rcases add_cases (P := P) l v with ⟨-, -, hf, -⟩ | ⟨-, he⟩
  · exact absurd rfl (free_iff.mp hf v hvl)
  · exact he

/-- A new one is taken. -/
theorem Policy.Fits.add_of_not_mem (h : P.Fits l (v :: vs)) (hvl : v ∉ l) :
    P.add l v = v :: l := by
  have hfree : P.free l v = true := free_iff.mpr fun u hu hk =>
    hvl (h.old u hu v List.mem_cons_self hk ▸ hu)
  have hcard := card_sdiff_cons vs hvl
  have hroom : P.room l.length = true := h.room l.length le_rfl (by omega)
  simp [Policy.add, h.ok v List.mem_cons_self hvl, hfree, hroom]

theorem Policy.Fits.mem_add (h : P.Fits l (v :: vs)) : v ∈ P.add l v := by
  by_cases hvl : v ∈ l
  · rwa [add_of_mem hvl]
  · rw [h.add_of_not_mem hvl]
    exact List.mem_cons_self

/-- Behind the first element the others still fit. -/
theorem Policy.Fits.tail (h : P.Fits l (v :: vs)) : P.Fits (P.add l v) vs := by
  have hnew : ∀ u ∈ vs, ∀ w ∈ vs, P.key u = P.key w → u = w := fun u hu w hw =>
    h.new u (List.mem_cons_of_mem v hu) w (List.mem_cons_of_mem v hw)
  by_cases hvl : v ∈ l
  · rw [add_of_mem hvl]
    refine ⟨fun w hw => h.ok w (List.mem_cons_of_mem v hw),
      fun u hu w hw => h.old u hu w (List.mem_cons_of_mem v hw), hnew,
      fun j hlj hj => h.room j hlj ?_⟩
    rwa [List.toFinset_cons, Finset.insert_sdiff_of_mem _ (List.mem_toFinset.mpr hvl)]
  · rw [h.add_of_not_mem hvl]
    refine ⟨fun w hw hwl => h.ok w (List.mem_cons_of_mem v hw)
        fun hwl' => hwl (List.mem_cons_of_mem v hwl'), fun u hu w hw => ?_, hnew,
      fun j hlj hj => h.room j ((Nat.le_succ _).trans hlj) ?_⟩
    · rcases List.mem_cons.mp hu with rfl | hu
      · exact h.new u List.mem_cons_self w (List.mem_cons_of_mem u hw)
      · exact h.old u hu w (List.mem_cons_of_mem v hw)
    · have hcard := card_sdiff_cons vs hvl
      rw [List.length_cons] at hj
      omega

/-- What fits is stored. -/
theorem Policy.Fits.forall_mem (h : P.Fits l vs) : ∀ v ∈ vs, v ∈ P.addAll l vs := by
  induction vs generalizing l with
  | nil => exact fun v hv => absurd hv List.not_mem_nil
  | cons v vs ih =>
    intro w hw
    rcases List.mem_cons.mp hw with rfl | hw
    · exact (suffix_addAll (P.add l w) vs).subset h.mem_add
    · exact ih h.tail w hw

/-- All elements offered are stored exactly when they are acceptable, agree
with whatever has their key, and find room. -/
theorem forall_mem_addAll_iff (hl : (l.map P.key).Nodup) (vs : List α) :
    (∀ v ∈ vs, v ∈ P.addAll l vs) ↔ P.Fits l vs :=
  ⟨fits_of_forall_mem hl, Policy.Fits.forall_mem⟩

end Fits

/-- Filling an empty store: either there is room for every key that is asked
for, and each is taken, or the store stops at the first level without room. -/
theorem length_addAll_nil (vs : List α) :
    ((∀ j < (P.wanted vs).card, P.room j = true) ∧
      (P.addAll [] vs).length = (P.wanted vs).card) ∨
    (P.room (P.addAll [] vs).length = false ∧
      (P.addAll [] vs).length < (P.wanted vs).card) := by
  have hnd : ((P.addAll [] vs).map P.key).Nodup := nodup_addAll (by simp) vs
  have hsub : ((P.addAll [] vs).map P.key).toFinset ⊆ P.wanted vs := by
    intro k hk
    obtain ⟨u, hu, rfl⟩ := List.mem_map.mp (List.mem_toFinset.mp hk)
    obtain ⟨huvs, hok⟩ := (mem_addAll hu).resolve_left (List.not_mem_nil)
    exact List.mem_toFinset.mpr (List.mem_map_of_mem (List.mem_filter.mpr ⟨huvs, hok⟩))
  have hlen : (P.addAll [] vs).length = ((P.addAll [] vs).map P.key).toFinset.card := by
    rw [List.toFinset_card_of_nodup hnd, List.length_map]
  rcases Nat.eq_or_lt_of_le (hlen ▸ Finset.card_le_card hsub) with heq | hlt
  · exact .inl ⟨fun j hj => room_of_lt_length (l := []) (Nat.zero_le j) (heq ▸ hj), heq⟩
  · refine .inr ⟨?_, hlt⟩
    -- some wanted key is missing, and only lack of room can be the reason
    obtain ⟨k, hk, hkn⟩ := Finset.exists_mem_notMem_of_card_lt_card (hlen ▸ hlt)
    obtain ⟨v, hv, rfl⟩ := List.mem_map.mp (List.mem_toFinset.mp hk)
    obtain ⟨hvvs, hok⟩ := List.mem_filter.mp hv
    exact full_of_missing hvvs hok (free_iff.mpr fun u hu he =>
      hkn (List.mem_toFinset.mpr (he ▸ List.mem_map_of_mem hu)))

end FirstCome
