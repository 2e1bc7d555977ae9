/-
SecuritySystem/Lib/Linked.lean

Pointer chains, over any type `α` of cells.

A link field is a partial function `succ : α → Option α`; the null pointer is
`none`.  `Follows succ p l` says that reading `p` and then the link fields one
after the other meets exactly the cells of `l`, in that order, and ends in the
null pointer.  The list is determined by the fields (`Follows.unique`) and
cannot repeat a cell (`Follows.nodup`): a chain that ends is acyclic.
`Follows.concat` is the rule for putting a new cell at its end.

`Doubly prev next head l` adds a second link field that undoes the first one
along the chain.  `Doubly.push` is the rule for putting a new cell in front,
stated about the fields before and after the writes, so that it does not
depend on how a program stores its cells.
-/
import Mathlib.Data.List.Nodup

namespace Linked

variable {α : Type*} {succ succ' prev prev' next next' : α → Option α}

/-! ### Chains through one link field -/

/-- Starting at pointer `p`, following `succ` meets exactly the cells of `l`
and then the null pointer. -/
def Follows (succ : α → Option α) : Option α → List α → Prop
  | p, [] => p = none
  | p, a :: l => p = some a ∧ Follows succ (succ a) l

/-- The cells met in at most `n` steps from pointer `p`. -/
def walk (succ : α → Option α) : ℕ → Option α → List α
  | 0, _ => []
  | _ + 1, none => []
  | n + 1, some a => a :: walk succ n (succ a)

@[simp] theorem follows_nil {p : Option α} : Follows succ p [] ↔ p = none := Iff.rfl

@[simp] theorem follows_cons {p : Option α} {a : α} {l : List α} :
    Follows succ p (a :: l) ↔ p = some a ∧ Follows succ (succ a) l := Iff.rfl

/-- The fields determine the chain. -/
theorem Follows.unique {p : Option α} {l l' : List α}
    (h : Follows succ p l) (h' : Follows succ p l') : l = l' := by
  induction l generalizing p l' with
  | nil =>
    cases l' with
    | nil => rfl
    | cons b l' => exact absurd (h.symm.trans h'.1) (by simp)
  | cons a l ih =>
    cases l' with
    | nil => exact absurd (h.1.symm.trans h') (by simp)
    | cons b l' =>
      obtain rfl : a = b := Option.some.inj (h.1.symm.trans h'.1)
      rw [ih h.2 h'.2]

/-- Following from a cell of the chain meets a suffix of the chain. -/
theorem Follows.suffix {p : Option α} {l : List α} (h : Follows succ p l) :
    ∀ a ∈ l, ∃ m, (a :: m) <:+ l ∧ Follows succ (succ a) m := by
  induction l generalizing p with
  | nil => simp
  | cons b l ih =>
    intro a ha
    rcases List.mem_cons.mp ha with rfl | ha
    · exact ⟨l, List.suffix_rfl, h.2⟩
    · obtain ⟨m, hm, hf⟩ := ih h.2 a ha
      exact ⟨m, hm.trans (List.suffix_cons b l), hf⟩

/-- A chain that ends meets no cell twice. -/
theorem Follows.nodup {p : Option α} {l : List α} (h : Follows succ p l) : l.Nodup := by
  induction l generalizing p with
  | nil => exact List.nodup_nil
  | cons a l ih =>
    refine List.nodup_cons.mpr ⟨fun ha => ?_, ih h.2⟩
    -- from `a` one would meet both `l` and a proper suffix of `l`
    obtain ⟨m, hm, hf⟩ := h.2.suffix a ha
    have hlen := hm.length_le
    rw [h.2.unique hf, List.length_cons] at hlen
    omega

/-- A chain only depends on the link fields of its own cells. -/
theorem Follows.congr {p : Option α} {l : List α} (h : Follows succ p l)
    (he : ∀ a ∈ l, succ' a = succ a) : Follows succ' p l := by
  induction l generalizing p with
  | nil => exact h
  | cons a l ih =>
    refine ⟨h.1, ?_⟩
    rw [he a List.mem_cons_self]
    exact ih h.2 fun b hb => he b (List.mem_cons_of_mem a hb)

/-- The cell a chain starts at belongs to it. -/
theorem Follows.head_mem {p : Option α} {l : List α} (h : Follows succ p l) {a : α}
    (ha : p = some a) : a ∈ l := by
  cases l with
  | nil => exact absurd (ha.symm.trans h) (by simp)
  | cons c l =>
    obtain rfl : a = c := Option.some.inj (ha.symm.trans h.1)
    exact List.mem_cons_self

/-- Nothing in the chain points back at its head. -/
theorem Follows.succ_ne_head {p : Option α} {l : List α} (h : Follows succ p l) {a : α}
    (ha : a ∈ l) (hp : p ≠ none) : succ a ≠ p := by
  cases l with
  | nil => exact absurd h hp
  | cons b l =>
    rw [h.1]
    intro hb
    obtain ⟨m, hm, hf⟩ := h.suffix a ha
    cases m with
    | nil => exact absurd (hb.symm.trans hf) (by simp)
    | cons c m =>
      obtain rfl : b = c := Option.some.inj (hb.symm.trans hf.1)
      have hsub : (b :: m) <:+ l := by
        rcases List.suffix_cons_iff.mp hm with heq | hsuf
        · simp only [List.cons.injEq] at heq
          exact heq.2 ▸ List.suffix_rfl
        · exact (List.suffix_cons a _).trans hsuf
      exact (List.nodup_cons.mp h.nodup).1 (hsub.subset List.mem_cons_self)

/-- Putting the new cell `x` at the end: its link is null, the link of the old
last cell is `x`, and no other link of the chain is touched. -/
theorem Follows.concat {p p' : Option α} {l : List α} (h : Follows succ p l) {x : α}
    (hp : p' = if l = [] then some x else p) (hx : succ' x = none)
    (hlast : ∀ a ∈ l.getLast?, succ' a = some x)
    (hl : ∀ a ∈ l, a ∉ l.getLast? → succ' a = succ a) : Follows succ' p' (l ++ [x]) := by
  induction l generalizing p p' with
  | nil => exact ⟨hp, hx⟩
  | cons a l ih =>
    refine ⟨hp.trans h.1, ih h.2 ?_ ?_ ?_⟩
    · cases l with
      | nil => exact hlast a rfl
      | cons b l =>
        -- `a` is not the last cell, since the last one stands behind it
        have hne : a ∉ (a :: b :: l).getLast? := by
          rw [List.getLast?_cons_cons]
          exact fun he => (List.nodup_cons.mp h.nodup).1 (List.mem_of_getLast? he)
        exact hl a List.mem_cons_self hne
    · intro b hb
      cases l with
      | nil => cases hb
      | cons c l => exact hlast b (by rwa [List.getLast?_cons_cons])
    · intro b hb hne
      cases l with
      | nil => cases hb
      | cons c l => exact hl b (List.mem_cons_of_mem a hb) (by rwa [List.getLast?_cons_cons])

/-- With enough fuel the walk is the chain. -/
theorem Follows.walk_eq {p : Option α} {l : List α} (h : Follows succ p l) {n : ℕ}
    (hn : l.length ≤ n) : walk succ n p = l := by
  induction l generalizing p n with
  | nil =>
    obtain rfl : p = none := h
    cases n <;> rfl
  | cons a l ih =>
    obtain ⟨n, rfl⟩ : ∃ m, n = m + 1 := ⟨n - 1, by simp at hn; omega⟩
    obtain ⟨rfl, hl⟩ := h
    rw [walk, ih hl (by simpa using hn)]

/-! ### Doubly linked chains -/

/-- `l` is the chain of `prev` from `head`, and along it `next` undoes
`prev`. -/
structure Doubly (prev next : α → Option α) (head : Option α) (l : List α) : Prop where
  follows : Follows prev head l
  inverse : ∀ a b, (a ∈ l ∧ prev a = some b) ↔ (b ∈ l ∧ next b = some a)

theorem Doubly.nil : Doubly prev next none [] := ⟨rfl, by simp⟩

/-- The head of a doubly linked chain has no `next`. -/
theorem Doubly.next_head {head : Option α} {l : List α} (h : Doubly prev next head l) {a : α}
    (ha : head = some a) : next a = none := by
  rcases hn : next a with - | b
  · rfl
  · obtain ⟨hb, hp⟩ := (h.inverse b a).mpr ⟨h.follows.head_mem ha, hn⟩
    exact absurd (hp.trans ha.symm) (h.follows.succ_ne_head hb (by simp [ha]))

/-- Writes that leave both link fields of the chain's cells alone keep the
chain. -/
theorem Doubly.congr {head : Option α} {l : List α} (h : Doubly prev next head l)
    (hp : ∀ a ∈ l, prev' a = prev a) (hn : ∀ a ∈ l, next' a = next a) :
    Doubly prev' next' head l := by
  refine ⟨h.follows.congr hp, fun a b => ?_⟩
  rw [and_congr_right (fun ha => by rw [hp a ha]), h.inverse a b]
  exact and_congr_right fun hb => by rw [hn b hb]

/-- Putting the new cell `x` in front: its `prev` is the old head, the old
head's `next` is `x`, and no other link field of the chain is touched. -/
theorem Doubly.push {head : Option α} {l : List α} (h : Doubly prev next head l) {x : α}
    (hx : x ∉ l) (hpx : prev' x = head) (hpl : ∀ a ∈ l, prev' a = prev a)
    (hnx : next' x = none) (hnh : ∀ a, head = some a → next' a = some x)
    (hnl : ∀ a ∈ l, head ≠ some a → next' a = next a) :
    Doubly prev' next' (some x) (x :: l) := by
  refine ⟨⟨rfl, hpx ▸ h.follows.congr hpl⟩, fun a b => ⟨?_, ?_⟩⟩
  · rintro ⟨ha, hab⟩
    rcases List.mem_cons.mp ha with rfl | ha
    · -- behind the new cell comes the old head
      have hb : head = some b := hpx.symm.trans hab
      exact ⟨List.mem_cons_of_mem _ (h.follows.head_mem hb), hnh b hb⟩
    · rw [hpl a ha] at hab
      obtain ⟨hb, hba⟩ := (h.inverse a b).mp ⟨ha, hab⟩
      -- a cell with a `next` is not the old head, so its `next` is untouched
      have hne : head ≠ some b := fun hb' => by
        rw [h.next_head hb'] at hba; cases hba
      exact ⟨List.mem_cons_of_mem _ hb, (hnl b hb hne).trans hba⟩
  · rintro ⟨hb, hba⟩
    rcases List.mem_cons.mp hb with rfl | hb
    · rw [hnx] at hba; cases hba
    · by_cases hne : head = some b
      · obtain rfl : x = a := Option.some.inj ((hnh b hne).symm.trans hba)
        exact ⟨List.mem_cons_self, hpx.trans hne⟩
      · rw [hnl b hb hne] at hba
        obtain ⟨ha, hab⟩ := (h.inverse a b).mpr ⟨hb, hba⟩
        exact ⟨List.mem_cons_of_mem _ ha, (hpl a ha).trans hab⟩

end Linked
