/-
SecuritySystem/Lib/Pieces.lean

A stream that is written in blocks and read in pieces.

The writer sends blocks of one width; the transport delivers the same symbols
in pieces of other sizes.  `pieces sizes s` cuts the stream `s` into pieces of
the given sizes.  What a reader does at a piece depends on where the piece
starts, so the facts below locate it: a run over `pre ++ n :: post` reads `n`
symbols at offset `pre.sum` (`pieces_append`), and that offset falls into a
definite block (`drop_flatMap`).

A property of every cut point is an invariant of the prefixes of `sizes`.
Where it fails there is a first piece at which it fails (`first_failure`).
-/
import Mathlib.Algebra.BigOperators.Group.List.Basic
import Mathlib.Algebra.GroupWithZero.Nat
import Mathlib.Data.List.Induction

namespace Pieces

variable {α β : Type*}

/-- Cut a stream into pieces of the given sizes. -/
def pieces : List ℕ → List α → List (List α)
  | [], _ => []
  | n :: sizes, s => s.take n :: pieces sizes (s.drop n)

@[simp] theorem pieces_nil (s : List α) : pieces [] s = [] := rfl

@[simp] theorem pieces_cons (n : ℕ) (sizes : List ℕ) (s : List α) :
    pieces (n :: sizes) s = s.take n :: pieces sizes (s.drop n) := rfl

theorem pieces_append (pre post : List ℕ) (s : List α) :
    pieces (pre ++ post) s = pieces pre s ++ pieces post (s.drop pre.sum) := by
  induction pre generalizing s with
  | nil => simp
  | cons n pre ih =>
    rw [List.cons_append, pieces_cons, ih, pieces_cons, List.sum_cons, List.drop_drop,
      List.cons_append]

/-- The pieces hold symbols of the stream only. -/
theorem mem_of_mem_pieces {sizes : List ℕ} {s p : List α} {a : α} (hp : p ∈ pieces sizes s)
    (ha : a ∈ p) : a ∈ s := by
  induction sizes generalizing s with
  | nil => cases hp
  | cons n sizes ih =>
    rcases List.mem_cons.mp hp with rfl | hp
    · exact List.mem_of_mem_take ha
    · exact List.mem_of_mem_drop (ih hp)

/-- No piece of positive size is empty while the stream lasts. -/
theorem ne_nil_of_mem_pieces {sizes : List ℕ} {s p : List α} (hpos : ∀ n ∈ sizes, 1 ≤ n)
    (hle : sizes.sum ≤ s.length) (hp : p ∈ pieces sizes s) : p ≠ [] := by
  induction sizes generalizing s with
  | nil => cases hp
  | cons n sizes ih =>
    have hn := hpos n List.mem_cons_self
    rw [List.sum_cons] at hle
    rcases List.mem_cons.mp hp with rfl | hp
    · intro h0
      have hlen := congrArg List.length h0
      rw [List.length_take, List.length_nil] at hlen
      omega
    · exact ih (fun m hm => hpos m (List.mem_cons_of_mem n hm))
        (by rw [List.length_drop]; omega) hp

/-! ### Blocks -/

variable {w : ℕ} {f : β → List α}

theorem length_flatMap_blocks (hw : ∀ b, (f b).length = w) (l : List β) :
    (l.flatMap f).length = w * l.length := by
  induction l with
  | nil => rfl
  | cons b l ih =>
    rw [List.flatMap_cons, List.length_append, hw, ih, List.length_cons, Nat.mul_succ, Nat.add_comm]

/-- An offset of `p` symbols into the block behind `l₁`. -/
theorem drop_flatMap (hw : ∀ b, (f b).length = w) (l₁ : List β) (b : β) (l₂ : List β) {p : ℕ}
    (hp : p ≤ w) :
    ((l₁ ++ b :: l₂).flatMap f).drop (w * l₁.length + p) = (f b).drop p ++ l₂.flatMap f := by
  rw [List.flatMap_append, List.flatMap_cons, ← length_flatMap_blocks hw l₁, ← List.drop_drop,
    List.drop_left, List.drop_append_of_le_length (by rw [hw]; exact hp)]

/-! ### Properties of the cut points -/

/-- A property of the prefixes of a list and the elements behind them holds
throughout, or there is a first place where it fails. -/
theorem first_failure (G : List α → α → Prop) (l : List α) :
    (∀ pre n post, l = pre ++ n :: post → G pre n) ∨
    ∃ pre n post, l = pre ++ n :: post ∧
      (∀ pre' n' post', pre = pre' ++ n' :: post' → G pre' n') ∧ ¬ G pre n := by
  induction l using List.reverseRecOn with
  | nil => exact .inl fun pre n post h => absurd h (by simp)
  | append_singleton l a ih =>
    rcases ih with hall | ⟨pre, n, post, rfl, hpre, hn⟩
    · by_cases ha : G l a
      · refine .inl fun pre n post h => ?_
        rcases List.eq_nil_or_concat post with rfl | ⟨post, b, rfl⟩
        · obtain ⟨rfl, hb⟩ := List.append_inj' h rfl
          obtain rfl := (List.cons.inj hb).1
          exact ha
        · rw [List.concat_eq_append, ← List.cons_append, ← List.append_assoc] at h
          exact hall pre n post (List.append_inj' h rfl).1
      · exact .inr ⟨l, a, [], rfl, hall, ha⟩
    · exact .inr ⟨pre, n, post ++ [a], by simp, hpre, hn⟩

end Pieces
