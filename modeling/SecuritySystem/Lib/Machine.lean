/-
SecuritySystem/Lib/Machine.lean

Machines that are driven from outside and report what they do.

A machine is its step function: from a state and an input it makes one step,
which may show some labels, or it makes none, because the input is not one for
this state.  A run is a list of inputs, and its trace is what the steps showed,
in order.

What is proved of runs is an invariant of the state and of the trace so far
(`run_invariant`).  Where each step that the machine makes by itself lowers a
rank, a run has no more of them than the rank at its start (`countP_le_rank`),
and where there always is such a step, the machine can be run to its end
(`exists_run`).
-/
import Mathlib.Data.List.Basic

namespace Machine

variable {S I L : Type*} {step : S → I → Option (S × List L)}
variable {s s' : S} {i : I} {is js : List I} {tr out : List L}

/-- The steps for the inputs one after the other, and all that they showed. -/
def run (step : S → I → Option (S × List L)) : S → List I → Option (S × List L)
  | s, [] => some (s, [])
  | s, i :: is =>
    (step s i).bind fun r => (run step r.1 is).map fun t => (t.1, r.2 ++ t.2)

@[simp] theorem run_nil (s : S) : run step s [] = some (s, []) := rfl

/-- A run of several inputs is a step, and a run behind it. -/
theorem run_cons_iff :
    run step s (i :: is) = some (s', tr) ↔
      ∃ t out outs, step s i = some (t, out) ∧ run step t is = some (s', outs) ∧
        tr = out ++ outs := by
  simp only [run, Option.bind_eq_some_iff, Option.map_eq_some_iff, Prod.exists, Prod.mk.injEq]
  constructor
  · rintro ⟨t, out, ht, u, outs, hu, rfl, rfl⟩
    exact ⟨t, out, outs, ht, hu, rfl⟩
  · rintro ⟨t, out, outs, ht, hu, rfl⟩
    exact ⟨t, out, ht, s', outs, hu, rfl, rfl⟩

theorem run_append_iff :
    run step s (is ++ js) = some (s', tr) ↔
      ∃ t out outs, run step s is = some (t, out) ∧ run step t js = some (s', outs) ∧
        tr = out ++ outs := by
  induction is generalizing s tr with
  | nil =>
    simp only [List.nil_append, run_nil, Option.some.injEq, Prod.mk.injEq]
    constructor
    · exact fun h => ⟨s, [], tr, ⟨rfl, rfl⟩, h, rfl⟩
    · rintro ⟨t, out, outs, ⟨rfl, rfl⟩, h, rfl⟩
      exact h
  | cons i is ih =>
    rw [List.cons_append, run_cons_iff]
    constructor
    · rintro ⟨t, out, outs, ht, hrun, rfl⟩
      obtain ⟨u, out', outs', hu, hjs, rfl⟩ := ih.mp hrun
      exact ⟨u, out ++ out', outs', run_cons_iff.mpr ⟨t, out, out', ht, hu, rfl⟩, hjs,
        (List.append_assoc ..).symm⟩
    · rintro ⟨u, out, outs, hu, hjs, rfl⟩
      obtain ⟨t, out', outs', ht, hrun, rfl⟩ := run_cons_iff.mp hu
      exact ⟨t, out', outs' ++ outs, ht, ih.mpr ⟨u, outs', outs, hrun, hjs, rfl⟩,
        List.append_assoc ..⟩

/-- A run of one step. -/
theorem run_single (h : step s i = some (s', out)) : run step s [i] = some (s', out) :=
  run_cons_iff.mpr ⟨s', out, [], h, rfl, (List.append_nil out).symm⟩

/-- **The invariant rule**: what each step keeps, of the state and of the trace
so far, a run keeps. -/
theorem run_invariant {P : List L → S → Prop}
    (hstep : ∀ {tr s i s' out}, P tr s → step s i = some (s', out) → P (tr ++ out) s')
    (h : P tr s) (hrun : run step s is = some (s', out)) : P (tr ++ out) s' := by
  induction is generalizing s tr out with
  | nil =>
    obtain ⟨rfl, rfl⟩ := Prod.mk.inj (Option.some.inj hrun)
    rwa [List.append_nil]
  | cons i is ih =>
    obtain ⟨t, out, outs, ht, hrest, rfl⟩ := run_cons_iff.mp hrun
    rw [← List.append_assoc]
    exact ih (hstep h ht) hrest

/-- The rule for an invariant of the state alone. -/
theorem run_keeps {P : S → Prop} (hstep : ∀ {s i s' out}, P s → step s i = some (s', out) → P s')
    (h : P s) (hrun : run step s is = some (s', out)) : P s' := by
  induction is generalizing s out with
  | nil =>
    obtain ⟨rfl, -⟩ := Prod.mk.inj (Option.some.inj hrun)
    exact h
  | cons i is ih =>
    obtain ⟨t, out, outs, ht, hrest, -⟩ := run_cons_iff.mp hrun
    exact ih (hstep h ht) hrest

/-- Each state of the run, its first and its last included. -/
def Throughout (step : S → I → Option (S × List L)) (A : S → Prop) (s : S) (is : List I) : Prop :=
  ∀ js ks t out, js ++ ks = is → run step s js = some (t, out) → A t

/-- The rule for an invariant that needs another property of all states. -/
theorem run_invariant_throughout {A : S → Prop} {P : List L → S → Prop}
    (hstep : ∀ {tr s i s' out}, A s → P tr s → step s i = some (s', out) → P (tr ++ out) s')
    (h : P tr s) (hall : Throughout step A s is) (hrun : run step s is = some (s', out)) :
    P (tr ++ out) s' := by
  induction is generalizing s tr out with
  | nil =>
    obtain ⟨rfl, rfl⟩ := Prod.mk.inj (Option.some.inj hrun)
    rwa [List.append_nil]
  | cons i is ih =>
    obtain ⟨t, out, outs, ht, hrest, rfl⟩ := run_cons_iff.mp hrun
    rw [← List.append_assoc]
    refine ih (hstep (hall [] (i :: is) s [] rfl rfl) h ht) (fun js ks u out' he hu => ?_) hrest
    exact hall (i :: js) ks u (out ++ out') (congrArg (i :: ·) he)
      (run_cons_iff.mpr ⟨t, out, out', ht, hu, rfl⟩)

/-! ### Ranks -/

variable {P : List L → S → Prop}

/-- **The ranking rule**: with a rank that falls at each input of its own and
never rises, a run takes at most as many of these inputs as the rank at its
start. -/
theorem countP_le_rank (rank : List L → S → ℕ) (own : I → Bool)
    (hstep : ∀ {tr s i s' out}, P tr s → step s i = some (s', out) →
      P (tr ++ out) s' ∧ rank (tr ++ out) s' + (if own i then 1 else 0) ≤ rank tr s)
    (h : P tr s) (hrun : run step s is = some (s', out)) :
    is.countP own + rank (tr ++ out) s' ≤ rank tr s := by
  induction is generalizing s tr out with
  | nil =>
    obtain ⟨rfl, rfl⟩ := Prod.mk.inj (Option.some.inj hrun)
    simp only [List.append_nil, List.countP_nil, Nat.zero_add, Nat.le_refl]
  | cons i is ih =>
    obtain ⟨t, out, outs, ht, hrest, rfl⟩ := run_cons_iff.mp hrun
    obtain ⟨hp, hle⟩ := hstep h ht
    have hle' := ih hp hrest
    rw [List.append_assoc] at hle'
    rw [List.countP_cons]
    omega

/-- **The progress rule**: a machine that is not at its end, and can always
lower the rank by an input of its own, can be run to its end by these. -/
theorem exists_run (rank : List L → S → ℕ) (own : I → Bool) (final : S → Prop)
    (hstep : ∀ {tr s}, P tr s → ¬ final s → ∃ i s' out, own i = true ∧ step s i = some (s', out) ∧
      P (tr ++ out) s' ∧ rank (tr ++ out) s' < rank tr s) (h : P tr s) :
    ∃ is s' out, (∀ i ∈ is, own i = true) ∧ run step s is = some (s', out) ∧ final s' := by
  induction hn : rank tr s using Nat.strongRecOn generalizing tr s with
  | ind n ih =>
    by_cases hfinal : final s
    · exact ⟨[], s, [], fun _ hi => absurd hi List.not_mem_nil, rfl, hfinal⟩
    · obtain ⟨i, t, out, hown, ht, hp, hlt⟩ := hstep h hfinal
      obtain ⟨is, s', outs, hall, hrun, hfinal'⟩ := ih _ (hn ▸ hlt) hp rfl
      exact ⟨i :: is, s', out ++ outs, List.forall_mem_cons.mpr ⟨hown, hall⟩,
        run_cons_iff.mpr ⟨t, out, outs, ht, hrun, rfl⟩, hfinal'⟩

end Machine
