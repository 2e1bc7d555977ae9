/-
SecuritySystem/Lib/ForkJoin.lean

A main thread and its workers.

The main thread creates the workers, one after the other, sleeps while a flag
is set, joins one worker after the other with a time limit for each, and frees
what the workers share.  A signal clears the flag.  The workers run in the
meantime: all that is known of one is that it may use what is shared, and that
it may end.

A `Plan` says what such programs differ in.  For all of them, whatever the
schedule: a worker that uses what has been freed has been given up at its
join, or a later worker could not be created; the return code says whether
that can be; and once the flag is cleared the main thread comes to its end in
a bounded number of steps, whatever the workers do.
-/
import SecuritySystem.Lib.Machine
import Mathlib.Algebra.GroupWithZero.Nat

namespace ForkJoin

/-! ### The machine -/

/-- The number of workers; whether a cleared flag ends the creations; the
return code that stands before the first creation; the seconds that a join may
take; and the return code of a failure. -/
structure Plan where
  count : ℕ
  guarded : Bool
  code : Option ℤ
  patience : ℕ
  failure : ℤ
  patient : 0 < patience

/-- A worker runs until it ends, and is joined behind its end. -/
inductive Worker
  | running
  | ended
  | joined
deriving DecidableEq

/-- Where the main thread is. -/
inductive Pc
  | create (i : ℕ)
  /-- the sleep in front of a join -/
  | wait (i : ℕ)
  /-- a join that has slept for `total` seconds -/
  | tryjoin (i total : ℕ)
  | free
  | returned
  /-- a worker is joined that was never created -/
  | fault
deriving DecidableEq

/-- The workers are in the order of their creation. -/
structure State where
  pc : Pc
  code : Option ℤ
  flag : Bool
  workers : List Worker
  freed : Bool

/-- What a step needs from outside. -/
inductive Input
  | go
  /-- the result of a creation -/
  | created (r : ℤ)
  | signal
  /-- a worker uses what is shared -/
  | use (i : ℕ)
  /-- a worker ends -/
  | finish (i : ℕ)

/-- The main thread makes the step. -/
def Input.own : Input → Bool
  | .go | .created _ => true
  | .signal | .use _ | .finish _ => false

/-- What a step shows; a use is late behind the free. -/
inductive Label
  | created (i : ℕ)
  | refused (i : ℕ)
  | slept
  | joined (i : ℕ)
  | timedOut (i : ℕ)
  | freed
  | used (i : ℕ) (late : Bool)
deriving DecidableEq

namespace Plan

variable (plan : Plan)

/-- The main thread in front of its first creation. -/
def start (flag : Bool) : State := ⟨.create 0, plan.code, flag, [], false⟩

/-- There is a worker to create, and the flag does not forbid it. -/
def creates (s : State) (i : ℕ) : Bool := i < plan.count && (!plan.guarded || s.flag)

/-- The step of the main thread that needs no input. -/
def go (s : State) : Option (State × List Label) :=
  match s.pc with
  | .create i => if plan.creates s i then none else some ({ s with pc := .wait 0 }, [])
  | .wait i =>
    if i < plan.count then
      if s.flag then some (s, [.slept]) else some ({ s with pc := .tryjoin i 0 }, [])
    else some ({ s with pc := .free }, [])
  | .tryjoin i total =>
    match s.workers[i]? with
    | none => some ({ s with pc := .fault }, [])
    | some .ended =>
      some ({ s with pc := .wait (i + 1), workers := s.workers.set i .joined }, [.joined i])
    | some .running | some .joined =>
      if (total + 1) % plan.patience = 0 then
        some ({ s with pc := .wait (i + 1), code := some plan.failure }, [.slept, .timedOut i])
      else some ({ s with pc := .tryjoin i (total + 1) }, [.slept])
  | .free => some ({ s with pc := .returned, freed := true }, [.freed])
  | .returned | .fault => none

/-- One step of the main thread, a worker or the signal. -/
def step (s : State) : Input → Option (State × List Label)
  | .go => plan.go s
  | .created r =>
    match s.pc with
    | .create i =>
      if plan.creates s i then
        if r = 0 then
          some ({ s with
            pc := .create (i + 1)
            code := some 0
            workers := s.workers ++ [.running] }, [.created i])
        else some ({ s with pc := .free, code := some plan.failure }, [.refused i])
      else none
    | _ => none
  | .signal => some ({ s with flag := false }, [])
  | .use i => if s.workers[i]? = some .running then some (s, [.used i s.freed]) else none
  | .finish i =>
    if s.workers[i]? = some .running then some ({ s with workers := s.workers.set i .ended }, [])
    else none

/-- The state and the labels behind some steps. -/
def run (s : State) (inputs : List Input) : Option (State × List Label) :=
  Machine.run plan.step s inputs

end Plan

/-! ### What a step does -/

variable {plan : Plan} {s s' : State} {input : Input} {tr out : List Label} {i j : ℕ}

/-- Everything that a step can do, by whether the main thread makes it. -/
inductive Steps (plan : Plan) (s : State) : Bool → State → List Label → Prop
  | signal : Steps plan s false { s with flag := false } []
  | use (i : ℕ) : s.workers[i]? = some .running → Steps plan s false s [.used i s.freed]
  | finish (i : ℕ) : s.workers[i]? = some .running →
    Steps plan s false { s with workers := s.workers.set i .ended } []
  | created (i : ℕ) : s.pc = .create i → plan.creates s i = true →
    Steps plan s true { s with
      pc := .create (i + 1)
      code := some 0
      workers := s.workers ++ [.running] } [.created i]
  | refused (i : ℕ) : s.pc = .create i → plan.creates s i = true →
    Steps plan s true { s with pc := .free, code := some plan.failure } [.refused i]
  | allCreated (i : ℕ) : s.pc = .create i → plan.creates s i = false →
    Steps plan s true { s with pc := .wait 0 } []
  | sleep (i : ℕ) : s.pc = .wait i → s.flag = true → Steps plan s true s [.slept]
  | waited (i : ℕ) : s.pc = .wait i → i < plan.count → s.flag = false →
    Steps plan s true { s with pc := .tryjoin i 0 } []
  | allJoined (i : ℕ) : s.pc = .wait i → plan.count ≤ i →
    Steps plan s true { s with pc := .free } []
  | missing (i total : ℕ) : s.pc = .tryjoin i total → s.workers[i]? = none →
    Steps plan s true { s with pc := .fault } []
  | joined (i total : ℕ) : s.pc = .tryjoin i total → s.workers[i]? = some .ended →
    Steps plan s true
      { s with pc := .wait (i + 1), workers := s.workers.set i .joined } [.joined i]
  | timedOut (i total : ℕ) : s.pc = .tryjoin i total → (total + 1) % plan.patience = 0 →
    Steps plan s true
      { s with pc := .wait (i + 1), code := some plan.failure } [.slept, .timedOut i]
  | slept (i total : ℕ) : s.pc = .tryjoin i total → (total + 1) % plan.patience ≠ 0 →
    Steps plan s true { s with pc := .tryjoin i (total + 1) } [.slept]
  | freed : s.pc = .free → Steps plan s true { s with pc := .returned, freed := true } [.freed]

theorem go_cases (h : plan.go s = some (s', out)) : Steps plan s true s' out := by
  rw [Plan.go.eq_def] at h
  cases hpc : s.pc with
  | create i =>
    simp only [hpc] at h
    split at h
    · cases h
    · next hno =>
      cases h
      exact .allCreated i hpc (Bool.eq_false_iff.mpr hno)
  | wait i =>
    simp only [hpc] at h
    split at h
    · next hlt =>
      split at h
      · next hflag =>
        cases h
        exact .sleep i hpc hflag
      · next hflag =>
        cases h
        exact .waited i hpc hlt (Bool.eq_false_iff.mpr hflag)
    · next hge =>
      cases h
      exact .allJoined i hpc (Nat.not_lt.mp hge)
  | tryjoin i total =>
    have hlimit : (if (total + 1) % plan.patience = 0 then
        some ({ s with pc := .wait (i + 1), code := some plan.failure },
          [Label.slept, .timedOut i])
      else some ({ s with pc := .tryjoin i (total + 1) }, [.slept])) = some (s', out) →
        Steps plan s true s' out := by
      intro h
      split at h
      · next hzero =>
        cases h
        exact .timedOut i total hpc hzero
      · next hne =>
        cases h
        exact .slept i total hpc hne
    simp only [hpc] at h
    rcases hw : s.workers[i]? with - | w
    · rw [hw] at h
      cases h
      exact .missing i total hpc hw
    · rw [hw] at h
      cases w with
      | running => exact hlimit h
      | joined => exact hlimit h
      | ended =>
        cases h
        exact .joined i total hpc hw
  | free =>
    simp only [hpc] at h
    cases h
    exact .freed hpc
  | returned | fault =>
    simp only [hpc] at h
    cases h

theorem step_cases (h : plan.step s input = some (s', out)) :
    Steps plan s input.own s' out := by
  cases input with
  | go => exact go_cases h
  | created r =>
    simp only [Plan.step] at h
    split at h
    · next i hpc =>
      split at h
      · next hyes =>
        split at h
        · cases h
          exact .created i hpc hyes
        · cases h
          exact .refused i hpc hyes
      · cases h
    · cases h
  | signal =>
    cases h
    exact .signal
  | use i =>
    simp only [Plan.step] at h
    split at h
    · next hw =>
      cases h
      exact .use i hw
    · cases h
  | finish i =>
    simp only [Plan.step] at h
    split at h
    · next hw =>
      cases h
      exact .finish i hw
    · cases h

theorem lt_of_creates (h : plan.creates s i = true) : i < plan.count :=
  of_decide_eq_true (Bool.and_eq_true_iff.mp h).1

/-- Without a guard only the count ends the creations. -/
theorem le_of_not_creates (h : plan.creates s i = false) (hg : plan.guarded = false) :
    plan.count ≤ i := by
  rw [Plan.creates, hg, Bool.not_false, Bool.true_or, Bool.and_true] at h
  exact Nat.not_lt.mp (of_decide_eq_false h)

/-! ### The end of a worker -/

/-- The worker has come to its end. -/
def State.stopped (s : State) (i : ℕ) : Prop :=
  s.workers[i]? = some .ended ∨ s.workers[i]? = some .joined

/-- The main thread clears no flag. -/
theorem flag_of_own (hs : Steps plan s true s' out) : s'.flag = s.flag := by
  cases hs <;> rfl

/-- The end of a worker changes nothing but the worker. -/
theorem finish_cases (h : plan.step s (.finish j) = some (s', out)) :
    s' = { s with workers := s.workers.set j .ended } ∧ out = [] := by
  simp only [Plan.step] at h
  split at h
  · cases h
    exact ⟨rfl, rfl⟩
  · cases h

/-- The main thread stops no worker. -/
theorem stopped_of_own (hs : Steps plan s true s' out) (hi : s'.stopped i) : s.stopped i := by
  cases hs with
  | joined j total hpc hw =>
    by_cases hj : j = i
    · exact .inl (hj ▸ hw)
    · simp only [State.stopped, List.getElem?_set_ne hj] at hi
      exact hi
  | created j hpc =>
    rcases Nat.lt_trichotomy i s.workers.length with hlt | rfl | hgt
    · simpa [State.stopped, List.getElem?_append_left hlt] using hi
    · simp [State.stopped] at hi
    · have hnone : (s.workers ++ [Worker.running])[i]? = none :=
        List.getElem?_eq_none (by simpa using Nat.succ_le_of_lt hgt)
      simp [State.stopped, hnone] at hi
  | _ => exact hi

/-- Neither does the end of another worker. -/
theorem stopped_of_finish (h : plan.step s (.finish j) = some (s', out)) (hi : s'.stopped i)
    (hj : j ≠ i) : s.stopped i := by
  obtain ⟨rfl, -⟩ := finish_cases h
  simp only [State.stopped, List.getElem?_set_ne hj] at hi
  exact hi

/-! ### What every run keeps -/

/-- The main thread has given the worker up, or joined it. -/
def Settled (tr : List Label) (i : ℕ) : Prop := .joined i ∈ tr ∨ .timedOut i ∈ tr

/-- What is behind the main thread at each place. -/
def Place (plan : Plan) (tr : List Label) (s : State) : Prop :=
  match s.pc with
  | .create i => i ≤ plan.count ∧ s.workers.length = i ∧ s.freed = false ∧
      (∀ j, .refused j ∉ tr) ∧ ∀ j, .timedOut j ∉ tr
  | .wait i => i ≤ plan.count ∧ s.freed = false ∧ (∀ j, .refused j ∉ tr) ∧ ∀ j < i, Settled tr j
  | .tryjoin i total => i < plan.count ∧ total < plan.patience ∧ s.freed = false ∧
      (∀ j, .refused j ∉ tr) ∧ ∀ j < i, Settled tr j
  | .free => s.freed = false ∧
      (.refused s.workers.length ∈ tr ∨ (∀ j, .refused j ∉ tr) ∧ ∀ j < plan.count, Settled tr j)
  | .returned => s.freed = true ∧
      (.refused s.workers.length ∈ tr ∨ (∀ j, .refused j ∉ tr) ∧ ∀ j < plan.count, Settled tr j)
  | .fault => plan.guarded = true ∧ s.workers.length < plan.count ∧ s.freed = false

/-- The return code so far. -/
def Code (plan : Plan) (tr : List Label) (s : State) : Prop :=
  s.code = some plan.failure ∧ (∃ j, .refused j ∈ tr ∨ .timedOut j ∈ tr) ∨
    s.code = (if s.workers = [] then plan.code else some 0) ∧
      ∀ j, .refused j ∉ tr ∧ .timedOut j ∉ tr

/-- **The invariant.** -/
structure Inv (plan : Plan) (tr : List Label) (s : State) : Prop where
  place : Place plan tr s
  code : Code plan tr s
  /-- the workers that were created -/
  created : s.workers.length ≤ plan.count ∧ ∀ i, .created i ∈ tr ↔ i < s.workers.length
  /-- a worker that has been joined does nothing any more -/
  joined : ∀ i, .joined i ∈ tr → s.workers[i]? = some .joined
  /-- without a guard all of them are created first -/
  all : plan.guarded = false → (∀ i, s.pc ≠ .create i) → (∀ j, .refused j ∉ tr) →
    s.workers.length = plan.count
  freed : tr.count .freed = if s.freed then 1 else 0
  /-- what is used late, is used by a worker that was left behind -/
  late : ∀ i, .used i true ∈ tr → .timedOut i ∈ tr ∨ ∃ j, i < j ∧ .refused j ∈ tr

theorem inv_start (plan : Plan) (flag : Bool) : Inv plan [] (plan.start flag) where
  place := ⟨Nat.zero_le _, rfl, rfl, fun _ => List.not_mem_nil, fun _ => List.not_mem_nil⟩
  code := .inr ⟨rfl, fun _ => ⟨List.not_mem_nil, List.not_mem_nil⟩⟩
  created := ⟨Nat.zero_le _, fun i => by simp [Plan.start]⟩
  joined i hi := absurd hi List.not_mem_nil
  all _ hpc := absurd rfl (hpc 0)
  freed := rfl
  late i hi := absurd hi List.not_mem_nil

/-- What was settled stays so. -/
theorem Settled.mono (h : Settled tr j) (out : List Label) : Settled (tr ++ out) j :=
  h.imp (List.mem_append_left out) (List.mem_append_left out)

/-- Labels that say nothing about a worker. -/
def Silent (out : List Label) : Prop := ∀ l ∈ out, l = .slept

theorem Silent.mem_iff (h : Silent out) (l : Label) (hl : l ≠ .slept) :
    l ∈ tr ++ out ↔ l ∈ tr := by
  rw [List.mem_append, or_iff_left]
  exact fun hmem => hl (h l hmem)

theorem Silent.count_freed (h : Silent out) : (tr ++ out).count .freed = tr.count .freed := by
  have hnot : Label.freed ∉ out := fun hmem => by cases h _ hmem
  rw [List.count_append, List.count_eq_zero.mpr hnot, Nat.add_zero]

/-- A step that says nothing about the workers, and leaves the code. -/
theorem Inv.silent (h : Inv plan tr s) (hout : Silent out) (hplace : Place plan (tr ++ out) s')
    (hcode : s'.code = s.code) (hfreed : s'.freed = s.freed)
    (hlength : s'.workers.length = s.workers.length)
    (hjoined : ∀ i : ℕ, s.workers[i]? = some Worker.joined → s'.workers[i]? = some Worker.joined)
    (hall : plan.guarded = false → (∀ i, s'.pc ≠ .create i) → (∀ j, .refused j ∉ tr) →
      s.workers.length = plan.count) : Inv plan (tr ++ out) s' := by
  have hnil : s'.workers = [] ↔ s.workers = [] := by
    rw [← List.length_eq_zero_iff, hlength, List.length_eq_zero_iff]
  have hmem : ∀ l : Label, l ≠ .slept → (l ∈ tr ++ out ↔ l ∈ tr) := hout.mem_iff
  have hr : ∀ j, .refused j ∈ tr ++ out ↔ .refused j ∈ tr := fun j => hmem _ (by simp)
  have ht : ∀ j, .timedOut j ∈ tr ++ out ↔ .timedOut j ∈ tr := fun j => hmem _ (by simp)
  refine ⟨hplace, ?_, ?_, ?_, ?_, ?_, ?_⟩
  · have hc := h.code
    simp only [Code, hcode, hnil, hr, ht] at hc ⊢
    exact hc
  · refine ⟨hlength ▸ h.created.1, fun i => ?_⟩
    rw [hmem (.created i) (by simp), hlength]
    exact h.created.2 i
  · intro i hi
    exact hjoined i (h.joined i ((hmem (.joined i) (by simp)).mp hi))
  · intro hg hpc hnone
    rw [hlength]
    exact hall hg hpc fun j hj => hnone j ((hr j).mpr hj)
  · rw [hout.count_freed, h.freed, hfreed]
  · intro i hi
    simp only [hr, ht]
    exact h.late i ((hmem (.used i true) (by simp)).mp hi)

theorem silent_nil : Silent [] := fun _ h => absurd h List.not_mem_nil

theorem silent_slept : Silent [.slept] := fun _ h => List.mem_singleton.mp h

/-- The places where there is nothing more to create. -/
theorem Inv.all_created (h : Inv plan tr s) (hpc : ∀ i, s.pc ≠ .create i) :
    plan.guarded = false → (∀ i, s'.pc ≠ .create i) → (∀ j, .refused j ∉ tr) →
      s.workers.length = plan.count := fun hg _ hr => h.all hg hpc hr

/-- Once it has freed what is shared, the main thread has left or joined all
workers. -/
theorem Inv.of_freed (h : Inv plan tr s) (hfreed : s.freed = true) :
    .refused s.workers.length ∈ tr ∨ ∀ j < plan.count, Settled tr j := by
  have hplace := h.place
  unfold Place at hplace
  rw [hfreed] at hplace
  cases hpc : s.pc with
  | returned =>
    rw [hpc] at hplace
    exact hplace.2.imp_right And.right
  | _ => simp [hpc] at hplace

theorem Inv.step {own : Bool} (h : Inv plan tr s) (hs : Steps plan s own s' out) :
    Inv plan (tr ++ out) s' := by
  have hplace := h.place
  cases hs with
  | signal =>
    refine h.silent silent_nil ?_ rfl rfl rfl (fun _ => id) h.all
    rw [List.append_nil]
    exact hplace
  | use i hw =>
    refine ⟨?_, by simpa [Code] using h.code, by simpa using h.created, by simpa using h.joined,
      by simpa using h.all, by simpa [List.count_singleton] using h.freed, fun j hj => ?_⟩
    · revert hplace
      unfold Place
      cases s.pc <;> simp [Settled]
    · rcases List.mem_append.mp hj with hj | hj
      · simpa using h.late j hj
      · -- whatever is used late, the main thread has returned
        obtain ⟨rfl, hfreed⟩ := Label.used.inj (List.mem_singleton.mp hj)
        have hlt : j < s.workers.length := (List.getElem?_eq_some_iff.mp hw).1
        rcases h.of_freed hfreed.symm with hrefused | hsettled
        · exact .inr ⟨s.workers.length, hlt, List.mem_append_left _ hrefused⟩
        · rcases hsettled j (Nat.lt_of_lt_of_le hlt h.created.1) with hjoined | htimed
          · rw [h.joined j hjoined] at hw
            cases hw
          · exact .inl (List.mem_append_left _ htimed)
  | finish i hw =>
    refine h.silent silent_nil ?_ rfl rfl (List.length_set ..) (fun j hj => ?_) h.all
    · rw [List.append_nil]
      simpa [Place] using hplace
    · rw [List.getElem?_set_ne]
      · exact hj
      · rintro rfl
        rw [hw] at hj
        cases hj
  | created i hpc hyes =>
    rw [Place, hpc] at hplace
    obtain ⟨-, hlength, hfreed, hr, ht⟩ := hplace
    have hlt : i < plan.count := lt_of_creates hyes
    refine ⟨?_, .inr ⟨by simp, fun j => ⟨by simp [hr], by simp [ht]⟩⟩, ?_, fun j hj => ?_, ?_,
      ?_, ?_⟩
    · exact ⟨hlt, by simp [hlength], hfreed, by simp [hr], by simp [ht]⟩
    · simp only [List.length_append, List.length_singleton, hlength]
      refine ⟨hlt, fun j => ?_⟩
      rw [List.mem_append, List.mem_singleton, h.created.2 j, hlength, Nat.lt_succ_iff_lt_or_eq,
        Label.created.injEq]
    · have hj : .joined j ∈ tr := by simpa using hj
      rw [List.getElem?_append_left]
      · exact h.joined j hj
      · exact (List.getElem?_eq_some_iff.mp (h.joined j hj)).1
    · exact fun _ hno => absurd rfl (hno (i + 1))
    · simpa [List.count_singleton] using h.freed
    · simpa using h.late
  | refused i hpc hyes =>
    rw [Place, hpc] at hplace
    obtain ⟨-, hlength, hfreed, -, -⟩ := hplace
    refine ⟨⟨hfreed, .inl ?_⟩, .inl ⟨rfl, i, .inl ?_⟩, by simpa using h.created,
      by simpa using h.joined, fun _ _ hno => absurd ?_ (hno i), ?_, fun j hj => ?_⟩
    · simp [hlength]
    · simp
    · simp
    · simpa [List.count_singleton] using h.freed
    · rcases h.late j (by simpa using hj) with ht | ⟨k, hk, hr⟩
      · exact .inl (List.mem_append_left _ ht)
      · exact .inr ⟨k, hk, List.mem_append_left _ hr⟩
  | allCreated i hpc hno =>
    rw [Place, hpc] at hplace
    obtain ⟨hi, hlength, hfreed, hr, -⟩ := hplace
    refine h.silent silent_nil ?_ rfl rfl rfl (fun _ => id) ?_
    · rw [List.append_nil]
      exact ⟨Nat.zero_le _, hfreed, hr, fun j hj => absurd hj (Nat.not_lt_zero j)⟩
    · intro hg _ _
      rw [hlength]
      exact Nat.le_antisymm hi (le_of_not_creates hno hg)
  | sleep i hpc hflag =>
    refine h.silent silent_slept ?_ rfl rfl rfl (fun _ => id) h.all
    rw [Place, hpc] at hplace ⊢
    obtain ⟨hi, hfreed, hr, hsettled⟩ := hplace
    exact ⟨hi, hfreed, fun j => mt (silent_slept.mem_iff (.refused j) (by simp)).mp (hr j),
      fun j hj => (hsettled j hj).mono _⟩
  | waited i hpc hlt hflag =>
    rw [Place, hpc] at hplace
    obtain ⟨hi, hfreed, hr, hsettled⟩ := hplace
    refine h.silent silent_nil ?_ rfl rfl rfl (fun _ => id) (h.all_created (by simp [hpc]))
    rw [List.append_nil]
    exact ⟨hlt, plan.patient, hfreed, hr, hsettled⟩
  | allJoined i hpc hge =>
    rw [Place, hpc] at hplace
    obtain ⟨hi, hfreed, hr, hsettled⟩ := hplace
    refine h.silent silent_nil ?_ rfl rfl rfl (fun _ => id) (h.all_created (by simp [hpc]))
    rw [List.append_nil]
    exact ⟨hfreed, .inr ⟨hr, fun j hj => hsettled j (Nat.lt_of_lt_of_le hj hge)⟩⟩
  | missing i total hpc hw =>
    rw [Place, hpc] at hplace
    obtain ⟨hi, -, hfreed, hr, -⟩ := hplace
    have hle : s.workers.length ≤ i := List.getElem?_eq_none_iff.mp hw
    refine h.silent silent_nil ⟨?_, Nat.lt_of_le_of_lt hle hi, hfreed⟩ rfl rfl rfl (fun _ => id)
      (h.all_created (by simp [hpc]))
    by_contra hg
    have hall := h.all (Bool.eq_false_iff.mpr hg) (by simp [hpc]) hr
    omega
  | joined i total hpc hw =>
    rw [Place, hpc] at hplace
    obtain ⟨hi, -, hfreed, hr, hsettled⟩ := hplace
    refine ⟨⟨hi, hfreed, by simp [hr], fun j hj => ?_⟩, ?_, ?_, fun j hj => ?_, ?_, ?_, ?_⟩
    · rcases Nat.lt_succ_iff_lt_or_eq.mp hj with hj | rfl
      · exact (hsettled j hj).mono _
      · exact .inl (by simp)
    · simpa [Code] using h.code
    · simpa using h.created
    · rcases List.mem_append.mp hj with hj | hj
      · rw [List.getElem?_set_ne]
        · exact h.joined j hj
        · rintro rfl
          rw [h.joined i hj] at hw
          cases hw
      · obtain rfl : j = i := by simpa using hj
        simp [(List.getElem?_eq_some_iff.mp hw).1]
    · intro hg _ hnone
      simpa using h.all hg (by simp [hpc]) hr
    · simpa [List.count_singleton] using h.freed
    · simpa using h.late
  | timedOut i total hpc hzero =>
    rw [Place, hpc] at hplace
    obtain ⟨hi, -, hfreed, hr, hsettled⟩ := hplace
    refine ⟨⟨hi, hfreed, by simp [hr], fun j hj => ?_⟩, .inl ⟨rfl, i, .inr (by simp)⟩,
      by simpa using h.created, by simpa using h.joined, ?_, ?_, fun j hj => ?_⟩
    · rcases Nat.lt_succ_iff_lt_or_eq.mp hj with hj | rfl
      · exact (hsettled j hj).mono _
      · exact .inr (by simp)
    · exact fun hg _ _ => h.all hg (by simp [hpc]) hr
    · simpa [List.count_cons] using h.freed
    · rcases h.late j (by simpa using hj) with ht | ⟨k, hk, hr⟩
      · exact .inl (List.mem_append_left _ ht)
      · exact .inr ⟨k, hk, List.mem_append_left _ hr⟩
  | slept i total hpc hne =>
    rw [Place, hpc] at hplace
    obtain ⟨hi, htotal, hfreed, hr, hsettled⟩ := hplace
    have hlt : total + 1 < plan.patience := by
      refine Nat.lt_of_le_of_ne htotal ?_
      rintro heq
      exact hne (heq ▸ Nat.mod_self _)
    refine h.silent silent_slept ⟨hi, hlt, hfreed, by simp [hr], fun j hj => ?_⟩ rfl rfl rfl
      (fun _ => id) (h.all_created (by simp [hpc]))
    exact (hsettled j hj).mono _
  | freed hpc =>
    rw [Place, hpc] at hplace
    obtain ⟨hfreed, hbehind⟩ := hplace
    have hcount := h.freed
    rw [hfreed] at hcount
    refine ⟨?_, by simpa [Code] using h.code, by simpa using h.created, by simpa using h.joined, ?_,
      by simpa using hcount, by simpa using h.late⟩
    · simpa [Place, Settled] using hbehind
    · simpa [hpc] using h.all

/-- What a run has done, for its maintainer. -/
structure Accounts (plan : Plan) (tr : List Label) (s : State) : Prop where
  /-- what is freed is used only by a worker that was given up, or behind which
  another one could not be created -/
  late : ∀ i, .used i true ∈ tr → .timedOut i ∈ tr ∨ ∃ j, i < j ∧ .refused j ∈ tr
  once : tr.count .freed ≤ 1
  /-- no worker is joined that was never created, except where a cleared flag
  has ended the creations -/
  fault : s.pc = .fault → plan.guarded = true ∧ s.workers.length < plan.count
  /-- the return code is that of a failure, or all workers have been joined -/
  returned : s.pc = .returned → tr.count .freed = 1 ∧
    (s.code = some plan.failure ∧ (∃ j, .refused j ∈ tr ∨ .timedOut j ∈ tr) ∨
      s.code = (if plan.count = 0 then plan.code else some 0) ∧ ∀ i < plan.count, .joined i ∈ tr)

theorem Inv.accounts (h : Inv plan tr s) : Accounts plan tr s where
  late := h.late
  once := by
    rw [h.freed]
    split <;> simp
  fault hpc := by
    have hplace := h.place
    rw [Place, hpc] at hplace
    exact ⟨hplace.1, hplace.2.1⟩
  returned hpc := by
    have hplace := h.place
    rw [Place, hpc] at hplace
    obtain ⟨hfreed, hbehind⟩ := hplace
    refine ⟨by simp [h.freed, hfreed], h.code.imp_right ?_⟩
    rintro ⟨hcode, hnone⟩
    have hjoined : ∀ i < plan.count, .joined i ∈ tr := by
      intro i hi
      rcases hbehind with hrefused | ⟨-, hsettled⟩
      · exact absurd hrefused (hnone _).1
      · exact (hsettled i hi).resolve_right (hnone i).2
    refine ⟨?_, hjoined⟩
    rw [hcode]
    by_cases hcount : plan.count = 0
    · have hle := h.created.1
      rw [hcount, Nat.le_zero, List.length_eq_zero_iff] at hle
      rw [if_pos hle, if_pos hcount]
    · have hzero := h.joined 0 (hjoined 0 (Nat.pos_of_ne_zero hcount))
      rw [if_neg hcount, if_neg]
      rintro hnil
      rw [hnil] at hzero
      cases hzero

/-- **The accounts of every run.** -/
theorem run_accounts {flag : Bool} {inputs : List Input}
    (h : plan.run (plan.start flag) inputs = some (s, tr)) :
    Inv plan tr s ∧ Accounts plan tr s := by
  have hinv : Inv plan ([] ++ tr) s :=
    Machine.run_invariant (fun hp hs => hp.step (step_cases hs)) (inv_start plan flag) h
  exact ⟨hinv, hinv.accounts⟩

/-- While the flag is set, the main thread joins nobody. -/
structure Waits (tr : List Label) (s : State) : Prop where
  unsettled : ∀ j, ¬ Settled tr j
  noJoin : ∀ i total, s.pc ≠ .tryjoin i total
  first : ∀ i, s.pc = .wait i → i = 0

theorem settled_append_iff (hout : ∀ i, .joined i ∉ out ∧ .timedOut i ∉ out) :
    Settled (tr ++ out) j ↔ Settled tr j := by
  simp only [Settled, List.mem_append, (hout j).1, (hout j).2, or_false]

/-- The flag is never set again. -/
theorem flag_of_step {own : Bool} (hs : Steps plan s own s' out) (hflag : s'.flag = true) :
    s.flag = true := by
  cases hs with
  | signal => cases hflag
  | _ => exact hflag

theorem Waits.step {own : Bool} (h : s.flag = true → Waits tr s) (hs : Steps plan s own s' out)
    (hflag : s'.flag = true) : Waits (tr ++ out) s' := by
  have hw := h (flag_of_step hs hflag)
  cases hs with
  | signal => cases hflag
  | waited i hpc hlt hno =>
    rw [show s.flag = true from hflag] at hno
    cases hno
  | missing i total hpc => exact absurd hpc (hw.noJoin i total)
  | joined i total hpc => exact absurd hpc (hw.noJoin i total)
  | timedOut i total hpc => exact absurd hpc (hw.noJoin i total)
  | slept i total hpc => exact absurd hpc (hw.noJoin i total)
  | use | finish | sleep =>
    refine ⟨fun j => ?_, hw.noJoin, hw.first⟩
    rw [settled_append_iff (by simp)]
    exact hw.unsettled j
  | created | refused | allCreated | allJoined | freed =>
    refine ⟨fun j => ?_, by simp, by simp⟩
    rw [settled_append_iff (by simp)]
    exact hw.unsettled j

/-- **Nothing happens before the signal**: as long as the flag is set, the main
thread comes to its end only if a creation was refused, or there is nothing to
create. -/
theorem run_waits {flag : Bool} {inputs : List Input}
    (h : plan.run (plan.start flag) inputs = some (s, tr)) (hflag : s.flag = true)
    (hpc : s.pc = .returned) : (∃ j, .refused j ∈ tr) ∨ plan.count = 0 := by
  have hstart : (plan.start flag).flag = true → Waits [] (plan.start flag) := fun _ =>
    ⟨fun j => by simp [Settled], by simp [Plan.start], by simp [Plan.start]⟩
  have hw : Waits ([] ++ tr) s := Machine.run_invariant
    (P := fun tr s => s.flag = true → Waits tr s)
    (fun hp hs => Waits.step hp (step_cases hs)) hstart h hflag
  rcases ((run_accounts h).2.returned hpc).2 with ⟨-, j, hj⟩ | ⟨-, hjoined⟩
  · exact .inl ⟨j, hj.resolve_right fun ht => hw.unsettled j (.inr ht)⟩
  · refine .inr (Nat.eq_zero_of_not_pos fun hpos => ?_)
    exact hw.unsettled 0 (.inl (hjoined 0 hpos))

/-! ### The end -/

namespace Plan

variable (plan)

/-- How many steps are left in front of the join with the number `i`. -/
def waitRank (i : ℕ) : ℕ := 2 + (plan.count - i) * (plan.patience + 1)

/-- How many steps of its own the main thread has left, at most, with the flag
cleared. -/
def rank (s : State) : ℕ :=
  match s.pc with
  | .create i => plan.waitRank 0 + 1 + (plan.count - i)
  | .wait i => plan.waitRank i
  | .tryjoin i total => plan.waitRank (i + 1) + (plan.patience - total)
  | .free => 1
  | .returned | .fault => 0

/-- The main thread is at its end. -/
def final (s : State) : Prop := s.pc = .returned ∨ s.pc = .fault

end Plan

theorem waitRank_of_lt (hi : i < plan.count) :
    plan.waitRank i = plan.waitRank (i + 1) + (plan.patience + 1) := by
  have hsub : plan.count - i = plan.count - (i + 1) + 1 := by omega
  simp only [Plan.waitRank, hsub, Nat.succ_mul]
  omega

theorem waitRank_le (plan : Plan) (i : ℕ) :
    plan.waitRank i ≤ plan.count * (plan.patience + 1) + 2 := by
  have hle : (plan.count - i) * (plan.patience + 1) ≤ plan.count * (plan.patience + 1) :=
    Nat.mul_le_mul_right _ (Nat.sub_le _ _)
  simp only [Plan.waitRank]
  omega

theorem Inv.rank_le (h : Inv plan tr s) :
    plan.rank s ≤ plan.count * (plan.patience + 2) + 3 := by
  have hplace := h.place
  have hmul : plan.count * (plan.patience + 2) = plan.count * (plan.patience + 1) + plan.count :=
    Nat.mul_succ _ _
  cases hpc : s.pc with
  | create i =>
    have hwait := waitRank_le plan 0
    simp only [Plan.rank, hpc]
    omega
  | wait i =>
    have hwait := waitRank_le plan i
    simp only [Plan.rank, hpc]
    omega
  | tryjoin i total =>
    rw [Place, hpc] at hplace
    have hwait := waitRank_le plan i
    rw [waitRank_of_lt hplace.1] at hwait
    simp only [Plan.rank, hpc]
    omega
  | free | returned | fault =>
    simp only [Plan.rank, hpc]
    omega

/-- Each step of the main thread lowers the rank. -/
theorem Inv.rank_step {own : Bool} (h : Inv plan tr s) (hflag : s.flag = false)
    (hs : Steps plan s own s' out) :
    s'.flag = false ∧ plan.rank s' + (if own then 1 else 0) ≤ plan.rank s := by
  have hplace := h.place
  cases hs with
  | signal => exact ⟨rfl, Nat.le_refl _⟩
  | use => exact ⟨hflag, Nat.le_refl _⟩
  | finish => exact ⟨hflag, Nat.le_refl _⟩
  | created i hpc hyes =>
    have hlt : i < plan.count := lt_of_creates hyes
    refine ⟨hflag, ?_⟩
    simp only [Plan.rank, hpc, if_true]
    omega
  | refused i hpc =>
    refine ⟨hflag, ?_⟩
    simp only [Plan.rank, hpc, if_true, Plan.waitRank]
    omega
  | allCreated i hpc =>
    refine ⟨hflag, ?_⟩
    simp only [Plan.rank, hpc, if_true]
    omega
  | sleep i hpc htrue =>
    rw [hflag] at htrue
    cases htrue
  | waited i hpc hlt =>
    refine ⟨hflag, ?_⟩
    simp only [Plan.rank, hpc, if_true, waitRank_of_lt hlt]
    omega
  | allJoined i hpc | missing i total hpc =>
    refine ⟨hflag, ?_⟩
    simp only [Plan.rank, hpc, if_true, Plan.waitRank]
    omega
  | joined i total hpc | timedOut i total hpc | slept i total hpc =>
    rw [Place, hpc] at hplace
    have htotal := hplace.2.1
    refine ⟨hflag, ?_⟩
    simp only [Plan.rank, hpc, if_true]
    omega
  | freed hpc =>
    refine ⟨hflag, ?_⟩
    simp only [Plan.rank, hpc, if_true]
    omega

/-- The main thread is never stuck. -/
theorem exists_step (plan : Plan) (hfinal : ¬ Plan.final s) :
    ∃ input, input.own = true ∧ (plan.step s input).isSome := by
  cases hpc : s.pc with
  | create i =>
    by_cases hyes : plan.creates s i = true
    · exact ⟨.created 0, rfl, by simp [Plan.step, hpc, hyes]⟩
    · exact ⟨.go, rfl, by simp [Plan.step, Plan.go, hpc, hyes]⟩
  | wait i =>
    refine ⟨.go, rfl, ?_⟩
    simp only [Plan.step, Plan.go, hpc]
    split_ifs <;> rfl
  | tryjoin i total =>
    refine ⟨.go, rfl, ?_⟩
    simp only [Plan.step, Plan.go, hpc]
    rcases s.workers[i]? with - | w
    · rfl
    · cases w with
      | ended => rfl
      | running | joined =>
        dsimp only
        split_ifs <;> rfl
  | free => exact ⟨.go, rfl, by simp [Plan.step, Plan.go, hpc]⟩
  | returned => exact absurd (.inl hpc) hfinal
  | fault => exact absurd (.inr hpc) hfinal

/-- **The end of every run.**  Once the flag is cleared, the main thread makes
a bounded number of steps, whatever the workers do, and it can be run to its
end without them. -/
theorem run_stops {flag : Bool} {inputs : List Input}
    (h : plan.run (plan.start flag) inputs = some (s, tr)) (hflag : s.flag = false) :
    (∀ inputs' s' tr', plan.run s inputs' = some (s', tr') →
      inputs'.countP Input.own ≤ plan.count * (plan.patience + 2) + 3) ∧
    ∃ inputs' s' tr', (∀ input ∈ inputs', input.own = true) ∧
      plan.run s inputs' = some (s', tr') ∧ Plan.final s' := by
  have hstart : Inv plan tr s ∧ s.flag = false := ⟨(run_accounts h).1, hflag⟩
  have hstep : ∀ {tr s input s' out}, Inv plan tr s ∧ s.flag = false →
      plan.step s input = some (s', out) → (Inv plan (tr ++ out) s' ∧ s'.flag = false) ∧
        plan.rank s' + (if input.own then 1 else 0) ≤ plan.rank s := by
    intro tr s input s' out hp hs
    obtain ⟨hflag', hle⟩ := hp.1.rank_step hp.2 (step_cases hs)
    exact ⟨⟨hp.1.step (step_cases hs), hflag'⟩, hle⟩
  refine ⟨fun inputs' s' tr' hrun => ?_, ?_⟩
  · have hle := Machine.countP_le_rank (P := fun tr s => Inv plan tr s ∧ s.flag = false)
      (fun _ s => plan.rank s) Input.own hstep hstart hrun
    have hmax := hstart.1.rank_le
    omega
  · refine Machine.exists_run (P := fun tr s => Inv plan tr s ∧ s.flag = false)
      (fun _ s => plan.rank s) Input.own Plan.final (fun {tr s} hp hfinal => ?_) hstart
    obtain ⟨input, hown, hsome⟩ := exists_step plan hfinal
    obtain ⟨⟨s', out⟩, hs⟩ := Option.isSome_iff_exists.mp hsome
    obtain ⟨hp', hlt⟩ := hstep hp hs
    rw [hown, if_pos rfl] at hlt
    exact ⟨input, s', out, hown, hs, hp', hlt⟩

end ForkJoin
