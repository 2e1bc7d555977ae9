/-
SecuritySystem/EventQueueSafety.lean

The event queue is a FIFO list.

`Holds q l` says that the queue holds exactly the entries of `l`, oldest
first: they are met from `head` along `next_ptr`, all of them are allocated,
and `tail` is the last one.  There is one rule for each operation
(`Holds.enqueue`, `Holds.dequeue`, `Holds.write`, `Holds.destroy`), and the
rules for a step and a run of a program put them together.

The list of a run is computed by `Op.queuedAll` from the calls alone, and what
its calls of `queue_dequeue` return by `Op.returnedAll`; neither looks at a
pointer.  `Op.enqueuedAll_eq` is the law of a FIFO list: what was put in is
what came out, and then what is still there, in one order.
-/
import SecuritySystem.EventQueue
import Mathlib.Data.List.ReduceOption

namespace SecuritySystem

open CMem Linked

variable {ε : Type*} {q q' : Queue ε} {l : List Addr} {a d : Addr}

/-! ### Writing to the heap of entries -/

namespace Queue

@[simp] theorem setEntry_head (e : Option (QueueEntry ε)) : (q.setEntry a e).head = q.head := rfl
@[simp] theorem setEntry_tail (e : Option (QueueEntry ε)) : (q.setEntry a e).tail = q.tail := rfl

@[simp] theorem setEntry_entries (e : Option (QueueEntry ε)) :
    (q.setEntry a e).entries = Function.update q.entries a e := rfl

theorem setNext_of_some {e : QueueEntry ε} (h : q.entries a = some e) (p : Option Addr) :
    q.setNext a p = .ok (q.setEntry a (some { e with nextPtr := p })) := by
  rw [setNext, h]

theorem deref_of_some {e : QueueEntry ε} (h : q.entries a = some e) : q.deref a = .ok e := by
  rw [deref, h]

end Queue

/-! ### The queue holds a list -/

/-- The queue holds exactly the entries of `l`, oldest first. -/
structure Holds (q : Queue ε) (l : List Addr) : Prop where
  follows : Follows q.nextOf q.head l
  live : ∀ a ∈ l, ∃ e, q.entries a = some e
  tail : q.tail = l.getLast?

theorem queueCreate_holds {entries : Entries ε} (h : queueCreate true entries = some q) :
    Holds q [] := by
  obtain rfl := Option.some.inj h
  exact ⟨rfl, by simp, rfl⟩

namespace Holds

theorem nodup (h : Holds q l) : l.Nodup := h.follows.nodup

theorem head_eq (h : Holds q l) : q.head = l.head? := by
  cases l with
  | nil => exact h.follows
  | cons a l => exact h.follows.1

theorem tail_eq_none_iff (h : Holds q l) : q.tail = none ↔ q.head = none := by
  rw [h.tail, h.head_eq, List.getLast?_eq_none_iff, List.head?_eq_none_iff]

theorem queueEmpty_iff (h : Holds q l) : queueEmpty q = true ↔ l = [] := by
  rw [queueEmpty, decide_eq_true_iff, h.head_eq, List.head?_eq_none_iff]

/-- Only the entries of the list count. -/
theorem congr (h : Holds q l) (hh : q'.head = q.head) (ht : q'.tail = q.tail)
    (he : ∀ a ∈ l, q'.entries a = q.entries a) : Holds q' l := by
  refine ⟨?_, fun a ha => ?_, ht.trans h.tail⟩
  · rw [hh]
    apply h.follows.congr
    intro a ha
    rw [Queue.nextOf, Queue.nextOf, he a ha]
  · rw [he a ha]
    exact h.live a ha

/-- A write to an entry that is not in the queue. -/
theorem write (h : Holds q l) (ha : a ∉ l) (e : Option (QueueEntry ε)) :
    Holds (q.setEntry a e) l := by
  refine h.congr ?_ ?_ fun b hb => ?_
  · rfl
  · rfl
  · have hne : b ≠ a := fun he => ha (he ▸ hb)
    exact Function.update_of_ne hne ..

/-! ### The rules of the calls -/

/-- A new link changes no event. -/
theorem eventOf_link {e : QueueEntry ε} (he : q.entries d = some e) (p : Option Addr) (a : Addr) :
    (q.setEntry d (some { e with nextPtr := p })).eventOf a = q.eventOf a := by
  by_cases had : a = d
  · subst had
    simp [Queue.eventOf, he]
  · simp [Queue.eventOf, Function.update_of_ne had]

/-- The last entry gets its link, and the entry it leads to becomes the last. -/
theorem concat (h : Holds q l) (hd : d ∉ l) {e f : QueueEntry ε} {t : Addr}
    (he : q.entries d = some e) (hnext : e.nextPtr = none) (ht : t ∈ l.getLast?) :
    Holds { q.setEntry t (some { f with nextPtr := some d }) with tail := some d } (l ++ [d]) := by
  have hmem : t ∈ l := List.mem_of_getLast? ht
  have htd : t ≠ d := fun he => hd (he ▸ hmem)
  refine ⟨h.follows.concat ?_ ?_ ?_ ?_, fun b hb => ?_, (List.getLast?_concat ..).symm⟩
  · show q.head = _
    rw [if_neg (List.ne_nil_of_mem hmem)]
  · simp [Queue.nextOf, Function.update_of_ne htd.symm, he, hnext]
  · intro b hb
    obtain rfl : t = b := Option.some.inj (Option.mem_def.mp ht |>.symm.trans hb)
    simp [Queue.nextOf]
  · intro b hb hne
    have hbt : b ≠ t := fun he => hne (he ▸ ht)
    simp [Queue.nextOf, Function.update_of_ne hbt]
  · show ∃ e, Function.update q.entries t _ b = some e
    by_cases hbt : b = t
    · rw [hbt, Function.update_self]
      exact ⟨_, rfl⟩
    · rw [Function.update_of_ne hbt]
      rcases List.mem_append.mp hb with hb | hb
      · exact h.live b hb
      · exact ⟨e, List.mem_singleton.mp hb ▸ he⟩

/-- `queue_enqueue` puts the entry at the end.  It writes to links only. -/
theorem enqueue (h : Holds q l) (hd : d ∉ l) {e : QueueEntry ε} (he : q.entries d = some e) :
    ∃ q', queueEnqueue d q = .ok q' ∧ Holds q' (l ++ [d]) ∧
      ∀ a, q'.eventOf a = q.eventOf a := by
  have hset := Queue.setNext_of_some he none
  set r : Queue ε := q.setEntry d (some { e with nextPtr := none }) with hr
  have hrd : r.entries d = some { e with nextPtr := none } := Function.update_self ..
  have hrl : Holds r l := h.write hd _
  have hrevents : ∀ a, r.eventOf a = q.eventOf a := eventOf_link he none
  rcases ht : q.tail with - | t
  · -- an empty queue: `head` and `tail` become the entry
    have hl : l = [] := List.getLast?_eq_none_iff.mp (h.tail.symm.trans ht)
    subst hl
    refine ⟨{ r with head := some d, tail := some d }, ?_, ⟨⟨rfl, ?_⟩, fun a ha => ?_, rfl⟩,
      hrevents⟩
    · simp only [queueEnqueue, hset, bind, Except.bind]
      rw [hr, Queue.setEntry_tail, ht]
    · show (r.entries d).bind _ = none
      rw [hrd]
      rfl
    · exact ⟨_, List.mem_singleton.mp ha ▸ hrd⟩
  · -- the old last entry gets its link
    have htl : t ∈ l.getLast? := h.tail.symm.trans ht
    obtain ⟨f, hf⟩ := hrl.live t (List.mem_of_getLast? htl)
    have hset' := Queue.setNext_of_some hf (some d)
    refine ⟨{ r.setEntry t (some { f with nextPtr := some d }) with tail := some d }, ?_,
      hrl.concat hd hrd rfl htl, fun a => (eventOf_link hf (some d) a).trans (hrevents a)⟩
    simp only [queueEnqueue, hset, bind, Except.bind]
    rw [hr, Queue.setEntry_tail, ht, ← hr]
    simp only [hset']

theorem dequeue_nil (h : Holds q []) : queueDequeue q = .ok (none, q) := by
  have hh : q.head = none := h.follows
  rw [queueDequeue, hh]

/-- `queue_dequeue` takes the first entry out and clears its link. -/
theorem dequeue (h : Holds q (a :: l)) {e : QueueEntry ε} (he : q.entries a = some e) :
    ∃ q', queueDequeue q = .ok (some a, q') ∧ Holds q' l ∧
      q'.entries = Function.update q.entries a (some { e with nextPtr := none }) := by
  have hnext : q.nextOf a = e.nextPtr := by rw [Queue.nextOf, he]; rfl
  have hal : a ∉ l := (List.nodup_cons.mp h.nodup).1
  -- the queue between the two branches on the new head
  set r : Queue ε :=
    if e.nextPtr = none then { q with head := e.nextPtr, tail := none }
    else { q with head := e.nextPtr } with hr
  have hrh : r.head = e.nextPtr := by rw [hr]; split <;> rfl
  have hre : r.entries = q.entries := by rw [hr]; split <;> rfl
  have hrt : r.tail = l.getLast? := by
    cases l with
    | nil =>
      have hnone : e.nextPtr = none := hnext.symm.trans h.follows.2
      rw [hr, if_pos hnone]
      rfl
    | cons b l =>
      have hsome : e.nextPtr = some b := hnext.symm.trans h.follows.2.1
      rw [hr, if_neg (by simp [hsome])]
      exact h.tail.trans List.getLast?_cons_cons
  refine ⟨r.setEntry a (some { e with nextPtr := none }), ?_, ?_, by simp [hre]⟩
  · have hset := Queue.setNext_of_some (q := r) (a := a) (by rw [hre, he]) none
    simp only [queueDequeue, h.follows.1, Queue.deref_of_some he, bind, Except.bind]
    rw [← hr, hset]
  · have hrl : Holds r l := by
      refine ⟨?_, fun b hb => ?_, hrt⟩
      · rw [hrh, ← hnext]
        apply h.follows.2.congr
        intro b _
        rw [Queue.nextOf, Queue.nextOf, hre]
      · rw [hre]
        exact h.live b (List.mem_cons_of_mem a hb)
    exact hrl.write hal _

end Holds

/-! ### The end of a queue -/

theorem destroyHead_of_some {e : QueueEntry ε} (he : q.entries a = some e) :
    ∃ q', destroyHead q a = .ok q' ∧ q'.head = e.nextPtr ∧
      q'.entries = Function.update q.entries a none := by
  refine ⟨{ q with head := e.nextPtr, entries := Function.update q.entries a none }, ?_, rfl, rfl⟩
  have hset := Queue.setNext_of_some (q := { q with head := e.nextPtr }) he none
  simp only [destroyHead, Queue.deref_of_some he, bind, Except.bind, hset, Queue.free,
    Queue.setEntry_entries, Function.update_self]
  simp [Queue.setEntry]

/-- The loop of `queue_destroy` ends, with one test more than there are
entries, and frees each entry.  It does not look at `tail`. -/
theorem destroyLoop_of_follows (h : Follows q.nextOf q.head l)
    (hlive : ∀ a ∈ l, ∃ e, q.entries a = some e) :
    ∃ q', destroyLoop (l.length + 1) q = some (.ok (l, q')) ∧
      ∀ b, q'.entries b = if b ∈ l then none else q.entries b := by
  induction l generalizing q with
  | nil =>
    have hh : q.head = none := h
    exact ⟨q, by rw [destroyLoop, hh], by simp⟩
  | cons a l ih =>
    obtain ⟨e, he⟩ := hlive a List.mem_cons_self
    obtain ⟨r, hr, hrh, hre⟩ := destroyHead_of_some he
    have hal : a ∉ l := (List.nodup_cons.mp h.nodup).1
    have hne : ∀ b ∈ l, r.entries b = q.entries b := by
      intro b hb
      have hba : b ≠ a := fun he => hal (he ▸ hb)
      rw [hre, Function.update_of_ne hba]
    have hnext : q.nextOf a = e.nextPtr := by rw [Queue.nextOf, he]; rfl
    -- behind the freed head stands the rest of the chain, untouched
    have hrest : Follows r.nextOf r.head l := by
      rw [hrh, ← hnext]
      apply h.2.congr
      intro b hb
      rw [Queue.nextOf, Queue.nextOf, hne b hb]
    obtain ⟨q', hloop, hq'⟩ := ih hrest fun b hb => by
      rw [hne b hb]
      exact hlive b (List.mem_cons_of_mem a hb)
    refine ⟨q', ?_, fun b => ?_⟩
    · rw [List.length_cons, destroyLoop, h.1]
      simp only [hr, hloop]
      rfl
    · rw [hq' b]
      by_cases hb : b = a
      · subst hb
        simp [hal, hre]
      · simp [hb, hre]

theorem Holds.destroy (h : Holds q l) :
    ∃ entries, queueDestroy (l.length + 1) (some q.toQueueStruct) q.entries =
        some (.ok (l, entries)) ∧
      ∀ b, entries b = if b ∈ l then none else q.entries b := by
  obtain ⟨q', hloop, hq'⟩ := destroyLoop_of_follows h.follows h.live
  refine ⟨q'.entries, ?_, hq'⟩
  show (destroyLoop (l.length + 1) q).map _ = _
  rw [hloop]
  rfl

/-! ### Runs -/

/-- The FIFO list after a call. -/
def Op.queued (l : List Addr) : Op ε → List Addr
  | .enqueue d => l ++ [d]
  | .dequeue => l.tail
  | .write _ _ => l

/-- What a call of `queue_dequeue` returns for a FIFO list. -/
def Op.returned (l : List Addr) : Op ε → List (Option Addr)
  | .dequeue => [l.head?]
  | _ => []

/-- The allocated entries after a step. -/
def Op.allocated (live : Addr → Bool) : Op ε → Addr → Bool
  | .write a e => Function.update live a e.isSome
  | _ => live

/-- What a program may do: enqueue allocated entries that are not in the queue,
and write to entries that are not in the queue. -/
def Op.Allowed (live : Addr → Bool) (l : List Addr) : Op ε → Prop
  | .enqueue d => live d ∧ d ∉ l
  | .dequeue => True
  | .write a _ => a ∉ l

namespace Op

/-- The FIFO list after a program. -/
def queuedAll (l : List Addr) (ops : List (Op ε)) : List Addr := ops.foldl Op.queued l

/-- What its calls of `queue_dequeue` return for a FIFO list, in order. -/
def returnedAll : List Addr → List (Op ε) → List (Option Addr)
  | _, [] => []
  | l, op :: ops => op.returned l ++ returnedAll (op.queued l) ops

/-- Each of its steps is one that it may make. -/
def AllowedAll : (Addr → Bool) → List Addr → List (Op ε) → Prop
  | _, _, [] => True
  | live, l, op :: ops => op.Allowed live l ∧ AllowedAll (op.allocated live) (op.queued l) ops

/-- The entries put in by a program, in order. -/
def enqueuedAll : List (Op ε) → List Addr :=
  List.filterMap fun
    | .enqueue d => some d
    | _ => none

/-- No entry is lost, repeated or reordered. -/
theorem enqueuedAll_eq (ops : List (Op ε)) (l : List Addr) :
    (returnedAll l ops).reduceOption ++ queuedAll l ops = l ++ enqueuedAll ops := by
  induction ops generalizing l with
  | nil => simp [returnedAll, queuedAll, enqueuedAll]
  | cons op ops ih =>
    rw [returnedAll, List.reduceOption_append, List.append_assoc]
    show _ ++ (_ ++ queuedAll (op.queued l) ops) = _
    rw [ih]
    cases op with
    | enqueue d => simp [returned, queued, enqueuedAll]
    | write a e => simp [returned, queued, enqueuedAll]
    | dequeue => cases l <;> simp [returned, queued, enqueuedAll, List.reduceOption_cons_of_some]

end Op

/-- One step of a program. -/
theorem Holds.exec (h : Holds q l) {op : Op ε}
    (hop : op.Allowed (fun a => (q.entries a).isSome) l) :
    ∃ q', op.exec q = .ok (op.returned l, q') ∧ Holds q' (op.queued l) ∧
      ∀ a, (q'.entries a).isSome = op.allocated (fun a => (q.entries a).isSome) a := by
  cases op with
  | enqueue d =>
    obtain ⟨e, he⟩ := Option.isSome_iff_exists.mp hop.1
    obtain ⟨q', hq', hh, hev⟩ := h.enqueue hop.2 he
    refine ⟨q', by simp only [Op.exec, hq']; rfl, hh, fun a => ?_⟩
    have hmap := congrArg Option.isSome (hev a)
    simpa [Queue.eventOf, Op.allocated] using hmap
  | write a e =>
    refine ⟨_, rfl, h.write hop e, fun b => ?_⟩
    by_cases hb : b = a
    · subst hb
      simp [Op.allocated]
    · simp [Op.allocated, Function.update_of_ne hb]
  | dequeue =>
    cases l with
    | nil => exact ⟨q, by simp only [Op.exec, h.dequeue_nil]; rfl, h, fun _ => rfl⟩
    | cons a l =>
      obtain ⟨e, he⟩ := h.live a List.mem_cons_self
      obtain ⟨q', hq', hh, hentries⟩ := h.dequeue he
      refine ⟨q', by simp only [Op.exec, hq']; rfl, hh, fun b => ?_⟩
      by_cases hb : b = a
      · subst hb
        simp [Op.allocated, hentries, he]
      · simp [Op.allocated, hentries, Function.update_of_ne hb]

/-- A run of a program. -/
theorem Holds.execAll (h : Holds q l) {ops : List (Op ε)}
    (hops : Op.AllowedAll (fun a => (q.entries a).isSome) l ops) :
    ∃ q', Op.execAll ops q = .ok (Op.returnedAll l ops, q') ∧
      Holds q' (Op.queuedAll l ops) := by
  induction ops generalizing q l with
  | nil => exact ⟨q, rfl, h⟩
  | cons op ops ih =>
    obtain ⟨r, hr, hrl, hlive⟩ := h.exec hops.1
    have hrest : Op.AllowedAll (fun a => (r.entries a).isSome) (op.queued l) ops := by
      rw [funext hlive]
      exact hops.2
    obtain ⟨q', hq', hh⟩ := ih hrl hrest
    refine ⟨q', ?_, hh⟩
    simp only [Op.execAll, hr, hq', bind, Except.bind]
    rfl

/-! ### What a caller sees -/

/-- The calls on `q`, in terms of the list `l`. -/
structure Behaves (q : Queue ε) (l : List Addr) : Prop where
  linked : Follows q.nextOf q.head l
  acyclic : l.Nodup
  tail : q.tail = l.getLast?
  null : q.tail = none ↔ q.head = none
  empty : queueEmpty q = true ↔ l = []
  /-- the first entry is returned, with its link cleared and its event as it was -/
  dequeue : ∃ q', queueDequeue q = .ok (l.head?, q') ∧
    ∀ a ∈ l.head?, ∃ e, q.eventOf a = some e ∧ q'.entries a = some ⟨none, e⟩
  /-- the loop ends, after passing each entry of `l` to `free` in turn -/
  destroy : ∃ tests entries, queueDestroy tests (some q.toQueueStruct) q.entries =
      some (.ok (l, entries)) ∧
    ∀ b, entries b = if b ∈ l then none else q.entries b

theorem Holds.behaves (h : Holds q l) : Behaves q l where
  linked := h.follows
  acyclic := h.nodup
  tail := h.tail
  null := h.tail_eq_none_iff
  empty := h.queueEmpty_iff
  dequeue := by
    cases l with
    | nil => exact ⟨q, h.dequeue_nil, by simp⟩
    | cons a l =>
      obtain ⟨e, he⟩ := h.live a List.mem_cons_self
      obtain ⟨q', hq', -, hentries⟩ := h.dequeue he
      refine ⟨q', hq', fun b hb => ⟨e.inotEv, ?_, ?_⟩⟩
      · obtain rfl : a = b := Option.some.inj hb
        rw [Queue.eventOf, he]
        rfl
      · obtain rfl : a = b := Option.some.inj hb
        rw [hentries, Function.update_self]
  destroy := ⟨_, h.destroy⟩

/-- The queue refines a FIFO list, in every run from `queue_create`. -/
theorem queue_refines_fifo {entries : Entries ε} {ops : List (Op ε)}
    (h : Op.AllowedAll (fun a => (entries a).isSome) [] ops) :
    ∃ q₀ q, queueCreate true entries = some q₀ ∧
      Op.execAll ops q₀ = .ok (Op.returnedAll [] ops, q) ∧
      Behaves q (Op.queuedAll [] ops) ∧
      Op.enqueuedAll ops = (Op.returnedAll [] ops).reduceOption ++ Op.queuedAll [] ops := by
  have h₀ : Holds (⟨⟨none, none⟩, entries⟩ : Queue ε) [] := queueCreate_holds rfl
  obtain ⟨q, hq, hh⟩ := h₀.execAll h
  exact ⟨_, q, rfl, hq, hh.behaves, (Op.enqueuedAll_eq ops []).symm⟩

/-- Two entries, the first of them put in again after it came out. -/
theorem queue_refines_fifo_twice :
    let entries : Entries ℕ := fun a => if a < 2 then some ⟨some 7, a⟩ else none
    let ops : List (Op ℕ) := [.enqueue 0, .enqueue 1, .dequeue, .enqueue 0, .dequeue]
    Op.returnedAll [] ops = [some 0, some 1] ∧ Op.queuedAll [] ops = [0] ∧
    ∃ q₀ q, queueCreate true entries = some q₀ ∧
      Op.execAll ops q₀ = .ok (Op.returnedAll [] ops, q) ∧
      Behaves q (Op.queuedAll [] ops) ∧
      Op.enqueuedAll ops = (Op.returnedAll [] ops).reduceOption ++ Op.queuedAll [] ops := by
  refine ⟨rfl, rfl, queue_refines_fifo ?_⟩
  simp [Op.AllowedAll, Op.Allowed, Op.allocated, Op.queued]

end SecuritySystem
