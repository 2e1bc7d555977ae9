/-
SecuritySystem/Manager/Connection.lean

One connection of the service manager, byte by byte.

The process that serves a connection reads into one `service_message_t` and
takes every read that delivers anything for a whole message.  TCP may cut the
byte stream anywhere, so a read may bring a part of a message, or the end of
one and the start of the next, and only the bytes it brings replace what the
object held.

`Child.read` is one turn of the loop and `connectionLoop` a whole connection.
A cut of the stream of `k` messages is a `Cut k`.  `connectionLoop_iff` says
for which cuts the replies are the right ones whatever the messages are and
whatever the object held at first: exactly when each message has a read of its
own that starts at its first byte and covers process id and signal, and the
other reads are too short to reach the signal (`GoodCut`).  In particular
whole-message reads are fine, and one byte too few at the start of a message
is not.
-/
import SecuritySystem.Manager.Message
import SecuritySystem.Lib.Pieces

namespace SecuritySystem

open Pieces ServiceMessage

/-! ### The loop -/

/-- What the operating system does in one turn: the bytes that `read`
delivers, none at the end of the stream, and whether a `write` succeeds. -/
structure ReadEvent where
  chunk : List UInt8
  writeOk : Bool

/-- The state of the serving process: `args->message`, the replies it has
written, oldest first, and whether it is still in its loop. -/
structure Child where
  message : ServiceMessage
  replies : List ServiceMessage
  running : Bool

/-- One turn of `while ((n = read(...)) > 0)`.  A failed write makes the
process set the DENY signal and exit. -/
def Child.read (c : Child) (e : ReadEvent) : Child :=
  if c.running = false then c
  else if e.chunk = [] then { c with running := false }
  else
    match answer (c.message.overlay e.chunk) with
    | none => { c with message := c.message.overlay e.chunk }
    | some reply =>
      if e.writeOk then { c with message := reply, replies := c.replies ++ [reply] }
      else { c with message := denied reply, running := false }

/-- The loop on a connection, started with `message` in `args->message`. -/
def connectionLoop (message : ServiceMessage) (events : List ReadEvent) : Child :=
  events.foldl Child.read ⟨message, [], true⟩

/-! ### Streams, cuts and the replies asked for -/

/-- The bytes of a sequence of messages. -/
def stream (ms : List ServiceMessage) : List UInt8 := ms.flatMap ServiceMessage.bytes

/-- The replies a sequence of messages asks for: one ACCEPT for each INIT,
with its process id. -/
def accepts (ms : List ServiceMessage) : List (ℕ × UInt8) :=
  (ms.filter fun m => decide m.IsInit).map fun m => (m.processId, 2)

/-- A way to cut the stream of `k` messages into reads. -/
structure Cut (k : ℕ) where
  sizes : List ℕ
  bounds : ∀ n ∈ sizes, 1 ≤ n ∧ n ≤ 520
  total : sizes.sum = 520 * k

/-- The reads of a stream under a cut, all writes succeeding. -/
def readsOf (sizes : List ℕ) (s : List UInt8) : List ReadEvent :=
  (pieces sizes s).map fun chunk => ⟨chunk, true⟩

/-- Under this cut the loop answers as the messages ask, for all messages and
all initial contents of `args->message`. -/
def AnswersRight {k : ℕ} (cut : Cut k) : Prop :=
  ∀ ms : List ServiceMessage, ms.length = k → (∀ m ∈ ms, m.WellFormed) → ∀ init,
    (connectionLoop init (readsOf cut.sizes (stream ms))).replies.map head = accepts ms

/-- A read of `n` bytes at offset `o` of the stream: at the start of a message
it takes at least the five bytes of process id and signal; elsewhere it takes
at most four bytes and stops at the end of the message. -/
def GoodRead (o n : ℕ) : Prop :=
  if o % 520 = 0 then 5 ≤ n else n ≤ 4 ∧ o % 520 + n ≤ 520

/-- Every read of the cut is good. -/
def GoodCut (sizes : List ℕ) : Prop :=
  ∀ pre n post, sizes = pre ++ n :: post → GoodRead pre.sum n

/-! ### Runs of reads -/

variable {m : ServiceMessage} {ms : List ServiceMessage} {c : Child} {chunk : List UInt8}

/-- Continue a connection with reads of the given chunks. -/
def Child.feed (c : Child) (chunks : List (List UInt8)) : Child :=
  (chunks.map fun chunk => ⟨chunk, true⟩).foldl Child.read c

theorem connectionLoop_eq_feed (init : ServiceMessage) (sizes : List ℕ) (s : List UInt8) :
    connectionLoop init (readsOf sizes s) = Child.feed ⟨init, [], true⟩ (pieces sizes s) := rfl

@[simp] theorem Child.feed_nil (c : Child) : c.feed [] = c := rfl

@[simp] theorem Child.feed_cons (c : Child) (chunk : List UInt8) (chunks : List (List UInt8)) :
    c.feed (chunk :: chunks) = (c.read ⟨chunk, true⟩).feed chunks := rfl

theorem Child.feed_append (c : Child) (xs ys : List (List UInt8)) :
    c.feed (xs ++ ys) = (c.feed xs).feed ys := by
  rw [Child.feed, List.map_append, List.foldl_append]
  rfl

theorem Child.read_of_isInit (hrun : c.running = true) (hne : chunk ≠ [])
    (hi : (c.message.overlay chunk).IsInit) :
    c.read ⟨chunk, true⟩ = ⟨(c.message.overlay chunk).setSignal 2,
      c.replies ++ [(c.message.overlay chunk).setSignal 2], true⟩ := by
  simp [Child.read, hrun, hne, answer_of_isInit hi]

theorem Child.read_of_not_isInit (hrun : c.running = true) (hne : chunk ≠ [])
    (hi : ¬ (c.message.overlay chunk).IsInit) :
    c.read ⟨chunk, true⟩ = { c with message := c.message.overlay chunk } := by
  simp [Child.read, hrun, hne, answer_of_not_isInit hi]

theorem isInit_of_head_eq {r : ServiceMessage} (h : r.head = m.head) (hm : m.IsInit) :
    r.IsInit := by
  obtain ⟨hp, hs⟩ := Prod.mk.inj h
  rw [IsInit, WellFormed, hp, hs]
  exact hm

/-- A read that covers the head of `m` is answered as `m` asks, and leaves a
signal other than INIT. -/
theorem Child.read_head (hrun : c.running = true) (hlen : 5 ≤ chunk.length)
    (hhead : headOf chunk = m.head) (hwf : m.WellFormed) :
    (c.read ⟨chunk, true⟩).running = true ∧
      (c.read ⟨chunk, true⟩).replies.map head = c.replies.map head ++ accepts [m] ∧
      (c.read ⟨chunk, true⟩).message.signal ≠ 0 := by
  have hne : chunk ≠ [] := by rintro rfl; simp at hlen
  have heq : (c.message.overlay chunk).head = m.head := (head_overlay_of_le hlen).trans hhead
  by_cases hi : m.IsInit
  · rw [Child.read_of_isInit hrun hne (isInit_of_head_eq heq hi)]
    have hp : (c.message.overlay chunk).processId = m.processId := (Prod.mk.inj heq).1
    refine ⟨rfl, ?_, by simp⟩
    simp [accepts, hi, head, hp]
  · rw [Child.read_of_not_isInit hrun hne fun h => hi (isInit_of_head_eq heq.symm h)]
    refine ⟨hrun, by simp [accepts, hi], ?_⟩
    intro h0
    have hs : (c.message.overlay chunk).signal = m.signal := (Prod.mk.inj heq).2
    exact hi ⟨hwf, hs.symm.trans h0⟩

/-- A read that does not reach the signal is not answered while the signal is
not INIT. -/
theorem Child.read_short (hrun : c.running = true) (hne : chunk ≠ []) (hlen : chunk.length < 5)
    (hs : c.message.signal ≠ 0) :
    (c.read ⟨chunk, true⟩).running = true ∧ (c.read ⟨chunk, true⟩).replies = c.replies ∧
      (c.read ⟨chunk, true⟩).message.signal ≠ 0 := by
  have hsig : (c.message.overlay chunk).signal = c.message.signal := signal_overlay_of_lt hlen
  rw [Child.read_of_not_isInit hrun hne fun hi => hs (hsig.symm.trans hi.2)]
  exact ⟨hrun, rfl, fun h0 => hs (hsig.symm.trans h0)⟩

theorem accepts_append (ms₁ ms₂ : List ServiceMessage) :
    accepts (ms₁ ++ ms₂) = accepts ms₁ ++ accepts ms₂ := by
  rw [accepts, List.filter_append, List.map_append]
  rfl

theorem length_stream (ms : List ServiceMessage) : (stream ms).length = 520 * ms.length :=
  length_flatMap_blocks ServiceMessage.size ms

/-- An offset in the stream that falls into the message `m`. -/
theorem drop_stream (ms₁ : List ServiceMessage) (m : ServiceMessage) (ms₂ : List ServiceMessage)
    {o p : ℕ} (hp : p ≤ 520) (ho : o = 520 * ms₁.length + p) :
    (stream (ms₁ ++ m :: ms₂)).drop o = m.bytes.drop p ++ stream ms₂ := by
  rw [ho]
  exact drop_flatMap ServiceMessage.size ms₁ m ms₂ hp

theorem headOf_take (m : ServiceMessage) (rest : List UInt8) {n : ℕ} (hn : 5 ≤ n) :
    headOf ((m.bytes ++ rest).take n) = m.head := by
  obtain ⟨b₀, b₁, b₂, b₃, s, tail, hm⟩ := m.exists_bytes
  obtain ⟨n, rfl⟩ := Nat.exists_eq_add_of_le hn
  rw [head_eq, hm, Nat.add_comm]
  rfl

/-- The head of a message, from the read that starts it. -/
theorem headOf_drop_stream {ms : List ServiceMessage} {i o n : ℕ} (hi : i < ms.length)
    (ho : o = 520 * i) (hn : 5 ≤ n) :
    headOf (((stream ms).drop o).take n) = ms[i].head := by
  have hms : ms.take i ++ ms[i] :: ms.drop (i + 1) = ms := by
    rw [List.getElem_cons_drop, List.take_append_drop]
  have hlen : (ms.take i).length = i := List.length_take_of_le (Nat.le_of_lt hi)
  have hdrop : (stream ms).drop o = ms[i].bytes ++ stream (ms.drop (i + 1)) := by
    have hat := drop_stream (ms.take i) ms[i] (ms.drop (i + 1)) (Nat.zero_le 520)
      (ho.trans (by rw [hlen, Nat.add_zero]))
    rwa [hms, List.drop_zero] at hat
  rw [hdrop]
  exact headOf_take _ _ hn

/-- A read that the stream can fill. -/
theorem length_take_drop_stream {ms : List ServiceMessage} {o n : ℕ}
    (h : o + n ≤ 520 * ms.length) : (((stream ms).drop o).take n).length = n := by
  rw [List.length_take, List.length_drop, length_stream]
  omega

/-! ### Good cuts are answered right -/

theorem GoodCut.of_append {pre post : List ℕ} (h : GoodCut (pre ++ post)) : GoodCut pre := by
  intro pre' n post' he
  apply h pre' n (post' ++ post)
  rw [he, List.append_assoc, List.cons_append]

/-- One more read behind the reads of `pre`. -/
theorem feed_concat (c : Child) (pre : List ℕ) (n : ℕ) (s : List UInt8) :
    c.feed (pieces (pre ++ [n]) s) =
      (c.feed (pieces pre s)).read ⟨(s.drop pre.sum).take n, true⟩ := by
  rw [pieces_append, Child.feed_append]
  rfl

/-- **The run over good reads**: each message that was begun has been answered
as it asks, and after the first read the signal is not INIT. -/
theorem feed_good (hwf : ∀ m ∈ ms, m.WellFormed) {sizes : List ℕ}
    (hb : ∀ n ∈ sizes, 1 ≤ n ∧ n ≤ 520) (hsum : sizes.sum ≤ 520 * ms.length)
    (hgood : GoodCut sizes) (init : ServiceMessage) :
    (Child.feed ⟨init, [], true⟩ (pieces sizes (stream ms))).running = true ∧
    (Child.feed ⟨init, [], true⟩ (pieces sizes (stream ms))).replies.map head =
      accepts (ms.take ((sizes.sum + 519) / 520)) ∧
    (sizes ≠ [] →
      (Child.feed ⟨init, [], true⟩ (pieces sizes (stream ms))).message.signal ≠ 0) := by
  induction sizes using List.reverseRecOn with
  | nil => exact ⟨rfl, rfl, fun h => absurd rfl h⟩
  | append_singleton pre n ih =>
    rw [List.sum_append, List.sum_singleton] at hsum
    have hn := hb n (by simp)
    obtain ⟨hrun, hrep, hsig⟩ := ih (fun k hk => hb k (by simp [hk])) (by omega) hgood.of_append
    have hread := hgood pre n [] rfl
    have hlen := length_take_drop_stream hsum
    rw [feed_concat, List.sum_append, List.sum_singleton]
    unfold GoodRead at hread
    split at hread
    · -- the read starts a message and covers its head
      next h0 =>
      have hlt : pre.sum / 520 < ms.length := by omega
      have hhead := headOf_drop_stream hlt (o := pre.sum) (by omega) hread
      obtain ⟨hrun', hrep', hsig'⟩ := Child.read_head hrun (by rw [hlen]; exact hread) hhead
        (hwf _ (List.getElem_mem hlt))
      refine ⟨hrun', ?_, fun _ => hsig'⟩
      have hc : (pre.sum + 519) / 520 = pre.sum / 520 := by omega
      have hc' : (pre.sum + n + 519) / 520 = pre.sum / 520 + 1 := by omega
      rw [hrep', hrep, hc, hc', ← accepts_append, List.take_append_getElem hlt]
    · -- the read stays within a message and does not reach the signal
      next h0 =>
      have hpre : pre ≠ [] := by rintro rfl; simp at h0
      have hne : ((stream ms).drop pre.sum).take n ≠ [] := by
        intro h
        rw [h, List.length_nil] at hlen
        omega
      obtain ⟨hrun', hrep', hsig'⟩ := Child.read_short hrun hne (by rw [hlen]; omega) (hsig hpre)
      refine ⟨hrun', ?_, fun _ => hsig'⟩
      have hc : (pre.sum + n + 519) / 520 = (pre.sum + 519) / 520 := by omega
      rw [hrep', hrep, hc]

theorem answersRight_of_goodCut {k : ℕ} {cut : Cut k} (h : GoodCut cut.sizes) :
    AnswersRight cut := by
  intro ms hk hwf init
  have hsum : cut.sizes.sum = 520 * ms.length := by rw [hk, cut.total]
  obtain ⟨-, hrep, -⟩ := feed_good hwf cut.bounds (Nat.le_of_eq hsum) h init
  rw [connectionLoop_eq_feed, hrep, List.take_of_length_le (by omega)]

/-! ### Other cuts are not -/

/-- A message with the given head, and a text of sevens. -/
def sevens (b s : UInt8) : ServiceMessage where
  bytes := [b, 0, 0, 0, s] ++ List.replicate 515 7
  size := by rw [List.length_append, List.length_replicate]; rfl

/-- A backup message that is no INIT. -/
def filler : ServiceMessage := sevens 0 2

/-- The firewall's INIT. -/
def firewallInit : ServiceMessage := sevens 1 0

/-- A stream of fillers with one other message in it. -/
def among (i : ℕ) (m : ServiceMessage) (l : ℕ) : List ServiceMessage :=
  List.replicate i filler ++ m :: List.replicate l filler

theorem zero_head : zero.head = (0, 0) := rfl

theorem length_among (i : ℕ) (m : ServiceMessage) (l : ℕ) : (among i m l).length = i + 1 + l := by
  rw [among, List.length_append, List.length_cons, List.length_replicate, List.length_replicate]
  omega

theorem wellFormed_of_mem_among {i l : ℕ} (hm : m.WellFormed) :
    ∀ r ∈ among i m l, r.WellFormed := by
  intro r hr
  have hf : filler.WellFormed := .inl rfl
  rcases List.mem_append.mp hr with hr | hr
  · rwa [List.eq_of_mem_replicate hr]
  · rcases List.mem_cons.mp hr with rfl | hr
    · exact hm
    · rwa [List.eq_of_mem_replicate hr]

theorem accepts_fillers (i : ℕ) : accepts (List.replicate i filler) = [] := by
  have hf : ¬ filler.IsInit := fun h => absurd (show (2 : UInt8) = 0 from h.2) (by decide)
  rw [accepts, List.filter_replicate_of_neg (by simp [hf])]
  rfl

theorem accepts_among (i : ℕ) (m : ServiceMessage) (l : ℕ) :
    accepts (among i m l) = accepts [m] := by
  rw [among, accepts_append, accepts_fillers, ← List.singleton_append, accepts_append,
    accepts_fillers, List.nil_append, List.append_nil]

theorem accepts_firewallInit : accepts [firewallInit] = [(1, 2)] := by
  have hi : firewallInit.IsInit := ⟨.inr rfl, rfl⟩
  simp only [accepts, List.filter_cons, hi, decide_true, if_true, List.filter_nil, List.map_cons,
    List.map_nil]
  rfl

theorem accepts_zero : accepts [zero] = [(0, 2)] := by
  have hi : zero.IsInit := ⟨.inl rfl, rfl⟩
  simp only [accepts, List.filter_cons, hi, decide_true, if_true, List.filter_nil, List.map_cons,
    List.map_nil]
  rfl

/-- Replies are never taken back. -/
theorem Child.replies_prefix (c : Child) (chunks : List (List UInt8)) :
    c.replies <+: (c.feed chunks).replies := by
  induction chunks generalizing c with
  | nil => exact List.prefix_rfl
  | cons chunk chunks ih =>
    refine List.IsPrefix.trans ?_ (ih _)
    unfold Child.read
    split
    · exact List.prefix_rfl
    · split
      · exact List.prefix_rfl
      · rcases answer (c.message.overlay chunk) with - | reply
        · exact List.prefix_rfl
        · exact List.prefix_append _ _

/-- Without a byte 1 in the stream no reply carries the process id 1. -/
theorem Child.feed_no_one {chunks : List (List UInt8)} (hrun : c.running = true)
    (hne : ∀ chunk ∈ chunks, chunk ≠ []) (hone : ∀ chunk ∈ chunks, (1 : UInt8) ∉ chunk)
    (hc : ∀ r ∈ c.replies, r.processId ≠ 1) :
    ∀ r ∈ (c.feed chunks).replies, r.processId ≠ 1 := by
  induction chunks generalizing c with
  | nil => exact hc
  | cons chunk chunks ih =>
    have hne' := hne chunk List.mem_cons_self
    -- the first byte of a read is the lowest byte of the process id
    have hid : (c.message.overlay chunk).processId ≠ 1 := by
      intro h1
      match chunk, hne', hone chunk List.mem_cons_self with
      | b :: rest, _, hb =>
        have hlow := processId_overlay_cons c.message b rest
        rw [h1] at hlow
        have hb1 : (1 : UInt8) = b := UInt8.toNat_inj.mp hlow
        exact hb (hb1 ▸ List.mem_cons_self)
    rw [Child.feed_cons]
    have hne'' := fun ch h => hne ch (List.mem_cons_of_mem chunk h)
    have hone' := fun ch h => hone ch (List.mem_cons_of_mem chunk h)
    by_cases hi : (c.message.overlay chunk).IsInit
    · rw [Child.read_of_isInit hrun hne' hi]
      refine ih rfl hne'' hone' fun r hr => ?_
      rcases List.mem_append.mp hr with hr | hr
      · exact hc r hr
      · obtain rfl := List.mem_singleton.mp hr
        rw [processId_setSignal]
        exact hid
    · rw [Child.read_of_not_isInit hrun hne' hi]
      exact ih hrun hne'' hone' hc

theorem one_not_mem_fillers (l : ℕ) : (1 : UInt8) ∉ stream (List.replicate l filler) := by
  intro h
  obtain ⟨m, hm, h1⟩ := List.mem_flatMap.mp h
  rw [List.eq_of_mem_replicate hm] at h1
  rcases List.mem_append.mp h1 with h1 | h1
  · exact absurd h1 (by decide)
  · exact absurd (List.eq_of_mem_replicate h1) (by decide)

/-- The firewall's INIT has its byte 1 at the front. -/
theorem one_not_mem_drop_firewallInit {q : ℕ} (hq : 1 ≤ q) :
    (1 : UInt8) ∉ firewallInit.bytes.drop q := by
  obtain ⟨q, rfl⟩ := Nat.exists_eq_add_of_le hq
  rw [← List.drop_drop]
  intro h
  have h1 : (1 : UInt8) ∈ [0, 0, 0, 0] ++ List.replicate 515 7 := List.mem_of_mem_drop h
  rcases List.mem_append.mp h1 with h1 | h1
  · exact absurd h1 (by decide)
  · exact absurd (List.eq_of_mem_replicate h1) (by decide)

theorem headOf_take_zeros {q n : ℕ} (hq : 5 ≤ q) (hn : 5 ≤ n) (tail : List UInt8) :
    headOf ((List.replicate q 0 ++ tail).take n) = (0, 0) := by
  obtain ⟨q, rfl⟩ := Nat.exists_eq_add_of_le' hq
  obtain ⟨n, rfl⟩ := Nat.exists_eq_add_of_le' hn
  rfl

variable {k : ℕ} {cut : Cut k} {pre post : List ℕ} {n : ℕ}

/-- What is known of a cut whose reads are good up to a certain one. -/
theorem sum_le_of_split (hs : cut.sizes = pre ++ n :: post) :
    pre.sum + n + post.sum = 520 * k ∧ (∀ i ∈ pre, 1 ≤ i ∧ i ≤ 520) ∧ 1 ≤ n ∧
      ∀ i ∈ post, 1 ≤ i := by
  have htot := cut.total
  have hb := cut.bounds
  rw [hs] at htot hb
  rw [List.sum_append, List.sum_cons, ← Nat.add_assoc] at htot
  exact ⟨htot, fun i hi => hb i (by simp [hi]), (hb n (by simp)).1,
    fun i hi => (hb i (by simp [hi])).1⟩

/-- The replies of the whole cut, from the read behind `pre` on. -/
theorem connectionLoop_split (hs : cut.sizes = pre ++ n :: post) (init : ServiceMessage)
    (s : List UInt8) :
    connectionLoop init (readsOf cut.sizes s) =
      ((Child.feed ⟨init, [], true⟩ (pieces pre s)).read ⟨(s.drop pre.sum).take n, true⟩).feed
        (pieces post (s.drop (pre.sum + n))) := by
  rw [connectionLoop_eq_feed, hs, pieces_append, Child.feed_append, pieces_cons, Child.feed_cons,
    List.drop_drop]

/-- A read of at most four bytes brings the first byte of a message: if that
message is the firewall's INIT among fillers, the firewall gets no ACCEPT. -/
theorem not_answersRight_of_short (hs : cut.sizes = pre ++ n :: post) (hgood : GoodCut pre)
    (hn : n ≤ 4) {j : ℕ} (hlo : pre.sum ≤ 520 * j) (hhi : 520 * j < pre.sum + n) :
    ¬ AnswersRight cut := by
  intro hright
  obtain ⟨htot, hpre, hpos, hpost⟩ := sum_le_of_split hs
  obtain ⟨l, rfl⟩ : ∃ l, k = j + 1 + l := Nat.exists_eq_add_of_le (by omega)
  let ms := among j firewallInit l
  have hlen : ms.length = j + 1 + l := length_among j firewallInit l
  have hwf : ∀ m ∈ ms, m.WellFormed := wellFormed_of_mem_among (.inr rfl)
  -- nothing is written before the read in question, and the signal is not INIT
  obtain ⟨hrun, hrep, hsig⟩ := feed_good hwf hpre (by rw [hlen]; omega) hgood filler
  have htake : ms.take ((pre.sum + 519) / 520) =
      List.replicate ((pre.sum + 519) / 520) filler := by
    have hle : (pre.sum + 519) / 520 ≤ j := by omega
    rw [show ms = List.replicate j filler ++ firewallInit :: List.replicate l filler from rfl,
      List.take_append_of_le_length (by rw [List.length_replicate]; exact hle),
      List.take_replicate, Nat.min_eq_left hle]
  rw [htake, accepts_fillers, List.map_eq_nil_iff] at hrep
  have hsig' : (Child.feed ⟨filler, [], true⟩ (pieces pre (stream ms))).message.signal ≠ 0 := by
    by_cases h0 : pre = []
    · rw [h0]
      show (2 : UInt8) ≠ 0
      decide
    · exact hsig h0
  have hclen : (((stream ms).drop pre.sum).take n).length = n :=
    length_take_drop_stream (by rw [hlen]; omega)
  have hne : ((stream ms).drop pre.sum).take n ≠ [] := by
    intro h
    rw [h, List.length_nil] at hclen
    omega
  obtain ⟨hrun', hrep', -⟩ := Child.read_short hrun hne (by rw [hclen]; omega) hsig'
  -- what follows has no byte 1
  have hrest : (1 : UInt8) ∉ (stream ms).drop (pre.sum + n) := by
    rw [show ms = List.replicate j filler ++ firewallInit :: List.replicate l filler from rfl,
      drop_stream (p := pre.sum + n - 520 * j) _ _ _ (by omega)
        (by rw [List.length_replicate]; omega)]
    intro h
    rcases List.mem_append.mp h with h | h
    · exact one_not_mem_drop_firewallInit (by omega) h
    · exact one_not_mem_fillers l h
  have hle : post.sum ≤ ((stream ms).drop (pre.sum + n)).length := by
    rw [List.length_drop, length_stream, hlen]
    omega
  have hno := Child.feed_no_one hrun' (fun _ hchunk => ne_nil_of_mem_pieces hpost hle hchunk)
    (fun _ hchunk h1 => hrest (mem_of_mem_pieces hchunk h1)) (by rw [hrep', hrep]; simp)
  have hgot := hright ms hlen hwf filler
  rw [connectionLoop_split hs, accepts_among, accepts_firewallInit] at hgot
  obtain ⟨r, hr, hr1⟩ := List.mem_map.mp (hgot ▸ List.mem_singleton_self ((1 : ℕ), (2 : UInt8)))
  exact hno r hr (congrArg Prod.fst hr1)

/-- A read of five bytes or more starts inside a message: if that message is
all zeros, it is answered twice. -/
theorem not_answersRight_of_long (hs : cut.sizes = pre ++ n :: post) (hgood : GoodCut pre)
    (hn : 5 ≤ n) (hp : pre.sum % 520 ≠ 0) : ¬ AnswersRight cut := by
  intro hright
  obtain ⟨htot, hpre, -, -⟩ := sum_le_of_split hs
  obtain ⟨l, hk⟩ : ∃ l, k = pre.sum / 520 + 1 + l := Nat.exists_eq_add_of_le (by omega)
  let ms := among (pre.sum / 520) zero l
  have hlen : ms.length = k := by rw [hk]; exact length_among (pre.sum / 520) zero l
  have hwf : ∀ m ∈ ms, m.WellFormed := wellFormed_of_mem_among (.inl rfl)
  -- the zero message has been answered before
  obtain ⟨hrun, hrep, -⟩ := feed_good hwf hpre (by rw [hlen]; omega) hgood filler
  have htake : ms.take ((pre.sum + 519) / 520) = among (pre.sum / 520) zero 0 := by
    rw [show (pre.sum + 519) / 520 = pre.sum / 520 + 1 by omega,
      show ms = List.replicate (pre.sum / 520) filler ++ zero :: List.replicate l filler from rfl,
      List.take_append, List.length_replicate, Nat.add_sub_cancel_left,
      List.take_of_length_le (by rw [List.length_replicate]; omega)]
    rfl
  rw [htake, accepts_among, accepts_zero] at hrep
  -- the read brings five zeros
  have hzeros : ∃ q tail, 5 ≤ q ∧ (stream ms).drop pre.sum = List.replicate q 0 ++ tail := by
    have hdrop : (stream ms).drop pre.sum =
        List.replicate (520 - pre.sum % 520) 0 ++ stream (List.replicate l filler) := by
      rw [show ms = List.replicate (pre.sum / 520) filler ++ zero :: List.replicate l filler
          from rfl,
        drop_stream (p := pre.sum % 520) _ _ _ (by omega) (by rw [List.length_replicate]; omega)]
      show (List.replicate 520 0).drop _ ++ _ = _
      rw [List.drop_replicate]
    match l, hk with
    | 0, hk => exact ⟨520 - pre.sum % 520, [], by omega, hdrop⟩
    | l + 1, _ =>
      refine ⟨520 - pre.sum % 520 + 4, 2 :: (List.replicate 515 7 ++
        stream (List.replicate l filler)), by omega, ?_⟩
      rw [hdrop, List.replicate_add _ 4, List.append_assoc]
      rfl
  obtain ⟨q, tail, hq, hdrop⟩ := hzeros
  have hclen : 5 ≤ (((stream ms).drop pre.sum).take n).length := by
    rw [List.length_take, List.length_drop, length_stream, hlen]
    omega
  have hhead : headOf (((stream ms).drop pre.sum).take n) = zero.head := by
    rw [hdrop, headOf_take_zeros hq hn, zero_head]
  obtain ⟨-, hrep', -⟩ := Child.read_head hrun hclen hhead (.inl rfl)
  rw [hrep, accepts_zero] at hrep'
  have hgot := hright ms hlen hwf filler
  rw [connectionLoop_split hs, accepts_among, accepts_zero] at hgot
  have htwo := (Child.replies_prefix _ _ |>.map head).length_le.trans_eq (congrArg List.length hgot)
  rw [hrep'] at htwo
  exact absurd htwo (by decide)

/-- **Exactly the good cuts are answered right.** -/
theorem connectionLoop_iff {k : ℕ} (cut : Cut k) : AnswersRight cut ↔ GoodCut cut.sizes := by
  refine ⟨fun hright => ?_, answersRight_of_goodCut⟩
  rcases first_failure (fun pre n => GoodRead pre.sum n) cut.sizes with
    hall | ⟨pre, n, post, hs, hgood, hbad⟩
  · exact hall
  · exfalso
    obtain ⟨-, -, hpos, -⟩ := sum_le_of_split hs
    unfold GoodRead at hbad
    split at hbad
    · next h0 =>
      exact not_answersRight_of_short (j := pre.sum / 520) hs hgood (by omega) (by omega)
        (by omega) hright
    · next h0 =>
      by_cases hn : n ≤ 4
      · exact not_answersRight_of_short (j := pre.sum / 520 + 1) hs hgood hn (by omega)
          (by omega) hright
      · exact not_answersRight_of_long hs hgood (by omega) h0 hright

/-- Five bytes and the rest: the two reads of one message. -/
def cutAtHead : Cut 1 where
  sizes := [5, 515]
  bounds := by decide
  total := by decide

/-- The replies depend on the cut: the backup service's INIT, all zeros, gets
two ACCEPTs when it arrives in reads of 5 and 515 bytes. -/
theorem not_answersRight_cutAtHead : ¬ ∀ (k : ℕ) (cut : Cut k), AnswersRight cut := by
  intro h
  have h2 : (connectionLoop zero (readsOf [5, 515] (stream [zero]))).replies.map head =
      accepts [zero] :=
    h 1 cutAtHead [zero] rfl (fun m hm => List.mem_singleton.mp hm ▸ .inl rfl) zero
  rw [accepts_zero] at h2
  exact absurd (congrArg List.length h2) (by decide)

end SecuritySystem
