/-
SecuritySystem/Manager/ProtocolSafety.lean

What every run of the manager and its clients keeps.

The invariant attaches evidence to each place a message can be in: a message
on its way to the manager was sent by the owner of its connection; what a
process is about to write is the answer to a message it received on the
connection its own descriptor names; a reply on its way back answers such a
message; a client that has taken a reply took one of these.  Evidence is a
sublist of the trace, so it also says in which order things happened, and it
survives every further step (`mono`).

The invariant is kept by each of the four changes a step is made of (`setProc`,
`setConn`, `setClient`, `log`), hence by each step (`Inv.step`) and along each
run (`Reachable.inv`).  `reachable_start_safe` reads off the safety of `start`.
-/
import SecuritySystem.Manager.Protocol

namespace SecuritySystem.Protocol

open SecuritySystem ServiceMessage Function List

variable {kind : ClientId → Option Service} {s : State} {T T' : List Event}
variable {p : Pid} {i j : ClientId} {c : ConnId} {m r : ServiceMessage} {e : Event}

/-! ### Evidence -/

/-- Process `p` serves the connection `c` of client `i` and has received `m`
on it, which `i` sent. -/
structure Received (T : List Event) (p : Pid) (i : ClientId) (c : ConnId)
    (m : ServiceMessage) : Prop where
  asked : [.received p c m, .sent i c m, .connected i c] <+ T
  child : [.received p c m, .forked p c, .accepted c, .connected i c] <+ T

/-- It has answered `m` with `r` on the same connection. -/
structure Answered (T : List Event) (p : Pid) (i : ClientId) (c : ConnId)
    (m r : ServiceMessage) : Prop where
  answer : answer m = some r
  asked : [.answered p c r, .received p c m, .sent i c m, .connected i c] <+ T
  child : [.received p c m, .forked p c, .accepted c, .connected i c] <+ T

/-- Client `i` has taken this answer. -/
structure Took (T : List Event) (p : Pid) (i : ClientId) (c : ConnId)
    (m r : ServiceMessage) : Prop where
  answer : answer m = some r
  asked : [.took i c r (some i), .answered p c r, .received p c m, .sent i c m,
    .connected i c] <+ T
  child : [.received p c m, .forked p c, .accepted c, .connected i c] <+ T

/-- Client `i` has entered `start` with an ACCEPT of its own service, taken
from its own connection, where the process that serves it wrote it in answer
to the client's INIT. -/
structure Started (T : List Event) (v : Service) (i : ClientId) (c : ConnId) (p : Pid)
    (r : ServiceMessage) : Prop where
  processId : r.processId = v.processType
  signal : r.signal = v.acceptSignal
  asked : [.started i, .took i c r (some i), .answered p c r, .received p c v.sayHello,
    .sent i c v.sayHello, .connected i c] <+ T
  child : [.received p c v.sayHello, .forked p c, .accepted c, .connected i c] <+ T

theorem Received.mono (hT : T <+ T') (h : Received T p i c m) : Received T' p i c m :=
  ⟨h.asked.trans hT, h.child.trans hT⟩

theorem Answered.mono (hT : T <+ T') (h : Answered T p i c m r) : Answered T' p i c m r :=
  ⟨h.answer, h.asked.trans hT, h.child.trans hT⟩

theorem Took.mono (hT : T <+ T') (h : Took T p i c m r) : Took T' p i c m r :=
  ⟨h.answer, h.asked.trans hT, h.child.trans hT⟩

theorem Started.mono {v : Service} (hT : T <+ T') (h : Started T v i c p r) :
    Started T' v i c p r :=
  ⟨h.processId, h.signal, h.asked.trans hT, h.child.trans hT⟩

/-! ### What each part of the state is due -/

/-- Every message in flight belongs to the owner of its connection, and has been sent
or answered there. -/
structure ConnOk (T : List Event) (c : ConnId) (k : Conn) : Prop where
  opened : .connected k.owner c ∈ T
  toServer : ∀ m ∈ k.toServer, m.origin = some k.owner ∧
    [.sent k.owner c m.message, .connected k.owner c] <+ T
  toClient : ∀ r ∈ k.toClient, r.origin = some k.owner ∧
    ∃ p m, Answered T p k.owner c m r.message

/-- The descriptor that a process uses names the connection it serves. -/
def ProcOk (T : List Event) (p : Pid) (x : Proc) : Prop :=
  match x.phase with
  | .forking | .forkingChild => ∃ c i, x.fds x.args.newsockfd = some (.conn c) ∧
      [.accepted c, .connected i c] <+ T
  | .reading => ∃ c i, x.fds x.args.newsockfd = some (.conn c) ∧
      [.forked p c, .accepted c, .connected i c] <+ T
  | .writing => ∃ c i m, x.fds x.args.newsockfd = some (.conn c) ∧
      x.args.message.origin = some i ∧ answer m = some x.args.message.message ∧
      Received T p i c m
  | .accepting | .closing | .waiting _ | .exited => True

/-- The client has neither started nor seen the end of the stream. -/
structure Quiet (T : List Event) (i : ClientId) : Prop where
  started : .started i ∉ T
  sawEof : ∀ c, .sawEof i c ∉ T

/-- A client has heard what its phase says, and starts only behind an answer. -/
def ClientOk (T : List Event) (i : ClientId) : ClientPhase → Prop
  | .idle => Quiet T i
  | .connected c | .awaiting c => Quiet T i ∧ .connected i c ∈ T
  | .deciding c ans => .started i ∉ T ∧
      (ans = zero ∨ (∀ c, .sawEof i c ∉ T) ∧ ∃ p m, Took T p i c m ans)
  | .running _ => ∀ c, .sawEof i c ∉ T
  | .finished => .started i ∈ T → ∀ c, .sawEof i c ∉ T

/-- **The invariant.** -/
structure Inv (kind : ClientId → Option Service) (s : State) : Prop where
  conns : ∀ c k, s.conns c = some k → ConnOk s.trace c k
  procs : ∀ p x, s.procs p = some x → ProcOk s.trace p x
  clients : ∀ i, ClientOk s.trace i (s.clients i)
  opened : ∀ i c, .connected i c ∈ s.trace → ∃ k, s.conns c = some k ∧ k.owner = i
  sent : ∀ i c m v, .sent i c m ∈ s.trace → kind i = some v → m = v.sayHello
  took : ∀ i c r o, .took i c r o ∈ s.trace → o = some i ∧ .connected i c ∈ s.trace
  started : ∀ i, .started i ∈ s.trace →
    ∃ v c p r, kind i = some v ∧ Started s.trace v i c p r

theorem ConnOk.mono {k : Conn} (hT : T <+ T') (h : ConnOk T c k) : ConnOk T' c k where
  opened := hT.subset h.opened
  toServer m hm := ⟨(h.toServer m hm).1, (h.toServer m hm).2.trans hT⟩
  toClient r hr := by
    obtain ⟨ho, p, m, ha⟩ := h.toClient r hr
    exact ⟨ho, p, m, ha.mono hT⟩

theorem ProcOk.mono {x : Proc} (hT : T <+ T') (h : ProcOk T p x) : ProcOk T' p x := by
  unfold ProcOk at h ⊢
  split at h
  · obtain ⟨c, i, hfd, hev⟩ := h
    exact ⟨c, i, hfd, hev.trans hT⟩
  · obtain ⟨c, i, hfd, hev⟩ := h
    exact ⟨c, i, hfd, hev.trans hT⟩
  · obtain ⟨c, i, hfd, hev⟩ := h
    exact ⟨c, i, hfd, hev.trans hT⟩
  · obtain ⟨c, i, m, hfd, ho, ha, hr⟩ := h
    exact ⟨c, i, m, hfd, ho, ha, hr.mono hT⟩
  all_goals trivial

/-- The client that an event moves to another phase for good. -/
def Event.subject : Event → Option ClientId
  | .started i | .sawEof i _ => some i
  | _ => none

theorem started_mem_cons (he : e.subject ≠ some i) :
    .started i ∈ e :: T ↔ .started i ∈ T := by
  rw [List.mem_cons, or_iff_right]
  rintro rfl
  exact he rfl

theorem sawEof_mem_cons (he : e.subject ≠ some i) :
    .sawEof i c ∈ e :: T ↔ .sawEof i c ∈ T := by
  rw [List.mem_cons, or_iff_right]
  rintro rfl
  exact he rfl

theorem Quiet.cons (he : e.subject ≠ some i) (h : Quiet T i) : Quiet (e :: T) i where
  started := fun hs => h.started ((started_mem_cons he).mp hs)
  sawEof c := fun hs => h.sawEof c ((sawEof_mem_cons he).mp hs)

theorem ClientOk.cons {ph : ClientPhase} (he : e.subject ≠ some i) (h : ClientOk T i ph) :
    ClientOk (e :: T) i ph := by
  have hT : T <+ e :: T := List.sublist_cons_self e T
  cases ph with
  | idle => exact Quiet.cons he h
  | connected c => exact ⟨h.1.cons he, hT.subset h.2⟩
  | awaiting c => exact ⟨h.1.cons he, hT.subset h.2⟩
  | deciding c ans =>
    obtain ⟨hst, hans⟩ := h
    refine ⟨fun hs => hst ((started_mem_cons he).mp hs), ?_⟩
    rcases hans with rfl | ⟨heof, p, m, htook⟩
    · exact .inl rfl
    · exact .inr ⟨fun c hs => heof c ((sawEof_mem_cons he).mp hs), p, m, htook.mono hT⟩
  | running c => exact fun c hs => h c ((sawEof_mem_cons he).mp hs)
  | finished =>
    intro hs c heof
    exact h ((started_mem_cons he).mp hs) c ((sawEof_mem_cons he).mp heof)

/-- No client starts and sees the end of its stream. -/
theorem ClientOk.not_both {ph : ClientPhase} (h : ClientOk T i ph) (hs : .started i ∈ T) :
    ∀ c, .sawEof i c ∉ T := by
  cases ph with
  | idle => exact fun _ => absurd hs h.started
  | connected c => exact fun _ => absurd hs h.1.started
  | awaiting c => exact fun _ => absurd hs h.1.started
  | deciding c ans => exact fun _ => absurd hs h.1
  | running c => exact h
  | finished => exact h hs

/-! ### The four changes keep the invariant -/

/-- What a table holds after an entry has been written. -/
theorem of_update_eq_some {α : Type} {f : ℕ → Option α} {a b : ℕ} {v w : α}
    (h : update f a (some v) b = some w) : b = a ∧ v = w ∨ f b = some w := by
  rw [update_apply] at h
  split at h
  · next he => exact .inl ⟨he, Option.some.inj h⟩
  · exact .inr h

theorem Inv.setProc {x : Proc} (h : Inv kind s) (hx : ProcOk s.trace p x) :
    Inv kind (s.setProc p x) := by
  refine ⟨h.conns, fun q y hq => ?_, h.clients, h.opened, h.sent, h.took, h.started⟩
  rcases of_update_eq_some hq with ⟨rfl, rfl⟩ | hq
  · exact hx
  · exact h.procs q y hq

theorem Inv.setConn {k k' : Conn} (h : Inv kind s) (hc : s.conns c = some k)
    (hk : ConnOk s.trace c k') (howner : k'.owner = k.owner) : Inv kind (s.setConn c k') := by
  refine ⟨fun d l hd => ?_, h.procs, h.clients, fun i d hd => ?_, h.sent, h.took, h.started⟩
  · rcases of_update_eq_some hd with ⟨rfl, rfl⟩ | hd
    · exact hk
    · exact h.conns d l hd
  · obtain ⟨l, hl, hi⟩ := h.opened i d hd
    by_cases he : d = c
    · subst he
      obtain rfl := Option.some.inj (hl.symm.trans hc)
      exact ⟨k', update_self .., howner.trans hi⟩
    · exact ⟨l, (update_of_ne he ..).trans hl, hi⟩

theorem Inv.setClient {ph : ClientPhase} (h : Inv kind s) (hi : ClientOk s.trace i ph) :
    Inv kind (s.setClient i ph) := by
  refine ⟨h.conns, h.procs, fun j => ?_, h.opened, h.sent, h.took, h.started⟩
  show ClientOk s.trace j (update s.clients i ph j)
  rw [update_apply]
  split
  · next he => exact he ▸ hi
  · exact h.clients j

/-- What an event has to be true to. -/
def EventOk (kind : ClientId → Option Service) (s : State) : Event → Prop
  | .connected i c => ∃ k, s.conns c = some k ∧ k.owner = i
  | .sent i _ m => ∀ v, kind i = some v → m = v.sayHello
  | .took i c _ o => o = some i ∧ .connected i c ∈ s.trace
  | .started i => ∃ v c p r, kind i = some v ∧ Started (.started i :: s.trace) v i c p r
  | .accepted _ | .forked _ _ | .received _ _ _ | .answered _ _ _ | .sawEof _ _ => True

/-- An event, with the phases of the clients behind it. -/
theorem Inv.logClients (h : Inv kind s) (he : EventOk kind s e) {cl : ClientId → ClientPhase}
    (hcl : ∀ i, ClientOk (e :: s.trace) i (cl i)) :
    Inv kind { s.log e with clients := cl } := by
  have hT : s.trace <+ e :: s.trace := List.sublist_cons_self e s.trace
  refine ⟨fun c k hc => (h.conns c k hc).mono hT, fun p x hp => (h.procs p x hp).mono hT, hcl,
    fun i c hi => ?_, fun i c m v hi hv => ?_, fun i c r o hi => ?_, fun i hi => ?_⟩
  · rcases List.mem_cons.mp hi with rfl | hi
    · exact he
    · exact h.opened i c hi
  · rcases List.mem_cons.mp hi with rfl | hi
    · exact he v hv
    · exact h.sent i c m v hi hv
  · rcases List.mem_cons.mp hi with rfl | hi
    · exact ⟨he.1, hT.subset he.2⟩
    · exact ⟨(h.took i c r o hi).1, hT.subset (h.took i c r o hi).2⟩
  · rcases List.mem_cons.mp hi with rfl | hi
    · exact he
    · obtain ⟨v, c, p, r, hv, hs⟩ := h.started i hi
      exact ⟨v, c, p, r, hv, hs.mono hT⟩

theorem Inv.log (h : Inv kind s) (he : EventOk kind s e) (hsub : e.subject = none) :
    Inv kind (s.log e) :=
  h.logClients he fun i => (h.clients i).cons (by rw [hsub]; exact (Option.some_ne_none i).symm)

/-- An event of a client, with its new phase. -/
theorem Inv.logClient {ph : ClientPhase} (h : Inv kind s) (he : EventOk kind s e)
    (hsub : e.subject = some i) (hi : ClientOk (e :: s.trace) i ph) :
    Inv kind ((s.log e).setClient i ph) := by
  apply h.logClients he
  intro j
  rw [update_apply]
  split
  · next hj => exact hj ▸ hi
  · next hj =>
    refine (h.clients j).cons ?_
    rw [hsub]
    exact fun hij => hj (Option.some.inj hij).symm

/-- A connection is opened at a fresh number. -/
theorem Inv.openConn (h : Inv kind s) (hc : s.conns c = none) :
    Inv kind ((s.log (.connected i c)).setConn c (.fresh i)) := by
  have hT : s.trace <+ .connected i c :: s.trace := List.sublist_cons_self _ s.trace
  have hsub : ∀ j, (Event.connected i c).subject ≠ some j := fun j h => by cases h
  refine ⟨fun d l hd => ?_, fun p x hp => (h.procs p x hp).mono hT,
    fun j => (h.clients j).cons (hsub j), fun j d hd => ?_, fun j d m v hj hv => ?_,
    fun j d r o hj => ?_, fun j hj => ?_⟩
  · rcases of_update_eq_some hd with ⟨rfl, rfl⟩ | hd
    · exact ⟨List.mem_cons_self, fun m hm => absurd hm List.not_mem_nil,
        fun r hr => absurd hr List.not_mem_nil⟩
    · exact (h.conns d l hd).mono hT
  · rcases List.mem_cons.mp hd with hd | hd
    · obtain ⟨rfl, rfl⟩ := Event.connected.inj hd
      exact ⟨.fresh j, update_self .., rfl⟩
    · obtain ⟨l, hl, ho⟩ := h.opened j d hd
      have hne : d ≠ c := by
        rintro rfl
        rw [hc] at hl
        cases hl
      exact ⟨l, (update_of_ne hne ..).trans hl, ho⟩
  · rcases List.mem_cons.mp hj with hj | hj
    · cases hj
    · exact h.sent j d m v hj hv
  · rcases List.mem_cons.mp hj with hj | hj
    · cases hj
    · exact ⟨(h.took j d r o hj).1, hT.subset (h.took j d r o hj).2⟩
  · rcases List.mem_cons.mp hj with hj | hj
    · cases hj
    · obtain ⟨v, d, p, r, hv, hs⟩ := h.started j hj
      exact ⟨v, d, p, r, hv, hs.mono hT⟩

/-! ### Steps -/

/-- A connection has one owner. -/
theorem Inv.owner_eq {k : Conn} (h : Inv kind s) (hc : s.conns c = some k)
    (hi : .connected i c ∈ s.trace) : k.owner = i := by
  obtain ⟨l, hl, ho⟩ := h.opened i c hi
  obtain rfl := Option.some.inj (hc.symm.trans hl)
  exact ho

section Queues

variable {k : Conn} {rest : List Packet} {x : Packet}

theorem ConnOk.popServer (h : ConnOk T c k) (hx : k.toServer = x :: rest) :
    ConnOk T c { k with toServer := rest } :=
  ⟨h.opened, fun m hm => h.toServer m (hx ▸ List.mem_cons_of_mem x hm), h.toClient⟩

theorem ConnOk.popClient (h : ConnOk T c k) (hx : k.toClient = x :: rest) :
    ConnOk T c { k with toClient := rest } :=
  ⟨h.opened, h.toServer, fun r hr => h.toClient r (hx ▸ List.mem_cons_of_mem x hr)⟩

theorem ConnOk.pushServer (h : ConnOk T c k) (ho : x.origin = some k.owner)
    (hsent : [.sent k.owner c x.message, .connected k.owner c] <+ T) :
    ConnOk T c { k with toServer := k.toServer ++ [x] } := by
  refine ⟨h.opened, fun m hm => ?_, h.toClient⟩
  rcases List.mem_append.mp hm with hm | hm
  · exact h.toServer m hm
  · obtain rfl := List.mem_singleton.mp hm
    exact ⟨ho, hsent⟩

theorem ConnOk.pushClient (h : ConnOk T c k) (ho : x.origin = some k.owner)
    (ha : Answered T p k.owner c m x.message) :
    ConnOk T c { k with toClient := k.toClient ++ [x] } := by
  refine ⟨h.opened, h.toServer, fun r hr => ?_⟩
  rcases List.mem_append.mp hr with hr | hr
  · exact h.toClient r hr
  · obtain rfl := List.mem_singleton.mp hr
    exact ⟨ho, p, m, ha⟩

end Queues

section Phases

variable {x : Proc} (h : ProcOk T p x) (hfd : x.fds x.args.newsockfd = some (.conn c))

include h hfd

/-- A child that is being made will serve an accepted connection. -/
theorem ProcOk.of_forkingChild (hph : x.phase = .forkingChild) :
    ∃ i, [.accepted c, .connected i c] <+ T := by
  unfold ProcOk at h
  rw [hph] at h
  obtain ⟨c', i, hfd', hev⟩ := h
  obtain rfl := File.conn.inj (Option.some.inj (hfd.symm.trans hfd'))
  exact ⟨i, hev⟩

/-- A process that reads was forked for its connection. -/
theorem ProcOk.of_reading (hph : x.phase = .reading) :
    ∃ i, [.forked p c, .accepted c, .connected i c] <+ T := by
  unfold ProcOk at h
  rw [hph] at h
  obtain ⟨c', i, hfd', hev⟩ := h
  obtain rfl := File.conn.inj (Option.some.inj (hfd.symm.trans hfd'))
  exact ⟨i, hev⟩

/-- A process that writes has the answer to what it received. -/
theorem ProcOk.of_writing (hph : x.phase = .writing) :
    ∃ i m, x.args.message.origin = some i ∧ answer m = some x.args.message.message ∧
      Received T p i c m := by
  unfold ProcOk at h
  rw [hph] at h
  obtain ⟨c', i, m, hfd', ho, ha, hr⟩ := h
  obtain rfl := File.conn.inj (Option.some.inj (hfd.symm.trans hfd'))
  exact ⟨i, m, ho, ha, hr⟩

end Phases

theorem procOk_exit (x : Proc) : ProcOk T p x.exit := trivial

/-- The process that reads is about to write the answer to what it has read,
or reads on. -/
theorem procOk_receive {x : Proc} {m : Packet} (hph : x.phase = .reading)
    (hfd : x.fds x.args.newsockfd = some (.conn c)) (ho : m.origin = some i)
    (hr : Received T p i c m.message) : ProcOk T p (x.receive m) := by
  unfold Proc.receive
  rw [overlay_whole]
  split
  · have hev : [.forked p c, .accepted c, .connected i c] <+ T :=
      (List.sublist_cons_self _ _).trans hr.child
    unfold ProcOk
    rw [hph]
    exact ⟨c, i, hfd, hev⟩
  · next reply ha => exact ⟨c, i, m.message, hfd, ho, ha, hr⟩

theorem Service.sayHello_processId (v : Service) : v.sayHello.processId = v.processType := by
  cases v <;> rfl

theorem Service.acceptSignal_eq (v : Service) : v.acceptSignal = 2 := by
  cases v <;> rfl

theorem zero_signal : zero.signal = 0 := rfl

/-- The evidence behind a call of `start`. -/
theorem Took.started {v : Service} (h : Took T p i c m r)
    (hsent : ∀ m, .sent i c m ∈ T → m = v.sayHello) (hr : r.signal = v.acceptSignal) :
    Started (.started i :: T) v i c p r := by
  have hm : m = v.sayHello := hsent m (h.asked.subset (by simp))
  subst hm
  obtain ⟨-, hid, -⟩ := answer_eq_some h.answer
  exact ⟨hid.trans v.sayHello_processId, hr, h.asked.cons_cons _, h.child.cons _⟩

/-- **Each step keeps the invariant.** -/
theorem Inv.step {s' : State} (h : Inv kind s) (hs : Step kind s s') : Inv kind s' := by
  cases hs with
  | @accept p x sockfd fd c k hp hph hsock hfd hc hk =>
    have hlog : Inv kind (s.log (.accepted c)) := h.log trivial rfl
    have hk' := hlog.conns c k hc
    have hconn := hlog.setConn hc
      (⟨hk'.opened, hk'.toServer, hk'.toClient⟩ : ConnOk _ c { k with accepted := true }) rfl
    have hev : [.accepted c, .connected k.owner c] <+ .accepted c :: s.trace :=
      (List.singleton_sublist.mpr (h.conns c k hc).opened).cons_cons _
    exact hconn.setProc ⟨c, k.owner, update_self .., hev⟩
  | @fork p q x hp hph hq =>
    have hx := h.procs p x hp
    unfold ProcOk at hx
    rw [hph] at hx
    have hp' : Inv kind (s.setProc p { x with phase := .closing }) := h.setProc trivial
    exact hp'.setProc hx
  | closeNew => exact h.setProc trivial
  | @forkChild p q x c hp hph hfd hq =>
    obtain ⟨i, hev⟩ := (h.procs p x hp).of_forkingChild hfd hph
    have hlog : Inv kind (s.log (.forked q c)) := h.log trivial rfl
    have hp' : Inv kind ((s.log (.forked q c)).setProc p { x with phase := .waiting q }) :=
      hlog.setProc trivial
    exact hp'.setProc ⟨c, i, hfd, hev.cons_cons _⟩
  | waited => exact h.setProc (procOk_exit _)
  | @read p x c k m rest hp hph hfd hc hm =>
    obtain ⟨i, hev⟩ := (h.procs p x hp).of_reading hfd hph
    -- the message in front of the queue was sent by the client this process serves
    obtain rfl : k.owner = i := h.owner_eq hc (hev.subset (by simp))
    obtain ⟨ho, hsent⟩ := (h.conns c k hc).toServer m (hm ▸ List.mem_cons_self)
    rw [overlay_whole]
    have hlog : Inv kind (s.log (.received p c m.message)) := h.log trivial rfl
    have hconn := hlog.setConn hc ((hlog.conns c k hc).popServer hm) rfl
    exact hconn.setProc (procOk_receive hph hfd ho ⟨hsent.cons_cons _, hev.cons_cons _⟩)
  | @write p x c k hp hph hfd hc =>
    obtain ⟨i, m, ho, ha, hr⟩ := (h.procs p x hp).of_writing hfd hph
    -- the answer goes back on the connection its request came from
    obtain rfl : k.owner = i := h.owner_eq hc (hr.asked.subset (by simp))
    have hlog : Inv kind (s.log (.answered p c x.args.message.message)) := h.log trivial rfl
    have hconn := hlog.setConn hc
      ((hlog.conns c k hc).pushClient ho ⟨ha, hr.asked.cons_cons _, hr.child.cons _⟩) rfl
    have hforked : [.forked p c, .accepted c, .connected k.owner c] <+ s.trace :=
      (List.sublist_cons_self _ _).trans hr.child
    exact hconn.setProc ⟨c, k.owner, hfd, hforked.cons _⟩
  | readEof => exact h.setProc (procOk_exit _)
  | die => exact h.setProc (procOk_exit _)
  | @connect i v c hi hph hc =>
    have hquiet := h.clients i
    rw [hph] at hquiet
    exact (h.openConn hc).setClient ⟨Quiet.cons (by simp [Event.subject]) hquiet,
      List.mem_cons_self⟩
  | @sayHello i v c k hi hph hc =>
    have hcl := h.clients i
    rw [hph] at hcl
    obtain ⟨hquiet, hopen⟩ := hcl
    obtain rfl : k.owner = i := h.owner_eq hc hopen
    have hlog : Inv kind (s.log (.sent k.owner c v.sayHello)) :=
      h.log (fun v' hv' => by rw [hi] at hv'; exact Option.some.inj hv' ▸ rfl) rfl
    have hsent : [.sent k.owner c v.sayHello, .connected k.owner c] <+
        .sent k.owner c v.sayHello :: s.trace := (List.singleton_sublist.mpr hopen).cons_cons _
    have hconn := hlog.setConn hc
      ((hlog.conns c k hc).pushServer (x := ⟨v.sayHello, some k.owner⟩) rfl hsent) rfl
    exact hconn.setClient ⟨hquiet.cons (by simp [Event.subject]), List.mem_cons_of_mem _ hopen⟩
  | @takeReply i v c k r rest hi hph hc hr =>
    have hcl := h.clients i
    rw [hph] at hcl
    obtain ⟨hquiet, hopen⟩ := hcl
    obtain rfl : k.owner = i := h.owner_eq hc hopen
    -- the reply in front of the queue answers this client
    obtain ⟨ho, p, m, ha⟩ := (h.conns c k hc).toClient r (hr ▸ List.mem_cons_self)
    rw [overlay_whole, ho]
    have hlog : Inv kind (s.log (.took k.owner c r.message (some k.owner))) :=
      h.log ⟨rfl, hopen⟩ rfl
    have hconn := hlog.setConn hc ((hlog.conns c k hc).popClient hr) rfl
    have hquiet' : Quiet (.took k.owner c r.message (some k.owner) :: s.trace) k.owner :=
      hquiet.cons (by simp [Event.subject])
    have htook : Took (.took k.owner c r.message (some k.owner) :: s.trace) p k.owner c m
        r.message :=
      ⟨ha.answer, ha.asked.cons_cons _, ha.child.cons _⟩
    exact hconn.setClient ⟨hquiet'.started, .inr ⟨hquiet'.sawEof, p, m, htook⟩⟩
  | @takeEof i v c k hi hph hc hr hacc hheld =>
    have hcl := h.clients i
    rw [hph] at hcl
    refine h.logClient trivial rfl ⟨fun hs => ?_, .inl rfl⟩
    rcases List.mem_cons.mp hs with hs | hs
    · cases hs
    · exact hcl.1.started hs
  | @start i v c ans hi hph hans =>
    have hcl := h.clients i
    rw [hph] at hcl
    obtain ⟨hst, rfl | ⟨heof, p, m, htook⟩⟩ := hcl
    · -- the zeroed object holds no ACCEPT
      rw [zero_signal, v.acceptSignal_eq] at hans
      exact absurd hans (by decide)
    · have hev := htook.started (fun m hm => h.sent i c m v hm hi) hans
      refine h.logClient ⟨v, c, p, ans, hi, hev⟩ rfl fun d hd => ?_
      rcases List.mem_cons.mp hd with hd | hd
      · cases hd
      · exact heof d hd
  | @close i c k hc hk =>
    have hk' := h.conns c k hc
    have hconn := h.setConn hc
      (⟨hk'.opened, hk'.toServer, hk'.toClient⟩ : ConnOk _ c { k with clientOpen := false }) rfl
    exact hconn.setClient fun hs => (h.clients i).not_both hs
  | otherConnect hi hc => exact h.openConn hc
  | @otherSend i c k m hi hc hk hopen =>
    subst hk
    have hlog : Inv kind (s.log (.sent k.owner c m)) :=
      h.log (fun v hv => by rw [hi] at hv; cases hv) rfl
    have hsent : [.sent k.owner c m, .connected k.owner c] <+ .sent k.owner c m :: s.trace :=
      (List.singleton_sublist.mpr (h.conns c k hc).opened).cons_cons _
    exact hlog.setConn hc
      ((hlog.conns c k hc).pushServer (x := ⟨m, some k.owner⟩) rfl hsent) rfl
  | @otherTake i c k r rest hi hc hk hopen hr =>
    subst hk
    have hk := h.conns c k hc
    obtain ⟨ho, -⟩ := hk.toClient r (hr ▸ List.mem_cons_self)
    have hlog : Inv kind (s.log (.took k.owner c r.message r.origin)) :=
      h.log ⟨ho, hk.opened⟩ rfl
    exact hlog.setConn hc ((hlog.conns c k hc).popClient hr) rfl

/-- Before the first `accept` nothing has happened. -/
theorem inv_init (sockfd : Fd) (args : Args) : Inv kind (init sockfd args) where
  conns c k hc := by cases hc
  procs p x hp := by
    have hp' : (if p = 0 then some _ else none) = some x := hp
    split at hp'
    · obtain rfl := Option.some.inj hp'
      trivial
    · cases hp'
  clients i := ⟨List.not_mem_nil, fun c => List.not_mem_nil⟩
  opened i c hi := absurd hi List.not_mem_nil
  sent i c m v hi := absurd hi List.not_mem_nil
  took i c r o hi := absurd hi List.not_mem_nil
  started i hi := absurd hi List.not_mem_nil

/-- **Each run keeps the invariant.** -/
theorem Reachable.inv (h : Reachable kind s) : Inv kind s := by
  obtain ⟨sockfd, args, hrun⟩ := h
  induction hrun with
  | refl => exact inv_init sockfd args
  | tail _ hstep ih => exact ih.step hstep

/-- **Safety of `start`.**  In every run, a service client enters `start` only
behind an ACCEPT of its own service that the manager's process on its own
connection wrote in answer to its INIT; a reply is taken by nobody but the
client it answers, from a connection that is its own; and a client that saw
the end of its stream in place of a reply never starts. -/
theorem reachable_start_safe (h : Reachable kind s) :
    (∀ i v, kind i = some v → .started i ∈ s.trace → ∃ c p r, Started s.trace v i c p r) ∧
    (∀ i c r o, .took i c r o ∈ s.trace →
      o = some i ∧ .connected i c ∈ s.trace ∧ ∀ j, .connected j c ∈ s.trace → j = i) ∧
    (∀ i c, .sawEof i c ∈ s.trace → .started i ∉ s.trace) := by
  have hinv := h.inv
  refine ⟨fun i v hv hs => ?_, fun i c r o ht => ?_, fun i c heof hs => ?_⟩
  · obtain ⟨v', c, p, r, hv', hev⟩ := hinv.started i hs
    obtain rfl := Option.some.inj (hv.symm.trans hv')
    exact ⟨c, p, r, hev⟩
  · obtain ⟨ho, hopen⟩ := hinv.took i c r o ht
    refine ⟨ho, hopen, fun j hj => ?_⟩
    obtain ⟨k, hk, hi⟩ := hinv.opened i c hopen
    exact (hinv.owner_eq hk hj).symm.trans hi
  · exact (hinv.clients i).not_both hs c heof

/-! ### A run in which a service starts -/

theorem Reachable.step {s' : State} (h : Reachable kind s) (hs : Step kind s s') :
    Reachable kind s' := by
  obtain ⟨sockfd, args, hrun⟩ := h
  exact ⟨sockfd, args, hrun.tail hs⟩

theorem Service.isInit_sayHello (v : Service) : v.sayHello.IsInit := by
  refine ⟨?_, ?_⟩
  · rw [WellFormed, v.sayHello_processId]
    cases v
    · exact .inl rfl
    · exact .inr rfl
  · cases v <;> rfl

theorem Proc.receive_of_isInit {x : Proc} {m : Packet} (hm : m.message.IsInit) :
    x.receive m = { x with phase := .writing,
                           args.message := ⟨m.message.setSignal 2, m.origin⟩ } := by
  rw [Proc.receive, overlay_whole, answer_of_isInit hm]

/-- Each of the two services can be let in. -/
theorem exists_started (v : Service) :
    ∃ s, Reachable (fun _ => some v) s ∧ .started 0 ∈ s.trace := by
  have h0 : Reachable (fun _ => some v) (init 3 ⟨0, 0, ⟨zero, none⟩⟩) := ⟨3, _, .refl⟩
  have h1 := h0.step (.connect (i := 0) (c := 0) rfl rfl rfl)
  have h2 := h1.step (@Step.accept _ _ 0 _ 3 4 0 _ rfl rfl rfl rfl rfl rfl)
  have h3 := h2.step (.fork (p := 0) (q := 1) rfl rfl rfl)
  have h4 := h3.step (.forkChild (p := 1) (q := 2) (c := 0) rfl rfl rfl rfl)
  have h5 := h4.step (.sayHello (i := 0) (c := 0) rfl rfl rfl)
  have h6 := h5.step (.read (p := 2) (c := 0) rfl rfl rfl rfl rfl)
  rw [Proc.receive_of_isInit v.isInit_sayHello] at h6
  have h7 := h6.step (.write (p := 2) (c := 0) rfl rfl rfl rfl)
  have h8 := h7.step (.takeReply (i := 0) (c := 0) rfl rfl rfl rfl)
  simp only [overlay_whole] at h8
  have hans : (v.sayHello.setSignal 2).signal = v.acceptSignal := by
    rw [signal_setSignal, v.acceptSignal_eq]
  have h9 := h8.step (.start (i := 0) (c := 0) rfl rfl hans)
  exact ⟨_, h9, List.mem_cons_self⟩

theorem reachable_start_safe_firewall :
    ∃ s, Reachable (fun _ => some .firewall) s ∧ .started 0 ∈ s.trace ∧
      ∃ c p r, Started s.trace .firewall 0 c p r := by
  obtain ⟨s, hs, hst⟩ := exists_started .firewall
  exact ⟨s, hs, hst, (reachable_start_safe hs).1 0 .firewall rfl hst⟩

end SecuritySystem.Protocol
