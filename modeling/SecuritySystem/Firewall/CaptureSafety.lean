/-
SecuritySystem/Firewall/CaptureSafety.lean

What a capture thread does, whatever the other threads do.

The argument of the thread is read only before `pcap_loop`.  A thread that the
handler ends behind SIGINT leaves its handle open; the handle is closed only
where `pcap_loop` has returned by itself, with an error or because it has seen
as many packets as it should.  With a positive number of packets the handler
takes up no more than these (`CaptureInv.length_le`).
-/
import SecuritySystem.Firewall.Capture

namespace SecuritySystem.Firewall

open CMem

variable {numPackets : ℤ} {g g' : Globals} {s s' : Capture} {input : CaptureInput}
variable {packet : List UInt8} {pc next : HandlerPc} {tr ls : List CaptureLabel}

/-! ### Labels -/

/-- The packets that the handler has taken up, in their order. -/
def packetsOf : List CaptureLabel → List (List UInt8) :=
  List.filterMap fun
    | .handled packet => some packet
    | _ => none

@[simp] theorem packetsOf_append (tr ls : List CaptureLabel) :
    packetsOf (tr ++ ls) = packetsOf tr ++ packetsOf ls := List.filterMap_append

theorem not_mem_handlerLabels (packet : List UInt8) (pc next : HandlerPc) :
    ∀ l ∈ handlerLabels packet pc next, l ≠ .reads ∧ l ≠ .opened ∧ l ≠ .looped ∧ l ≠ .closed := by
  unfold handlerLabels
  split <;> simp

/-! ### The argument -/

/-- `pcap_loop` has been called, or never will be. -/
def CapturePc.inLoop : CapturePc → Bool
  | .capturing | .handler _ _ | .freecode | .close | .exited | .fault _ => true
  | _ => false

/-- In its loop a thread does not read its argument, and stays there. -/
theorem inLoop_step (hs : CaptureStep numPackets g s s' g' ls) :
    (s.pc.inLoop = true → s'.pc.inLoop = true ∧ .reads ∉ ls) ∧
      (.looped ∈ ls → s'.pc.inLoop = true) := by
  have hquiet : ∀ p pc next, CaptureLabel.reads ∉ handlerLabels p pc next := fun p pc next hmem =>
    (not_mem_handlerLabels p pc next _ hmem).1 rfl
  cases hs with
  | seen =>
    rcases Capture.afterPacket_pc numPackets s with h | h <;> simp [CapturePc.inLoop, h]
  | access => simp [CapturePc.inLoop, hquiet]
  | lookupnet failed hpc | compile failed hpc | setfilter failed hpc =>
    simp [CapturePc.inLoop, hpc, Capture.behind]
  | enabled hpc | notOpened hpc | opened hpc | datalink hpc | otherLink hpc =>
    simp [CapturePc.inLoop, hpc, Capture.behind]
  | _ => simp [CapturePc.inLoop]

/-! ### The packets -/

/-- The packet at hand counts as taken up. -/
def CapturePc.taken : CapturePc → ℕ
  | .handler _ .test | .handler _ .threadExit => 0
  | .handler _ _ | .fault _ => 1
  | _ => 0

/-- No packet follows. -/
def CapturePc.ended : CapturePc → Bool
  | .freecode | .close | .exited => true
  | _ => false

theorem taken_le_one (pc : CapturePc) : pc.taken ≤ 1 := by
  cases pc with
  | handler packet pc => cases pc <;> simp [CapturePc.taken]
  | _ => simp [CapturePc.taken]

theorem taken_of_ended {pc : CapturePc} (h : pc.ended = true) : pc.taken = 0 := by
  cases pc with
  | freecode | close | exited => rfl
  | _ => cases h

/-- A packet is taken up at the test of the flag. -/
theorem taken_access (h : Accesses packet g pc g' next) :
    (packetsOf (handlerLabels packet pc next)).length + (CapturePc.handler packet pc).taken =
      (CapturePc.handler packet next).taken := by
  cases h <;> rfl

/-- No step loses a packet, and only a fault makes one up. -/
theorem taken_step (hs : CaptureStep numPackets g s s' g' ls) :
    (packetsOf ls).length + (s.handled + s.pc.taken) ≤ s'.handled + s'.pc.taken ∧
      ((∀ e, s'.pc ≠ .fault e) →
        (packetsOf ls).length + (s.handled + s.pc.taken) = s'.handled + s'.pc.taken) := by
  cases hs with
  | access hpc haccess =>
    have h := taken_access haccess
    rw [hpc]
    dsimp only
    omega
  | seen hpc =>
    have hnone : (s.afterPacket numPackets).pc.taken = 0 := by
      rcases Capture.afterPacket_pc numPackets s with h | h <;> rw [h] <;> rfl
    rw [hnone, hpc]
    show 0 + (s.handled + 1) ≤ s.handled + 1 + 0 ∧ (_ → 0 + (s.handled + 1) = s.handled + 1 + 0)
    omega
  | faulted hpc =>
    have hle := taken_le_one s.pc
    refine ⟨?_, fun hno => absurd rfl (hno _)⟩
    show 0 + (s.handled + s.pc.taken) ≤ s.handled + 1
    omega
  | noHandle hpc =>
    refine ⟨?_, fun hno => absurd rfl (hno _)⟩
    simp [hpc, CapturePc.taken, packetsOf]
  | exits hpc | enabled hpc | notEnabled hpc | notOpened hpc | opened hpc | datalink hpc
  | otherLink hpc | disabled hpc | notDisabled hpc | broken hpc | freecode hpc
  | closed hpc => simp [hpc, CapturePc.taken, packetsOf, Capture.behind]
  | lookupnet failed hpc | compile failed hpc | setfilter failed hpc | packet bytes hpc =>
    simp [hpc, CapturePc.taken, packetsOf, Capture.behind]
  | cancelled hpc =>
    cases h : s.pc with
    | openLive | datalink | compile | setfilter | disable => simp [CapturePc.taken, packetsOf]
    | _ =>
      rw [h] at hpc
      cases hpc

/-- What the thread may still take up. -/
def Capture.Within (numPackets : ℤ) (s : Capture) : Prop :=
  (s.handled : ℤ) + s.pc.taken ≤ numPackets ∧
    (s.pc.ended = false → (s.handled : ℤ) + 1 ≤ numPackets)

theorem within_step (hs : CaptureStep numPackets g s s' g' ls) (h : s.Within numPackets) :
    s'.Within numPackets := by
  have hsame : s'.handled = s.handled → (s.pc.ended = true → s'.pc.ended = true) →
      s'.Within numPackets := by
    intro hhandled hended
    have hle := taken_le_one s'.pc
    cases he : s.pc.ended with
    | true =>
      have hzero := taken_of_ended (hended he)
      have hbefore := h.1
      refine ⟨by omega, fun hno => ?_⟩
      rw [hended he] at hno
      cases hno
    | false =>
      have hbefore := h.2 he
      exact ⟨by omega, fun _ => by omega⟩
  cases hs with
  | seen hpc =>
    have hbefore := h.2 (by rw [hpc]; rfl)
    by_cases hlast : numPackets = s.handled + 1
    · simp only [Capture.Within, Capture.afterPacket, if_pos hlast, CapturePc.taken,
        CapturePc.ended]
      exact ⟨by omega, fun hno => by cases hno⟩
    · simp only [Capture.Within, Capture.afterPacket, if_neg hlast, CapturePc.taken]
      exact ⟨by omega, fun _ => by omega⟩
  | freecode hpc | closed hpc => exact hsame rfl fun _ => rfl
  | exits hpc | enabled hpc | notEnabled hpc | notOpened hpc | opened hpc | noHandle hpc
  | datalink hpc | otherLink hpc | disabled hpc | notDisabled hpc | broken hpc | faulted hpc
  | access hpc => exact hsame rfl (by simp [hpc, CapturePc.ended])
  | lookupnet failed hpc | compile failed hpc | setfilter failed hpc | packet bytes hpc =>
    exact hsame rfl (by simp [hpc, CapturePc.ended])
  | cancelled hpc => exact hsame rfl fun _ => rfl

/-! ### The end -/

/-- `pcap_loop` has returned. -/
def CapturePc.doneLoop : CapturePc → Bool
  | .freecode | .close => true
  | _ => false

/-- The handler has ended the thread, or will at once. -/
def CapturePc.leaving : CapturePc → Bool
  | .handler _ .threadExit | .exited => true
  | _ => false

/-- **What a thread has done.** -/
structure CaptureInv (numPackets : ℤ) (tr : List CaptureLabel) (s : Capture) : Prop where
  looped : .looped ∈ tr → s.pc.inLoop = true
  taken : (packetsOf tr).length ≤ s.handled + s.pc.taken
  exact : (∀ e, s.pc ≠ .fault e) → (packetsOf tr).length = s.handled + s.pc.taken
  within : 0 < numPackets → s.Within numPackets
  /-- a thread that the handler ends does not close its handle -/
  dropped : ∀ p, .dropped p ∈ tr → s.pc.leaving = true ∧ .closed ∉ tr
  closed : .closed ∈ tr → s.pc = .exited
  /-- `pcap_loop` returns with an error, or with the last packet -/
  finished : s.pc.doneLoop = true ∨ .closed ∈ tr →
    .broken ∈ tr ∨ ((packetsOf tr).length : ℤ) = numPackets
  /-- behind the call of `pcap_loop` the argument is not read -/
  order : tr.Pairwise fun a b => a = .looped → b ≠ .reads

theorem captureInv_start (numPackets : ℤ) : CaptureInv numPackets [] .start where
  looped h := absurd h List.not_mem_nil
  taken := Nat.le_refl 0
  exact _ := rfl
  within h := ⟨h.le, fun _ => h⟩
  dropped _ h := absurd h List.not_mem_nil
  closed h := absurd h List.not_mem_nil
  finished h := h.elim (fun h => by cases h) (fun h => absurd h List.not_mem_nil)
  order := List.Pairwise.nil

/-- How the last step of a thread may look. -/
theorem leaving_step (hs : CaptureStep numPackets g s s' g' ls) :
    (s.pc.leaving = true → s'.pc = .exited ∧ ls = [] ∧ s.pc ≠ .exited) ∧
      (∀ p, .dropped p ∈ ls → s'.pc.leaving = true ∧ .closed ∉ ls) ∧
        (.closed ∈ ls → s'.pc = .exited ∧ ls = [.closed]) := by
  cases hs with
  | @access packet pc next g' hpc haccess =>
    refine ⟨?_, fun p hmem => ⟨?_, fun hclosed => ?_⟩, fun hmem => ?_⟩
    · rw [hpc]
      cases haccess <;> simp [CapturePc.leaving]
    · cases haccess <;> simp [handlerLabels, CapturePc.leaving] at hmem ⊢
    · exact (not_mem_handlerLabels packet pc next _ hclosed).2.2.2 rfl
    · exact absurd rfl (not_mem_handlerLabels packet pc next _ hmem).2.2.2
  | seen hpc | exits hpc | enabled hpc | notEnabled hpc | notOpened hpc | opened hpc
  | noHandle hpc | datalink hpc | otherLink hpc | disabled hpc | notDisabled hpc | broken hpc
  | freecode hpc | closed hpc => simp [hpc, CapturePc.leaving]
  | lookupnet failed hpc | compile failed hpc | setfilter failed hpc | packet bytes hpc =>
    simp [hpc, CapturePc.leaving]
  | faulted hpc hstep =>
    rename_i packet pc e
    cases pc with
    | threadExit => cases hstep
    | _ => simp [hpc, CapturePc.leaving]
  | cancelled hpc =>
    cases h : s.pc with
    | openLive | datalink | compile | setfilter | disable => simp [CapturePc.leaving]
    | _ =>
      rw [h] at hpc
      cases hpc

/-- How `pcap_loop` returns: the last step takes up no packet. -/
theorem doneLoop_step (hs : CaptureStep numPackets g s s' g' ls)
    (h : s'.pc.doneLoop = true ∨ .closed ∈ ls) :
    .broken ∈ ls ∨ packetsOf ls = [] ∧
      (s.pc.doneLoop = true ∨
        ∃ packet, s.pc = .handler packet .returned ∧ numPackets = s.handled + 1) := by
  cases hs with
  | broken => exact .inl List.mem_cons_self
  | seen hpc =>
    simp only [Capture.afterPacket] at h
    split at h
    · next hlast => exact .inr ⟨rfl, .inr ⟨_, hpc, hlast⟩⟩
    · rcases h with h | h <;> cases h
  | freecode hpc | closed hpc =>
    rw [hpc]
    exact .inr ⟨rfl, .inl rfl⟩
  | access =>
    rcases h with h | h
    · cases h
    · exact absurd rfl (not_mem_handlerLabels _ _ _ _ h).2.2.2
  | _ => simp [CapturePc.doneLoop, Capture.behind] at h

/-- A fault is the end of a thread. -/
theorem not_fault_of_step (hs : CaptureStep numPackets g s s' g' ls) (e : Fault) :
    s.pc ≠ .fault e := by
  cases hs with
  | cancelled hpc =>
    intro h
    rw [h] at hpc
    cases hpc
  | exits hpc | enabled hpc | notEnabled hpc | notOpened hpc | opened hpc | noHandle hpc
  | datalink hpc | otherLink hpc | disabled hpc | notDisabled hpc | broken hpc | freecode hpc
  | closed hpc | access hpc | faulted hpc | seen hpc => simp [hpc]
  | lookupnet failed hpc | compile failed hpc | setfilter failed hpc | packet bytes hpc =>
    simp [hpc]

/-- A step reads the argument before all else. -/
theorem order_step (hs : CaptureStep numPackets g s s' g' ls) :
    ls.Pairwise fun a b => a = .looped → b ≠ .reads := by
  cases hs with
  | access =>
    refine List.Pairwise.imp_of_mem (R := fun _ _ => True) (fun _ hb _ _ => ?_)
      (List.pairwise_of_forall fun _ _ => trivial)
    exact (not_mem_handlerLabels _ _ _ _ hb).1
  | _ => simp

theorem CaptureInv.step (h : CaptureInv numPackets tr s)
    (hs : CaptureStep numPackets g s s' g' ls) : CaptureInv numPackets (tr ++ ls) s' where
  looped hmem := by
    rcases List.mem_append.mp hmem with hmem | hmem
    · exact ((inLoop_step hs).1 (h.looped hmem)).1
    · exact (inLoop_step hs).2 hmem
  taken := by
    have hbefore := h.taken
    have hstep := (taken_step hs).1
    rw [packetsOf_append, List.length_append]
    omega
  exact hno := by
    have hbefore := h.exact (not_fault_of_step hs)
    have hstep := (taken_step hs).2 hno
    rw [packetsOf_append, List.length_append]
    omega
  within hpos := within_step hs (h.within hpos)
  dropped p hmem := by
    obtain ⟨hleaving, hdropped, hclosed⟩ := leaving_step hs
    rcases List.mem_append.mp hmem with hmem | hmem
    · obtain ⟨hpc, hnot⟩ := h.dropped p hmem
      obtain ⟨hpc', rfl, -⟩ := hleaving hpc
      rw [List.append_nil, hpc']
      exact ⟨rfl, hnot⟩
    · obtain ⟨hpc', hnot⟩ := hdropped p hmem
      refine ⟨hpc', fun hmem' => (List.mem_append.mp hmem').elim (fun hmem' => ?_) hnot⟩
      have hpc := h.closed hmem'
      exact (hleaving (by rw [hpc]; rfl)).2.2 hpc
  closed hmem := by
    obtain ⟨hleaving, -, hclosed⟩ := leaving_step hs
    rcases List.mem_append.mp hmem with hmem | hmem
    · have hpc := h.closed hmem
      exact absurd hpc (hleaving (by rw [hpc]; rfl)).2.2
    · exact (hclosed hmem).1
  finished hended := by
    have hgone : .closed ∉ tr := by
      intro hmem
      have hpc := h.closed hmem
      exact ((leaving_step hs).1 (by rw [hpc]; rfl)).2.2 hpc
    have hlast : s'.pc.doneLoop = true ∨ .closed ∈ ls :=
      hended.imp_right fun hmem => (List.mem_append.mp hmem).resolve_left hgone
    rcases doneLoop_step hs hlast with hbroken | ⟨hnone, hreturned⟩
    · exact .inl (List.mem_append_right tr hbroken)
    rw [packetsOf_append, hnone, List.append_nil]
    rcases hreturned with hpc | ⟨packet, hpc, hcount⟩
    · exact (h.finished (.inl hpc)).imp_left (List.mem_append_left ls)
    · -- the packet at hand is the last one
      have hbefore := h.exact (not_fault_of_step hs)
      rw [hpc] at hbefore
      have htaken : (CapturePc.handler packet .returned).taken = 1 := rfl
      exact .inr (by omega)
  order := by
    refine List.pairwise_append.mpr ⟨h.order, order_step hs, fun a ha b hb hlooped => ?_⟩
    rintro rfl
    exact ((inLoop_step hs).1 (h.looped (hlooped ▸ ha))).2 hb

/-- With a positive number of packets the handler takes up no more. -/
theorem CaptureInv.length_le (h : CaptureInv numPackets tr s) (hpos : 0 < numPackets) :
    ((packetsOf tr).length : ℤ) ≤ numPackets := by
  have htaken := h.taken
  have hwithin := (h.within hpos).1
  omega

end SecuritySystem.Firewall
