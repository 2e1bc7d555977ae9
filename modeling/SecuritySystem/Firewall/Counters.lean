/-
SecuritySystem/Firewall/Counters.lean

The two counters of the firewall service, in any run.

`count` should be the number of packets that the handler has taken up, and
`untrusted_counter` that of the packets among them that pass its test.
The threads share both, and nobody locks the mutex that `start` has made for
them.  Each counter is a `SharedCounter`, which a step of a thread loads or
stores (`cell_cases`), so it never runs ahead of the packets
(`counts_bounded`).
-/
import SecuritySystem.Lib.SharedCounter
import SecuritySystem.Firewall.ServiceSafety

namespace SecuritySystem.Firewall

open CMem CString SharedCounter

variable {env : ServiceEnv} {setup : Setup} {s₀ s s' : Service} {input : ServiceInput}
variable {inputs : List ServiceInput} {tr out : List ServiceLabel} {i : ℕ}
variable {numPackets : ℤ} {g g' : Globals} {t t' : Capture}
variable {packet : List UInt8} {pc next : HandlerPc} {ls : List CaptureLabel}

/-! ### The counters -/

/-- One of the counters: its value, what a handler has loaded, and the label of
a store. -/
structure Counter where
  value : Globals → BitVec 32
  loaded : HandlerPc → Option (BitVec 32)
  label : CaptureLabel

/-- `count` -/
def packetCounter : Counter where
  value := Globals.count
  loaded
    | .storeCount c => some c
    | _ => none
  label := .counted

/-- `untrusted_counter` -/
def sourceCounter : Counter where
  value := Globals.untrustedCounter
  loaded
    | .storeCounter u => some u
    | _ => none
  label := .matched

/-- What a thread has loaded. -/
def Capture.loaded (c : Counter) (t : Capture) : Option (BitVec 32) :=
  match t.pc with
  | .handler _ pc => c.loaded pc
  | _ => none

/-- The counter with what all threads have loaded. -/
def Service.cell (c : Counter) (s : Service) : Cell 32 ℕ :=
  ⟨c.value s.globals, fun i => s.captures[i]?.bind (Capture.loaded c)⟩

/-- What a step of a thread does to a counter. -/
inductive Touches (c : Counter) (t : Capture) (g : Globals) (t' : Capture) (g' : Globals)
    (ls : List CaptureLabel) : Prop
  | keeps : c.value g' = c.value g → (∀ v, t'.loaded c = some v → t.loaded c = some v) →
    ls.count c.label = 0 → Touches c t g t' g' ls
  | loads : c.value g' = c.value g → t'.loaded c = some (c.value g) → ls.count c.label = 0 →
    Touches c t g t' g' ls
  | stores (v : BitVec 32) : t.loaded c = some v → t'.loaded c = none → c.value g' = v + 1 →
    ls.count c.label = 1 → Touches c t g t' g' ls

/-- What an access of the handler does to it. -/
theorem touches_access {c : Counter} (hc : c = packetCounter ∨ c = sourceCounter)
    (hpc : t.pc = .handler packet pc) (h : Accesses packet g pc g' next) :
    Touches c t g { t with pc := .handler packet next } g' (handlerLabels packet pc next) := by
  have hbefore : t.loaded c = c.loaded pc := by rw [Capture.loaded, hpc]
  rcases hc with rfl | rfl
  · cases h with
    | loadCount => exact .loads rfl rfl rfl
    | storeCount v | badHeader v => exact .stores v hbefore rfl rfl rfl
    | _ => exact .keeps rfl (fun _ h => by cases h) rfl
  · cases h with
    | loadCounter => exact .loads rfl rfl rfl
    | storeCounter v => exact .stores v hbefore rfl rfl rfl
    | _ => exact .keeps rfl (fun _ h => by cases h) rfl

/-- A step outside the handler touches no counter. -/
theorem touches_step {c : Counter} (hc : c = packetCounter ∨ c = sourceCounter)
    (hs : CaptureStep numPackets g t t' g' ls) : Touches c t g t' g' ls := by
  cases hs with
  | access hpc haccess => exact touches_access hc hpc haccess
  | seen =>
    refine .keeps rfl (fun v hv => ?_) (by rfl)
    rcases Capture.afterPacket_pc numPackets t with hafter | hafter <;>
      simp [Capture.loaded, hafter] at hv
  | packet =>
    rcases hc with rfl | rfl
    · exact .keeps rfl (fun _ h => by cases h) rfl
    · exact .keeps rfl (fun _ h => by cases h) rfl
  | _ =>
    rcases hc with rfl | rfl
    · exact .keeps rfl (fun _ h => by cases h) rfl
    · exact .keeps rfl (fun _ h => by cases h) rfl

/-! ### The counters of the service -/

theorem loaded_set {c : Counter} (ht : s.captures[i]? = some t) (j : ℕ) :
    (s.captures.set i t')[j]?.bind (Capture.loaded c) =
      if j = i then t'.loaded c else (s.cell c).loaded j := by
  split
  · next hj =>
    rw [hj, List.getElem?_set_self (List.getElem?_eq_some_iff.mp ht).1]
    rfl
  · next hj =>
    rw [List.getElem?_set_ne (Ne.symm hj)]
    rfl

/-- A step of a thread is a load or a store of the cell, or forgets. -/
theorem cell_step {c : Counter} (ht : s.captures[i]? = some t)
    (h : Touches c t s.globals t' g' ls) :
    let s' : Service := { s with
      captures := s.captures.set i t'
      globals := g' }
    ((s'.cell c).value = (s.cell c).value ∧
        (∀ j v, (s'.cell c).loaded j = some v → (s.cell c).loaded j = some v) ∧
          ls.count c.label = 0) ∨
      (s'.cell c = (s.cell c).load i ∧ ls.count c.label = 0) ∨
        ∃ v, (s.cell c).loaded i = some v ∧ s'.cell c = (s.cell c).store i v ∧
          ls.count c.label = 1 := by
  have hbefore : (s.cell c).loaded i = t.loaded c := by
    show s.captures[i]?.bind (Capture.loaded c) = _
    rw [ht]
    rfl
  have hafter : ∀ f : ℕ → Option (BitVec 32), f i = t'.loaded c →
      (∀ j, j ≠ i → f j = (s.cell c).loaded j) →
        (fun j => (s.captures.set i t')[j]?.bind (Capture.loaded c)) = f := by
    intro f hi hne
    funext j
    rw [loaded_set ht]
    split
    · next hj => rw [hj, hi]
    · next hj => rw [hne j hj]
  cases h with
  | keeps hvalue hloaded hcount =>
    refine .inl ⟨hvalue, fun j v hv => ?_, hcount⟩
    have hv : (s.captures.set i t')[j]?.bind (Capture.loaded c) = some v := hv
    rw [loaded_set ht] at hv
    split at hv
    · next hj => rw [hj, hbefore, hloaded v hv]
    · exact hv
  | loads hvalue hloaded hcount =>
    refine .inr (.inl ⟨?_, hcount⟩)
    have hf := hafter ((s.cell c).load i).loaded (by rw [Cell.load_self, hloaded]; rfl)
      fun j hj => Cell.load_of_ne _ hj
    simp only [Service.cell, hf, hvalue]
    rfl
  | stores v hv hnone hvalue hcount =>
    refine .inr (.inr ⟨v, hbefore.trans hv, ?_, hcount⟩)
    have hf := hafter ((s.cell c).store i v).loaded (by rw [Cell.store_self, hnone])
      fun j hj => Cell.store_of_ne _ v hj
    simp only [Service.cell, hf, hvalue]
    rfl

/-- A new thread has loaded nothing. -/
theorem loaded_append_start (c : Counter) (captures : List Capture) (j : ℕ) (v : BitVec 32)
    (h : (captures ++ [Capture.start])[j]?.bind (Capture.loaded c) = some v) :
    captures[j]?.bind (Capture.loaded c) = some v := by
  rcases Nat.lt_or_ge j captures.length with hlt | hge
  · rwa [List.getElem?_append_left hlt] at h
  · rw [List.getElem?_append_right hge] at h
    obtain ⟨t, ht, hv⟩ := Option.bind_eq_some_iff.mp h
    obtain rfl := List.mem_singleton.mp (List.mem_of_getElem? ht)
    cases hv

/-- A step of the service touches a counter only as a thread does. -/
theorem cell_cases {c : Counter} (hc : c = packetCounter ∨ c = sourceCounter)
    (hs : ServiceStep env setup s input s' out) :
    ((s'.cell c).value = (s.cell c).value ∧
        (∀ j v, (s'.cell c).loaded j = some v → (s.cell c).loaded j = some v) ∧
          (captureTrace out).count c.label = 0) ∨
      (∃ i, s'.cell c = (s.cell c).load i ∧ (captureTrace out).count c.label = 0) ∨
        ∃ i v, (s.cell c).loaded i = some v ∧ s'.cell c = (s.cell c).store i v ∧
          (captureTrace out).count c.label = 1 := by
  have hmain : ∀ ls : List ForkJoin.Label, (captureTrace (ls.map .main)).count c.label = 0 := by
    intro ls
    rw [(traces_main ls).2.2]
    rfl
  cases hs with
  | created => exact .inl ⟨rfl, loaded_append_start c s.captures, rfl⟩
  | freed => exact .inl ⟨rfl, fun _ _ h => h, rfl⟩
  | @main input m ls => exact .inl ⟨rfl, fun _ _ h => h, hmain ls⟩
  | ignored => exact .inl ⟨rfl, fun _ _ h => h, rfl⟩
  | signal =>
    refine .inl ⟨?_, fun _ _ h => h, rfl⟩
    rcases hc with rfl | rfl <;> rfl
  | @thread i input t t' g' ls hw ht hstep =>
    rw [(traces_thread i s.main.freed ls).2.2]
    rcases cell_step ht (touches_step hc hstep) with h | ⟨hcell, hcount⟩ | ⟨v, hv, hcell, hcount⟩
    · exact .inl h
    · exact .inr (.inl ⟨i, hcell, hcount⟩)
    · exact .inr (.inr ⟨i, v, hv, hcell, hcount⟩)
  | ends => exact .inl ⟨rfl, fun _ _ h => h, rfl⟩

/-- **The counters of any run** are no further than their stores. -/
theorem bounded_run {c : Counter} (hc : c = packetCounter ∨ c = sourceCounter) {w : World}
    (h : (Service.begin env setup w).run env setup inputs = some (s, tr)) :
    Bounded ((captureTrace tr).count c.label) (s.cell c) := by
  have hstart : Bounded ((captureTrace []).count c.label) ((Service.begin env setup w).cell c) := by
    apply bounded_zero
    · intro i
      rfl
    · rcases hc with rfl | rfl <;> rfl
  have hrun := Machine.run_invariant
    (P := fun tr (s : Service) => Bounded ((captureTrace tr).count c.label) (s.cell c))
    (fun {tr s input s' out} hp hs => ?_) hstart h
  · exact hrun
  rw [captureTrace_append, List.count_append]
  rcases cell_cases hc (serviceStep_cases hs).2 with ⟨hvalue, hloaded, hcount⟩ |
    ⟨i, hcell, hcount⟩ | ⟨i, v, hv, hcell, hcount⟩
  · rw [hcount]
    exact hp.keep hvalue hloaded
  · rw [hcount, hcell]
    exact hp.load i
  · rw [hcount, hcell]
    exact hp.store hv

/-! ### The packets at hand -/

/-- The thread has taken up a packet that `count` does not count yet. -/
def Capture.toCount (t : Capture) : ℕ :=
  match t.pc with
  | .handler _ .clear | .handler _ .loadCount | .handler _ (.storeCount _) => 1
  | _ => 0

/-- It has one that `untrusted_counter` should count, and does not yet, if all
and only the packets with `q` are to be counted. -/
def Capture.toMatch (q : List UInt8 → Bool) (t : Capture) : ℕ :=
  match t.pc with
  | .handler p .clear | .handler p .loadCount | .handler p (.storeCount _)
  | .handler p .storeSource | .handler p .testSource => if q p then 1 else 0
  | .handler _ .loadCounter | .handler _ (.storeCounter _) => 1
  | _ => 0

/-- Behind the check of the header. -/
def Capture.Headed (t : Capture) : Prop :=
  ∀ p, t.pc = .handler p .storeSource ∨ t.pc = .handler p .testSource → 20 ≤ sizeIp p

theorem headed_step (hs : CaptureStep numPackets g t t' g' ls) (h : t.Headed) : t'.Headed := by
  intro p hp
  cases hs with
  | access hpc haccess =>
    cases haccess with
    | storeCount v hsize =>
      rcases hp with hp | hp <;> cases hp
      exact hsize
    | storeSource =>
      rcases hp with hp | hp <;> cases hp
      exact h _ (.inl hpc)
    | _ => rcases hp with hp | hp <;> cases hp
  | seen =>
    rcases Capture.afterPacket_pc numPackets t with hafter | hafter <;> simp [hafter] at hp
  | _ => rcases hp with hp | hp <;> cases hp

theorem toCount_step (hs : CaptureStep numPackets g t t' g' ls) :
    ls.count .counted + t'.toCount ≤ (packetsOf ls).length + t.toCount ∧
      (t'.pc.isFault = false →
        ls.count .counted + t'.toCount = (packetsOf ls).length + t.toCount) := by
  cases hs with
  | access hpc haccess => cases haccess <;> simp [Capture.toCount, hpc, handlerLabels, packetsOf]
  | faulted hpc => simp [Capture.toCount, packetsOf, CapturePc.isFault]
  | seen hpc =>
    rcases Capture.afterPacket_pc numPackets t with hafter | hafter <;>
      simp [Capture.toCount, hpc, hafter, packetsOf]
  | exits hpc | enabled hpc | notEnabled hpc | notOpened hpc | opened hpc | noHandle hpc
  | datalink hpc | otherLink hpc | disabled hpc | notDisabled hpc | broken hpc | freecode hpc
  | closed hpc => simp [Capture.toCount, hpc, packetsOf, Capture.behind]
  | lookupnet failed hpc | compile failed hpc | setfilter failed hpc | packet bytes hpc =>
    simp [Capture.toCount, hpc, packetsOf, Capture.behind]
  | cancelled hpc =>
    cases h : t.pc with
    | openLive | datalink | compile | setfilter | disable => simp [Capture.toCount, h, packetsOf]
    | _ =>
      rw [h] at hpc
      cases hpc

/-- The test of the source decides for a packet what `q` says of it. -/
theorem toMatch_step (q : List UInt8 → Bool) (hq : ∀ p, q p = true → 20 ≤ sizeIp p)
    (hs : CaptureStep numPackets g t t' g' ls)
    (hin : ∀ p, t.pc = .handler p .testSource → g.ipBits &&& g.netmask = g.netBits → q p = true) :
    ls.count .matched + t'.toMatch q ≤ (packetsOf ls).countP q + t.toMatch q ∧
      (t'.pc.isFault = false →
        (∀ p, t.pc = .handler p .testSource → q p = true → g.ipBits &&& g.netmask = g.netBits) →
        ls.count .matched + t'.toMatch q = (packetsOf ls).countP q + t.toMatch q) := by
  cases hs with
  | @access packet pc next g' hpc haccess =>
    cases haccess with
    | badHeader v hsize =>
      have hno : q packet = false := by
        by_contra hyes
        exact absurd (hq packet (Bool.not_eq_false _ ▸ hyes)) (Nat.not_le.mpr hsize)
      simp [Capture.toMatch, hpc, handlerLabels, packetsOf, hno]
    | inside htest =>
      have hyes := hin packet hpc htest
      simp [Capture.toMatch, hpc, handlerLabels, packetsOf, hyes]
    | outside htest =>
      simp only [Capture.toMatch, hpc, handlerLabels, packetsOf]
      refine ⟨Nat.zero_le _, fun _ hall => ?_⟩
      have hno : q packet = false := by
        by_contra hyes
        exact htest (hall packet rfl (Bool.not_eq_false _ ▸ hyes))
      simp [hno]
    | _ => simp [Capture.toMatch, hpc, handlerLabels, packetsOf, List.countP_cons]
  | faulted hpc => simp [Capture.toMatch, packetsOf, CapturePc.isFault]
  | seen hpc =>
    rcases Capture.afterPacket_pc numPackets t with hafter | hafter <;>
      simp [Capture.toMatch, hpc, hafter, packetsOf]
  | exits hpc | enabled hpc | notEnabled hpc | notOpened hpc | opened hpc | noHandle hpc
  | datalink hpc | otherLink hpc | disabled hpc | notDisabled hpc | broken hpc | freecode hpc
  | closed hpc => simp [Capture.toMatch, hpc, packetsOf, Capture.behind]
  | lookupnet failed hpc | compile failed hpc | setfilter failed hpc | packet bytes hpc =>
    simp [Capture.toMatch, hpc, packetsOf, Capture.behind]
  | cancelled hpc =>
    cases h : t.pc with
    | openLive | datalink | compile | setfilter | disable => simp [Capture.toMatch, h, packetsOf]
    | _ =>
      rw [h] at hpc
      cases hpc

/-! ### Sums over the threads -/

/-- A sum over the threads. -/
def Service.total (f : Capture → ℕ) (s : Service) : ℕ := (s.captures.map f).sum

theorem sum_map_set (f : Capture → ℕ) {l : List Capture} (h : l[i]? = some t) (t' : Capture) :
    ((l.set i t').map f).sum + f t = (l.map f).sum + f t' := by
  induction l generalizing i with
  | nil => cases h
  | cons u l ih =>
    cases i with
    | zero =>
      obtain rfl := Option.some.inj h
      simp only [List.set_cons_zero, List.map_cons, List.sum_cons]
      omega
    | succ i =>
      have hrest := ih (i := i) h
      simp only [List.set_cons_succ, List.map_cons, List.sum_cons]
      omega

theorem total_eq_zero {f : Capture → ℕ} (h : ∀ t ∈ s.captures, f t = 0) : s.total f = 0 :=
  List.sum_eq_zero (List.forall_mem_map.mpr h)

theorem isFault_of_alive (h : s.dead = false) (ht : t ∈ s.captures) : t.pc.isFault = false := by
  unfold Service.dead at h
  exact Bool.eq_false_iff.mpr fun hfault =>
    (List.any_eq_false.mp (Bool.or_eq_false_iff.mp h).2) t ht hfault

/-- A step changes a sum only as a step of one thread does. -/
theorem total_cases {f : Capture → ℕ} (hf : f .start = 0)
    (hs : ServiceStep env setup s input s' out) :
    (s'.total f = s.total f ∧ captureTrace out = []) ∨
      ∃ (i : ℕ) (t t' : Capture) (g' : Globals), s.captures[i]? = some t ∧ t' ∈ s'.captures ∧
        CaptureStep setup.numPackets s.globals t t' g' (captureTrace out) ∧
          s'.total f + f t = s.total f + f t' := by
  cases hs with
  | created =>
    refine .inl ⟨?_, rfl⟩
    simp only [Service.total, List.map_append, List.sum_append, List.map_cons, List.map_nil,
      List.sum_cons, List.sum_nil, hf]
    rfl
  | main => exact .inl ⟨rfl, (traces_main _).2.2⟩
  | freed | ignored | signal | ends => exact .inl ⟨rfl, rfl⟩
  | @thread i input t t' g' ls hw ht hstep =>
    refine .inr ⟨i, t, t', g', ht, ?_, ?_, sum_map_set f ht t'⟩
    · exact List.mem_set (List.getElem?_eq_some_iff.mp ht).1 t'
    · rw [(traces_thread i s.main.freed ls).2.2]
      exact hstep

/-! ### Any run -/

/-- The packets that the handlers have taken up. -/
def packetsTaken (tr : List ServiceLabel) : List (List UInt8) := packetsOf (captureTrace tr)

/-- The header is valid. -/
def hasHeader (packet : List UInt8) : Bool := 20 ≤ sizeIp packet

/-- What is known of the numbers of stores in any run. -/
structure Stores (tr : List ServiceLabel) (s : Service) : Prop where
  count : (captureTrace tr).count .counted + s.total Capture.toCount ≤ (packetsTaken tr).length
  exact : s.dead = false →
    (captureTrace tr).count .counted + s.total Capture.toCount = (packetsTaken tr).length
  headed : ∀ t ∈ s.captures, t.Headed
  sources : (captureTrace tr).count .matched + s.total (Capture.toMatch hasHeader) ≤
    (packetsTaken tr).countP hasHeader

theorem headed_captures (hs : ServiceStep env setup s input s' out)
    (h : ∀ t ∈ s.captures, t.Headed) : ∀ t ∈ s'.captures, t.Headed := by
  cases hs with
  | created =>
    intro t ht
    rcases List.mem_append.mp ht with ht | ht
    · exact h t ht
    · obtain rfl := List.mem_singleton.mp ht
      rintro p (hp | hp) <;> cases hp
  | @thread i input t t' g' ls hw ht hstep =>
    intro u hu
    rcases List.mem_or_eq_of_mem_set hu with hu | rfl
    · exact h u hu
    · exact headed_step hstep (h t (List.mem_of_getElem? ht))
  | freed | main | ignored | signal | ends => exact h

theorem Stores.step (halive : s.dead = false) (h : Stores tr s)
    (hs : ServiceStep env setup s input s' out) : Stores (tr ++ out) s' := by
  have hbefore := h.exact halive
  have hsources := h.sources
  have hheaded := headed_captures hs h.headed
  have hcount : (packetsTaken (tr ++ out)).length =
      (packetsTaken tr).length + (packetsOf (captureTrace out)).length := by
    rw [packetsTaken, captureTrace_append, packetsOf_append, List.length_append]
    rfl
  have hheader : (packetsTaken (tr ++ out)).countP hasHeader =
      (packetsTaken tr).countP hasHeader + (packetsOf (captureTrace out)).countP hasHeader := by
    rw [packetsTaken, captureTrace_append, packetsOf_append, List.countP_append]
    rfl
  refine ⟨?_, fun halive' => ?_, hheaded, ?_⟩
  all_goals rw [captureTrace_append, List.count_append]
  · rcases total_cases (f := Capture.toCount) rfl hs with ⟨htotal, hnil⟩ |
      ⟨i, t, t', g', -, -, hstep, hsum⟩
    · rw [hnil] at hcount ⊢
      simp only [packetsOf, List.filterMap_nil, List.length_nil, List.count_nil] at hcount ⊢
      omega
    · have hle := (toCount_step hstep).1
      omega
  · rcases total_cases (f := Capture.toCount) rfl hs with ⟨htotal, hnil⟩ |
      ⟨i, t, t', g', -, hmem, hstep, hsum⟩
    · rw [hnil] at hcount ⊢
      simp only [packetsOf, List.filterMap_nil, List.length_nil, List.count_nil] at hcount ⊢
      omega
    · have heq := (toCount_step hstep).2 (isFault_of_alive halive' hmem)
      omega
  · rcases total_cases (f := Capture.toMatch hasHeader) rfl hs with ⟨htotal, hnil⟩ |
      ⟨i, t, t', g', ht, -, hstep, hsum⟩
    · rw [hnil] at hheader ⊢
      simp only [packetsOf, List.filterMap_nil, List.countP_nil, List.count_nil] at hheader ⊢
      omega
    · have hle := (toMatch_step hasHeader (fun p hp => of_decide_eq_true hp) hstep
        fun p hpc _ => decide_eq_true (h.headed t (List.mem_of_getElem? ht) p (.inr hpc))).1
      omega

theorem Stores.run {w : World}
    (h : (Service.begin env setup w).run env setup inputs = some (s, tr)) : Stores tr s := by
  have hstart : Stores [] (Service.begin env setup w) :=
    ⟨Nat.le_refl 0, fun _ => rfl, fun t ht => absurd ht List.not_mem_nil, Nat.le_refl 0⟩
  have hrun : Stores ([] ++ tr) s := Machine.run_invariant
    (fun hp hs => hp.step (serviceStep_cases hs).1 (serviceStep_cases hs).2) hstart h
  exact hrun

/-- **The counters never run ahead**: in any run and any interleaving `count` is
at most the number of packets that were taken up, and `untrusted_counter` that
of the packets among them with a valid header. -/
theorem counts_bounded {rules : Rules}
    (hstart : startService env rules = some (.ok (.serves setup s₀)))
    (h : s₀.run env setup inputs = some (s, tr)) :
    (∃ n ≤ (packetsTaken tr).length, s.globals.count = .ofNat 32 n) ∧
      ∃ n ≤ (packetsTaken tr).countP hasHeader, s.globals.untrustedCounter = .ofNat 32 n := by
  obtain ⟨-, w, -, rfl⟩ := startService_cases hstart
  have hstores := Stores.run h
  obtain ⟨n, hn, hcount⟩ := (bounded_run (.inl rfl) h).value
  obtain ⟨m, hm, hsource⟩ := (bounded_run (.inr rfl) h).value
  have hle := hstores.count
  have hle' := hstores.sources
  refine ⟨⟨n, ?_, hcount⟩, m, ?_, hsource⟩
  · exact hn.trans (Nat.le_trans (Nat.le_add_right _ _) hle)
  · exact hm.trans (Nat.le_trans (Nat.le_add_right _ _) hle')

/-- One device, whose thread counts a packet from the untrusted network. -/
theorem counts_bounded_oneCapture :
    ∃ setup s₀ s tr, startService (hostFor "eth0") emptyRules = some (.ok (.serves setup s₀)) ∧
      s₀.run (hostFor "eth0") setup oneCapture = some (s, tr) ∧
      (s.globals.count = 1 ∧ s.globals.untrustedCounter = 1) ∧
      (∃ n ≤ (packetsTaken tr).length, s.globals.count = .ofNat 32 n) ∧
        ∃ n ≤ (packetsTaken tr).countP hasHeader, s.globals.untrustedCounter = .ofNat 32 n := by
  have hrun : observe (hostFor "eth0") emptyRules oneCapture
      (fun r => (r.2.1.globals.count, r.2.1.globals.untrustedCounter)) = some (1, 1) := by
    decide +kernel
  obtain ⟨setup, s₀, s, tr, hstart, hrun, he⟩ := of_observe hrun
  exact ⟨setup, s₀, s, tr, hstart, hrun, Prod.mk.inj he, counts_bounded hstart hrun⟩

end SecuritySystem.Firewall
