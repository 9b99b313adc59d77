import QemuBoard.Can.Interrupt

namespace QemuBoard.Can

open Library Action CanState

variable {ι : Type} [DecidableEq ι]

def transmitting (bus : CanBusState ι) (c : ι) : NetM ι Unit := do
  controllers.requesting c
  controllers.sending bus c

section Phases

variable (bus : CanBusState ι) (c : ι) (net : Net ι)

theorem transmitting_run :
    transmitting bus c net =
      some ((), Function.update (net.deliver (bus.peers c) (net c).frame) c (net c).request,
        ((net c).clearLog Sr.tcs).map (Prod.mk c) ++
          net.deliverLog (bus.peers c) (net c).frame) := by
  have hself : c ∉ bus.peers c := by simp [CanBusState.mem_peers]
  have hc : Function.update net c (net c).request c = controllersSpec.controller (net c).request :=
    Function.update_self c _ net
  have hsend := controllersSpec.sending_run bus hc
  rw [frame_request, Clients.Spec.deliver_update _ hself,
    Clients.Spec.deliverLog_update _ hself] at hsend
  rw [transmitting, bind_of_run (controllersSpec.requesting_run (net_controller net c))]
  exact congrArg (after _) hsend

theorem canWrite_phases {addr : Nat} {val : Word} (hreg : Reg.ofAddr addr = some .cmr)
    (htr : has val Cmr.tr = true) :
    canWrite bus c addr val = (do
      controllers.acknowledging c val
      transmitting bus c
      controllers.completing c) := by
  rw [canWrite, Clients.canWrite, hreg]
  simp only [htr, if_true, transmitting, Clients.canTransmit, Action.bind_assoc]

end Phases

theorem canWrite_of_phases {bus : CanBusState ι} {c : ι} {val : Word} {net u v w : Net ι}
    {l₁ l₂ l₃ : List (ι × Effect)} (htr : has val Cmr.tr = true)
    (h₁ : controllers.acknowledging c val net = some ((), u, l₁))
    (h₂ : transmitting bus c u = some ((), v, l₂))
    (h₃ : controllers.completing c v = some ((), w, l₃)) :
    canWrite bus c 0x24 val net = some ((), w, l₁ ++ (l₂ ++ l₃)) := by
  rw [canWrite_phases bus c rfl htr, bind_of_run h₁, bind_of_run h₂, h₃, after_some, after_some]

section Line

variable (s : CanState)

theorem clearLog_tcs : s.clearLog Sr.tcs = if s.level then [] else [.irq false] := by
  have hlevel : { s with sr := s.sr &&& ~~~Sr.tcs }.level = s.level := by simp [level]
  rw [clearLog, lowerLog, hlevel]

theorem setLog_tcs : s.request.setLog Sr.tcs = if s.level then [.irq true] else [] := by
  have hlevel : { s.request with sr := s.request.sr ||| Sr.tcs }.level = s.level := by simp [level]
  rw [setLog, raiseLog, hlevel]

theorem irq_sent (h : LineAtLevel s) : (s.request.setBit Sr.tcs).irq = s.irq := by
  have hrequest : LineAtLevel s.request := h.clearBit
  have hsent : LineAtLevel (s.request.setBit Sr.tcs) := hrequest.setBit _
  rw [h, hsent]
  simp [level]

theorem documentedLevel_sent {s : CanState} (h : LineAtLevel s) (hs : s.level = true) :
    DocumentedLevel (s.request.setBit Sr.tcs) := by
  have hup : (s.request.setBit Sr.tcs).irq = true := by rw [irq_sent s h, h, hs]
  have hrie : has s.ier Ier.rie = true ∧ has s.sr Sr.rbs = true := by simpa [level] using hs
  refine iff_of_true hup (.inl ?_)
  simpa using hrie

theorem level_acknowledge (val : Word) :
    (s.acknowledge val).level =
      (has s.ier Ier.rie && (has s.sr Sr.rbs && !has val Cmr.rrb)) := by
  have hfull : has (s.acknowledge val).sr Sr.rbs = _ :=
    congrArg Mailbox.full (mailbox_acknowledge s val)
  rw [level, acknowledge_ier, hfull]
  rfl

end Line

/-- The documented interrupt of a transmission: with TIE the line is driven high after TCS is set
and ends at the level of the other two conditions; without TIE nothing moves it from where RRB
and CDO have left it. -/
def TransmitInterrupts (bus : CanBusState ι) (c : ι) (val : Word) (net : Net ι) : Prop :=
  ∃ u v w l₁ l₂ l₃, controllers.acknowledging c val net = some ((), u, l₁) ∧
    transmitting bus c u = some ((), v, l₂) ∧ controllers.completing c v = some ((), w, l₃) ∧
    canWrite bus c 0x24 val net = some ((), w, l₁ ++ (l₂ ++ l₃)) ∧
    (has (net c).ier Ier.tie = true → (c, .irq true) ∈ l₃ ∧ DocumentedLevel (w c)) ∧
    (has (net c).ier Ier.tie = false →
      (w c).irq = (u c).irq ∧ ∀ level, (c, .irq level) ∈ l₂ ++ l₃ → level = (u c).irq)

theorem transmitInterrupts_iff_log {val : Word} {net : Net ι} {c : ι} {s : CanState}
    (htr : has val Cmr.tr = true) (hs : (net c).acknowledge val = s) (bus : CanBusState ι) :
    TransmitInterrupts bus c val net ↔
      (has (net c).ier Ier.tie = true →
        .irq true ∈ s.request.setLog Sr.tcs ∧ DocumentedLevel (s.request.setBit Sr.tcs)) ∧
      (has (net c).ier Ier.tie = false →
        (s.request.setBit Sr.tcs).irq = s.irq ∧
          ∀ level, .irq level ∈ s.clearLog Sr.tcs ++ s.request.setLog Sr.tcs → level = s.irq) := by
  have h₁ : controllers.acknowledging c val net = some ((), Function.update net c s, _) :=
    hs ▸ controllersSpec.acknowledging_run (net_controller net c) val
  have h₂ := transmitting_run bus c (Function.update net c s)
  rw [Function.update_self] at h₂
  generalize hv : Function.update (Net.deliver (bus.peers c) s.frame (Function.update net c s)) c
    s.request = v at h₂
  have hvc : v c = controllersSpec.controller s.request := by
    rw [← hv, Function.update_self]
    rfl
  have h₃ : controllers.completing c v = some ((), Function.update v c (s.request.setBit Sr.tcs),
      (s.request.setLog Sr.tcs).map (Prod.mk c)) := controllersSpec.completing_run hvc
  have hown : ∀ e, (c, e) ∈ (s.clearLog Sr.tcs).map (Prod.mk c) ++
      Net.deliverLog (bus.peers c) s.frame (Function.update net c s) ++
        (s.request.setLog Sr.tcs).map (Prod.mk c) ↔
      e ∈ s.clearLog Sr.tcs ++ s.request.setLog Sr.tcs := by
    intro e
    have hpeer : (c, e) ∉ Net.deliverLog (bus.peers c) s.frame (Function.update net c s) := by
      intro h
      exact (CanBusState.mem_peers.mp (Net.mem_deliverLog h)).2.2 rfl
    simp [hpeer]
  have hset : ∀ e, (c, e) ∈ (s.request.setLog Sr.tcs).map (Prod.mk c) ↔
      e ∈ s.request.setLog Sr.tcs := by simp
  constructor
  · rintro ⟨u, v', w, l₁, l₂, l₃, h₁', h₂', h₃', -, htie, hno⟩
    cases h₁.symm.trans h₁'
    cases h₂.symm.trans h₂'
    cases h₃.symm.trans h₃'
    simp only [Function.update_self, hset, hown] at htie hno
    exact ⟨htie, hno⟩
  · rintro ⟨htie, hno⟩
    refine ⟨_, _, _, _, _, _, h₁, h₂, h₃, canWrite_of_phases htr h₁ h₂ h₃, ?_⟩
    simp only [Function.update_self, hset, hown]
    exact ⟨htie, hno⟩

/-- From a reachable state, whatever is in the registers: a transmission is signalled as
documented exactly if TIE is off, or if an enabled reception holds the line up anyway. The check
for the interrupt tests TIE against TCS, which are not at the same position. -/
theorem transmit_interrupts_iff {bus : CanBusState ι} {net : Net ι} {tr : Trace ι}
    (hrun : (network bus).Run Net.reset tr net) (c : ι) {val : Word} (htr : has val Cmr.tr = true) :
    TransmitInterrupts bus c val net ↔
      has (net c).ier Ier.tie = false ∨
        (has (net c).ier Ier.rie = true ∧ has (net c).sr Sr.rbs = true ∧
          has val Cmr.rrb = false) := by
  have hline : LineAtLevel ((net c).acknowledge val) := (run_lineAtLevel hrun c).acknowledge val
  have hlevel := level_acknowledge (net c) val
  have hcond : ((net c).acknowledge val).level = true ↔
      has (net c).ier Ier.rie = true ∧ has (net c).sr Sr.rbs = true ∧ has val Cmr.rrb = false := by
    simp [hlevel]
  rw [← hcond]
  generalize hs : (net c).acknowledge val = s at hline
  rw [transmitInterrupts_iff_log htr hs, clearLog_tcs, setLog_tcs, irq_sent s hline, hline]
  cases hL : s.level with
  | false =>
    -- no level holds the line up, and the pulse is never given
    cases has (net c).ier Ier.tie <;> simp
  | true =>
    have hdoc : DocumentedLevel (s.request.setBit Sr.tcs) := documentedLevel_sent hline hL
    simp [hdoc]

theorem transmit_interrupts_received : ∃ tr net,
    (network boardBus).Run Net.reset tr net ∧ has (net can1).ier Ier.tie = true ∧
    TransmitInterrupts boardBus can1 Cmr.tr net := by
  have hrun : ((network boardBus).restrict fun _ => True).Run _ _ _ :=
    .replay Net.reset [.write can1 0x28 (Ier.rie ||| Ier.tie), .write can0 0x24 Cmr.tr] rfl
      (by decide)
  have htr : has Cmr.tr Cmr.tr = true := by decide
  have h := transmit_interrupts_iff (hrun.mono And.right) can1 htr
  exact ⟨_, _, hrun.mono And.right, by decide, h.mpr (by decide)⟩

/-- With TIE alone a transmission passes without an interrupt. -/
theorem transmit_interrupts_missed : ∃ tr net,
    (network boardBus).Run Net.reset tr net ∧ has (net can0).ier Ier.tie = true ∧
    ¬ TransmitInterrupts boardBus can0 Cmr.tr net := by
  have hrun : ((network boardBus).restrict fun _ => True).Run _ _ _ :=
    .replay Net.reset [.write can0 0x28 Ier.tie] rfl (by decide)
  refine ⟨_, _, hrun.mono And.right, by decide, fun h => ?_⟩
  have hlog := ((transmitInterrupts_iff_log (by decide) rfl boardBus).mp h).1 (by decide)
  exact absurd hlog.1 (by decide)

end QemuBoard.Can
