import QemuBoard.Can.Interrupt
import QemuBoard.Can.Status
import QemuBoard.Can.Transfer

namespace QemuBoard.Can

open Library CanState

theorem ier_own {ι : Type} {s : CanState} (op : Op ι) (h : s.ier.toNat < 2 ^ 4) :
    (op.own s).ier.toNat < 2 ^ 4 := by
  cases op with
  | write c addr val =>
    rw [Op.own, ier_write_own]
    split
    · rw [and_f_toNat]
      exact Nat.mod_lt _ (by decide)
    · exact h
  | reset c => exact Nat.two_pow_pos 4
  | read c addr | receive c frame => exact h

section Executes

variable {B : Type} [DecidableEq B]

/-- A call of the driver for controller `n`: the frames that it hands to the others, RBS and DOS
after it, and nothing else of the controller changed but SR and the line. -/
def Executes (p : Driver.DriverM B Unit) (net : Net (Fin 2)) (n : Fin 2)
    (frames : List QemuCanFrame) (rbs dos : Bool) : Prop :=
  ∀ mem : B → Nat → Byte, ∃ net' out, p.run access ⟨net, mem⟩ = some ((), ⟨net', mem⟩, out) ∧
    (∀ d, receipts d out = if d = n then [] else frames) ∧
    has (net' n).sr Sr.rbs = rbs ∧ has (net' n).sr Sr.dos = dos ∧
    net' n = { net n with sr := (net' n).sr, irq := (net' n).irq }

theorem command_eq {s : CanState} (h : s.cmr = 0#32) (val : Word) :
    s.command val = { s with sr := (s.command val).sr, irq := (s.command val).irq } := by
  have hrest : ∀ sr cmr irq, { s.acknowledge val with sr := sr, cmr := cmr, irq := irq } =
      { s with sr := sr, cmr := cmr, irq := irq } := by
    intro sr cmr irq
    rw [acknowledge_eq]
  have hcommand : s.command val =
      { s.acknowledge val with
        sr := (s.command val).sr
        cmr := (s.command val).cmr
        irq := (s.command val).irq } := by
    unfold CanState.command
    split <;> rfl
  rw [hrest, cmr_command h val, ← h] at hcommand
  exact hcommand

theorem receipts_command {ι : Type} [DecidableEq ι] {addr : Nat} (bus : CanBusState ι)
    (net : Net ι) (c d : ι) (val : Word) (hreg : Reg.ofAddr addr = some .cmr) :
    receipts d ((Op.write c addr val).log bus net) =
      if has val Cmr.tr = true ∧ d ∈ bus.peers c then [(net c).frame] else [] := by
  cases htr : has val Cmr.tr with
  | true =>
    rw [receipts_transmit d bus net c hreg htr]
    simp
  | false => simp [Op.log, hreg, htr, receipts_map]

theorem run_orReg (c : Fin 2) (addr : Nat) (bits : Word) (w : World B) :
    let op : Op (Fin 2) := .write c addr ((w.net c).regValue (Reg.ofAddr addr) ||| bits)
    (Driver.orReg c addr bits).run access w = some ((), w.step op, op.log boardBus w.net) := by
  intro op
  have hprog : (Driver.orReg c addr bits : Driver.DriverM B Unit) =
    .call (.read c addr) fun v => .call (.write c addr (v ||| bits)) .ret := rfl
  rw [hprog, Prog.run_call (access_read w c addr), Prog.run_call (access_write w c addr _)]
  simp only [Prog.run, Action.pure_run, Action.after_some, List.append_nil]
  rfl

theorem executes_orReg {net : Net (Fin 2)} {n : Fin 2} (hcmr : (net n).cmr = 0#32) (bits : Word) :
    Executes (B := B) (Driver.orReg n 0x24 bits) net n
      (if has bits Cmr.tr then [(net n).frame] else [])
      (has (net n).sr Sr.rbs && !has bits Cmr.rrb)
        (has (net n).sr Sr.dos && !has bits Cmr.cdo) := by
  intro mem
  have hrun := run_orReg n 0x24 bits (⟨net, mem⟩ : World B)
  have hval : (net n).regValue (Reg.ofAddr 0x24) ||| bits = bits := by
    change (net n).cmr ||| bits = bits
    rw [hcmr, BitVec.zero_or]
  simp only [hval] at hrun
  refine ⟨_, _, hrun, ?_⟩
  have hown : (Op.write n 0x24 bits).next boardBus net n = (net n).command bits :=
    next_target boardBus net (.write n 0x24 bits)
  have hmail := mailbox_command (net n) bits
  refine ⟨?_, ?_, ?_, ?_⟩
  · intro d
    rw [receipts_command boardBus net n d bits rfl]
    by_cases hd : d = n
    · simp [hd, CanBusState.mem_peers]
    · simp [hd, CanBusState.mem_peers, mem_boardBus]
  · rw [hown]
    exact congrArg Mailbox.full hmail
  · rw [hown]
    exact congrArg Mailbox.overrun hmail
  · rw [hown]
    exact command_eq hcmr bits

end Executes

/-- No register keeps a command bit or an undefined bit, on any bus; and on the board every
`CMR |= ..` of the driver is the one command, from every reachable state. -/
theorem commands_exact {B : Type} [DecidableEq B] :
    (∀ {ι : Type} [DecidableEq ι] {bus : CanBusState ι} {tr : Trace ι} {net : Net ι},
      (network bus).Run Net.reset tr net → ∀ c,
        canRead 0x24 (net c) = some (0#32, net c, []) ∧
        (net c).sr &&& ~~~(Sr.rbs ||| Sr.dos ||| Sr.tbs ||| Sr.tcs) = 0#32 ∧
        (net c).ier.toNat < 2 ^ 4) ∧
    ∀ {tr : Trace (Fin 2)} {net : Net (Fin 2)}, (network boardBus).Run Net.reset tr net →
      ∀ n : Fin 2,
        let rbs := has (net n).sr Sr.rbs
        let dos := has (net n).sr Sr.dos
        Executes (B := B) (Driver.canTransmit n.val) net n [(net n).frame] rbs dos ∧
        Executes (B := B) (Driver.canReleaseReceiveBuffer n.val) net n [] false dos ∧
        Executes (B := B) (Driver.canClearDataOverrun n.val) net n [] rbs false ∧
        Executes (B := B) (Driver.canClearInterrupt n.val) net n [] false false := by
  constructor
  · intro ι _ bus tr net hrun c
    refine ⟨?_, has_eq_false_iff.mp (run_not_has (by decide) hrun c), ?_⟩
    · rw [canRead_run]
      exact congrArg (fun v => some (v, net c, [])) (run_cmr hrun c)
    · exact run_of_own (P := fun s => s.ier.toNat < 2 ^ 4) ier_own hrun (Nat.two_pow_pos 4)
  · intro tr net hrun n rbs dos
    have hcmr := run_cmr hrun n
    refine ⟨?_, ?_, ?_, ?_⟩
    · rw [Driver.canTransmit, Driver.select_val]
      simpa using executes_orReg (B := B) hcmr Cmr.tr
    · rw [Driver.canReleaseReceiveBuffer, Driver.select_val]
      simpa using executes_orReg (B := B) hcmr Cmr.rrb
    · rw [Driver.canClearDataOverrun, Driver.select_val]
      simpa using executes_orReg (B := B) hcmr Cmr.cdo
    · rw [Driver.canClearInterrupt, Driver.select_val]
      simpa using executes_orReg (B := B) hcmr (Cmr.rrb ||| Cmr.cdo)

theorem commands_exact_overrun : ∃ tr net,
    (network boardBus).Run Net.reset tr net ∧ canRead 0x24 (net can1) = some (0#32, net can1, []) ∧
    Executes (B := Unit) (Driver.canTransmit 1) net can1 [(net can1).frame] true true ∧
    Executes (B := Unit) (Driver.canClearInterrupt 1) net can1 [] false false := by
  obtain ⟨tr, net, hrun, hrbs, hdos⟩ : ∃ tr net, (network boardBus).Run Net.reset tr net ∧
      has (net can1).sr Sr.rbs = true ∧ has (net can1).sr Sr.dos = true := by
    have hrun : ((network boardBus).restrict fun _ => True).Run _ _ _ :=
      .replay Net.reset
        [.write can1 0x28 Ier.rie, .write can0 0x24 Cmr.tr, .write can0 0x24 Cmr.tr] rfl
        (by decide)
    exact ⟨_, _, hrun.mono And.right, by decide, by decide⟩
  have h := commands_exact (B := Unit)
  have hboard := h.2 hrun can1
  simp only [hrbs, hdos] at hboard
  exact ⟨tr, net, hrun, (h.1 hrun can1).1, hboard.1, hboard.2.2.2⟩

end QemuBoard.Can
