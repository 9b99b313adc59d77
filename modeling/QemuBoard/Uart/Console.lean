import QemuBoard.Uart.Driver
import QemuBoard.Uart.Transmitter

namespace QemuBoard.Uart

open Library UartState Driver

@[ext] structure Console where
  uart : UartState
  sent : List Byte

namespace Console

@[simps] def after (w : Console) (op : Op) : Console where
  uart := op.next w.uart
  sent := w.sent ++ emitted (op.log w.uart)

def access (w : Console) : (o : Access) → accesses.Res o → Console → Prop
  | .read addr, v, w' => ∃ out, uartRead addr w.uart = some (v, w'.uart, out) ∧
      w'.sent = w.sent ++ emitted out
  | .write addr val, _, w' => ∃ now out, uartWrite now addr val w.uart = some ((), w'.uart, out) ∧
      w'.sent = w.sent ++ emitted out

end Console

def console (ι : Type) (menu : ι → DriverM Unit → Prop) : Threads accesses Console ι Op where
  handle := Console.access
  env w op w' := op.IsEvent ∧ ∃ out, device.step w.uart op out w'.uart ∧
    w'.sent = w.sent ++ emitted out
  menu := menu

namespace Console

variable {w w' : Console}

theorem emitted_readLog (s : UartState) (addr : Nat) :
    emitted (if Reg.ofAddr addr = some .rxdata then s.clearLog Status.rrdy else []) = [] := by
  split <;> simp

theorem after_read_sent (w : Console) (addr : Nat) : (w.after (.read addr)).sent = w.sent := by
  rw [after_sent, emitted_log]
  exact List.append_nil _

theorem access_read {addr : Nat} {v : Word} :
    w.access (.read addr) v w' ↔ v = w.uart.readValue addr ∧ w' = w.after (.read addr) := by
  constructor
  · rintro ⟨out, hrun, hsent⟩
    rw [uartRead_run] at hrun
    obtain ⟨hv, hnext, rfl⟩ : w.uart.readValue addr = v ∧ Op.next w.uart (.read addr) = w'.uart ∧
        (if Reg.ofAddr addr = some .rxdata then w.uart.clearLog Status.rrdy else []) = out := by
      simpa using hrun
    rw [emitted_readLog, List.append_nil] at hsent
    exact ⟨hv.symm, Console.ext hnext.symm (hsent.trans (after_read_sent w addr).symm)⟩
  · rintro ⟨rfl, rfl⟩
    refine ⟨_, uartRead_run w.uart addr, ?_⟩
    rw [emitted_readLog, List.append_nil, after_read_sent]

theorem access_write {addr : Nat} {val : Word} {r : Unit} (h : w.access (.write addr val) r w') :
    ∃ now, w' = w.after (.write now addr val) := by
  obtain ⟨now, out, hrun, hsent⟩ := h
  obtain ⟨hnext, rfl⟩ := uartWrite_eq_some hrun
  exact ⟨now, Console.ext hnext hsent⟩

theorem access_write_after {addr : Nat} {val : Word} (now : Nat)
    (h : ¬ (Op.write now addr val).Traps w.uart) :
    w.access (.write addr val) () (w.after (.write now addr val)) :=
  ⟨now, _, (exec_write w.uart now addr val).trans (if_neg h), rfl⟩

theorem after_readStatus (w : Console) : w.after (.read 0x08) = w :=
  Console.ext rfl (after_read_sent w 0x08)

theorem after_other {op : Op} (hsteady : op.Steady) (hact : op.txAct? = none) :
    (w.after op).uart.tx = w.uart.tx ∧ (w.after op).sent = w.sent := by
  rw [after_uart, after_sent, next_tx hsteady, emitted_txAct, hact]
  exact ⟨rfl, List.append_nil _⟩

theorem queue_after {ws : List TxWrite} {op : Op} (h : w.uart.tx.Queue ws w.sent)
    (hsteady : op.Steady) (hguard : op.Guard w.uart) :
    (w.after op).uart.tx.Queue
      (ws ++ match op.txAct? with
        | some (.write b) => [⟨has w.uart.status Status.trdy, b⟩]
        | some .expire | none => [])
      (w.after op).sent := by
  rw [after_uart, after_sent, next_tx hsteady, emitted_txAct]
  cases hact : op.txAct? with
  | none => simpa [Tx.act] using h
  | some a =>
    cases a with
    | write b => simpa [Tx.act, Tx.emit] using h.write b
    | expire => simpa [Tx.act, Tx.emit] using h.expire (pending_of_expire hguard hact)

end Console

theorem Op.IsEvent.steady {op : Op} (h : op.IsEvent) : op.Steady := by
  cases op with
  | receive now buf | timeoutRx | timeoutTx now => trivial
  | read addr | write now addr val | reset now input => exact h.elim

section Strings

def cString (s : List Byte) : List Byte := s.takeWhile (· ≠ 0#8)

def putAll : List Byte → DriverM Unit → DriverM Unit
  | [], k => k
  | b :: l, k =>
    .poll (.read 0x08) (fun v => has v Status.trdy) fun _ =>
      .call (.write 0x04 (b.setWidth 32)) fun _ => putAll l k

theorem putAll_append (l l' : List Byte) (k : DriverM Unit) :
    putAll (l ++ l') k = putAll l (putAll l' k) := by
  induction l with
  | nil => rfl
  | cons b l ih => simp only [List.cons_append, putAll, ih]

theorem uartPrintf_bind (s : List Byte) (k : DriverM Unit) :
    (uartPrintf s >>= fun _ => k) = putAll (cString s) k := by
  induction s with
  | nil => rfl
  | cons b s ih =>
    by_cases hb : b = 0#8
    · simp [uartPrintf, cString, putAll, hb]
    · have hcons : cString (b :: s) = b :: cString s := by simp [cString, hb]
      rw [hcons, putAll, ← ih, uartPrintf, if_pos hb]
      rfl

theorem uartPrintf_eq (s : List Byte) : uartPrintf s = putAll (cString s) (.ret ()) :=
  (Prog.bind_ret _).symm.trans (uartPrintf_bind s (.ret ()))

theorem forM_uartPrintf (strings : List (List Byte)) :
    strings.forM uartPrintf = putAll (strings.flatMap cString) (.ret ()) := by
  induction strings with
  | nil => rfl
  | cons s strings ih =>
    rw [List.flatMap_cons, putAll_append, ← ih, ← uartPrintf_bind]
    rfl

/-- A program that has the bytes `l` to put out; `true` once it has seen TRDY and is about to write
the first of them. -/
inductive Putting : Bool → List Byte → DriverM Unit → Prop
  | polling (l : List Byte) : Putting false l (putAll l (.ret ()))
  | writing (b : Byte) (l : List Byte) :
      Putting true (b :: l) (.call (.write 0x04 (b.setWidth 32)) fun _ => putAll l (.ret ()))

theorem Putting.of_ret {ready : Bool} {l : List Byte} (h : Putting ready l (.ret ())) :
    ready = false ∧ l = [] := by
  generalize hq : Prog.ret () = q at h
  cases h with
  | polling l =>
    cases l with
    | nil => exact ⟨rfl, rfl⟩
    | cons b l => cases hq
  | writing b l => cases hq

end Strings

theorem env_after {ι : Type} {menu : ι → DriverM Unit → Prop} {w w' : Console} {op : Op}
    (h : (console ι menu).env w op w') : op.IsEvent ∧ op.Guard w.uart ∧ w' = w.after op := by
  obtain ⟨hevent, out, hstep, hsent⟩ := h
  obtain ⟨hguard, -, hnext, rfl⟩ := step_iff.mp hstep
  exact ⟨hevent, hguard, Console.ext hnext hsent⟩

section Steps

variable {ι : Type} [DecidableEq ι] {menu : ι → DriverM Unit → Prop}
  {c c' : Config accesses Console ι} {i : ι}

theorem answer_putting {ready : Bool} {l : List Byte} {o : Access} {r : accesses.Res o}
    (h : (console ι menu).Step c (.answer i o r) c') (hp : Putting ready l (c.prog i)) :
    (∀ j, j ≠ i → c'.prog j = c.prog j) ∧
    ((ready = false ∧ o = .read 0x08 ∧ c'.world = c.world ∧
        ∃ ready', Putting ready' l (c'.prog i) ∧
          (ready' = true → has c.world.uart.status Status.trdy = true)) ∨
      (ready = true ∧ ∃ now b l', l = b :: l' ∧ o = .write 0x04 (b.setWidth 32) ∧
        c'.world = c.world.after (.write now 0x04 (b.setWidth 32)) ∧
        Putting false l' (c'.prog i))) := by
  generalize hq : c.prog i = q at hp
  cases h with
  | call hi hw =>
    refine ⟨fun j hj => Function.update_of_ne hj _ _, .inr ?_⟩
    rw [hq] at hi
    cases hp with
    | polling l => cases l <;> simp [putAll] at hi
    | writing b l =>
      cases hi
      obtain ⟨now, hw⟩ := Console.access_write (r := r) hw
      refine ⟨rfl, now, b, l, rfl, rfl, hw, ?_⟩
      dsimp only
      rw [Function.update_self]
      exact .polling l
  | pass hi hw hpass =>
    refine ⟨fun j hj => Function.update_of_ne hj _ _, .inl ?_⟩
    rw [hq] at hi
    cases hp with
    | writing b l => cases hi
    | polling l =>
      cases l with
      | nil => cases hi
      | cons b l =>
        cases hi
        obtain ⟨rfl, rfl⟩ := Console.access_read.mp hw
        refine ⟨rfl, rfl, Console.after_readStatus _, true, ?_, fun _ => hpass⟩
        dsimp only
        rw [Function.update_self]
        exact .writing b l
  | again hi hw hfail =>
    refine ⟨fun _ _ => rfl, .inl ?_⟩
    rw [hq] at hi
    cases hp with
    | writing b l => cases hi
    | polling l =>
      cases l with
      | nil => cases hi
      | cons b l =>
        cases hi
        obtain ⟨rfl, rfl⟩ := Console.access_read.mp hw
        refine ⟨rfl, rfl, Console.after_readStatus _, false, ?_,
          fun h => absurd h Bool.false_ne_true⟩
        rw [show c.prog i = _ from hq]
        exact .polling (b :: l)

end Steps

theorem not_overwritten_concat {ws : List TxWrite} {x : TxWrite} (h : ¬ Overwritten ws)
    (hx : x.trdy = true) : ¬ Overwritten (ws ++ [x]) := by
  cases ws with
  | nil => simp [Overwritten, marks]
  | cons y ws =>
    rw [overwritten_concat (List.cons_ne_nil y ws)]
    simp [h, hx]

/-- The bytes written so far are out or on their way, and none was overwritten. -/
def Console.Clean (w : Console) (bytes : List Byte) : Prop :=
  ∃ ws, w.uart.tx.Queue ws w.sent ∧ ¬ Overwritten ws ∧ ws.map TxWrite.byte = bytes

namespace Console.Clean

variable {w : Console} {bytes : List Byte}

theorem toe (h : w.Clean bytes) : has w.uart.status Status.toe = false := by
  obtain ⟨ws, hq, hnot, -⟩ := h
  exact Bool.eq_false_iff.mpr fun htoe => hnot (hq.overrun.mp htoe)

theorem bytes_eq (h : w.Clean bytes) :
    w.sent ++ (if has w.uart.status Status.tmt then [] else [w.uart.txShiftRegister]) ++
      (if has w.uart.status Status.trdy then [] else [w.uart.txdata.setWidth 8]) = bytes := by
  obtain ⟨ws, hq, hnot, rfl⟩ := h
  rw [← kept_of_not_overwritten hnot, ← hq.bytes, List.append_assoc]
  rfl

theorem pending (h : w.Clean bytes) (htrdy : has w.uart.status Status.trdy = false) :
    w.uart.timers.pending .tx = true := by
  obtain ⟨ws, hq, -, -⟩ := h
  exact hq.busy.mp (hq.holding htrdy)

theorem after {op : Op} (h : w.Clean bytes) (hsteady : op.Steady) (hguard : op.Guard w.uart)
    (hop : ∀ b, op.txAct? ≠ some (.write b)) : (w.after op).Clean bytes := by
  obtain ⟨ws, hq, hnot, hbytes⟩ := h
  have hq' := Console.queue_after hq hsteady hguard
  refine ⟨ws, ?_, hnot, hbytes⟩
  cases hact : op.txAct? with
  | none => simpa [hact] using hq'
  | some a =>
    cases a with
    | write b => exact absurd hact (hop b)
    | expire => simpa [hact] using hq'

theorem event {op : Op} (h : w.Clean bytes) (hevent : op.IsEvent) (hguard : op.Guard w.uart) :
    (w.after op).Clean bytes := by
  apply h.after hevent.steady hguard
  intro b hact
  cases op with
  | write now addr val | read addr | reset now input => exact hevent.elim
  | receive now buf | timeoutRx | timeoutTx now => simp [Op.txAct?] at hact

theorem write (h : w.Clean bytes) (htrdy : has w.uart.status Status.trdy = true) (now : Nat)
    (b : Byte) : (w.after (.write now 0x04 (b.setWidth 32))).Clean (bytes ++ [b]) := by
  obtain ⟨ws, hq, hnot, rfl⟩ := h
  have hact : (Op.write now 0x04 (b.setWidth 32)).txAct? = some (.write b) := by
    simp [Op.txAct?, Reg.ofAddr]
  have hsteady : (Op.write now 0x04 (b.setWidth 32)).Steady := by simp [Op.Steady, Reg.ofAddr]
  have hq' := Console.queue_after hq hsteady trivial
  rw [hact, htrdy] at hq'
  exact ⟨_, hq', not_overwritten_concat hnot rfl, by simp⟩

end Console.Clean

section Caller

def printAll (strings : List (List Byte)) : DriverM Unit := do
  Driver.uartInit
  strings.forM uartPrintf

inductive Calling (all : List Byte) : Bool → List Byte → DriverM Unit → Prop
  | control : Calling all false all (.call (.write 0x0C iroe) fun _ =>
      .call (.write 0x10 1000#32) fun _ => putAll all (.ret ()))
  | divisor : Calling all false all (.call (.write 0x10 1000#32) fun _ => putAll all (.ret ()))
  | putting {ready l p} : Putting ready l p → Calling all ready l p

theorem calling_printAll (strings : List (List Byte)) :
    Calling (strings.flatMap cString) false (strings.flatMap cString) (printAll strings) := by
  have heq : printAll strings = .call (.write 0x0C iroe) fun _ =>
      .call (.write 0x10 1000#32) fun _ => strings.forM uartPrintf := rfl
  rw [heq, forM_uartPrintf]
  exact .control

structure Printing (all : List Byte) (clk : Nat) (c : Config accesses Console Unit) : Prop where
  clock : c.world.uart.clkFreq = clk
  calling : ∃ ready written l, Calling all ready l (c.prog ()) ∧ written ++ l = all ∧
    c.world.Clean written ∧ (ready = true → has c.world.uart.status Status.trdy = true)

abbrev printer : Threads accesses Console Unit Op := console Unit fun _ _ => False

theorem trdy_event {w : Console} {op : Op} (hevent : op.IsEvent)
    (h : has w.uart.status Status.trdy = true) :
    has (w.after op).uart.status Status.trdy = true := by
  have htx : (w.after op).uart.tx.trdy = true := by
    rw [Console.after_uart, next_tx hevent.steady]
    cases op with
    | timeoutTx now => exact Tx.expire_trdy _
    | receive now buf | timeoutRx => exact h
    | write now addr val | read addr | reset now input => exact hevent.elim
  exact htx

theorem Console.Clean.setup {w : Console} {bytes : List Byte} {addr : Nat} {r : Reg}
    (h : w.Clean bytes) (hreg : Reg.ofAddr addr = some r) (hr : r ≠ .txdata ∧ r ≠ .status)
    (now : Nat) (val : Word) : (w.after (.write now addr val)).Clean bytes := by
  apply h.after
  · simpa [Op.Steady, hreg] using hr.2
  · trivial
  · simp [Op.txAct?, hreg, hr.1]

theorem Printing.step {all : List Byte} {clk : Nat} {c c' : Config accesses Console Unit}
    {l : Label accesses Unit Op} (h : Printing all clk c) (hstep : printer.Step c l c') :
    Printing all clk c' := by
  obtain ⟨hclk, ready, written, rest, hcall, hall, hclean, hready⟩ := h
  have hclk' : ∀ op, (c.world.after op).uart.clkFreq = clk := fun op =>
    (next_clkFreq c.world.uart op).trans hclk
  cases l with
  | start i p =>
    cases hstep with
    | start _ hmenu => exact hmenu.elim
  | env op =>
    cases hstep with
    | env henv =>
      obtain ⟨hevent, hguard, rfl⟩ := env_after henv
      exact ⟨hclk' op, ready, written, rest, hcall, hall, hclean.event hevent hguard,
        fun hr => trdy_event hevent (hready hr)⟩
  | answer i o r =>
    generalize hq : c.prog () = q at hcall
    cases hcall with
    | control =>
      cases hstep with
      | call hi hw =>
        cases hq.symm.trans hi
        obtain ⟨now, rfl⟩ := Console.access_write (r := r) hw
        exact ⟨hclk' _, false, written, all, .divisor, hall, hclean.setup rfl (by decide) now _,
          fun h => absurd h Bool.false_ne_true⟩
      | pass hi | again hi => cases hq.symm.trans hi
    | divisor =>
      cases hstep with
      | call hi hw =>
        cases hq.symm.trans hi
        obtain ⟨now, rfl⟩ := Console.access_write (r := r) hw
        exact ⟨hclk' _, false, written, all, .putting (.polling all), hall,
          hclean.setup rfl (by decide) now _, fun h => absurd h Bool.false_ne_true⟩
      | pass hi | again hi => cases hq.symm.trans hi
    | putting hp =>
      obtain ⟨-, ⟨-, -, hw, ready', hp', hready'⟩ | ⟨rfl, now, b, l', rfl, -, hw, hp'⟩⟩ :=
        answer_putting hstep (hq ▸ hp)
      · exact ⟨hw ▸ hclk, ready', written, rest, .putting hp', hall, hw ▸ hclean, hw ▸ hready'⟩
      · refine ⟨hw ▸ hclk' _, false, written ++ [b], l', .putting hp', by simpa using hall,
          hw ▸ hclean.write (hready rfl) now b, fun h => absurd h Bool.false_ne_true⟩

theorem Printing.run {strings : List (List Byte)} {s : UartState} {now : Nat} {input : List Byte}
    {tr : List (Event (Config accesses Console Unit) (Label accesses Unit Op) Empty)}
    {c : Config accesses Console Unit}
    (hidle : (Op.next s (.reset now input)).timers.pending .tx = false)
    (h : printer.system.Run ⟨⟨Op.next s (.reset now input), []⟩, fun _ => printAll strings⟩ tr c) :
    Printing (strings.flatMap cString) s.clkFreq c := by
  refine h.preserves (I := Printing (strings.flatMap cString) s.clkFreq) ?_ fun hstep hc =>
    hc.step hstep.2
  exact ⟨next_clkFreq s _, false, [], _, calling_printAll strings, rfl,
    ⟨[], queue_reset hidle, by simp [Overwritten, marks], rfl⟩,
      fun h => absurd h Bool.false_ne_true⟩

theorem Calling.of_poll {all l : List Byte} {ready : Bool} {p : Word → Bool}
    {k : Word → DriverM Unit} (h : Calling all ready l (.poll (.read 0x08) p k)) :
    p = fun v => has v Status.trdy := by
  generalize hq : (Prog.poll (Access.read 0x08) p k : DriverM Unit) = q at h
  cases h with
  | control | divisor => cases hq
  | putting hp =>
    cases hp with
    | polling l =>
      cases l with
      | nil => cases hq
      | cons b l =>
        cases hq
        rfl
    | writing b l => cases hq

theorem Calling.of_ret {all l : List Byte} {ready : Bool} (h : Calling all ready l (.ret ())) :
    l = [] := by
  cases h with
  | putting hp => exact hp.of_ret.2

theorem Printing.progress {all : List Byte} {c : Config accesses Console Unit}
    (h : Printing all Uart.clkFreq c) :
    c.prog () = .ret () ∨ ∃ o r c', printer.Step c (.answer () o r) c' := by
  obtain ⟨hclk, ready, written, rest, hcall, -, -, -⟩ := h
  have hwrite : ∀ {addr val k}, c.prog () = .call (.write addr val) k →
      ¬ (Op.write 0 addr val).Traps c.world.uart →
      ∃ o r c', printer.Step c (.answer () o r) c' := fun hi htraps =>
    ⟨_, (), _, .call hi (Console.access_write_after 0 htraps)⟩
  generalize hq : c.prog () = q at hcall
  cases hcall with
  | control => exact .inr (hwrite hq (by simp [Op.Traps, Reg.ofAddr]))
  | divisor =>
    refine .inr (hwrite hq fun h => h.2 ?_)
    rw [hclk]
    exact paramsOk_of_lt (by decide)
  | putting hp =>
    cases hp with
    | writing b l => exact .inr (hwrite hq (by simp [Op.Traps, Reg.ofAddr]))
    | polling _ =>
      cases rest with
      | nil => exact .inl rfl
      | cons b l =>
        have hread : c.world.access (.read 0x08) _ _ := Console.access_read.mpr ⟨rfl, rfl⟩
        cases hr : has (c.world.uart.readValue 0x08) Status.trdy with
        | true => exact .inr ⟨_, _, _, .pass hq hread hr⟩
        | false => exact .inr ⟨_, _, _, .again hq hread hr⟩

theorem Printing.wait {all : List Byte} {clk : Nat} {c : Config accesses Console Unit}
    (h : Printing all clk c) {p : Word → Bool} {k : Word → DriverM Unit}
    (hpoll : c.prog () = .poll (.read 0x08) p k)
    (htrdy : has c.world.uart.status Status.trdy = false) (now : Nat) :
    c.world.uart.timers.pending .tx = true ∧
    ∃ c₁, printer.Step c (.env (.timeoutTx now)) c₁ ∧
      ∀ tr c₂, (printer.system.restrict Label.IsEnv).Run c₁ tr c₂ →
        ∀ r c₃, printer.Step c₂ (.answer () (.read 0x08) r) c₃ → c₃.prog () = k r := by
  obtain ⟨-, ready, written, rest, hcall, -, hclean, -⟩ := h
  have hpending := hclean.pending htrdy
  refine ⟨hpending, ⟨c.world.after (.timeoutTx now), c.prog⟩,
    .env ⟨trivial, _, step_iff.mpr ⟨hpending, not_false, rfl, rfl⟩, rfl⟩, ?_⟩
  obtain rfl := (hpoll ▸ hcall).of_poll
  intro tr c₂ hrun r c₃ hstep
  obtain ⟨hprog, hset⟩ : c₂.prog () = c.prog () ∧ has c₂.world.uart.status Status.trdy = true := by
    refine hrun.preserves (I := fun c' => c'.prog () = c.prog () ∧
      has c'.world.uart.status Status.trdy = true) ?_ ?_
    · exact ⟨rfl, by simp [Op.next, htrdy]⟩
    · rintro d l out d' ⟨henv, -, hd⟩ ⟨hprog, hset⟩
      cases hd with
      | env hw =>
        obtain ⟨hevent, -, rfl⟩ := env_after hw
        exact ⟨hprog, trdy_event hevent hset⟩
      | start | call | pass | again => exact henv.elim
  rw [hpoll] at hprog
  cases hstep with
  | call hi => cases hprog.symm.trans hi
  | pass hi =>
    cases hprog.symm.trans hi
    simp only [Function.update_self]
  | again hi hw hfail =>
    cases hprog.symm.trans hi
    obtain ⟨rfl, -⟩ := Console.access_read.mp hw
    exact absurd hset (by simpa [readValue, Reg.ofAddr] using hfail)

end Caller

/-- One caller prints strings after a reset that finds the transmitter idle, with device events at
any point in between. -/
theorem printf_exact {s s₀ : UartState} {now : Nat} {input : List Byte} {out : List Effect}
    (hclk : s.clkFreq = Uart.clkFreq) (hreset : uartReset now input s = some ((), s₀, out))
    (hidle : s₀.timers.pending .tx = false) (strings : List (List Byte))
    {tr : List (Event (Config accesses Console Unit) (Label accesses Unit Op) Empty)}
    {c : Config accesses Console Unit}
    (hrun : printer.system.Run ⟨⟨s₀, []⟩, fun _ => printAll strings⟩ tr c) :
    (c.world.sent ++
        (if has c.world.uart.status Status.tmt then [] else [c.world.uart.txShiftRegister]) ++
        (if has c.world.uart.status Status.trdy then [] else [c.world.uart.txdata.setWidth 8]) <+:
      strings.flatMap cString) ∧
    (c.prog () = .ret () →
      c.world.sent ++
        (if has c.world.uart.status Status.tmt then [] else [c.world.uart.txShiftRegister]) ++
        (if has c.world.uart.status Status.trdy then [] else [c.world.uart.txdata.setWidth 8]) =
      strings.flatMap cString) ∧
    has c.world.uart.status Status.toe = false ∧
    (∀ p k, c.prog () = .poll (.read 0x08) p k → has c.world.uart.status Status.trdy = false →
      ∀ now, c.world.uart.timers.pending .tx = true ∧
        ∃ c₁, printer.Step c (.env (.timeoutTx now)) c₁ ∧
          ∀ tr c₂, (printer.system.restrict Label.IsEnv).Run c₁ tr c₂ →
            ∀ r c₃, printer.Step c₂ (.answer () (.read 0x08) r) c₃ → c₃.prog () = k r) ∧
    (c.prog () = .ret () ∨ ∃ o r c', printer.Step c (.answer () o r) c') := by
  obtain ⟨rfl, -⟩ := uartReset_eq_some hreset
  have hc := Printing.run hidle hrun
  refine ⟨?_, ?_, ?_, fun p k hpoll htrdy => hc.wait hpoll htrdy, Printing.progress (hclk ▸ hc)⟩
  all_goals obtain ⟨-, ready, written, rest, hcall, hall, hclean, -⟩ := hc
  · rw [hclean.bytes_eq, ← hall]
    exact List.prefix_append written rest
  · intro hret
    rw [hret] at hcall
    rw [hclean.bytes_eq, ← hall, hcall.of_ret, List.append_nil]
  · exact hclean.toe

theorem printf_exact_two : ∃ s₀ out tr c,
    uartReset 0 [] Uart.uartInit = some ((), s₀, out) ∧ s₀.timers.pending .tx = false ∧
    printer.system.Run ⟨⟨s₀, []⟩, fun _ => printAll [[0x61#8], [0x62#8]]⟩ tr c ∧
    c.prog () = .ret () ∧
    c.world.sent ++
      (if has c.world.uart.status Status.tmt then [] else [c.world.uart.txShiftRegister]) ++
      (if has c.world.uart.status Status.trdy then [] else [c.world.uart.txdata.setWidth 8]) =
    [0x61#8, 0x62#8] := by
  have hwrite : ∀ {w : Console} {addr val}, ¬ (Op.write 0 addr val).Traps w.uart →
      printer.handle w (.write addr val) () (w.after (.write 0 addr val)) :=
    Console.access_write_after 0
  have hread : ∀ w : Console, printer.handle w (.read 0x08) (w.uart.readValue 0x08)
      (w.after (.read 0x08)) := fun w => Console.access_read.mpr ⟨rfl, rfl⟩
  have hexec : Exec printer.handle (printAll [[0x61#8], [0x62#8]])
      ⟨Op.next Uart.uartInit (.reset 0 []), []⟩ () _ :=
    .call (hwrite (by decide)) (.call (hwrite (by decide))
      (.pass (hread _) (by decide) (.call (hwrite (by decide))
        (.pass (hread _) (by decide) (.call (hwrite (by decide)) .ret)))))
  obtain ⟨tr, hrun⟩ := Threads.run_of_exec (i := ()) hexec fun _ => .ret ()
  have hprog : ∀ p : DriverM Unit, Function.update (fun _ : Unit => .ret ()) () p = fun _ => p := by
    intro p
    funext i
    simp
  rw [hprog, hprog] at hrun
  have h := printf_exact rfl (rfl : uartReset 0 [] Uart.uartInit = _) rfl _ hrun
  exact ⟨_, _, _, _, rfl, rfl, hrun, rfl, h.2.1 rfl⟩

end QemuBoard.Uart
