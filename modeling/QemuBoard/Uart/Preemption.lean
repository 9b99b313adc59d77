import QemuBoard.Library.Preempt
import QemuBoard.Uart.Console

namespace QemuBoard.Uart

open Library UartState Driver

/-- The task makes the call it is in, and `Uart_Handler` one of `UART_printf` each time it is
entered. -/
def uartHandler : Context → DriverM Unit → Prop
  | .task, _ => False
  | .handler, p => ∃ s, p = uartPrintf s

def preempted : System (Config accesses Console Context) (Label accesses Context Op) Empty :=
  (console Context uartHandler).preemptive fun _ => True

abbrev IsrEvent := Event (Config accesses Console Context) (Label accesses Context Op) Empty

def put? : Label accesses Context Op → Option (Context × Byte)
  | .answer i (.write addr val) _ =>
    if Reg.ofAddr addr = some .txdata then some (i, val.setWidth 8) else none
  | .answer _ (.read _) _ | .start _ _ | .env _ => none

def puts (tr : List IsrEvent) : List (Context × Byte) := tr.filterMap fun e => put? e.op

def putsOf (i : Context) (tr : List IsrEvent) : List Byte :=
  ((puts tr).filter fun x => x.1 = i).map Prod.snd

def isrWrites (tr : List IsrEvent) : List TxWrite :=
  tr.filterMap fun e => (put? e.op).map fun x => ⟨has e.pre.world.uart.status Status.trdy, x.2⟩

def started? : Label accesses Context Op → Option (DriverM Unit)
  | .start _ p => some p
  | .answer _ _ _ | .env _ => none

def started (tr : List IsrEvent) : List (DriverM Unit) := tr.filterMap fun e => started? e.op

def IsExpiry : Label accesses Context Op → Prop
  | .env (.timeoutTx _) => True
  | _ => False

def PutBy (i : Context) (e : IsrEvent) : Prop := ∃ b, put? e.op = some (i, b)

/-- The handler has written while a byte was in transmission, and `tx_timer` has not expired
since: its byte stands in `txdata`. -/
def Crossed (tr : List IsrEvent) : Prop :=
  Since (fun _ e => PutBy .handler e ∧ has e.pre.world.uart.status Status.tmt = false)
    (fun e => IsExpiry e.op) tr

def Hit (tr : List IsrEvent) : Prop :=
  Since (fun pre e => PutBy .task e ∧ Crossed pre) (fun _ => False) tr

section Snoc

variable {tr : List IsrEvent} {e : IsrEvent}

theorem isrWrites_snoc (tr : List IsrEvent) (e : IsrEvent) : isrWrites (tr ++ [e]) =
    isrWrites tr ++ ((put? e.op).map fun x =>
      (⟨has e.pre.world.uart.status Status.trdy, x.2⟩ : TxWrite)).toList := by
  cases h : put? e.op <;> simp [isrWrites, h]

theorem puts_snoc (tr : List IsrEvent) (e : IsrEvent) :
    puts (tr ++ [e]) = puts tr ++ (put? e.op).toList := by
  cases h : put? e.op <;> simp [puts, h]

theorem putsOf_of_none (hput : put? e.op = none) (i : Context) :
    putsOf i (tr ++ [e]) = putsOf i tr := by
  simp [putsOf, puts_snoc, hput]

theorem putsOf_put {i : Context} {b : Byte} (hput : put? e.op = some (i, b)) (j : Context) :
    putsOf j (tr ++ [e]) = putsOf j tr ++ if i = j then [b] else [] := by
  by_cases h : i = j <;> simp [putsOf, puts_snoc, hput, h]

theorem started_snoc (tr : List IsrEvent) (e : IsrEvent) :
    started (tr ++ [e]) = started tr ++ (started? e.op).toList := by
  cases h : started? e.op <;> simp [started, h]

theorem crossed_snoc : Crossed (tr ++ [e]) ↔
    (PutBy .handler e ∧ has e.pre.world.uart.status Status.tmt = false) ∨
      (¬ IsExpiry e.op ∧ Crossed tr) :=
  since_snoc _ _ tr e

theorem hit_snoc : Hit (tr ++ [e]) ↔ (PutBy .task e ∧ Crossed tr) ∨ Hit tr := by
  rw [Hit, since_snoc]
  simp [Hit]

end Snoc

structure Record (tr : List IsrEvent) (w : Console) : Prop where
  queue : w.uart.tx.Queue (isrWrites tr) w.sent
  crossed : Crossed tr → has w.uart.status Status.trdy = false
  hit : Overwritten (isrWrites tr) ↔ Hit tr

namespace Record

variable {tr : List IsrEvent} {e : IsrEvent} {w : Console}

theorem quiet (h : Record tr w) {w' : Console} (htx : w'.uart.tx = w.uart.tx)
    (hsent : w'.sent = w.sent) (hput : put? e.op = none) :
    Record (tr ++ [e]) w' := by
  have hnot : ∀ i, ¬ PutBy i e := fun i ⟨b, hb⟩ => by simp [hput] at hb
  have htrdy : has w'.uart.status Status.trdy = has w.uart.status Status.trdy :=
    congrArg Tx.trdy htx
  constructor
  · simpa [isrWrites_snoc, hput, htx, hsent] using h.queue
  · rw [crossed_snoc, htrdy]
    rintro (⟨hp, -⟩ | ⟨-, hc⟩)
    · exact absurd hp (hnot _)
    · exact h.crossed hc
  · simpa [isrWrites_snoc, hput, hit_snoc, hnot] using h.hit

theorem expiry (h : Record tr w) {now : Nat} (hop : e.op = .env (.timeoutTx now))
    (hguard : (Op.timeoutTx now).Guard w.uart) : Record (tr ++ [e]) (w.after (.timeoutTx now)) := by
  have hput : put? e.op = none := by rw [hop]; rfl
  have hexp : IsExpiry e.op := by rw [hop]; trivial
  have hnot : ∀ i, ¬ PutBy i e := fun i ⟨b, hb⟩ => by simp [hput] at hb
  have hq := Console.queue_after h.queue (show (Op.timeoutTx now).Steady from trivial) hguard
  constructor
  · simpa [isrWrites_snoc, hput, Op.txAct?] using hq
  · rw [crossed_snoc]
    rintro (⟨hp, -⟩ | ⟨hne, -⟩)
    · exact absurd hp (hnot _)
    · exact absurd hexp hne
  · simpa [isrWrites_snoc, hput, hit_snoc, hnot] using h.hit

theorem put (h : Record tr w) {i : Context} {b : Byte} (hop : put? e.op = some (i, b))
    (hpre : e.pre.world = w)
    (htask : i = .task → has w.uart.status Status.trdy = false → Crossed tr)
    (hhandler : i = .handler → has w.uart.status Status.trdy = true) (now : Nat) :
    Record (tr ++ [e]) (w.after (.write now 0x04 (b.setWidth 32))) := by
  have hact : (Op.write now 0x04 (b.setWidth 32)).txAct? = some (.write b) := by
    simp [Op.txAct?, Reg.ofAddr]
  have hsteady : (Op.write now 0x04 (b.setWidth 32)).Steady := by simp [Op.Steady, Reg.ofAddr]
  have hwrites : isrWrites (tr ++ [e]) =
      isrWrites tr ++ [⟨has w.uart.status Status.trdy, b⟩] := by
    rw [isrWrites_snoc, hop, hpre]
    rfl
  have hby : ∀ j, PutBy j e ↔ j = i := by
    intro j
    simp [PutBy, hop, eq_comm]
  have hq := Console.queue_after h.queue hsteady trivial
  rw [hact] at hq
  have hafter : (w.after (.write now 0x04 (b.setWidth 32))).uart.tx = w.uart.tx.write b := by
    rw [Console.after_uart, next_tx hsteady, hact]
    rfl
  constructor
  · rw [hwrites]
    exact hq
  · rw [crossed_snoc, hby, hpre]
    intro hc
    have hbusy : w.uart.tx.tmt = false := by
      rcases hc with ⟨-, htmt⟩ | ⟨-, hc⟩
      · exact htmt
      · exact h.queue.holding (h.crossed hc)
    have hfull : (w.uart.tx.write b).trdy = false := by
      cases htrdy : w.uart.tx.trdy <;> simp only [Tx.write, hbusy, htrdy] <;> rfl
    exact (congrArg Tx.trdy hafter).trans hfull
  · rw [hwrites, hit_snoc, hby, or_comm]
    refine (h.queue.overwritten_write b).trans (or_congr h.hit ?_)
    constructor
    · intro hclear
      cases i with
      | task => exact ⟨rfl, htask rfl hclear⟩
      | handler => exact absurd (hhandler rfl) (Bool.eq_false_iff.mp hclear)
    · rintro ⟨-, hc⟩
      exact h.crossed hc

end Record

def TaskAt (str : List Byte) (tr : List IsrEvent) (w : Console) (p : DriverM Unit) : Prop :=
  ∃ ready l, Putting ready l p ∧ putsOf .task tr ++ l = cString str ∧
    (ready = true → has w.uart.status Status.trdy = false → Crossed tr)

def HandlerAt (tr : List IsrEvent) (w : Console) (p : DriverM Unit) : Prop :=
  ∃ (ready : Bool) (l : List Byte) (strings : List (List Byte)), Putting ready l p ∧
    started tr = strings.map uartPrintf ∧ putsOf .handler tr ++ l = strings.flatMap cString ∧
    (ready = true → has w.uart.status Status.trdy = true)

section Contexts

variable {str : List Byte} {tr : List IsrEvent} {e : IsrEvent} {w w' : Console} {p : DriverM Unit}

theorem TaskAt.mono (h : TaskAt str tr w p) (hputs : putsOf .task (tr ++ [e]) = putsOf .task tr)
    (hgap : has w'.uart.status Status.trdy = false →
      Crossed (tr ++ [e]) ∨ (has w.uart.status Status.trdy = false ∧ ¬ IsExpiry e.op)) :
    TaskAt str (tr ++ [e]) w' p := by
  obtain ⟨ready, l, hp, hbytes, hcross⟩ := h
  refine ⟨ready, l, hp, hputs ▸ hbytes, fun hr ht => ?_⟩
  rcases hgap ht with hc | ⟨ht, hexp⟩
  · exact hc
  · exact crossed_snoc.mpr (.inr ⟨hexp, hcross hr ht⟩)

theorem HandlerAt.mono (h : HandlerAt tr w p)
    (hputs : putsOf .handler (tr ++ [e]) = putsOf .handler tr) (hcalls : started? e.op = none)
    (htrdy : has w.uart.status Status.trdy = true → has w'.uart.status Status.trdy = true) :
    HandlerAt (tr ++ [e]) w' p := by
  obtain ⟨ready, l, strings, hp, hstart, hbytes, hready⟩ := h
  refine ⟨ready, l, strings, hp, ?_, hputs ▸ hbytes, fun hr => htrdy (hready hr)⟩
  simpa [started_snoc, hcalls] using hstart

theorem HandlerAt.idle (h : HandlerAt tr w (.ret ()))
    (hputs : putsOf .handler (tr ++ [e]) = putsOf .handler tr) (hcalls : started? e.op = none) :
    HandlerAt (tr ++ [e]) w' (.ret ()) := by
  obtain ⟨ready, l, strings, hp, hstart, hbytes, -⟩ := h
  obtain ⟨rfl, rfl⟩ := hp.of_ret
  refine ⟨false, [], strings, hp, ?_, hputs ▸ hbytes, fun h => absurd h Bool.false_ne_true⟩
  simpa [started_snoc, hcalls] using hstart

end Contexts

structure Interleaved (str : List Byte) (tr : List IsrEvent)
    (c : Config accesses Console Context) : Prop where
  record : Record tr c.world
  task : TaskAt str tr c.world (c.prog .task)
  handler : HandlerAt tr c.world (c.prog .handler)

namespace Interleaved

variable {str : List Byte} {tr : List IsrEvent} {c c' : Config accesses Console Context}

theorem start {i : Context} {p : DriverM Unit} (h : Interleaved str tr c)
    (hstep : (console Context uartHandler).Step c (.start i p) c') :
    Interleaved str (tr ++ [⟨c, .start i p, []⟩]) c' := by
  cases hstep with
  | start hi hmenu =>
    cases i with
    | task => exact hmenu.elim
    | handler =>
      obtain ⟨s, rfl⟩ := hmenu
      refine ⟨h.record.quiet rfl rfl rfl, ?_, ?_⟩
      · exact h.task.mono (putsOf_of_none rfl _) fun ht => .inr ⟨ht, id⟩
      · obtain ⟨ready, l, strings, hp, hcalls, hbytes, -⟩ := h.handler
        rw [hi] at hp
        obtain ⟨rfl, rfl⟩ := hp.of_ret
        refine ⟨false, cString s, strings ++ [s], ?_, ?_, ?_, fun h => absurd h Bool.false_ne_true⟩
        · dsimp only
          rw [Function.update_self, uartPrintf_eq]
          exact .polling _
        · simp [started_snoc, hcalls, started?]
        · rw [putsOf_of_none rfl]
          simpa using hbytes

theorem env {op : Op} (h : Interleaved str tr c)
    (hstep : (console Context uartHandler).Step c (.env op) c') :
    Interleaved str (tr ++ [⟨c, .env op, []⟩]) c' := by
  cases hstep with
  | env henv =>
    obtain ⟨hevent, hguard, rfl⟩ := env_after henv
    have hhandler := h.handler.mono (e := ⟨c, .env op, []⟩) (putsOf_of_none rfl _) rfl
      (trdy_event hevent)
    cases op with
    | timeoutTx now =>
      refine ⟨h.record.expiry rfl hguard, h.task.mono (putsOf_of_none rfl _) fun ht => ?_, hhandler⟩
      have hset : (Op.next c.world.uart (.timeoutTx now)).tx.trdy = true := by
        rw [next_tx hevent.steady]
        exact Tx.expire_trdy _
      exact absurd hset (Bool.eq_false_iff.mp ht)
    | receive now buf | timeoutRx =>
      obtain ⟨htx, hsent⟩ := Console.after_other (w := c.world) hevent.steady rfl
      refine ⟨h.record.quiet htx hsent rfl, h.task.mono (putsOf_of_none rfl _) fun ht => ?_,
        hhandler⟩
      exact .inr ⟨(congrArg Tx.trdy htx).symm.trans ht, id⟩
    | read addr | write now addr val | reset now input => exact hevent.elim

theorem answerTask {o : Access} {r : accesses.Res o} (h : Interleaved str tr c)
    (hidle : c.prog .handler = .ret ())
    (hstep : (console Context uartHandler).Step c (.answer .task o r) c') :
    Interleaved str (tr ++ [⟨c, .answer .task o r, []⟩]) c' := by
  obtain ⟨ready, l, hp, hbytes, hcross⟩ := h.task
  have hhandler := h.handler
  rw [hidle] at hhandler
  obtain ⟨hothers, ⟨-, rfl, hw, ready', hp', hseen⟩ | ⟨rfl, now, b, l', rfl, rfl, hw, hp'⟩⟩ :=
    answer_putting hstep hp
  · have hprog : c'.prog .handler = .ret () := (hothers _ (by decide)).trans hidle
    refine ⟨hw ▸ h.record.quiet rfl rfl rfl, ⟨ready', l, hp', ?_, fun hr ht => ?_⟩, ?_⟩
    · rw [putsOf_of_none rfl, hbytes]
    · rw [hw] at ht
      exact absurd (hseen hr) (Bool.eq_false_iff.mp ht)
    · rw [hprog]
      exact hhandler.idle (putsOf_of_none rfl _) rfl
  · have hprog : c'.prog .handler = .ret () := (hothers _ (by decide)).trans hidle
    have hput : put? (.answer .task (.write 0x04 (b.setWidth 32)) r) = some (.task, b) := by
      simp [put?, Reg.ofAddr]
    refine ⟨hw ▸ h.record.put hput rfl (fun _ => hcross rfl) (fun h => by cases h) now,
      ⟨false, l', hp', ?_, fun h => absurd h Bool.false_ne_true⟩, ?_⟩
    · rw [putsOf_put hput, ← hbytes]
      simp
    · rw [hprog]
      refine hhandler.idle ?_ rfl
      rw [putsOf_put hput]
      exact List.append_nil _

theorem answerHandler {o : Access} {r : accesses.Res o} (h : Interleaved str tr c)
    (hstep : (console Context uartHandler).Step c (.answer .handler o r) c') :
    Interleaved str (tr ++ [⟨c, .answer .handler o r, []⟩]) c' := by
  obtain ⟨ready, l, strings, hp, hcalls, hbytes, hready⟩ := h.handler
  have hcalls' : started (tr ++ [⟨c, .answer .handler o r, []⟩]) = strings.map uartPrintf := by
    simpa [started_snoc, started?] using hcalls
  obtain ⟨hothers, ⟨-, rfl, hw, ready', hp', hseen⟩ | ⟨rfl, now, b, l', rfl, rfl, hw, hp'⟩⟩ :=
    answer_putting hstep hp
  · have hprog : c'.prog .task = c.prog .task := hothers _ (by decide)
    refine ⟨hw ▸ h.record.quiet rfl rfl rfl, ?_, ready', l, strings, hp', hcalls', ?_, hw ▸ hseen⟩
    · rw [hprog, hw]
      exact h.task.mono (putsOf_of_none rfl _) fun ht => .inr ⟨ht, id⟩
    · rw [putsOf_of_none rfl, hbytes]
  · have hprog : c'.prog .task = c.prog .task := hothers _ (by decide)
    have hput : put? (.answer .handler (.write 0x04 (b.setWidth 32)) r) = some (.handler, b) := by
      simp [put?, Reg.ofAddr]
    refine ⟨hw ▸ h.record.put hput rfl (fun h => by cases h) (fun _ => hready rfl) now, ?_,
      false, l', strings, hp', hcalls', ?_, fun h => absurd h Bool.false_ne_true⟩
    · rw [hprog, hw]
      refine h.task.mono ?_ fun ht => .inl (crossed_snoc.mpr (.inl ⟨⟨b, hput⟩, ?_⟩))
      · rw [putsOf_put hput]
        exact List.append_nil _
      · -- into an idle transmitter the byte goes straight to the shift register
        refine Bool.eq_false_iff.mpr fun htmt => ?_
        simp [Op.next, Reg.ofAddr, show has c.world.uart.status Status.tmt = true from htmt] at ht
    · rw [putsOf_put hput, ← hbytes]
      simp

theorem step {l : Label accesses Context Op} {out : List Empty} (h : Interleaved str tr c)
    (hstep : preempted.step c l out c') : Interleaved str (tr ++ [⟨c, l, out⟩]) c' := by
  obtain ⟨hmay, rfl, hstep⟩ := hstep
  cases l with
  | start i p => exact h.start hstep
  | env op => exact h.env hstep
  | answer i o r =>
    cases i with
    | task => exact h.answerTask hmay hstep
    | handler => exact h.answerHandler hstep

end Interleaved

def printing (str : List Byte) : Context → DriverM Unit
  | .task => uartPrintf str
  | .handler => .ret ()

theorem run_interleaved {str : List Byte} {s : UartState} {now : Nat} {input : List Byte}
    {tr : List IsrEvent} {c : Config accesses Console Context}
    (hidle : (Op.next s (.reset now input)).timers.pending .tx = false)
    (h : preempted.Run ⟨⟨Op.next s (.reset now input), []⟩, printing str⟩ tr c) :
    Interleaved str tr c := by
  induction h with
  | nil =>
    have hput : Putting false (cString str) (uartPrintf str) := uartPrintf_eq str ▸ .polling _
    refine ⟨⟨queue_reset hidle, fun hc => absurd hc (since_nil _ _), ?_⟩,
      ⟨false, cString str, hput, rfl, fun h => absurd h Bool.false_ne_true⟩,
      ⟨false, [], [], .polling [], rfl, rfl, fun h => absurd h Bool.false_ne_true⟩⟩
    simp [isrWrites, Overwritten, marks, Hit]
  | snoc _ hstep ih => exact ih.step hstep

theorem isrWrites_bytes (tr : List IsrEvent) :
    (isrWrites tr).map TxWrite.byte = (puts tr).map Prod.snd := by
  simp only [isrWrites, puts, List.map_filterMap, Option.map_map]
  rfl

/-- A task prints a string and a handler that preempts it prints others. No byte is overwritten,
and all go out in the order of their writes, exactly when the task never writes over a byte that
the handler has left in `txdata`. Each of the two writes its strings in order in any case. -/
theorem printf_preempted_iff {s s₀ : UartState} {now : Nat} {input : List Byte} {out : List Effect}
    (hreset : uartReset now input s = some ((), s₀, out)) (hidle : s₀.timers.pending .tx = false)
    (str : List Byte) {tr : List IsrEvent} {c : Config accesses Console Context}
    (hrun : preempted.Run ⟨⟨s₀, []⟩, printing str⟩ tr c) :
    ((has c.world.uart.status Status.toe = false ∧
        c.world.sent ++
          (if has c.world.uart.status Status.tmt then [] else [c.world.uart.txShiftRegister]) ++
          (if has c.world.uart.status Status.trdy then [] else [c.world.uart.txdata.setWidth 8]) =
        (puts tr).map Prod.snd) ↔
      ∀ pre e post, tr = pre ++ e :: post → PutBy .task e → ¬ Crossed pre) ∧
    (putsOf .task tr <+: cString str ∧ (c.prog .task = .ret () → putsOf .task tr = cString str)) ∧
    ∃ strings : List (List Byte), started tr = strings.map uartPrintf ∧
      putsOf .handler tr <+: strings.flatMap cString ∧
      (c.prog .handler = .ret () → putsOf .handler tr = strings.flatMap cString) := by
  obtain ⟨rfl, -⟩ := uartReset_eq_some hreset
  have h := run_interleaved hidle hrun
  have hhit : (∀ pre e post, tr = pre ++ e :: post → PutBy .task e → ¬ Crossed pre) ↔ ¬ Hit tr := by
    constructor
    · rintro hall ⟨pre, e, post, rfl, ⟨hput, hc⟩, -⟩
      exact hall pre e post rfl hput hc
    · intro hnot pre e post htr hput hc
      exact hnot ⟨pre, e, post, htr, ⟨hput, hc⟩, fun _ _ => id⟩
  refine ⟨?_, ?_, ?_⟩
  · rw [hhit, ← h.record.hit]
    constructor
    · rintro ⟨htoe, -⟩ hover
      exact absurd (h.record.queue.overrun.mpr hover) (Bool.eq_false_iff.mp htoe)
    · intro hnot
      have hclean : c.world.Clean ((puts tr).map Prod.snd) :=
        ⟨isrWrites tr, h.record.queue, hnot, isrWrites_bytes tr⟩
      exact ⟨hclean.toe, hclean.bytes_eq⟩
  · obtain ⟨ready, l, hp, hbytes, -⟩ := h.task
    refine ⟨⟨l, hbytes⟩, fun hret => ?_⟩
    rw [hret] at hp
    rw [← hbytes, hp.of_ret.2, List.append_nil]
  · obtain ⟨ready, l, strings, hp, hcalls, hbytes, -⟩ := h.handler
    refine ⟨strings, hcalls, ⟨l, hbytes⟩, fun hret => ?_⟩
    rw [hret] at hp
    rw [← hbytes, hp.of_ret.2, List.append_nil]

section Runs

theorem step_poll {c : Config accesses Console Context} {i : Context} {b : Byte} {l : List Byte}
    (hprog : c.prog i = putAll (b :: l) (.ret ()))
    (hmay : i = .task → c.prog .handler = .ret ())
    (hset : has c.world.uart.status Status.trdy = true) :
    preempted.step c (.answer i (.read 0x08) c.world.uart.status) []
      ⟨c.world, Function.update c.prog i
        (.call (.write 0x04 (b.setWidth 32)) fun _ => putAll l (.ret ()))⟩ := by
  have hread : c.world.access (.read 0x08) c.world.uart.status c.world :=
    Console.access_read.mpr ⟨rfl, (Console.after_readStatus _).symm⟩
  exact Threads.preemptive_pass hprog hmay hread hset

theorem step_put {c : Config accesses Console Context} {i : Context} {b : Byte} {l : List Byte}
    (hprog : c.prog i = .call (.write 0x04 (b.setWidth 32)) fun _ => putAll l (.ret ()))
    (hmay : i = .task → c.prog .handler = .ret ()) (now : Nat) :
    preempted.step c (.answer i (.write 0x04 (b.setWidth 32)) ()) []
      ⟨c.world.after (.write now 0x04 (b.setWidth 32)),
        Function.update c.prog i (putAll l (.ret ()))⟩ := by
  have hwrite : c.world.access (.write 0x04 (b.setWidth 32)) () _ :=
    Console.access_write_after now (by simp [Op.Traps, Reg.ofAddr])
  exact Threads.preemptive_call hprog hmay hwrite

theorem step_enter {c : Config accesses Console Context} (hprog : c.prog .handler = .ret ())
    (str : List Byte) :
    preempted.step c (.start .handler (uartPrintf str)) []
      ⟨c.world, Function.update c.prog .handler (uartPrintf str)⟩ :=
  ⟨trivial, rfl, .start hprog ⟨str, rfl⟩⟩

end Runs

/-- The task prints "a" and, when it has seen TRDY for "b", the handler prints "x": "b" is written
over "x". -/
theorem handler_byte_lost : ∃ s₀ out tr c,
    uartReset 0 [] Uart.uartInit = some ((), s₀, out) ∧ s₀.timers.pending .tx = false ∧
    preempted.Run ⟨⟨s₀, []⟩, printing [0x61#8, 0x62#8]⟩ tr c ∧
    c.prog .task = .ret () ∧ c.prog .handler = .ret () ∧
    puts tr = [(.task, 0x61#8), (.handler, 0x78#8), (.task, 0x62#8)] ∧
    has c.world.uart.status Status.toe = true ∧
    c.world.sent ++
      (if has c.world.uart.status Status.tmt then [] else [c.world.uart.txShiftRegister]) ++
      (if has c.world.uart.status Status.trdy then [] else [c.world.uart.txdata.setWidth 8]) =
    [0x61#8, 0x62#8] := by
  have hstart : preempted.Run ⟨⟨Op.next Uart.uartInit (.reset 0 []), []⟩,
    printing [0x61#8, 0x62#8]⟩ [] _ := .nil
  have h₁ := hstart.snoc (step_poll (i := .task) (b := 0x61#8)
    (l := [0x62#8]) rfl (fun _ => rfl) rfl)
  have h₂ := h₁.snoc (step_put (i := .task) (b := 0x61#8) (l := [0x62#8]) rfl (fun _ => rfl) 1)
  have h₃ := h₂.snoc (step_poll (i := .task) (b := 0x62#8) (l := []) rfl (fun _ => rfl) (by decide))
  have h₄ := h₃.snoc (step_enter rfl [0x78#8])
  have h₅ := h₄.snoc (step_poll (i := .handler) (b := 0x78#8) (l := []) rfl
    (fun h => by cases h) (by decide))
  have h₆ := h₅.snoc (step_put (i := .handler) (b := 0x78#8) (l := []) rfl (fun h => by cases h) 2)
  have h₇ := h₆.snoc (step_put (i := .task) (b := 0x62#8) (l := []) rfl (fun _ => rfl) 3)
  exact ⟨_, _, _, _, rfl, rfl, h₇, rfl, rfl, by decide, by decide, by decide⟩

theorem printf_preempted_before : ∃ s₀ out tr c,
    uartReset 0 [] Uart.uartInit = some ((), s₀, out) ∧ s₀.timers.pending .tx = false ∧
    preempted.Run ⟨⟨s₀, []⟩, printing [0x61#8]⟩ tr c ∧
    putsOf .task tr = [0x61#8] ∧ putsOf .handler tr = [0x78#8] ∧
    ∀ pre e post, tr = pre ++ e :: post → PutBy .task e → ¬ Crossed pre := by
  have hstart : preempted.Run ⟨⟨Op.next Uart.uartInit (.reset 0 []), []⟩, printing [0x61#8]⟩ [] _ :=
    .nil
  have h₁ := hstart.snoc (step_enter rfl [0x78#8])
  have h₂ := h₁.snoc (step_poll (i := .handler) (b := 0x78#8) (l := []) rfl
    (fun h => by cases h) (by decide))
  have h₃ := h₂.snoc (step_put (i := .handler) (b := 0x78#8) (l := []) rfl (fun h => by cases h) 1)
  have h₄ := h₃.snoc (step_poll (i := .task) (b := 0x61#8) (l := []) rfl (fun _ => rfl) (by decide))
  have h₅ := h₄.snoc (step_put (i := .task) (b := 0x61#8) (l := []) rfl (fun _ => rfl) 2)
  have h := printf_preempted_iff (rfl : uartReset 0 [] Uart.uartInit = _) rfl [0x61#8] h₅
  exact ⟨_, _, _, _, rfl, rfl, h₅, h.2.1.2 rfl, by decide, h.1.mp ⟨by decide, by decide⟩⟩

end QemuBoard.Uart
