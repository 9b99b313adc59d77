import QemuBoard.Uart.Receiver

namespace QemuBoard.Uart

open Library UartState

structure Link where
  uart : UartState
  allowed : Nat

inductive LinkOp
  | canReceive
  | op (o : Op)

def Op.Allowed (before after : Nat) : Op → Prop
  | .receive _ _ => 0 < before ∧ after = before - 1
  | .read _ | .write _ _ _ | .timeoutRx | .timeoutTx _ | .reset _ _ => after = before

/-- Every backend that keeps to the contract. The bytes that it passes while it is notified follow
in calls of their own; those of a reset are its argument, each after a question of its own. -/
def link : System Link LinkOp Effect where
  step l lop out l' :=
    match lop with
    | .canReceive => uartCanReceive l.uart = some (l'.allowed, l'.uart, out)
    | .op o => device.step l.uart o out l'.uart ∧ o.Allowed l.allowed l'.allowed

structure Rx.Holds (v : Rx) (b : Byte) : Prop where
  shift : v.shift = b
  busy : v.canReceive = false
  pending : v.pending = true

theorem Rx.Holds.act {v : Rx} {b : Byte} (h : v.Holds b) {a : Option RxAct}
    (ha : a ≠ some .expire) :
    (v.act a).Holds b := by
  cases a with
  | none => exact h
  | some a =>
    cases a with
    | receive c =>
      have hdrop : v.act (some (.receive c)) = v := by simp [Rx.act, Rx.receive, h.busy]
      exact hdrop.symm ▸ h
    | expire => exact absurd rfl ha
    | read => exact ⟨h.shift, h.busy, h.pending⟩

def Op.IsReset : Op → Prop
  | .reset _ _ => True
  | .read _ | .write _ _ _ | .receive _ _ | .timeoutRx | .timeoutTx _ => False

theorem holds_next {s : UartState} {b : Byte} {op : Op} (h : s.rx.Holds b) (hreset : ¬ op.IsReset)
    (hop : op ≠ .timeoutRx) : (op.next s).rx.Holds b := by
  by_cases hsteady : op.Steady
  · rw [next_rx hsteady]
    apply h.act
    intro hact
    cases op with
    | timeoutRx => exact hop rfl
    | read addr => by_cases hr : Reg.ofAddr addr = some .rxdata <;> simp [Op.rxAct?, hr] at hact
    | write now addr val | receive now buf | timeoutTx now | reset now input =>
      simp [Op.rxAct?] at hact
  · cases op with
    | write now addr val =>
      have hreg : Reg.ofAddr addr = some .status := Decidable.not_not.mp hsteady
      simp only [Op.next, hreg]
      exact ⟨h.shift, h.busy, h.pending⟩
    | reset now input => exact absurd trivial hreset
    | read addr | receive now buf | timeoutRx | timeoutTx now => exact absurd trivial hsteady

def LinkOp.Runs : LinkOp → Prop
  | .canReceive => True
  | .op o => ¬ o.IsReset

/-- From here on the byte stays in the shift register until `timeout_rx` moves it to `rxdata`,
unless there is a reset before. -/
def Delivers (l : Link) (b : Byte) : Prop :=
  ∀ tr l', (link.restrict LinkOp.Runs).Run l tr l' →
    ((∀ e ∈ tr, e.op ≠ .op .timeoutRx) ∧ l'.uart.rxShiftRegister = b ∧
      ∃ out l'', link.step l' (.op .timeoutRx) out l'' ∧ l''.uart.rxdata = b.setWidth 32) ∨
    ∃ pre e post l'', tr = pre ++ e :: post ∧ (∀ x ∈ pre, x.op ≠ .op .timeoutRx) ∧
      e.op = .op .timeoutRx ∧ link.step e.pre (.op .timeoutRx) e.out l'' ∧
      l''.uart.rxdata = b.setWidth 32

theorem rxdata_timeoutRx (s : UartState) :
    (Op.timeoutRx.next s).rxdata = s.rxShiftRegister.setWidth 32 := by
  simp only [Op.next]
  split <;> rfl

theorem link_step_op {l l' : Link} {o : Op} {out : List Effect} (h : link.step l (.op o) out l') :
    l'.uart = o.next l.uart ∧ out = o.log l.uart := by
  obtain ⟨-, -, hnext, hlog⟩ := step_iff.mp h.1
  exact ⟨hnext, hlog⟩

theorem link_step_canReceive {l l' : Link} {out : List Effect} :
    link.step l .canReceive out l' ↔ l' = ⟨l.uart, 1⟩ ∧ out = [] := by
  obtain ⟨s, n⟩ := l'
  simp only [link, uartCanReceive, Action.pure_run, Option.some.injEq, Prod.mk.injEq, Link.mk.injEq,
    eq_comm (a := 1), eq_comm (a := l.uart), eq_comm (a := ([] : List Effect))]
  tauto

theorem Rx.Holds.delivers {l : Link} {b : Byte} (h : l.uart.rx.Holds b) : Delivers l b := by
  intro tr l' hrun
  have huntil := hrun.until (I := fun l : Link => l.uart.rx.Holds b) (· = .op .timeoutRx) h ?_
  · rcases huntil with ⟨hall, hl'⟩ | ⟨pre, e, post, rfl, hall, hop, hpre⟩
    · refine .inl ⟨hall, hl'.shift, _, ⟨Op.timeoutRx.next l'.uart, l'.allowed⟩,
        ⟨step_iff.mpr ⟨hl'.pending, not_false, rfl, rfl⟩, rfl⟩, ?_⟩
      exact (rxdata_timeoutRx _).trans (congrArg _ hl'.shift)
    · obtain ⟨-, u, -, hstep⟩ := hrun.split
      rw [hop] at hstep
      refine .inr ⟨pre, e, post, u, rfl, hall, hop, hstep, ?_⟩
      rw [(link_step_op hstep).1, rxdata_timeoutRx]
      exact congrArg _ hpre.shift
  · rintro l lop out l' ⟨hruns, hstep⟩ hop hl
    cases lop with
    | canReceive =>
      obtain ⟨rfl, -⟩ := link_step_canReceive.mp hstep
      exact hl
    | op o =>
      rw [(link_step_op hstep).1]
      exact holds_next hl hruns fun h => hop (congrArg LinkOp.op h)

theorem holds_receive {s : UartState} (h : s.canReceive = true) (now : Nat) (b : Byte) :
    (Op.next s (.receive now b)).rx.Holds b := by
  constructor <;> simp [Op.next, h]

theorem holds_reset (s : UartState) (now : Nat) (b : Byte) (rest : List Byte) :
    (Op.next s (.reset now (b :: rest))).rx.Holds b := by
  constructor <;> simp [Op.next]

/-- A byte passed while the shift register is free, in a reset for example, is delivered. A byte
passed during a character time is dropped without a trace, and the device has asked for it. -/
theorem flow_control (l : Link) :
    (∀ out l', link.step l .canReceive out l' → l'.allowed = 1 ∧ l'.uart = l.uart) ∧
    (∀ now b out l', link.step l (.op (.receive now b)) out l' → l.uart.canReceive = true →
      l'.uart.rxShiftRegister = b ∧ Delivers l' b) ∧
    (∀ now b out l', link.step l (.op (.receive now b)) out l' → l.uart.canReceive = false →
      l'.uart = l.uart ∧ out = []) ∧
    (∀ now b rest out l', link.step l (.op (.reset now (b :: rest))) out l' →
      l'.uart.rxShiftRegister = b ∧ Delivers l' b ∧ link.step l (.op (.reset now [b])) out l') := by
  refine ⟨?_, ?_, ?_, ?_⟩
  · intro out l' h
    obtain ⟨rfl, -⟩ := link_step_canReceive.mp h
    exact ⟨rfl, rfl⟩
  · intro now b out l' h hfree
    have hholds : l'.uart.rx.Holds b := (link_step_op h).1 ▸ holds_receive hfree now b
    exact ⟨hholds.shift, hholds.delivers⟩
  · intro now b out l' h hbusy
    obtain ⟨hnext, hlog⟩ := link_step_op h
    simpa [Op.next, Op.log, hbusy] using And.intro hnext hlog
  · intro now b rest out l' h
    have hholds : l'.uart.rx.Holds b := (link_step_op h).1 ▸ holds_reset l.uart now b rest
    obtain ⟨-, htraps, hnext, hlog⟩ := step_iff.mp h.1
    exact ⟨hholds.shift, hholds.delivers, step_iff.mpr ⟨trivial, htraps, hnext, hlog⟩, h.2⟩

theorem flow_control_reset :
    Delivers ⟨Op.next (Op.next uartInit (.reset 0 [])) (.receive 1 0x61#8), 0⟩ 0x61#8 := by
  have hstep : link.step ⟨Op.next uartInit (.reset 0 []), 1⟩ (.op (.receive 1 0x61#8)) _
      ⟨_, 0⟩ := ⟨step_iff.mpr ⟨trivial, not_false, rfl, rfl⟩, by decide, rfl⟩
  exact ((flow_control _).2.1 _ _ _ _ hstep rfl).2

/-- Two bytes, each passed after the device has asked for one: the second leaves no trace. -/
theorem byte_dropped : ∃ s₀ out tr l l',
    uartReset 0 [] uartInit = some ((), s₀, out) ∧ link.Run ⟨s₀, 0⟩ tr l ∧
    tr.map Event.op = [.canReceive, .op (.receive 1 0x61#8), .canReceive] ∧
    link.step l (.op (.receive 2 0x62#8)) [] l' ∧
    l'.uart = l.uart ∧ l'.uart.rxShiftRegister = 0x61#8 := by
  have h₁ : link.step ⟨Op.next uartInit (.reset 0 []), 0⟩ .canReceive [] _ :=
    link_step_canReceive.mpr ⟨rfl, rfl⟩
  have h₂ : link.step ⟨Op.next uartInit (.reset 0 []), 1⟩ (.op (.receive 1 0x61#8)) _
      ⟨_, 0⟩ := ⟨step_iff.mpr ⟨trivial, not_false, rfl, rfl⟩, by decide, rfl⟩
  have h₃ : link.step ⟨Op.next (Op.next uartInit (.reset 0 [])) (.receive 1 0x61#8), 0⟩
      .canReceive [] _ := link_step_canReceive.mpr ⟨rfl, rfl⟩
  have h₄ : link.step ⟨Op.next (Op.next uartInit (.reset 0 [])) (.receive 1 0x61#8), 1⟩
      (.op (.receive 2 0x62#8)) [] ⟨Op.next (Op.next uartInit (.reset 0 [])) (.receive 1 0x61#8),
        0⟩ :=
    ⟨step_iff.mpr ⟨trivial, not_false, rfl, rfl⟩, by decide, rfl⟩
  exact ⟨_, _, _, _, _, rfl, ((System.Run.nil.snoc h₁).snoc h₂).snoc h₃, rfl, h₄, rfl, rfl⟩

end QemuBoard.Uart
