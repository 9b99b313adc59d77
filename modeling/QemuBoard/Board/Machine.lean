import QemuBoard.Board.Lines
import QemuBoard.Board.Topology
import QemuBoard.Nvic.Driver

/-! The board as one machine: the UART, the two CAN controllers on their bus, the interrupt
controller of each CPU and the memory, with the lines of the devices connected as
`nxps32k3_realize` connects them. -/

namespace QemuBoard.Board

open Library Action Nvic

structure Machine where
  uart : Uart.UartState
  cans : Can.Net (Fin 2)
  nvics : Cpu → NvicState
  ram : Region → Nat → Uart.Byte

inductive Effect
  | uart (e : Uart.Effect)
  | can (c : Fin 2) (e : Can.Effect)
  deriving DecidableEq

-- the numbers of `nxp_s32k3.h` are those the drivers have
def uart0Irqn : Nat := lpuart0IRQn
def can0Irqn : Nat := flexCan0IRQn
def can1Irqn : Nat := flexCan1IRQn

def canIrqn (c : Fin 2) : Nat := if c = Can.can0 then can0Irqn else can1Irqn

def Effect.line? : Effect → Option (Nat × Bool)
  | .uart (.irq level) => some (uart0Irqn, level)
  | .can c (.irq level) => some (canIrqn c, level)
  | _ => none

abbrev cpu0 : Cpu := ⟨0, by decide⟩

def connect (s : NvicState) (e : Effect) : Option NvicState :=
  match e.line? with
  | some (n, level) => Nvic.setIrqLevel s n level
  | none => some s

/-- The lines of the devices end at CPU 0, where the calls on them arrive in their order. -/
def arrive (out : List Effect) (nvics : Cpu → NvicState) : Option (Cpu → NvicState) :=
  (out.foldlM connect (nvics cpu0)).map (Function.update nvics cpu0)

abbrev MachineM := Action Machine Effect

variable {α : Type}

def onUart (act : Uart.UartM α) : MachineM α := fun m => do
  let (a, uart, out) ← act m.uart
  let nvics ← arrive (out.map .uart) m.nvics
  return (a, { m with uart, nvics }, out.map .uart)

def onCans (act : Can.NetM (Fin 2) α) : MachineM α := fun m => do
  let (a, cans, out) ← act m.cans
  let nvics ← arrive (out.map fun x => .can x.1 x.2) m.nvics
  return (a, { m with cans, nvics }, out.map fun x => .can x.1 x.2)

def onNvic (i : Cpu) (act : NvicState → Option NvicState) : MachineM Unit := fun m => do
  let nvic ← act (m.nvics i)
  return ((), { m with nvics := Function.update m.nvics i nvic }, [])

def setByte (mr : Region) (offset : Nat) (byte : Uart.Byte) : MachineM Unit :=
  modify fun m =>
    { m with ram := Function.update m.ram mr (Function.update (m.ram mr) offset byte) }

/-- The resets of the devices and the CPUs. What `rom_reset` writes to the memory is apart. -/
def qemuDevicesReset (now : Nat) (input : List Uart.Byte) : MachineM Unit := do
  onUart (Uart.uartReset now input)
  onCans (on Can.can0 Can.canReset)
  onCans (on Can.can1 Can.canReset)
  modify fun m => { m with nvics := fun i => armv7mNvicReset (m.nvics i) }

inductive Part
  | uart (op : Uart.Op)
  | can (op : Can.Op (Fin 2))
  | nvic (i : Cpu) (op : Nvic.Op)
  | ram (mr : Region) (offset : Nat) (byte : Uart.Byte)
  | reset (now : Nat) (input : List Uart.Byte)

def Part.exec : Part → MachineM Unit
  | .uart op => onUart op.exec
  | .can op => onCans (op.exec Can.boardBus)
  | .nvic i op => onNvic i op.exec
  | .ram mr offset byte => setByte mr offset byte
  | .reset now input => qemuDevicesReset now input

/-- A part is reset with the machine, and an external line changes through its device. -/
def Part.own : Part → Bool
  | .uart (.reset ..) | .can (.reset _) | .nvic _ .reset | .nvic _ (.setIrqLevel ..) => false
  | _ => true

def Part.Enabled (m : Machine) : Part → Prop
  | .uart op => op.Guard m.uart
  | .nvic i op => op.Guard (m.nvics i)
  | .can _ | .ram .. | .reset .. => True

instance (m : Machine) : (p : Part) → Decidable (p.Enabled m)
  | .uart op => inferInstanceAs (Decidable (op.Guard m.uart))
  | .nvic i op => inferInstanceAs (Decidable (op.Guard (m.nvics i)))
  | .can _ | .ram .. | .reset .. => inferInstanceAs (Decidable True)

def board : System Machine Part Effect := .ofActions (fun m p => p.own ∧ p.Enabled m) Part.exec

section Steps

variable {m t : Machine} {a : α} {out : List Effect} {nvics : Cpu → NvicState}

theorem onUart_eq_some {act : Uart.UartM α} (h : onUart act m = some (a, t, out)) :
    ∃ uart l nvics, act m.uart = some (a, uart, l) ∧ arrive (l.map .uart) m.nvics = some nvics ∧
      t = { m with uart, nvics } ∧ out = l.map .uart := by
  obtain ⟨⟨a', uart, l⟩, hact, h⟩ := Option.bind_eq_some_iff.mp h
  obtain ⟨nvics, harrive, h⟩ := Option.bind_eq_some_iff.mp h
  cases h
  exact ⟨uart, l, nvics, hact, harrive, rfl, rfl⟩

theorem onCans_eq_some {act : Can.NetM (Fin 2) α} (h : onCans act m = some (a, t, out)) :
    ∃ cans l nvics, act m.cans = some (a, cans, l) ∧
      arrive (l.map fun x => .can x.1 x.2) m.nvics = some nvics ∧
      t = { m with cans, nvics } ∧ out = l.map fun x => .can x.1 x.2 := by
  obtain ⟨⟨a', cans, l⟩, hact, h⟩ := Option.bind_eq_some_iff.mp h
  obtain ⟨nvics, harrive, h⟩ := Option.bind_eq_some_iff.mp h
  cases h
  exact ⟨cans, l, nvics, hact, harrive, rfl, rfl⟩

theorem onNvic_eq_some {i : Cpu} {act : NvicState → Option NvicState} {u : Unit}
    (h : onNvic i act m = some (u, t, out)) :
    ∃ nvic, act (m.nvics i) = some nvic ∧
      t = { m with nvics := Function.update m.nvics i nvic } ∧ out = [] := by
  obtain ⟨nvic, hact, h⟩ := Option.bind_eq_some_iff.mp h
  cases h
  exact ⟨nvic, hact, rfl, rfl⟩

end Steps

section Arrival

variable {s t : NvicState} {out : List Effect}

def lineAfter (n : Nat) (b : Bool) (e : Effect) : Bool :=
  match e.line? with
  | some (k, level) => if k = n then level else b
  | none => b

theorem connect_eq_some {e : Effect} (h : connect s e = some t) :
    (e.line? = none ∧ t = s) ∨
      ∃ n level, e.line? = some (n, level) ∧ controller.step s (.setIrqLevel n level) [] t := by
  rw [connect] at h
  split at h
  case h_1 n level hline =>
    have hn : n + firstIrq < s.numIrq := by
      by_contra hn
      rw [Nvic.setIrqLevel, if_pos hn] at h
      exact absurd h (by simp)
    exact .inr ⟨n, level, hline, hn, h, rfl⟩
  case h_2 hline => exact .inl ⟨hline, (Option.some.inj h).symm⟩

theorem run_of_connect (h : out.foldlM connect s = some t) :
    ∃ tr, controller.Run s tr t ∧
      tr.map Event.op = (out.filterMap Effect.line?).map fun l => .setIrqLevel l.1 l.2 := by
  induction out generalizing s with
  | nil =>
    obtain rfl := Option.some.inj h
    exact ⟨[], .nil, rfl⟩
  | cons e out ih =>
    rw [List.foldlM_cons] at h
    obtain ⟨u, hu, h⟩ := Option.bind_eq_some_iff.mp h
    obtain ⟨tr, hrun, hops⟩ := ih h
    rcases connect_eq_some hu with ⟨hline, rfl⟩ | ⟨n, level, hline, hstep⟩
    · rw [List.filterMap_cons_none hline]
      exact ⟨tr, hrun, hops⟩
    · rw [List.filterMap_cons_some hline]
      exact ⟨_, hrun.cons hstep, by simp [hops]⟩

theorem level_connect {e : Effect} (hvalid : Valid s) (h : connect s e = some t) (n : Nat) :
    Valid t ∧ (t.vectors (n + firstIrq)).level =
      lineAfter n (s.vectors (n + firstIrq)).level e := by
  rw [lineAfter]
  rcases connect_eq_some h with ⟨hline, rfl⟩ | ⟨k, level, hline, hstep⟩
  · rw [hline]
    exact ⟨hvalid, rfl⟩
  · rw [hline, level_step hstep, if_neg Op.noConfusion, Op.drives]
    refine ⟨hvalid.preserved hstep, ?_⟩
    dsimp only
    split <;> rfl

theorem level_of_connect (hvalid : Valid s) (h : out.foldlM connect s = some t) (n : Nat) :
    Valid t ∧
      (t.vectors (n + firstIrq)).level = out.foldl (lineAfter n)
        (s.vectors (n + firstIrq)).level := by
  induction out generalizing s with
  | nil =>
    obtain rfl := Option.some.inj h
    exact ⟨hvalid, rfl⟩
  | cons e out ih =>
    rw [List.foldlM_cons] at h
    obtain ⟨u, hu, hrest⟩ := Option.bind_eq_some_iff.mp h
    obtain ⟨hvalid', hlevel⟩ := level_connect hvalid hu n
    rw [List.foldl_cons, ← hlevel]
    exact ih hvalid' hrest

end Arrival

end QemuBoard.Board
