import QemuBoard.Board.Machine
import QemuBoard.Can.Interrupt
import QemuBoard.Uart.Interrupt

namespace QemuBoard.Board

open Library Action Nvic

section Wiring

theorem lineAfter_uart (n : Nat) (b : Bool) (e : Uart.Effect) :
    lineAfter n b (.uart e) = if uart0Irqn = n then e.level b else b := by
  cases e with
  | irq level => rfl
  | chrWrite | setParams | acceptInput | helper | value => exact (ite_self b).symm

theorem lineAfter_can (n : Nat) (b : Bool) (c : Fin 2) (e : Can.Effect) :
    lineAfter n b (.can c e) = if canIrqn c = n then e.level b else b := by
  cases e with
  | irq level => rfl
  | receive | value => exact (ite_self b).symm

theorem canIrqn_inj {c d : Fin 2} : canIrqn c = canIrqn d ↔ c = d := by decide +revert

theorem canIrqn_ne_uart (c : Fin 2) : canIrqn c ≠ uart0Irqn := by decide +revert

theorem foldl_uart_uart (out : List Uart.Effect) (b : Bool) :
    (out.map Effect.uart).foldl (lineAfter uart0Irqn) b = out.foldl Uart.Effect.level b := by
  simp only [List.foldl_map, lineAfter_uart, if_true]

theorem foldl_uart_can (out : List Uart.Effect) (c : Fin 2) (b : Bool) :
    (out.map Effect.uart).foldl (lineAfter (canIrqn c)) b = b := by
  simp only [List.foldl_map, lineAfter_uart, (canIrqn_ne_uart c).symm, if_false, List.foldl_fixed]

theorem foldl_can_uart (out : List (Fin 2 × Can.Effect)) (b : Bool) :
    (out.map fun x => Effect.can x.1 x.2).foldl (lineAfter uart0Irqn) b = b := by
  simp only [List.foldl_map, lineAfter_can, canIrqn_ne_uart, if_false, List.foldl_fixed]

theorem foldl_can_can (out : List (Fin 2 × Can.Effect)) (c : Fin 2) (b : Bool) :
    (out.map fun x => Effect.can x.1 x.2).foldl (lineAfter (canIrqn c)) b =
      out.foldl (fun b x => if x.1 = c then x.2.level b else b) b := by
  simp only [List.foldl_map, lineAfter_can, canIrqn_inj]

/-- The inputs of the interrupt controllers are at the levels of the lines, and these are at
the levels that the registers of the devices ask for. CPUs 1 and 2 have nothing connected. -/
structure Wired (m : Machine) : Prop where
  valid : ∀ i, Valid (m.nvics i)
  numIrq : ∀ i, (m.nvics i).numIrq = 241 + firstIrq
  uart : ((m.nvics cpu0).vectors (uart0Irqn + firstIrq)).level = m.uart.irq
  can : ∀ c, ((m.nvics cpu0).vectors (canIrqn c + firstIrq)).level = (m.cans c).irq
  uartLevel : Uart.Level m.uart
  canLevel : ∀ c, Can.LineAtLevel (m.cans c)
  unconnected : ∀ i, i ≠ cpu0 → ∀ n, ((m.nvics i).vectors (n + firstIrq)).level = false

variable {m t : Machine} {out : List Effect}

theorem arrive_eq_some {nvics nvics' : Cpu → NvicState} (h : arrive out nvics = some nvics') :
    ∃ nvic, out.foldlM connect (nvics cpu0) = some nvic ∧
      nvics' = Function.update nvics cpu0 nvic := by
  obtain ⟨nvic, hconnect, rfl⟩ := Option.map_eq_some_iff.mp h
  exact ⟨nvic, hconnect, rfl⟩

theorem Wired.arrived {nvics : Cpu → NvicState} {uart : Uart.UartState} {cans : Can.Net (Fin 2)}
    (h : Wired m) (harrive : arrive out m.nvics = some nvics)
    (huart : out.foldl (lineAfter uart0Irqn) m.uart.irq = uart.irq)
    (hcan : ∀ c, out.foldl (lineAfter (canIrqn c)) (m.cans c).irq = (cans c).irq)
    (huartLevel : Uart.Level uart) (hcanLevel : ∀ c, Can.LineAtLevel (cans c)) :
    Wired { m with uart, cans, nvics } := by
  obtain ⟨nvic, hconnect, rfl⟩ := arrive_eq_some harrive
  have hlevel := level_of_connect (h.valid cpu0) hconnect
  obtain ⟨tr, hrun, -⟩ := run_of_connect hconnect
  have hnum := numIrq_run hrun
  have hself : Function.update m.nvics cpu0 nvic cpu0 = nvic := Function.update_self ..
  refine ⟨?_, ?_, ?_, ?_, huartLevel, hcanLevel, ?_⟩
  · apply (Function.forall_update_iff m.nvics fun _ s => Valid s).mpr
    exact ⟨(hlevel 0).1, fun i _ => h.valid i⟩
  · apply (Function.forall_update_iff m.nvics fun _ s => s.numIrq = 241 + firstIrq).mpr
    exact ⟨hnum.trans (h.numIrq cpu0), fun i _ => h.numIrq i⟩
  · dsimp only
    rw [hself, (hlevel _).2, h.uart, huart]
  · intro c
    dsimp only
    rw [hself, (hlevel _).2, h.can, hcan]
  · intro i hi
    dsimp only
    rw [Function.update_of_ne hi]
    exact h.unconnected i hi

theorem Wired.uartStep {op : Uart.Op} (h : Wired m) (hguard : op.Guard m.uart)
    (hexec : onUart op.exec m = some ((), t, out)) : Wired t := by
  obtain ⟨uart, l, nvics, hact, harrive, rfl, -⟩ := onUart_eq_some hexec
  refine h.arrived harrive ?_ ?_ (h.uartLevel.step ⟨hguard, hact⟩) h.canLevel
  · rw [foldl_uart_uart]
    exact (Uart.drives_exec op _ _ _ _ hact).symm
  · exact fun c => foldl_uart_can l c _

theorem Wired.canStep {op : Can.Op (Fin 2)} (h : Wired m)
    (hexec : onCans (op.exec Can.boardBus) m = some ((), t, out)) : Wired t := by
  obtain ⟨cans, l, nvics, hact, harrive, rfl, -⟩ := onCans_eq_some hexec
  obtain ⟨rfl, -⟩ := Can.step_iff.mp ⟨trivial, hact⟩
  refine h.arrived harrive ?_ ?_ h.uartLevel fun c => Can.lineAtLevel_next op (h.canLevel c)
  · exact foldl_can_uart l _
  · intro c
    rw [foldl_can_can]
    exact (Can.netDrives_exec c Can.boardBus op _ _ _ _ hact).symm

theorem Wired.nvicStep {i : Cpu} {op : Nvic.Op} (h : Wired m) (hguard : op.Guard (m.nvics i))
    (hown : (Part.nvic i op).own)
    (hexec : onNvic i op.exec m = some ((), t, out)) : Wired t := by
  obtain ⟨nvic, hact, rfl, -⟩ := onNvic_eq_some hexec
  have hstep : controller.step (m.nvics i) op [] nvic := ⟨hguard, hact, rfl⟩
  have hlevel : ∀ n, (nvic.vectors (n + firstIrq)).level =
      ((m.nvics i).vectors (n + firstIrq)).level := by
    intro n
    rw [level_step hstep]
    cases op with
    | setIrqLevel k level | reset => exact absurd hown Bool.false_ne_true
    | nmi | systick | write | interrupt | raise | loadFail | lazyfp | take | ret | basepri | primask
    | faultmask => rfl
  have hlevels : ∀ j n, ((Function.update m.nvics i nvic j).vectors (n + firstIrq)).level =
      ((m.nvics j).vectors (n + firstIrq)).level := by
    apply (Function.forall_update_iff m.nvics fun j s => ∀ n, (s.vectors (n + firstIrq)).level =
      ((m.nvics j).vectors (n + firstIrq)).level).mpr
    exact ⟨hlevel, fun j _ n => rfl⟩
  refine ⟨?_, ?_, (hlevels _ _).trans h.uart, fun c => (hlevels _ _).trans (h.can c), h.uartLevel,
    h.canLevel, fun j hj n => (hlevels j n).trans (h.unconnected j hj n)⟩
  · apply (Function.forall_update_iff m.nvics fun _ s => Valid s).mpr
    exact ⟨(h.valid i).preserved hstep, fun j _ => h.valid j⟩
  · apply (Function.forall_update_iff m.nvics fun _ s => s.numIrq = 241 + firstIrq).mpr
    exact ⟨(numIrq_step hstep).trans (h.numIrq i), fun j _ => h.numIrq j⟩

theorem numIrq_arrive {nvics nvics' : Cpu → NvicState} (h : arrive out nvics = some nvics')
    (i : Cpu) :
    (nvics' i).numIrq = (nvics i).numIrq := by
  obtain ⟨nvic, hconnect, rfl⟩ := arrive_eq_some h
  have hnum : nvic.numIrq = (nvics cpu0).numIrq := by
    generalize nvics cpu0 = s at hconnect
    clear h
    induction out generalizing s with
    | nil =>
      obtain rfl := Option.some.inj hconnect
      rfl
    | cons e out ih =>
      rw [List.foldlM_cons] at hconnect
      obtain ⟨u, hu, hrest⟩ := Option.bind_eq_some_iff.mp hconnect
      rw [ih u hrest]
      rcases connect_eq_some hu with ⟨-, rfl⟩ | ⟨n, level, -, hstep⟩
      · rfl
      · exact numIrq_exec ⟨Op.noConfusion, fun _ => Op.noConfusion, Op.noConfusion⟩ hstep.2.1
  revert i
  exact (Function.forall_update_iff nvics fun i s => s.numIrq = (nvics i).numIrq).mpr
    ⟨hnum, fun _ _ => rfl⟩

theorem qemuDevicesReset_eq_some {now : Nat} {input : List Uart.Byte}
    (h : qemuDevicesReset now input m = some ((), t, out)) :
    ∃ m₁ m₂ m₃ out₁ out₂ out₃, onUart (Uart.uartReset now input) m = some ((), m₁, out₁) ∧
      onCans (on Can.can0 Can.canReset) m₁ = some ((), m₂, out₂) ∧
      onCans (on Can.can1 Can.canReset) m₂ = some ((), m₃, out₃) ∧
      t = { m₃ with nvics := fun i => armv7mNvicReset (m₃.nvics i) } ∧
      out = out₁ ++ (out₂ ++ out₃) := by
  obtain ⟨_, m₁, out₁, _, h₁, hcan₀, rfl⟩ := exists_of_bind h
  obtain ⟨_, m₂, out₂, _, h₂, hcan₁, rfl⟩ := exists_of_bind hcan₀
  obtain ⟨_, m₃, out₃, _, h₃, hnvics, rfl⟩ := exists_of_bind hcan₁
  cases hnvics
  exact ⟨m₁, m₂, m₃, out₁, out₂, out₃, h₁, h₂, h₃, rfl, by simp⟩

theorem qemuDevicesReset_parts {now : Nat} {input : List Uart.Byte}
    (h : qemuDevicesReset now input m = some ((), t, out)) :
    t.uart = Uart.Op.next m.uart (.reset now input) ∧ t.cans = Can.Net.reset ∧
      ∃ nvics : Cpu → NvicState, (∀ i, (nvics i).numIrq = (m.nvics i).numIrq) ∧
        t.nvics = fun i => armv7mNvicReset (nvics i) := by
  obtain ⟨m₁, m₂, m₃, _, _, _, h₁, h₂, h₃, rfl, -⟩ := qemuDevicesReset_eq_some h
  obtain ⟨uart, _, nvics₁, hact₁, harrive₁, rfl, -⟩ := onUart_eq_some h₁
  obtain ⟨cans₂, _, nvics₂, hact₂, harrive₂, rfl, -⟩ := onCans_eq_some h₂
  obtain ⟨cans₃, _, nvics₃, hact₃, harrive₃, rfl, -⟩ := onCans_eq_some h₃
  cases hact₂
  cases hact₃
  refine ⟨(Uart.uartReset_eq_some hact₁).1, ?_, nvics₃, fun i => ?_, rfl⟩
  · funext c
    have hc : c = Can.can0 ∨ c = Can.can1 := by decide +revert
    rcases hc with rfl | rfl <;> rfl
  · rw [numIrq_arrive harrive₃, numIrq_arrive harrive₂, numIrq_arrive harrive₁]

theorem wired_reset {now : Nat} {input : List Uart.Byte}
    (hnum : ∀ i, (m.nvics i).numIrq = 241 + firstIrq)
    (hexec : qemuDevicesReset now input m = some ((), t, out)) : Wired t := by
  obtain ⟨huart, hcans, nvics, hnvics, ht⟩ := qemuDevicesReset_parts hexec
  have hlow : t.uart.irq = false := by
    rw [huart]
    cases input <;> simp [Uart.Op.next]
  have hsize : ∀ i, (t.nvics i).numIrq = 241 + firstIrq := by
    intro i
    rw [ht]
    exact (hnvics i).trans (hnum i)
  have hlevel : ∀ i n, ((t.nvics i).vectors (n + firstIrq)).level = false := by
    intro i n
    rw [ht]
    exact resetVectors_level _
  refine ⟨?_, hsize, (hlevel ..).trans hlow.symm, ?_, ?_, ?_, fun i _ n => hlevel i n⟩
  · intro i
    rw [ht]
    refine valid_reset _ ?_
    rw [hnvics i, hnum i]
    decide
  · intro c
    rw [hcans]
    exact hlevel ..
  · rw [huart]
    exact .reset ..
  · intro c
    rw [hcans]
    exact Can.LineAtLevel.zero

theorem Wired.step {op : Part} (hstep : board.step m op out t) (h : Wired m) : Wired t := by
  obtain ⟨hguard, hexec⟩ := hstep
  cases op with
  | uart op => exact h.uartStep hguard.2 hexec
  | can op => exact h.canStep hexec
  | nvic i op => exact h.nvicStep hguard.2 hguard.1 hexec
  | ram mr offset byte =>
    cases hexec
    exact ⟨h.valid, h.numIrq, h.uart, h.can, h.uartLevel, h.canLevel, h.unconnected⟩
  | reset now input => exact wired_reset h.numIrq hexec

end Wiring

section Service

variable {m₀ m₁ m : Machine} {tr : List (Event Machine Part Effect)} {out : List Effect}

def poweredOn : Machine where
  uart := Uart.uartInit
  cans := Can.Net.reset
  nvics _ := boardController
  ram _ _ := 0#8

theorem poweredOn_resets : (qemuDevicesReset 0 [] poweredOn).isSome = true := by decide +kernel

def started : Machine := ((qemuDevicesReset 0 [] poweredOn).get poweredOn_resets).2.1

end Service

section Parts

def Part.uartOps : Part → List Uart.Op
  | .uart op => [op]
  | .reset now input => [.reset now input]
  | .can _ | .nvic .. | .ram .. => []

def Part.canOps : Part → List (Can.Op (Fin 2))
  | .can op => [op]
  | .reset .. => [.reset Can.can0, .reset Can.can1]
  | .uart _ | .nvic .. | .ram .. => []

def Effect.uart? : Effect → Option Uart.Effect
  | .uart e => some e
  | .can .. => none

def Effect.can? : Effect → Option (Fin 2 × Can.Effect)
  | .can c e => some (c, e)
  | .uart _ => none

def lineOps (out : List Effect) : List Nvic.Op :=
  (out.filterMap Effect.line?).map fun l => .setIrqLevel l.1 l.2

def nvicOps (i : Cpu) (e : Event Machine Part Effect) : List Nvic.Op :=
  (if i = cpu0 then lineOps e.out else []) ++
    match e.op with
    | .nvic j op => if j = i then [op] else []
    | .reset .. => [.reset]
    | .uart _ | .can _ | .ram .. => []

variable {m t : Machine} {out : List Effect}

theorem filterMap_uart_uart (l : List Uart.Effect) :
    (l.map Effect.uart).filterMap Effect.uart? = l := by
  simp [List.filterMap_map, Function.comp_def, Effect.uart?]

theorem filterMap_uart_can (l : List Uart.Effect) :
    (l.map Effect.uart).filterMap Effect.can? = [] := by
  simp [List.filterMap_map, Function.comp_def, Effect.can?]

theorem filterMap_can_uart (l : List (Fin 2 × Can.Effect)) :
    (l.map fun x => Effect.can x.1 x.2).filterMap Effect.uart? = [] := by
  simp [List.filterMap_map, Function.comp_def, Effect.uart?]

theorem filterMap_can_can (l : List (Fin 2 × Can.Effect)) :
    (l.map fun x => Effect.can x.1 x.2).filterMap Effect.can? = l := by
  simp [List.filterMap_map, Function.comp_def, Effect.can?]

/-- A piece of a run of the machine, seen from its parts: each of them runs as it does on its own,
with operations and effects of its own. -/
structure Decomposes (m : Machine) (out : List Effect) (t : Machine) (uartOps : List Uart.Op)
    (canOps : List (Can.Op (Fin 2))) (nvicOps : Cpu → List Nvic.Op) : Prop where
  uart : ∃ tr, Uart.device.Run m.uart tr t.uart ∧ tr.map Event.op = uartOps ∧
    tr.flatMap Event.out = out.filterMap Effect.uart?
  cans : ∃ tr, (Can.network Can.boardBus).Run m.cans tr t.cans ∧ tr.map Event.op = canOps ∧
    tr.flatMap Event.out = out.filterMap Effect.can?
  nvics : ∀ i, ∃ tr, controller.Run (m.nvics i) tr (t.nvics i) ∧ tr.map Event.op = nvicOps i

namespace Decomposes

variable {uartOps uartOps' : List Uart.Op} {canOps canOps' : List (Can.Op (Fin 2))}
  {nops nops' : Cpu → List Nvic.Op} {out' : List Effect} {u : Machine}

theorem refl (m : Machine) : Decomposes m [] m [] [] fun _ => [] :=
  ⟨⟨[], .nil, rfl, rfl⟩, ⟨[], .nil, rfl, rfl⟩, fun _ => ⟨[], .nil, rfl⟩⟩

theorem trans (h : Decomposes m out t uartOps canOps nops)
    (h' : Decomposes t out' u uartOps' canOps' nops') :
    Decomposes m (out ++ out') u (uartOps ++ uartOps') (canOps ++ canOps')
      fun i => nops i ++ nops' i := by
  obtain ⟨ut, huart, rfl, huout⟩ := h.uart
  obtain ⟨ut', huart', rfl, huout'⟩ := h'.uart
  obtain ⟨ct, hcan, rfl, hcout⟩ := h.cans
  obtain ⟨ct', hcan', rfl, hcout'⟩ := h'.cans
  refine ⟨⟨ut ++ ut', huart.trans huart', by simp, by simp [huout, huout']⟩,
    ⟨ct ++ ct', hcan.trans hcan', by simp, by simp [hcout, hcout']⟩, fun i => ?_⟩
  obtain ⟨nt, hnvic, hnops⟩ := h.nvics i
  obtain ⟨nt', hnvic', hnops'⟩ := h'.nvics i
  exact ⟨nt ++ nt', hnvic.trans hnvic', by simp [hnops, hnops']⟩

theorem arrived {nvics nvics' : Cpu → NvicState} (h : arrive out nvics = some nvics') (i : Cpu) :
    ∃ tr, controller.Run (nvics i) tr (nvics' i) ∧
      tr.map Event.op = if i = cpu0 then lineOps out else [] := by
  obtain ⟨nvic, hconnect, rfl⟩ := arrive_eq_some h
  split
  case isTrue hi =>
    subst hi
    rw [Function.update_self]
    exact run_of_connect hconnect
  case isFalse hi =>
    rw [Function.update_of_ne hi]
    exact ⟨[], .nil, rfl⟩

theorem onUart (op : Uart.Op) (hguard : op.Guard m.uart)
    (h : onUart op.exec m = some ((), t, out)) :
    Decomposes m out t [op] [] fun i => if i = cpu0 then lineOps out else [] := by
  obtain ⟨uart, l, nvics, hact, harrive, rfl, rfl⟩ := onUart_eq_some h
  refine ⟨⟨_, .snoc .nil ⟨hguard, hact⟩, rfl, ?_⟩, ⟨[], .nil, rfl, ?_⟩, arrived harrive⟩
  · rw [filterMap_uart_uart]
    simp
  · exact (filterMap_uart_can l).symm

theorem onCans (op : Can.Op (Fin 2)) (h : onCans (op.exec Can.boardBus) m = some ((), t, out)) :
    Decomposes m out t [] [op] fun i => if i = cpu0 then lineOps out else [] := by
  obtain ⟨cans, l, nvics, hact, harrive, rfl, rfl⟩ := onCans_eq_some h
  refine ⟨⟨[], .nil, rfl, ?_⟩, ⟨_, .snoc .nil ⟨trivial, hact⟩, rfl, ?_⟩, arrived harrive⟩
  · exact (filterMap_can_uart l).symm
  · rw [filterMap_can_can]
    simp

theorem onNvic {i : Cpu} {op : Nvic.Op} (hguard : op.Guard (m.nvics i))
    (h : onNvic i op.exec m = some ((), t, out)) :
    Decomposes m out t [] [] fun j => if i = j then [op] else [] := by
  obtain ⟨nvic, hact, rfl, rfl⟩ := onNvic_eq_some h
  refine ⟨⟨[], .nil, rfl, rfl⟩, ⟨[], .nil, rfl, rfl⟩, fun j => ?_⟩
  split
  case isTrue hj =>
    subst hj
    dsimp only
    rw [Function.update_self]
    exact ⟨_, .snoc .nil ⟨hguard, hact, rfl⟩, rfl⟩
  case isFalse hj =>
    dsimp only
    rw [Function.update_of_ne (Ne.symm hj)]
    exact ⟨[], .nil, rfl⟩

theorem nvicsReset (m : Machine) :
    Decomposes m [] { m with nvics := fun i => armv7mNvicReset (m.nvics i) } [] [] fun _ =>
      [.reset] :=
  ⟨⟨[], .nil, rfl, rfl⟩, ⟨[], .nil, rfl, rfl⟩,
    fun i => ⟨[⟨m.nvics i, .reset, []⟩], .snoc .nil ⟨trivial, rfl, rfl⟩, rfl⟩⟩

theorem reset {now : Nat} {input : List Uart.Byte}
    (h : qemuDevicesReset now input m = some ((), t, out)) :
    Decomposes m out t [.reset now input] [.reset Can.can0, .reset Can.can1]
      fun i => (if i = cpu0 then lineOps out else []) ++ [.reset] := by
  obtain ⟨m₁, m₂, m₃, out₁, out₂, out₃, h₁, h₂, h₃, rfl, rfl⟩ := qemuDevicesReset_eq_some h
  have huart := onUart (.reset now input) trivial h₁
  have hcan₀ := onCans (.reset Can.can0) h₂
  have hcan₁ := onCans (.reset Can.can1) h₃
  have hall := huart.trans (hcan₀.trans (hcan₁.trans (nvicsReset m₃)))
  simp only [List.append_nil, List.nil_append, List.cons_append] at hall
  convert hall using 1
  funext i
  split <;> simp [lineOps]

theorem step {op : Part} (hstep : board.step m op out t) :
    Decomposes m out t op.uartOps op.canOps fun i => nvicOps i ⟨m, op, out⟩ := by
  obtain ⟨hguard, hexec⟩ := hstep
  cases op with
  | uart op => simpa [nvicOps, Part.uartOps, Part.canOps] using onUart op hguard.2 hexec
  | can op => simpa [nvicOps, Part.uartOps, Part.canOps] using onCans op hexec
  | nvic i op =>
    have hexec : Board.onNvic i (fun s => op.exec s) m = some ((), t, out) := hexec
    obtain ⟨nvic, -, -, rfl⟩ := onNvic_eq_some hexec
    simpa [nvicOps, lineOps, Part.uartOps, Part.canOps] using onNvic hguard.2 hexec
  | ram mr offset byte =>
    cases hexec
    exact ⟨⟨[], .nil, rfl, rfl⟩, ⟨[], .nil, rfl, rfl⟩,
      fun i => ⟨[], .nil, by simp [nvicOps, lineOps]⟩⟩
  | reset now input => exact reset hexec

end Decomposes

/-- Every run of the machine is a run of each of its parts on its own: the UART and the CAN
controllers do what is asked of them and have the effects that the machine has, and the interrupt
controller of CPU 0 sees the calls of the devices on their lines, in their order and no others.
Those of the other CPUs see none. -/
theorem board_decomposes {tr : List (Event Machine Part Effect)} (hrun : board.Run m tr t) :
    Decomposes m (tr.flatMap Event.out) t (tr.flatMap fun e => e.op.uartOps)
      (tr.flatMap fun e => e.op.canOps) fun i => tr.flatMap (nvicOps i) := by
  induction hrun with
  | nil => exact .refl m
  | snoc _ hstep ih =>
    have hsnoc := ih.trans (.step hstep)
    simpa only [List.flatMap_append, List.flatMap_cons, List.flatMap_nil, List.append_nil]
      using hsnoc

theorem board_decomposes_started : ∃ tr m, board.Run started tr m ∧
    (∃ tr', controller.Run (started.nvics cpu0) tr' (m.nvics cpu0) ∧
      tr'.map Event.op = [.setIrqLevel uart0Irqn true]) ∧
    ∃ tr', controller.Run (started.nvics 1) tr' (m.nvics 1) ∧ tr'.map Event.op = [] := by
  have hrun : board.Run started _ _ := .replay_get started [.uart (.write 0 0x0C Uart.Status.trdy)]
    (by decide +kernel) (by decide +kernel)
  have hall := board_decomposes hrun
  obtain ⟨tr₀, hrun₀, hops₀⟩ := hall.nvics cpu0
  obtain ⟨tr₁, hrun₁, hops₁⟩ := hall.nvics 1
  exact ⟨_, _, hrun, ⟨tr₀, hrun₀, hops₀.trans (by decide +kernel)⟩,
    tr₁, hrun₁, hops₁.trans (by decide +kernel)⟩

end Parts

end QemuBoard.Board
