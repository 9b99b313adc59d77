import QemuBoard.Library.EventLoop
import QemuBoard.Uart.DeviceLaws

namespace QemuBoard.Uart

open Library Action UartState

structure Timed where
  now : Nat
  uart : UartState
  deriving DecidableEq

def perform (op : Nat → Op) : Action Timed Effect Unit := fun w =>
  within Timed.uart (fun s v => { v with uart := s }) (op w.now).exec w

def callback : TimerId → Nat → Op
  | .rx, _ => .timeoutRx
  | .tx, now => .timeoutTx now

def fire (timer : TimerId) (expireTime : Nat) : Action Timed Effect Unit := do
  modify fun w => { w with now := max w.now expireTime }
  perform (callback timer)

/-- Without the guest, a character time ends at most twice for the transmitter and once for the
receiver. -/
def rounds : Nat := 3

def elapse (d : Nat) : Action Timed Effect Unit := fun w =>
  (do runTimers (fun v => v.uart.timers.active) fire (w.now + d) rounds
      modify fun v => { v with now := w.now + d } : Action Timed Effect Unit) w

inductive Input
  | read (addr : Nat)
  | write (addr : Nat) (val : Word)
  | receive (buf : Byte)
  | elapse (d : Nat)
  deriving DecidableEq

def Input.exec : Input → Action Timed Effect Unit
  | .read addr => perform fun _ => .read addr
  | .write addr val => perform fun now => .write now addr val
  | .receive buf => perform fun now => .receive now buf
  | .elapse d => Uart.elapse d

def Input.execAll : List Input → Action Timed Effect Unit
  | [] => pure ()
  | x :: l => do
    x.exec
    execAll l

inductive History
  | input (x : Input)
  | reset (bytes : List Byte)
  deriving DecidableEq

def History.exec : History → Action Timed Effect Unit
  | .input x => x.exec
  | .reset bytes => perform fun now => .reset now bytes

/-- A pending timer fires when the clock reaches its expiry. -/
def timed : System Timed History Effect := .ofActions (fun _ _ => True) History.exec

theorem perform_run (op : Nat → Op) (w : Timed) :
    perform op w =
      if (op w.now).Traps w.uart then none
      else some ((), { w with uart := (op w.now).next w.uart }, (op w.now).log w.uart) := by
  rw [perform, within, exec_eq]
  by_cases h : (op w.now).Traps w.uart
  · simp [h]
  · simp [h]

theorem perform_of_not_traps (op : Nat → Op) {w : Timed} (h : ¬ (op w.now).Traps w.uart) :
    perform op w =
      some ((), { w with uart := (op w.now).next w.uart }, (op w.now).log w.uart) := by
  rw [perform_run, if_neg h]

theorem perform_eq_some (op : Nat → Op) {w v : Timed} {out : List Effect}
    (h : perform op w = some ((), v, out)) :
    v = { w with uart := (op w.now).next w.uart } ∧ out = (op w.now).log w.uart := by
  rw [perform_run] at h
  split at h
  · simp at h
  · simpa [eq_comm] using h

@[simps] def Timed.fired (w : Timed) (timer : TimerId) (expireTime : Nat) : Timed where
  now := max w.now expireTime
  uart := (callback timer (max w.now expireTime)).next w.uart

theorem fire_run (w : Timed) (timer : TimerId) (expireTime : Nat) :
    fire timer expireTime w = some ((), w.fired timer expireTime,
      (callback timer (max w.now expireTime)).log w.uart) := by
  rw [fire, bind_of_run (modify_run _ _), after_nil, perform_of_not_traps _]
  · rfl
  · cases timer <;> exact not_false

def firings (s : UartState) : Nat :=
  (if s.timers.pending .rx then 1 else 0) +
    if s.timers.pending .tx then (if has s.status Status.trdy then 1 else 2) else 0

theorem firings_le (s : UartState) : firings s ≤ rounds := by
  unfold firings rounds
  repeat' split
  all_goals decide

theorem firings_eq_zero {s : UartState} (h : firings s = 0) : s.timers.active = [] := by
  apply TimerList.active_eq_nil
  intro i
  unfold firings at h
  cases i with
  | rx =>
    cases hp : s.timers.pending .rx with
    | false => rfl
    | true => simp [hp] at h
  | tx =>
    cases hp : s.timers.pending .tx with
    | false => rfl
    | true =>
      cases htrdy : has s.status Status.trdy <;> simp [hp, htrdy] at h

theorem firings_callback {s : UartState} {timer : TimerId} (h : s.timers.pending timer = true)
    (now : Nat) : firings ((callback timer now).next s) < firings s := by
  cases timer with
  | rx =>
    simp only [callback, Op.next, firings, h, if_true]
    split <;> simp
  | tx =>
    by_cases htrdy : has s.status Status.trdy = true
    · simp [callback, Op.next, firings, h, htrdy]
    · simp [callback, Op.next, firings, h, htrdy]

theorem elapse_done {I : Timed → List Effect → Prop} (w : Timed) (d : Nat) (hI : I w [])
    (step : ∀ {v out timer expireTime}, I v out → v.uart.timers.pending timer = true →
      I (v.fired timer expireTime)
        (out ++ (callback timer (max v.now expireTime)).log v.uart)) :
    ∃ v out, elapse d w = some ((), { v with now := w.now + d }, out) ∧ I v out ∧
      ∀ i e, v.uart.timers.expiry i = some e → w.now + d < e := by
  obtain ⟨v, out, hrun, hv, hdone⟩ := runTimers_done (I := I) (w.now + d)
    (fun w => firings w.uart) firings_eq_zero
    (fun {v timer expireTime l out} hv hs _ => by
      have hpending := TimerList.pending_of_head hs
      exact ⟨_, _, fire_run v timer expireTime, firings_callback hpending _, step hv hpending⟩)
    (firings_le w.uart) hI
  refine ⟨v, out, ?_, hv, fun i e he => TimerList.lt_of_head hdone he⟩
  rw [elapse, bind_of_run hrun, modify_run, after_some, List.append_nil]

theorem elapse_of_not_due {w : Timed} {d : Nat}
    (h : ∀ p ∈ w.uart.timers.active.head?, w.now + d < p.2) :
    elapse d w = some ((), { w with now := w.now + d }, []) := by
  have hrun := runTimers_of_not_due (s := w) (fun v => v.uart.timers.active) fire h rounds
  rw [elapse, bind_of_run hrun, modify_run, after_nil]

theorem execAll_cons_of_run {x : Input} {w v : Timed} {out : List Effect}
    (h : x.exec w = some ((), v, out)) (l : List Input) :
    Input.execAll (x :: l) w = after out (Input.execAll l v) := by
  rw [Input.execAll, bind_of_run h]

end QemuBoard.Uart
