import QemuBoard.Library.Alarm
import QemuBoard.Uart.Clock

namespace QemuBoard.Uart

open Library Action UartState

inductive Stimulus
  | read (addr : Nat)
  | write (addr : Nat) (val : Word)
  | receive (buf : Byte)
  | expire (timer : TimerId)
  | reset (input : List Byte)
  deriving DecidableEq

def Stimulus.op (now : Nat) : Stimulus → Op
  | .read addr => .read addr
  | .write addr val => .write now addr val
  | .receive buf => .receive now buf
  | .expire timer => callback timer now
  | .reset input => .reset now input

structure Stamped where
  time : Nat
  stimulus : Stimulus
  deriving DecidableEq

namespace Stamped

def op (l : Stamped) : Op := l.stimulus.op l.time

def Ready (w : Timed) (l : Stamped) : Prop :=
  w.now ≤ l.time ∧
    match l.stimulus with
    | .expire timer => ∃ x ∈ w.uart.timers.expiry timer, x ≤ l.time
    | .read _ | .write _ _ | .receive _ | .reset _ => True

instance (w : Timed) : (l : Stamped) → Decidable (l.Ready w)
  | ⟨_, .expire _⟩ => inferInstanceAs (Decidable (_ ∧ ∃ x ∈ _, x ≤ _))
  | ⟨_, .read _⟩ | ⟨_, .write _ _⟩ | ⟨_, .receive _⟩ | ⟨_, .reset _⟩ =>
    inferInstanceAs (Decidable (_ ∧ True))

def exec (l : Stamped) : Action Timed Effect Unit := do
  modify fun w => { w with now := l.time }
  perform l.stimulus.op

end Stamped

/-- The clock only does not run backwards: an operation happens at any later time, and a timer's
callback at any time from its expiry on. -/
def clocked : System Timed Stamped Effect := .ofActions Stamped.Ready Stamped.exec

abbrev ClockedEvent := Event Timed Stamped Effect

theorem clocked_step {w v : Timed} {l : Stamped} {out : List Effect} (h : clocked.step w l out v) :
    l.Ready w ∧ v = ⟨l.time, l.op.next w.uart⟩ ∧ out = l.op.log w.uart := by
  obtain ⟨hready, hexec⟩ := h
  rw [Stamped.exec, bind_of_run (modify_run _ _), after_nil] at hexec
  obtain ⟨hv, hout⟩ := perform_eq_some _ hexec
  exact ⟨hready, hv, hout⟩

/-- The stimulus starts the timer, with the character time in effect. A byte that is passed on
from inside a reset comes before the new parameters. -/
def Stimulus.arms (timer : TimerId) (s : UartState) : Stimulus → Bool
  | .read _ => false
  | .write addr _ => timer = .tx && Reg.ofAddr addr = some .txdata && has s.status Status.tmt
  | .receive _ => timer = .rx && s.canReceive
  | .expire t => timer = .tx && t = .tx && !has s.status Status.trdy
  | .reset input => timer = .rx && input ≠ []

theorem expiry_next (timer : TimerId) (s : UartState) (now : Nat) (x : Stimulus) :
    ((x.op now).next s).timers.expiry timer =
      if x.arms timer s then some (now + s.charTxTime)
      else if x = .expire timer then none
      else s.timers.expiry timer := by
  cases x with
  | read addr =>
    simp only [Stimulus.op, Op.next, Stimulus.arms]
    split <;> simp
  | write addr val =>
    by_cases hreg : Reg.ofAddr addr = some .txdata
    · simp only [Stimulus.op, Op.next, Stimulus.arms, hreg]
      cases has s.status Status.tmt with
      | true => cases timer <;> simp
      | false => cases has s.status Status.trdy <;> simp
    · simp only [Stimulus.op, Op.next, Stimulus.arms, hreg]
      split
      case h_1 h => exact absurd h hreg
      all_goals simp
  | receive buf =>
    cases hbusy : s.canReceive with
    | true => cases timer <;> simp [Stimulus.op, Op.next, Stimulus.arms, hbusy]
    | false => simp [Stimulus.op, Op.next, Stimulus.arms, hbusy]
  | expire t =>
    cases t with
    | rx =>
      simp only [Stimulus.op, callback, Op.next, Stimulus.arms]
      cases has s.status Status.rrdy <;> cases timer <;> simp
    | tx =>
      simp only [Stimulus.op, callback, Op.next, Stimulus.arms]
      cases has s.status Status.trdy <;> cases timer <;> simp
  | reset input =>
    simp only [Stimulus.op, Op.next, Stimulus.arms]
    cases input with
    | nil => simp
    | cons buf input => cases timer <;> simp

def alarm (timer : TimerId) : Alarm clocked where
  clock := Timed.now
  time := Stamped.time
  expiry w := w.uart.timers.expiry timer
  arms w l := if l.stimulus.arms timer w.uart then some w.uart.charTxTime else none
  fires l := l.stimulus = .expire timer
  clock_le h := (clocked_step h).1.1
  clock_eq h := by rw [(clocked_step h).2.1]
  due h hfires := by
    have hready := (clocked_step h).1.2
    rw [hfires] at hready
    exact hready
  armed h harms := by
    rw [(clocked_step h).2.1]
    simp only [Stamped.op, expiry_next]
    split at harms
    case isTrue ha => rw [if_pos ha, Option.some.inj harms]
    case isFalse => cases harms
  spent h harms hfires := by
    rw [(clocked_step h).2.1]
    simp only [Stamped.op, expiry_next]
    split at harms
    case isTrue => cases harms
    case isFalse ha => rw [if_neg ha, if_pos hfires]
  kept h harms hfires := by
    rw [(clocked_step h).2.1]
    simp only [Stamped.op, expiry_next]
    split at harms
    case isTrue => cases harms
    case isFalse ha => rw [if_neg ha, if_neg hfires]

def lastCharTime (timer : TimerId) (tr : List ClockedEvent) : Option Nat :=
  lastSince
    (fun e => if e.op.stimulus.arms timer e.pre.uart then some e.pre.uart.charTxTime else none)
    (fun _ => false) tr

theorem emits_iff {w v : Timed} {l : Stamped} {out : List Effect} (h : clocked.step w l out v) :
    emitted out ≠ [] ↔ l.stimulus = .expire .tx := by
  rw [(clocked_step h).2.2, Stamped.op, emitted_log]
  cases l.stimulus with
  | expire timer => cases timer <;> simp [Stimulus.op, callback]
  | read addr | write addr val | receive buf | reset input => simp [Stimulus.op]

/-- Whatever the guest writes, however the timers are re-armed and whatever resets there are: two
bytes for the backend, and two bytes for RXDATA, are apart by the character time that the timer of
the second one was armed with. -/
theorem baud_rate_pacing {w v : Timed} {tr pre mid post : List ClockedEvent} {e e' : ClockedEvent}
    (hrun : clocked.Run w tr v) (htr : tr = pre ++ e :: (mid ++ e' :: post)) :
    (emitted e.out ≠ [] → emitted e'.out ≠ [] →
      ∃ p, lastCharTime .tx (pre ++ e :: mid) = some p ∧ e.op.time + p ≤ e'.op.time) ∧
    (e.op.stimulus = .expire .rx → e'.op.stimulus = .expire .rx →
      ∃ p, lastCharTime .rx (pre ++ e :: mid) = some p ∧ e.op.time + p ≤ e'.op.time) := by
  subst htr
  constructor
  · intro he he'
    have hrun' : clocked.Run w ((pre ++ e :: mid) ++ e' :: post) v := by simpa using hrun
    obtain ⟨-, u, hstep⟩ := hrun.split
    obtain ⟨-, u', hstep'⟩ := hrun'.split
    exact (alarm .tx).spaced hrun ((emits_iff hstep).mp he) ((emits_iff hstep').mp he')
  · intro he he'
    exact (alarm .rx).spaced hrun he he'

theorem baud_rate_pacing_two : ∃ tr v pre e mid e' post,
    clocked.Run ⟨0, Op.next uartInit (.reset 0 [])⟩ tr v ∧ tr = pre ++ e :: (mid ++ e' :: post) ∧
    emitted e.out = [0x61#8] ∧ emitted e'.out = [0x62#8] ∧
    ∃ p, lastCharTime .tx (pre ++ e :: mid) = some p ∧ e.op.time + p ≤ e'.op.time := by
  have hrun : (clocked.restrict fun _ => True).Run ⟨0, Op.next uartInit (.reset 0 [])⟩ _ _ :=
    .replay _
      [⟨1, .write 0x04 0x61#32⟩, ⟨2, .write 0x04 0x62#32⟩, ⟨3, .write 0x10 0#32⟩,
        ⟨190972, .expire .tx⟩, ⟨286452, .expire .tx⟩] rfl (by decide)
  have h := baud_rate_pacing (hrun.mono And.right)
    (show _ = [_, _, _] ++ _ :: ([] ++ _ :: []) from rfl)
  exact ⟨_, _, _, _, _, _, _, hrun.mono And.right, rfl, by decide, by decide,
    h.1 (by decide) (by decide)⟩

end QemuBoard.Uart
