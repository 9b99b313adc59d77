import QemuBoard.Can.Bus
import QemuBoard.Can.DeviceLaws

namespace QemuBoard.Can

open Library Action CanState

variable {ι : Type} [DecidableEq ι]

def CanBusState.peers (bus : CanBusState ι) (c : ι) : List ι :=
  if c ∈ bus.clients then bus.clients.filter (· ≠ c) else []

theorem CanBusState.mem_peers {bus : CanBusState ι} {c j : ι} :
    j ∈ bus.peers c ↔ c ∈ bus.clients ∧ j ∈ bus.clients ∧ j ≠ c := by
  unfold peers
  split <;> simp [*]

theorem CanBusState.nodup_peers (bus : CanBusState ι) (c : ι) : (bus.peers c).Nodup := by
  unfold peers
  split
  · exact bus.nodup.filter _
  · exact List.nodup_nil

omit [DecidableEq ι] in
theorem foldl_any (p : ι → Bool) (l : List ι) (ret : Int) :
    l.foldl (fun ret j => if p j then 1 else ret) ret = if l.any p then 1 else ret := by
  induction l generalizing ret with
  | nil => rfl
  | cons j l ih =>
    rw [List.foldl_cons, ih, List.any_cons]
    cases p j <;> simp

namespace Clients

variable {κ : Type} {k : Clients κ}

/-- What a frame does to a client that it is offered to, and what a function of `can.c` does to a
client that is a controller. -/
structure Spec (k : Clients κ) where
  controller : CanState → κ
  accepts : QemuCanFrame → κ → Bool
  offered : QemuCanFrame → κ → κ
  offerLog : QemuCanFrame → κ → List Effect
  act_run {α : Type} {m : CanM α} {s t : CanState} {a : α} {l : List Effect} :
    m s = some (a, t, l) → k.act m (controller s) = some (a, controller t, l)
  ask (x : κ) : ∃ b, k.canReceive x = some (b, x, [])
  refuse (frame : QemuCanFrame) {x : κ} : k.canReceive x = some (false, x, []) →
    accepts frame x = false ∧ offered frame x = x ∧ offerLog frame x = []
  take (frame : QemuCanFrame) {x : κ} : k.canReceive x = some (true, x, []) →
    ∃ n, k.receive frame x = some (n, offered frame x, offerLog frame x) ∧
      accepts frame x = decide (n > 0)

namespace Spec

variable (spec : k.Spec)

def deliver (peers : List ι) (frame : QemuCanFrame) (w : ι → κ) : ι → κ := fun j =>
  if j ∈ peers then spec.offered frame (w j) else w j

def deliverLog (peers : List ι) (frame : QemuCanFrame) (w : ι → κ) : List (ι × Effect) :=
  peers.flatMap fun j => (spec.offerLog frame (w j)).map (Prod.mk j)

def result (bus : CanBusState ι) (c : ι) (frame : QemuCanFrame) (w : ι → κ) : Int :=
  if c ∈ bus.clients then
    if (bus.peers c).any fun j => spec.accepts frame (w j) then 1 else 0
  else -1

theorem deliver_update {p : ι} {peers : List ι} (h : p ∉ peers) (frame : QemuCanFrame)
    (w : ι → κ) (x : κ) :
    spec.deliver peers frame (Function.update w p x) =
      Function.update (spec.deliver peers frame w) p x := by
  funext j
  by_cases hj : j = p
  · simp [deliver, hj, h]
  · simp [deliver, hj]

theorem deliverLog_update {p : ι} {peers : List ι} (h : p ∉ peers) (frame : QemuCanFrame)
    (w : ι → κ) (x : κ) :
    spec.deliverLog peers frame (Function.update w p x) = spec.deliverLog peers frame w := by
  unfold deliverLog
  apply List.flatMap_congr
  intro j hj
  have hne : j ≠ p := fun e => h (e ▸ hj)
  rw [Function.update_of_ne hne]

include spec in
theorem offer_self (c : ι) (frame : QemuCanFrame) (ret : Int) (w : ι → κ) :
    k.offer c frame ret c w = some (ret, w, []) := by
  obtain ⟨b, hb⟩ := spec.ask (w c)
  have hask : on c k.canReceive w = some (b, w, []) := by
    rw [on_of_run hb, Function.update_eq_self]
    rfl
  rw [offer, bind_of_run hask]
  cases b <;> simp

theorem offer_peer {c p : ι} (h : p ≠ c) (frame : QemuCanFrame) (ret : Int) (w : ι → κ) :
    k.offer c frame ret p w =
      some (if spec.accepts frame (w p) then 1 else ret,
        Function.update w p (spec.offered frame (w p)),
        (spec.offerLog frame (w p)).map (Prod.mk p)) := by
  obtain ⟨b, hb⟩ := spec.ask (w p)
  have hask : on p k.canReceive w = some (b, w, []) := by
    rw [on_of_run hb, Function.update_eq_self]
    rfl
  rw [offer, bind_of_run hask, after_nil]
  cases b with
  | false =>
    obtain ⟨haccepts, hoffered, hlog⟩ := spec.refuse frame hb
    simp [haccepts, hoffered, hlog]
  | true =>
    obtain ⟨n, hn, haccepts⟩ := spec.take frame hb
    simp [h, bind_of_run (on_of_run hn), haccepts]

theorem canBusClientSend_run (bus : CanBusState ι) (c : ι) (frame : QemuCanFrame) (w : ι → κ) :
    k.canBusClientSend bus c frame w =
      some (spec.result bus c frame w, spec.deliver (bus.peers c) frame w,
        spec.deliverLog (bus.peers c) frame w) := by
  have hskip : ∀ ret j w, decide (j ≠ c) = false →
      k.offer c frame ret j w = some (ret, w, []) := by
    intro ret j w hj
    obtain rfl : j = c := by simpa using hj
    exact spec.offer_self j frame ret w
  have hact := fun ret j (w : ι → κ) (hj : decide (j ≠ c) = true) =>
    spec.offer_peer (of_decide_eq_true hj) frame ret w
  unfold canBusClientSend result CanBusState.peers
  by_cases h : c ∈ bus.clients
  · simp only [h, not_true, if_false, if_true]
    rw [foldlM_on (fun j => decide (j ≠ c)) (fun ret x => if spec.accepts frame x then 1 else ret)
      (spec.offered frame) (spec.offerLog frame) hskip hact bus.nodup, foldl_any]
    rfl
  · have hnil : spec.deliver [] frame w = w := by
      funext j
      simp [deliver]
    simp [h, hnil, deliverLog]

end Spec

end Clients

namespace Net

def deliver (peers : List ι) (frame : QemuCanFrame) (net : Net ι) : Net ι := fun j =>
  if j ∈ peers then (net j).received frame else net j

def deliverLog (peers : List ι) (frame : QemuCanFrame) (net : Net ι) : List (ι × Effect) :=
  peers.flatMap fun j => ((net j).receiveLog frame).map (Prod.mk j)

omit [DecidableEq ι] in
theorem mem_deliverLog {peers : List ι} {frame : QemuCanFrame} {net : Net ι} {x : ι × Effect}
    (h : x ∈ deliverLog peers frame net) : x.1 ∈ peers := by
  obtain ⟨j, hj, hx⟩ := List.mem_flatMap.mp h
  obtain ⟨e, -, rfl⟩ := List.mem_map.mp hx
  exact hj

end Net

open Net

namespace CanState

theorem frame_congr {s t : CanState} (hfi : s.tfi = t.tfi) (hid : s.tid = t.tid)
    (hda : s.tda = t.tda) (hdb : s.tdb = t.tdb) : s.frame = t.frame := by
  have hload : loadByte s = loadByte t := by
    funext i data
    simp [loadByte, hda, hdb]
  simp [frame, hfi, hid, hload]

@[simps] def release (s : CanState) : CanState :=
  { s.clearBit Sr.rbs with cmr := s.cmr &&& ~~~Cmr.rrb }

@[simps] def clearOverrun (s : CanState) : CanState :=
  { s.clearBit Sr.dos with cmr := s.cmr &&& ~~~Cmr.cdo }

@[simps] def request (s : CanState) : CanState :=
  { s.clearBit Sr.tcs with cmr := s.cmr &&& ~~~Cmr.tr }

def acknowledge (s : CanState) (val : Word) : CanState :=
  let s := if has val Cmr.rrb then s.release else s
  if has val Cmr.cdo then s.clearOverrun else s

theorem acknowledge_eq (s : CanState) (val : Word) :
    s.acknowledge val =
      { s with
        sr := (s.acknowledge val).sr
        cmr := (s.acknowledge val).cmr
        irq := (s.acknowledge val).irq } := by
  unfold acknowledge
  cases has val Cmr.rrb <;> cases has val Cmr.cdo <;> rfl

@[simp] theorem acknowledge_tfi (s : CanState) (val : Word) : (s.acknowledge val).tfi = s.tfi := by
  rw [acknowledge_eq]

@[simp] theorem acknowledge_tid (s : CanState) (val : Word) : (s.acknowledge val).tid = s.tid := by
  rw [acknowledge_eq]

@[simp] theorem acknowledge_tda (s : CanState) (val : Word) : (s.acknowledge val).tda = s.tda := by
  rw [acknowledge_eq]

@[simp] theorem acknowledge_tdb (s : CanState) (val : Word) : (s.acknowledge val).tdb = s.tdb := by
  rw [acknowledge_eq]

@[simp] theorem acknowledge_ier (s : CanState) (val : Word) : (s.acknowledge val).ier = s.ier := by
  rw [acknowledge_eq]

def command (s : CanState) (val : Word) : CanState :=
  if has val Cmr.tr then (s.acknowledge val).request.setBit Sr.tcs else s.acknowledge val

def acknowledgeLog (s : CanState) (val : Word) : List Effect :=
  (if has val Cmr.rrb then s.clearLog Sr.rbs else []) ++
  (if has val Cmr.cdo then (if has val Cmr.rrb then s.release else s).clearLog Sr.dos else [])

def write (s : CanState) (val : Word) : Option Reg → CanState
  | some .tfi => { s with tfi := val }
  | some .tid => { s with tid := val }
  | some .tda => { s with tda := val }
  | some .tdb => { s with tdb := val }
  | some .cmr => s.command val
  | some .ier => { s with ier := val &&& 0x0F#32 }.raise.lower
  | some .rfi | some .rid | some .rda | some .rdb | some .sr | none => s

end CanState

namespace Op

def target : Op ι → ι
  | .read c _ | .write c _ _ | .reset c | .receive c _ => c

def own (s : CanState) : Op ι → CanState
  | .read _ _ => s
  | .write _ addr val => s.write val (Reg.ofAddr addr)
  | .reset _ => .zero false
  | .receive _ frame => s.received frame

def sent? (net : Net ι) : Op ι → Option QemuCanFrame
  | .write c addr val =>
    if Reg.ofAddr addr = some .cmr ∧ has val Cmr.tr then some (net c).frame else none
  | .read _ _ | .reset _ | .receive _ _ => none

def next (bus : CanBusState ι) (net : Net ι) (op : Op ι) : Net ι :=
  Function.update
    (match op.sent? net with
      | some frame => deliver (bus.peers op.target) frame net
      | none => net)
    op.target (op.own (net op.target))

def log (bus : CanBusState ι) (net : Net ι) : Op ι → List (ι × Effect)
  | .read c addr => [(c, .value addr ((net c).regValue (Reg.ofAddr addr)))]
  | .write c addr val =>
    match Reg.ofAddr addr with
    | some .cmr =>
      let s := (net c).acknowledge val
      ((net c).acknowledgeLog val).map (Prod.mk c) ++
        if has val Cmr.tr then
          (s.clearLog Sr.tcs).map (Prod.mk c) ++ (deliverLog (bus.peers c) (net c).frame net ++
            (s.request.setLog Sr.tcs).map (Prod.mk c))
        else []
    | some .ier =>
      let s := { net c with ier := val &&& 0x0F#32 }
      s.raiseLog.map (Prod.mk c) ++ s.raise.lowerLog.map (Prod.mk c)
    | _ => []
  | .reset c => [(c, .irq false)]
  | .receive c frame => ((net c).receiveLog frame).map (Prod.mk c)

end Op

theorem frame_request_acknowledge (s : CanState) (val : Word) :
    (s.acknowledge val).request.frame = s.frame := by
  apply frame_congr <;> simp

theorem frame_request (s : CanState) : s.request.frame = s.frame :=
  frame_request_acknowledge s 0#32

namespace Clients.Spec

variable {κ : Type} {k : Clients κ} (spec : k.Spec) (bus : CanBusState ι) {c : ι} {s : CanState}
  {w : ι → κ}

theorem own_run {α : Type} {m : CanM α} {a : α} {t : CanState} {l : List Effect}
    (hc : w c = spec.controller s) (h : m s = some (a, t, l)) :
    on c (k.act m) w = some (a, Function.update w c (spec.controller t), l.map (Prod.mk c)) := by
  apply on_of_run
  rw [hc]
  exact spec.act_run h

theorem clearing_run (hc : w c = spec.controller s) (statusBit command : Word) :
    k.clearing c statusBit command w =
      some ((), Function.update w c (spec.controller
          { s.clearBit statusBit with cmr := (s.clearBit statusBit).cmr &&& ~~~command }),
        (s.clearLog statusBit).map (Prod.mk c)) := by
  rw [clearing, bind_of_run (spec.own_run hc (resetStatusBit_run s statusBit)),
    spec.own_run (Function.update_self c _ w) (modify_run _ _), after_some, Function.update_idem,
    List.map_nil, List.append_nil]

theorem acknowledging_run (hc : w c = spec.controller s) (val : Word) :
    k.acknowledging c val w =
      some ((), Function.update w c (spec.controller (s.acknowledge val)),
        (s.acknowledgeLog val).map (Prod.mk c)) := by
  have hrelease : k.clearing c Sr.rbs Cmr.rrb w = some ((), Function.update w c
      (spec.controller s.release), (s.clearLog Sr.rbs).map (Prod.mk c)) := spec.clearing_run hc _ _
  have hoverrun {u : ι → κ} {t : CanState} (ht : u c = spec.controller t) :
      k.clearing c Sr.dos Cmr.cdo u = some ((), Function.update u c
        (spec.controller t.clearOverrun), (t.clearLog Sr.dos).map (Prod.mk c)) :=
    spec.clearing_run ht _ _
  unfold acknowledging acknowledge acknowledgeLog
  cases has val Cmr.rrb with
  | false =>
    cases has val Cmr.cdo with
    | false =>
      have hsame : Function.update w c (spec.controller s) = w := by
        rw [← hc, Function.update_eq_self]
      simp [hsame]
    | true => simp [hoverrun hc]
  | true =>
    cases has val Cmr.cdo with
    | false => simp [bind_of_run hrelease]
    | true => simp [bind_of_run hrelease, hoverrun (Function.update_self c _ w)]

theorem requesting_run (hc : w c = spec.controller s) :
    k.requesting c w =
      some ((), Function.update w c (spec.controller s.request),
        (s.clearLog Sr.tcs).map (Prod.mk c)) := by
  rw [requesting, bind_of_run (spec.own_run hc (modify_run _ s)),
    spec.own_run (Function.update_self c _ w) (resetStatusBit_run _ Sr.tcs), after_some,
    Function.update_idem]
  rfl

theorem sending_run (hc : w c = spec.controller s) :
    k.sending bus c w =
      some ((), spec.deliver (bus.peers c) s.frame w, spec.deliverLog (bus.peers c) s.frame w) := by
  have hget : on c (k.act get) w = some (s, w, []) := by
    rw [spec.own_run hc (get_run s), ← hc, Function.update_eq_self]
    rfl
  rw [sending, bind_of_run hget, after_nil, bind_of_run (spec.canBusClientSend_run bus c s.frame w)]
  simp

theorem completing_run (hc : w c = spec.controller s) :
    k.completing c w =
      some ((), Function.update w c (spec.controller (s.setBit Sr.tcs)),
        (s.setLog Sr.tcs).map (Prod.mk c)) :=
  spec.own_run hc (setStatusBit_run s Sr.tcs)

theorem deliver_self (frame : QemuCanFrame) (w : ι → κ) :
    spec.deliver (bus.peers c) frame w c = w c := by
  simp [deliver, CanBusState.mem_peers]

theorem canTransmit_run (hc : w c = spec.controller s) :
    k.canTransmit bus c w =
      some ((), Function.update (spec.deliver (bus.peers c) s.frame w) c
          (spec.controller (s.setBit Sr.tcs)),
        spec.deliverLog (bus.peers c) s.frame w ++ (s.setLog Sr.tcs).map (Prod.mk c)) := by
  rw [canTransmit, bind_of_run (spec.sending_run bus hc),
    spec.completing_run ((spec.deliver_self bus s.frame w).trans hc), after_some]

def written (c : ι) (addr : Nat) (val : Word) (s : CanState) (w : ι → κ) : ι → κ :=
  Function.update
    (if Reg.ofAddr addr = some .cmr ∧ has val Cmr.tr then spec.deliver (bus.peers c) s.frame w
      else w)
    c (spec.controller (s.write val (Reg.ofAddr addr)))

def writtenLog (c : ι) (addr : Nat) (val : Word) (s : CanState) (w : ι → κ) : List (ι × Effect) :=
  match Reg.ofAddr addr with
  | some .cmr =>
    (s.acknowledgeLog val).map (Prod.mk c) ++
      if has val Cmr.tr then
        ((s.acknowledge val).clearLog Sr.tcs).map (Prod.mk c) ++
          (spec.deliverLog (bus.peers c) s.frame w ++
            ((s.acknowledge val).request.setLog Sr.tcs).map (Prod.mk c))
      else []
  | some .ier =>
    let s := { s with ier := val &&& 0x0F#32 }
    s.raiseLog.map (Prod.mk c) ++ s.raise.lowerLog.map (Prod.mk c)
  | _ => []

theorem canWrite_run (hc : w c = spec.controller s) (addr : Nat) (val : Word) :
    k.canWrite bus c addr val w =
      some ((), spec.written bus c addr val s w, spec.writtenLog bus c addr val s w) := by
  have hput (f : CanState → CanState) :
      on c (k.act (modify f)) w = some ((), Function.update w c (spec.controller (f s)), []) :=
    spec.own_run hc (modify_run f s)
  have hsame : Function.update w c (spec.controller s) = w := by
    rw [← hc, Function.update_eq_self]
  unfold canWrite written writtenLog
  cases hreg : Reg.ofAddr addr with
  | none => simp [write, hsame]
  | some r =>
    cases r with
    | tfi | tid | tda | tdb => simp [hput, write]
    | rfi | rid | rda | rdb | sr => simp [write, hsame]
    | ier =>
      dsimp only
      rw [bind_of_run (hput _), bind_of_run (spec.own_run (Function.update_self c _ w)
        (checkAndSetInterrupt_run _)), Function.update_idem,
        spec.own_run (Function.update_self c _ w) (checkAndClearInterrupt_run _)]
      simp [write]
    | cmr =>
      dsimp only
      rw [bind_of_run (spec.acknowledging_run hc val)]
      cases htr : has val Cmr.tr with
      | false => simp [write, command, htr]
      | true =>
        have hself : c ∉ bus.peers c := by simp [CanBusState.mem_peers]
        have hc' := Function.update_self c (spec.controller (s.acknowledge val)) w
        have hsend := spec.canTransmit_run bus
          (Function.update_self c (spec.controller (s.acknowledge val).request) w)
        rw [frame_request_acknowledge, spec.deliver_update hself, spec.deliverLog_update hself,
          Function.update_idem] at hsend
        simp only [if_true]
        rw [bind_of_run (spec.requesting_run hc'), Function.update_idem, hsend]
        simp [write, command, htr]

end Clients.Spec

def controllersSpec : controllers.Spec where
  controller s := s
  accepts _ _ := false
  offered frame s := s.received frame
  offerLog frame s := s.receiveLog frame
  act_run h := h
  ask s := ⟨true, rfl⟩
  refuse frame s h := by cases h
  take frame s _ := ⟨0, canReceive_run s frame, rfl⟩

omit [DecidableEq ι] in
theorem net_controller (net : Net ι) (c : ι) : net c = controllersSpec.controller (net c) := rfl

theorem canWrite_run (bus : CanBusState ι) (c : ι) (addr : Nat) (val : Word) (net : Net ι) :
    canWrite bus c addr val net =
      some ((), (Op.write c addr val).next bus net, (Op.write c addr val).log bus net) := by
  refine (controllersSpec.canWrite_run bus (net_controller net c) addr val).trans ?_
  have hnext : controllersSpec.written bus c addr val (net c) net =
      (Op.write c addr val).next bus net := by
    rw [Clients.Spec.written, Op.next, Op.sent?]
    split
    case isTrue => rfl
    case isFalse => rfl
  rw [hnext]
  rfl

theorem exec_eq (bus : CanBusState ι) (op : Op ι) (net : Net ι) :
    op.exec bus net = some ((), op.next bus net, op.log bus net) := by
  cases op with
  | read c addr =>
    simp [Op.exec, on, bind_run, canRead_run, Op.next, Op.log, Op.sent?, Op.target, Op.own]
  | write c addr val => exact canWrite_run bus c addr val net
  | reset c => simp [Op.exec, on, canReset_run, Op.next, Op.log, Op.sent?, Op.target, Op.own]
  | receive c frame =>
    simp [Op.exec, on, bind_run, canReceive_run, Op.next, Op.log, Op.sent?, Op.target, Op.own]

theorem step_iff {bus : CanBusState ι} {net net' : Net ι} {op : Op ι} {out : List (ι × Effect)} :
    (network bus).step net op out net' ↔ net' = op.next bus net ∧ out = op.log bus net := by
  simp only [network, System.ofActions, exec_eq, true_and, Option.some.injEq, Prod.mk.injEq]
  exact ⟨fun h => ⟨h.1.symm, h.2.symm⟩, fun h => ⟨h.1.symm, h.2.symm⟩⟩

theorem run_foldl {bus : CanBusState ι} {net net' : Net ι} {tr : Trace ι}
    (h : (network bus).Run net tr net') :
    net' = (tr.map Event.op).foldl (fun net op => op.next bus net) net := by
  induction h with
  | nil => rfl
  | snoc _ hstep ih =>
    obtain ⟨rfl, -⟩ := step_iff.mp hstep
    rw [List.map_append, List.foldl_append, ← ih]
    rfl

theorem next_target (bus : CanBusState ι) (net : Net ι) (op : Op ι) :
    op.next bus net op.target = op.own (net op.target) := Function.update_self _ _ _

theorem next_other {op : Op ι} {c : ι} (bus : CanBusState ι) (net : Net ι) (h : c ≠ op.target) :
    op.next bus net c =
      match op.sent? net with
      | some frame => if c ∈ bus.peers op.target then (net c).received frame else net c
      | none => net c := by
  rw [Op.next, Function.update_of_ne h]
  cases op.sent? net <;> rfl

theorem next_of_own {P : CanState → Prop} (own : ∀ {s : CanState} (op : Op ι), P s → P (op.own s))
    {bus : CanBusState ι} {net : Net ι} {c : ι} (op : Op ι) (h : P (net c)) :
    P (op.next bus net c) := by
  by_cases hc : c = op.target
  · subst hc
    rw [next_target]
    exact own op h
  · rw [next_other bus net hc]
    split
    · split
      · exact own (.receive c _) h
      · exact h
    · exact h

theorem run_of_own {P : CanState → Prop} (own : ∀ {s : CanState} (op : Op ι), P s → P (op.own s))
    {bus : CanBusState ι} {net net' : Net ι} {tr : Trace ι} {c : ι}
    (h : (network bus).Run net tr net') (h₀ : P (net c)) : P (net' c) := by
  refine h.preserves (I := fun net => P (net c)) h₀ fun hstep hnet => ?_
  obtain ⟨rfl, -⟩ := step_iff.mp hstep
  exact next_of_own own _ hnet

end QemuBoard.Can
