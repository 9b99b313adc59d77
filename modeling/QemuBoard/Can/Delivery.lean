import QemuBoard.Can.BusLaws

/-! A bus with clients of any kind. The bus knows a client by the two callbacks of its
`CanBusClientInfo`, and folds what the `receive` callbacks return into one result, of which
`can_transmit` takes no notice. -/

namespace QemuBoard.Can

open Library Action CanState

variable {ι τ α : Type}

/-- The callbacks of a client that is not one of the controllers. `keeps` tells whether `receive`
puts the frame where the client's side finds it, which the bus does not see. -/
structure CanBusClientInfo (τ : Type) where
  canReceive : τ → Bool
  receive : QemuCanFrame → τ → Int × τ
  keeps : QemuCanFrame → τ → Bool

inductive Client (τ : Type)
  | controller (s : CanState)
  | other (t : τ)

abbrev Population (ι τ : Type) := ι → Client τ

namespace Client

def act (m : CanM α) : Action (Client τ) Effect α
  | .controller s => (m s).map fun (a, t, l) => (a, .controller t, l)
  | .other _ => none

theorem act_of_run {m : CanM α} {s t : CanState} {a : α} {l : List Effect}
    (h : m s = some (a, t, l)) : act m (.controller s : Client τ) = some (a, .controller t, l) := by
  simp [act, h]

variable (info : CanBusClientInfo τ) (frame : QemuCanFrame)

def canReceive : Action (Client τ) Effect Bool
  | .controller s => act canCanReceive (.controller s)
  | .other t => some (info.canReceive t, .other t, [])

def receive : Action (Client τ) Effect Int
  | .controller s => act (Can.canReceive frame) (.controller s)
  | .other t => some ((info.receive frame t).1, .other (info.receive frame t).2, [])

end Client

def mixed (info : CanBusClientInfo τ) : Clients (Client τ) where
  canReceive := Client.canReceive info
  receive := Client.receive info
  act := Client.act

namespace Client

variable (info : CanBusClientInfo τ) (frame : QemuCanFrame)

def offered : Client τ → Client τ
  | .controller s => .controller (s.received frame)
  | .other t => if info.canReceive t then .other (info.receive frame t).2 else .other t

def offerLog : Client τ → List Effect
  | .controller s => s.receiveLog frame
  | .other _ => []

/-- A client for which the bus returns one. The callback of a controller returns zero. -/
def accepts : Client τ → Bool
  | .controller _ => false
  | .other t => info.canReceive t && decide ((info.receive frame t).1 > 0)

def keeps : Client τ → Bool
  | .controller _ => true
  | .other t => info.canReceive t && info.keeps frame t

def Stored : Client τ → Client τ → Prop
  | .controller _, .controller s => s.rxBuffer = frame.encode ∧ has s.sr Sr.rbs = true
  | .other t, .other _ => info.canReceive t = true ∧ info.keeps frame t = true
  | _, _ => False

variable {info frame}

theorem stored_offered (x : Client τ) :
    Stored info frame x (x.offered info frame) ↔ x.keeps info frame = true := by
  cases x with
  | controller s => simp [offered, Stored, keeps, rxBuffer]
  | other t =>
    cases hcan : info.canReceive t <;> simp [offered, Stored, keeps, hcan]

end Client

def mixedSpec (info : CanBusClientInfo τ) : (mixed info).Spec where
  controller := .controller
  accepts frame x := x.accepts info frame
  offered frame x := x.offered info frame
  offerLog frame x := x.offerLog frame
  act_run := Client.act_of_run
  ask x := by
    cases x with
    | controller s => exact ⟨true, rfl⟩
    | other t => exact ⟨info.canReceive t, rfl⟩
  refuse frame x h := by
    cases x with
    | controller s => cases h
    | other t =>
      have hcan : info.canReceive t = false := by simpa [mixed, Client.canReceive] using h
      simp [Client.accepts, Client.offered, Client.offerLog, hcan]
  take frame x h := by
    cases x with
    | controller s => exact ⟨0, Client.act_of_run (canReceive_run s frame), rfl⟩
    | other t =>
      have hcan : info.canReceive t = true := by simpa [mixed, Client.canReceive] using h
      refine ⟨(info.receive frame t).1, ?_, ?_⟩
      · simp [mixed, Client.receive, Client.offered, Client.offerLog, hcan]
      · simp [Client.accepts, hcan]

section SocketCan

def qemuCanFrmfTypeFd : Byte := 0x10#8

def canMtu : Nat := 16

def canfdMtu : Nat := 72

/-- The client that hands frames to a network of the host, `net/can/can_socketcan.c`: `write` is
what the call of the host returns, and `taken` are the frames that the host has in full. -/
structure CanHostSocketCan where
  fd : Int
  fdMode : Bool
  write : QemuCanFrame → Nat → Int
  taken : List QemuCanFrame

def canHostSocketcanReceive (frame : QemuCanFrame) (ch : CanHostSocketCan) :
    Int × CanHostSocketCan :=
  if ch.fd < 0 then
    (-1, ch)
  else if has frame.flags qemuCanFrmfTypeFd && !ch.fdMode then
    (0, ch)
  else
    let len := if has frame.flags qemuCanFrmfTypeFd then canfdMtu else canMtu
    let res := ch.write frame len
    if res = 0 then
      (-1, ch)
    else if res ≠ len then
      (-1, ch)
    else
      (1, { ch with taken := ch.taken ++ [frame] })

def canHostSocketcan : CanBusClientInfo CanHostSocketCan where
  canReceive _ := true
  receive := canHostSocketcanReceive
  keeps frame ch := decide ((canHostSocketcanReceive frame ch).2.taken = ch.taken ++ [frame])

theorem pos_canHostSocketcanReceive (frame : QemuCanFrame) (ch : CanHostSocketCan) :
    (canHostSocketcanReceive frame ch).1 > 0 ↔ canHostSocketcan.keeps frame ch = true := by
  simp only [canHostSocketcan, canHostSocketcanReceive]
  split_ifs <;> simp

theorem accepts_canHostSocketcan {frame : QemuCanFrame} {x : Client CanHostSocketCan} :
    x.accepts canHostSocketcan frame = true ↔
      ∃ ch, x = .other ch ∧ canHostSocketcan.keeps frame ch = true := by
  cases x with
  | controller s => simp [Client.accepts]
  | other ch =>
    have hpos : (canHostSocketcan.receive frame ch).1 > 0 ↔ _ :=
      pos_canHostSocketcanReceive frame ch
    have hcan : canHostSocketcan.canReceive ch = true := rfl
    simp [Client.accepts, hcan, ← hpos]

end SocketCan

namespace Population

def ofNet (net : Net ι) : Population ι τ := fun j => .controller (net j)

variable [DecidableEq ι] (info : CanBusClientInfo τ)

theorem canWrite_ofNet (bus : CanBusState ι) (c : ι) (addr : Nat) (val : Word) (net : Net ι) :
    (mixed info).canWrite bus c addr val (ofNet net) =
      some ((), ofNet ((Op.write c addr val).next bus net), (Op.write c addr val).log bus net) := by
  have hnext : (mixedSpec info).written bus c addr val (net c) (ofNet net) =
      ofNet ((Op.write c addr val).next bus net) := by
    funext j
    rw [Clients.Spec.written, ofNet]
    by_cases hj : j = c
    · subst hj
      rw [Function.update_self]
      exact congrArg Client.controller (next_target bus net (.write j addr val)).symm
    · have hne : j ≠ (Op.write c addr val).target := hj
      rw [Function.update_of_ne hj, next_other bus net hne, Op.sent?]
      split
      case isTrue => exact (apply_ite Client.controller _ _ _).symm
      case isFalse => rfl
  exact ((mixedSpec info).canWrite_run bus rfl addr val).trans (by rw [hnext]; rfl)

section Sender

variable {c : ι} {s : CanState} {w : Population ι τ}

theorem result_eq_one_iff {bus : CanBusState ι} {frame : QemuCanFrame} :
    (mixedSpec info).result bus c frame w = 1 ↔
      ∃ j ∈ bus.peers c, (w j).accepts info frame = true := by
  rw [Clients.Spec.result, ← List.any_eq_true]
  by_cases h : c ∈ bus.clients
  · rw [if_pos h]
    change (if (bus.peers c).any fun j => (w j).accepts info frame then _ else _) = _ ↔ _
    cases (bus.peers c).any fun j => (w j).accepts info frame <;> simp
  · rw [if_neg h]
    simp [CanBusState.peers, h]

theorem update_of_mem_peers {bus : CanBusState ι} {j : ι} (hj : j ∈ bus.peers c) (x : Client τ) :
    Function.update w c x j = w j :=
  Function.update_of_ne (CanBusState.mem_peers.mp hj).2.2 x w

theorem requesting_eval (hc : w c = .controller s) :
    ((mixed info).requesting c).eval w =
      some ((), Function.update w c (.controller s.request)) :=
  eval_of_run ((mixedSpec info).requesting_run hc)

theorem canWrite_eval (bus : CanBusState ι) (hc : w c = .controller s) :
    ((mixed info).canWrite bus c 0x24 Cmr.tr).eval w =
      some ((), Function.update ((mixedSpec info).deliver (bus.peers c) s.frame w) c
        (.controller (s.request.setBit Sr.tcs))) :=
  eval_of_run ((mixedSpec info).canWrite_run bus hc 0x24 Cmr.tr)

end Sender

def Complete : Client τ → Prop
  | .controller s => has s.sr Sr.tcs = true
  | .other _ => False

structure TcsOnly (c : ι) (w w' : Population ι τ) : Prop where
  others : ∀ j, j ≠ c → w' j = w j
  sender : ∃ s s', w c = .controller s ∧ w' c = .controller s' ∧
    s' = { s with sr := s'.sr, irq := s'.irq } ∧ s'.sr &&& ~~~Sr.tcs = s.sr &&& ~~~Sr.tcs

/-- The documented status of a write of TR: complete if another client has stored the frame, as
the result of the bus tells, and incomplete and without effect if none has. -/
def TcsReports (bus : CanBusState ι) (c : ι) (w : Population ι τ) : Prop :=
  ∃ s u v w' ret, ((mixed info).requesting c).eval w = some ((), u) ∧ u c = .controller s ∧
    ((mixed info).canBusClientSend bus c s.frame).eval u = some (ret, v) ∧
    ((mixed info).canWrite bus c 0x24 Cmr.tr).eval w = some ((), w') ∧
    ((∃ j ∈ bus.peers c, Client.Stored info s.frame (w j) (w' j)) → ret = 1 ∧ Complete (w' c)) ∧
    ((¬ ∃ j ∈ bus.peers c, Client.Stored info s.frame (w j) (w' j)) →
      ¬ Complete (w' c) ∧ TcsOnly c w w')

section Report

variable {info} {bus : CanBusState ι} {c : ι} {s : CanState} {w : Population ι τ}

theorem exists_stored_iff (frame : QemuCanFrame) (x : Client τ) :
    (∃ j ∈ bus.peers c,
      Client.Stored info frame (w j)
        (Function.update ((mixedSpec info).deliver (bus.peers c) frame w) c x j)) ↔
      ∃ j ∈ bus.peers c, (w j).keeps info frame = true := by
  apply exists_congr
  intro j
  apply and_congr_right
  intro hj
  rw [update_of_mem_peers hj, Clients.Spec.deliver, if_pos hj]
  exact Client.stored_offered (w j)

theorem result_update_eq_one_iff (frame : QemuCanFrame) (x : Client τ) :
    (mixedSpec info).result bus c frame (Function.update w c x) = 1 ↔
      ∃ j ∈ bus.peers c, (w j).accepts info frame = true := by
  rw [result_eq_one_iff]
  apply exists_congr
  intro j
  apply and_congr_right
  intro hj
  rw [update_of_mem_peers hj]

theorem complete_sent (w : Population ι τ) (c : ι) (s : CanState) :
    Complete (Function.update w c (.controller (s.setBit Sr.tcs)) c) := by
  simp [Complete]

theorem TcsReports.kept_and_accepted (h : TcsReports info bus c w) (hc : w c = .controller s) :
    (∃ j ∈ bus.peers c, (w j).keeps info s.frame = true) ∧
      ∃ j ∈ bus.peers c, (w j).accepts info s.frame = true := by
  obtain ⟨s', u, v, w', ret, hu, hs', hsend, hwrite, hyes, hno⟩ := h
  cases (requesting_eval info hc).symm.trans hu
  obtain rfl : s.request = s' := by simpa using hs'
  rw [frame_request] at hsend hyes hno
  cases (eval_of_run ((mixedSpec info).canBusClientSend_run bus c _ _)).symm.trans hsend
  cases (canWrite_eval info bus hc).symm.trans hwrite
  -- TCS is set, so it was not the second case
  have hkept := by_contra fun h => (hno h).1 (complete_sent _ c _)
  exact ⟨(exists_stored_iff _ _).mp hkept, (result_update_eq_one_iff _ _).mp (hyes hkept).1⟩

theorem TcsReports.of_kept_of_accepted (hc : w c = .controller s)
    (hkeeps : ∃ j ∈ bus.peers c, (w j).keeps info s.frame = true)
    (haccepts : ∃ j ∈ bus.peers c, (w j).accepts info s.frame = true) :
    TcsReports info bus c w := by
  have hsend := eval_of_run ((mixedSpec info).canBusClientSend_run bus c s.frame
    (Function.update w c (.controller s.request)))
  have hstored := (exists_stored_iff s.frame (.controller (s.request.setBit Sr.tcs))).mpr hkeeps
  have hone := (result_update_eq_one_iff s.frame (.controller s.request)).mpr haccepts
  have hwrite := canWrite_eval info bus hc
  rw [← frame_request] at hsend hstored hone hwrite
  exact ⟨s.request, _, _, _, _, requesting_eval info hc, Function.update_self c _ w, hsend, hwrite,
    fun _ => ⟨hone, complete_sent _ c _⟩, fun h => absurd hstored h⟩

end Report

/-- The status is right exactly if another client keeps the frame, and one that is not a
controller accepts it: TCS is set in any case, and of a controller the bus learns nothing. -/
theorem tcs_reports_iff {info : CanBusClientInfo τ} {bus : CanBusState ι} {c : ι} {s : CanState}
    {w : Population ι τ} (hc : w c = .controller s) :
    TcsReports info bus c w ↔
      (∃ j ∈ bus.peers c, (w j).keeps info s.frame = true) ∧
      ∃ j ∈ bus.peers c, (w j).accepts info s.frame = true := by
  constructor
  · intro h
    exact h.kept_and_accepted hc
  · rintro ⟨hkeeps, haccepts⟩
    exact .of_kept_of_accepted hc hkeeps haccepts

def withHost : Population (Fin 2) CanHostSocketCan :=
  Function.update (Population.ofNet Net.reset) can1
    (.other { fd := 3, fdMode := false, write := fun _ len => len, taken := [] })

theorem tcs_reports_host :
    withHost can0 = .controller (.zero false) ∧
      TcsReports canHostSocketcan boardBus can0 withHost := by
  have hc : withHost can0 = .controller (.zero false) := rfl
  exact ⟨hc, (tcs_reports_iff hc).mpr ⟨⟨can1, by decide, rfl⟩, can1, by decide, rfl⟩⟩

/-- Between the two controllers of the board the bus returns zero, and without a bus TCS is set as
well. -/
theorem tcs_not_reported :
    ¬ TcsReports canHostSocketcan boardBus can0 (.ofNet Net.reset) ∧
    ¬ TcsReports canHostSocketcan ⟨[], List.nodup_nil⟩ can0 (.ofNet Net.reset) := by
  constructor
  · intro h
    obtain ⟨j, -, haccepts⟩ := (h.kept_and_accepted rfl).2
    cases haccepts
  · intro h
    obtain ⟨j, hj, -⟩ := (h.kept_and_accepted rfl).1
    cases hj

theorem tcsReports_canHostSocketcan {bus : CanBusState ι} {c : ι} {s : CanState}
    {w : Population ι CanHostSocketCan} (hc : w c = .controller s) :
    TcsReports canHostSocketcan bus c w ↔
      ∃ j ∈ bus.peers c, ∃ ch, w j = .other ch ∧ canHostSocketcan.keeps s.frame ch = true := by
  have hhost : (∃ j ∈ bus.peers c, (w j).accepts canHostSocketcan s.frame = true) ↔
      ∃ j ∈ bus.peers c, ∃ ch, w j = .other ch ∧ canHostSocketcan.keeps s.frame ch = true := by
    simp only [accepts_canHostSocketcan]
  rw [← hhost]
  constructor
  · intro h
    exact (h.kept_and_accepted hc).2
  · intro h
    obtain ⟨j, hj, ch, hch, hkeeps⟩ := hhost.mp h
    refine .of_kept_of_accepted hc ⟨j, hj, ?_⟩ h
    rw [hch, Client.keeps, hkeeps]
    rfl

end Population

end QemuBoard.Can
