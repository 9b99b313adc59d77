import QemuBoard.Uart.Interrupt

namespace QemuBoard.Uart

open Library UartState

abbrev Control.ie : Word := bit 32 8

/-- Calls of the two status helpers as the device makes them: ROE, TOE and the three
occupancy bits are set, only the occupancy bits are cleared. -/
inductive Moves (x : Word) : Word → Prop
  | refl : Moves x x
  | set {y : Word} (i : Nat) (hi : 3 ≤ i ∧ i ≤ 7) : Moves x y → Moves x (withE (y ||| bit 32 i))
  | clear {y : Word} (i : Nat) (hi : 5 ≤ i ∧ i ≤ 7) : Moves x y → Moves x (y &&& ~~~bit 32 i)

namespace Moves

theorem trans {x y z : Word} (h : Moves x y) (h' : Moves y z) : Moves x z := by
  induction h' with
  | refl => exact h
  | set i hi _ ih => exact .set i hi ih
  | clear i hi _ ih => exact .clear i hi ih

theorem loadShift (s : UartState) (now : Nat) : Moves s.status (s.loadShift now).status :=
  .set 6 (by decide) (.clear 5 (by decide) .refl)

theorem next {op : Op} (s : UartState) (hop : op.Steady) : Moves s.status (op.next s).status := by
  cases op with
  | read addr =>
    simp only [Op.next]
    split
    · exact .clear 7 (by decide) .refl
    · exact .refl
  | write now addr val =>
    simp only [Op.next]
    split
    case h_1 =>
      split
      · exact loadShift { s with txdata := val } now
      · split
        · exact .clear 6 (by decide) .refl
        · exact .set 4 (by decide) .refl
    case h_2 hreg => exact absurd hreg hop
    all_goals exact .refl
  | receive now buf =>
    simp only [Op.next]
    split <;> exact .refl
  | timeoutRx =>
    simp only [Op.next]
    split
    · exact .set 3 (by decide) .refl
    · exact .set 7 (by decide) .refl
  | timeoutTx now =>
    simp only [Op.next]
    split
    · exact .set 5 (by decide) .refl
    · exact loadShift (s.disarm .tx) now
  | reset now input => exact hop.elim

theorem sticky {x y : Word} (h : Moves x y) {j : Nat} (hj : j = 3 ∨ j = 4 ∨ j = 8)
    (hx : has x (bit 32 j) = true) : has y (bit 32 j) = true := by
  induction h with
  | refl => exact hx
  | @set y i hi _ ih =>
    have hor : has (y ||| bit 32 i) (bit 32 j) = true := by rw [has_or, ih, Bool.true_or]
    rcases withE_cases (y ||| bit 32 i) with he | he
    · rw [he, hor]
    · rw [he, has_or, hor, Bool.true_or]
  | @clear y i hi _ ih =>
    have hij : i ≠ j := by omega
    rw [has_clear_bit, ih, decide_eq_true hij, Bool.true_and]

end Moves

structure Clean (x : Word) : Prop where
  unused : ∀ i, i < 3 ∨ 8 < i → x.getLsbD i = false
  derived : has x Status.e = (has x Status.roe || has x Status.toe)

namespace Clean

theorem has_errorBits {x : Word} (h : ∀ i, i < 3 ∨ 8 < i → x.getLsbD i = false) :
    has x errorBits = (has x Status.roe || has x Status.toe) := by
  have hor : has x errorBits = (has x Status.pe || has x Status.fe || has x Status.brk ||
      has x Status.roe || has x Status.toe) := by
    simp only [has_comm x, errorBits, has_or]
  have hlow : ∀ i < 3, has x (bit 32 i) = false := by
    intro i hi
    rw [has_bit, h i (.inl hi)]
  rw [hor, hlow 0 (by decide), hlow 1 (by decide), hlow 2 (by decide)]
  simp

theorem withE {x : Word} (h : ∀ i, i < 3 ∨ 8 < i → x.getLsbD i = false)
    (he : has x Status.e = true → (has x Status.roe || has x Status.toe) = true) :
    Clean (withE x) := by
  have herr := has_errorBits h
  unfold Uart.withE
  split
  case isTrue hx =>
    constructor
    · intro i hi
      have hi8 : 8 ≠ i := by omega
      rw [BitVec.getLsbD_or, h i hi, ← has_bit, has_bit_bit]
      simp [hi8]
    · rw [herr] at hx
      simpa using hx
  case isFalse hx =>
    refine ⟨h, ?_⟩
    rw [herr, Bool.not_eq_true] at hx
    rw [hx]
    cases hE : has x Status.e with
    | false => rfl
    | true => simp [he hE] at hx

theorem moves {x y : Word} (hx : Clean x) (h : Moves x y) : Clean y := by
  induction h with
  | refl => exact hx
  | @set y i hi _ ih =>
    apply Clean.withE
    · intro j hj
      have hij : i ≠ j := by omega
      rw [BitVec.getLsbD_or, ih.unused j hj, ← has_bit, has_bit_bit]
      simp [hij]
    · have hi8 : i ≠ 8 := by omega
      intro he
      rw [has_or, has_bit_bit, decide_eq_false (fun h => hi8 h.1), Bool.or_false, ih.derived] at he
      rw [has_or, has_or]
      rcases Bool.or_eq_true_iff.mp he with hroe | htoe
      · simp [hroe]
      · simp [htoe]
  | @clear y i hi _ ih =>
    have hbits : i ≠ 3 ∧ i ≠ 4 ∧ i ≠ 8 := by omega
    constructor
    · intro j hj
      rw [BitVec.getLsbD_and, ih.unused j hj, Bool.false_and]
    · rw [has_clear_bit, has_clear_bit, has_clear_bit, ih.derived]
      simp [hbits]

theorem reset (s : UartState) (now : Nat) (input : List Byte) :
    Clean (Op.next s (.reset now input)).status := by
  have hst : (Op.next s (.reset now input)).status = Status.trdy ||| Status.tmt := by
    cases input <;> rfl
  rw [hst]
  constructor
  · intro i hi
    have hbits : 5 ≠ i ∧ 6 ≠ i := by omega
    rw [BitVec.getLsbD_or, ← has_bit, ← has_bit, has_bit_bit, has_bit_bit]
    simp [hbits]
  · decide

end Clean

def Op.overruns (s : UartState) : Op → Bool
  | .timeoutRx => has s.status Status.rrdy
  | .write _ addr _ =>
    Reg.ofAddr addr = some .txdata && !has s.status Status.tmt && !has s.status Status.trdy
  | .read _ | .receive _ _ | .timeoutTx _ | .reset _ _ => false

theorem has_withE_or {x b : Word} (hb : has b errorBits = true) :
    has (withE (x ||| b)) Status.e = true := by
  have herr : has (x ||| b) errorBits = true := by rw [has_or, hb, Bool.or_true]
  rw [withE, if_pos herr, has_or]
  simp

theorem has_e_of_overruns {s : UartState} {op : Op} (h : op.overruns s = true) :
    has (op.next s).status Status.e = true := by
  cases op with
  | timeoutRx =>
    have hrrdy : has s.status Status.rrdy = true := h
    rw [Op.next, if_pos hrrdy]
    exact has_withE_or (by decide)
  | write now addr val =>
    obtain ⟨⟨hreg, htmt⟩, htrdy⟩ :
        (Reg.ofAddr addr = some .txdata ∧ has s.status Status.tmt = false) ∧
          has s.status Status.trdy = false := by
      simpa [Op.overruns] using h
    simp only [Op.next, hreg, htmt, htrdy, Bool.false_eq_true, if_false]
    exact has_withE_or (by decide)
  | read addr | receive now buf | timeoutTx now | reset now input => cases h

theorem run_moves {s t : UartState} {tr : Trace} (h : (device.restrict Op.Plain).Run s tr t) :
    ∀ e ∈ tr, Moves e.pre.status (e.op.next e.pre).status ∧
      Moves (e.op.next e.pre).status t.status := by
  induction h with
  | nil => simp
  | @snoc tr t op out u _ hstep ih =>
    obtain ⟨hop, hdev⟩ := hstep
    obtain ⟨-, -, rfl, -⟩ := step_iff.mp hdev
    have hmoves := Moves.next t hop.steady
    simp only [List.forall_mem_append, List.forall_mem_singleton]
    exact ⟨fun e he => ⟨(ih e he).1, (ih e he).2.trans hmoves⟩, hmoves, .refl⟩

theorem run_clean {s t : UartState} {tr : Trace} (h : (device.restrict Op.Plain).Run s tr t)
    (hs : Clean s.status) : Clean t.status := by
  refine h.preserves (I := fun u => Clean u.status) hs fun hstep hu => ?_
  obtain ⟨hop, hdev⟩ := hstep
  obtain ⟨-, -, rfl, -⟩ := step_iff.mp hdev
  exact hu.moves (.next _ hop.steady)

/-- From a reset, through any order of accesses other than writes of STATUS, received bytes and
expirations. -/
theorem error_bits_sticky {s s₀ t : UartState} {now : Nat} {input : List Byte} {out : List Effect}
    {tr : Trace} (hreset : uartReset now input s = some ((), s₀, out))
    (hrun : (device.restrict Op.Plain).Run s₀ tr t) :
    (has t.status Status.pe = false ∧ has t.status Status.fe = false ∧
      has t.status Status.brk = false) ∧
    (∀ i, 8 < i → t.status.getLsbD i = false) ∧
    (has t.status Status.e = true ↔
      has t.status Status.roe = true ∨ has t.status Status.toe = true) ∧
    (∀ e ∈ tr, ∀ b ∈ [Status.roe, Status.toe, Status.e],
      has e.pre.status b = true → has t.status b = true) ∧
    ∀ e ∈ tr, e.op.overruns e.pre = true → has t.control Control.ie = true → t.irq = true := by
  obtain ⟨rfl, -⟩ := uartReset_eq_some hreset
  have hclean := run_clean hrun (.reset s now input)
  have hmoves := run_moves hrun
  have hlevel : Level t := (hrun.mono And.right).preserves (.reset s now input) .step
  refine ⟨⟨?_, ?_, ?_⟩, fun i hi => hclean.unused i (.inr hi), ?_, ?_, ?_⟩
  · rw [has_bit, hclean.unused 0 (.inl (by decide))]
  · rw [has_bit, hclean.unused 1 (.inl (by decide))]
  · rw [has_bit, hclean.unused 2 (.inl (by decide))]
  · rw [hclean.derived, Bool.or_eq_true_iff]
  · intro e he b hb hpre
    have hall := (hmoves e he).1.trans (hmoves e he).2
    simp only [List.mem_cons, List.not_mem_nil, or_false] at hb
    rcases hb with rfl | rfl | rfl
    · exact hall.sticky (.inl rfl) hpre
    · exact hall.sticky (.inr (.inl rfl)) hpre
    · exact hall.sticky (.inr (.inr rfl)) hpre
  · intro e he hover hie
    have hE := (hmoves e he).2.sticky (.inr (.inr rfl)) (has_e_of_overruns hover)
    rw [hlevel, has_iff]
    intro hzero
    -- IE and E are the same bit of the two words
    have hbit : (t.control &&& t.status).getLsbD 8 = (0#32).getLsbD 8 := by rw [hzero]
    rw [has_bit] at hE hie
    rw [BitVec.getLsbD_and, hE, hie] at hbit
    cases hbit

theorem error_bits_sticky_overrun : ∃ s₀ out tr t,
    uartReset 0 [] uartInit = some ((), s₀, out) ∧ (device.restrict Op.Plain).Run s₀ tr t ∧
    t.irq = true ∧ has t.status Status.rrdy = false ∧ has t.status Status.pe = false := by
  have hrun : (device.restrict Op.Plain).Run _ _ _ :=
    .replay (Op.next uartInit (.reset 0 []))
      [.write 1 0x0C Control.ie, .receive 2 0x61#8, .timeoutRx, .receive 3 0x62#8, .timeoutRx,
        .read 0x00] rfl (by decide)
  have h := error_bits_sticky (rfl : uartReset 0 [] uartInit = _) hrun
  exact ⟨_, _, _, _, rfl, hrun,
    h.2.2.2.2 _ (List.mem_append_right [_, _, _, _] (by simp; exact .inl rfl)) (by decide)
      (by decide), by decide, h.1.1⟩

end QemuBoard.Uart
