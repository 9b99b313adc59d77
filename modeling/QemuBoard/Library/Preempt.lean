import QemuBoard.Library.Program

namespace QemuBoard.Library

inductive Context
  | task | handler
  deriving DecidableEq

variable {S : Signature} {σ ε : Type}

/-- Who may move: the task only while no handler runs, and the handler is entered only where
`enter` holds. -/
def Context.May (enter : σ → Prop) (c : Config S σ Context) : Label S Context ε → Prop
  | .start .task _ | .answer .task _ _ => c.prog .handler = .ret ()
  | .start .handler _ => enter c.world
  | .answer .handler _ _ | .env _ => True

namespace Threads

def preemptive (M : Threads S σ Context ε) (enter : σ → Prop) :
    System (Config S σ Context) (Label S Context ε) Empty where
  step c l out c' := Context.May enter c l ∧ M.system.step c l out c'

variable {M : Threads S σ Context ε} {enter : σ → Prop} {c : Config S σ Context} {i : Context}
  {o : S.Op} {r : S.Res o} {w : σ}

theorem may_answer (h : i = .task → c.prog .handler = .ret ()) :
    Context.May enter c (.answer i o r : Label S Context ε) := by
  cases i with
  | task => exact h rfl
  | handler => trivial

theorem preemptive_call {k : S.Res o → Prog S Unit} (hi : c.prog i = .call o k)
    (hmay : i = .task → c.prog .handler = .ret ()) (hw : M.handle c.world o r w) :
    (M.preemptive enter).step c (.answer i o r) [] ⟨w, Function.update c.prog i (k r)⟩ :=
  ⟨may_answer hmay, rfl, .call hi hw⟩

theorem preemptive_pass {p : S.Res o → Bool} {k : S.Res o → Prog S Unit}
    (hi : c.prog i = .poll o p k) (hmay : i = .task → c.prog .handler = .ret ())
    (hw : M.handle c.world o r w) (hpass : p r = true) :
    (M.preemptive enter).step c (.answer i o r) [] ⟨w, Function.update c.prog i (k r)⟩ :=
  ⟨may_answer hmay, rfl, .pass hi hw hpass⟩

end Threads

end QemuBoard.Library
