import Mandate.Delegation

/-!
# Invocations

An invocation asks to exercise one capability now. It is a delegation of exactly that capability.
-/

namespace Mandate

structure Invocation where
  delegation : Delegation
  capability : Capability
  capabilities_eq : delegation.capabilities = [capability]

namespace Invocation

def ofDelegation (d : Delegation) : Except Delegation.Error Invocation :=
  match h : d.capabilities with
  | [c] => .ok ⟨d, c, h⟩
  | cs => .error (.notAnInvocation cs.length)

end Invocation

end Mandate
