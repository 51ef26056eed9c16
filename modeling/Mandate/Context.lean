import Mandate.Authorization
import Mandate.Invocation
import Mandate.Citation.Cache

/-!
# Contexts

Everything that decides about an invocation besides the invocation itself.
-/

namespace Mandate

structure Context where
  /-- Selects what is to be authorized. -/
  selector : Selector
  directory : Directory
  /-- The audience that an invocation must have, if any. -/
  authority : Option Did
  /-- Looks up linked proofs, if anyone does. -/
  resolver : Option Resolver
  mayIssue : Issuance
  /-- Has the last word about a complete authorization. -/
  validate : Authorization → Except Problem Unit
  now : Timestamp

namespace Context

/-- Refuses a delegation outside its window. -/
def checkTime (ctx : Context) (d : Delegation) : Except Failure Unit :=
  match d.window.check ctx.now with
  | .ok () => .ok ()
  | .error (.expired t) => .error (.expired d.cid t)
  | .error (.notValidBefore t) => .error (.notValidBefore d.cid t)

/-- Refuses a delegation whose signature is not the issuer's. -/
def checkSignature (ctx : Context) (d : Delegation) : Except Failure Unit :=
  match d.verifySignature ctx.directory with
  | .ok () => .ok ()
  | .error (.resolution cause) => .error (.unresolvablePrincipal d.issuer cause)
  | .error .encoding => .error (.invalidSignature d.cid d.issuer)
  | .error .verification => .error (.invalidSignature d.cid d.issuer)

/-- Refuses a delegation that is not addressed to the expected principal. -/
def checkAudience (d : Delegation) (expected : Did) : Except Failure Unit :=
  if d.audience = expected then .ok () else .error (.invalidAudience d.cid d.audience expected)

/-- Refuses a proof that is not addressed to who cites it, out of time or badly signed. -/
def checkProof (ctx : Context) (citing proof : Delegation) : Except Failure Unit := do
  checkAudience proof citing.issuer
  ctx.checkTime proof
  ctx.checkSignature proof

/-- What is asked of an invocation before its capability is looked at. -/
def checkInvocation (ctx : Context) (i : Invocation) : Except Failure Unit := do
  ctx.checkSignature i.delegation
  match ctx.authority with
  | some authority => checkAudience i.delegation authority
  | none => pure ()
  match ctx.checkTime i.delegation with
  | .ok () => pure ()
  | .error f => throw (.unauthorized i.capability [f])

end Context

end Mandate
