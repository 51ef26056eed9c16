import Mandate.Capability
import Mandate.Did
import Mandate.Schema.Error
import Mandate.Window

/-!
# Failures

Why a capability is not authorized. A failure with causes collects what was tried, so the message is a
tree of reasons. Only an issuer that cannot be resolved ends the whole search; any other failure ends
one branch of it.
-/

namespace Mandate

/-- Why a rule or a validator objects. -/
structure Problem where
  message : String
  deriving DecidableEq, Repr

inductive Failure where
  | unknownCapability (capability : Capability)
  | malformedCapability (capability : Capability) (cause : Schema.Error)
  | escalatedCapability (claimed : Capability) (delegated : List Capability) (cause : Problem)
  | invalidAudience (delegation : Cid) (audience expected : Did)
  | expired (delegation : Cid) (expiration : Timestamp)
  | notValidBefore (delegation : Cid) (start : Timestamp)
  | unavailableProof (link : Cid) (cause : Option String)
  | invalidSignature (delegation : Cid) (issuer : Did)
  | unresolvablePrincipal (did : Did) (cause : String)
  | unprovenCapability (claim : List Capability) (issuer : Did)
  | revoked (delegation : Cid) (cause : Problem)
  | invalidClaim (claim : List Capability) (causes : List Failure)
  | unauthorized (capability : Capability) (causes : List Failure)

namespace Failure

def name : Failure → String
  | unknownCapability .. => "UnknownCapability"
  | malformedCapability .. => "MalformedCapability"
  | escalatedCapability .. => "EscalatedCapability"
  | invalidAudience .. => "InvalidAudience"
  | expired .. => "Expired"
  | notValidBefore .. => "NotValidBefore"
  | unavailableProof .. => "UnavailableProof"
  | invalidSignature .. => "InvalidSignature"
  | unresolvablePrincipal .. => "UnresolvablePrincipal"
  | unprovenCapability .. => "UnprovenCapability"
  | revoked .. => "Revoked"
  | invalidClaim .. => "InvalidClaim"
  | unauthorized .. => "Unauthorized"

/-- The failures that a failure collects. -/
def causes : Failure → List Failure
  | invalidClaim _ causes => causes
  | unauthorized _ causes => causes
  | _ => []

/-- Whether the failure ends the whole search. -/
def isFatal : Failure → Bool
  | unresolvablePrincipal .. => true
  | _ => false

mutual

/-- The failure and all below it, each before its causes. -/
def walk : Failure → List Failure
  | invalidClaim claim causes => invalidClaim claim causes :: walkAll causes
  | unauthorized capability causes => unauthorized capability causes :: walkAll causes
  | f => [f]

def walkAll : List Failure → List Failure
  | [] => []
  | f :: fs => walk f ++ walkAll fs

end

/-- One capability as it is, several in brackets. -/
def listText : List Capability → String
  | [c] => c.toText
  | cs => "[" ++ ", ".intercalate (cs.map Capability.toText) ++ "]"

/-- The message of a failure without that of its causes. -/
def headText : Failure → String
  | unknownCapability c => "Capability " ++ c.toText ++ " is not a known kind of capability"
  | malformedCapability c cause =>
    "Encountered malformed '" ++ c.ability ++ "' capability: " ++ c.toText ++ "\n" ++
      Text.indent cause.toText
  | escalatedCapability claimed delegated cause =>
    "Constraint violation: " ++ cause.message ++ "\n  claimed: " ++ claimed.toText ++
      "\n  delegated: " ++ listText delegated
  | invalidAudience delegation audience expected =>
    "Delegation " ++ delegation.toText ++ " is addressed to " ++ audience.toText ++ " instead of " ++
      expected.toText
  | expired delegation expiration =>
    "Delegation " ++ delegation.toText ++ " has expired on " ++ toString expiration
  | notValidBefore delegation start =>
    "Delegation " ++ delegation.toText ++ " is not valid before " ++ toString start
  | unavailableProof link cause =>
    "Linked proof " ++ link.toText ++ " is not included and could not be resolved" ++
      (match cause with
      | some reason => ": " ++ reason
      | none => "")
  | invalidSignature delegation issuer =>
    "Signature of delegation " ++ delegation.toText ++ " is not valid for issuer " ++ issuer.toText
  | unresolvablePrincipal did cause =>
    "Unable to resolve principal " ++ did.toText ++ ": " ++ cause
  | unprovenCapability claim issuer =>
    "Capability " ++ listText claim ++ " can not be (self) issued by " ++ issuer.toText ++
      " and no delegated capability was found"
  | revoked delegation cause =>
    "Authorization through delegation " ++ delegation.toText ++ " was rejected: " ++ cause.message
  | invalidClaim claim _ => "Capability " ++ listText claim ++ " is not authorized because:"
  | unauthorized capability _ => "Claim " ++ capability.toText ++ " is not authorized"

mutual

/-- The whole message: every cause is a list item below what it causes. -/
def describe : Failure → String
  | invalidClaim claim causes =>
    headText (invalidClaim claim []) ++ "\n" ++ Text.unlines (itemTexts causes)
  | unauthorized capability causes =>
    headText (unauthorized capability []) ++ "\n" ++ Text.unlines (itemTexts causes)
  | f => headText f

def itemTexts : List Failure → List String
  | [] => []
  | f :: fs => Text.listItem "    " (describe f) :: itemTexts fs

end

end Failure

end Mandate
