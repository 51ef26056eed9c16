import Mandate.Text.Affix

/-!
# Decentralized identifiers

An identifier names a principal: a method, then what the method calls the principal. The method ends at
the first colon, so an identifier is determined by its text.
-/

namespace Mandate

structure Did where
  method : String
  identifier : String
  method_ne : method ≠ ""
  colon_notMem : ':' ∉ method.toList
  identifier_ne : identifier ≠ ""
  deriving DecidableEq

namespace Did

def toText (d : Did) : String := "did:" ++ d.method ++ ":" ++ d.identifier

/-- Why a text is not an identifier. -/
inductive ParseError where
  | noScheme (input : String)
  | incomplete (input : String)
  deriving DecidableEq, Repr

def ParseError.message : ParseError → String
  | .noScheme input => "invalid DID: expected did: prefix, got: " ++ input
  | .incomplete input => "invalid DID: expected did:method:identifier, got: " ++ input

def ofParts? (method identifier : String) : Option Did :=
  if h : method ≠ "" ∧ ':' ∉ method.toList ∧ identifier ≠ "" then
    some ⟨method, identifier, h.1, h.2.1, h.2.2⟩
  else none

def parse (s : String) : Except ParseError Did :=
  match Text.dropStart? "did:".toList s.toList with
  | none => .error (.noScheme s)
  | some rest =>
    match (Text.splitFirst? ':' rest).bind fun (method, identifier) =>
        ofParts? (String.ofList method) (String.ofList identifier) with
    | some d => .ok d
    | none => .error (.incomplete s)

end Did

end Mandate
