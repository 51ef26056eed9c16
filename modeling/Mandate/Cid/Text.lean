import Mandate.Cid.Wire
import Mandate.Text.Base32
import Mandate.Text.Base58

/-!
# Content identifiers as text

The first kind is written in base 58 and begins with `Qm`; the second kind is written in base 32 after
the letter `b`.
-/

namespace Mandate.Cid

def toText : Cid → String
  | c@(v0 ..) => String.ofList (Base58.encode c.toBytes)
  | c@(v1 ..) => String.ofList ('b' :: Base32.encode c.toBytes)

def ofText? (s : String) : Option Cid :=
  match s.toList with
  | 'Q' :: 'm' :: rest => (Base58.decode? ('Q' :: 'm' :: rest)).bind ofBytes?
  | 'b' :: digits => (Base32.decode? digits).bind ofBytes?
  | 'z' :: digits => (Base58.decode? digits).bind ofBytes?
  | _ => none

end Mandate.Cid
