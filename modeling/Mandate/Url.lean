/-!
# Uniform resource locators

A locator in normal form: lower-case scheme and host, no default port, no dot segments, and everything
that may not stand as it is percent-encoded.
-/

namespace Mandate

namespace Url

structure Authority where
  username : String
  password : String
  host : String
  port : Option Nat
  deriving DecidableEq, Repr

inductive Path where
  /-- Text without structure, as in a locator that names a mailbox. -/
  | verbatim (text : String)
  /-- Segments, each after a slash. -/
  | segments (parts : List String)
  deriving DecidableEq, Repr

end Url

structure Url where
  scheme : String
  authority : Option Url.Authority
  path : Url.Path
  query : Option String
  fragment : Option String
  deriving DecidableEq, Repr

namespace Url

def Authority.toText (a : Authority) : String :=
  let password := if a.password.isEmpty then "" else ":" ++ a.password
  let user := if a.username.isEmpty && a.password.isEmpty then "" else a.username ++ password ++ "@"
  let port := match a.port with
    | some p => ":" ++ toString p
    | none => ""
  user ++ a.host ++ port

def Path.toText : Path → String
  | verbatim text => text
  | segments parts => String.join (parts.map ("/" ++ ·))

/-- The text of a locator. Without an authority, a path may not look like one. -/
def toText (u : Url) : String :=
  let front := match u.authority with
    | some a => "//" ++ a.toText
    | none =>
      match u.path with
      | .segments ("" :: _ :: _) => "/."
      | _ => ""
  let query := match u.query with
    | some q => "?" ++ q
    | none => ""
  let fragment := match u.fragment with
    | some f => "#" ++ f
    | none => ""
  u.scheme ++ ":" ++ front ++ u.path.toText ++ query ++ fragment

end Url

end Mandate
