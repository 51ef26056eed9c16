import Mandate.Text.Affix
import Mandate.Url
import Mandate.Url.Path
import Mandate.Url.Percent

/-!
# Reading locators

Locators are read without a base to complete them. The schemes of the web and of files are special: they
need a host, take backslashes for slashes and never have an empty path. Hosts are names; letters beyond
ASCII and the notations of addresses are not given a meaning of their own.
-/

namespace Mandate.Url

inductive ParseError where
  | noScheme
  | emptyHost
  | invalidPort
  | invalidHost
  | invalidHostCharacter
  deriving DecidableEq, Repr

def ParseError.message : ParseError → String
  | .noScheme => "relative URL without a base"
  | .emptyHost => "empty host"
  | .invalidPort => "invalid port number"
  | .invalidHost => "invalid international domain name"
  | .invalidHostCharacter => "invalid domain character"

/-- The special schemes with their default ports. -/
def specialSchemes : List (String × Option Nat) :=
  [("http", some 80), ("https", some 443), ("ws", some 80), ("wss", some 443), ("ftp", some 21),
    ("file", none)]

def isSpecial (scheme : String) : Bool := (specialSchemes.lookup scheme).isSome

def defaultPort? (scheme : String) : Option Nat := (specialSchemes.lookup scheme).join

/-- The text without controls and blanks around it. -/
def trim (s : List Char) : List Char :=
  let isBlank := fun c : Char => c.toNat ≤ 32
  ((s.dropWhile isBlank).reverse.dropWhile isBlank).reverse

/-- The scheme in lower case, and what follows its colon. -/
def splitScheme? (s : List Char) : Option (String × List Char) := do
  let (scheme, rest) ← Text.splitFirst? ':' s
  let scheme := clean scheme
  let first ← scheme.head?
  if first.isAlpha && scheme.all fun c => c.isAlphanum || ['+', '-', '.'].contains c then
    some (String.ofList (scheme.map Char.toLower), rest)
  else none

/-- The text before the first character that ends a part, and the rest from that character on. -/
def splitBefore (stop : Char → Bool) (s : List Char) : List Char × List Char :=
  (s.takeWhile (!stop ·), s.dropWhile (!stop ·))

def isSlash (special : Bool) (c : Char) : Bool := c == '/' || (special && c == '\\')

/-- Whether a character ends the authority. -/
def endsAuthority (special : Bool) (c : Char) : Bool :=
  isSlash special c || c == '?' || c == '#'

/-- The text before the last occurrence of a character, and the text after it. -/
def splitLast? (c : Char) (s : List Char) : Option (List Char × List Char) :=
  (Text.splitFirst? c s.reverse).map fun (after, before) => (before.reverse, after.reverse)

/-- The host of a special scheme: percent-decoded and in lower case. -/
def readDomain (s : List Char) : Except ParseError String :=
  match Bytes.toString? (percentDecode s) with
  | none => .error .invalidHost
  | some text =>
    let forbidden := fun c : Char => c.toNat ≤ 32 || c.toNat = 127 ||
      ['#', '/', ':', '<', '>', '?', '@', '[', '\\', ']', '^', '|', '%'].contains c
    if text.toList.any forbidden then .error .invalidHost
    else .ok (String.ofList (text.toList.map Char.toLower))

/-- The host of another scheme, kept as it is apart from encoding. -/
def readOpaqueHost (s : List Char) : Except ParseError String :=
  let forbidden := fun c : Char => c.toNat = 0 ||
    [' ', '#', '/', ':', '<', '>', '?', '@', '[', '\\', ']', '^', '|'].contains c
  if s.any forbidden then .error .invalidHostCharacter
  else .ok (String.ofList (percentEncode isControl s))

/-- A port of at most 16 bits; none without digits. -/
def readPort (digits : List Char) : Except ParseError (Option Nat) :=
  if !digits.all Char.isDigit then .error .invalidPort
  else if digits.isEmpty then .ok none
  else
    let n := digits.foldl (fun n c => n * 10 + (c.toNat - 48)) 0
    if n < UInt16.size then .ok (some n) else .error .invalidPort

/-- The authority with a given user, read from the host on, and what follows the port. After a port, a
backslash ends the authority in any scheme. -/
def readHost (scheme : String) (user hostAndPort : List Char) :
    Except ParseError (Authority × List Char) := do
  let special := isSpecial scheme
  let (username, password) := (Text.splitFirst? ':' user).getD (user, [])
  let username := String.ofList (percentEncode inUserSet username)
  let password := String.ofList (percentEncode inUserSet password)
  let (hostText, portText) := (Text.splitFirst? ':' hostAndPort).getD (hostAndPort, [])
  let (portText, afterPort) := splitBefore (· == '\\') portText
  if hostText.isEmpty && (special || !(username.isEmpty && password.isEmpty) ||
      hostText.length < hostAndPort.length) then throw .emptyHost
  let host ← if special then readDomain hostText else readOpaqueHost hostText
  let number ← readPort portText
  let number := if number = defaultPort? scheme then none else number
  pure (⟨username, password, host, number⟩, afterPort)

/-- The authority in a text, and what follows it. -/
def readAuthority (scheme : String) (s : List Char) : Except ParseError (Authority × List Char) :=
  let (text, rest) := splitBefore (endsAuthority (isSpecial scheme)) s
  let withRest := Except.map fun (a, afterPort) => (a, afterPort ++ rest)
  match splitLast? '@' text with
  | none => withRest (readHost scheme [] text)
  | some (user, hostAndPort) =>
    if user.isEmpty && hostAndPort.isEmpty && !rest.isEmpty then .error .emptyHost
    else withRest (readHost scheme user hostAndPort)

/-- The query and the fragment at the end of a text. -/
def queryAndFragment (special : Bool) (s : List Char) : Option String × Option String :=
  let fragmentOf := fun f => String.ofList (percentEncode inFragmentSet f)
  match s with
  | '?' :: rest =>
    let (query, rest) := splitBefore (· == '#') rest
    (some (String.ofList (percentEncode (inQuerySet special) query)),
      match rest with
      | _ :: f => some (fragmentOf f)
      | [] => none)
  | '#' :: f => (none, some (fragmentOf f))
  | _ => (none, none)

/-- The segments of a text up to its query or fragment, whether they begin with a drive, and the rest. -/
def readPath (scheme : String) (s : List Char) : List String × Bool × List Char :=
  let (text, rest) := splitBefore (fun c => c == '?' || c == '#') s
  let (parts, drive) := pathSegments (scheme == "file") (isSlash (isSpecial scheme)) text
  (parts.map String.ofList, drive, clean rest)

/-- What follows the slash at the beginning of a text. -/
def afterSlash? (special : Bool) (s : List Char) : Option (List Char) :=
  match s.dropWhile isBreak with
  | c :: rest => if isSlash special c then some rest else none
  | [] => none

/-- A text without one slash at its beginning. -/
def dropSlash (special : Bool) (s : List Char) : List Char := (afterSlash? special s).getD s

def assemble (scheme : String) (a : Option Authority) (p : Path) (rest : List Char) : Url :=
  let (query, fragment) := queryAndFragment (isSpecial scheme) rest
  ⟨scheme, a, p, query, fragment⟩

/-- A locator with an authority, read from after the two slashes. -/
def parseAuthority (scheme : String) (s : List Char) : Except ParseError Url := do
  let special := isSpecial scheme
  let (a, rest) ← readAuthority scheme s
  match rest with
  | [] | '?' :: _ | '#' :: _ =>
    let parts := if special then [""] else []
    pure (assemble scheme (some a) (.segments parts) rest)
  | _ =>
    let (parts, _, rest) := readPath scheme (dropSlash special rest)
    pure (assemble scheme (some a) (.segments parts) rest)

/-- A locator of a file on a given machine, read from where the path begins. A drive leaves no room for the
name of a machine. -/
def parseFilePath (host : String) (s : List Char) : Url :=
  let (parts, drive, rest) := readPath "file" s
  let host := if drive then "" else host
  assemble "file" (some ⟨"", "", host, none⟩) (.segments parts) rest

/-- The machine that a file is on, and the path on it, read from after the two slashes. The machine that it
is read on is not named, and the path on it then begins with the slash after the name. -/
def readMachine (s : List Char) : Except ParseError (String × List Char) :=
  let (hostText, afterHost) := splitBefore (endsAuthority true) s
  let hostText := clean hostText
  if isDriveLetter hostText then .ok ("", s)
  else if hostText.isEmpty then .ok ("", afterHost)
  else
    (readDomain hostText).map fun host =>
      if host = "localhost" then ("", afterHost) else (host, dropSlash true afterHost)

/-- A locator of a file, read from after the colon. -/
def parseFile (s : List Char) : Except ParseError Url :=
  match (afterSlash? true s).bind (afterSlash? true) with
  | none => .ok (parseFilePath "" (dropSlash true s))
  | some s => (readMachine s).map fun (host, path) => parseFilePath host path

/-- A locator of a scheme that is not special, read from after the colon. -/
def parseOther (scheme : String) (s : List Char) : Except ParseError Url :=
  match s with
  | '/' :: '/' :: rest => parseAuthority scheme rest
  | '/' :: rest =>
    let (parts, _, rest) := readPath scheme rest
    .ok (assemble scheme none (.segments parts) rest)
  | _ =>
    let (text, rest) := splitBefore (fun c => c == '?' || c == '#') s
    let text := String.ofList (percentEncode isControl text)
    .ok (assemble scheme none (.verbatim text) rest)

/-- A locator of a given scheme, read from after the colon. -/
def parseRest (scheme : String) (s : List Char) : Except ParseError Url :=
  if scheme = "file" then parseFile s
  else if isSpecial scheme then parseAuthority scheme ((clean s).dropWhile (isSlash true))
  else parseOther scheme (clean s)

def parse (input : String) : Except ParseError Url :=
  match splitScheme? (trim input.toList) with
  | none => .error .noScheme
  | some (scheme, s) => parseRest scheme s

end Mandate.Url
