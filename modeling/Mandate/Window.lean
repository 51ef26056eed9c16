/-!
# Validity windows

A window is the time between two bounds, each of which may be open, included or excluded. Windows are
intersected bound by bound, and a violated window names the bound that is violated.
-/

namespace Mandate

/-- Seconds since the beginning of 1970. -/
abbrev Timestamp := UInt64

inductive Bound where
  | unbounded
  | included (time : Timestamp)
  | excluded (time : Timestamp)
  deriving DecidableEq, Repr

namespace Bound

/-- A time that is part of the window, or no bound. -/
def ofOption : Option Timestamp → Bound
  | some t => included t
  | none => unbounded

/-- Whether a time is late enough for a lower bound. -/
def admitsFrom : Bound → Timestamp → Bool
  | unbounded, _ => true
  | included t, now => t ≤ now
  | excluded t, now => t < now

/-- Whether a time is early enough for an upper bound. -/
def admitsUntil : Bound → Timestamp → Bool
  | unbounded, _ => true
  | included t, now => now ≤ t
  | excluded t, now => now < t

/-- The narrower of two lower bounds. -/
def later : Bound → Bound → Bound
  | unbounded, b => b
  | b, unbounded => b
  | included s, included t => included (max s t)
  | excluded s, excluded t => excluded (max s t)
  | excluded s, included t => if t ≤ s then excluded s else included t
  | included t, excluded s => if t ≤ s then excluded s else included t

/-- The narrower of two upper bounds. -/
def earlier : Bound → Bound → Bound
  | unbounded, b => b
  | b, unbounded => b
  | included s, included t => included (min s t)
  | excluded s, excluded t => excluded (min s t)
  | excluded s, included t => if s ≤ t then excluded s else included t
  | included t, excluded s => if s ≤ t then excluded s else included t

end Bound

structure Window where
  notBefore : Bound
  expiration : Bound
  deriving DecidableEq, Repr

namespace Window

/-- A bound that a time violates. -/
inductive Violation where
  | expired (expiration : Timestamp)
  | notValidBefore (start : Timestamp)
  deriving DecidableEq, Repr

def Violation.message : Violation → String
  | .expired t => "Expired on " ++ toString t
  | .notValidBefore t => "Not valid before " ++ toString t

/-- All times. -/
def unbounded : Window := ⟨.unbounded, .unbounded⟩

/-- The window between two times, both part of it. -/
def between (start finish : Option Timestamp) : Window := ⟨.ofOption start, .ofOption finish⟩

def intersect (a b : Window) : Window :=
  ⟨a.notBefore.later b.notBefore, a.expiration.earlier b.expiration⟩

/-- Whether the bounds are in order, which is asked only of two that are included. -/
def isValid (w : Window) : Bool :=
  match w.notBefore, w.expiration with
  | .included s, .included t => s ≤ t
  | _, _ => true

def contains (w : Window) (now : Timestamp) : Bool :=
  w.notBefore.admitsFrom now && w.expiration.admitsUntil now

/-- Refuses a time outside the window; a violated expiration is told first. -/
def check (w : Window) (now : Timestamp) : Except Violation Unit :=
  let start : Except Violation Unit :=
    match w.notBefore with
    | .included t => if now < t then .error (.notValidBefore t) else .ok ()
    | .excluded t => if now ≤ t then .error (.notValidBefore t) else .ok ()
    | .unbounded => .ok ()
  match w.expiration with
  | .included t => if t < now then .error (.expired t) else start
  | .excluded t => if t ≤ now then .error (.expired t) else start
  | .unbounded => start

def toText (w : Window) : String :=
  let start := match w.notBefore with
    | .included t | .excluded t => toString t
    | .unbounded => ""
  let finish := match w.expiration with
    | .included t => "=" ++ toString t
    | .excluded t => toString t
    | .unbounded => ""
  start ++ ".." ++ finish

end Window

end Mandate
