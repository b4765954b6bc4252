/-!
# Patterns on bytes

The patterns that globs stand for, and what is left of a text after a match at its start. A pattern
may match in several ways, so `rests` gives every remainder once; a text matches as a whole if one of
the remainders is empty.
-/

namespace TwigTemplate.Glob

/-- The separator of a path. -/
def slash : UInt8 := 47

inductive Pattern where
  /-- The empty text. -/
  | nothing
  /-- One byte of a set. -/
  | one (accepts : UInt8 → Bool)
  /-- Any number of bytes of a set. -/
  | run (accepts : UInt8 → Bool)
  | sequence (first second : Pattern)
  | either (left right : Pattern)

namespace Pattern

def byte (b : UInt8) : Pattern := .one (· == b)

def any : Pattern := .run fun _ => true

/-- Patterns one after the other. -/
def all : List Pattern → Pattern
  | [] => .nothing
  | p :: rest => .sequence p (all rest)

/-- One of several patterns, of which there is at least one. -/
def oneOf (p : Pattern) : List Pattern → Pattern
  | [] => p
  | q :: rest => .either p (oneOf q rest)

/-- Every way to go on after a run of bytes of a set. -/
def runRests (accepts : UInt8 → Bool) : List UInt8 → List (List UInt8)
  | [] => [[]]
  | b :: r => (b :: r) :: if accepts b then runRests accepts r else []

/-- Remainders of one text are the same when they are equally long. -/
def keepOnce (rests : List (List UInt8)) : List (List UInt8) :=
  rests.eraseDups

def rests : Pattern → List UInt8 → List (List UInt8)
  | .nothing, bs => [bs]
  | .one _, [] => []
  | .one accepts, b :: r => if accepts b then [r] else []
  | .run accepts, bs => runRests accepts bs
  | .sequence p q, bs => keepOnce ((rests p bs).flatMap (rests q))
  | .either p q, bs => keepOnce (rests p bs ++ rests q bs)

def isMatch (p : Pattern) (bs : List UInt8) : Bool :=
  (p.rests bs).any List.isEmpty

end Pattern

end TwigTemplate.Glob
