/-! The console: a finite queue of inputs and a log of outputs. -/
namespace WordMachine

/-- A word sent to the console and the cell it came from. -/
structure Output where
  value : UInt16
  address : UInt16
  deriving DecidableEq, Repr

structure Console where
  pending : List UInt16
  outputs : Array Output := #[]
  deriving DecidableEq

namespace Console

variable (c : Console)

def ofInputs (inputs : List UInt16) : Console := { pending := inputs }

/-- The next input; an empty queue reads as zero. -/
def next : UInt16 := c.pending.headD 0

def advance : Console := { c with pending := c.pending.tail }

def write (output : Output) : Console := { c with outputs := c.outputs.push output }

end Console

end WordMachine
