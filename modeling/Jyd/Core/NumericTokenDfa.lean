import Jyd.Core.CommonDef

/-!
# NumericTokenDfa — two bytes of the numeric-token automaton

`NumericTokenDfa2ByteStep`: a combinational stage that advances the automaton
over at most two symbols, collecting the transition mask and the consumed count.
-/

namespace Jyd
namespace Core

open Hdl

namespace NumericTokenDfa

def isDigit (c : BitVec 8) : Bool :=
  '0'.toNat ≤ c.toNat && c.toNat ≤ '9'.toNat

def chr (c : Char) : BitVec 8 := BitVec.ofNat 8 c.toNat

def nextState (state : BitVec 3) (symbol : BitVec 8) : BitVec 3 :=
  let digit := isDigit symbol
  match state with
  | 0#3 =>
    if digit then 4
    else if symbol == chr '+' || symbol == chr '-' then 2
    else if symbol == chr '.' then 5
    else 1
  | 2#3 => if digit then 4 else if symbol == chr '.' then 5 else 1
  | 4#3 => if symbol == chr '.' then 5 else if digit then 4 else 1
  | 5#3 => if symbol == chr 'E' || symbol == chr 'e' then 3 else if digit then 5 else 1
  | 3#3 => if symbol == chr '+' || symbol == chr '-' then 6 else 1
  | 6#3 => if digit then 7 else 1
  | 7#3 => if digit then 7 else 1
  | _ => 1

def transitionMask (state next : BitVec 3) : BitVec 8 :=
  match state with
  | 0#3 => 1 ||| (if next == 1#3 then 2 else 0)
  | 2#3 => 4
  | 3#3 => 8
  | 4#3 => if next != 4#3 then 16 else 0
  | 5#3 => if next != 5#3 then 32 else 0
  | 6#3 => 64
  | 7#3 => if next == 1#3 then 2 else 0
  | _ => 0

/-- The values that ripple through the symbols of one stage. -/
structure Lane where
  state : BitVec 3
  mask : BitVec 8
  consumed : BitVec 3
  active : Bool
  stopped : Bool
  deriving DecidableEq, Repr

/-- The automaton over symbol number `i` of a stage in which `available` symbols exist. -/
def symbolStep (available : BitVec 3) (l : Lane) (i : Nat) (symbol : BitVec 8) : Lane :=
  let zero := symbol == 0#8
  let comma := symbol == chr ','
  let take := l.active && decide (i < available.toNat)
  let run := take && !zero && !comma
  let next := nextState l.state symbol
  let invalid := run && next == 1#3
  let terminal := take && (zero || comma || invalid)
  { state := if run then next else l.state
    mask := l.mask ||| (if run then transitionMask l.state next else 0)
    consumed := l.consumed + (BitVec.ofBool (take && !zero)).setWidth 3
    stopped := l.stopped || terminal
    active := take && !terminal && decide (i + 1 < available.toNat) }

/-- `NumericTokenDfa2ByteStep`. -/
def twoByteStep (available : BitVec 3) (symbols : BitVec 16) (l : Lane) : Lane :=
  symbolStep available
    (symbolStep available l 0 (symbols.extractLsb' 0 8)) 1 (symbols.extractLsb' 8 8)

/-- The packed `result` port: mask, stopped, active, consumed, state. -/
def Lane.pack (l : Lane) : BitVec 16 :=
  l.mask ++ BitVec.ofBool l.stopped ++ BitVec.ofBool l.active ++ l.consumed ++ l.state

def Lane.unpack (x : BitVec 16) : Lane where
  state := x.extractLsb' 0 3
  consumed := x.extractLsb' 3 3
  active := x.getLsbD 6
  stopped := x.getLsbD 7
  mask := x.extractLsb' 8 8

end NumericTokenDfa

end Core
end Jyd
