import ShapeRecovery.Fault
import ShapeRecovery.Value.Basic

namespace ShapeRecovery.Schema

/-- What a value may hold beside plain data: a node, given by its number, or a thing of the caller's,
given by its address. -/
inductive Handle
  | node (n : Nat)
  | object (address : Nat)
deriving DecidableEq, Repr, Inhabited

/-- An argument as it is told apart from others: a handle is the same as itself only, and what is written
out, as nothing and truth values are, exists once. -/
abbrev Content := Value Handle

/-- What a function of the caller's answers: a value, or the class of lists. -/
inductive Answer
  | value (v : Content)
  | listClass
deriving DecidableEq

/-- A thing of the caller's: data that exists at its address, or a function of one argument. -/
inductive Thing
  | data (v : Content)
  | function (answer : Content → Except Fault Answer)

namespace Thing

/-- What a value holds. Where there is no data at an address, there is nothing but the thing itself. -/
def read (things : Array Thing) : Content → Content
  | .node (.object a) =>
    match things[a]? with
    | some (.data (.node _)) => .node (.object a)
    | some (.data v) => v
    | _ => .node (.object a)
  | v => v

def function? (things : Array Thing) : Content → Option (Content → Except Fault Answer)
  | .node (.object a) =>
    match things[a]? with
    | some (.function answer) => some answer
    | _ => none
  | _ => none

end Thing

/-- What tells a value apart from others. -/
inductive Key
  | missing
  | number (mantissa : Int) (places : Nat)
  | thing (v : Content)
deriving DecidableEq, Repr, Inhabited

/-- What tells the value of a field apart: a key, or those of the items that the field holds. -/
inductive FieldKey
  | one (k : Key)
  | row (ks : List Key)
deriving DecidableEq, Repr

namespace Key

/-- A decimal number without zeros at the end, so that equal numbers have one key. -/
def reduced : (places : Nat) → (mantissa : Int) → Key
  | 0, m => number m 0
  | places + 1, m => if m % 10 = 0 then reduced places (m / 10) else number m (places + 1)

def ofDecimal (d : Decimal) : Key :=
  if 0 ≤ d.exponent then number (d.mantissa * Decimal.powerOfTen d.exponent.toNat) 0
  else reduced (-d.exponent).toNat d.mantissa

/-- The key of data that is compared by what it is equal to; truth values are equal to one and
zero. -/
def ofEqual : Content → Except Fault Key
  | .bool b => .ok (number (if b then 1 else 0) 0)
  | .int n => .ok (number n 0)
  | .decimal d => .ok (ofDecimal d)
  | .list _ => .error (.unfit .key "list")
  | .record _ => .error (.unfit .key "dict")
  | v => .ok (thing v)

end Key

end ShapeRecovery.Schema
