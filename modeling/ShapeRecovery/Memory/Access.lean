import ShapeRecovery.Memory.Pointer

namespace ShapeRecovery

/-- The first four kinds access one element.  A `call` refers to an object or a range of it, and a
`marker` is no access at all. -/
inductive AccessKind
  | load
  | store
  | atomicUpdate
  | compareExchange
  | call
  | marker
deriving DecidableEq, Repr

namespace AccessKind

def name : AccessKind → String
  | load => "load"
  | store => "store"
  | atomicUpdate => "atomicrmw"
  | compareExchange => "cmpxchg"
  | call => "call"
  | marker => "marker"

def all : List AccessKind :=
  [load, store, atomicUpdate, compareExchange, call, marker]

def ofName? (name : String) : Option AccessKind :=
  all.find? fun k => k.name = name

def isElement : AccessKind → Bool
  | load | store | atomicUpdate | compareExchange => true
  | call | marker => false

def isIgnored : AccessKind → Bool
  | marker => true
  | _ => false

end AccessKind

/-- One access; `site` tells apart accesses of one kind through one pointer. -/
structure Access where
  site : Nat
  kind : AccessKind
  ptr : Pointer
deriving DecidableEq

namespace Access

def repr (a : Access) : String :=
  s!"access(kind={Text.quoted a.kind.name},ptr={a.ptr.repr})"

end Access

structure Function where
  site : Nat
  name : String
  accesses : List Access
deriving DecidableEq

namespace Function

def repr (f : Function) : String :=
  s!"function(name={Text.quoted f.name},accesses={Text.bracketed (f.accesses.map Access.repr)})"

end Function

end ShapeRecovery
