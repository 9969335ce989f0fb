import ShapeRecovery.Expr.Substitution
import ShapeRecovery.Item.Basic
import ShapeRecovery.Schema.Model

namespace ShapeRecovery.Item

open Schema (Arity Field NodeClass Model)

def one (type name : String) : Field := ⟨type, .one, name⟩

def many (type name : String) : Field := ⟨type, .many, name⟩

/-- Expressions and loops. -/
def expressions : Model where
  name := "SE"
  types := [("expr", true), ("loop", false)]
  predicates := []
  classes := [
    ⟨"expr", "Const", [one "int" "val", one "int" "bits"]⟩,
    ⟨"expr", "Unknown", [one "sym" "name", one "int" "bits"]⟩,
    ⟨"expr", "Add", [many "expr" "ops"]⟩,
    ⟨"expr", "Mul", [many "expr" "ops"]⟩,
    ⟨"expr", "UDiv", [one "expr" "lhs", one "expr" "rhs"]⟩,
    ⟨"expr", "Trunc", [one "expr" "op", one "int" "bits"]⟩,
    ⟨"expr", "SExt", [one "expr" "op", one "int" "bits"]⟩,
    ⟨"expr", "ZExt", [one "expr" "op", one "int" "bits"]⟩,
    ⟨"expr", "SMax", [many "expr" "ops"]⟩,
    ⟨"expr", "UMax", [many "expr" "ops"]⟩,
    ⟨"expr", "AddRec", [one "expr" "start", one "expr" "step", one "loop" "loop"]⟩,
    ⟨"expr", "CouldNotCompute", []⟩,
    ⟨"loop", "loop", [one "sym" "name", one "int" "depth"]⟩]

/-- Pointers, declarations and accesses. -/
def memory : Model where
  name := "MIR"
  types := [("function", false), ("access", false), ("ptr", true), ("decl", true)]
  predicates := []
  classes := [
    ⟨"function", "function", [one "name" "name", many "access" "accesses"]⟩,
    ⟨"access", "access", [one "access_kind" "kind", one "ptr" "ptr"]⟩,
    ⟨"ptr", "Object", [one "sym" "name", ⟨"decl", .optional, "decl"⟩]⟩,
    ⟨"ptr", "Load", [one "ptr" "src"]⟩,
    ⟨"ptr", "Index", [one "ptr" "base", many "expr" "idx"]⟩,
    ⟨"ptr", "Cast", [one "ptr" "src"]⟩,
    ⟨"decl", "Scalar", []⟩,
    ⟨"decl", "Pointer", [one "decl" "elem"]⟩,
    ⟨"decl", "ArrayOf", [many "extent" "counts", one "decl" "elem"]⟩]

/-- Whether an argument is of a type of the models. -/
def accepts (type : String) (v : Argument) : Bool :=
  match type, v with
  | "int", .int _ => true
  | "sym", .node (.symbol _) => true
  | "name", v => v.isName
  | "access_kind", .text s => (AccessKind.ofName? s).isSome
  | "extent", v => v.extent?.isSome
  | "expr", v => v.expr?.isSome
  | "loop", v => v.loop?.isSome
  | "ptr", v => v.pointer?.isSome
  | "decl", v => v.declaration?.isSome
  | "access", v => v.access?.isSome
  | _, _ => false

/-- The arguments of a list, each read by `f`. -/
def readAll {α : Type} (f : Argument → Option α) (items : List Argument) : Except Fault (List α) :=
  match items.mapM f with
  | some found => .ok found
  | none => .error .malformed

/-- The node of a class over arguments that were checked; `site` is the number of an access or a
function. -/
def assemble (site : Nat) : String → List Argument → Except Fault Item
  | "Const", [.int v, .int w] => .ok (.expr (.const v w))
  | "Unknown", [.node (.symbol s), .int w] => .ok (.expr (.unknown s w))
  | "Add", [.list ops] => do return .expr (.sum (← readAll Argument.expr? ops))
  | "Mul", [.list ops] => do return .expr (.product (← readAll Argument.expr? ops))
  | "SMax", [.list ops] => do return .expr (.nary .signedMax (← readAll Argument.expr? ops))
  | "UMax", [.list ops] => do return .expr (.nary .unsignedMax (← readAll Argument.expr? ops))
  | "UDiv", [.node (.expr a), .node (.expr b)] => .ok (.expr (.quotient a b))
  | "Trunc", [.node (.expr a), .int w] => .ok (.expr (.cast .trunc a w))
  | "SExt", [.node (.expr a), .int w] => .ok (.expr (.cast .signExtend a w))
  | "ZExt", [.node (.expr a), .int w] => .ok (.expr (.cast .zeroExtend a w))
  | "AddRec", [.node (.expr a), .node (.expr b), .node (.loop l)] =>
    .ok (.expr (.recurrence a b l))
  | "CouldNotCompute", [] => .ok (.expr .uncomputable)
  | "loop", [.node (.symbol s), .int d] => .ok (.loop ⟨s, d⟩)
  | "function", [.text name, .list accesses] => do
    return .function ⟨site, name, ← readAll Argument.access? accesses⟩
  | "access", [.text kind, .node (.pointer p)] =>
    match AccessKind.ofName? kind with
    | some k => .ok (.access ⟨site, k, p⟩)
    | none => .error .malformed
  | "Object", [.node (.symbol s), d] => .ok (.pointer (.object s d.declaration?))
  | "Load", [.node (.pointer p)] => .ok (.pointer (.load p))
  | "Index", [.node (.pointer p), .list idx] => do
    return .pointer (.index p (← readAll Argument.expr? idx))
  | "Cast", [.node (.pointer p)] => .ok (.pointer (.cast p))
  | "Scalar", [] => .ok (.declaration .scalar)
  | "Pointer", [.node (.declaration d)] => .ok (.declaration (.pointer d))
  | "ArrayOf", [.list counts, .node (.declaration d)] => do
    return .declaration (.array (← readAll Argument.extent? counts) d)
  | _, _ => .error .malformed

/-- The checks of arguments: their grammars have no field of a name that checks go by. -/
def argumentChecks : Schema.Checks Item where
  data v := v
  kind v := v.kindName Item.kindName
  accepts type v := .ok (accepts type v)
  isList v := .ok v.isList
  refusal fault := fault

def constructIn (m : Model) (c : NodeClass) (site : Nat) (args : List Argument) :
    Except Fault Item := do
  NodeClass.checkFrom argumentChecks m.shownType 0 c.fields args
  assemble site c.name args

/-- The node of the class `name` over arguments; types that are sums have no nodes of their own. -/
def construct (site : Nat) (name : String) (args : List Argument) : Except Fault Item :=
  match expressions.class? name, memory.class? name with
  | some c, _ => constructIn expressions c site args
  | none, some c => constructIn memory c site args
  | none, none =>
    if expressions.isType name || memory.isType name then .error (.abstractType name)
    else .error .malformed

/-- The width that an argument asks for, by default `iw`. -/
def widthOf (iw : Int) : Argument → Argument
  | .none => .int iw
  | v => v

/-- The constant `v` of a width that may be no integer. A truth value counts as one or zero bits,
but no constant can have it as its width. -/
def constant (iw v : Int) (width : Argument) : Except Fault Expr :=
  match widthOf iw width with
  | .int w => Expr.ofInt v w
  | .bool b => do
    let _ ← Word.signed v (if b then 1 else 0)
    throw (.wrongType 1 "bits" "int")
  | _ => .error .malformed

/-- The recurrence over what may be no loop. -/
def recurrenceOver (start step : Expr) (l : Argument) : Except Fault Expr :=
  match l.loop? with
  | some l => .ok (Expr.recur start step l)
  | none =>
    if start = .uncomputable || step = .uncomputable then .ok .uncomputable
    else if step.isZero then .ok start
    else .error (.wrongType 2 "loop" (expressions.shownType "loop"))

/-- The iteration count of what may be no loop, at a width that may be no integer. -/
def inductionVariable (iw : Int) (l width : Argument) : Except Fault Expr :=
  match l.loop?, widthOf iw width with
  | some l, .int w => Expr.inductionVariable l w
  | _, width => do
    let start ← constant iw 0 width
    let step ← constant iw 1 width
    recurrenceOver start step l

/-- Whether a cast goes in its direction to a width that compares to that of its operand as
`order` says. -/
def checkOrder (kind : CastKind) (order : Ordering) : Except Fault Unit :=
  if kind = .trunc then
    if order = .lt then .ok () else .error .notNarrower
  else
    if order = .gt then .ok () else .error .notWider

/-- A change to a width that is no integer. No node can have it, so something inside of the casts
of the kind has to be of an equal width already. -/
def convertInexact (kind : CastKind) (iw : Int) (width : Argument) : Expr → Except Fault Expr
  | .uncomputable => .ok .uncomputable
  | .const v w => do
    let order ← ordering width w
    if order = .eq then return .const v w
    checkOrder kind order
    let v ← if kind = .zeroExtend then Word.unsigned v w else pure v
    constant iw v width
  | .cast kind' arg w => do
    let order ← ordering width w
    if order = .eq then return .cast kind' arg w
    checkOrder kind order
    if kind' = kind then convertInexact kind iw width arg
    else throw (.wrongType 1 "bits" "int")
  | e => do
    match ← e.width, width with
    | none, .none => return e
    | none, _ => throw (.widthless (kind == .trunc))
    | some w, width => do
      let order ← ordering width w
      if order = .eq then return e
      checkOrder kind order
      throw (.wrongType 1 "bits" "int")
where
  ordering (width : Argument) (w : Int) : Except Fault Ordering :=
    match width.compareInt? w with
    | some order => .ok order
    | none => .error .malformed

/-- A change to a width that may be no integer. -/
def convert (kind : CastKind) (iw : Int) (e : Expr) : Argument → Except Fault Expr
  | .int w => e.convert kind w
  | width => convertInexact kind iw width e

/-- `e` brought to a width that may be no integer, without regard to its sign. -/
def resize (iw : Int) (e : Expr) : Argument → Except Fault Expr
  | .int w => e.resize w
  | width => do
    match ← e.width with
    | none => return e
    | some w =>
      match width.compareInt? w with
      | some .eq => return e
      | some .lt => convertInexact .trunc iw width e
      | some .gt => convertInexact .zeroExtend iw width e
      | none => throw .malformed

/-- Run an analysis of indices of a width that may be no integer. A truth value counts as one or
zero bits, but no constant can have it as its width. -/
def atWidth {m : Type → Type} [Monad m] [MonadExceptOf Fault m] {α : Type} (width : Argument)
    (run : Int → m α) : m α :=
  match width with
  | .int w => run w
  | .bool true =>
    tryCatchThe Fault (run 0) fun f =>
      throw (if f = .negativeWidth then .wrongType 1 "bits" "int" else f)
  | _ => run 0

/-- An expression made of an argument that stands beside one of the width `width`. -/
def lift (iw : Int) (width : Option Int) : Argument → Except Fault Expr
  | .node (.expr e) => .ok e
  | .int n => Expr.ofInt n (width.getD iw)
  | v => .error (.unliftable (v.kindName Item.kindName))

/-- An object declared as an array, or as `elem` itself where no counts are given. -/
def arrayObject (name counts elem : Argument) : Except Fault Item := do
  let elem := if elem.isTrue then elem else .node (.declaration .scalar)
  match counts with
  | .none => construct 0 "Object" [name, elem]
  | counts =>
    match counts.items? with
    | some items => do
      let d ← construct 0 "ArrayOf" [.list items, elem]
      construct 0 "Object" [name, .node d]
    | none => .error .malformed

/-- An object declared as a pointer, to an array of scalars where counts are given. -/
def pointerObject (name counts : Argument) : Except Fault Item := do
  let scalar : Argument := .node (.declaration .scalar)
  let elem ← match counts with
    | .none => pure scalar
    | counts =>
      match counts.items? with
      | some items => do
        let d ← construct 0 "ArrayOf" [.list items, scalar]
        pure (.node d)
      | none => throw .malformed
  let pointer ← construct 0 "Pointer" [elem]
  construct 0 "Object" [name, .node pointer]

end ShapeRecovery.Item
