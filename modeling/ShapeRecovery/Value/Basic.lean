import ShapeRecovery.Text.Name
import ShapeRecovery.Text.Quoted
import ShapeRecovery.Value.Decimal

namespace ShapeRecovery

/-- A plain value; `node` holds what is made by this library and is shown by it. -/
inductive Value (ν : Type)
  | none
  | bool (b : Bool)
  | int (n : Int)
  | decimal (d : Decimal)
  | text (s : String)
  | list (items : List (Value ν))
  | record (fields : List (String × Value ν))
  | node (n : ν)
deriving Repr, Inhabited

namespace Value

variable {ν : Type}

section equality

variable [DecidableEq ν]

mutual

/-- Two values are the same when they are written alike. -/
def beq : Value ν → Value ν → Bool
  | none, none => true
  | bool b, bool b' => b == b'
  | int n, int n' => n == n'
  | decimal d, decimal d' => d == d'
  | text s, text s' => s == s'
  | list vs, list vs' => beqItems vs vs'
  | record fs, record fs' => beqFields fs fs'
  | node n, node n' => n == n'
  | _, _ => false

def beqItems : List (Value ν) → List (Value ν) → Bool
  | [], [] => true
  | v :: vs, v' :: vs' => beq v v' && beqItems vs vs'
  | _, _ => false

def beqFields : List (String × Value ν) → List (String × Value ν) → Bool
  | [], [] => true
  | (name, v) :: rest, (name', v') :: rest' => name == name' && beq v v' && beqFields rest rest'
  | _, _ => false

end

mutual

theorem eq_of_beq : ∀ a b : Value ν, beq a b = true → a = b
  | list vs, b, h => by
    cases b with
    | list vs' => rw [eq_of_beqItems vs vs' h]
    | _ => simp [beq] at h
  | record fs, b, h => by
    cases b with
    | record fs' => rw [eq_of_beqFields fs fs' h]
    | _ => simp [beq] at h
  | none, b, h | bool _, b, h | int _, b, h | decimal _, b, h | text _, b, h | node _, b, h => by
    cases b <;> simp_all [beq]

theorem eq_of_beqItems : ∀ as bs : List (Value ν), beqItems as bs = true → as = bs
  | [], [], _ => rfl
  | [], _ :: _, h => by simp [beqItems] at h
  | _ :: _, [], h => by simp [beqItems] at h
  | a :: as, b :: bs, h => by
    simp only [beqItems, Bool.and_eq_true] at h
    rw [eq_of_beq a b h.1, eq_of_beqItems as bs h.2]

theorem eq_of_beqFields : ∀ as bs : List (String × Value ν), beqFields as bs = true → as = bs
  | [], [], _ => rfl
  | [], _ :: _, h => by simp [beqFields] at h
  | _ :: _, [], h => by simp [beqFields] at h
  | (name, a) :: as, (name', b) :: bs, h => by
    simp only [beqFields, Bool.and_eq_true, beq_iff_eq] at h
    rw [h.1.1, eq_of_beq a b h.1.2, eq_of_beqFields as bs h.2]

end

mutual

theorem beq_self : ∀ a : Value ν, beq a a = true
  | none => rfl
  | bool _ | int _ | decimal _ | text _ | node _ => by simp [beq]
  | list vs => by simp [beq, beqItems_self vs]
  | record fs => by simp [beq, beqFields_self fs]

theorem beqItems_self : ∀ as : List (Value ν), beqItems as as = true
  | [] => rfl
  | a :: as => by simp [beqItems, beq_self a, beqItems_self as]

theorem beqFields_self : ∀ as : List (String × Value ν), beqFields as as = true
  | [] => rfl
  | (_, a) :: as => by simp [beqFields, beq_self a, beqFields_self as]

end

instance : DecidableEq (Value ν) := fun a b =>
  if h : beq a b then .isTrue (eq_of_beq a b h) else .isFalse fun e => h (e ▸ beq_self a)

end equality

def boolText : Bool → String
  | true => "True"
  | false => "False"

mutual

/-- The complete form; texts are quoted in it. -/
def repr (nodeRepr : ν → String) : Value ν → String
  | none => "None"
  | bool b => boolText b
  | int n => toString n
  | decimal d => d.text
  | text s => Text.quoted s
  | list items => Text.bracketed (reprItems nodeRepr items)
  | record fields => "\x7b" ++ ", ".intercalate (reprFields nodeRepr fields) ++ "\x7d"
  | node n => nodeRepr n

def reprItems (nodeRepr : ν → String) : List (Value ν) → List String
  | [] => []
  | v :: vs => repr nodeRepr v :: reprItems nodeRepr vs

def reprFields (nodeRepr : ν → String) : List (String × Value ν) → List String
  | [] => []
  | (name, v) :: rest => (Text.quoted name ++ ": " ++ repr nodeRepr v) :: reprFields nodeRepr rest

end

/-- The form in running text: a text stands as it is. -/
def plain (nodeRepr : ν → String) : Value ν → String
  | text s => s
  | v => v.repr nodeRepr

/-- The kind of a value, as refusals name it. -/
def kindName (nodeKind : ν → String) : Value ν → String
  | none => "NoneType"
  | bool _ => "bool"
  | int _ => "int"
  | decimal _ => "float"
  | text _ => "str"
  | list _ => "list"
  | record _ => "dict"
  | node n => nodeKind n

/-- Nothing, zero and whatever is empty count as false. -/
def isTrue : Value ν → Bool
  | none => false
  | bool b => b
  | int n => n ≠ 0
  | decimal d => d.digits ≠ 0
  | text s => s ≠ ""
  | list items => !items.isEmpty
  | record fields => !fields.isEmpty
  | node _ => true

def isNone : Value ν → Bool
  | none => true
  | _ => false

def isList : Value ν → Bool
  | list _ => true
  | _ => false

def isName : Value ν → Bool
  | text s => Text.isName s
  | _ => false

/-- The items of a list, the characters of a text, or the names of the fields of a record. -/
def items? : Value ν → Option (List (Value ν))
  | list items => some items
  | text s => some (s.toList.map fun c => text (String.ofList [c]))
  | record fields => some (fields.map fun f => text f.1)
  | _ => Option.none

/-- How a number compares to an integer; truth values count as one and zero. -/
def compareInt? (v : Value ν) (n : Int) : Option Ordering :=
  match v with
  | bool b => some (compare (if b then 1 else 0) n)
  | int m => some (compare m n)
  | decimal d => some (d.compareInt n)
  | _ => Option.none

end Value

end ShapeRecovery
