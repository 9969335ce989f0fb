namespace ShapeRecovery

/-- What is wrong with a grammar at the token that is read. -/
inductive GrammarError
  | invalidOperator (token : String)
  | noModule (found : String)
  | unmatched (expected found : String)
deriving DecidableEq, Repr

/-- What is asked of a value that cannot serve for it. -/
inductive Use
  | call
  | subscript
  | iterate
  | key
  | raise
deriving DecidableEq, Repr

/-- Why an operation has no result, one constructor per cause. -/
inductive Fault
  /-- Words of a negative number of bits, or signed words of none. -/
  | negativeWidth
  | divisionByZero
  | noSuchItem
  /-- A write past the end of a list. -/
  | noSuchSlot
  | missingKey (key : String)
  | emptySum
  | tooManyOperands
  | notNarrower
  | notWider
  /-- A cast of a value without a width; `narrowing` says which comparison was asked for. -/
  | widthless (narrowing : Bool)
  | unliftable (kind : String)
  | loopAlreadyFound
  | factorsOfZero
  | notNonzeroConstant
  | noExpressions
  | negativeDimensionCount
  | notASize
  | dimensionCountChanged
  | incompleteHint
  | notSized
  | innerSizeUnknown
  | badName (text : String)
  | badWidth (value : String)
  | badHint (value : String)
  | notAnAccess (value : String)
  | notAFunction (value : String)
  | wrongType (position : Nat) (field type : String)
  | notAList (position : Nat) (field : String)
  | abstractType (name : String)
  /-- A value of the kind does not serve for the use. -/
  | unfit (use : Use) (kind : String)
  /-- Two parameters of a constructor have one name, or a parameter has a word of the language for its
  name. -/
  | repeatedParameter (name : String)
  | reservedParameter
  | shadowedType (name : String)
  | repeatedConstructor (name : String)
  /-- A sequence was joined from an item that is no text. -/
  | unnamedItem (position : Nat)
  | grammar (line : Nat) (error : GrammarError)
  | endOfGrammar
  /-- The arguments do not even fit the shape of a call. -/
  | malformed
  /-- A recursion ran past its bound. -/
  | outOfFuel
deriving DecidableEq, Repr

def GrammarError.message : GrammarError → String
  | invalidOperator token => s!"Invalid operator {token}"
  | noModule found => s!"Expected \"module\" (found {found})"
  | unmatched expected found => s!"Unmatched {expected} (found {found})"

def Use.message (kind : String) : Use → String
  | call => s!"'{kind}' object is not callable"
  | subscript =>
    if kind = "str" then "string indices must be integers, not 'str'"
    else if kind = "list" then "list indices must be integers or slices, not str"
    else s!"'{kind}' object is not subscriptable"
  | iterate => s!"'{kind}' object is not iterable"
  | key => s!"unhashable type: '{kind}'"
  | raise => "exceptions must derive from BaseException"

/-- The wording of a refusal. -/
def Fault.message : Fault → String
  | negativeWidth => "negative shift count"
  | divisionByZero => "integer division or modulo by zero"
  | noSuchItem => "list index out of range"
  | noSuchSlot => "list assignment index out of range"
  | missingKey key => key
  | emptySum => "expected at least one operand to add"
  | tooManyOperands => ""
  | notNarrower => "truncation must narrow"
  | notWider => "extension must widen"
  | widthless true => "'<' not supported between instances of 'int' and 'NoneType'"
  | widthless false => "'>' not supported between instances of 'int' and 'NoneType'"
  | unliftable kind => s!"unsupported expression lifting for type <class '{kind}'>"
  | loopAlreadyFound => "loop must not be set yet"
  | factorsOfZero => "cannot factor zero"
  | notNonzeroConstant => "expected non-zero constant"
  | noExpressions => "expected expressions to compute a GCD of"
  | negativeDimensionCount => ""
  | notASize => "expected a size expression"
  | dimensionCountChanged => "inconsistent number of dimensions"
  | incompleteHint => "hint must describe every dimension"
  | notSized => "array must be delinearized"
  | innerSizeUnknown => "sizes of inner dimensions must be known"
  | badName text => s!"expected an alphanumeric name string, but got '{text}'"
  | badWidth value => s!"expected a positive bit width, but got {value}"
  | badHint value => s!"expected a dimension hint function or dictionary, but got {value}"
  | notAnAccess value => s!"expected a memory access, but got {value}"
  | notAFunction value => s!"expected a MIR.function, but got {value}"
  | wrongType position field type =>
    s!"expected arg {position} \"{field}\" to be type \"{type}\""
  | notAList position field => s!"expected arg {position} \"{field}\" to be a list"
  | abstractType name => s!"'{name}' is abstract; use one of its constructors"
  | unfit use kind => use.message kind
  | repeatedParameter name => s!"duplicate argument '{name}' in function definition (<string>, line 1)"
  | reservedParameter => "invalid syntax (<string>, line 1)"
  | shadowedType name => s!"type name '{name}' shadows an external type"
  | repeatedConstructor name => s!"constructor name '{name}' used twice"
  | unnamedItem position => s!"sequence item {position}: expected str instance, NoneType found"
  | grammar line error => s!"Syntax error on line {line}: {error.message}"
  | endOfGrammar => ""
  | malformed => ""
  | outOfFuel => ""

end ShapeRecovery
