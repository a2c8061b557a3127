import Reckon.Binary64.Numeral

/-!
Values and the operators on them. Complex numbers are in rectangular form: products and quotients
round one of their two partial products before a fused step, and the square root is the principal
one. Values are real or complex: two reals stay real, a complex operand makes the result complex,
and only the root of a negative real leaves the reals on its own.
-/

set_option autoImplicit false

namespace Reckon

inductive Operator where
  | plus
  | minus
  | times
  | divide
  deriving DecidableEq, Repr

namespace Operator

def all : List Operator := [.plus, .minus, .times, .divide]

def symbol : Operator → Char
  | plus => '+'
  | minus => '-'
  | times => '*'
  | divide => '/'

def ofSymbol? (c : Char) : Option Operator := all.find? fun op => op.symbol == c

@[simp] theorem ofSymbol?_symbol (op : Operator) : ofSymbol? op.symbol = some op := by
  cases op <;> rfl

end Operator

structure Complex where
  re : Binary64
  im : Binary64
  deriving DecidableEq, Repr

namespace Complex

def ofReal (x : Binary64) : Complex := ⟨x, 0⟩

def isZero (z : Complex) : Bool := z.re.isZero && z.im.isZero

def neg (z : Complex) : Complex := ⟨-z.re, -z.im⟩

def add (z w : Complex) : Complex := ⟨z.re + w.re, z.im + w.im⟩

def sub (z w : Complex) : Complex := ⟨z.re - w.re, z.im - w.im⟩

def mul (z w : Complex) : Complex :=
  ⟨.mulAdd z.re w.re (-(z.im * w.im)), .mulAdd z.re w.im (z.im * w.re)⟩

/-- Divides by the squared modulus, with no regard to a divisor of zero. -/
def div (z w : Complex) : Complex :=
  let square := .mulAdd w.re w.re (w.im * w.im)
  ⟨.mulAdd z.re w.re (z.im * w.im) / square, .mulAdd z.im w.re (-(z.re * w.im)) / square⟩

instance : Neg Complex := ⟨neg⟩
instance : Add Complex := ⟨add⟩
instance : Sub Complex := ⟨sub⟩
instance : Mul Complex := ⟨mul⟩
instance : Div Complex := ⟨div⟩

/-- The principal root: the half-angle formula gives the larger part, and the smaller one is
the imaginary part over twice that. -/
def sqrt (z : Complex) : Complex :=
  if z.isZero then ⟨0, z.im⟩
  else
    let r := Binary64.hypot z.re z.im
    if Binary64.atMost 0 z.re then
      let t := (Binary64.midpoint r z.re).sqrt
      ⟨t, z.im / (2 * t)⟩
    else
      let t := ((r - z.re) / 2).sqrt
      ⟨z.im.abs / (2 * t), t.copySign z.im⟩

/-- Equality of parts, the zeros being equal and nan equal to itself. -/
def same (z w : Complex) : Bool := z.re.same w.re && z.im.same w.im

def isNear (tolerance : Binary64) (z w : Complex) : Bool :=
  (z.re - w.re).abs.atMost tolerance && (z.im - w.im).abs.atMost tolerance

def literalChars (z : Complex) : List Char :=
  z.re.chars ++ (if z.im.isNegative then '-' else '+') :: z.im.abs.chars ++ ['j']

def chars (z : Complex) : List Char := '(' :: z.literalChars ++ [')']

def text (z : Complex) : String := String.ofList z.chars

def isSign (c : Char) : Bool := c == '+' || c == '-'

def cutAtLastSign? (cs : List Char) : Option (List Char × List Char) :=
  let after := cs.reverse.takeWhile fun c => !isSign c
  match cs.reverse.dropWhile fun c => !isSign c with
  | [] => none
  | sign :: before => some (before.reverse, sign :: after.reverse)

/-- Reads two numerals and a closing `j`, the second numeral beginning at the last sign. -/
def ofLiteral? (cs : List Char) : Option Complex :=
  if cs.getLast? = some 'j' then do
    let (re, im) ← cutAtLastSign? cs.dropLast
    return ⟨← Binary64.ofNumeral? re, ← Binary64.ofNumeral? im⟩
  else none

end Complex

inductive EvalError where
  | divisionByZero
  /-- The instruction at this index finds too few operands. -/
  | missingOperand (position : Nat)
  /-- The code ends with this many values instead of one. -/
  | leftover (depth : Nat)
  deriving DecidableEq, Repr

def EvalError.message : EvalError → String
  | .divisionByZero => "Arithmetic error: division by zero."
  | .missingOperand position =>
    "Malformed code: stack underflow at instruction " ++ toString position ++ "."
  | .leftover depth =>
    "Malformed code: expected one result, found " ++ toString depth ++ " values on the stack."

inductive Value where
  | real (x : Binary64)
  | complex (z : Complex)
  deriving DecidableEq, Repr

namespace Value

def toComplex : Value → Complex
  | real x => .ofReal x
  | complex z => z

def toReal? : Value → Option Binary64
  | real x => some x
  | complex _ => none

def isComplex : Value → Bool
  | real _ => false
  | complex _ => true

def neg : Value → Value
  | real x => real (-x)
  | complex z => complex (-z)

def sqrt : Value → Value
  | real x => if Binary64.atMost 0 x then real x.sqrt else complex ⟨0, (-x).sqrt⟩
  | complex z => complex z.sqrt

def applyReal (op : Operator) (x y : Binary64) : Except EvalError Binary64 :=
  match op with
  | .plus => .ok (x + y)
  | .minus => .ok (x - y)
  | .times => .ok (x * y)
  | .divide => if y.isZero then .error .divisionByZero else .ok (x / y)

def applyComplex (op : Operator) (z w : Complex) : Except EvalError Complex :=
  match op with
  | .plus => .ok (z + w)
  | .minus => .ok (z - w)
  | .times => .ok (z * w)
  | .divide => if w.isZero then .error .divisionByZero else .ok (z / w)

def apply (op : Operator) : Value → Value → Except EvalError Value
  | real x, real y => (applyReal op x y).map real
  | v, w => (applyComplex op v.toComplex w.toComplex).map complex

def equals : Value → Value → Bool
  | real x, real y => x.equals y
  | complex z, complex w => z.same w
  | _, _ => false

def isNear (tolerance : Binary64) : Value → Value → Bool
  | real x, real y => (x - y).abs.atMost tolerance
  | v, w => v.toComplex.isNear tolerance w.toComplex

def chars : Value → List Char
  | real x => x.chars
  | complex z => z.chars

def text (v : Value) : String := String.ofList v.chars

end Value
end Reckon
