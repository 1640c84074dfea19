import CallAlign.Search

/-!
# Double-precision numbers

A binary floating-point number of 64 bits, kept as its bits, and the shortest decimal that names
it. A finite number is a whole multiple of `2 ^ -1074`, so that all comparisons are between natural
numbers: nothing is rounded on the way to the digits.
-/

namespace CallAlign

structure Double where
  bits : UInt64
  deriving DecidableEq, Repr

/-- The decimal `digits * 10 ^ exponent`. -/
structure Decimal where
  digits : Nat
  exponent : Int
  deriving DecidableEq, Repr

namespace Double

/-- The double nearest to a decimal, with its sign. Beyond the exponents of finite doubles it is
zero or infinite whatever the digits, which keeps the powers of ten small. -/
def ofDecimal (negative : Bool) (d : Decimal) : Double :=
  let size : Int := (Nat.toDigits 10 d.digits).length + d.exponent
  let magnitude : Float :=
    if d.digits = 0 || size < -400 then 0
    else if 400 < size then 1 / 0
    else match d.exponent with
      | .ofNat e => Float.ofScientific d.digits false e
      | .negSucc e => Float.ofScientific d.digits true (e + 1)
  ⟨(if negative then -magnitude else magnitude).toBits⟩

/-- The double nearest to a power of ten. -/
def tenTo (k : Nat) : Float := Float.ofScientific 1 false k

/-- The greatest power of ten that a finite double is near to. -/
def maxTen : Nat := 308

/-- `x / 10 ^ k`, rounded at each division; what no power of ten reaches is divided in steps. -/
def divideByTen (x : Float) (k : Nat) : Float :=
  if k ≤ maxTen then x / tenTo k
  else if x == 0 then x
  else divideByTen (x / tenTo maxTen) (k - maxTen)
termination_by k
decreasing_by
  unfold maxTen at *
  omega

/-- `significand * 10 ^ exponent` with its sign, by rounding the significand and then the product or
quotient, so that the last place may be off by one. There is none beyond the finite doubles. -/
def ofScaled? (negative : Bool) (significand : UInt64) (exponent : Int) : Option Double :=
  let x := significand.toFloat
  let magnitude : Option Float :=
    match exponent with
    | .ofNat k =>
      if k ≤ maxTen then
        let product := x * tenTo k
        if product.isInf then none else some product
      else if x == 0 then some x
      else none
    | .negSucc k => some (divideByTen x (k + 1))
  magnitude.map fun m => ⟨(if negative then -m else m).toBits⟩

def infinity : Double := ⟨0x7ff0000000000000⟩

def neg (x : Double) : Double := ⟨x.bits ^^^ 0x8000000000000000⟩

def notANumber : Double := ⟨0x7ff8000000000000⟩

def isNegative (x : Double) : Bool := 0x8000000000000000 ≤ x.bits.toNat

/-- The biased exponent. -/
def exponentField (x : Double) : Nat := x.bits.toNat / 0x10000000000000 % 0x800

/-- The bits behind the point. -/
def fraction (x : Double) : Nat := x.bits.toNat % 0x10000000000000

/-- Whether the bits stand for a number at all, if perhaps an infinite one. -/
def isNumber (x : Double) : Bool := x.exponentField ≠ 2047 || x.fraction = 0

def isInfinite (x : Double) : Bool := x.exponentField = 2047 && x.fraction = 0

/-- The magnitude of a finite number is `significand * 2 ^ power / 2 ^ 1074`. -/
def significand (x : Double) : Nat :=
  if x.exponentField = 0 then x.fraction else 0x10000000000000 + x.fraction

/-- The binary scale of the significand. -/
def power (x : Double) : Nat := x.exponentField - 1

/-! ## Shortest decimals -/

/-- How many quarters of the smallest positive double make one. -/
def quartersOfOne : Nat := 1 <<< 1076

/-- The magnitude, in quarters of the smallest double. -/
def magnitude (x : Double) : Nat := (4 * x.significand) <<< x.power

/-- The least real that rounds to the magnitude, in quarters: halfway to the double below it, which
is nearer at a power of two. -/
def lower (x : Double) : Nat :=
  let gap := if x.fraction = 0 && 1 < x.exponentField then 1 else 2
  (4 * x.significand - gap) <<< x.power

/-- The greatest real that rounds to the magnitude, in quarters: halfway to the double above it. -/
def upper (x : Double) : Nat := (4 * x.significand + 2) <<< x.power

/-- The exponent of the leading decimal digit: the last power of ten at or below the magnitude. -/
def leadingExponent (x : Double) : Int :=
  (bisect (fun i => Nat.pow 10 i * quartersOfOne ≤ x.magnitude * Nat.pow 10 324) 0 640 : Int) - 325

/-- The decimal of `count` digits that rounds to the magnitude, the nearer of two. At an equal
distance it is the upper one if `tieUp`, else the one with an even last digit. -/
def decimalOf? (x : Double) (tieUp : Bool) (count : Nat) : Option Decimal :=
  let exponent := x.leadingExponent + 1 - count
  let scale := Nat.pow 10 (-exponent).toNat
  let unit := quartersOfOne * Nat.pow 10 exponent.toNat
  let value := x.magnitude * scale
  let hits (d : Nat) : Bool :=
    if x.significand % 2 = 0 then x.lower * scale ≤ d * unit && d * unit ≤ x.upper * scale
    else x.lower * scale < d * unit && d * unit < x.upper * scale
  let below := value / unit
  let above := below + 1
  match hits below, hits above with
  | false, false => none
  | true, false => some ⟨below, exponent⟩
  | false, true => some ⟨above, exponent⟩
  | true, true =>
    let down := value - below * unit
    let up := above * unit - value
    if down < up then some ⟨below, exponent⟩
    else if up < down then some ⟨above, exponent⟩
    else if tieUp || above % 2 = 0 then some ⟨above, exponent⟩
    else some ⟨below, exponent⟩

/-- The decimal with the fewest digits that rounds to the magnitude of a finite number other than
zero; seventeen digits always suffice. -/
def shortest (x : Double) (tieUp : Bool) : Decimal :=
  ((List.range 17).findSome? fun n => x.decimalOf? tieUp (n + 1)).getD ⟨0, 0⟩

/-! ## Decimal text -/

/-- How numbers are spelled. -/
structure Style where
  /-- Whether a number whose leading digit has the exponent is written without one. -/
  isPositional : Int → Bool
  /-- Whether the upper of two equally near shortest decimals is taken. -/
  tieUp : Bool

/-- The digits of a decimal and the exponent of the first of them. -/
def leadingForm (d : Decimal) : List Char × Int :=
  let digits := Nat.toDigits 10 d.digits
  let kept := (digits.reverse.dropWhile (· = '0')).reverse
  (kept, d.exponent + digits.length - 1)

/-- Digits around a decimal point, of which there is always one on either side. -/
def positionalText (digits : List Char) (leading : Int) : List Char :=
  match leading with
  | .ofNat e =>
    let whole := digits.take (e + 1)
    let rest := digits.drop (e + 1)
    whole ++ List.replicate (e + 1 - whole.length) '0' ++ ['.'] ++
      (if rest.isEmpty then ['0'] else rest)
  | .negSucc e => ['0', '.'] ++ List.replicate e '0' ++ digits

/-- One digit, the others behind a point, and the exponent with its sign. -/
def scientificText (digits : List Char) (leading : Int) : List Char :=
  let rest := digits.drop 1
  digits.take 1 ++ (if rest.isEmpty then [] else '.' :: rest) ++
    (if leading < 0 then ['e'] else ['e', '+']) ++ (toString leading).toList

def magnitudeText (x : Double) (style : Style) : List Char :=
  if x.significand = 0 then ['0', '.', '0']
  else
    let (digits, leading) := leadingForm (x.shortest style.tieUp)
    if style.isPositional leading then positionalText digits leading
    else scientificText digits leading

def text (x : Double) (style : Style) : String :=
  if !x.isNumber then "NaN"
  else
    let sign := if x.isNegative then ['-'] else []
    String.ofList (sign ++ if x.isInfinite then ['i', 'n', 'f'] else x.magnitudeText style)

end Double

end CallAlign
