/-!
Floating-point numbers of 64 bits as exact fractions: the nearest one to a decimal, and the shortest
decimal that has it as the nearest.
-/

namespace PhpStyle

/-- The magnitude `mantissa * 2 ^ exponent`. In normal form the mantissa has 53 bits, or fewer if the
exponent is the least one. -/
structure Binary where
  mantissa : Nat
  exponent : Int
  deriving DecidableEq, Repr, Inhabited

/-- The magnitude `digits * 10 ^ exponent`. -/
structure Decimal where
  digits : Nat
  exponent : Int
  deriving DecidableEq, Repr, Inhabited

namespace Binary

def leastExponent : Int :=
  -1074

def greatestExponent : Int :=
  971

/-- A quotient rounded to the nearest whole number, a half to the even one. -/
def roundDiv (num den : Nat) : Nat :=
  let q := num / den
  let twice := 2 * (num % den)
  if twice < den then q else if den < twice then q + 1 else if q % 2 = 0 then q else q + 1

/-- The fraction `num / den` divided by a power of `base`. -/
def scaleDown (base num den : Nat) (e : Int) : Nat × Nat :=
  if 0 ≤ e then (num, den * Nat.pow base e.toNat) else (num * Nat.pow base (-e).toNat, den)

/-- The exponent at which `num / den` has a mantissa of 53 bits. -/
def exponentFor (num den : Nat) : Int :=
  let guess : Int := (num.log2 : Int) - den.log2 - 52
  let (n, d) := scaleDown 2 num den guess
  max leastExponent (if n < Nat.pow 2 52 * d then guess - 1 else guess)

/-- The magnitude nearest to `num / den`, if it is not too large. -/
def ofFraction? (num den : Nat) : Option Binary :=
  let e := exponentFor num den
  let (n, d) := scaleDown 2 num den e
  let m := roundDiv n d
  let b : Binary := if m = Nat.pow 2 53 then ⟨Nat.pow 2 52, e + 1⟩ else ⟨m, e⟩
  if greatestExponent < b.exponent then none else some b

/-- The magnitude nearest to a decimal, if it is not too large. -/
def ofDecimal? (d : Decimal) : Option Binary :=
  let size : Int := (Nat.toDigits 10 d.digits).length
  if d.digits = 0 || size + d.exponent < -400 then some ⟨0, leastExponent⟩
  else if 400 < size + d.exponent then none
  else
    let (num, den) := scaleDown 10 d.digits 1 (-d.exponent)
    ofFraction? num den

/-- The decimals with `size` digits on both sides of a magnitude, the nearer one first. -/
def neighbours (b : Binary) (size : Nat) : List Decimal :=
  let (num, den) := scaleDown 2 b.mantissa 1 (-b.exponent)
  -- the number of digits before the point, or minus the number of zeros after it
  let whole : Int := if den ≤ num then (Nat.toDigits 10 (num / den)).length
    else 1 - ((Nat.toDigits 10 ((den + num - 1) / num)).length : Int)
  let shift : Int := whole - size
  let (n, d) := scaleDown 10 num den shift
  let low := n / d
  if 2 * (n % d) ≤ d then [⟨low, shift⟩, ⟨low + 1, shift⟩] else [⟨low + 1, shift⟩, ⟨low, shift⟩]

/-- The first of the neighbours with `size` digits, or one digit more and so on, that reads back. -/
def shortestFrom (b : Binary) : Nat → Nat → Decimal
  | 0, size => (b.neighbours size).headD ⟨0, 0⟩
  | n + 1, size =>
    match (b.neighbours size).find? fun d => ofDecimal? d == some b with
    | some d => d
    | none => shortestFrom b n (size + 1)

/-- The decimal with the fewest digits that has `b` as its nearest magnitude; seventeen always do. -/
def shortest (b : Binary) : Decimal :=
  if b.mantissa = 0 then ⟨0, 0⟩ else shortestFrom b 17 1

end Binary

namespace Decimal

/-- The decimal without an exponent, and with a point only if it has a fraction. -/
def positional (d : Decimal) : String :=
  let ds := Nat.toDigits 10 d.digits
  if 0 ≤ d.exponent then String.ofList (ds ++ List.replicate d.exponent.toNat '0')
  else
    let places := (-d.exponent).toNat
    let padded := List.replicate (places + 1 - ds.length) '0' ++ ds
    let whole := padded.take (padded.length - places)
    let fraction := ((padded.drop (padded.length - places)).reverse.dropWhile (· == '0')).reverse
    String.ofList (if fraction.isEmpty then whole else whole ++ '.' :: fraction)

end Decimal

end PhpStyle
