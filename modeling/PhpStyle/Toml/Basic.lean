import PhpStyle.Decimal.Binary

/-!
The values of TOML documents.
-/

namespace PhpStyle

/-- A floating-point number; also zero and what is not a number have a sign. -/
inductive Floating where
  | nan (negative : Bool)
  | infinity (negative : Bool)
  | finite (negative : Bool) (magnitude : Binary)
  deriving DecidableEq, Repr, Inhabited

/-- The text of a number, positional and always with a point. -/
def Floating.text : Floating → String
  | nan negative => (if negative then "-" else "") ++ "nan"
  | infinity negative => (if negative then "-" else "") ++ "inf"
  | finite negative b =>
    let body := b.shortest.positional
    (if negative then "-" else "") ++ (if body.toList.contains '.' then body else body ++ ".0")

structure Date where
  year : Nat
  month : Nat
  day : Nat
  deriving DecidableEq, Repr, Inhabited

structure TimeOfDay where
  hour : Nat
  minute : Nat
  second : Nat
  nanosecond : Nat
  deriving DecidableEq, Repr, Inhabited

/-- How far a clock is ahead of universal time. -/
inductive ClockOffset where
  | universal
  | minutes (ahead : Int)
  deriving DecidableEq, Repr, Inhabited

/-- A date, a time, or both, perhaps with an offset. -/
structure DateTime where
  date : Option Date
  time : Option TimeOfDay
  offset : Option ClockOffset
  deriving DecidableEq, Repr, Inhabited

/-- A number with at least `width` digits. -/
def paddedNat (width n : Nat) : List Char :=
  let ds := Nat.toDigits 10 n
  List.replicate (width - ds.length) '0' ++ ds

namespace DateTime

def dateChars (d : Date) : List Char :=
  paddedNat 4 d.year ++ '-' :: paddedNat 2 d.month ++ '-' :: paddedNat 2 d.day

def timeChars (t : TimeOfDay) : List Char :=
  paddedNat 2 t.hour ++ ':' :: paddedNat 2 t.minute ++ ':' :: paddedNat 2 t.second ++
    if t.nanosecond = 0 then []
    else '.' :: ((paddedNat 9 t.nanosecond).reverse.dropWhile (· == '0')).reverse

def offsetChars : ClockOffset → List Char
  | .universal => ['Z']
  | .minutes m =>
    (if m < 0 then '-' else '+') :: paddedNat 2 (m.natAbs / 60) ++ ':' :: paddedNat 2 (m.natAbs % 60)

def text (d : DateTime) : String :=
  String.ofList <|
    (d.date.map dateChars).getD [] ++
    (if d.date.isSome && d.time.isSome then ['T'] else []) ++
    (d.time.map timeChars).getD [] ++ (d.offset.map offsetChars).getD []

end DateTime

inductive Toml where
  | string (value : String)
  | integer (value : Int)
  | float (value : Floating)
  | boolean (value : Bool)
  | dateTime (value : DateTime)
  | array (items : List Toml)
  | table (entries : List (String × Toml))
  deriving Repr, Inhabited

end PhpStyle
