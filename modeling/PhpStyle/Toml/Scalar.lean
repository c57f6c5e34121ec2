import PhpStyle.Text.Reader
import PhpStyle.Toml.Basic

/-!
Reading the scalar values of TOML: texts, numbers, dates and times.
-/

namespace PhpStyle.Toml.Reading

open Reader

def isSpace (c : Char) : Bool :=
  c == ' ' || c == '\t'

/-- Characters outside ASCII. -/
def isWide (c : Char) : Bool :=
  0x80 ≤ c.toNat

/-- The characters of a comment. -/
def isCommentChar (c : Char) : Bool :=
  c == '\t' || (' ' ≤ c && c ≤ '~') || isWide c

/-- The characters of a text in double quotes that stand for themselves. -/
def isBasicChar (c : Char) : Bool :=
  isCommentChar c && c != '\x22' && c != '\\'

/-- The characters of a text in single quotes. -/
def isLiteralChar (c : Char) : Bool :=
  isCommentChar c && c != '\x27'

def spaces : Reader Unit := do
  let _ ← run isSpace

/-- A line feed, perhaps after a carriage return. -/
def newline : Reader Unit :=
  orElse (text "\n") (text "\r\n")

def digitValue (c : Char) : Nat :=
  if c.isDigit then c.toNat - '0'.toNat
  else if 'a' ≤ c then c.toNat - 'a'.toNat + 10
  else c.toNat - 'A'.toNat + 10

def natOf (base : Nat) (cs : List Char) : Nat :=
  cs.foldl (fun n c => n * base + digitValue c) 0

def isHex (c : Char) : Bool :=
  c.isDigit || ('a' ≤ c && c ≤ 'f') || ('A' ≤ c && c ≤ 'F')

/-! ### Texts -/

/-- The character with a code point of `n` hexadecimal digits. -/
def codePoint (n : Nat) : Reader Char := do
  let value := natOf 16 (← count n isHex)
  guard (value < 0xD800 || (0xE000 ≤ value && value < 0x110000))
  return Char.ofNat value

/-- A backslash and what follows it. -/
def escaped : Reader Char := do
  text "\\"
  match ← char fun _ => true with
  | 'b' => return '\x08'
  | 't' => return '\t'
  | 'n' => return '\n'
  | 'f' => return '\x0c'
  | 'r' => return '\r'
  | '\x22' => return '\x22'
  | '\\' => return '\\'
  | 'u' => codePoint 4
  | 'U' => codePoint 8
  | _ => failure

/-- A text on one line in double quotes. -/
def basicString : Reader (List Char) := do
  text "\x22"
  let pieces ← many (orElse (run1 isBasicChar) (do return [← escaped]))
  text "\x22"
  return pieces.flatten

/-- A text on one line in single quotes. -/
def literalString : Reader (List Char) := do
  text "\x27"
  let body ← run isLiteralChar
  text "\x27"
  return body

/-- A backslash at the end of a line, with all blanks and lines feeds after it. -/
def lineContinuation : Reader Unit := do
  text "\\"
  spaces
  newline
  let _ ← many (orElse newline (do let _ ← run1 isSpace))

/-- One or two quotes that do not end a text. -/
def innerQuotes (quote : Char) : Reader (List Char) := do
  let quotes ← run1 (· == quote)
  guard (quotes.length < 3)
  return quotes

/-- The quotes that end a text on several lines, with up to two that still belong to it. -/
def closingQuotes (quote : Char) : Reader (List Char) :=
  fun cs =>
    let n := (cs.takeWhile (· == quote)).length
    if n < 3 then none
    else
      let inner := min (n - 3) 2
      some (List.replicate inner quote, cs.drop (inner + 3))

/-- A text on several lines, `piece` reading what is between its quotes. -/
def longString (quote : Char) (piece : Reader (List Char)) : Reader (List Char) := do
  text (String.ofList [quote, quote, quote])
  let _ ← attempt newline
  let pieces ← many (orElse piece (orElse (do newline; return ['\n']) (innerQuotes quote)))
  return pieces.flatten ++ (← closingQuotes quote)

def longBasicString : Reader (List Char) :=
  longString '\x22' <|
    orElse (run1 isBasicChar) (orElse (do lineContinuation; return []) (do return [← escaped]))

def longLiteralString : Reader (List Char) :=
  longString '\x27' (run1 isLiteralChar)

def string : Reader (List Char) :=
  orElse longBasicString (orElse basicString (orElse longLiteralString literalString))

/-! ### Numbers -/

/-- Digits with single underscores between them. -/
def digitGroups (p : Char → Bool) : Reader (List Char) := do
  let groups ← sepBy1 (run1 p) (text "_")
  return groups.flatten

def sign : Reader (Option Char) :=
  attempt (char fun c => c == '+' || c == '-')

/-- Decimal digits without a leading zero. -/
def wholeDigits : Reader (List Char) := do
  if (← peek) = some '0' then return [← char (· == '0')] else digitGroups Char.isDigit

/-- Digits in another base after its mark. -/
def radixInteger (mark : String) (base : Nat) (p : Char → Bool) : Reader Int := do
  text mark
  let n := natOf base (← digitGroups p)
  guard (n < Nat.pow 2 63)
  return n

def decimalInteger : Reader Int := do
  let negative := (← sign) = some '-'
  let n := natOf 10 (← wholeDigits)
  guard (if negative then n ≤ Nat.pow 2 63 else n < Nat.pow 2 63)
  return if negative then -n else n

def integer : Reader Int :=
  orElse (radixInteger "0x" 16 isHex)
    (orElse (radixInteger "0o" 8 fun c => '0' ≤ c && c ≤ '7')
      (orElse (radixInteger "0b" 2 fun c => c == '0' || c == '1') decimalInteger))

def fraction : Reader (List Char) := do
  text "."
  digitGroups Char.isDigit

def exponent : Reader Int := do
  let _ ← char fun c => c == 'e' || c == 'E'
  let negative := (← sign) = some '-'
  let n : Int := natOf 10 (← digitGroups Char.isDigit)
  return if negative then -n else n

/-- A number with a fraction, an exponent or both. One too large is refused, unless it is negative. -/
def decimalFloat : Reader Floating := do
  let negative := (← sign) = some '-'
  let whole ← wholeDigits
  let part ← attempt fraction
  let power ← attempt exponent
  guard (part.isSome || power.isSome)
  let places := part.getD []
  match Binary.ofDecimal? ⟨natOf 10 (whole ++ places), power.getD 0 - places.length⟩ with
  | some b => return .finite negative b
  | none => if negative then return .infinity true else failure

def specialFloat : Reader Floating := do
  let negative := (← sign) = some '-'
  orElse (do text "inf"; return .infinity negative) (do text "nan"; return .nan negative)

def float : Reader Floating :=
  orElse decimalFloat specialFloat

/-! ### Dates and times -/

/-- A number of exactly `n` digits between two bounds. -/
def field (n least greatest : Nat) : Reader Nat := do
  let value := natOf 10 (← count n Char.isDigit)
  guard (least ≤ value && value ≤ greatest)
  return value

def isLeap (year : Nat) : Bool :=
  year % 4 == 0 && (year % 100 != 0 || year % 400 == 0)

def daysIn (year month : Nat) : Nat :=
  if month = 2 then if isLeap year then 29 else 28
  else if [4, 6, 9, 11].contains month then 30
  else 31

def date : Reader Date := do
  let year ← field 4 0 9999
  text "-"
  let month ← field 2 1 12
  text "-"
  let day ← field 2 1 31
  guard (day ≤ daysIn year month)
  return ⟨year, month, day⟩

/-- Nanoseconds; further digits are dropped. -/
def nanoseconds : Reader Nat := do
  text "."
  let ds := (← run1 Char.isDigit).take 9
  return natOf 10 ds * Nat.pow 10 (9 - ds.length)

def timeOfDay : Reader TimeOfDay := do
  let hour ← field 2 0 23
  text ":"
  let minute ← field 2 0 59
  text ":"
  let second ← field 2 0 60
  return ⟨hour, minute, second, (← attempt nanoseconds).getD 0⟩

def clockOffset : Reader ClockOffset :=
  orElse (do let _ ← char fun c => c == 'Z' || c == 'z'; return .universal) do
    let s ← char fun c => c == '+' || c == '-'
    let hours ← field 2 0 23
    text ":"
    let total : Int := hours * 60 + (← field 2 0 59)
    return .minutes (if s = '-' then -total else total)

/-- A time after a date. -/
def timeAfterDate : Reader (TimeOfDay × Option ClockOffset) := do
  let _ ← char fun c => c == 'T' || c == 't' || c == ' '
  return (← timeOfDay, ← attempt clockOffset)

def dateTime : Reader DateTime :=
  orElse
    (do
      let d ← date
      let rest ← attempt timeAfterDate
      return ⟨some d, rest.map (·.1), rest.bind (·.2)⟩)
    (do return ⟨none, some (← timeOfDay), none⟩)

/-! ### All of them -/

def scalar : Reader Toml := do
  match ← peek with
  | some '\x22' | some '\x27' => return .string (String.ofList (← string))
  | some 't' => do text "true"; return .boolean true
  | some 'f' => do text "false"; return .boolean false
  | _ =>
    orElse (do return .dateTime (← dateTime))
      (orElse (do return .float (← float)) (do return .integer (← integer)))

end PhpStyle.Toml.Reading
