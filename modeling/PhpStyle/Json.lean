import PhpStyle.Decimal.Binary
import PhpStyle.Text.Search

/-!
JSON texts: a strict reader with a limit on nesting, and a printer with one entry a line.
-/

namespace PhpStyle

open Text

inductive Json where
  | null
  | bool (value : Bool)
  /-- A number as it is written. -/
  | number (text : String)
  | string (value : String)
  | array (items : List Json)
  /-- The entries of an object as they are written; of two with one key, the last counts. -/
  | object (entries : List (String × Json))
  deriving Repr, Inhabited

namespace Json

/-! ### Reading -/

def isBlank (c : Char) : Bool :=
  c == ' ' || c == '\n' || c == '\t' || c == '\r'

def skipBlanks (cs : List Char) : List Char :=
  cs.dropWhile isBlank

def hexValue? (c : Char) : Option Nat :=
  if c.isDigit then some (c.toNat - '0'.toNat)
  else if 'a' ≤ c && c ≤ 'f' then some (c.toNat - 'a'.toNat + 10)
  else if 'A' ≤ c && c ≤ 'F' then some (c.toNat - 'A'.toNat + 10)
  else none

/-- Four hexadecimal digits. -/
def unit? : List Char → Option (Nat × List Char)
  | a :: b :: c :: d :: rest => do
    let value := (((← hexValue? a) * 16 + (← hexValue? b)) * 16 + (← hexValue? c)) * 16 + (← hexValue? d)
    return (value, rest)
  | _ => none

/-- The character that a Unicode escape stands for; a high surrogate needs a low one after it. -/
def unicodeEscape? (cs : List Char) : Option (Char × List Char) := do
  let (high, rest) ← unit? cs
  if 0xDC00 ≤ high && high < 0xE000 then none
  else if 0xD800 ≤ high && high < 0xDC00 then
    let (low, rest) ← unit? (← after? ['\\', 'u'] rest)
    guard (0xDC00 ≤ low && low < 0xE000)
    return (Char.ofNat (0x10000 + (high - 0xD800) * 0x400 + (low - 0xDC00)), rest)
  else return (Char.ofNat high, rest)

/-- The character that the text after a backslash stands for. -/
def escape? : List Char → Option (Char × List Char)
  | '\x22' :: rest => some ('\x22', rest)
  | '\\' :: rest => some ('\\', rest)
  | '/' :: rest => some ('/', rest)
  | 'b' :: rest => some ('\x08', rest)
  | 'f' :: rest => some ('\x0c', rest)
  | 'n' :: rest => some ('\n', rest)
  | 'r' :: rest => some ('\r', rest)
  | 't' :: rest => some ('\t', rest)
  | 'u' :: rest => unicodeEscape? rest
  | _ => none

/-- The rest of a string after its opening quote, `done` holding in reverse what was read. -/
def stringTail? (done : List Char) (cs : List Char) : Option (String × List Char) :=
  match cs with
  | [] => none
  | c :: rest =>
    if c = '\x22' then some (String.ofList done.reverse, rest)
    else if c = '\\' then
      match escape? rest with
      | some (d, rest') => if rest'.length < rest.length then stringTail? (d :: done) rest' else none
      | none => none
    else if c.toNat < 0x20 then none
    else stringTail? (c :: done) rest
termination_by cs.length

def digits (cs : List Char) : List Char :=
  cs.takeWhile Char.isDigit

def natOfDigits (cs : List Char) : Nat :=
  cs.foldl (fun n c => n * 10 + (c.toNat - '0'.toNat)) 0

/-- A fraction after the integer digits, if there is a point. -/
def fraction? : List Char → Option (List Char × List Char)
  | '.' :: rest =>
    if (digits rest).isEmpty then none else some (digits rest, rest.dropWhile Char.isDigit)
  | rest => some ([], rest)

/-- An exponent and the text after it, if there is an exponent mark. -/
def exponent? (cs : List Char) : Option (Int × List Char) :=
  match cs with
  | c :: rest =>
    if c = 'e' || c = 'E' then
      let (negative, rest) := match rest with
        | '-' :: r => (true, r)
        | '+' :: r => (false, r)
        | r => (false, r)
      let ds := digits rest
      if ds.isEmpty then none
      else
        let n : Int := natOfDigits ds
        some (if negative then -n else n, rest.dropWhile Char.isDigit)
    else some (0, cs)
  | [] => some (0, [])

def number? (cs : List Char) : Option (Json × List Char) := do
  let unsigned := (after? ['-'] cs).getD cs
  let whole := digits unsigned
  guard (!whole.isEmpty && (whole.head? != some '0' || whole.length == 1))
  let (fraction, rest) ← fraction? (unsigned.drop whole.length)
  let (exponent, rest) ← exponent? rest
  guard (Binary.ofDecimal? ⟨natOfDigits (whole ++ fraction), exponent - fraction.length⟩).isSome
  return (.number (String.ofList (cs.take (cs.length - rest.length))), rest)

/-- Items with commas between them, up to the closing character. -/
def items? {α : Type} (item? : List Char → Option (α × List Char)) (close : Char)
    (cs : List Char) : Option (List α × List Char) :=
  match item? cs with
  | none => none
  | some (a, rest) =>
    match skipBlanks rest with
    | [] => none
    | c :: rest' =>
      if c = close then some ([a], rest')
      else if c = ',' ∧ rest'.length < cs.length then
        (items? item? close rest').map fun p => (a :: p.1, p.2)
      else none
termination_by cs.length

/-- Items up to the closing character, perhaps none. -/
def list? {α : Type} (item? : List Char → Option (α × List Char)) (close : Char)
    (cs : List Char) : Option (List α × List Char) :=
  match after? [close] (skipBlanks cs) with
  | some rest => some ([], rest)
  | none => items? item? close cs

/-- A key, a colon and a value. -/
def pairOf? (value? : List Char → Option (Json × List Char)) (cs : List Char) :
    Option ((String × Json) × List Char) := do
  let (key, rest) ← stringTail? [] (← after? ['\x22'] (skipBlanks cs))
  let (value, rest) ← value? (← after? [':'] (skipBlanks rest))
  return ((key, value), rest)

/-- A value with fewer than `depth` brackets open at once. -/
def value? : Nat → List Char → Option (Json × List Char)
  | 0, _ => none
  | depth + 1, cs =>
    match skipBlanks cs with
    | [] => none
    | c :: rest =>
      if c = '[' then
        if depth = 0 then none
        else (list? (value? depth) ']' rest).map fun p => (.array p.1, p.2)
      else if c = '\x7b' then
        if depth = 0 then none
        else (list? (pairOf? (value? depth)) '\x7d' rest).map fun p => (.object p.1, p.2)
      else if c = '\x22' then (stringTail? [] rest).map fun p => (.string p.1, p.2)
      else if c = 't' then (after? "rue".toList rest).map fun r => (.bool true, r)
      else if c = 'f' then (after? "alse".toList rest).map fun r => (.bool false, r)
      else if c = 'n' then (after? "ull".toList rest).map fun r => (.null, r)
      else number? (c :: rest)

/-- The number of brackets that may not be open at once. -/
def depthLimit : Nat :=
  128

/-- Reads a text that is one value. -/
def parse? (text : String) : Option Json := do
  let (value, rest) ← value? depthLimit text.toList
  guard (skipBlanks rest).isEmpty
  return value

/-! ### Looking things up -/

/-- The entries of an object in the order of their keys, each key once. -/
def sortedEntries (entries : List (String × Json)) : List (String × Json) :=
  let keys := ((entries.map (·.1)).mergeSort fun a b => a ≤ b).eraseDups
  keys.filterMap fun k => (entries.reverse.find? (·.1 == k))

def entries : Json → List (String × Json)
  | object es => sortedEntries es
  | _ => []

def get? (j : Json) (key : String) : Option Json :=
  match j with
  | object es => es.reverse.lookup key
  | _ => none

def string? : Json → Option String
  | string s => some s
  | _ => none

/-! ### Writing -/

def hexDigit (n : Nat) : Char :=
  (Nat.digitChar n)

def escapeChar (c : Char) : List Char :=
  if c = '\x22' then ['\\', '\x22']
  else if c = '\\' then ['\\', '\\']
  else if c = '\n' then ['\\', 'n']
  else if c = '\r' then ['\\', 'r']
  else if c = '\t' then ['\\', 't']
  else if c = '\x08' then ['\\', 'b']
  else if c = '\x0c' then ['\\', 'f']
  else if c.toNat < 0x20 then
    ['\\', 'u', '0', '0', hexDigit (c.toNat / 16), hexDigit (c.toNat % 16)]
  else [c]

def quote (s : String) : String :=
  String.ofList ('\x22' :: s.toList.flatMap escapeChar ++ ['\x22'])

def indent (n : Nat) : String :=
  String.ofList (List.replicate (2 * n) ' ')

/-- Written items between brackets, each on a line of its own. -/
def block (level : Nat) (opener closer : String) (items : List String) : String :=
  if items.isEmpty then opener ++ closer
  else opener ++ "\n" ++ ",\n".intercalate (items.map (indent (level + 1) ++ ·)) ++ "\n" ++
    indent level ++ closer

mutual

/-- The text of a value, `level` levels deep. -/
def write (level : Nat) : Json → String
  | null => "null"
  | bool b => if b then "true" else "false"
  | number t => t
  | string s => quote s
  | array items => block level "[" "]" (writeItems (level + 1) items)
  | object entries => block level "\x7b" "\x7d" (writeEntries (level + 1) entries)

def writeItems (level : Nat) : List Json → List String
  | [] => []
  | j :: js => j.write level :: writeItems level js

def writeEntries (level : Nat) : List (String × Json) → List String
  | [] => []
  | (k, j) :: es => (quote k ++ ": " ++ j.write level) :: writeEntries level es

end

def pretty (j : Json) : String :=
  j.write 0

def ofNat (n : Nat) : Json :=
  number (toString n)

end Json

end PhpStyle
