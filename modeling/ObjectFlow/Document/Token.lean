import ObjectFlow.Document.Json

/-!
# Tokens

The first half of reading a document: a text is cut into punctuation, strings, numbers and words.
The scanner is a machine that takes one character at a time, so scanning is a fold over the text.
-/

namespace ObjectFlow

/-- The pieces of a document's text. -/
inductive Token
  | openArray | closeArray | openObject | closeObject | comma | colon
  /-- A string; `none` if it escapes half of a pair of code units. -/
  | text (s : Option String)
  /-- A run of the characters that numbers are written with. -/
  | number (literal : List Char)
  /-- A run of small letters. -/
  | word (w : List Char)
deriving DecidableEq, Repr

namespace Token

/-! ## Strings -/

/-- The character for two code units, if they form a pair. -/
def pairedUnits (high low : Nat) : Option Char :=
  if 0xd800 ≤ high ∧ high < 0xdc00 ∧ 0xdc00 ≤ low ∧ low < 0xe000 then
    some (Char.ofNat (0x10000 + (high - 0xd800) * 0x400 + (low - 0xdc00)))
  else none

/-- Whether a code is that of half a pair. -/
def isHalf (code : Nat) : Bool := 0xd800 ≤ code && code < 0xe000

/-- The characters for codes, where two neighbouring halves of a pair stand for one character and a
half on its own for none. -/
def charsOfCodes : List Nat → Option (List Char)
  | [] => some []
  | [code] => if isHalf code then none else some [Char.ofNat code]
  | code :: low :: rest =>
    if isHalf code then
      match pairedUnits code low, charsOfCodes rest with
      | some c, some cs => some (c :: cs)
      | _, _ => none
    else (charsOfCodes (low :: rest)).map (Char.ofNat code :: ·)

def hexValue? (c : Char) : Option Nat :=
  if '0' ≤ c ∧ c ≤ '9' then some (c.toNat - '0'.toNat)
  else if 'a' ≤ c ∧ c ≤ 'f' then some (c.toNat - 'a'.toNat + 10)
  else if 'A' ≤ c ∧ c ≤ 'F' then some (c.toNat - 'A'.toNat + 10)
  else none

/-- The code that a one-letter escape stands for. -/
def escapeCode? : Char → Option Nat
  | '"' => some 0x22
  | '\\' => some 0x5c
  | '/' => some 0x2f
  | 'b' => some 0x08
  | 'f' => some 0x0c
  | 'n' => some 0x0a
  | 'r' => some 0x0d
  | 't' => some 0x09
  | _ => none

/-! ## The scanner -/

/-- Whether a character may stand between tokens. -/
def isSpace (c : Char) : Bool := c = ' ' || c = '\t' || c = '\n' || c = '\r'

/-- Whether numbers are written with this character. -/
def isNumeric (c : Char) : Bool :=
  c.isDigit || c = '-' || c = '+' || c = '.' || c = 'e' || c = 'E'

/-- Where the scanner stands in the text. -/
inductive Mode
  | between
  /-- In a word, with its letters so far, the last one first. -/
  | inWord (letters : List Char)
  /-- In a number, with its characters so far, the last one first. -/
  | inNumber (literal : List Char)
  /-- In a string, with its codes so far, the last one first. -/
  | inText (codes : List Nat)
  /-- After a backslash. -/
  | inEscape (codes : List Nat)
  /-- Among the four digits of a code: how many are still to come, and their value so far. -/
  | inCode (codes : List Nat) (missing : Nat) (value : Nat)

/-- The state of the scanner: where it stands, and the tokens found so far, the last one first. -/
structure Scanner where
  mode : Mode
  found : List Token

namespace Scanner

/-- Go on after a token. -/
def emit (s : Scanner) (t : Token) : Scanner := ⟨.between, t :: s.found⟩

/-- End the word or the number that the scanner is in. -/
def finish (s : Scanner) : Scanner :=
  match s.mode with
  | .inWord letters => s.emit (.word letters.reverse)
  | .inNumber literal => s.emit (.number literal.reverse)
  | _ => s

/-- Take a character between tokens. -/
def start (s : Scanner) (c : Char) : Option Scanner :=
  if isSpace c then some s
  else if c = '[' then some (s.emit .openArray)
  else if c = ']' then some (s.emit .closeArray)
  else if c = '{' then some (s.emit .openObject)
  else if c = '}' then some (s.emit .closeObject)
  else if c = ',' then some (s.emit .comma)
  else if c = ':' then some (s.emit .colon)
  else if c = '"' then some { s with mode := .inText [] }
  else if c.isDigit || c = '-' then some { s with mode := .inNumber [c] }
  else if c.isLower then some { s with mode := .inWord [c] }
  else none

def step (s : Scanner) (c : Char) : Option Scanner :=
  match s.mode with
  | .between => s.start c
  | .inWord letters =>
    if c.isLower then some { s with mode := .inWord (c :: letters) } else s.finish.start c
  | .inNumber literal =>
    if isNumeric c then some { s with mode := .inNumber (c :: literal) } else s.finish.start c
  | .inText codes =>
    if c = '"' then some (s.emit (.text ((charsOfCodes codes.reverse).map String.ofList)))
    else if c = '\\' then some { s with mode := .inEscape codes }
    else if c.toNat < 0x20 then none
    else some { s with mode := .inText (c.toNat :: codes) }
  | .inEscape codes =>
    if c = 'u' then some { s with mode := .inCode codes 4 0 }
    else (escapeCode? c).map fun code => { s with mode := .inText (code :: codes) }
  | .inCode codes missing value =>
    (hexValue? c).map fun digit =>
      let value := value * 16 + digit
      if missing ≤ 1 then { s with mode := .inText (value :: codes) }
      else { s with mode := .inCode codes (missing - 1) value }

end Scanner

def scan (cs : List Char) : Option (List Token) := do
  let s := (← cs.foldlM Scanner.step ⟨.between, []⟩).finish
  match s.mode with
  | .between => some s.found.reverse
  | _ => none

/-! ## Numbers -/

/-- The number that a run of numeric characters stands for. An optional minus sign, digits without a
leading zero, then optionally a fraction and an exponent; with neither it is an integer, except that
the negative zero is not. -/
def numberValue? (literal : List Char) : Option Json :=
  let negative := literal.head? = some '-'
  let unsigned := if negative then literal.drop 1 else literal
  let whole := unsigned.takeWhile Char.isDigit
  let rest := unsigned.dropWhile Char.isDigit
  let fraction? := if rest.head? = some '.' then some (rest.drop 1) else none
  let afterFraction := (fraction?.map (·.dropWhile Char.isDigit)).getD rest
  let exponent? :=
    if afterFraction.head? = some 'e' ∨ afterFraction.head? = some 'E' then
      some (afterFraction.drop 1)
    else none
  let exponentDigits? := exponent?.map fun e =>
    if e.head? = some '+' ∨ e.head? = some '-' then e.drop 1 else e
  let wholeOk := whole ≠ [] ∧ (whole.head? = some '0' → whole = ['0'])
  let fractionOk := fraction?.all fun f => f.takeWhile Char.isDigit ≠ []
  let exponentOk := exponentDigits?.all fun e => e ≠ [] && e.all Char.isDigit
  let ended := exponent?.isSome || afterFraction = []
  if wholeOk ∧ fractionOk ∧ exponentOk ∧ ended then
    let value := whole.foldl (fun n c => n * 10 + (c.toNat - '0'.toNat)) 0
    if fraction?.isSome || exponent?.isSome || (negative && value = 0) then
      some (.decimal (String.ofList literal))
    else some (.int (if negative then -value else value))
  else none

end Token

end ObjectFlow
