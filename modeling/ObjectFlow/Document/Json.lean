/-!
# Documents

A document is a tree of values in the JSON format. Members of an object keep their order and may
share a name. Numbers are integers; a number that is written in any other way is kept as it is
written, for nothing here gives it a meaning.

`Json.print` writes a document without blanks.
-/

namespace ObjectFlow

inductive Json
  | null
  | bool (b : Bool)
  | int (n : Int)
  /-- A number with a fraction or an exponent, or the negative zero. -/
  | decimal (literal : String)
  | str (s : String)
  | arr (items : List Json)
  | obj (members : List (String × Json))
  /-- A string, or the name of a member, escapes half of a pair of code units. It can be passed over
  but not read. -/
  | illFormed
deriving Inhabited

namespace Json

/-! ## Writing -/

/-- The digit of a number below sixteen. -/
def hexDigit (n : Nat) : Char := Nat.digitChar n

/-- A character inside a string: quotes, backslashes and control characters are escaped. -/
def escape (c : Char) : List Char :=
  if c = '"' then ['\\', '"']
  else if c = '\\' then ['\\', '\\']
  else if c = '\x08' then ['\\', 'b']
  else if c = '\t' then ['\\', 't']
  else if c = '\n' then ['\\', 'n']
  else if c = '\x0c' then ['\\', 'f']
  else if c = '\r' then ['\\', 'r']
  else if c.toNat < 0x20 then
    ['\\', 'u', '0', '0', hexDigit (c.toNat / 16), hexDigit (c.toNat % 16)]
  else [c]

def quote (s : String) : List Char := '"' :: (s.toList.flatMap escape ++ ['"'])

mutual

/-- The characters of a document, without blanks. -/
def chars : Json → List Char
  | null => "null".toList
  | bool true => "true".toList
  | bool false => "false".toList
  | int n => (toString n).toList
  | decimal literal => literal.toList
  | str s => quote s
  | arr items => '[' :: itemChars items
  | obj members => '{' :: memberChars members
  | illFormed => "null".toList

/-- The items of an array and the closing bracket. -/
def itemChars : List Json → List Char
  | [] => [']']
  | [j] => j.chars ++ [']']
  | j :: k :: rest => j.chars ++ ',' :: itemChars (k :: rest)

/-- The members of an object and the closing bracket. -/
def memberChars : List (String × Json) → List Char
  | [] => ['}']
  | [(name, j)] => quote name ++ ':' :: (j.chars ++ ['}'])
  | (name, j) :: k :: rest => quote name ++ ':' :: (j.chars ++ ',' :: memberChars (k :: rest))

end

/-- The text of a document, without blanks. -/
def print (j : Json) : String := String.ofList j.chars

/-! ## Members with the same name -/

/-- The members of an object without those that a later one of the same name replaces. -/
def lastOfEach : List (String × Json) → List (String × Json)
  | [] => []
  | (name, j) :: rest =>
    if (rest.lookup name).isSome then lastOfEach rest else (name, j) :: lastOfEach rest

mutual

/-- The document in which, of members with the same name, only the last one is left. -/
def lastWins : Json → Json
  | arr items => arr (lastWinsItems items)
  | obj members => obj (lastOfEach (lastWinsMembers members))
  | j => j

def lastWinsItems : List Json → List Json
  | [] => []
  | j :: rest => j.lastWins :: lastWinsItems rest

def lastWinsMembers : List (String × Json) → List (String × Json)
  | [] => []
  | (name, j) :: rest => (name, j.lastWins) :: lastWinsMembers rest

end

end Json

end ObjectFlow
