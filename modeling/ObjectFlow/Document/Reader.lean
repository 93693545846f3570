import ObjectFlow.Document.Token

/-!
# Reading documents

The second half of reading: tokens are put together to a tree. The reader is a machine that takes
one token at a time and keeps the arrays and objects that are still open on a stack, so that however
deep a document is nested it is read in one pass.
-/

namespace ObjectFlow

/-- An array or object that is still open. The newest item or member comes first. The name of a
member is `none` if it escapes half of a pair of code units. -/
inductive Frame
  | arr (items : List Json)
  | obj (members : List (Option String × Json))
  /-- An object whose newest member still lacks its value. -/
  | member (members : List (Option String × Json)) (name : Option String)

/-- What may come next. -/
inductive Expected
  | value
  /-- An item, or the end of an array without items. -/
  | firstItem
  | name
  /-- A name, or the end of an object without members. -/
  | firstName
  | colon (name : Option String)
  /-- A comma or the end of the innermost frame. -/
  | separator

inductive Reader
  | reading (open_ : List Frame) (expected : Expected)
  | done (j : Json)

namespace Reader

/-- Put a finished value where it belongs. -/
def deliver (j : Json) : List Frame → Option Reader
  | [] => some (.done j)
  | .arr items :: rest => some (.reading (.arr (j :: items) :: rest) .separator)
  | .member members name :: rest => some (.reading (.obj ((name, j) :: members) :: rest) .separator)
  | .obj _ :: _ => none

/-- The object with the given members, the newest one first. -/
def close (members : List (Option String × Json)) : Json :=
  if members.all (·.1.isSome) then
    .obj (members.reverse.filterMap fun (name, j) => name.map (·, j))
  else .illFormed

def wordValue? (w : List Char) : Option Json :=
  if w = "null".toList then some .null
  else if w = "true".toList then some (.bool true)
  else if w = "false".toList then some (.bool false)
  else none

/-- Take a token that starts a value. -/
def beginValue (stack : List Frame) : Token → Option Reader
  | .openArray => some (.reading (.arr [] :: stack) .firstItem)
  | .openObject => some (.reading (.obj [] :: stack) .firstName)
  | .text s => deliver ((s.map Json.str).getD .illFormed) stack
  | .number literal => (Token.numberValue? literal).bind (deliver · stack)
  | .word w => (wordValue? w).bind (deliver · stack)
  | _ => none

def step : Reader → Token → Option Reader
  | .done _, _ => none
  | .reading stack .value, t => beginValue stack t
  | .reading (.arr items :: rest) .firstItem, .closeArray => deliver (.arr items.reverse) rest
  | .reading stack .firstItem, t => beginValue stack t
  | .reading (.obj members :: rest) .firstName, .closeObject => deliver (close members) rest
  | .reading stack .firstName, .text name => some (.reading stack (.colon name))
  | .reading stack .name, .text name => some (.reading stack (.colon name))
  | .reading (.obj members :: rest) (.colon name), .colon =>
    some (.reading (.member members name :: rest) .value)
  | .reading (.arr items :: rest) .separator, .comma => some (.reading (.arr items :: rest) .value)
  | .reading (.arr items :: rest) .separator, .closeArray => deliver (.arr items.reverse) rest
  | .reading (.obj members :: rest) .separator, .comma =>
    some (.reading (.obj members :: rest) .name)
  | .reading (.obj members :: rest) .separator, .closeObject => deliver (close members) rest
  | .reading _ _, _ => none

end Reader

namespace Json

/-- The document that a list of tokens spells. -/
def ofTokens? (ts : List Token) : Option Json := do
  match ← ts.foldlM Reader.step (.reading [] .value) with
  | .done j => some j
  | .reading .. => none

/-- The document that a text spells. Blanks may stand around it and between its tokens. -/
def parse? (s : String) : Option Json := do ofTokens? (← Token.scan s.toList)

end Json

end ObjectFlow
