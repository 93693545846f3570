import ObjectFlow.Document.Decoder
import ObjectFlow.Document.Reader
import ObjectFlow.Program.Model

/-!
# Program models as documents

How each part of a model is written as a document and taken off one. Writing gives every field, in a
fixed order; reading also accepts the other forms that `ObjectFlow.Document.Decoder` describes.
-/

namespace ObjectFlow

/-! ## Identifiers and names -/

/-- An identifier is written as its number, which has 32 bits. -/
def Id.decoder (kind : Kind) : Decoder (Id kind) := fun room j =>
  (Decoder.natOfBits 32 room j).map Id.mk

def Id.toJson {kind : Kind} (i : Id kind) : Json := .int i.index

def Id.optionToJson {kind : Kind} (i : Option (Id kind)) : Json := (i.map Id.toJson).getD .null

def Id.listToJson {kind : Kind} (is : List (Id kind)) : Json := .arr (is.map Id.toJson)

def VarId.decoder : Decoder VarId := Id.decoder .vars

def ClassId.decoder : Decoder ClassId := Id.decoder .classes

namespace BinaryOp

def named? (s : String) : Option BinaryOp := all.find? (·.text = s)

/-- Operators are written by name. -/
def decoder : Decoder BinaryOp := Decoder.oneOf named?

end BinaryOp

namespace CallKind

def named? (s : String) : Option CallKind := all.find? (·.text = s)

def decoder : Decoder CallKind := Decoder.oneOf named?

end CallKind

/-! ## Types -/

namespace Ty

/-- The types that are a bare word. -/
def basic : List Ty := [int, boolean, byte, short, char, long, float, double, null, void]

def named? (s : String) : Option Ty := basic.find? (·.text = s)

/-- Basic types are written by name, the others with what they are made of. -/
def decoder : Decoder Ty
  | room + 1, .obj [("class", j)] => (Id.decoder .classes room j).map ref
  | room + 1, .obj [("array", j)] => (decoder room j).map array
  | room, j => Decoder.oneOf named? room j

def toJson : Ty → Json
  | ref c => .obj [("class", c.toJson)]
  | array element => .obj [("array", element.toJson)]
  | ty => .str ty.text

end Ty

/-! ## Statements -/

def MethodRef.decoder : Decoder MethodRef :=
  Decoder.record ["class", "subsignature"] fun f => do
    return ⟨← f.required "class" ClassId.decoder, ← f.required "subsignature" Decoder.string⟩

def MethodRef.toJson (r : MethodRef) : Json :=
  .obj [("class", r.owner.toJson), ("subsignature", .str r.subsignature)]

def FieldAccess.decoder : Decoder FieldAccess :=
  Decoder.record ["base", "field"] fun f => do
    return ⟨← f.optional "base" VarId.decoder, ← f.required "field" (Id.decoder .fields)⟩

def FieldAccess.toJson (a : FieldAccess) : Json :=
  .obj [("base", Id.optionToJson a.base), ("field", a.field.toJson)]

def Invoke.decoder : Decoder Invoke :=
  Decoder.record ["kind", "lhs", "receiver", "method", "args"] fun f => do
    return {
      kind := ← f.required "kind" CallKind.decoder
      result := ← f.optional "lhs" VarId.decoder
      receiver := ← f.optional "receiver" VarId.decoder
      target := ← f.required "method" MethodRef.decoder
      args := ← f.required "args" (Decoder.list VarId.decoder) }

def Invoke.toJson (call : Invoke) : Json :=
  .obj [("kind", .str call.kind.text), ("lhs", Id.optionToJson call.result),
    ("receiver", Id.optionToJson call.receiver), ("method", call.target.toJson),
    ("args", Id.listToJson call.args)]

namespace Stmt

def targetDecoder : Decoder Nat := Decoder.natOfBits 64

/-- What a statement of the named form holds. -/
def payload (name : String) : Decoder Stmt :=
  match name with
  | "new" => Decoder.record ["lhs", "ty"] fun f => do
    return alloc (← f.required "lhs" VarId.decoder) (← f.required "ty" Ty.decoder)
  | "copy" => Decoder.record ["lhs", "rhs"] fun f => do
    return copy (← f.required "lhs" VarId.decoder) (← f.required "rhs" VarId.decoder)
  | "cast" => Decoder.record ["lhs", "rhs", "ty"] fun f => do
    return cast (← f.required "lhs" VarId.decoder) (← f.required "rhs" VarId.decoder)
      (← f.required "ty" Ty.decoder)
  | "literal" => Decoder.record ["lhs", "value"] fun f => do
    return literal (← f.required "lhs" VarId.decoder) (← f.required "value" Decoder.int32)
  | "binary" => Decoder.record ["lhs", "op", "op0", "op1"] fun f => do
    return binary (← f.required "lhs" VarId.decoder) (← f.required "op" BinaryOp.decoder)
      (← f.required "op0" VarId.decoder) (← f.required "op1" VarId.decoder)
  | "load-field" => Decoder.record ["lhs", "access"] fun f => do
    return loadField (← f.required "lhs" VarId.decoder) (← f.required "access" FieldAccess.decoder)
  | "store-field" => Decoder.record ["access", "rhs"] fun f => do
    return storeField (← f.required "access" FieldAccess.decoder) (← f.required "rhs" VarId.decoder)
  | "load-array" => Decoder.record ["lhs", "base", "index"] fun f => do
    return loadArray (← f.required "lhs" VarId.decoder) (← f.required "base" VarId.decoder)
      (← f.required "index" VarId.decoder)
  | "store-array" => Decoder.record ["base", "index", "rhs"] fun f => do
    return storeArray (← f.required "base" VarId.decoder) (← f.required "index" VarId.decoder)
      (← f.required "rhs" VarId.decoder)
  | "invoke" => fun room j => (Invoke.decoder room j).map invoke
  | "if" => Decoder.record ["op", "op0", "op1", "target"] fun f => do
    return branch (← f.required "op" BinaryOp.decoder) (← f.required "op0" VarId.decoder)
      (← f.required "op1" VarId.decoder) (← f.required "target" targetDecoder)
  | "switch" => Decoder.record ["var", "cases", "default"] fun f => do
    return switch (← f.required "var" VarId.decoder)
      (← f.required "cases" (Decoder.list (Decoder.pair Decoder.int32 targetDecoder)))
      (← f.required "default" targetDecoder)
  | "goto" => Decoder.record ["target"] fun f => do
    return goto (← f.required "target" targetDecoder)
  | "return" => Decoder.record ["value"] fun f => do
    return ret (← f.optional "value" VarId.decoder)
  | _ => fun _ _ => none

/-- A statement is written as a choice between its forms. -/
def decoder : Decoder Stmt := fun room j =>
  match Decoder.choice? room j with
  | some ("nop", none, _) | some ("nop", some .null, _) => some nop
  | some (name, some j, room) => payload name room j
  | _ => none

def toJson : Stmt → Json
  | alloc lhs ty => .obj [("new", .obj [("lhs", lhs.toJson), ("ty", ty.toJson)])]
  | copy lhs rhs => .obj [("copy", .obj [("lhs", lhs.toJson), ("rhs", rhs.toJson)])]
  | cast lhs rhs ty =>
    .obj [("cast", .obj [("lhs", lhs.toJson), ("rhs", rhs.toJson), ("ty", ty.toJson)])]
  | literal lhs value =>
    .obj [("literal", .obj [("lhs", lhs.toJson), ("value", .int value.toInt)])]
  | binary lhs op left right =>
    .obj [("binary", .obj [("lhs", lhs.toJson), ("op", .str op.text), ("op0", left.toJson),
      ("op1", right.toJson)])]
  | loadField lhs access =>
    .obj [("load-field", .obj [("lhs", lhs.toJson), ("access", access.toJson)])]
  | storeField access rhs =>
    .obj [("store-field", .obj [("access", access.toJson), ("rhs", rhs.toJson)])]
  | loadArray lhs base index =>
    .obj [("load-array", .obj [("lhs", lhs.toJson), ("base", base.toJson),
      ("index", index.toJson)])]
  | storeArray base index rhs =>
    .obj [("store-array", .obj [("base", base.toJson), ("index", index.toJson),
      ("rhs", rhs.toJson)])]
  | invoke call => .obj [("invoke", call.toJson)]
  | branch op left right target =>
    .obj [("if", .obj [("op", .str op.text), ("op0", left.toJson), ("op1", right.toJson),
      ("target", .int target)])]
  | switch on cases default =>
    .obj [("switch", .obj [("var", on.toJson),
      ("cases", .arr (cases.map fun c => .arr [.int c.1.toInt, .int c.2])),
      ("default", .int default)])]
  | goto target => .obj [("goto", .obj [("target", .int target)])]
  | ret value => .obj [("return", .obj [("value", Id.optionToJson value)])]
  | nop => .str "nop"

end Stmt

/-! ## Declarations -/

def ClassDecl.decoder : Decoder ClassDecl :=
  Decoder.record ["name", "superclass", "interfaces", "is_interface", "is_abstract"] fun f => do
    return {
      name := ← f.required "name" Decoder.string
      superclass := ← f.withDefault "superclass" (Decoder.option ClassId.decoder) none
      interfaces := ← f.withDefault "interfaces" (Decoder.list ClassId.decoder) []
      isInterface := ← f.withDefault "is_interface" Decoder.bool false
      isAbstract := ← f.withDefault "is_abstract" Decoder.bool false }

def ClassDecl.toJson (d : ClassDecl) : Json :=
  .obj [("name", .str d.name), ("superclass", Id.optionToJson d.superclass),
    ("interfaces", Id.listToJson d.interfaces), ("is_interface", .bool d.isInterface),
    ("is_abstract", .bool d.isAbstract)]

def FieldDecl.decoder : Decoder FieldDecl :=
  Decoder.record ["class", "name", "ty", "is_static"] fun f => do
    return {
      owner := ← f.required "class" ClassId.decoder
      name := ← f.required "name" Decoder.string
      ty := ← f.required "ty" Ty.decoder
      isStatic := ← f.withDefault "is_static" Decoder.bool false }

def FieldDecl.toJson (d : FieldDecl) : Json :=
  .obj [("class", d.owner.toJson), ("name", .str d.name), ("ty", d.ty.toJson),
    ("is_static", .bool d.isStatic)]

def VarDecl.decoder : Decoder VarDecl :=
  Decoder.record ["method", "name", "ty"] fun f => do
    return {
      method := ← f.required "method" (Id.decoder .methods)
      name := ← f.required "name" Decoder.string
      ty := ← f.required "ty" Ty.decoder }

def VarDecl.toJson (d : VarDecl) : Json :=
  .obj [("method", d.method.toJson), ("name", .str d.name), ("ty", d.ty.toJson)]

def MethodDecl.decoder : Decoder MethodDecl :=
  Decoder.record ["class", "name", "subsignature", "is_static", "is_abstract", "params", "this",
      "return_type", "body"] fun f => do
    return {
      owner := ← f.required "class" ClassId.decoder
      name := ← f.required "name" Decoder.string
      subsignature := ← f.required "subsignature" Decoder.string
      isStatic := ← f.withDefault "is_static" Decoder.bool false
      isAbstract := ← f.withDefault "is_abstract" Decoder.bool false
      params := ← f.withDefault "params" (Decoder.list VarId.decoder) []
      this := ← f.withDefault "this" (Decoder.option VarId.decoder) none
      returnType := ← f.required "return_type" Ty.decoder
      body := (← f.withDefault "body" (Decoder.list Stmt.decoder) []).toArray }

def MethodDecl.toJson (d : MethodDecl) : Json :=
  .obj [("class", d.owner.toJson), ("name", .str d.name), ("subsignature", .str d.subsignature),
    ("is_static", .bool d.isStatic), ("is_abstract", .bool d.isAbstract),
    ("params", Id.listToJson d.params), ("this", Id.optionToJson d.this),
    ("return_type", d.returnType.toJson), ("body", .arr (d.body.toList.map Stmt.toJson))]

namespace Model

def decoder : Decoder Model :=
  Decoder.record ["classes", "fields", "methods", "vars", "entry"] fun f => do
    return {
      classes := (← f.required "classes" (Decoder.list ClassDecl.decoder)).toArray
      fields := (← f.withDefault "fields" (Decoder.list FieldDecl.decoder) []).toArray
      methods := (← f.required "methods" (Decoder.list MethodDecl.decoder)).toArray
      vars := (← f.withDefault "vars" (Decoder.list VarDecl.decoder) []).toArray
      entry := ← f.required "entry" (Id.decoder .methods) }

def toJson (m : Model) : Json :=
  .obj [("classes", .arr (m.classes.toList.map ClassDecl.toJson)),
    ("fields", .arr (m.fields.toList.map FieldDecl.toJson)),
    ("methods", .arr (m.methods.toList.map MethodDecl.toJson)),
    ("vars", .arr (m.vars.toList.map VarDecl.toJson)), ("entry", m.entry.toJson)]

def ofJson? (j : Json) : Option Model := decoder Decoder.maxNesting j

/-- The model that the text of a document describes. -/
def parse? (text : String) : Option Model := do ofJson? (← Json.parse? text)

def print (m : Model) : String := m.toJson.print

end Model

end ObjectFlow
