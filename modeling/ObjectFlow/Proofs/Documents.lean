import ObjectFlow.Document.Model
import ObjectFlow.Proofs.Decoding

/-!
# Models can be read back

A model that is written and read again comes out as it was, provided that its numbers have the bits
that documents give them and that its text is not nested too deep; otherwise it is not read at all
(`Model.reads_back`). Arrays of arrays can be nested too deep.
-/

namespace ObjectFlow

/-! ## Brackets -/

/-- How many brackets are open after a token, and how many have been open at once so far. -/
def Token.track (s : Nat × Nat) : Token → Nat × Nat
  | .openArray | .openObject => (s.1 + 1, max s.2 (s.1 + 1))
  | .closeArray | .closeObject => (s.1 - 1, s.2)
  | .comma | .colon | .text _ | .number _ | .word _ => s

/-- How many brackets of a text are open at once. -/
def Token.nesting (ts : List Token) : Nat := (ts.foldl track (0, 0)).2

namespace Json

/-- The tokens of a document leave as many brackets open as there were, and open as many more at
once as it is nested. -/
def Tracks (j : Json) : Prop :=
  ∀ n most, n ≤ most → j.tokens.foldl Token.track (n, most) = (n, max most (n + j.nesting))

theorem tracks_token {j : Json} {t : Token} (hj : j.tokens = [t]) (ht : ∀ s, Token.track s t = s)
    (hn : j.nesting = 0) : Tracks j := by
  intro n most hle
  simp [hj, ht, hn, Nat.max_eq_left hle]

theorem track_items : ∀ {items : List Json}, (∀ j ∈ items, Tracks j) → ∀ {n most : Nat},
    n + 1 ≤ most → (itemTokens items).foldl Token.track (n + 1, most) =
      (n, max most (n + 1 + itemNesting items))
  | [], _, n, most, h => by
    simp [itemTokens, itemNesting, Token.track, Nat.max_eq_left h]
  | [j], hj, n, most, h => by
    rw [itemTokens, List.foldl_append, hj j (by simp) _ _ h]
    simp [itemNesting, Token.track]
  | j :: k :: rest, hj, n, most, h => by
    rw [itemTokens, List.foldl_append, hj j (by simp) _ _ h, List.foldl_cons]
    show (itemTokens (k :: rest)).foldl Token.track (n + 1, _) = _
    rw [track_items (fun l hl => hj l (List.mem_cons_of_mem j hl)) (by omega),
      itemNesting_cons j]
    congr 1
    omega

theorem track_members : ∀ {members : List (String × Json)}, (∀ m ∈ members, Tracks m.2) →
    ∀ {n most : Nat}, n + 1 ≤ most → (memberTokens members).foldl Token.track (n + 1, most) =
      (n, max most (n + 1 + memberNesting members))
  | [], _, n, most, h => by
    simp [memberTokens, memberNesting, Token.track, Nat.max_eq_left h]
  | [(name, j)], hj, n, most, h => by
    rw [memberTokens, List.foldl_cons, List.foldl_cons, List.foldl_append]
    show ([Token.closeObject]).foldl Token.track (j.tokens.foldl Token.track (n + 1, most)) = _
    rw [hj (name, j) (by simp) _ _ h]
    simp [memberNesting, Token.track]
  | (name, j) :: k :: rest, hj, n, most, h => by
    rw [memberTokens, List.foldl_cons, List.foldl_cons, List.foldl_append]
    show (memberTokens (k :: rest)).foldl Token.track (j.tokens.foldl Token.track (n + 1, most)) = _
    rw [hj (name, j) (by simp) _ _ h,
      track_members (fun m hm => hj m (List.mem_cons_of_mem _ hm)) (by omega),
      memberNesting_cons (name, j)]
    congr 1
    omega

theorem Plain.tracks {j : Json} (h : j.Plain) : Tracks j := by
  induction h with
  | null => exact tracks_token rfl (fun _ => rfl) rfl
  | bool b => cases b <;> exact tracks_token rfl (fun _ => rfl) rfl
  | int n => exact tracks_token rfl (fun _ => rfl) rfl
  | str s => exact tracks_token rfl (fun _ => rfl) rfl
  | @arr items _ ih =>
    intro n most hle
    rw [tokens, List.foldl_cons]
    show (itemTokens items).foldl Token.track (n + 1, max most (n + 1)) = _
    rw [track_items ih (Nat.le_max_right ..), nesting]
    congr 1
    omega
  | @obj members _ ih =>
    intro n most hle
    rw [tokens, List.foldl_cons]
    show (memberTokens members).foldl Token.track (n + 1, max most (n + 1)) = _
    rw [track_members ih (Nat.le_max_right ..), nesting]
    congr 1
    omega

/-- The brackets of a text are nested as the document is. -/
theorem Plain.nesting_tokens {j : Json} (h : j.Plain) : Token.nesting j.tokens = j.nesting := by
  rw [Token.nesting, h.tracks 0 0 (Nat.le_refl 0)]
  simp

end Json

/-! ## Parts of a model -/

open Decoder

/-- The number of an identifier has 32 bits. -/
def Id.Fits {kind : Kind} (i : Id kind) : Prop := i.index < 2 ^ 32

theorem Id.takes {kind : Kind} (i : Id kind) : (Id.decoder kind).Takes i.toJson i i.Fits :=
  (Takes.natOfBits 32 i.index).map Id.mk

theorem Id.takes_option {kind : Kind} (o : Option (Id kind)) :
    (Decoder.option (Id.decoder kind)).Takes (Id.optionToJson o) o (∀ i, o = some i → i.Fits) :=
  .option (fun _ h => by cases h) fun i _ => i.takes

theorem Id.takes_list {kind : Kind} (is : List (Id kind)) :
    (Decoder.list (Id.decoder kind)).Takes (Id.listToJson is) is (∀ i ∈ is, i.Fits) :=
  .list fun i _ => i.takes

theorem BinaryOp.takes (op : BinaryOp) : BinaryOp.decoder.Takes (.str op.text) op True :=
  .oneOf (by cases op <;> rfl)

theorem CallKind.takes (kind : CallKind) : CallKind.decoder.Takes (.str kind.text) kind True :=
  .oneOf (by cases kind <;> rfl)

def Ty.Fits : Ty → Prop
  | .ref c => c.Fits
  | .array element => element.Fits
  | _ => True

theorem Ty.takes_text {ty : Ty} (h : named? ty.text = some ty) :
    Ty.decoder.Takes (.str ty.text) ty True :=
  .of_eq (.oneOf h) fun room => by simp [decoder]

theorem Ty.takes (ty : Ty) : Ty.decoder.Takes ty.toJson ty ty.Fits := by
  induction ty with
  | ref c =>
    exact .tagged (by simp [decoder, oneOf, choice?]) (fun _ => by rw [decoder])
      (c.takes.map Ty.ref)
  | array element ih =>
    exact .tagged (by simp [decoder, oneOf, choice?]) (fun _ => by rw [decoder])
      (ih.map Ty.array)
  | _ => exact takes_text rfl

def MethodRef.Fits (r : MethodRef) : Prop := r.owner.Fits

theorem MethodRef.takes (r : MethodRef) : MethodRef.decoder.Takes r.toJson r r.Fits := by
  unfold MethodRef.decoder MethodRef.toJson
  refine .congr (.record (.bind (.required r.owner.takes rfl)
    (.last (.required (.string r.subsignature) rfl) _)) rfl rfl (by decide)) (by simp [Fits])

def FieldAccess.Fits (a : FieldAccess) : Prop :=
  (∀ v, a.base = some v → v.Fits) ∧ a.field.Fits

theorem FieldAccess.takes (a : FieldAccess) : FieldAccess.decoder.Takes a.toJson a a.Fits := by
  unfold FieldAccess.decoder FieldAccess.toJson
  exact .record (.bind (.optional (Id.takes_option a.base) rfl)
    (.last (.required a.field.takes rfl) _)) rfl rfl (by decide)

def Invoke.Fits (call : Invoke) : Prop :=
  (∀ v, call.result = some v → v.Fits) ∧ (∀ v, call.receiver = some v → v.Fits) ∧
    call.target.Fits ∧ ∀ v ∈ call.args, v.Fits

theorem Invoke.takes (call : Invoke) : Invoke.decoder.Takes call.toJson call call.Fits := by
  unfold Invoke.decoder Invoke.toJson
  exact .congr (.record (.bind (.required call.kind.takes rfl)
    (.bind (.optional (Id.takes_option call.result) rfl)
      (.bind (.optional (Id.takes_option call.receiver) rfl)
        (.bind (.required call.target.takes rfl)
          (.last (.required (Id.takes_list call.args) rfl) _))))) rfl rfl (by decide))
    (by simp [Fits])

namespace Stmt

/-- The identifiers in a statement fit, and positions have 64 bits. -/
def Fits : Stmt → Prop
  | alloc lhs ty => lhs.Fits ∧ ty.Fits
  | copy lhs rhs => lhs.Fits ∧ rhs.Fits
  | cast lhs rhs ty => lhs.Fits ∧ rhs.Fits ∧ ty.Fits
  | literal lhs _ => lhs.Fits
  | binary lhs _ left right => lhs.Fits ∧ left.Fits ∧ right.Fits
  | loadField lhs access => lhs.Fits ∧ access.Fits
  | storeField access rhs => access.Fits ∧ rhs.Fits
  | loadArray lhs base index => lhs.Fits ∧ base.Fits ∧ index.Fits
  | storeArray base index rhs => base.Fits ∧ index.Fits ∧ rhs.Fits
  | invoke call => call.Fits
  | branch _ left right target => left.Fits ∧ right.Fits ∧ target < 2 ^ 64
  | switch on cases default =>
    on.Fits ∧ (∀ c ∈ cases, c.2 < 2 ^ 64) ∧ default < 2 ^ 64
  | goto target => target < 2 ^ 64
  | ret value => ∀ v, value = some v → v.Fits
  | nop => True

theorem takes_tagged {tag : String} {j : Json} {s : Stmt} {fits : Prop} (htag : tag ≠ "nop")
    (h : (payload tag).Takes j s fits) : Stmt.decoder.Takes (.obj [(tag, j)]) s fits := by
  refine .tagged (by simp [decoder, choice?]) (fun room => ?_) h
  unfold decoder
  split <;> simp_all [choice?]

theorem takes_cases (cases : List (Int32 × Nat)) :
    (Decoder.list (Decoder.pair Decoder.int32 targetDecoder)).Takes
      (.arr (cases.map fun c => .arr [.int c.1.toInt, .int c.2])) cases
      (∀ c ∈ cases, c.2 < 2 ^ 64) :=
  .congr (.list fun c _ => .pair (.int32 c.1) (.natOfBits 64 c.2)) (by simp)

theorem takes (s : Stmt) : Stmt.decoder.Takes s.toJson s s.Fits := by
  cases s with
  | alloc lhs ty =>
    refine takes_tagged (by decide) ?_
    rw [payload]
    exact .record (.bind (.required lhs.takes rfl) <| .last (.required ty.takes rfl) _)
      rfl rfl (by decide)
  | copy lhs rhs =>
    refine takes_tagged (by decide) ?_
    rw [payload]
    exact .record (.bind (.required lhs.takes rfl) <| .last (.required rhs.takes rfl) _)
      rfl rfl (by decide)
  | cast lhs rhs ty =>
    refine takes_tagged (by decide) ?_
    rw [payload]
    exact .record (.bind (.required lhs.takes rfl) <| .bind (.required rhs.takes rfl) <|
      .last (.required ty.takes rfl) _) rfl rfl (by decide)
  | literal lhs value =>
    refine takes_tagged (by decide) ?_
    rw [payload]
    refine .congr (.record (.bind (.required lhs.takes rfl) <|
      .last (.required (.int32 value) rfl) _) rfl rfl (by decide)) ?_
    simp [Fits]
  | binary lhs op left right =>
    refine takes_tagged (by decide) ?_
    rw [payload]
    refine .congr (.record (.bind (.required lhs.takes rfl) <| .bind (.required op.takes rfl) <|
      .bind (.required left.takes rfl) <| .last (.required right.takes rfl) _)
      rfl rfl (by decide)) ?_
    simp [Fits]
  | loadField lhs access =>
    refine takes_tagged (by decide) ?_
    rw [payload]
    exact .record (.bind (.required lhs.takes rfl) <| .last (.required access.takes rfl) _)
      rfl rfl (by decide)
  | storeField access rhs =>
    refine takes_tagged (by decide) ?_
    rw [payload]
    exact .record (.bind (.required access.takes rfl) <| .last (.required rhs.takes rfl) _)
      rfl rfl (by decide)
  | loadArray lhs base index =>
    refine takes_tagged (by decide) ?_
    rw [payload]
    exact .record (.bind (.required lhs.takes rfl) <| .bind (.required base.takes rfl) <|
      .last (.required index.takes rfl) _) rfl rfl (by decide)
  | storeArray base index rhs =>
    refine takes_tagged (by decide) ?_
    rw [payload]
    exact .record (.bind (.required base.takes rfl) <| .bind (.required index.takes rfl) <|
      .last (.required rhs.takes rfl) _) rfl rfl (by decide)
  | invoke call =>
    refine takes_tagged (by decide) ?_
    rw [payload]
    exact call.takes.map invoke
  | branch op left right target =>
    refine takes_tagged (by decide) ?_
    rw [payload]
    refine .congr (.record (.bind (.required op.takes rfl) <| .bind (.required left.takes rfl) <|
      .bind (.required right.takes rfl) <| .last (.required (.natOfBits 64 target) rfl) _)
      rfl rfl (by decide)) ?_
    simp [Fits]
  | switch on cases default =>
    refine takes_tagged (by decide) ?_
    rw [payload]
    exact .record (.bind (.required on.takes rfl) <| .bind (.required (takes_cases cases) rfl) <|
      .last (.required (.natOfBits 64 default) rfl) _) rfl rfl (by decide)
  | goto target =>
    refine takes_tagged (by decide) ?_
    rw [payload]
    exact .record (.last (.required (.natOfBits 64 target) rfl) _) rfl rfl (by decide)
  | ret value =>
    refine takes_tagged (by decide) ?_
    rw [payload]
    exact .record (.last (.optional (Id.takes_option value) rfl) _) rfl rfl (by decide)
  | nop =>
    exact ⟨.str _, by simp [decoder, choice?, toJson, Fits, Json.nesting, eq_comm]⟩

end Stmt

/-! ## Models -/

def ClassDecl.Fits (d : ClassDecl) : Prop :=
  (∀ c, d.superclass = some c → c.Fits) ∧ ∀ c ∈ d.interfaces, c.Fits

theorem ClassDecl.takes (d : ClassDecl) : ClassDecl.decoder.Takes d.toJson d d.Fits := by
  unfold ClassDecl.decoder ClassDecl.toJson
  refine .congr (.record (.bind (.required (.string d.name) rfl) <|
    .bind (.withDefault (Id.takes_option d.superclass) rfl _) <|
    .bind (.withDefault (Id.takes_list d.interfaces) rfl _) <|
    .bind (.withDefault (.bool d.isInterface) rfl _) <|
    .last (.withDefault (.bool d.isAbstract) rfl _) _) rfl rfl (by decide)) ?_
  simp [Fits]

def FieldDecl.Fits (d : FieldDecl) : Prop := d.owner.Fits ∧ d.ty.Fits

theorem FieldDecl.takes (d : FieldDecl) : FieldDecl.decoder.Takes d.toJson d d.Fits := by
  unfold FieldDecl.decoder FieldDecl.toJson
  refine .congr (.record (.bind (.required d.owner.takes rfl) <|
    .bind (.required (.string d.name) rfl) <| .bind (.required d.ty.takes rfl) <|
    .last (.withDefault (.bool d.isStatic) rfl _) _) rfl rfl (by decide)) ?_
  simp [Fits]

def VarDecl.Fits (d : VarDecl) : Prop := d.method.Fits ∧ d.ty.Fits

theorem VarDecl.takes (d : VarDecl) : VarDecl.decoder.Takes d.toJson d d.Fits := by
  unfold VarDecl.decoder VarDecl.toJson
  refine .congr (.record (.bind (.required d.method.takes rfl) <|
    .bind (.required (.string d.name) rfl) <| .last (.required d.ty.takes rfl) _)
    rfl rfl (by decide)) ?_
  simp [Fits]

structure MethodDecl.Fits (d : MethodDecl) : Prop where
  owner : d.owner.Fits
  params : ∀ v ∈ d.params, v.Fits
  this : ∀ v, d.this = some v → v.Fits
  returnType : d.returnType.Fits
  body : ∀ s ∈ d.body, s.Fits

theorem MethodDecl.takes (d : MethodDecl) : MethodDecl.decoder.Takes d.toJson d d.Fits := by
  unfold MethodDecl.decoder MethodDecl.toJson
  refine .congr (.record (.bind (.required d.owner.takes rfl) <|
    .bind (.required (.string d.name) rfl) <|
    .bind (.required (.string d.subsignature) rfl) <|
    .bind (.withDefault (.bool d.isStatic) rfl _) <|
    .bind (.withDefault (.bool d.isAbstract) rfl _) <|
    .bind (.withDefault (Id.takes_list d.params) rfl _) <|
    .bind (.withDefault (Id.takes_option d.this) rfl _) <|
    .bind (.required d.returnType.takes rfl) <|
    .last (.withDefault (.list fun s _ => s.takes) rfl _) _) rfl rfl (by decide)) ?_
  constructor
  · rintro ⟨howner, -, -, -, -, hparams, hthis, htype, hbody⟩
    exact ⟨howner, hparams, hthis, htype, fun s hs => hbody s (Array.mem_toList_iff.2 hs)⟩
  · rintro ⟨howner, hparams, hthis, htype, hbody⟩
    exact ⟨howner, trivial, trivial, trivial, trivial, hparams, hthis, htype,
      fun s hs => hbody s (Array.mem_toList_iff.1 hs)⟩

namespace Model

/-- The numbers in a model have the bits that documents give them: identifiers have 32 and positions
in bodies have 64. -/
structure Representable (m : Model) : Prop where
  classes : ∀ d ∈ m.classes, d.Fits
  fields : ∀ d ∈ m.fields, d.Fits
  methods : ∀ d ∈ m.methods, d.Fits
  vars : ∀ d ∈ m.vars, d.Fits
  entry : m.entry.Fits

theorem takes (m : Model) : Model.decoder.Takes m.toJson m m.Representable := by
  unfold Model.decoder Model.toJson
  refine .congr (.record (.bind (.required (.list fun d _ => d.takes) rfl) <|
    .bind (.withDefault (.list fun d _ => d.takes) rfl _) <|
    .bind (.required (.list fun d _ => d.takes) rfl) <|
    .bind (.withDefault (.list fun d _ => d.takes) rfl _) <|
    .last (.required m.entry.takes rfl) _) rfl rfl (by decide)) ?_
  simp only [Array.mem_toList_iff]
  constructor
  · rintro ⟨hclasses, hfields, hmethods, hvars, hentry⟩
    exact ⟨hclasses, hfields, hmethods, hvars, hentry⟩
  · rintro ⟨hclasses, hfields, hmethods, hvars, hentry⟩
    exact ⟨hclasses, hfields, hmethods, hvars, hentry⟩

theorem parse?_print (m : Model) : Model.parse? m.print = decoder maxNesting m.toJson := by
  simp [Model.parse?, Model.print, Json.parse?_print m.takes.plain, ofJson?]

/-- The type of arrays of integers with `n` dimensions. -/
def intArray : Nat → Ty
  | 0 => .int
  | n + 1 => .array (intArray n)

theorem nesting_intArray : ∀ n, (intArray n).toJson.nesting = n
  | 0 => rfl
  | n + 1 => by
    have ih := nesting_intArray n
    simp [intArray, Ty.toJson, Json.nesting, Json.memberNesting, ih]

theorem fits_intArray : ∀ n, (intArray n).Fits
  | 0 => trivial
  | n + 1 => fits_intArray n

/-- A model with an array of `n` dimensions. -/
def arrays (n : Nat) : Model where
  classes := #[]
  methods := #[]
  vars := #[⟨⟨0⟩, "array", intArray n⟩]
  entry := ⟨0⟩

theorem representable_arrays (n : Nat) : (arrays n).Representable where
  classes := by simp [arrays]
  fields := by simp [arrays]
  methods := by simp [arrays]
  vars := by simpa [arrays, VarDecl.Fits, Id.Fits] using fits_intArray n
  entry := by simp [arrays, Id.Fits]

/-- Arrays can have 124 dimensions and be read back, but not more. -/
theorem parse?_print_arrays (n : Nat) :
    Model.parse? (arrays n).print = if n ≤ 124 then some (arrays n) else none := by
  have hnesting : (arrays n).toJson.nesting = n + 3 := by
    simp [arrays, toJson, VarDecl.toJson, Id.toJson, Json.nesting, Json.itemNesting,
      Json.memberNesting, nesting_intArray]
  rw [parse?_print]
  split_ifs with hn
  · have hroom : (arrays n).toJson.nesting ≤ maxNesting := by
      rw [hnesting, maxNesting]
      omega
    exact (arrays n).takes.eq_some_iff.2 ⟨rfl, representable_arrays n, hroom⟩
  · refine Option.eq_none_iff_forall_ne_some.2 fun m hm => ?_
    have hroom := ((arrays n).takes.eq_some_iff.1 hm).2.2
    rw [hnesting, maxNesting] at hroom
    omega

/-- **Models can be read back.** The text of a model consists of tokens that spell its document.
Reading the text gives the model if its numbers are representable and no more of its brackets are
open at once than decoders descend, and gives nothing otherwise. Of an array type with many
dimensions too many brackets are open, though all of its numbers are representable. -/
theorem reads_back :
    (∀ m : Model, ∃ ts, Token.scan m.print.toList = some ts ∧ Json.ofTokens? ts = some m.toJson ∧
      ∀ m', Model.parse? m.print = some m' ↔
        m' = m ∧ m.Representable ∧ Token.nesting ts ≤ maxNesting) ∧
    ∀ n, (arrays n).Representable ∧
      Model.parse? (arrays n).print = if n ≤ 124 then some (arrays n) else none := by
  refine ⟨fun m => ?_, fun n => ⟨representable_arrays n, parse?_print_arrays n⟩⟩
  have hscan : Token.scan m.print.toList = some m.toJson.tokens := by
    rw [Model.print, Json.print, String.toList_ofList]
    exact Token.scan_of_spells m.takes.plain.spells
  have htree : Json.ofTokens? m.toJson.tokens = some m.toJson := by
    have hparse := Json.parse?_print m.takes.plain
    rw [Json.parse?, ← Model.print, hscan] at hparse
    exact hparse
  refine ⟨m.toJson.tokens, hscan, htree, fun m' => ?_⟩
  rw [parse?_print, m.takes.eq_some_iff, m.takes.plain.nesting_tokens]

end Model

end ObjectFlow
