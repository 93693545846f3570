import ObjectFlow.Proofs.Execution
import ObjectFlow.Proofs.Propagation

/-!
# Running a program with its numbers

This is what a program does when it runs and its numbers matter. The machine is that of `Execution`,
but it stops before and behind each node of the control flow graphs, and it computes: literals,
copies and operators on numbers give what they give on a real machine.

Numbers and other values are kept apart by the types of variables. A value that does not fit a
variable is not assigned to it (`Fits`), so such a move has no next machine. Nor have a division by
zero, an array index that is not a number, a number read from a place that holds none, and a call
that is to have a result where none is returned. What is not a number is a reference or `null`,
which stands for all other values and for the value of a variable, a field or an array element that
has not been assigned. Casts, and operators on other values, may yield any number.
-/

namespace ObjectFlow

namespace Computation

open Execution Constant

/-- A frame: the point at which a method is, its local variables, and what the return statement at
which the method is has returned. Below the topmost frame, the point is before the call. -/
structure Frame where
  point : Point
  locals : Locals
  returned : Option Datum

/-- The frames, the topmost one first, and the store that they share. -/
structure Machine where
  frames : List Frame
  store : Store

/-- A variable may hold a value: numeric variables hold numbers and other variables hold none. -/
def Fits (p : Program) (v : VarId) (x : Datum) : Prop := p.holdsInt v = .ok true ↔ ∃ n, x = .num n

theorem fits_num {p : Program} {v : VarId} (h : p.holdsInt v = .ok true) (n : Int32) :
    Fits p v (.num n) :=
  ⟨fun _ => ⟨n, rfl⟩, fun _ => h⟩

theorem fits_other {p : Program} {v : VarId} {x : Datum} (h : p.holdsInt v = .ok false)
    (hx : ∀ n, x ≠ .num n) : Fits p v x := by
  refine ⟨fun htrue => ?_, fun ⟨n, hn⟩ => absurd hn (hx n)⟩
  rw [h] at htrue
  cases htrue

/-! ## Statements -/

/-- What a statement other than a call does to local variables and the store. -/
inductive Runs (p : Program) (site : StmtId) : Stmt → Locals → Store → Locals → Store → Prop
  /-- Values are moved between variables, fields and array elements, or come from a literal or an
  allocation. -/
  | move {s : Stmt} {l l' : Locals} {h h' : Store} : Performs site s l h l' h' →
      (∀ lhs op left right, s ≠ .binary lhs op left right) →
      (∀ lhs, s.defined = some lhs → Fits p lhs (l' lhs)) → Runs p site s l h l' h'
  | binary {lhs left right : VarId} {op : BinaryOp} {a b x : Int32} {l : Locals} {h : Store} :
      p.holdsInt left = .ok true → p.holdsInt right = .ok true → l left = .num a →
      l right = .num b → op.result? a b = some x → Fits p lhs (.num x) →
      Runs p site (.binary lhs op left right) l h (Function.update l lhs (.num x)) h
  /-- An operator on other values may yield any value but a reference. -/
  | binaryOther {lhs left right : VarId} {op : BinaryOp} {x : Datum} {l : Locals} {h : Store} :
      p.holdsInt left = .ok false ∨ p.holdsInt right = .ok false → (∀ a, x ≠ .ref a) →
      Fits p lhs x → Runs p site (.binary lhs op left right) l h (Function.update l lhs x) h
  | cast {lhs rhs : VarId} {ty : Ty} {x : Datum} {l : Locals} {h : Store} : (∀ a, x ≠ .ref a) →
      Fits p lhs x → Runs p site (.cast lhs rhs ty) l h (Function.update l lhs x) h
  | ret (value : Option VarId) (l : Locals) (h : Store) : Runs p site (.ret value) l h l h

/-- The value that a statement returns. -/
def returnedBy (l : Locals) : Stmt → Option Datum
  | .ret value => value.map l
  | _ => none

/-! ## Steps -/

/-- The arguments of a call fit the parameters. -/
def Passes (p : Program) (call : Invoke) (d : MethodDecl) (l : Locals) : Prop :=
  ∀ arg param, (arg, param) ∈ call.args.zip d.params → Fits p param (l arg)

inductive Step (p : Program) : Machine → Machine → Prop
  /-- Nothing happens at the entry and at the exit of a method. -/
  | mark {n : Node} {l : Locals} {x : Option Datum} {fs : List Frame} {h : Store} :
      (∀ site, n ≠ .stmt site) →
      Step p ⟨⟨.before n, l, x⟩ :: fs, h⟩ ⟨⟨.behind n, l, x⟩ :: fs, h⟩
  | execute {site : StmtId} {s : Stmt} {l l' : Locals} {x : Option Datum} {fs : List Frame}
      {h h' : Store} : p.stmt site = .ok s → Runs p site s l h l' h' →
      Step p ⟨⟨.before (.stmt site), l, x⟩ :: fs, h⟩
        ⟨⟨.behind (.stmt site), l', returnedBy l s⟩ :: fs, h'⟩
  /-- Control may go on to any successor. -/
  | flow {n next : Node} {method : Method} {l : Locals} {x : Option Datum} {fs : List Frame}
      {h : Store} : p.method n.method = .ok method → next ∈ (ControlFlow.ofMethod method).succs n →
      Step p ⟨⟨.behind n, l, x⟩ :: fs, h⟩ ⟨⟨.before next, l, x⟩ :: fs, h⟩
  | staticCall {site : StmtId} {call : Invoke} {m : MethodId} {method : Method} {l : Locals}
      {x : Option Datum} {fs : List Frame} {h : Store} : p.stmt site = .ok (.invoke call) →
      call.kind = .static →
      p.hierarchy.declared call.target.owner call.target.subsignature = .ok (some m) →
      p.method m = .ok method → Passes p call method.decl l →
      Step p ⟨⟨.before (.stmt site), l, x⟩ :: fs, h⟩
        ⟨⟨.before (.entry m), enter call method.decl l .null, none⟩ ::
          ⟨.before (.stmt site), l, x⟩ :: fs, h⟩
  | instanceCall {site : StmtId} {call : Invoke} {receiver : VarId} {a : Nat} {object : Instance}
      {m : MethodId} {method : Method} {l : Locals} {x : Option Datum} {fs : List Frame}
      {h : Store} : p.stmt site = .ok (.invoke call) → call.receiver = some receiver →
      l receiver = .ref a → h.objects[a]? = some object → Selects p call object.ty m →
      p.method m = .ok method → Passes p call method.decl l →
      Step p ⟨⟨.before (.stmt site), l, x⟩ :: fs, h⟩
        ⟨⟨.before (.entry m), enter call method.decl l (.ref a), none⟩ ::
          ⟨.before (.stmt site), l, x⟩ :: fs, h⟩
  /-- From its exit a method goes back to a successor of the call. -/
  | leave {m : MethodId} {site : StmtId} {call : Invoke} {method : Method} {next : Node}
      {l k : Locals} {x y : Option Datum} {fs : List Frame} {h : Store} :
      p.stmt site = .ok (.invoke call) → p.method site.method = .ok method →
      next ∈ (ControlFlow.ofMethod method).succs (.stmt site) →
      (∀ lhs, call.result = some lhs → ∃ value, x = some value ∧ Fits p lhs value) →
      Step p ⟨⟨.behind (.exit m), l, x⟩ :: ⟨.before (.stmt site), k, y⟩ :: fs, h⟩
        ⟨⟨.before next, receive k call.result x, none⟩ :: fs, h⟩

/-- A machine that is about to run the entry method, among objects that are there before it.
Parameters hold any values that fit them: numeric parameters hold numbers, and other ones may refer
to these objects. Nothing else has been assigned. -/
inductive Starts (p : Program) (objects : List Instance) : Machine → Prop
  | mk {method : Method} {l : Locals} : p.method p.entry = .ok method →
      (∀ v, l v ≠ .null → v ∈ method.decl.params ∧ Fits p v (l v)) →
      (∀ v a, l v = .ref a → a < objects.length) →
      Starts p objects ⟨[⟨.before (.entry p.entry), l, none⟩], ⟨objects, fun _ => .null⟩⟩

/-- A machine that a program can come to in finitely many steps, among objects that were there
before it. -/
def Arises (p : Program) (objects : List Instance) (m : Machine) : Prop :=
  ∃ first, Starts p objects first ∧ Relation.ReflTransGen (Step p) first m

theorem Arises.tail {p : Program} {objects : List Instance} {m m' : Machine}
    (h : Arises p objects m) (hstep : Step p m m') : Arises p objects m' := by
  obtain ⟨first, hstart, hrun⟩ := h
  exact ⟨first, hstart, hrun.tail hstep⟩

/-! ## A run -/

/-- A program that keeps a number in a box and gets another number back. -/
def keeping : Model where
  classes := #[{ name := "Main" }, { name := "Box" }]
  fields := #[{ owner := ⟨1⟩, name := "value", ty := .int }]
  methods := #[
    { owner := ⟨0⟩, name := "main", subsignature := "void main()", isStatic := true,
      returnType := .void,
      body := #[.alloc ⟨0⟩ (.ref ⟨1⟩), .literal ⟨1⟩ 1,
        .invoke ⟨.static, some ⟨1⟩, none, ⟨⟨0⟩, "int keep(Box,int)"⟩, [⟨0⟩, ⟨1⟩]⟩,
        .loadField ⟨2⟩ ⟨some ⟨0⟩, ⟨0⟩⟩] },
    { owner := ⟨0⟩, name := "keep", subsignature := "int keep(Box,int)", isStatic := true,
      params := [⟨3⟩, ⟨4⟩], returnType := .int,
      body := #[.storeField ⟨some ⟨3⟩, ⟨0⟩⟩ ⟨4⟩, .literal ⟨5⟩ 2, .ret (some ⟨5⟩)] }]
  vars := #[⟨⟨0⟩, "box", .ref ⟨1⟩⟩, ⟨⟨0⟩, "number", .int⟩, ⟨⟨0⟩, "kept", .int⟩,
    ⟨⟨1⟩, "where", .ref ⟨1⟩⟩, ⟨⟨1⟩, "what", .int⟩, ⟨⟨1⟩, "two", .int⟩]
  entry := ⟨0⟩

theorem keeping_accepted : (Program.index keeping).Accepted := by
  have h : keeping.violations = [] := by decide +kernel
  exact ⟨keeping, by rw [Program.ofModel, h]⟩

/-- The call of `keep` in `keeping`. -/
def callKeep : Invoke := ⟨.static, some ⟨1⟩, none, ⟨⟨0⟩, "int keep(Box,int)"⟩, [⟨0⟩, ⟨1⟩]⟩

/-- The local variables of `main` in `keeping` when it calls `keep`. -/
def mainLocals : Locals :=
  Function.update (Function.update (fun _ => .null) ⟨0⟩ (.ref 0)) ⟨1⟩ (.num 1)

/-- The local variables of `keep` in `keeping` when it returns. -/
def keepLocals : Locals :=
  Function.update (enter callKeep keeping.methods[1] mainLocals .null) ⟨5⟩ (.num 2)

/-- The box in `keeping` with its number. -/
def keptStore : Store where
  objects := [⟨⟨⟨0⟩, 0⟩, .ref ⟨1⟩⟩]
  slots := Function.update (fun _ => .null) (.field 0 ⟨0⟩) (.num 1)

/-- The machine that runs `keeping` when `keep` is about to go back. -/
def atReturn : Machine where
  frames := [⟨.behind (.exit ⟨1⟩), keepLocals, some (.num 2)⟩,
    ⟨.before (.stmt ⟨⟨0⟩, 2⟩), mainLocals, none⟩]
  store := keptStore

/-- The machine that runs `keeping` when `keep` has gone back. -/
def afterReturn : Machine where
  frames := [⟨.before (.stmt ⟨⟨0⟩, 3⟩), Function.update mainLocals ⟨1⟩ (.num 2), none⟩]
  store := keptStore

/-- The machine that runs `keeping` when `main` has read the box. -/
def afterLoad : Machine where
  frames := [⟨.behind (.stmt ⟨⟨0⟩, 3⟩),
    Function.update (Function.update mainLocals ⟨1⟩ (.num 2)) ⟨2⟩ (.num 1), none⟩]
  store := keptStore

theorem atReturn_arises : Arises (.index keeping) [] atReturn := by
  have hbox : (Program.index keeping).stmt ⟨⟨0⟩, 0⟩ = .ok (.alloc ⟨0⟩ (.ref ⟨1⟩)) := rfl
  have hone : (Program.index keeping).stmt ⟨⟨0⟩, 1⟩ = .ok (.literal ⟨1⟩ 1) := rfl
  have hcall : (Program.index keeping).stmt ⟨⟨0⟩, 2⟩ = .ok (.invoke callKeep) := rfl
  have hstore : (Program.index keeping).stmt ⟨⟨1⟩, 0⟩ =
      .ok (.storeField ⟨some ⟨3⟩, ⟨0⟩⟩ ⟨4⟩) := rfl
  have htwo : (Program.index keeping).stmt ⟨⟨1⟩, 1⟩ = .ok (.literal ⟨5⟩ 2) := rfl
  have hret : (Program.index keeping).stmt ⟨⟨1⟩, 2⟩ = .ok (.ret (some ⟨5⟩)) := rfl
  have hkeep : (Program.index keeping).method ⟨1⟩ =
      .ok (keeping.indexedMethod ⟨1⟩ keeping.methods[1]) := rfl
  have hpasses : Passes (.index keeping) callKeep keeping.methods[1] mainLocals := by
    intro arg param h
    change (arg, param) ∈ [(⟨0⟩, ⟨3⟩), ((⟨1⟩ : VarId), (⟨4⟩ : VarId))] at h
    simp only [List.mem_cons, Prod.mk.injEq, List.not_mem_nil, or_false] at h
    rcases h with ⟨rfl, rfl⟩ | ⟨rfl, rfl⟩
    · exact fits_other rfl fun n h => by cases h
    · exact fits_num rfl 1
  have h₀ : Arises (.index keeping) []
      ⟨[⟨.before (.entry ⟨0⟩), fun _ => .null, none⟩], ⟨[], fun _ => .null⟩⟩ :=
    ⟨_, .mk rfl (fun _ h => absurd rfl h) (fun _ _ h => by cases h), .refl⟩
  have h₁ := (h₀.tail (.mark (by simp))).tail
    (.flow rfl (show Node.stmt ⟨⟨0⟩, 0⟩ ∈ _ by decide +kernel))
  have h₂ := (h₁.tail (.execute hbox (.move (.alloc ⟨0⟩ (.ref ⟨1⟩) _ _) (by simp)
    fun _ h => by cases h; exact fits_other rfl (by simp)))).tail
    (.flow rfl (show Node.stmt ⟨⟨0⟩, 1⟩ ∈ _ by decide +kernel))
  have h₃ := (h₂.tail (.execute hone (.move (.literal ⟨1⟩ 1 _ _) (by simp)
    fun _ h => by cases h; exact fits_num rfl 1))).tail
    (.flow rfl (show Node.stmt ⟨⟨0⟩, 2⟩ ∈ _ by decide +kernel))
  have h₄ := ((h₃.tail (.staticCall hcall rfl rfl hkeep hpasses)).tail (.mark (by simp))).tail
    (.flow hkeep (show Node.stmt ⟨⟨1⟩, 0⟩ ∈ _ by decide +kernel))
  have h₅ := (h₄.tail (.execute hstore (.move (.storeField rfl) (by simp)
    fun _ h => by cases h))).tail
    (.flow hkeep (show Node.stmt ⟨⟨1⟩, 1⟩ ∈ _ by decide +kernel))
  have h₆ := (h₅.tail (.execute htwo (.move (.literal ⟨5⟩ 2 _ _) (by simp)
    fun _ h => by cases h; exact fits_num rfl 2))).tail
    (.flow hkeep (show Node.stmt ⟨⟨1⟩, 2⟩ ∈ _ by decide +kernel))
  have h₇ := ((h₆.tail (.execute hret (.ret _ _ _))).tail
    (.flow hkeep (show Node.exit ⟨1⟩ ∈ _ by decide +kernel))).tail (.mark (by simp))
  exact h₇

theorem afterReturn_step : Step (.index keeping) atReturn afterReturn := by
  have hcall : (Program.index keeping).stmt ⟨⟨0⟩, 2⟩ = .ok (.invoke callKeep) := rfl
  refine .leave hcall rfl (by decide +kernel) fun lhs h => ?_
  cases h
  exact ⟨_, rfl, fits_num rfl 2⟩

theorem afterLoad_arises : Arises (.index keeping) [] afterLoad := by
  have hload : (Program.index keeping).stmt ⟨⟨0⟩, 3⟩ =
      .ok (.loadField ⟨2⟩ ⟨some ⟨0⟩, ⟨0⟩⟩) := rfl
  have hrun := (atReturn_arises.tail afterReturn_step).tail (.execute hload
    (.move (.loadField rfl) (by simp) fun _ h => by cases h; exact fits_num rfl 1))
  exact hrun

end Computation

end ObjectFlow
