import Mathlib.Algebra.Group.Nat.Defs
import ObjectFlow.Document.Decoder
import ObjectFlow.Proofs.Parsing

/-!
# What decoders take off documents

Decoders are put together from decoders, and so is what is known of them. `Decoder.Takes` says what
a decoder makes of one document, however deep it may descend, and `Decoder.Collects` says the same
of a builder of records and the members of an object. Each way of putting decoders together has a
lemma that puts such statements together.
-/

namespace ObjectFlow

namespace Json

mutual

/-- How many arrays and objects stand one inside the other. -/
def nesting : Json → Nat
  | arr items => itemNesting items + 1
  | obj members => memberNesting members + 1
  | null | bool _ | int _ | decimal _ | str _ | illFormed => 0

/-- The deepest nesting among the items of an array. -/
def itemNesting : List Json → Nat
  | [] => 0
  | j :: rest => max j.nesting (itemNesting rest)

/-- The deepest nesting among the members of an object. -/
def memberNesting : List (String × Json) → Nat
  | [] => 0
  | (_, j) :: rest => max j.nesting (memberNesting rest)

end

theorem itemNesting_cons (j : Json) (rest : List Json) :
    itemNesting (j :: rest) = max j.nesting (itemNesting rest) := by
  rw [itemNesting]

theorem memberNesting_cons (m : String × Json) (rest : List (String × Json)) :
    memberNesting (m :: rest) = max m.2.nesting (memberNesting rest) := by
  rw [memberNesting]

theorem itemNesting_le {n : Nat} : ∀ {items : List Json},
    itemNesting items ≤ n ↔ ∀ j ∈ items, j.nesting ≤ n
  | [] => by simp [itemNesting]
  | j :: rest => by rw [itemNesting_cons, Nat.max_le, itemNesting_le, List.forall_mem_cons]

theorem memberNesting_le {n : Nat} : ∀ {members : List (String × Json)},
    memberNesting members ≤ n ↔ ∀ j ∈ members.map Prod.snd, j.nesting ≤ n
  | [] => by simp [memberNesting]
  | m :: rest => by
    rw [memberNesting_cons, Nat.max_le, memberNesting_le, List.map_cons, List.forall_mem_cons]

theorem nesting_arr_le {items : List Json} {room : Nat} :
    (arr items).nesting ≤ room ↔ ∃ r, room = r + 1 ∧ ∀ j ∈ items, j.nesting ≤ r := by
  cases room with
  | zero => simp [nesting]
  | succ r => simp [nesting, itemNesting_le]

theorem nesting_obj_le {members : List (String × Json)} {room : Nat} :
    (obj members).nesting ≤ room ↔
      ∃ r, room = r + 1 ∧ ∀ j ∈ members.map Prod.snd, j.nesting ≤ r := by
  cases room with
  | zero => simp [nesting]
  | succ r => simp [nesting, memberNesting_le]

end Json

namespace Decoder

variable {α β : Type}

/-- A decoder takes a value off a document, if the value fits and the document is not nested deeper
than the decoder may descend. It takes nothing else off it. -/
structure Takes (d : Decoder α) (j : Json) (a : α) (fits : Prop) : Prop where
  plain : j.Plain
  eq_some_iff : ∀ {room b}, d room j = some b ↔ b = a ∧ fits ∧ j.nesting ≤ room

namespace Takes

variable {d : Decoder α} {e : Decoder β} {j k : Json} {a : α} {b : β} {fits fits' : Prop}

theorem congr (h : d.Takes j a fits) (hiff : fits ↔ fits') : d.Takes j a fits' :=
  ⟨h.plain, fun {_ _} => by rw [h.eq_some_iff, hiff]⟩

theorem of_eq {d e : Decoder α} (h : e.Takes j a fits) (heq : ∀ room, d room j = e room j) :
    d.Takes j a fits :=
  ⟨h.plain, fun {_ _} => by rw [heq, h.eq_some_iff]⟩

theorem bool (b : Bool) : Decoder.bool.Takes (.bool b) b True :=
  ⟨.bool b, by simp [Decoder.bool, Json.nesting, eq_comm]⟩

theorem string (s : String) : Decoder.string.Takes (.str s) s True :=
  ⟨.str s, by simp [Decoder.string, Json.nesting, eq_comm]⟩

theorem intBetween (low high n : Int) :
    (Decoder.intBetween low high).Takes (.int n) n (low ≤ n ∧ n < high) := by
  refine ⟨.int n, fun {room b} => ?_⟩
  simp [Decoder.intBetween, Json.nesting, eq_comm, and_comm]

theorem map (h : d.Takes j a fits) (f : α → β) :
    Takes (fun room j => (d room j).map f) j (f a) fits := by
  refine ⟨h.plain, fun {room b} => ?_⟩
  rw [Option.map_eq_some_iff]
  simp only [h.eq_some_iff]
  constructor
  · rintro ⟨_, ⟨rfl, hfits⟩, rfl⟩
    exact ⟨rfl, hfits⟩
  · rintro ⟨rfl, hfits⟩
    exact ⟨a, ⟨rfl, hfits⟩, rfl⟩

theorem natOfBits (bits n : Nat) : (Decoder.natOfBits bits).Takes (.int n) n (n < 2 ^ bits) := by
  refine ((intBetween ..).map Int.toNat).congr ?_
  rw [Nat.one_shiftLeft]
  omega

theorem int32 (n : Int32) : Decoder.int32.Takes (.int n.toInt) n True := by
  have h := (intBetween (-0x80000000) 0x80000000 n.toInt).map Int32.ofInt
  rw [Int32.ofInt_toInt] at h
  exact h.congr (by simpa using ⟨n.le_toInt, n.toInt_lt⟩)

/-- A choice by name. -/
theorem oneOf {named : String → Option α} {s : String} (h : named s = some a) :
    (Decoder.oneOf named).Takes (.str s) a True := by
  refine ⟨.str s, fun {room b} => ?_⟩
  simp [Decoder.oneOf, choice?, h, Json.nesting, eq_comm]

/-- A choice with one member. -/
theorem tagged {d e : Decoder α} {tag : String} (hzero : d 0 (.obj [(tag, j)]) = none)
    (hsucc : ∀ room, d (room + 1) (.obj [(tag, j)]) = e room j) (h : e.Takes j a fits) :
    d.Takes (.obj [(tag, j)]) a fits := by
  refine ⟨.obj (by simpa using h.plain), fun {room b} => ?_⟩
  rw [Json.nesting_obj_le]
  cases room with
  | zero => simp [hzero]
  | succ room => simp [hsucc, h.eq_some_iff]

theorem option {write : α → Json} {fits : α → Prop} {o : Option α} (hne : ∀ a, write a ≠ .null)
    (h : ∀ a, o = some a → d.Takes (write a) a (fits a)) :
    (Decoder.option d).Takes ((o.map write).getD .null) o (∀ a, o = some a → fits a) := by
  cases o with
  | none => exact ⟨.null, by simp [Decoder.option, Json.nesting, eq_comm]⟩
  | some a =>
    have ha := (h a rfl).map some
    have heq : ∀ room, Decoder.option d room (write a) = (d room (write a)).map some := by
      intro room
      have hwrite := hne a
      cases hw : write a <;> first | rfl | contradiction
    refine ⟨ha.plain, fun {room b} => ?_⟩
    rw [Option.map_some, Option.getD_some, heq, ha.eq_some_iff]
    simp

theorem mapM_eq_some_iff {write : α → Json} {fits : α → Prop} {room : Nat} {as bs : List α}
    (h : ∀ a ∈ as, d.Takes (write a) a (fits a)) :
    (as.map write).mapM (d room) = some bs ↔
      bs = as ∧ (∀ a ∈ as, fits a) ∧ ∀ j ∈ as.map write, j.nesting ≤ room := by
  induction as generalizing bs with
  | nil => simp [eq_comm]
  | cons a as ih =>
    have ha := h a (by simp)
    have has := fun b hb => h b (List.mem_cons_of_mem a hb)
    rw [List.map_cons, List.mapM_cons]
    simp only [Option.bind_eq_bind, Option.bind_eq_some_iff, Option.pure_def, Option.some.injEq,
      ha.eq_some_iff, ih has, List.forall_mem_cons]
    constructor
    · rintro ⟨_, ⟨rfl, hfits, hroom⟩, _, ⟨rfl, hfits', hroom'⟩, rfl⟩
      exact ⟨rfl, ⟨hfits, hfits'⟩, hroom, hroom'⟩
    · rintro ⟨rfl, ⟨hfits, hfits'⟩, hroom, hroom'⟩
      exact ⟨a, ⟨rfl, hfits, hroom⟩, as, ⟨rfl, hfits', hroom'⟩, rfl⟩

theorem list {write : α → Json} {fits : α → Prop} {as : List α}
    (h : ∀ a ∈ as, d.Takes (write a) a (fits a)) :
    (Decoder.list d).Takes (.arr (as.map write)) as (∀ a ∈ as, fits a) := by
  refine ⟨.arr ?_, fun {room bs} => ?_⟩
  · intro j hj
    obtain ⟨a, ha, rfl⟩ := List.mem_map.1 hj
    exact (h a ha).plain
  · rw [Json.nesting_arr_le]
    cases room with
    | zero => simp [Decoder.list]
    | succ room =>
      rw [Decoder.list, mapM_eq_some_iff h]
      simp

theorem pair (h : d.Takes j a fits) (h' : e.Takes k b fits') :
    (Decoder.pair d e).Takes (.arr [j, k]) (a, b) (fits ∧ fits') := by
  refine ⟨.arr (by simpa using ⟨h.plain, h'.plain⟩), fun {room c} => ?_⟩
  rw [Json.nesting_arr_le]
  cases room with
  | zero => simp [Decoder.pair]
  | succ room =>
    simp only [Decoder.pair, Option.bind_eq_bind, Option.bind_eq_some_iff, Option.pure_def,
      Option.some.injEq, h.eq_some_iff, h'.eq_some_iff]
    constructor
    · rintro ⟨_, ⟨rfl, hfits, hroom⟩, _, ⟨rfl, hfits', hroom'⟩, rfl⟩
      exact ⟨rfl, ⟨hfits, hfits'⟩, room, rfl, by simpa using ⟨hroom, hroom'⟩⟩
    · rintro ⟨rfl, ⟨hfits, hfits'⟩, _, hr, hroom⟩
      cases hr
      simp only [List.mem_cons, List.not_mem_nil, or_false, forall_eq_or_imp, forall_eq] at hroom
      exact ⟨a, ⟨rfl, hfits, hroom.1⟩, b, ⟨rfl, hfits', hroom.2⟩, rfl⟩

end Takes

/-! ## Records -/

/-- A builder collects a value from the members of an object, if the value fits and those of the
members that it uses are not nested deeper than it may descend. -/
structure Collects (build : Fields → Option α) (members : List (String × Json)) (used : List Json)
    (a : α) (fits : Prop) : Prop where
  plain : ∀ j ∈ used, j.Plain
  eq_some_iff : ∀ {room b}, build ⟨true, members, room⟩ = some b ↔
    b = a ∧ fits ∧ ∀ j ∈ used, j.nesting ≤ room

namespace Collects

variable {members : List (String × Json)} {used used' : List Json} {a : α} {b : β}
  {fits fits' : Prop} {d : Decoder α} {j : Json} {name : String}

/-- A member that is present is taken, whether or not it could be missing. -/
theorem of_takes {build : Fields → Option α} (h : d.Takes j a fits)
    (hbuild : ∀ room, build ⟨true, members, room⟩ = d room j) :
    Collects build members [j] a fits :=
  ⟨by simpa using h.plain, fun {_ _} => by simp [hbuild, h.eq_some_iff]⟩

theorem required (h : d.Takes j a fits) (hj : members.lookup name = some j) :
    Collects (·.required name d) members [j] a fits :=
  of_takes h fun _ => by simp [Fields.required, hj]

theorem withDefault (h : d.Takes j a fits) (hj : members.lookup name = some j) (default : α) :
    Collects (·.withDefault name d default) members [j] a fits :=
  of_takes h fun _ => by simp [Fields.withDefault, hj]

theorem optional {o : Option α} (h : (Decoder.option d).Takes j o fits)
    (hj : members.lookup name = some j) : Collects (·.optional name d) members [j] o fits :=
  of_takes h fun _ => by simp [Fields.optional, hj]

/-- Values are collected one after the other. -/
theorem bind {x : Fields → Option α} {next : Fields → α → Option β}
    (h : Collects x members used a fits) (h' : Collects (next · a) members used' b fits') :
    Collects (fun f => x f >>= next f) members (used ++ used') b (fits ∧ fits') := by
  refine ⟨?_, fun {room c} => ?_⟩
  · intro j hj
    rcases List.mem_append.1 hj with hj | hj
    · exact h.plain j hj
    · exact h'.plain j hj
  · simp only [Option.bind_eq_bind, Option.bind_eq_some_iff, h.eq_some_iff, List.mem_append,
      or_imp, forall_and]
    constructor
    · rintro ⟨_, ⟨rfl, hfits, hroom⟩, hnext⟩
      obtain ⟨hc, hfits', hroom'⟩ := h'.eq_some_iff.1 hnext
      exact ⟨hc, ⟨hfits, hfits'⟩, hroom, hroom'⟩
    · rintro ⟨hc, ⟨hfits, hfits'⟩, hroom, hroom'⟩
      exact ⟨a, ⟨rfl, hfits, hroom⟩, h'.eq_some_iff.2 ⟨hc, hfits', hroom'⟩⟩

/-- The value that is collected last completes the record. -/
theorem last {x : Fields → Option α} (h : Collects x members used a fits) (f : α → β) :
    Collects (fun r => x r >>= fun a => pure (f a)) members used (f a) fits := by
  refine ⟨h.plain, fun {room c} => ?_⟩
  simp only [Option.bind_eq_bind, Option.bind_eq_some_iff, h.eq_some_iff, Option.pure_def,
    Option.some.injEq]
  constructor
  · rintro ⟨_, ⟨rfl, hfits⟩, rfl⟩
    exact ⟨rfl, hfits⟩
  · rintro ⟨rfl, hfits⟩
    exact ⟨a, ⟨rfl, hfits⟩, rfl⟩

end Collects

/-- An object that has exactly the fields of a record is taken as the record. -/
theorem Takes.record {build : Fields → Option α} {members : List (String × Json)}
    {used : List Json} {a : α} {fits : Prop} {names : List String}
    (h : Collects build members used a fits) (hnames : members.map Prod.fst = names)
    (hused : members.map Prod.snd = used) (hnodup : names.Nodup) :
    (Decoder.record names build).Takes (.obj members) a fits := by
  subst hnames hused
  have hplain : ∀ m ∈ members, m.2.Plain := fun m hm => h.plain m.2 (List.mem_map_of_mem hm)
  have hknown : members.filter (fun m => m.1 ∈ members.map Prod.fst) = members :=
    List.filter_eq_self.2 fun m hm => decide_eq_true (List.mem_map_of_mem hm)
  refine ⟨.obj hplain, fun {room b} => ?_⟩
  rw [Json.nesting_obj_le]
  cases room with
  | zero => simp [Decoder.record, fields?]
  | succ room => simp [Decoder.record, fields?, hknown, hnodup, h.eq_some_iff]

end Decoder

end ObjectFlow
