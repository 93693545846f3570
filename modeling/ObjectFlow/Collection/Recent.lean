import ObjectFlow.Order

/-!
# Sequences that forget

A `Recent` keeps the newest of the elements pushed to it, up to a limit that never changes. The
limit belongs to the value: two sequences with different limits are different even if they hold the
same elements, so all sequences that are to be compared should share one.
-/

namespace ObjectFlow

/-- The newest elements of a history, as many as the limit allows. -/
structure Recent (α : Type) where
  /-- How many elements are kept. -/
  limit : Nat
  /-- The elements, the newest one first. -/
  items : List α
  length_le : items.length ≤ limit
deriving DecidableEq, Repr

namespace Recent

variable {α : Type}

/-- A sequence of given elements, the newest one first. Those beyond the limit are dropped. -/
def ofList (limit : Nat) (items : List α) : Recent α :=
  ⟨limit, items.take limit, List.length_take_le limit items⟩

def empty (limit : Nat) : Recent α := ofList limit []

instance : Inhabited (Recent α) := ⟨empty 0⟩

def size (r : Recent α) : Nat := r.items.length

def isEmpty (r : Recent α) : Bool := r.items.isEmpty

/-- Add an element as the newest. Where the limit asks for it the oldest one is dropped, which is
the added one itself if nothing may be kept. -/
def push (r : Recent α) (a : α) : Recent α := ofList r.limit (a :: r.items)

/-- The `n` newest elements, under the same limit. -/
def newest (r : Recent α) (n : Nat) : Recent α := ofList r.limit (r.items.take n)

/-- Sequences are ordered by their limits, then by their elements from the newest one on. -/
def compare [Ord α] (r s : Recent α) : Ordering :=
  (Ord.compare r.limit s.limit).then (Ord.compare r.items s.items)

/-- The elements in brackets, the newest one first. -/
def text (item : α → String) (r : Recent α) : String :=
  "[" ++ ", ".intercalate (r.items.map item) ++ "]"

instance [ToString α] : ToString (Recent α) := ⟨text toString⟩

instance [Keyed α] : Keyed (Recent α) where
  key r := r.limit :: Keyed.key r.items
  key_injective {r s} h := by
    obtain ⟨h₁, h₂⟩ := List.cons.inj h
    obtain ⟨_, _, _⟩ := r
    obtain ⟨_, _, _⟩ := s
    have := Keyed.key_injective h₂
    simp_all

/-! ## The list view -/

@[simp] theorem limit_ofList (limit : Nat) (items : List α) : (ofList limit items).limit = limit :=
  rfl

@[simp] theorem items_ofList (limit : Nat) (items : List α) :
    (ofList limit items).items = items.take limit := rfl

@[simp] theorem limit_empty (limit : Nat) : (empty limit : Recent α).limit = limit := rfl

@[simp] theorem items_empty (limit : Nat) : (empty limit : Recent α).items = [] := by simp [empty]

@[simp] theorem limit_push (r : Recent α) (a : α) : (r.push a).limit = r.limit := rfl

@[simp] theorem items_push (r : Recent α) (a : α) :
    (r.push a).items = (a :: r.items).take r.limit := rfl

@[simp] theorem limit_newest (r : Recent α) (n : Nat) : (r.newest n).limit = r.limit := rfl

@[simp] theorem items_newest (r : Recent α) (n : Nat) : (r.newest n).items = r.items.take n := by
  rw [newest, items_ofList, List.take_of_length_le]
  exact Nat.le_trans (List.length_take_le' n r.items) r.length_le

end Recent

end ObjectFlow
