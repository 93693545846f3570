import ObjectFlow.Collection.Roster
import ObjectFlow.Fault

/-!
# Everything that can be reached

`reach` follows the links of a finite graph breadth first and lists every member of the graph that
some path leads to, in the order of discovery. The search stays inside a given list of members, so
it makes no more discoveries than the list is long, and has room for as many. A search that would
need more room fails. `reachFrom_closed` says that a search that comes to its end misses nothing.
-/

namespace ObjectFlow

variable {α : Type} [Keyed α]

/-- How many of the given values are missing from a roster. -/
def Roster.missing (r : Roster α) (as : List α) : Nat := as.countP (!r.contains ·)

theorem Roster.contains_insert {r : Roster α} {a b : α} :
    (r.insert a).contains b = true ↔ r.contains b = true ∨ b = a := by
  simp [contains_iff]

theorem Roster.missing_insert_lt {r : Roster α} {as : List α} {a : α} (ha : a ∈ as)
    (h : r.contains a = false) : (r.insert a).missing as < r.missing as := by
  have mono : ∀ bs : List α, (r.insert a).missing bs ≤ r.missing bs := fun bs =>
    List.countP_mono_left fun b _ hb => by
      simp only [Bool.not_eq_true'] at hb ⊢
      exact Bool.eq_false_iff.2 fun hc =>
        (Bool.eq_false_iff.1 hb) (Roster.contains_insert.2 (Or.inl hc))
  obtain ⟨as₁, as₂, rfl⟩ := List.append_of_mem ha
  have h₁ := mono as₁
  have h₂ := mono as₂
  have ha' : (r.insert a).contains a = true := Roster.contains_insert.2 (Or.inr rfl)
  simp only [missing, List.countP_append, List.countP_cons, h, ha'] at h₁ h₂ ⊢
  simp only [Bool.not_false, Bool.not_true, if_true, Bool.false_eq_true, if_false]
  omega

/-- Whether a member of the graph has not been seen. -/
def isNew [DecidableEq α] (all : List α) (seen : Roster α) (a : α) : Bool :=
  !seen.contains a && decide (a ∈ all)

/-- The members of `all` that paths from `queue` lead to, added to those already seen, if there are
at most `room` of them. -/
def reachFrom [DecidableEq α] (all : List α) (next : α → Except Fault (List α)) (room : Nat)
    (queue : List α) (seen : Roster α) : Except Fault (Roster α) :=
  match queue.dropWhile (!isNew all seen ·), room with
  | [], _ => .ok seen
  | _ :: _, 0 => .error .boundReached
  | a :: rest, room + 1 => do
    let more ← next a
    reachFrom all next room (rest ++ more) (seen.insert a)

/-- The members of `all` that paths from `start` lead to, in the order of discovery. -/
def reach [DecidableEq α] (all : List α) (next : α → Except Fault (List α)) (start : α) :
    Except Fault (Roster α) :=
  reachFrom all next all.length [start] ∅

theorem isNew_iff [DecidableEq α] {all : List α} {seen : Roster α} {a : α} :
    isNew all seen a = true ↔ a ∉ seen.toList ∧ a ∈ all := by
  simp [isNew, ← Roster.contains_iff]

section

variable [DecidableEq α] {all queue rest : List α} {seen : Roster α} {a : α}

/-- The member that a search goes on with has not been seen. -/
theorem isNew_of_dropWhile (h : queue.dropWhile (!isNew all seen ·) = a :: rest) :
    isNew all seen a = true := by
  have hhead := List.head_dropWhile_not (!isNew all seen ·) (l := queue) (by simp [h])
  simpa [h] using hhead

/-- Whatever is skipped has been seen. -/
theorem mem_seen_of_takeWhile (h : a ∈ queue.takeWhile (!isNew all seen ·)) (ha : a ∈ all) :
    a ∈ seen.toList := by
  have hnew := List.all_eq_true.1 List.all_takeWhile a h
  simp only [Bool.not_eq_true', ← Bool.not_eq_true, isNew_iff] at hnew
  exact Classical.byContradiction fun hs => hnew ⟨hs, ha⟩

/-- Going on with a member leaves fewer to be found. -/
theorem missing_lt_of_isNew (h : isNew all seen a = true) :
    (seen.insert a).missing all < seen.missing all := by
  obtain ⟨hseen, hall⟩ := isNew_iff.1 h
  refine Roster.missing_insert_lt hall ?_
  rw [← Bool.not_eq_true, Roster.contains_iff]
  exact hseen

end

/-- A search keeps what it has seen, finds the members that were queued, and leaves no link of what
it finds unfollowed. -/
theorem reachFrom_closed [DecidableEq α] {all : List α} {next : α → Except Fault (List α)}
    {room : Nat} {queue : List α} {seen r : Roster α}
    (h : reachFrom all next room queue seen = .ok r) :
    (∀ a ∈ seen.toList, a ∈ r.toList) ∧ (∀ a ∈ queue, a ∈ all → a ∈ r.toList) ∧
      ∀ a ∈ r.toList, a ∈ seen.toList ∨
        a ∈ all ∧ ∃ more, next a = .ok more ∧ ∀ b ∈ more, b ∈ all → b ∈ r.toList := by
  fun_induction reachFrom all next room queue seen with
  | case1 room queue seen hd =>
    obtain rfl : seen = r := Except.ok.inj h
    refine ⟨fun _ ha => ha, fun a ha hall => ?_, fun _ ha => Or.inl ha⟩
    have split := List.takeWhile_append_dropWhile (p := (!isNew all seen ·)) (l := queue)
    rw [hd, List.append_nil] at split
    rw [← split] at ha
    exact mem_seen_of_takeWhile ha hall
  | case2 queue seen a rest hd => cases h
  | case3 queue seen a rest room hd ih =>
    cases hmore : next a with
    | error e =>
      rw [hmore] at h
      cases h
    | ok more =>
      rw [hmore] at h
      obtain ⟨keep, found, closed⟩ := ih more h
      refine ⟨fun b hb => keep b (Roster.mem_insert.2 (Or.inl hb)), fun b hb hall => ?_,
        fun b hb => ?_⟩
      · rw [← List.takeWhile_append_dropWhile (p := (!isNew all seen ·)) (l := queue),
          List.mem_append, hd, List.mem_cons] at hb
        rcases hb with hb | rfl | hb
        · exact keep b (Roster.mem_insert.2 (Or.inl (mem_seen_of_takeWhile hb hall)))
        · exact keep b (Roster.mem_insert.2 (Or.inr rfl))
        · exact found b (List.mem_append_left _ hb) hall
      · rcases closed b hb with hs | hs
        · rcases Roster.mem_insert.1 hs with hs | rfl
          · exact Or.inl hs
          · exact Or.inr ⟨(isNew_iff.1 (isNew_of_dropWhile hd)).2, more, hmore, fun c hc =>
              found c (List.mem_append_right _ hc)⟩
        · exact Or.inr hs

end ObjectFlow
