import Mathlib.Data.List.TakeWhile
import ObjectFlow.Document.Reader

/-!
# Documents can be read back

A document that is written and read again comes out as it was (`Json.parse?_print`). The scanner
cuts the text of a document into its tokens (`Json.Plain.spells`): it takes punctuation and strings
as they come, and a word or a number ends where punctuation follows. The reader puts the tokens
together again (`Json.Plain.reads`), whatever arrays and objects are open around them.
-/

namespace ObjectFlow

namespace Json

/-- All numbers of a document are integers, and all its strings can be read. -/
inductive Plain : Json → Prop
  | null : Plain .null
  | bool (b : Bool) : Plain (.bool b)
  | int (n : Int) : Plain (.int n)
  | str (s : String) : Plain (.str s)
  | arr {items : List Json} : (∀ j ∈ items, Plain j) → Plain (.arr items)
  | obj {members : List (String × Json)} : (∀ m ∈ members, Plain m.2) → Plain (.obj members)

mutual

def tokens : Json → List Token
  | null => [.word "null".toList]
  | bool true => [.word "true".toList]
  | bool false => [.word "false".toList]
  | int n => [.number (toString n).toList]
  | decimal literal => [.number literal.toList]
  | str s => [.text (some s)]
  | arr items => .openArray :: itemTokens items
  | obj members => .openObject :: memberTokens members
  | illFormed => [.text none]

/-- The tokens of the items of an array and of the closing bracket. -/
def itemTokens : List Json → List Token
  | [] => [.closeArray]
  | [j] => j.tokens ++ [.closeArray]
  | j :: k :: rest => j.tokens ++ .comma :: itemTokens (k :: rest)

/-- The tokens of the members of an object and of the closing bracket. -/
def memberTokens : List (String × Json) → List Token
  | [] => [.closeObject]
  | [(name, j)] => .text (some name) :: .colon :: (j.tokens ++ [.closeObject])
  | (name, j) :: k :: rest =>
    .text (some name) :: .colon :: (j.tokens ++ .comma :: memberTokens (k :: rest))

end

end Json

/-! ## Scanning -/

namespace Token

/-- A text spells tokens: between tokens, the scanner finds these and nothing else in it. A word or
a number at the end of the text may still go on. -/
def Spells (cs : List Char) (ts : List Token) : Prop :=
  ∀ found, ∃ s, cs.foldlM Scanner.step ⟨.between, found⟩ = some s ∧
    s.finish = ⟨.between, ts.reverse ++ found⟩

theorem scan_of_spells {cs : List Char} {ts : List Token} (h : Spells cs ts) :
    scan cs = some ts := by
  obtain ⟨s, hs, hfinish⟩ := h []
  simp [scan, hs, hfinish]

/-- The characters that are tokens by themselves. -/
inductive Punctuates : Char → Token → Prop
  | openArray : Punctuates '[' .openArray
  | closeArray : Punctuates ']' .closeArray
  | openObject : Punctuates '{' .openObject
  | closeObject : Punctuates '}' .closeObject
  | comma : Punctuates ',' .comma
  | colon : Punctuates ':' .colon

theorem Scanner.step_punctuation {s : Scanner} {found : List Token} {c : Char} {t : Token}
    (hc : Punctuates c t) (h : s.finish = ⟨.between, found⟩) :
    s.step c = some ⟨.between, t :: found⟩ := by
  have hstart : Scanner.start ⟨.between, found⟩ c = some ⟨.between, t :: found⟩ := by
    cases hc <;> rfl
  have hlower : c.isLower = false := by cases hc <;> rfl
  have hnumeric : isNumeric c = false := by cases hc <;> rfl
  obtain ⟨mode, tokens⟩ := s
  cases mode with
  | between =>
    cases h
    exact hstart
  | inWord letters => simp only [step, hlower, Bool.false_eq_true, if_false, h, hstart]
  | inNumber literal => simp only [step, hnumeric, Bool.false_eq_true, if_false, h, hstart]
  | inText codes => cases h
  | inEscape codes => cases h
  | inCode codes missing value => cases h

namespace Spells

variable {cs cs' : List Char} {ts ts' : List Token}

theorem nil : Spells [] [] := fun found => ⟨⟨.between, found⟩, rfl, rfl⟩

/-- Texts can be put together with punctuation between them. -/
theorem punctuate (h : Spells cs ts) {c : Char} {t : Token} (hc : Punctuates c t)
    (h' : Spells cs' ts') : Spells (cs ++ c :: cs') (ts ++ t :: ts') := by
  intro found
  obtain ⟨s, hs, hfinish⟩ := h found
  obtain ⟨s', hs', hfinish'⟩ := h' (t :: (ts.reverse ++ found))
  refine ⟨s', ?_, by simpa using hfinish'⟩
  rw [List.foldlM_append, hs]
  show (c :: cs').foldlM Scanner.step s = some s'
  rw [List.foldlM_cons, Scanner.step_punctuation hc hfinish]
  exact hs'

end Spells

/-! ### Strings -/

/-- The code of a character is no half of a pair. -/
theorem isHalf_toNat (c : Char) : isHalf c.toNat = false := by
  have hvalid : c.toNat < 0xd800 ∨ 0xdfff < c.toNat ∧ c.toNat < 0x110000 := c.valid
  simp only [isHalf, Bool.and_eq_false_iff, decide_eq_false_iff_not]
  omega

theorem charsOfCodes_map_toNat : ∀ cs : List Char, charsOfCodes (cs.map Char.toNat) = some cs
  | [] => rfl
  | [c] => by simp [charsOfCodes, isHalf_toNat]
  | c :: d :: rest => by
    have ih := charsOfCodes_map_toNat (d :: rest)
    rw [List.map_cons] at ih
    simp [charsOfCodes, isHalf_toNat, ih]

theorem hexValue?_hexDigit : ∀ n < 16, hexValue? (Json.hexDigit n) = some n := by decide

/-- A character that is written inside a string is found there. -/
theorem foldlM_escape (c : Char) (codes : List Nat) (found : List Token) :
    (Json.escape c).foldlM Scanner.step ⟨.inText codes, found⟩ =
      some ⟨.inText (c.toNat :: codes), found⟩ := by
  unfold Json.escape
  split_ifs with h₁ h₂ h₃ h₄ h₅ h₆ h₇ h₈
  -- The characters with an escape of one letter are read as they stand.
  all_goals try (subst c; rfl)
  · have hhigh := hexValue?_hexDigit (c.toNat / 16) (by omega)
    have hlow := hexValue?_hexDigit (c.toNat % 16) (by omega)
    have hzero : hexValue? '0' = some 0 := by decide
    have hcode : c.toNat / 16 * 16 + c.toNat % 16 = c.toNat := by omega
    simp [Scanner.step, hhigh, hlow, hzero, hcode]
  · simp [Scanner.step, h₁, h₂, h₈]

theorem foldlM_flatMap_escape : ∀ (cs : List Char) (codes : List Nat) (found : List Token),
    (cs.flatMap Json.escape).foldlM Scanner.step ⟨.inText codes, found⟩ =
      some ⟨.inText ((cs.map Char.toNat).reverse ++ codes), found⟩
  | [], _, _ => rfl
  | c :: cs, codes, found => by
    rw [List.flatMap_cons, List.foldlM_append, foldlM_escape]
    show (cs.flatMap Json.escape).foldlM Scanner.step _ = _
    rw [foldlM_flatMap_escape cs]
    simp

theorem spells_quote (s : String) : Spells (Json.quote s) [.text (some s)] := by
  intro found
  refine ⟨⟨.between, .text (some s) :: found⟩, ?_, rfl⟩
  rw [Json.quote, List.foldlM_cons]
  show (s.toList.flatMap Json.escape ++ ['"']).foldlM Scanner.step ⟨.inText [], found⟩ = _
  rw [List.foldlM_append, foldlM_flatMap_escape]
  simp [Scanner.step, Scanner.emit, charsOfCodes_map_toNat]

/-! ### Numbers -/

theorem foldlM_numeric : ∀ {cs : List Char}, (∀ c ∈ cs, isNumeric c = true) →
    ∀ (literal : List Char) (found : List Token),
      cs.foldlM Scanner.step ⟨.inNumber literal, found⟩ =
        some ⟨.inNumber (cs.reverse ++ literal), found⟩
  | [], _, _, _ => rfl
  | c :: cs, h, literal, found => by
    have hc : Scanner.step ⟨.inNumber literal, found⟩ c =
        some ⟨.inNumber (c :: literal), found⟩ := by
      simp only [Scanner.step, h c (List.mem_cons_self ..), if_true]
    rw [List.foldlM_cons, hc]
    show cs.foldlM Scanner.step ⟨.inNumber (c :: literal), found⟩ = _
    rw [foldlM_numeric fun d hd => h d (List.mem_cons_of_mem c hd)]
    simp

theorem spells_number {c : Char} {cs : List Char} (hc : c.isDigit = true ∨ c = '-')
    (hcs : ∀ d ∈ cs, isNumeric d = true) : Spells (c :: cs) [.number (c :: cs)] := by
  intro found
  have hstart : Scanner.start ⟨.between, found⟩ c = some ⟨.inNumber [c], found⟩ := by
    rcases hc with hc | rfl
    · have hne : ∀ d : Char, d.isDigit = false → c ≠ d := by
        rintro d hd rfl
        rw [hc] at hd
        cases hd
      simp [Scanner.start, isSpace, hne, hc]
    · rfl
  refine ⟨⟨.inNumber (cs.reverse ++ [c]), found⟩, ?_, ?_⟩
  · rw [List.foldlM_cons]
    show (Scanner.start ⟨.between, found⟩ c).bind _ = _
    rw [hstart]
    exact foldlM_numeric hcs [c] found
  · simp [Scanner.finish, Scanner.emit]

theorem isNumeric_of_isDigit {c : Char} (h : c.isDigit = true) : isNumeric c = true := by
  simp [isNumeric, h]

section Digits

variable {n : Nat}

theorem isDigit_toDigits : ∀ c ∈ Nat.toDigits 10 n, c.isDigit = true :=
  fun _ hc => Nat.isDigit_of_mem_toDigits (by decide) (by decide) hc

theorem takeWhile_toDigits : (Nat.toDigits 10 n).takeWhile Char.isDigit = Nat.toDigits 10 n :=
  List.takeWhile_eq_self_iff.2 isDigit_toDigits

theorem dropWhile_toDigits : (Nat.toDigits 10 n).dropWhile Char.isDigit = [] :=
  List.dropWhile_eq_nil_iff.2 isDigit_toDigits

theorem exists_toDigits (n : Nat) : ∃ d ds, Nat.toDigits 10 n = d :: ds :=
  List.exists_cons_of_ne_nil Nat.toDigits_ne_nil

/-- Numbers are written without a leading zero. -/
theorem toDigits_eq_of_head? (h : (Nat.toDigits 10 n).head? = some '0') :
    Nat.toDigits 10 n = ['0'] := by
  induction n using Nat.strongRecOn with
  | _ n ih =>
  rw [Nat.toDigits_eq_if (by decide)] at h ⊢
  split_ifs at h ⊢ with hn
  · rw [List.head?_singleton, Option.some.injEq] at h
    rw [h]
  · have hhead : (Nat.toDigits 10 (n / 10)).head? = some '0' := by
      obtain ⟨d, ds, hds⟩ := exists_toDigits (n / 10)
      rw [hds] at h ⊢
      exact h
    have hvalue := Nat.ofDigitChars_ten_toDigits (n := n / 10)
    rw [ih (n / 10) (by omega) hhead] at hvalue
    have hzero : n / 10 = 0 := hvalue.symm
    omega

/-- The value of digits, as it is computed from left to right. -/
theorem foldl_toDigits (n : Nat) :
    (Nat.toDigits 10 n).foldl (fun n c => n * 10 + (c.toNat - 48)) 0 = n := by
  simp only [Nat.mul_comm _ 10]
  rw [show 48 = '0'.toNat from rfl, ← Nat.ofDigitChars_eq_foldl, Nat.ofDigitChars_ten_toDigits]

theorem numberValue?_toDigits (n : Nat) :
    numberValue? (Nat.toDigits 10 n) = some (.int n) := by
  have hsign : (Nat.toDigits 10 n).head? ≠ some '-' := by
    intro h
    have hdigit := isDigit_toDigits _ (List.mem_of_head? h)
    cases hdigit
  simpa [numberValue?, hsign, takeWhile_toDigits, dropWhile_toDigits, Nat.toDigits_ne_nil,
    foldl_toDigits] using toDigits_eq_of_head?

theorem numberValue?_neg_toDigits (hn : n ≠ 0) :
    numberValue? ('-' :: Nat.toDigits 10 n) = some (.int (-n)) := by
  simpa [numberValue?, takeWhile_toDigits, dropWhile_toDigits, Nat.toDigits_ne_nil, foldl_toDigits,
    hn] using toDigits_eq_of_head?

end Digits

/-- An integer is written as digits, with a minus sign before them if it is negative. -/
theorem toList_toString (n : Int) :
    (∃ m : Nat, n = m ∧ (toString n).toList = Nat.toDigits 10 m) ∨
      ∃ m : Nat, m ≠ 0 ∧ n = -m ∧ (toString n).toList = '-' :: Nat.toDigits 10 m := by
  cases n with
  | ofNat m => exact Or.inl ⟨m, rfl, Nat.toList_repr⟩
  | negSucc m =>
    refine Or.inr ⟨m + 1, Nat.succ_ne_zero m, rfl, ?_⟩
    show ("-" ++ (m + 1).repr).toList = _
    rw [String.toList_append, Nat.toList_repr]
    rfl

theorem spells_toString (n : Int) :
    Spells (toString n).toList [.number (toString n).toList] := by
  rcases toList_toString n with ⟨m, -, h⟩ | ⟨m, -, -, h⟩
  · obtain ⟨d, ds, hds⟩ := exists_toDigits m
    have hdigits := isDigit_toDigits (n := m)
    rw [hds] at hdigits
    rw [h, hds]
    exact spells_number (.inl (hdigits d (List.mem_cons_self ..))) fun c hc =>
      isNumeric_of_isDigit (hdigits c (List.mem_cons_of_mem d hc))
  · rw [h]
    exact spells_number (.inr rfl) fun c hc => isNumeric_of_isDigit (isDigit_toDigits c hc)

theorem numberValue?_toString (n : Int) : numberValue? (toString n).toList = some (.int n) := by
  rcases toList_toString n with ⟨m, rfl, h⟩ | ⟨m, hm, rfl, h⟩
  · rw [h, numberValue?_toDigits]
  · rw [h, numberValue?_neg_toDigits hm]

end Token

/-! ### Documents -/

namespace Json

open Token

theorem spells_itemChars : ∀ {items : List Json}, (∀ j ∈ items, Spells j.chars j.tokens) →
    Spells (itemChars items) (itemTokens items)
  | [], _ => Spells.nil.punctuate .closeArray .nil
  | [j], h => (h j (by simp)).punctuate .closeArray .nil
  | j :: k :: rest, h => by
    rw [itemChars, itemTokens]
    refine (h j (by simp)).punctuate .comma (spells_itemChars fun l hl => h l ?_)
    exact List.mem_cons_of_mem j hl

theorem spells_memberChars : ∀ {members : List (String × Json)},
    (∀ m ∈ members, Spells m.2.chars m.2.tokens) →
    Spells (memberChars members) (memberTokens members)
  | [], _ => Spells.nil.punctuate .closeObject .nil
  | [(name, j)], h =>
    (spells_quote name).punctuate .colon ((h (name, j) (by simp)).punctuate .closeObject .nil)
  | (name, j) :: k :: rest, h => by
    rw [memberChars, memberTokens]
    refine (spells_quote name).punctuate .colon
      ((h (name, j) (by simp)).punctuate .comma (spells_memberChars fun m hm => h m ?_))
    exact List.mem_cons_of_mem _ hm

/-- The scanner finds the tokens of a document in its text. -/
theorem Plain.spells {j : Json} (h : j.Plain) : Spells j.chars j.tokens := by
  induction h with
  | null => exact fun found => ⟨_, rfl, rfl⟩
  | bool b => cases b <;> exact fun found => ⟨_, rfl, rfl⟩
  | int n => exact spells_toString n
  | str s => exact spells_quote s
  | arr _ ih => exact Spells.nil.punctuate .openArray (spells_itemChars ih)
  | obj _ ih => exact Spells.nil.punctuate .openObject (spells_memberChars ih)

end Json

/-! ## Reading -/

namespace Reader

/-- Where a value or the first item is expected, any token but a closing bracket starts a value. -/
theorem step_eq_beginValue {stack : List Frame} {e : Expected} (he : e = .value ∨ e = .firstItem)
    {t : Token} (ht : t ≠ .closeArray) : step (.reading stack e) t = beginValue stack t := by
  rcases he with rfl | rfl
  · rfl
  · unfold step
    split <;> simp_all

/-- Where a name is expected, it is taken. -/
theorem step_name {stack : List Frame} {e : Expected} (he : e = .name ∨ e = .firstName)
    (name : Option String) :
    step (.reading stack e) (.text name) = some (.reading stack (.colon name)) := by
  rcases he with rfl | rfl
  all_goals
    unfold step
    split <;> simp_all

/-- The tokens of a document are read as the document, whatever is open around it. -/
def Reads (j : Json) : Prop :=
  ∀ stack e, e = Expected.value ∨ e = .firstItem →
    j.tokens.foldlM step (.reading stack e) = deliver j stack

theorem reads_token {j : Json} {t : Token} (hj : j.tokens = [t]) (ht : t ≠ .closeArray)
    (h : ∀ stack, beginValue stack t = deliver j stack) : Reads j := by
  intro stack e he
  rw [hj, List.foldlM_cons, step_eq_beginValue he ht, h]
  exact bind_pure _

/-- An item joins the array that is open. -/
theorem reads_item {j : Json} (hj : Reads j) {e : Expected} (he : e = .value ∨ e = .firstItem)
    (items : List Json) (stack : List Frame) (ts : List Token) :
    (j.tokens ++ ts).foldlM step (.reading (.arr items :: stack) e) =
      ts.foldlM step (.reading (.arr (j :: items) :: stack) .separator) := by
  rw [List.foldlM_append, hj _ e he]
  rfl

theorem reads_items (stack : List Frame) : ∀ {items : List Json}, (∀ j ∈ items, Reads j) →
    ∀ {e : Expected}, e = .value ∨ e = .firstItem → items ≠ [] → ∀ before,
      (Json.itemTokens items).foldlM step (.reading (.arr before :: stack) e) =
        deliver (.arr (before.reverse ++ items)) stack
  | [j], h, e, he, _, before => by
    rw [Json.itemTokens, reads_item (h j (by simp)) he, ← List.reverse_cons]
    exact bind_pure _
  | j :: k :: rest, h, e, he, _, before => by
    rw [Json.itemTokens, reads_item (h j (by simp)) he]
    show (Json.itemTokens (k :: rest)).foldlM step
      (.reading (.arr (j :: before) :: stack) .value) = _
    rw [reads_items stack (fun l hl => h l (List.mem_cons_of_mem j hl)) (.inl rfl) (by simp)]
    simp

/-- A member joins the object that is open. -/
theorem reads_member {j : Json} (hj : Reads j) {e : Expected} (he : e = .name ∨ e = .firstName)
    (name : String) (members : List (Option String × Json)) (stack : List Frame)
    (ts : List Token) :
    (.text (some name) :: .colon :: (j.tokens ++ ts)).foldlM step
        (.reading (.obj members :: stack) e) =
      ts.foldlM step (.reading (.obj ((some name, j) :: members) :: stack) .separator) := by
  rw [List.foldlM_cons, step_name he]
  show (j.tokens ++ ts).foldlM step (.reading (.member members (some name) :: stack) .value) = _
  rw [List.foldlM_append, hj _ _ (.inl rfl)]
  rfl

/-- The members of an open object, the newest one first, all of them with names that can be read. -/
def named (members : List (String × Json)) : List (Option String × Json) :=
  (members.map fun m => (some m.1, m.2)).reverse

theorem close_named (members : List (String × Json)) : close (named members) = .obj members := by
  simp [close, named, Function.comp_def]

theorem named_concat (members : List (String × Json)) (name : String) (j : Json) :
    named (members ++ [(name, j)]) = (some name, j) :: named members := by
  simp [named]

theorem reads_members (stack : List Frame) : ∀ {members : List (String × Json)},
    (∀ m ∈ members, Reads m.2) → ∀ {e : Expected}, e = .name ∨ e = .firstName → members ≠ [] →
    ∀ before, (Json.memberTokens members).foldlM step (.reading (.obj (named before) :: stack) e) =
      deliver (.obj (before ++ members)) stack
  | [(name, j)], h, e, he, _, before => by
    rw [Json.memberTokens, reads_member (h (name, j) (by simp)) he, ← named_concat, ← close_named]
    exact bind_pure _
  | (name, j) :: k :: rest, h, e, he, _, before => by
    have ih := reads_members stack (fun m hm => h m (List.mem_cons_of_mem _ hm))
      (.inl rfl) (List.cons_ne_nil k rest) (before ++ [(name, j)])
    rw [Json.memberTokens, reads_member (h (name, j) (by simp)) he, ← named_concat]
    show (Json.memberTokens (k :: rest)).foldlM step
      (.reading (.obj (named (before ++ [(name, j)])) :: stack) .name) = _
    rw [ih, List.append_assoc]
    rfl

end Reader

namespace Json

open Reader

/-- The reader puts the tokens of a document together again. -/
theorem Plain.reads {j : Json} (h : j.Plain) : Reads j := by
  induction h with
  | null => exact reads_token rfl (by simp) fun _ => rfl
  | bool b => cases b <;> exact reads_token rfl (by simp) fun _ => rfl
  | int n =>
    refine reads_token rfl (by simp) fun stack => ?_
    rw [beginValue, Token.numberValue?_toString]
    rfl
  | str s => exact reads_token rfl (by simp) fun _ => rfl
  | @arr items _ ih =>
    intro stack e he
    rw [tokens, List.foldlM_cons, step_eq_beginValue he (by simp)]
    show (itemTokens items).foldlM step (.reading (.arr [] :: stack) .firstItem) = _
    -- An array may end where its first item is expected, but not after a comma.
    by_cases hitems : items = []
    · subst hitems
      exact bind_pure _
    · exact reads_items stack ih (.inr rfl) hitems []
  | @obj members _ ih =>
    intro stack e he
    rw [tokens, List.foldlM_cons, step_eq_beginValue he (by simp)]
    show (memberTokens members).foldlM step (.reading (.obj [] :: stack) .firstName) = _
    by_cases hmembers : members = []
    · subst hmembers
      exact bind_pure _
    · exact reads_members stack ih (.inr rfl) hmembers []

/-- **A document can be read back.** -/
theorem parse?_print {j : Json} (h : j.Plain) : parse? j.print = some j := by
  have hscan := Token.scan_of_spells h.spells
  have hread := h.reads [] .value (.inl rfl)
  simp [parse?, print, ofTokens?, hscan, hread, deliver]

end Json

end ObjectFlow
