import Dataflow.Json.Reader
import Mathlib.Data.List.DropRight

/-! JSON values that are written and read again. A text is read as a value if the reader finds the value in
front of whatever follows, provided that what follows cannot go on with a number. This is kept by every way to
put texts together that has blanks only between tokens, so it holds of the compact text and of the text with
indented lines, and of texts that are pasted into a larger one. Numbers with a fraction or an exponent are left
out: nothing in this library writes one. -/

namespace Dataflow.Json

/-! Blanks. -/

/-- Nothing but blanks. -/
def Blank (cs : List Char) : Prop := ∀ c ∈ cs, isBlank c = true

theorem blank_nil : Blank [] := by simp [Blank]

theorem blank_indent (depth : Nat) : Blank (indent depth).toList := by
  intro c member
  simp only [indent, String.toList_ofList, List.mem_replicate] at member
  rw [member.2]
  rfl

theorem skipBlank_append {pad : List Char} (blank : Blank pad) (cs : List Char) :
    skipBlank (pad ++ cs) = skipBlank cs :=
  List.dropWhile_append_of_pos blank

theorem skipBlank_cons {c : Char} (solid : isBlank c = false) (cs : List Char) :
    skipBlank (c :: cs) = c :: cs := by
  simp [skipBlank, solid]

@[simp] theorem skipBlank_skipBlank (cs : List Char) : skipBlank (skipBlank cs) = skipBlank cs :=
  List.dropWhile_idempotent isBlank cs

section

variable (reading : Reading) (fuel room : Nat) (cs : List Char)

theorem value?_skipBlank : value? reading fuel room (skipBlank cs) = value? reading fuel room cs := by
  cases fuel with
  | zero => simp [value?]
  | succ fuel => rw [value?, value?, skipBlank_skipBlank]

theorem items?_skipBlank : items? reading fuel room (skipBlank cs) = items? reading fuel room cs := by
  cases fuel with
  | zero => simp [items?]
  | succ fuel => rw [items?, items?, value?_skipBlank]

theorem members?_skipBlank : members? reading fuel room (skipBlank cs) = members? reading fuel room cs := by
  cases fuel with
  | zero => simp [members?]
  | succ fuel => rw [members?, members?, skipBlank_skipBlank]

end

/-! What may follow a value. -/

/-- A text in front of which a number has ended. -/
def Ends (rest : List Char) : Prop :=
  ∀ c ∈ rest.head?, isDigit c = false ∧ c ≠ '.' ∧ c ≠ 'e' ∧ c ≠ 'E'

theorem ends_nil : Ends [] := by simp [Ends]

theorem ends_cons {c : Char} (other : isDigit c = false ∧ c ≠ '.' ∧ c ≠ 'e' ∧ c ≠ 'E') (rest : List Char) :
    Ends (c :: rest) := by
  simpa [Ends] using other

theorem ends_blank {pad rest : List Char} (blank : Blank pad) (ends : Ends rest) : Ends (pad ++ rest) := by
  cases pad with
  | nil => exact ends
  | cons c others =>
    have here : isBlank c = true := blank c List.mem_cons_self
    apply ends_cons
    simp only [isBlank, Bool.or_eq_true, decide_eq_true_eq] at here
    rcases here with ((rfl | rfl) | rfl) | rfl <;> decide

/-! Numbers. -/

theorem isDigit_of_mem_toDigits {n : Nat} {c : Char} (member : c ∈ Nat.toDigits 10 n) : isDigit c = true := by
  have digit := Nat.isDigit_of_mem_toDigits (by decide) (by decide) member
  simpa [isDigit, Char.isDigit, Char.le_def] using digit

theorem natOfDigits_toDigits (n : Nat) :
    Decimal.natOfDigits (digitValues (Nat.toDigits 10 n)) = n := by
  have read := Nat.ofDigitChars_ten_toDigits (n := n)
  rw [Nat.ofDigitChars_eq_foldl] at read
  rw [Decimal.natOfDigits, digitValues, List.foldl_map]
  exact read

theorem toDigits_cons (n : Nat) : ∃ first others, Nat.toDigits 10 n = first :: others ∧ isDigit first = true := by
  cases digits : Nat.toDigits 10 n with
  | nil => exact absurd digits Nat.toDigits_ne_nil
  | cons first others => exact ⟨first, others, rfl, isDigit_of_mem_toDigits (digits ▸ List.mem_cons_self)⟩

/-- Only zero is written with a zero in front. -/
theorem toDigits_cases (n : Nat) :
    n = 0 ∧ Nat.toDigits 10 n = ['0'] ∨
      0 < n ∧ ∃ first rest, Nat.toDigits 10 n = first :: rest ∧ first ≠ '0' := by
  induction n using Nat.strongRecOn with
  | ind n ih =>
    rcases Nat.lt_or_ge n 10 with small | large
    · rw [Nat.toDigits_of_lt_base small]
      rcases Nat.eq_zero_or_pos n with rfl | positive
      · exact .inl ⟨rfl, rfl⟩
      · refine .inr ⟨positive, _, [], rfl, ?_⟩
        simp [Nat.digitChar_eq_zero]
        omega
    · rcases ih (n / 10) (by omega) with ⟨zero, _⟩ | ⟨_, first, rest, digits, other⟩
      · omega
      · refine .inr ⟨by omega, first, rest ++ [(n % 10).digitChar], ?_, other⟩
        rw [Nat.toDigits_of_base_le (by decide) large, digits, List.cons_append]

theorem takeWhile_digits {ds rest : List Char} (digits : ∀ c ∈ ds, isDigit c = true) (ends : Ends rest) :
    (ds ++ rest).takeWhile isDigit = ds ∧ (ds ++ rest).dropWhile isDigit = rest := by
  rw [List.takeWhile_append_of_pos digits, List.dropWhile_append_of_pos digits]
  cases rest with
  | nil => simp
  | cons c others =>
    have stop : isDigit c = false := (ends c rfl).1
    simp [stop]

theorem wholeDigits?_toDigits (n : Nat) {rest : List Char} (ends : Ends rest) :
    wholeDigits? (Nat.toDigits 10 n ++ rest) = some (Nat.toDigits 10 n, rest) := by
  rcases toDigits_cases n with ⟨_, zero⟩ | ⟨_, first, others, digits, other⟩
  · have stop : (rest.head?.any isDigit) = false := by
      cases rest with
      | nil => rfl
      | cons c others => simpa using (ends c rfl).1
    simp [zero, wholeDigits?, stop]
  · have parts := takeWhile_digits (fun c => isDigit_of_mem_toDigits (n := n)) ends
    rw [digits] at parts ⊢
    rw [List.cons_append] at parts ⊢
    rw [wholeDigits?]
    · simp [parts.1, parts.2]
    · simpa using fun same => absurd same other

theorem unsigned?_toDigits (negative : Bool) (n : Nat) (signed : negative = true → 0 < n) {rest : List Char}
    (ends : Ends rest) : unsigned? negative (Nat.toDigits 10 n ++ rest) =
      some (.int (if negative then -(n : Int) else n), rest) := by
  have noFraction : fraction? rest = some ([], rest) := by
    unfold fraction?
    split
    · exact absurd rfl (ends '.' rfl).2.1
    · rfl
  have noExponent : exponent? rest = some (none, rest) := by
    cases rest with
    | nil => rfl
    | cons c others =>
      obtain ⟨_, _, lower, upper⟩ := ends c rfl
      simp [exponent?, lower, upper]
  have nonzero : (negative && decide ((n : Int) = 0)) = false := by
    cases negative with
    | false => rfl
    | true =>
      have positive := signed rfl
      simp
      omega
  simp only [unsigned?, wholeDigits?_toDigits n ends, noFraction, noExponent, natOfDigits_toDigits, nonzero,
    Option.bind_eq_bind, Option.bind_some, List.isEmpty_nil, Option.isNone_none, Bool.not_false, Bool.and_true,
    if_true]
  rfl

theorem toList_int (n : Int) :
    (toString n).toList = if n < 0 then '-' :: Nat.toDigits 10 n.natAbs else Nat.toDigits 10 n.natAbs := by
  cases n with
  | ofNat n =>
    have text : toString (Int.ofNat n) = String.ofList (Nat.toDigits 10 n) := Nat.repr_eq_ofList_toDigits
    rw [text]
    simp
  | negSucc n =>
    have text : toString (Int.negSucc n) = "-" ++ String.ofList (Nat.toDigits 10 (n + 1)) :=
      congrArg ("-" ++ ·) Nat.repr_eq_ofList_toDigits
    simp [text, Int.negSucc_lt_zero]

theorem number?_int (n : Int) {rest : List Char} (ends : Ends rest) :
    number? ((toString n).toList ++ rest) = some (.int n, rest) := by
  rw [toList_int]
  split
  · rename_i negative
    rw [List.cons_append, number?, unsigned?_toDigits true _ (fun _ => by omega) ends]
    simp only [if_true, Option.some.injEq, Prod.mk.injEq, Json.int.injEq, and_true]
    omega
  · rename_i positive
    have plain : number? (Nat.toDigits 10 n.natAbs ++ rest) =
        unsigned? false (Nat.toDigits 10 n.natAbs ++ rest) := by
      unfold number?
      split
      · rename_i others same
        -- No digit is a minus sign.
        obtain ⟨first, more, digits, digit⟩ := toDigits_cons n.natAbs
        rw [digits] at same
        cases same
        contradiction
      · rfl
    rw [plain, unsigned?_toDigits false _ (by simp) ends]
    simp only [Bool.false_eq_true, if_false, Option.some.injEq, Prod.mk.injEq, Json.int.injEq, and_true]
    omega

/-! Strings. -/

theorem hexValue?_hexDigit : ∀ n < 16, hexValue? (hexDigit n) = some n := by decide

/-- The numeric escape of a control character. -/
theorem codePoint?_control {c : Char} (control : c.toNat < 32) (rest : List Char) :
    codePoint? true ('0' :: '0' :: hexDigit (c.toNat / 16) :: hexDigit (c.toNat % 16) :: rest) =
      some (c, rest) := by
  have zero : hexValue? '0' = some 0 := rfl
  have high := hexValue?_hexDigit (c.toNat / 16) (by omega)
  have low := hexValue?_hexDigit (c.toNat % 16) (by omega)
  have unit : c.toNat / 16 * 16 + c.toNat % 16 = c.toNat := by omega
  have noHigh : ¬55296 ≤ c.toNat := by omega
  have noLow : ¬56320 ≤ c.toNat := by omega
  simp [codePoint?, hexUnit?, zero, high, low, unit, noHigh, noLow, Char.ofNat_toNat]

/-- A character is written as it is, or behind a backslash in a way that is read as the character. -/
theorem escape_cases (c : Char) :
    (escape c = [c] ∧ c ≠ '"' ∧ c ≠ '\\' ∧ 32 ≤ c.toNat) ∨
      ∃ code, escape c = '\\' :: code ∧ ∀ rest, escaped? true (code ++ rest) = some (c, rest) := by
  have numbered {n : Nat} (same : c.toNat = n) : c = Char.ofNat n := by rw [← same, Char.ofNat_toNat]
  unfold escape
  split
  · exact .inr ⟨_, rfl, fun rest => by subst_vars; rfl⟩
  split
  · exact .inr ⟨_, rfl, fun rest => by subst_vars; rfl⟩
  split
  · exact .inr ⟨_, rfl, fun rest => by rw [numbered ‹_›]; rfl⟩
  split
  · exact .inr ⟨_, rfl, fun rest => by rw [numbered ‹_›]; rfl⟩
  split
  · exact .inr ⟨_, rfl, fun rest => by subst_vars; rfl⟩
  split
  · exact .inr ⟨_, rfl, fun rest => by subst_vars; rfl⟩
  split
  · exact .inr ⟨_, rfl, fun rest => by subst_vars; rfl⟩
  split
  · exact .inr ⟨_, rfl, fun rest => codePoint?_control ‹_› rest⟩
  · exact .inl ⟨rfl, ‹_›, ‹_›, Nat.not_lt.mp ‹_›⟩

theorem stringTail?_escape (c : Char) (fuel : Nat) (read rest : List Char) :
    stringTail? true (fuel + 1) read (escape c ++ rest) = stringTail? true fuel (c :: read) rest := by
  rcases escape_cases c with ⟨plain, notQuote, notSlash, printable⟩ | ⟨code, escaped, reads⟩
  · simp [plain, stringTail?, notQuote, notSlash, Nat.not_lt.mpr printable]
  · simp [escaped, stringTail?, reads]

theorem string?_quote (text : String) {fuel : Nat} (enough : text.toList.length < fuel) (rest : List Char) :
    string? true fuel (text.toList.flatMap escape ++ '"' :: rest) = some (text, rest) := by
  have tail (cs : List Char) (fuel : Nat) (enough : cs.length < fuel) (read : List Char) :
      stringTail? true fuel read (cs.flatMap escape ++ '"' :: rest) =
        some (String.ofList (read.reverse ++ cs), rest) := by
    induction cs generalizing fuel read with
    | nil =>
      obtain ⟨fuel, rfl⟩ := Nat.exists_eq_add_one_of_ne_zero (Nat.ne_of_gt enough)
      simp [stringTail?]
    | cons c others ih =>
      obtain ⟨fuel, rfl⟩ := Nat.exists_eq_add_one_of_ne_zero (Nat.ne_of_gt (Nat.zero_lt_of_lt enough))
      have remains : others.length < fuel := Nat.lt_of_succ_lt_succ enough
      rw [List.flatMap_cons, List.append_assoc, stringTail?_escape, ih fuel remains]
      simp
  simpa [string?] using tail text.toList fuel enough []

theorem length_le_flatMap_escape (cs : List Char) : cs.length ≤ (cs.flatMap escape).length := by
  induction cs with
  | nil => simp
  | cons c others ih =>
    have some : 1 ≤ (escape c).length := by
      rcases escape_cases c with ⟨plain, _⟩ | ⟨code, escaped, _⟩
      · simp [plain]
      · simp [escaped]
    simp only [List.flatMap_cons, List.length_append, List.length_cons]
    omega

theorem toList_quote (text : String) : (quote text).toList = '"' :: (text.toList.flatMap escape ++ ['"']) := by
  simp [quote]

/-! Values. -/

/-- The text is read as the value, with room for that many nested containers, in front of anything that ends a
number. The bound on the fuel is the one that the reader starts from. -/
def ReadAs (room : Nat) (text : List Char) (j : Json) : Prop :=
  ∀ fuel rest, 2 * text.length < fuel → Ends rest → value? .kept fuel room (text ++ rest) = some (j, rest)

variable {room fuel : Nat} {cs rest : List Char}

/-- There is always fuel for the value itself. -/
theorem readAs_of_succ {text : List Char} {j : Json} (reads : ∀ fuel rest, 2 * text.length < fuel + 1 → Ends rest →
    value? .kept (fuel + 1) room (text ++ rest) = some (j, rest)) : ReadAs room text j := by
  intro fuel rest enough
  obtain ⟨fuel, rfl⟩ := Nat.exists_eq_add_one_of_ne_zero (Nat.ne_of_gt (Nat.zero_lt_of_lt enough))
  exact reads fuel rest enough

theorem ReadAs.pad {text pad : List Char} {j : Json} (reads : ReadAs room text j) (blank : Blank pad) :
    ReadAs room (pad ++ text) j := by
  intro fuel rest enough ends
  rw [List.append_assoc, ← value?_skipBlank, skipBlank_append blank, value?_skipBlank]
  rw [List.length_append] at enough
  exact reads fuel rest (by omega) ends

theorem readAs_null (room : Nat) : ReadAs room "null".toList .null :=
  readAs_of_succ fun _ _ _ _ => rfl

theorem readAs_true (room : Nat) : ReadAs room "true".toList (.bool true) :=
  readAs_of_succ fun _ _ _ _ => rfl

theorem readAs_false (room : Nat) : ReadAs room "false".toList (.bool false) :=
  readAs_of_succ fun _ _ _ _ => rfl

theorem readAs_str (room : Nat) (text : String) : ReadAs room (quote text).toList (.str text) := by
  refine readAs_of_succ fun fuel rest enough _ => ?_
  have written := length_le_flatMap_escape text.toList
  rw [toList_quote] at enough ⊢
  simp only [List.length_cons, List.length_append] at enough
  have shorter : text.toList.length < fuel := by omega
  have read := string?_quote text shorter rest
  rw [value?, List.cons_append, skipBlank_cons rfl, List.append_assoc]
  simp [Reading.keepsText, read]

/-- What starts with a digit or a minus sign can only be a number. -/
theorem value?_number {reading : Reading} {c : Char} (numeric : isDigit c = true ∨ c = '-') :
    value? reading (fuel + 1) room (c :: cs) = number? (c :: cs) := by
  have solid : isBlank c = false := by
    apply Bool.eq_false_iff.mpr
    intro blank
    simp only [isBlank, Bool.or_eq_true, decide_eq_true_eq] at blank
    rcases blank with ((rfl | rfl) | rfl) | rfl <;> exact absurd numeric (by decide)
  rw [value?, skipBlank_cons solid]
  -- Every other kind of value starts with a character of its own.
  split
  all_goals first
    | rfl
    | cases ‹c :: cs = _›
      exact absurd numeric (by decide)

/-- The text of an integer starts with a digit or a minus sign. -/
theorem toList_int_cons (n : Int) :
    ∃ first others, (toString n).toList = first :: others ∧ (isDigit first = true ∨ first = '-') := by
  rw [toList_int]
  split
  · exact ⟨'-', _, rfl, .inr rfl⟩
  · obtain ⟨first, others, digits, digit⟩ := toDigits_cons n.natAbs
    exact ⟨first, others, digits, .inl digit⟩

theorem readAs_int (room : Nat) (n : Int) : ReadAs room (toString n).toList (.int n) := by
  refine readAs_of_succ fun fuel rest _ ends => ?_
  have read := number?_int n ends
  obtain ⟨first, others, text, numeric⟩ := toList_int_cons n
  rw [text, List.cons_append] at read ⊢
  rw [value?_number numeric, read]

/-- No value starts with the bracket that ends an array. -/
theorem value?_close {reading : Reading} (close : skipBlank cs = ']' :: rest) :
    value? reading fuel room cs = none := by
  cases fuel with
  | zero => simp [value?]
  | succ fuel =>
    rw [value?, close]
    rfl

theorem value?_arr {items : List Json} (read : items? .kept fuel room cs = some (items, rest)) :
    value? .kept (fuel + 1) (room + 1) ('[' :: cs) = some (.arr items, rest) := by
  have opened (others : List Char) : skipBlank cs ≠ ']' :: others := by
    intro close
    cases fuel with
    | zero => simp [items?] at read
    | succ fuel => simp [items?, value?_close close] at read
  -- `opened` takes the row for an array without items out of the match.
  simp [value?, skipBlank_cons, isBlank, Reading.ofItem, items?_skipBlank, read]

theorem value?_obj {members : List (String × Json)}
    (read : members? .kept fuel room cs = some (members, rest)) :
    value? .kept (fuel + 1) (room + 1) ('{' :: cs) = some (.obj members, rest) := by
  have opened (others : List Char) : skipBlank cs ≠ '}' :: others := by
    intro close
    cases fuel with
    | zero => simp [members?] at read
    | succ fuel => simp [members?, close] at read
  simp [value?, skipBlank_cons, isBlank, members?_skipBlank, read]

/-! Containers. The texts of items or members are joined by commas; there may be blanks behind the opening
bracket, behind each comma and before the closing bracket. -/

/-- A member as it is written: its key, a colon and the text of its value. -/
def memberText (key : String) (text : List Char) : List Char := (quote key).toList ++ ':' :: text

section

variable {pad text : List Char} {j : Json} {key : String} (reads : ReadAs room text j)

theorem ends_close {c : Char} (closes : c = ']' ∨ c = '}') (blank : Blank pad) (rest : List Char) :
    Ends (pad ++ c :: rest) := by
  refine ends_blank blank (ends_cons ?_ rest)
  rcases closes with rfl | rfl <;> decide

include reads

theorem items?_last (blank : Blank pad) (enough : 2 * text.length < fuel) (rest : List Char) :
    items? .kept (fuel + 1) room (text ++ (pad ++ ']' :: rest)) = some ([j], rest) := by
  have read := reads fuel _ enough (ends_close (.inl rfl) blank rest)
  simp [items?, read, skipBlank_append blank, skipBlank_cons, isBlank]

theorem items?_comma {items : List Json} (enough : 2 * text.length < fuel)
    (more : items? .kept fuel room cs = some (items, rest)) :
    items? .kept (fuel + 1) room (text ++ ',' :: cs) = some (j :: items, rest) := by
  have read := reads fuel (',' :: cs) enough (ends_cons (by decide) cs)
  simp [items?, read, skipBlank_cons, isBlank, more]

theorem members?_last (blank : Blank pad) (enough : 2 * (memberText key text).length < fuel)
    (rest : List Char) :
    members? .kept (fuel + 1) room (memberText key text ++ (pad ++ '}' :: rest)) = some ([(key, j)], rest) := by
  simp only [memberText, toList_quote, List.cons_append, List.append_assoc, List.length_cons,
    List.length_append] at enough ⊢
  have shorter : key.toList.length < fuel := by
    have written := length_le_flatMap_escape key.toList
    omega
  have read := reads fuel _ (by omega) (ends_close (.inr rfl) blank rest)
  simp [members?, skipBlank_cons, isBlank, Reading.keepsText, Reading.ofMember, string?_quote key shorter, read,
    skipBlank_append blank]

theorem members?_comma {members : List (String × Json)} (enough : 2 * (memberText key text).length < fuel)
    (more : members? .kept fuel room cs = some (members, rest)) :
    members? .kept (fuel + 1) room (memberText key text ++ ',' :: cs) = some ((key, j) :: members, rest) := by
  simp only [memberText, toList_quote, List.cons_append, List.append_assoc, List.length_cons,
    List.length_append] at enough ⊢
  have shorter : key.toList.length < fuel := by
    have written := length_le_flatMap_escape key.toList
    omega
  have read := reads fuel (',' :: cs) (by omega) (ends_cons (by decide) cs)
  simp [members?, skipBlank_cons, isBlank, Reading.keepsText, Reading.ofMember, string?_quote key shorter, read,
    more]

end

section

variable {β : Type} {pre gap post : List Char} {xs : List β} (blankPre : Blank pre) (blankGap : Blank gap)
  (blankPost : Blank post) {write : β → List Char} {value : β → Json}
  (each : ∀ x ∈ xs, ReadAs room (write x) (value x)) (nonempty : xs ≠ [])

include blankGap blankPost each nonempty

theorem items?_joined (enough : 2 * ((',' :: gap).intercalate (xs.map write)).length + 1 < fuel)
    (rest : List Char) :
    items? .kept fuel room ((',' :: gap).intercalate (xs.map write) ++ (post ++ ']' :: rest)) =
      some (xs.map value, rest) := by
  induction xs generalizing fuel with
  | nil => contradiction
  | cons x others ih =>
    obtain ⟨fuel, rfl⟩ := Nat.exists_eq_add_one_of_ne_zero (Nat.ne_of_gt (Nat.zero_lt_of_lt enough))
    obtain ⟨first, later⟩ := List.forall_mem_cons.mp each
    cases others with
    | nil =>
      simp only [List.map_cons, List.map_nil, List.intercalate_singleton] at enough ⊢
      exact items?_last first blankPost (by omega) rest
    | cons y others =>
      simp only [List.map_cons, List.intercalate_cons_cons, List.append_assoc, List.cons_append,
        List.length_append, List.length_cons] at enough ih ⊢
      apply items?_comma first (by omega)
      rw [← items?_skipBlank, skipBlank_append blankGap, items?_skipBlank]
      exact ih later (List.cons_ne_nil y others) (by omega)

theorem members?_joined {pad : List Char} (blankPad : Blank pad) (key : β → String)
    (enough : 2 * ((',' :: gap).intercalate
      (xs.map fun x => pad ++ memberText (key x) (write x))).length + 1 < fuel) (rest : List Char) :
    members? .kept fuel room ((',' :: gap).intercalate
        (xs.map fun x => pad ++ memberText (key x) (write x)) ++ (post ++ '}' :: rest)) =
      some (xs.map fun x => (key x, value x), rest) := by
  induction xs generalizing fuel with
  | nil => contradiction
  | cons x others ih =>
    obtain ⟨fuel, rfl⟩ := Nat.exists_eq_add_one_of_ne_zero (Nat.ne_of_gt (Nat.zero_lt_of_lt enough))
    obtain ⟨first, later⟩ := List.forall_mem_cons.mp each
    cases others with
    | nil =>
      simp only [List.map_cons, List.map_nil, List.intercalate_singleton, List.append_assoc,
        List.length_append] at enough ⊢
      rw [← members?_skipBlank, skipBlank_append blankPad, members?_skipBlank]
      exact members?_last first blankPost (by omega) rest
    | cons y others =>
      simp only [List.map_cons, List.intercalate_cons_cons, List.append_assoc, List.cons_append,
        List.length_append, List.length_cons] at enough ih ⊢
      rw [← members?_skipBlank, skipBlank_append blankPad, members?_skipBlank]
      apply members?_comma first (by omega)
      rw [← members?_skipBlank, skipBlank_append blankGap, members?_skipBlank]
      exact ih later (List.cons_ne_nil y others) (by omega)

include blankPre

theorem readAs_arr :
    ReadAs (room + 1) ('[' :: (pre ++ ((',' :: gap).intercalate (xs.map write) ++ (post ++ [']']))))
      (.arr (xs.map value)) := by
  refine readAs_of_succ fun fuel rest enough _ => ?_
  simp only [List.length_cons, List.length_append] at enough
  simp only [List.cons_append, List.append_assoc, List.nil_append]
  apply value?_arr
  rw [← items?_skipBlank, skipBlank_append blankPre, items?_skipBlank]
  exact items?_joined blankGap blankPost each nonempty (by omega) rest

theorem readAs_obj {pad : List Char} (blankPad : Blank pad) (key : β → String) :
    ReadAs (room + 1)
      ('{' :: (pre ++ ((',' :: gap).intercalate (xs.map fun x => pad ++ memberText (key x) (write x)) ++
        (post ++ ['}']))))
      (.obj (xs.map fun x => (key x, value x))) := by
  refine readAs_of_succ fun fuel rest enough _ => ?_
  simp only [List.length_cons, List.length_append] at enough
  simp only [List.cons_append, List.append_assoc, List.nil_append]
  apply value?_obj
  rw [← members?_skipBlank, skipBlank_append blankPre, members?_skipBlank]
  exact members?_joined blankGap blankPost each nonempty blankPad key (by omega) rest

end

theorem readAs_noItems (room : Nat) : ReadAs (room + 1) ['[', ']'] (.arr []) :=
  readAs_of_succ fun _ _ _ _ => rfl

theorem readAs_noMembers (room : Nat) : ReadAs (room + 1) ['{', '}'] (.obj []) :=
  readAs_of_succ fun _ _ _ _ => rfl

/-! The two ways of writing. -/

/-- A value without fractions and exponents, and with at most that many nested containers. -/
inductive Plain : Nat → Json → Prop where
  | null (room : Nat) : Plain room .null
  | bool (room : Nat) (value : Bool) : Plain room (.bool value)
  | int (room : Nat) (value : Int) : Plain room (.int value)
  | str (room : Nat) (text : String) : Plain room (.str text)
  | arr {room : Nat} {items : List Json} : (∀ j ∈ items, Plain room j) → Plain (room + 1) (.arr items)
  | obj {room : Nat} {members : List (String × Json)} :
      (∀ m ∈ members, Plain room m.2) → Plain (room + 1) (.obj members)

theorem plain_optional {α : Type} {write : α → Json} (each : ∀ x, Plain room (write x)) (value : Option α) :
    Plain room ((value.map write).getD .null) := by
  cases value with
  | none => exact .null room
  | some x => exact each x

theorem plain_list {α : Type} {write : α → Json} (each : ∀ x, Plain room (write x)) (items : List α) :
    Plain (room + 1) (.arr (items.map write)) :=
  .arr (List.forall_mem_map.mpr fun x _ => each x)

theorem compactItems_eq (items : List Json) : compactItems items = items.map compact := by
  induction items with
  | nil => rfl
  | cons item rest ih => rw [compactItems, ih, List.map_cons]

theorem compactMembers_eq (members : List (String × Json)) :
    compactMembers members = members.map fun m => quote m.1 ++ ":" ++ m.2.compact := by
  induction members with
  | nil => rfl
  | cons m rest ih => rw [compactMembers, ih, List.map_cons]

theorem prettyItems_eq (depth : Nat) (items : List Json) :
    prettyItems depth items = items.map (prettyAt depth) := by
  induction items with
  | nil => rfl
  | cons item rest ih => rw [prettyItems, ih, List.map_cons]

theorem prettyMembers_eq (depth : Nat) (members : List (String × Json)) :
    prettyMembers depth members = members.map fun m => quote m.1 ++ ": " ++ m.2.prettyAt depth := by
  induction members with
  | nil => rfl
  | cons m rest ih => rw [prettyMembers, ih, List.map_cons]

theorem readAs_compact {j : Json} (plain : Plain room j) : ReadAs room j.compact.toList j := by
  induction plain with
  | null room => exact readAs_null room
  | bool room value =>
    cases value with
    | true => exact readAs_true room
    | false => exact readAs_false room
  | int room value => exact readAs_int room value
  | str room text => exact readAs_str room text
  | @arr room items _ ih =>
    rw [compact, compactItems_eq]
    by_cases nonempty : items = []
    · subst nonempty
      exact readAs_noItems room
    · have reads := readAs_arr blank_nil blank_nil blank_nil ih nonempty
      simpa [String.toList_intercalate, Function.comp_def] using reads
  | @obj room members _ ih =>
    rw [compact, compactMembers_eq]
    by_cases nonempty : members = []
    · subst nonempty
      exact readAs_noMembers room
    · have reads := readAs_obj blank_nil blank_nil blank_nil ih nonempty blank_nil Prod.fst
      simpa [String.toList_intercalate, Function.comp_def, memberText] using reads

/-- The lines of a container, pulled apart. -/
theorem toList_block {lines : List String} (nonempty : lines ≠ []) (opening closing : String) (depth : Nat) :
    (block opening closing depth lines).toList =
      opening.toList ++ ('\n' :: ((',' :: ['\n']).intercalate
        (lines.map fun line => (indent (depth + 1)).toList ++ line.toList) ++
          ('\n' :: (indent depth).toList ++ closing.toList))) := by
  have some : lines.isEmpty = false := List.isEmpty_eq_false_iff.mpr nonempty
  simp [block, some, String.toList_intercalate, Function.comp_def]

theorem blank_newline {pad : List Char} (blank : Blank pad) : Blank ('\n' :: pad) :=
  List.forall_mem_cons.mpr ⟨rfl, blank⟩

theorem readAs_prettyAt {j : Json} (plain : Plain room j) (depth : Nat) :
    ReadAs room (j.prettyAt depth).toList j := by
  have newline : Blank ['\n'] := blank_newline blank_nil
  induction plain generalizing depth with
  | null room => exact readAs_null room
  | bool room value =>
    cases value with
    | true => exact readAs_true room
    | false => exact readAs_false room
  | int room value => exact readAs_int room value
  | str room text => exact readAs_str room text
  | @arr room items _ ih =>
    rw [prettyAt, prettyItems_eq]
    by_cases nonempty : items = []
    · subst nonempty
      simpa [block] using readAs_noItems room
    · have each (item : Json) (member : item ∈ items) := (ih item member (depth + 1)).pad (blank_indent (depth + 1))
      have reads := readAs_arr newline newline (blank_newline (blank_indent depth)) each nonempty
      rw [toList_block (by simpa using nonempty)]
      simpa [Function.comp_def] using reads
  | @obj room members _ ih =>
    rw [prettyAt, prettyMembers_eq]
    by_cases nonempty : members = []
    · subst nonempty
      simpa [block] using readAs_noMembers room
    · have blank : Blank [' '] := by simp [Blank, isBlank]
      have each (m : String × Json) (member : m ∈ members) := (ih m member (depth + 1)).pad blank
      have reads := readAs_obj newline newline (blank_newline (blank_indent depth)) each nonempty
        (blank_indent (depth + 1)) Prod.fst
      rw [toList_block (by simpa using nonempty)]
      simpa [Function.comp_def, memberText] using reads

/-- A text of one value, with nothing but blanks behind it. -/
theorem read?_of_readAs {text tail : String} {j : Json} (reads : ReadAs room text.toList j)
    (blank : Blank tail.toList) : read? .kept room (text ++ tail) = some j := by
  have ends : Ends tail.toList := by simpa using ends_blank blank ends_nil
  have front : readFront? .kept room (text ++ tail) = some (j, tail) := by
    have found := reads (2 * (text ++ tail).toList.length + 2) tail.toList (by simp; omega) ends
    rw [← String.toList_append] at found
    simp only [readFront?, found, Option.map_some, String.ofList_toList]
  have nothing : onlyBlank tail = true := List.all_eq_true.mpr blank
  simp [read?, front, nothing]

theorem read?_whole {text : String} {j : Json} (reads : ReadAs room text.toList j) :
    read? .kept room text = some j := by
  have blank : Blank "".toList := by simp [Blank]
  simpa using read?_of_readAs reads blank

end Dataflow.Json
