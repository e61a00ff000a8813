import Dataflow.Json.Form

/-!
# What was written in JSON is read

A value that is made of natural numbers and of texts of characters is read from its written form,
whatever follows it. One thing is not read as it was: a control character that has no letter of its
own is written with its number, and what is read is a 16-bit unit of that number. The characters of
the text are the same.

* `Piece.reread`, `Text.reread`, `Value.reread`: what is read where something was written.
* `readText_render`, `Text.chars?_reread`: texts.
* `readNumber_toDigits`: natural numbers.
* `read_render`, `Value.parse?_render`: values.
-/

namespace Dataflow.Json

/-! ## Texts -/

/-- The control characters that have a letter after a backslash. -/
def hasLetter (c : Char) : Bool :=
  c.toNat = 8 || c.toNat = 9 || c.toNat = 10 || c.toNat = 12 || c.toNat = 13

/-- The text is made of characters. -/
def Text.Plain (t : Text) : Prop := ∃ cs : List Char, t = cs.map .char

/-- What is read where a piece was written. -/
def Piece.reread : Piece → Piece
  | .char c => if c.toNat < 32 ∧ hasLetter c = false then .unit c.toNat else .char c
  | .unit n => .unit n

def Text.reread (t : Text) : Text := t.map Piece.reread

theorem hexValue?_digitChar {d : Nat} (hd : d < 16) : hexValue? (Nat.digitChar d) = some d := by
  have hall : ∀ d < 16, hexValue? (Nat.digitChar d) = some d := by decide
  exact hall d hd

theorem unitOf?_hexUnit {n : Nat} (hn : n < 65536) :
    unitOf? (Nat.digitChar (n / 4096 % 16)) (Nat.digitChar (n / 256 % 16))
      (Nat.digitChar (n / 16 % 16)) (Nat.digitChar (n % 16)) = some n := by
  have hvalue : ((n / 4096 % 16 * 16 + n / 256 % 16) * 16 + n / 16 % 16) * 16 + n % 16 = n := by
    omega
  simp only [unitOf?, hexValue?_digitChar (Nat.mod_lt _ (by decide : 0 < 16)), Option.bind_eq_bind,
    Option.bind_some, hvalue]
  rfl

theorem readText_renderUnit {n : Nat} (hn : n < 65536) (rest : List Char) :
    readText (renderUnit n ++ rest) = prepend (.unit n) (readText rest) := by
  rw [renderUnit, hexUnit]
  simp only [List.cons_append, List.nil_append]
  rw [readText, unitOf?_hexUnit hn]

theorem readText_plain {c : Char} (hquote : c ≠ '"') (hslash : c ≠ '\\') (hcontrol : ¬c.toNat < 32)
    (rest : List Char) : readText (c :: rest) = prepend (.char c) (readText rest) := by
  rw [readText.eq_def]
  split
  · rename_i heq
    cases heq
  · rename_i heq
    exact absurd (List.cons.inj heq).1 hquote
  · rename_i heq
    exact absurd (List.cons.inj heq).1 hslash
  · rename_i heq
    exact absurd (List.cons.inj heq).1 hslash
  · rename_i heq
    cases heq
    rw [if_neg hcontrol]

theorem Piece.reread_char {c : Char} (h : ¬c.toNat < 32 ∨ hasLetter c = true) :
    (Piece.char c).reread = .char c := by
  rw [reread, if_neg]
  rintro ⟨hcontrol, hletter⟩
  rcases h with h | h
  · exact h hcontrol
  · rw [hletter] at h
    cases h

/-- A character that is written as a letter after a backslash. -/
theorem readText_letter {c : Char} {n : Nat} (letter : Char) (hc : c.toNat = n)
    (hread : ∀ rest, readText ('\\' :: letter :: rest) =
      prepend (.char (Char.ofNat n)) (readText rest))
    (hletter : hasLetter c = true) (rest : List Char) :
    readText ('\\' :: letter :: rest) = prepend (Piece.char c).reread (readText rest) := by
  rw [hread, Piece.reread_char (Or.inr hletter), ← hc, Char.ofNat_toNat]

/-- A written character is read, whatever follows it. -/
theorem readText_renderChar (c : Char) (rest : List Char) :
    readText (renderChar c ++ rest) = prepend (Piece.char c).reread (readText rest) := by
  by_cases hquote : c = '"'
  · subst hquote
    rfl
  by_cases hslash : c = '\\'
  · subst hslash
    rfl
  rw [renderChar, if_neg hquote, if_neg hslash]
  split
  · rename_i hc
    exact readText_letter 'b' hc (fun _ => rfl) (by simp [hasLetter, hc]) rest
  split
  · rename_i hc
    exact readText_letter 't' hc (fun _ => rfl) (by simp [hasLetter, hc]) rest
  split
  · rename_i hc
    exact readText_letter 'n' hc (fun _ => rfl) (by simp [hasLetter, hc]) rest
  split
  · rename_i hc
    exact readText_letter 'f' hc (fun _ => rfl) (by simp [hasLetter, hc]) rest
  split
  · rename_i hc
    exact readText_letter 'r' hc (fun _ => rfl) (by simp [hasLetter, hc]) rest
  rename_i h8 h9 h10 h12 h13
  split
  · rename_i hcontrol
    have hletter : hasLetter c = false := by simp [hasLetter, h8, h9, h10, h12, h13]
    rw [readText_renderUnit (by omega), Piece.reread, if_pos ⟨hcontrol, hletter⟩]
  · rename_i hcontrol
    rw [List.singleton_append, readText_plain hquote hslash hcontrol,
      Piece.reread_char (Or.inl hcontrol)]

/-- A written text of characters is read up to its closing quote. -/
theorem readText_render (cs : List Char) (rest : List Char) :
    readText (((cs.map Piece.char : Text).flatMap Piece.render) ++ '"' :: rest) =
      some (Text.reread (cs.map Piece.char), rest) := by
  induction cs with
  | nil => rfl
  | cons c cs ih =>
    rw [List.map_cons, List.flatMap_cons, List.append_assoc, Piece.render, readText_renderChar, ih]
    rfl

theorem Text.chars?_unit {n : Nat} (hn : n < 32) (t : Text) :
    chars? (.unit n :: t) = (chars? t).map (Char.ofNat n :: ·) := by
  have hhigh : isHigh n = false := by
    rw [isHigh, Bool.and_eq_false_iff]
    exact Or.inl (decide_eq_false (by omega))
  have hlow : isLow n = false := by
    rw [isLow, Bool.and_eq_false_iff]
    exact Or.inl (decide_eq_false (by omega))
  rw [chars?.eq_def]
  split
  · rename_i heq
    cases heq
  · rename_i heq
    cases heq
  · rename_i heq
    cases heq
    rw [hhigh, hlow]
    rfl
  · rename_i heq
    cases heq
    rw [hhigh, hlow]
    rfl

/-- What is read where characters were written stands for the same characters. -/
theorem Text.chars?_reread (cs : List Char) :
    chars? (Text.reread (cs.map Piece.char)) = some cs := by
  induction cs with
  | nil => rfl
  | cons c cs ih =>
    rw [Text.reread] at ih ⊢
    rw [List.map_cons, List.map_cons, Piece.reread]
    split
    · rename_i hcontrol
      rw [chars?_unit hcontrol.1, ih, Char.ofNat_toNat]
      rfl
    · rw [chars?, ih]
      rfl

theorem Text.toString?_reread (s : String) : (Text.ofString s).reread.toString? = some s := by
  rw [toString?, ofString, chars?_reread]
  exact congrArg some String.ofList_toList

/-! ## Numbers -/

/-- What stands behind a value in the compact form: the end, or the mark that comes next. -/
inductive Ends : List Char → Prop
  | atEnd : Ends []
  | comma (rest : List Char) : Ends (',' :: rest)
  | bracket (rest : List Char) : Ends (']' :: rest)
  | brace (rest : List Char) : Ends ('}' :: rest)

theorem isDigit_toDigits {n : Nat} : ∀ c ∈ Nat.toDigits 10 n, isDigit c = true := by
  intro c hc
  exact Nat.isDigit_of_mem_toDigits (by decide) (by decide) hc

theorem ofDigits_toDigits (n : Nat) : ofDigits (Nat.toDigits 10 n) = n := by
  have h := Nat.ofDigitChars_toDigits (b := 10) (n := n) (by decide) (by decide)
  rwa [Nat.ofDigitChars_eq_foldl] at h

/-- Only zero is written with a zero in front. -/
theorem toDigits_pos {n : Nat} (hn : 0 < n) : ∀ digits, Nat.toDigits 10 n ≠ '0' :: digits := by
  induction n using Nat.strongRecOn with
  | ind n ih =>
    intro digits hdigits
    by_cases hsmall : n < 10
    · rw [Nat.toDigits_of_lt_base hsmall] at hdigits
      have hzero := Nat.digitChar_eq_zero.mp (List.cons.inj hdigits).1
      omega
    · rw [Nat.toDigits_of_base_le (by decide) (by omega)] at hdigits
      cases hfront : Nat.toDigits 10 (n / 10) with
      | nil => exact Nat.toDigits_ne_nil hfront
      | cons c front =>
        rw [hfront, List.cons_append] at hdigits
        obtain ⟨rfl, -⟩ := List.cons.inj hdigits
        exact ih (n / 10) (by omega) (by omega) front hfront

theorem Ends.takeWhile {rest : List Char} (h : Ends rest) : rest.takeWhile isDigit = [] := by
  cases h <;> rfl

theorem Ends.dropWhile {rest : List Char} (h : Ends rest) : rest.dropWhile isDigit = rest := by
  cases h <;> rfl

theorem readDigits_append {digits rest : List Char} (hne : digits ≠ [])
    (hdigits : ∀ c ∈ digits, isDigit c = true) (h : Ends rest) :
    readDigits (digits ++ rest) = some (digits, rest) := by
  have htake : (digits ++ rest).takeWhile isDigit = digits := by
    rw [List.takeWhile_append_of_pos hdigits, h.takeWhile, List.append_nil]
  have hdrop : (digits ++ rest).dropWhile isDigit = rest := by
    rw [List.dropWhile_append_of_pos hdigits, h.dropWhile]
  have hempty : digits.isEmpty = false := List.isEmpty_eq_false_iff.mpr hne
  rw [readDigits, htake, hdrop, hempty]
  rfl

theorem readWhole_toDigits (n : Nat) {rest : List Char} (h : Ends rest) :
    readWhole (Nat.toDigits 10 n ++ rest) = some (Nat.toDigits 10 n, rest) := by
  by_cases hn : n = 0
  · subst hn
    rw [Nat.toDigits_zero]
    rfl
  · have hread := readDigits_append (Nat.toDigits_ne_nil (n := n)) isDigit_toDigits h
    have hfront := toDigits_pos (Nat.pos_of_ne_zero hn)
    cases hdigits : Nat.toDigits 10 n with
    | nil => exact absurd hdigits Nat.toDigits_ne_nil
    | cons c digits =>
      rw [hdigits] at hread
      rw [List.cons_append] at hread ⊢
      rw [readWhole.eq_def]
      split
      · rename_i heq
        obtain ⟨rfl, -⟩ := List.cons.inj heq
        exact absurd hdigits (hfront digits)
      · exact hread

theorem Ends.readFraction {rest : List Char} (h : Ends rest) :
    Json.readFraction rest = some ([], rest) := by
  cases h <;> rfl

theorem Ends.readExponent {rest : List Char} (h : Ends rest) :
    Json.readExponent rest = some ([], rest) := by
  cases h <;> rfl

theorem readUnsigned_toDigits (n : Nat) {rest : List Char} (h : Ends rest) :
    readUnsigned (Nat.toDigits 10 n ++ rest) = some (.natural n, rest) := by
  rw [readUnsigned, readWhole_toDigits n h]
  simp only [Option.bind_eq_bind, Option.bind_some, h.readFraction, h.readExponent]
  rw [ofDigits_toDigits]
  rfl

theorem ne_of_isDigit {c c' : Char} (hc : isDigit c = true) (hc' : isDigit c' = false) : c ≠ c' := by
  rintro rfl
  rw [hc] at hc'
  cases hc'

theorem skipSpace_cons {c : Char} {cs : List Char} (hc : isSpace c = false) :
    skipSpace (c :: cs) = c :: cs := by
  rw [skipSpace, List.dropWhile_cons_of_neg (by rw [hc]; decide)]

theorem isSpace_of_isDigit {c : Char} (hc : isDigit c = true) : isSpace c = false := by
  have hne : ∀ c', isDigit c' = false → (c == c') = false := fun c' hc' =>
    beq_eq_false_iff_ne.mpr (ne_of_isDigit hc hc')
  rw [isSpace, hne ' ' rfl, hne '\t' rfl, hne '\n' rfl, hne '\r' rfl]
  rfl

/-- A digit in front means a number. -/
theorem readValue_digit {fuel : Nat} {c : Char} {cs : List Char} (hc : isDigit c = true) :
    readValue (fuel + 1) (c :: cs) =
      (readUnsigned (c :: cs)).map fun (n, rest) => (.number n, rest) := by
  have hne : ∀ c' tail, isDigit c' = false → c :: cs ≠ c' :: tail := fun c' tail hc' heq =>
    ne_of_isDigit hc hc' (List.cons.inj heq).1
  have hnumber : readNumber (c :: cs) = readUnsigned (c :: cs) := by
    rw [readNumber.eq_def]
    split
    · rename_i heq
      exact absurd heq (hne '-' _ rfl)
    · rfl
  rw [readValue, skipSpace_cons (isSpace_of_isDigit hc)]
  split
  · rename_i heq
    exact absurd heq (hne 'n' _ rfl)
  · rename_i heq
    exact absurd heq (hne 't' _ rfl)
  · rename_i heq
    exact absurd heq (hne 'f' _ rfl)
  · rename_i heq
    exact absurd heq (hne '"' _ rfl)
  · rename_i heq
    exact absurd heq (hne '[' _ rfl)
  · rename_i heq
    exact absurd heq (hne '{' _ rfl)
  · rw [hnumber]

theorem readValue_toDigits (fuel n : Nat) {rest : List Char} (h : Ends rest) :
    readValue (fuel + 1) (Nat.toDigits 10 n ++ rest) = some (.number (.natural n), rest) := by
  have hread := readUnsigned_toDigits n h
  have hall := isDigit_toDigits (n := n)
  cases hdigits : Nat.toDigits 10 n with
  | nil => exact absurd hdigits Nat.toDigits_ne_nil
  | cons c digits =>
    rw [hdigits] at hread hall
    rw [List.cons_append] at hread ⊢
    rw [readValue_digit (hall c List.mem_cons_self), hread]
    rfl

/-! ## Values -/

mutual

/-- The value is made of natural numbers and of texts of characters. -/
def Value.Plain : Value → Prop
  | .null | .bool _ | .number (.natural _) => True
  | .number (.written _) => False
  | .text t => t.Plain
  | .array items => PlainItems items
  | .object members => PlainMembers members

def PlainItems : List Value → Prop
  | [] => True
  | item :: rest => item.Plain ∧ PlainItems rest

def PlainMembers : List (Text × Value) → Prop
  | [] => True
  | (name, value) :: rest => name.Plain ∧ value.Plain ∧ PlainMembers rest

end

mutual

/-- What is read where a value was written. -/
def Value.reread : Value → Value
  | .null => .null
  | .bool b => .bool b
  | .number n => .number n
  | .text t => .text t.reread
  | .array items => .array (rereadItems items)
  | .object members => .object (rereadMembers members)

def rereadItems : List Value → List Value
  | [] => []
  | item :: rest => item.reread :: rereadItems rest

def rereadMembers : List (Text × Value) → List (Text × Value)
  | [] => []
  | (name, value) :: rest => (name.reread, value.reread) :: rereadMembers rest

end

theorem exists_commaSeparated (c : Char) (cs : List Char) (rest : List (List Char))
    (tail : List Char) : ∃ cs', commaSeparated ((c :: cs) :: rest) ++ tail = c :: cs' := by
  cases rest with
  | nil => exact ⟨_, rfl⟩
  | cons next rest => exact ⟨_, rfl⟩

theorem Text.Plain.readText {t : Text} (h : t.Plain) (rest : List Char) :
    Json.readText (t.flatMap Piece.render ++ '"' :: rest) = some (t.reread, rest) := by
  obtain ⟨cs, rfl⟩ := h
  exact readText_render cs rest

/-- The first character of a written value is no blank and does not close an array. -/
theorem Value.Plain.exists_head {v : Value} (h : v.Plain) :
    ∃ c cs, v.renderChars = c :: cs ∧ isSpace c = false ∧ c ≠ ']' := by
  cases v with
  | null => exact ⟨'n', _, rfl, rfl, by decide⟩
  | bool b => cases b <;> exact ⟨_, _, rfl, rfl, by decide⟩
  | number n =>
    cases n with
    | natural n =>
      have hall := isDigit_toDigits (n := n)
      cases hdigits : Nat.toDigits 10 n with
      | nil => exact absurd hdigits Nat.toDigits_ne_nil
      | cons c digits =>
        rw [hdigits] at hall
        have hc := hall c List.mem_cons_self
        exact ⟨c, digits, hdigits, isSpace_of_isDigit hc, ne_of_isDigit hc rfl⟩
    | written chars => exact absurd h id
  | text t => exact ⟨'"', _, rfl, rfl, by decide⟩
  | array items => exact ⟨'[', _, rfl, rfl, by decide⟩
  | object members => exact ⟨'{', _, rfl, rfl, by decide⟩

/-! ### Reading by the first character -/

section Heads

variable (fuel : Nat) (cs : List Char)

theorem readValue_quote : readValue (fuel + 1) ('"' :: cs) =
    (readText cs).map fun (t, rest) => (.text t, rest) := rfl

theorem readValue_emptyArray :
    readValue (fuel + 1) ('[' :: ']' :: cs) = some (.array [], cs) := rfl

theorem readValue_array {c : Char} (hspace : isSpace c = false) (hbracket : c ≠ ']') :
    readValue (fuel + 1) ('[' :: c :: cs) =
      (readItems fuel (c :: cs)).map fun (items, rest) => (.array items, rest) := by
  simp only [readValue, skipSpace_cons (rfl : isSpace '[' = false), skipSpace_cons hspace]
  split
  · rename_i heq
    exact absurd (List.cons.inj heq).1 hbracket
  · rfl

theorem readValue_emptyObject :
    readValue (fuel + 1) ('{' :: '}' :: cs) = some (.object [], cs) := rfl

theorem readValue_object : readValue (fuel + 1) ('{' :: '"' :: cs) =
    (readMembers fuel ('"' :: cs)).map fun (members, rest) => (.object members, rest) := rfl

end Heads

/-- With so much fuel, what was written is read. -/
structure ReadsBack (fuel : Nat) : Prop where
  value {v : Value} {rest : List Char} : v.Plain → Ends rest → 2 * v.renderChars.length < fuel →
    readValue fuel (v.renderChars ++ rest) = some (v.reread, rest)
  items {item : Value} {items : List Value} : PlainItems (item :: items) →
    2 * (commaSeparated (renderItems (item :: items))).length + 1 < fuel → ∀ rest,
    readItems fuel (commaSeparated (renderItems (item :: items)) ++ ']' :: rest) =
      some (rereadItems (item :: items), rest)
  members {member : Text × Value} {members : List (Text × Value)} :
    PlainMembers (member :: members) →
    2 * (commaSeparated (renderMembers (member :: members))).length + 1 < fuel → ∀ rest,
    readMembers fuel (commaSeparated (renderMembers (member :: members)) ++ '}' :: rest) =
      some (rereadMembers (member :: members), rest)

namespace ReadsBack

variable {fuel : Nat}

theorem array (h : ReadsBack fuel) {items : List Value} (hitems : PlainItems items)
    (hfuel : 2 * (Value.array items).renderChars.length < fuel + 1) (rest : List Char) :
    readValue (fuel + 1) ((Value.array items).renderChars ++ rest) =
      some ((Value.array items).reread, rest) := by
  rw [Value.renderChars, List.cons_append, List.length_cons, List.length_append,
    List.length_singleton] at hfuel
  rw [Value.renderChars, List.cons_append, List.cons_append, List.append_assoc,
    List.singleton_append]
  cases items with
  | nil => exact readValue_emptyArray fuel rest
  | cons item items =>
    have hread := h.items hitems (by omega) rest
    obtain ⟨c, cs, hhead, hspace, hbracket⟩ := hitems.1.exists_head
    obtain ⟨cs, hfront⟩ : ∃ cs, commaSeparated (renderItems (item :: items)) ++ ']' :: rest =
        c :: cs := by
      rw [renderItems, hhead]
      exact exists_commaSeparated c cs _ _
    rw [hfront] at hread ⊢
    rw [readValue_array fuel cs hspace hbracket, hread]
    rfl

theorem object (h : ReadsBack fuel) {members : List (Text × Value)}
    (hmembers : PlainMembers members)
    (hfuel : 2 * (Value.object members).renderChars.length < fuel + 1) (rest : List Char) :
    readValue (fuel + 1) ((Value.object members).renderChars ++ rest) =
      some ((Value.object members).reread, rest) := by
  rw [Value.renderChars, List.cons_append, List.length_cons, List.length_append,
    List.length_singleton] at hfuel
  rw [Value.renderChars, List.cons_append, List.cons_append, List.append_assoc,
    List.singleton_append]
  cases members with
  | nil => exact readValue_emptyObject fuel rest
  | cons member members =>
    have hread := h.members hmembers (by omega) rest
    obtain ⟨cs, hfront⟩ : ∃ cs, commaSeparated (renderMembers (member :: members)) ++ '}' :: rest =
        '"' :: cs := exists_commaSeparated _ _ _ _
    rw [hfront] at hread ⊢
    rw [readValue_object, hread]
    rfl

theorem value_succ (h : ReadsBack fuel) {v : Value} {rest : List Char} (hv : v.Plain)
    (hrest : Ends rest) (hfuel : 2 * v.renderChars.length < fuel + 1) :
    readValue (fuel + 1) (v.renderChars ++ rest) = some (v.reread, rest) := by
  cases v with
  | null => rfl
  | bool b => cases b <;> rfl
  | number n =>
    cases n with
    | natural n => exact readValue_toDigits fuel n hrest
    | written chars => exact absurd hv id
  | text t =>
    rw [Value.renderChars, Text.render, List.cons_append, List.cons_append, List.append_assoc,
      List.singleton_append, readValue_quote, Text.Plain.readText hv]
    rfl
  | array items => exact h.array hv hfuel rest
  | object members => exact h.object hv hfuel rest

theorem items_succ (h : ReadsBack fuel) {item : Value} {items : List Value}
    (hitems : PlainItems (item :: items))
    (hfuel : 2 * (commaSeparated (renderItems (item :: items))).length + 1 < fuel + 1)
    (rest : List Char) :
    readItems (fuel + 1) (commaSeparated (renderItems (item :: items)) ++ ']' :: rest) =
      some (rereadItems (item :: items), rest) := by
  obtain ⟨hitem, hitems⟩ := hitems
  rw [readItems]
  cases items with
  | nil =>
    have hsingle : commaSeparated (renderItems [item]) = item.renderChars := rfl
    rw [hsingle] at hfuel ⊢
    rw [h.value hitem (.bracket rest) (by omega)]
    rfl
  | cons next items =>
    have hsplit : commaSeparated (renderItems (item :: next :: items)) =
        item.renderChars ++ ',' :: commaSeparated (renderItems (next :: items)) := rfl
    rw [hsplit, List.length_append, List.length_cons] at hfuel
    have hread := h.items hitems (by omega) rest
    rw [hsplit, List.append_assoc, List.cons_append, h.value hitem (.comma _) (by omega)]
    simp only [Option.bind_eq_bind, Option.bind_some, skipSpace_cons (rfl : isSpace ',' = false),
      hread]
    rfl

/-- The member in front is read; what comes behind it decides how the reading goes on. -/
theorem member (h : ReadsBack fuel) {name : Text} {value : Value} {tail : List Char}
    (hname : name.Plain) (hvalue : value.Plain) (htail : Ends tail)
    (hfuel : 2 * value.renderChars.length < fuel) :
    readMembers (fuel + 1) (name.render ++ ':' :: value.renderChars ++ tail) =
      match skipSpace tail with
      | ',' :: rest => (readMembers fuel rest).map fun (members, rest) =>
        ((name.reread, value.reread) :: members, rest)
      | '}' :: rest => some ([(name.reread, value.reread)], rest)
      | _ => none := by
  have hwritten : name.render ++ ':' :: value.renderChars ++ tail =
      '"' :: (name.flatMap Piece.render ++ '"' :: ':' :: (value.renderChars ++ tail)) := by
    simp only [Text.render, List.cons_append, List.append_assoc, List.nil_append]
  rw [hwritten, readMembers, skipSpace_cons rfl]
  simp only [hname.readText, skipSpace_cons (rfl : isSpace ':' = false), h.value hvalue htail hfuel,
    Option.bind_eq_bind, Option.bind_some]
  cases htail with
  | comma rest =>
    simp only [skipSpace_cons (rfl : isSpace ',' = false)]
    cases readMembers fuel rest <;> rfl
  | _ => rfl

theorem members_succ (h : ReadsBack fuel) {member : Text × Value} {members : List (Text × Value)}
    (hmembers : PlainMembers (member :: members))
    (hfuel : 2 * (commaSeparated (renderMembers (member :: members))).length + 1 < fuel + 1)
    (rest : List Char) :
    readMembers (fuel + 1) (commaSeparated (renderMembers (member :: members)) ++ '}' :: rest) =
      some (rereadMembers (member :: members), rest) := by
  obtain ⟨name, value⟩ := member
  obtain ⟨hname, hvalue, hmembers⟩ := hmembers
  cases members with
  | nil =>
    have hsingle : commaSeparated (renderMembers [(name, value)]) =
        name.render ++ ':' :: value.renderChars := rfl
    rw [hsingle, List.length_append, List.length_cons] at hfuel
    rw [hsingle, h.member hname hvalue (.brace rest) (by omega)]
    rfl
  | cons next members =>
    have hsplit : commaSeparated (renderMembers ((name, value) :: next :: members)) =
        name.render ++ ':' :: value.renderChars ++
          ',' :: commaSeparated (renderMembers (next :: members)) := rfl
    rw [hsplit, List.length_append, List.length_append, List.length_cons, List.length_cons] at hfuel
    have hread := h.members hmembers (by omega) rest
    rw [hsplit, List.append_assoc, List.cons_append, h.member hname hvalue (.comma _) (by omega)]
    simp only [skipSpace_cons (rfl : isSpace ',' = false), hread, Option.map_some]
    rfl

end ReadsBack

theorem readsBack (fuel : Nat) : ReadsBack fuel := by
  induction fuel with
  | zero => exact ⟨fun _ _ h => absurd h (Nat.not_lt_zero _), fun _ h => absurd h (Nat.not_lt_zero _),
      fun _ h => absurd h (Nat.not_lt_zero _)⟩
  | succ fuel ih =>
    exact ⟨fun hv hrest hfuel => ih.value_succ hv hrest hfuel,
      fun hitems hfuel => ih.items_succ hitems hfuel,
      fun hmembers hfuel => ih.members_succ hmembers hfuel⟩

/-- What was written is read. -/
theorem Value.Plain.parse?_render {v : Value} (h : v.Plain) : parse? v.render = some v.reread := by
  have hread := (readsBack (2 * v.renderChars.length + 1)).value h .atEnd (Nat.lt_succ_self _)
  rw [List.append_nil] at hread
  rw [parse?, render, String.toList_ofList, hread]
  rfl

end Dataflow.Json
