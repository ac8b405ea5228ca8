import Stylesheet.Json.Reader
import Mathlib.Tactic.Lemma

/-!
# Reading what was written

A JSON value that is written compactly is read back as it was: `Json.parse?_compact`. This holds of
the values that are made of texts and natural numbers, with records for objects. Each token is read
up to its end and no further, whatever follows it.
-/

namespace Stylesheet.Json

/-! ### String literals -/

namespace Quoted

/-- A hexadecimal digit is read back. -/
lemma hexValue?_hexDigit {n : Nat} (h : n < 16) : hexValue? (hexDigit n) = some n := by
  revert n
  decide

/-- A short escape stands for the character that is written with it. -/
lemma escapedChar?_of_escapeLetter? {c letter : Char} (h : escapeLetter? c = some letter) :
    escapedChar? letter = some c ∧ letter ≠ 'u' := by
  unfold escapeLetter? at h
  split at h <;> cases h <;> decide

/-- The four digits in which a control character is written are its number. -/
lemma unit?_of_isControl {c : Char} (h : isControl c = true) :
    unit? '0' '0' (hexDigit (c.toNat / 16)) (hexDigit (c.toNat % 16)) = some c.toNat := by
  have hc : c.toNat < 0x20 := by simpa [isControl] using h
  have hh := hexValue?_hexDigit (n := c.toNat / 16) (by omega)
  have hl := hexValue?_hexDigit (n := c.toNat % 16) (by omega)
  have hz : hexValue? '0' = some 0 := rfl
  simp only [unit?, hz, hh, hl]
  change some _ = some _
  congr 1
  omega

/-- A character is read back from its escape. -/
lemma decode_encodeChar (c : Char) (rest : List Char) :
    decode (encodeChar c ++ rest) = (decode rest).map (c :: ·) := by
  unfold encodeChar
  split
  · next letter h =>
    obtain ⟨hc, hu⟩ := escapedChar?_of_escapeLetter? h
    rw [List.cons_append, List.cons_append, List.nil_append, decode]
    · rw [hc]
      exact Option.map_eq_bind.symm
    · intro _ _ _ _ _ he _
      exact hu he
  · next h =>
    split
    · next hc =>
      -- A control character is no half of a pair.
      have hn : c.toNat < 0x20 := by simpa [isControl] using hc
      have ht : isTrailing c.toNat = false := by simp [isTrailing]; omega
      have hl : isLeading c.toNat = false := by simp [isLeading]; omega
      simp only [List.cons_append, List.nil_append, decode, unit?_of_isControl hc]
      change (if isTrailing c.toNat = true then _ else _) = _
      rw [ht, if_neg (by decide), hl, if_neg (by decide), Char.ofNat_toNat]
      exact Option.map_eq_bind.symm
    · have hb : c ≠ '\\' := by
        rintro rfl
        cases h
      rw [List.cons_append, List.nil_append, decode, if_neg hb]
      · exact Option.map_eq_bind.symm
      · intro _ _ _ _ _ he _
        exact hb he
      · intro _ _ he _
        exact hb he

/-- The text of a literal is the one that was encoded. -/
lemma decode_encode (cs : List Char) : decode (encode cs) = some cs := by
  induction cs with
  | nil => rfl
  | cons c cs ih =>
    rw [encode, List.flatMap_cons, decode_encodeChar, ← encode, ih]
    rfl

/-- The escape of a character is scanned as a whole. -/
lemma scan_encodeChar (c : Char) (rest : List Char) :
    scan (encodeChar c ++ rest) =
      (scan rest).map fun found => (encodeChar c ++ found.1, found.2) := by
  unfold encodeChar
  split
  · next letter h =>
    obtain ⟨hc, hu⟩ := escapedChar?_of_escapeLetter? h
    rw [List.cons_append, List.cons_append, List.nil_append, scan]
    · rw [hc]
      exact Option.map_eq_bind.symm
    · intro _ _ _ _ _ he _
      exact hu he
  · next h =>
    split
    · next hc =>
      simp only [List.cons_append, List.nil_append, scan, unit?_of_isControl hc]
      exact Option.map_eq_bind.symm
    · next hc =>
      have hb : c ≠ '\\' := by
        rintro rfl
        cases h
      have hq : c ≠ '"' := by
        rintro rfl
        cases h
      rw [List.cons_append, List.nil_append, scan, if_neg (by simp [hb, hc])]
      · exact Option.map_eq_bind.symm
      · intro he
        exact hq he
      · intro _ _ _ _ _ he _
        exact hb he
      · intro _ _ he _
        exact hb he

/-- An encoded text has no quote that could end its literal early. -/
lemma scan_encode (cs rest : List Char) :
    scan (encode cs ++ '"' :: rest) = some (encode cs, rest) := by
  induction cs with
  | nil => rfl
  | cons c cs ih =>
    rw [encode, List.flatMap_cons, List.append_assoc, scan_encodeChar, ← encode, ih]
    rfl

end Quoted

/-- A text is read back from its quotes. -/
lemma unquote?_quote (s : String) : unquote? (quote s) = some s := by
  simp [unquote?, quote, Quoted.decode_encode]

/-! ### Numbers -/

/-- What can follow a number: it does not go on with it. -/
def EndsNumber (rest : List Char) : Prop :=
  ∀ c ∈ rest.head?, c.isDigit = false ∧ c ≠ '.' ∧ c ≠ 'e' ∧ c ≠ 'E'

/-- A number ends where neither a digit nor a sign of a longer numeral follows. -/
lemma endsNumber_cons {c : Char} {r : List Char}
    (h : c.isDigit = false ∧ c ≠ '.' ∧ c ≠ 'e' ∧ c ≠ 'E') : EndsNumber (c :: r) := by
  intro d hd
  obtain rfl : c = d := by simpa using hd
  exact h

/-- A natural number starts with a digit, and only zero with a zero. -/
lemma exists_toDigits_eq_cons (n : Nat) :
    ∃ d ds, Nat.toDigits 10 n = d :: ds ∧ (∀ c ∈ d :: ds, c.isDigit = true) ∧
      (d = '0' → n = 0) := by
  obtain ⟨d, ds, he⟩ := List.exists_cons_of_ne_nil (Nat.toDigits_ne_nil (n := n) (b := 10))
  refine ⟨d, ds, he, fun c hc => ?_, ?_⟩
  · rw [← he] at hc
    exact Nat.isDigit_of_mem_toDigits (by decide) (by decide) hc
  · rintro rfl
    induction n using Nat.strongRecOn generalizing ds with
    | ind n ih =>
      rw [Nat.toDigits_eq_if (by decide)] at he
      split at he
      · next hn =>
        have digits : ∀ d : Fin 10, d.val.digitChar = '0' → d.val = 0 := by decide
        exact digits ⟨n, hn⟩ (List.cons.inj he).1
      · next hn =>
        obtain ⟨c, cs, hc⟩ :=
          List.exists_cons_of_ne_nil (Nat.toDigits_ne_nil (n := n / 10) (b := 10))
        rw [hc, List.cons_append] at he
        rw [(List.cons.inj he).1] at hc
        have := ih (n / 10) (by omega) cs hc
        omega

/-- The digits of a number are scanned up to its end. -/
lemma scanWhole_toDigits (n : Nat) {rest : List Char} (h : EndsNumber rest) :
    scanWhole (Nat.toDigits 10 n ++ rest) = some (Nat.toDigits 10 n, rest) := by
  have stop : rest.takeWhile Char.isDigit = [] ∧ rest.dropWhile Char.isDigit = rest := by
    cases rest with
    | nil => exact ⟨rfl, rfl⟩
    | cons c rest => simp [(h c rfl).1]
  obtain ⟨d, ds, he, digits, hz⟩ := exists_toDigits_eq_cons n
  by_cases hd : d = '0'
  · rw [hz hd]
    rfl
  · rw [he, List.cons_append, scanWhole, ← List.cons_append, scanDigits,
      List.takeWhile_append_of_pos digits, List.dropWhile_append_of_pos digits, stop.1, stop.2,
      List.append_nil]
    intro _ hc
    exact hd (List.cons.inj hc).1

/-- A number is scanned up to its end. -/
lemma scanNumber_toDigits (n : Nat) {rest : List Char} (h : EndsNumber rest) :
    scanNumber (Nat.toDigits 10 n ++ rest) = some (Nat.toDigits 10 n, rest) := by
  have hf : scanFraction rest = some ([], rest) := by
    cases rest with
    | nil => rfl
    | cons c rest =>
      rw [scanFraction]
      intro _ hc
      exact (h c rfl).2.1 (List.cons.inj hc).1
  have he : scanExponent rest = some ([], rest) := by
    cases rest with
    | nil => rfl
    | cons c rest =>
      rw [scanExponent]
      · intro _ hc
        exact (h c rfl).2.2.1 (List.cons.inj hc).1
      · intro _ hc
        exact (h c rfl).2.2.2 (List.cons.inj hc).1
  have hm : scanMagnitude (Nat.toDigits 10 n ++ rest) = some (Nat.toDigits 10 n, rest) := by
    simp [scanMagnitude, scanWhole_toDigits n h, hf, he]
  rw [scanNumber, hm]
  -- A natural number has no sign.
  intro _ hc
  obtain ⟨d, ds, hd, digits, -⟩ := exists_toDigits_eq_cons n
  rw [hd] at hc
  have hs := digits d List.mem_cons_self
  rw [(List.cons.inj hc).1] at hs
  exact absurd hs (by decide)

/-- The number that a natural number is written as is read as that number. -/
lemma natural?_ofNat (n : Nat) : (ofNat n).natural? = some n := by
  obtain ⟨d, ds, hd, digits, -⟩ := exists_toDigits_eq_cons n
  have all : (Nat.toDigits 10 n).all Char.isDigit = true := by
    rw [hd, List.all_eq_true]
    exact digits
  simp only [natural?, ofNat, Nat.toString_eq_ofList_toDigits, String.toList_ofList, all, if_true,
    Nat.ofDigitChars_ten_toDigits]

/-- A word is read back from its numeral. -/
lemma word?_ofNat (n : UInt64) : (ofNat n.toNat).word? = some n := by
  have hn : n.toNat < UInt64.size := n.toNat_lt
  rw [word?, natural?_ofNat, Option.filter_some, if_pos (by simpa using hn), Option.map_some,
    UInt64.ofNat_toNat]

/-! ### Values -/

/-- The values that the library writes: their numbers are natural numbers, and their strings and
keys stand for texts. -/
inductive Plain : Json → Prop where
  | number {n} :
    Plain (ofNat n)
  | string {s} :
    Plain (ofString s)
  | array {items} :
    (∀ item ∈ items, Plain item) →
    Plain (.array items)
  | record {members : List (String × Json)} :
    (∀ m ∈ members, Plain m.2) →
    Plain (record members)

/-- A number is written in its digits. -/
lemma toList_compact_number (n : Nat) : (ofNat n).compact.toList = Nat.toDigits 10 n := by
  simp [ofNat, compact]

/-- A text is written in quotes. -/
lemma toList_compact_string (s : String) :
    (ofString s).compact.toList = '"' :: (Quoted.encode s.toList ++ ['"']) := by
  simp [ofString, compact, quote]

/-- An array is written as its items in brackets. -/
lemma toList_compact_array (items : List Json) :
    (Json.array items).compact.toList =
      '[' :: ([','].intercalate (items.map (·.compact.toList)) ++ [']']) := by
  simp [compact, String.toList_intercalate, Function.comp_def]

/-- A member of an object as it is written. -/
def compactMember (m : String × Json) : List Char :=
  '"' :: (Quoted.encode m.1.toList ++ '"' :: ':' :: m.2.compact.toList)

/-- A record is written as its members in braces. -/
lemma toList_compact_record (members : List (String × Json)) :
    (record members).compact.toList =
      '\x7b' :: ([','].intercalate (members.map compactMember) ++ ['\x7d']) := by
  simp [compact, record, quote, String.toList_intercalate, Function.comp_def]
  rfl

/-- What a value can start with: neither white space nor a closing bracket. -/
def startsValue (c : Char) : Bool := !isSpace c && c != ']'

/-- There is no white space in front of a value. -/
lemma skipSpace_of_startsValue {c : Char} {cs : List Char} (h : startsValue c = true) :
    skipSpace (c :: cs) = c :: cs := by
  have hs : isSpace c = false := by
    rw [startsValue, Bool.and_eq_true, Bool.not_eq_true'] at h
    exact h.1
  rw [skipSpace, List.dropWhile_cons_of_neg (by simp [hs])]

/-- A digit starts a value. -/
lemma startsValue_of_isDigit {c : Char} (h : c.isDigit = true) : startsValue c = true := by
  have ne {d : Char} (hd : d.isDigit = false) : c ≠ d := by
    rintro rfl
    rw [h] at hd
    cases hd
  simp [startsValue, isSpace, ne (d := ' ') rfl, ne (d := '\n') rfl, ne (d := '\r') rfl,
    ne (d := '\t') rfl, ne (d := ']') rfl]

/-- A value that is written starts with a character of its own. -/
lemma Plain.exists_compact_eq_cons {j : Json} (h : Plain j) :
    ∃ c cs, j.compact.toList = c :: cs ∧ startsValue c = true := by
  cases h with
  | @number n =>
    obtain ⟨d, ds, hd, digits, -⟩ := exists_toDigits_eq_cons n
    exact ⟨d, ds, (toList_compact_number n).trans hd,
      startsValue_of_isDigit (digits d List.mem_cons_self)⟩
  | string => exact ⟨_, _, toList_compact_string _, rfl⟩
  | array => exact ⟨_, _, toList_compact_array _, rfl⟩
  | record => exact ⟨_, _, toList_compact_record _, rfl⟩

/-- A value is read from its text and what follows is left. No more steps are needed than the text
has characters. -/
def ReadsBack (j : Json) : Prop :=
  ∀ {n : Nat} {r : List Char}, j.compact.toList.length ≤ n → EndsNumber r →
    readValue n (j.compact.toList ++ r) = some (j, r)

/-- Below its first character a value is read as its kind has it. -/
lemma readValue_digit {d : Char} (hd : d.isDigit = true) (n : Nat) (ds : List Char) :
    readValue (n + 1) (d :: ds) =
      (scanNumber (d :: ds)).map fun found => (.number (String.ofList found.1), found.2) := by
  have ne {c : Char} (hc : c.isDigit = false) : d ≠ c := by
    rintro rfl
    rw [hd] at hc
    cases hc
  rw [readValue, skipSpace_of_startsValue (startsValue_of_isDigit hd)]
  split
  · next h => exact absurd (List.cons.inj h).1 (ne rfl)
  · next h => exact absurd (List.cons.inj h).1 (ne rfl)
  · next h => exact absurd (List.cons.inj h).1 (ne rfl)
  · next h => exact absurd (List.cons.inj h).1 (ne rfl)
  · next h => exact absurd (List.cons.inj h).1 (ne rfl)
  · next h => exact absurd (List.cons.inj h).1 (ne rfl)
  · exact Option.map_eq_bind.symm

/-- A quote starts a text. -/
lemma readValue_quote (n : Nat) (cs : List Char) :
    readValue (n + 1) ('"' :: cs) =
      (Quoted.scan cs).map fun found => (.string (String.ofList found.1), found.2) := by
  rw [readValue]
  exact Option.map_eq_bind.symm

/-- A bracket starts the items of an array. -/
lemma readValue_bracket (n : Nat) {c : Char} (cs : List Char) (hc : startsValue c = true) :
    readValue (n + 1) ('[' :: c :: cs) =
      (readItems n (c :: cs)).map fun found => (.array found.1, found.2) := by
  have hb : c ≠ ']' := by
    rintro rfl
    cases hc
  rw [readValue]
  simp only [skipSpace_of_startsValue (c := '[') rfl, skipSpace_of_startsValue hc]
  split
  · next h => exact absurd (List.cons.inj h).1 hb
  · exact Option.map_eq_bind.symm

/-- A brace starts the members of a record. -/
lemma readValue_brace (n : Nat) (cs : List Char) :
    readValue (n + 1) ('\x7b' :: '"' :: cs) =
      (readMembers n ('"' :: cs)).map fun found => (.object found.1, found.2) := by
  rw [readValue]
  exact Option.map_eq_bind.symm

/-- A number is read back. -/
lemma readsBack_number (k : Nat) : ReadsBack (ofNat k) := by
  intro n rest hn hr
  rw [toList_compact_number] at hn ⊢
  have scanned := scanNumber_toDigits k hr
  obtain ⟨d, ds, hd, digits, -⟩ := exists_toDigits_eq_cons k
  rw [hd] at hn
  obtain ⟨n, rfl⟩ := Nat.exists_eq_add_of_le' hn
  rw [hd, List.cons_append] at scanned ⊢
  rw [List.length_cons, ← Nat.add_assoc, readValue_digit (digits d List.mem_cons_self), scanned,
    ← hd, ofNat, Nat.toString_eq_ofList_toDigits]
  rfl

/-- A text is read back. -/
lemma readsBack_string (s : String) : ReadsBack (ofString s) := by
  intro n rest hn _
  rw [toList_compact_string] at hn ⊢
  obtain ⟨n, rfl⟩ := Nat.exists_eq_add_of_le' hn
  rw [List.length_cons, ← Nat.add_assoc, List.cons_append, readValue_quote, List.append_assoc,
    List.singleton_append, Quoted.scan_encode]
  rfl

/-! ### Items and members -/

section

variable {item : Json} {m : String × Json} {n : Nat} {rest : List Char}

/-- The last item of an array is read back. -/
lemma readItems_last (h : ReadsBack item) (hn : item.compact.toList.length ≤ n) :
    readItems (n + 1) (item.compact.toList ++ ']' :: rest) = some ([item], rest) := by
  rw [readItems, h hn (endsNumber_cons (by decide))]
  rfl

/-- An item with others after it is read back. -/
lemma readItems_more (h : ReadsBack item) (hn : item.compact.toList.length ≤ n) :
    readItems (n + 1) (item.compact.toList ++ ',' :: rest) =
      (readItems n rest).map fun found => (item :: found.1, found.2) := by
  rw [readItems, h hn (endsNumber_cons (by decide))]
  exact Option.map_eq_bind.symm

/-- The key of a member is passed over and its value is read. -/
lemma readMember (h : ReadsBack m.2) (hn : (compactMember m).length ≤ n)
    (hr : EndsNumber rest) :
    skipSpace (compactMember m ++ rest) =
        '"' :: (Quoted.encode m.1.toList ++ '"' :: ':' :: (m.2.compact.toList ++ rest)) ∧
      readValue n (m.2.compact.toList ++ rest) = some (m.2, rest) := by
  constructor
  · rw [compactMember, List.cons_append, skipSpace_of_startsValue rfl]
    simp
  · simp only [compactMember, List.length_cons, List.length_append] at hn
    exact h (by omega) hr

/-- The last member of a record is read back. -/
lemma readMembers_last (h : ReadsBack m.2) (hn : (compactMember m).length ≤ n) :
    readMembers (n + 1) (compactMember m ++ '\x7d' :: rest) =
      some ([(quote m.1, m.2)], rest) := by
  obtain ⟨hs, hv⟩ := readMember h hn (endsNumber_cons (c := '\x7d') (r := rest) (by decide))
  rw [readMembers, hs]
  simp only [Quoted.scan_encode, Option.bind_eq_bind, Option.bind_some,
    skipSpace_of_startsValue (c := ':') rfl, hv]
  rfl

/-- A member with others after it is read back. -/
lemma readMembers_more (h : ReadsBack m.2) (hn : (compactMember m).length ≤ n) :
    readMembers (n + 1) (compactMember m ++ ',' :: rest) =
      (readMembers n rest).map fun found => ((quote m.1, m.2) :: found.1, found.2) := by
  obtain ⟨hs, hv⟩ := readMember h hn (endsNumber_cons (c := ',') (r := rest) (by decide))
  rw [readMembers, hs]
  simp only [Quoted.scan_encode, Option.bind_eq_bind, Option.bind_some,
    skipSpace_of_startsValue (c := ':') rfl, hv]
  exact Option.map_eq_bind.symm

end

/-- A comma stands between two of a list. -/
lemma intercalate_map_cons_cons {α : Type} (f : α → List Char) (a b : α) (as : List α) :
    [','].intercalate ((a :: b :: as).map f) =
      f a ++ ',' :: [','].intercalate ((b :: as).map f) := by
  simp

/-- A list starts as its first does. -/
lemma exists_intercalate_eq_cons {α : Type} {f : α → List Char} {a : α} {c : Char} {cs : List Char}
    (h : f a = c :: cs) (as : List α) : ∃ ds, [','].intercalate ((a :: as).map f) = c :: ds := by
  cases as with
  | nil => exact ⟨cs, by simp [h]⟩
  | cons b as => exact ⟨_, by rw [intercalate_map_cons_cons, h, List.cons_append]⟩

/-- The items of an array are read back. -/
lemma readItems_compact {item : Json} {items : List Json}
    (h : ∀ i ∈ item :: items, ReadsBack i) {n : Nat}
    (hn : ([','].intercalate ((item :: items).map (·.compact.toList))).length < n)
    (rest : List Char) :
    readItems n ([','].intercalate ((item :: items).map (·.compact.toList)) ++ ']' :: rest) =
      some (item :: items, rest) := by
  obtain ⟨n, rfl⟩ : ∃ k, n = k + 1 := ⟨n - 1, by omega⟩
  induction items generalizing item n with
  | nil =>
    simp only [List.map_cons, List.map_nil, List.intercalate_singleton] at hn ⊢
    exact readItems_last (h item List.mem_cons_self) (by omega)
  | cons next items ih =>
    rw [intercalate_map_cons_cons] at hn ⊢
    simp only [List.length_append, List.length_cons] at hn
    obtain ⟨n, rfl⟩ : ∃ k, n = k + 1 := ⟨n - 1, by omega⟩
    have more := ih (fun i hi => h i (List.mem_cons_of_mem _ hi)) n (by omega)
    rw [List.append_assoc, List.cons_append,
      readItems_more (h item List.mem_cons_self) (by omega), more]
    rfl

/-- The members of a record are read back. -/
lemma readMembers_compact {m : String × Json} {members : List (String × Json)}
    (h : ∀ i ∈ m :: members, ReadsBack i.2) {n : Nat}
    (hn : ([','].intercalate ((m :: members).map compactMember)).length < n) (rest : List Char) :
    readMembers n ([','].intercalate ((m :: members).map compactMember) ++ '\x7d' :: rest) =
      some ((m :: members).map fun i => (quote i.1, i.2), rest) := by
  obtain ⟨n, rfl⟩ : ∃ k, n = k + 1 := ⟨n - 1, by omega⟩
  induction members generalizing m n with
  | nil =>
    simp only [List.map_cons, List.map_nil, List.intercalate_singleton] at hn ⊢
    exact readMembers_last (h m List.mem_cons_self) (by omega)
  | cons next members ih =>
    rw [intercalate_map_cons_cons] at hn ⊢
    simp only [List.length_append, List.length_cons] at hn
    obtain ⟨n, rfl⟩ : ∃ k, n = k + 1 := ⟨n - 1, by omega⟩
    have more := ih (fun i hi => h i (List.mem_cons_of_mem _ hi)) n (by omega)
    rw [List.append_assoc, List.cons_append,
      readMembers_more (h m List.mem_cons_self) (by omega), more]
    rfl

/-- What is written plainly is read back. -/
lemma Plain.readsBack {j : Json} (h : Plain j) : ReadsBack j := by
  induction h with
  | number => exact readsBack_number _
  | string => exact readsBack_string _
  | @array items hp ih =>
    intro n rest hn _
    rw [toList_compact_array] at hn ⊢
    simp only [List.length_cons, List.length_append] at hn
    obtain ⟨n, rfl⟩ : ∃ k, n = k + 1 := ⟨n - 1, by omega⟩
    cases items with
    | nil => rfl
    | cons item items =>
      have read := readItems_compact ih (n := n) (by omega) rest
      obtain ⟨c, cs, hc, hs⟩ := (hp item List.mem_cons_self).exists_compact_eq_cons
      obtain ⟨ds, hd⟩ := exists_intercalate_eq_cons (f := (·.compact.toList)) hc items
      rw [hd] at read ⊢
      simp only [List.cons_append, List.append_assoc, List.nil_append] at read ⊢
      rw [readValue_bracket n _ hs, read]
      rfl
  | @record members _ ih =>
    intro n rest hn _
    rw [toList_compact_record] at hn ⊢
    simp only [List.length_cons, List.length_append] at hn
    obtain ⟨n, rfl⟩ : ∃ k, n = k + 1 := ⟨n - 1, by omega⟩
    cases members with
    | nil => rfl
    | cons m members =>
      have read := readMembers_compact ih (n := n) (by omega) rest
      obtain ⟨ds, hd⟩ := exists_intercalate_eq_cons (f := compactMember) (a := m) rfl members
      rw [hd] at read ⊢
      simp only [List.cons_append, List.append_assoc, List.nil_append] at read ⊢
      rw [readValue_brace, read]
      rfl

/-- A value that the library writes is read back. -/
theorem parse?_compact {j : Json} (h : Plain j) : parse? j.compact = some j := by
  have read := h.readsBack (n := 2 * j.compact.toList.length + 2) (r := []) (by omega)
    (by simp [EndsNumber])
  rw [List.append_nil] at read
  simp only [parse?, read]
  rfl

end Stylesheet.Json
