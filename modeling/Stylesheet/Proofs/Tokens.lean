import Stylesheet.Proofs.Substitution

/-!
# The tokens of a name

A token of a name is an occurrence that no identifier character continues. Replacing a name goes
past a whole occurrence at once, also past one that is no token. Where the first character of the
name does not stand in it again, no token starts inside an occurrence (`tokenAfter_append_iff`), so
a scan that looks for a token at every character finds the same ones. They cut the text into parts
that do not depend on what is written for a token.
-/

namespace Stylesheet.Text

variable {p c : Char} {ps name value cs a after before part : List Char} {parts : List (List Char)}

/-! ### Tokens in a text -/

/-- A text starts with a token of a name: the name stands there, and the character behind it, if
there is one, is no identifier character. -/
def StartsToken (name cs : List Char) : Prop :=
  name <+: cs ∧ ∀ c ∈ (cs.drop name.length).head?, isIdentifier c = false

/-- A name starts a token exactly if it ends there. -/
lemma startsToken_append_iff : StartsToken name (name ++ after) ↔ endsName after = true := by
  cases after with
  | nil => simp [StartsToken, endsName]
  | cons c after => simp [StartsToken, endsName]

/-- A token starts a text exactly if its name does and ends there. -/
lemma startsToken_iff :
    StartsToken name cs ↔ ∃ after, cs = name ++ after ∧ endsName after = true := by
  constructor
  · intro h
    obtain ⟨after, rfl⟩ := h.1
    exact ⟨after, rfl, startsToken_append_iff.1 h⟩
  · rintro ⟨after, rfl, he⟩
    exact startsToken_append_iff.2 he

instance (name cs : List Char) : Decidable (StartsToken name cs) :=
  decidable_of_iff ((name.isPrefixOf? cs).any endsName = true) (by
    simp only [Option.any_eq_true, isPrefixOf?_eq_some_iff, startsToken_iff])

/-- A token of a name stands in a text right behind `before`. -/
def TokenAfter (name text before : List Char) : Prop :=
  ∃ rest, text = before ++ rest ∧ StartsToken name rest

/-- There is no token in the empty text. -/
lemma not_tokenAfter_nil : ¬TokenAfter (p :: ps) [] before := by
  rintro ⟨rest, ht, hs⟩
  obtain ⟨-, rfl⟩ := List.append_eq_nil_iff.1 ht.symm
  exact absurd hs.1 (by simp)

/-- A token is at the start of a text or behind its first character. -/
lemma tokenAfter_cons_iff :
    TokenAfter name (c :: cs) before ↔
      (before = [] ∧ StartsToken name (c :: cs)) ∨
        ∃ tail, before = c :: tail ∧ TokenAfter name cs tail := by
  constructor
  · rintro ⟨rest, ht, hs⟩
    rcases List.cons_eq_append_iff.1 ht with ⟨rfl, rfl⟩ | ⟨tail, rfl, hcs⟩
    · exact .inl ⟨rfl, hs⟩
    · exact .inr ⟨tail, rfl, rest, hcs, hs⟩
  · rintro (⟨rfl, hs⟩ | ⟨tail, rfl, rest, rfl, hs⟩)
    · exact ⟨c :: cs, rfl, hs⟩
    · exact ⟨rest, rfl, hs⟩

/-- No token starts in a part of a text without the first character of the name. -/
lemma tokenAfter_append_iff (h : p ∉ a) :
    TokenAfter (p :: ps) (a ++ cs) before ↔
      ∃ tail, before = a ++ tail ∧ TokenAfter (p :: ps) cs tail := by
  induction a generalizing before with
  | nil => simp
  | cons c a ih =>
    rw [List.mem_cons, not_or] at h
    have hs : ¬StartsToken (p :: ps) (c :: (a ++ cs)) :=
      fun hs => h.1 (List.cons_prefix_cons.1 hs.1).1
    simp only [List.cons_append, tokenAfter_cons_iff, hs, and_false, false_or, ih h.2]
    constructor
    · rintro ⟨_, rfl, tail, rfl, ht⟩
      exact ⟨tail, rfl, ht⟩
    · rintro ⟨tail, rfl, ht⟩
      exact ⟨a ++ tail, rfl, tail, rfl, ht⟩

/-! ### The scan -/

/-- A text that is scanned for tokens of the name `p :: ps`, character by character. A token is
replaced by the value and skipped; where none starts, one character is copied. -/
def scanTokens (p : Char) (ps value : List Char) : List Char → List Char
  | [] => []
  | c :: cs =>
    if StartsToken (p :: ps) (c :: cs) then value ++ scanTokens p ps value (cs.drop ps.length)
    else c :: scanTokens p ps value cs
termination_by cs => cs.length
decreasing_by
  · simp only [List.length_drop, List.length_cons]
    omega
  · simp

/-- There is nothing to scan in the empty text. -/
@[simp] lemma scanTokens_nil : scanTokens p ps value [] = [] := by
  rw [scanTokens]

/-- A token is scanned to its value. -/
lemma scanTokens_token (he : endsName after = true) :
    scanTokens p ps value (p :: ps ++ after) = value ++ scanTokens p ps value after := by
  have hs : StartsToken (p :: ps) (p :: (ps ++ after)) := startsToken_append_iff.2 he
  rw [List.cons_append, scanTokens, if_pos hs, List.drop_left]

/-- A character at which no token starts is copied. -/
lemma scanTokens_copy (h : ¬StartsToken (p :: ps) (c :: cs)) :
    scanTokens p ps value (c :: cs) = c :: scanTokens p ps value cs := by
  rw [scanTokens, if_neg h]

/-- What holds of a text whenever it holds of what is left after a token at its start, or else after
its first character, holds of every text. -/
lemma token_induction (p : Char) (ps : List Char) {motive : List Char → Prop} (nil : motive [])
    (token : ∀ after, endsName after = true → motive after → motive (p :: ps ++ after))
    (copy : ∀ c cs, ¬StartsToken (p :: ps) (c :: cs) → motive cs → motive (c :: cs))
    (cs : List Char) : motive cs := by
  induction cs using scanTokens.induct p ps with
  | case1 => exact nil
  | case2 c cs hs ih =>
    obtain ⟨after, ht, he⟩ := startsToken_iff.1 hs
    rw [List.cons_append] at ht
    obtain ⟨rfl, rfl⟩ := List.cons.inj ht
    rw [List.drop_left] at ih
    exact token after he ih
  | case3 c cs hs ih => exact copy c cs hs ih

/-- To go past whole occurrences is to scan for tokens. -/
lemma replaceEach_tokenValue (hp : p ∉ ps) :
    replaceEach p ps (tokenValue (p :: ps) value) cs = scanTokens p ps value cs := by
  induction cs using token_induction p ps with
  | nil => rw [replaceEach_nil, scanTokens_nil]
  | token after he ih => rw [replaceEach_found, tokenValue, if_pos he, ih, scanTokens_token he]
  | copy c cs hs ih =>
    -- If the name stands here and goes on, it is written back whole, as the scan copies it.
    rw [replaceEach_tokenValue_copy hp, ih, scanTokens_copy hs]
    intro rest hr
    exact Bool.eq_false_iff.2 fun he => hs (startsToken_iff.2 ⟨rest, hr, he⟩)

/-! ### The parts between tokens -/

/-- What stands before a joint of parts that a name joins: some of the parts are joined there, and
others follow. -/
def Joint (name : List Char) (parts : List (List Char)) (before : List Char) : Prop :=
  ∃ left right, left ≠ [] ∧ right ≠ [] ∧ parts = left ++ right ∧ before = name.intercalate left

/-- A joint is behind the first part or behind one of the others. -/
lemma joint_cons_iff :
    Joint name (part :: parts) before ↔
      (parts ≠ [] ∧ before = part) ∨
        ∃ tail, before = part ++ name ++ tail ∧ Joint name parts tail := by
  constructor
  · rintro ⟨left, right, hl, hr, hparts, rfl⟩
    obtain ⟨first, left, rfl⟩ := List.exists_cons_of_ne_nil hl
    obtain ⟨rfl, rfl⟩ := List.cons.inj hparts
    by_cases hleft : left = []
    · subst hleft
      exact .inl ⟨hr, List.intercalate_singleton⟩
    · exact .inr ⟨_, List.intercalate_cons_of_ne_nil hleft, left, right, hleft, hr, rfl, rfl⟩
  · rintro (⟨hparts, rfl⟩ | ⟨_, rfl, left, right, hl, hr, rfl, rfl⟩)
    · exact ⟨[before], parts, by simp, hparts, rfl, List.intercalate_singleton.symm⟩
    · exact ⟨part :: left, right, by simp, hr, rfl, (List.intercalate_cons_of_ne_nil hl).symm⟩

/-- One part has no joints. -/
lemma not_joint_singleton : ¬Joint name [part] before := by
  rw [joint_cons_iff]
  rintro (⟨h, -⟩ | ⟨_, -, left, right, hl, -, hparts, -⟩)
  · exact h rfl
  · exact hl (List.append_eq_nil_iff.1 hparts.symm).1

/-- A character in front goes to the first part. -/
lemma intercalate_push :
    name.intercalate ((c :: part) :: parts) = c :: name.intercalate (part :: parts) := by
  cases parts with
  | nil => rw [List.intercalate_singleton, List.intercalate_singleton]
  | cons next parts =>
    rw [List.intercalate_cons_cons, List.intercalate_cons_cons, List.cons_append, List.cons_append]

/-- The parts of a text between the tokens of a name. The name joins them to the text, and its
tokens stand at the joints and nowhere else. -/
structure Parted (name text : List Char) (parts : List (List Char)) : Prop where
  ne_nil : parts ≠ []
  joined : text = name.intercalate parts
  tokens : ∀ before, TokenAfter name text before ↔ Joint name parts before

namespace Parted

/-- The empty text has one part. -/
lemma nil : Parted (p :: ps) [] [[]] where
  ne_nil := by simp
  joined := List.intercalate_singleton.symm
  tokens _ := iff_of_false not_tokenAfter_nil not_joint_singleton

/-- A token at the start has an empty part before it. -/
lemma token (hp : p ∉ ps) (he : endsName after = true) (h : Parted (p :: ps) after parts) :
    Parted (p :: ps) (p :: ps ++ after) ([] :: parts) where
  ne_nil := by simp
  joined := by rw [List.intercalate_cons_of_ne_nil h.ne_nil, ← h.joined, List.nil_append]
  tokens before := by
    have hs : StartsToken (p :: ps) (p :: (ps ++ after)) := startsToken_append_iff.2 he
    rw [joint_cons_iff, List.cons_append, tokenAfter_cons_iff]
    -- The next tokens stand behind the name, since none starts inside it.
    simp only [tokenAfter_append_iff hp, h.tokens, hs, h.ne_nil, ne_eq, not_false_eq_true, true_and,
      and_true, List.nil_append]
    refine or_congr_right ⟨?_, ?_⟩
    · rintro ⟨_, rfl, tail, rfl, ht⟩
      exact ⟨tail, rfl, ht⟩
    · rintro ⟨tail, rfl, ht⟩
      exact ⟨ps ++ tail, rfl, tail, rfl, ht⟩

/-- A character that is copied belongs to the first part. -/
lemma copy (hs : ¬StartsToken name (c :: cs)) (h : Parted name cs (part :: parts)) :
    Parted name (c :: cs) ((c :: part) :: parts) where
  ne_nil := by simp
  joined := by rw [intercalate_push, ← h.joined]
  tokens before := by
    rw [tokenAfter_cons_iff, joint_cons_iff]
    simp only [hs, and_false, false_or, h.tokens, joint_cons_iff]
    constructor
    · rintro ⟨_, rfl, ⟨hparts, rfl⟩ | ⟨tail, rfl, ht⟩⟩
      · exact .inl ⟨hparts, rfl⟩
      · exact .inr ⟨tail, rfl, ht⟩
    · rintro (⟨hparts, rfl⟩ | ⟨tail, rfl, ht⟩)
      · exact ⟨part, rfl, .inl ⟨hparts, rfl⟩⟩
      · exact ⟨part ++ name ++ tail, rfl, .inr ⟨tail, rfl, ht⟩⟩

end Parted

/-- Every text has parts between the tokens of a name, and the scan joins them by the value. -/
lemma exists_parted (hp : p ∉ ps) (cs : List Char) :
    ∃ parts, Parted (p :: ps) cs parts ∧
      ∀ value, scanTokens p ps value cs = value.intercalate parts := by
  induction cs using token_induction p ps with
  | nil => exact ⟨[[]], .nil, fun value => by rw [scanTokens_nil, List.intercalate_singleton]⟩
  | token after he ih =>
    obtain ⟨parts, h, hv⟩ := ih
    refine ⟨[] :: parts, h.token hp he, fun value => ?_⟩
    rw [scanTokens_token he, hv, List.intercalate_cons_of_ne_nil h.ne_nil, List.nil_append]
  | copy c cs hs ih =>
    obtain ⟨parts, h, hv⟩ := ih
    obtain ⟨part, parts, rfl⟩ := List.exists_cons_of_ne_nil h.ne_nil
    refine ⟨(c :: part) :: parts, h.copy hs, fun value => ?_⟩
    rw [scanTokens_copy hs, hv, intercalate_push]

/-- Exactly the tokens of a name are replaced, if its first character does not stand in it again.
Replacing the name is to scan the text for its tokens. The parts of the text between them, with the
longer names that they hold, stay as they are and are joined by the value instead of the name. They
are the same for every value, so no value is searched for tokens. -/
theorem replaces_exactly_tokens {name : String} (hn : name.toList = p :: ps) (hp : p ∉ ps)
    (text : String) :
    (∀ value, (replaceToken text name value).toList =
      scanTokens p ps value.toList text.toList) ∧
    ∃ parts, Parted (p :: ps) text.toList parts ∧
      ∀ value, (replaceToken text name value).toList = value.toList.intercalate parts := by
  have scanned (value : String) :
      (replaceToken text name value).toList = scanTokens p ps value.toList text.toList := by
    rw [toList_replaceToken hn, replaceEach_tokenValue hp]
  obtain ⟨parts, h, hv⟩ := exists_parted hp text.toList
  refine ⟨scanned, parts, h, fun value => ?_⟩
  rw [scanned, hv]

/-- A calculation with a name twice and with two longer names. -/
def calculation : String := "calc($Δ + $Δε - $Δ-min * $Δ);"

/-- The longer names stay, and so does the name in the value. -/
theorem replaces_exactly_tokens_calculation :
    "$Δ".toList = ['$', 'Δ'] ∧ '$' ∉ ['Δ'] ∧
    replaceToken calculation "$Δ" "2*$Δ" = "calc(2*$Δ + $Δε - $Δ-min * 2*$Δ);" ∧
    (∀ value, (replaceToken calculation "$Δ" value).toList =
      scanTokens '$' ['Δ'] value.toList calculation.toList) ∧
    ∃ parts, Parted ['$', 'Δ'] calculation.toList parts ∧
      ∀ value, (replaceToken calculation "$Δ" value).toList = value.toList.intercalate parts := by
  have hn : "$Δ".toList = ['$', 'Δ'] := by decide
  have hp : '$' ∉ ['Δ'] := by decide
  exact ⟨hn, hp, by decide +kernel, replaces_exactly_tokens hn hp calculation⟩

-- A name that may start again inside itself can have a token there, which is not replaced.
example : replaceToken "aaa" "aa" "b" = "aaa" ∧
    scanTokens 'a' ['a'] ['b'] "aaa".toList = "ab".toList := by
  decide +kernel

end Stylesheet.Text
