import Stylesheet.Proofs.Composition
import Stylesheet.Proofs.Sheet
import Mathlib.Data.List.DropRight
import Mathlib.Logic.Relation

/-!
# The normal form of a gradient

A gradient is written from the parts of its arguments between commas. A comma cuts a text into parts
that are found on their own (`commaParts_append_cons`), and everything else follows from that: the
arguments matter only by their parts, and a gradient that is written from its parts has the same
parts again, so writing it once more changes nothing.
-/

namespace Stylesheet.Builtin

open Text

variable {cs a b part rest blanks : List Char} {parts : List (List Char)}

/-! ### Parts between commas -/

/-- A comma cuts a text into parts that are found on their own. -/
lemma commaParts_append_cons (a b : List Char) :
    commaParts (a ++ ',' :: b) = commaParts a ++ commaParts b := by
  unfold commaParts
  rw [List.splitOnP_append_cons a b rfl, List.map_append, List.filter_append]

/-- A text without commas has one part at most. -/
lemma commaParts_of_not_mem (h : ',' ∉ cs) : commaParts cs = [trimChars cs].filter (· ≠ []) := by
  have hs : cs.splitOnP (· == ',') = [cs] :=
    List.splitOnP_eq_singleton fun c hc => by simpa using fun he : c = ',' => h (he ▸ hc)
  rw [commaParts, hs, List.map_singleton]

/-- The empty text has no parts. -/
@[simp] lemma commaParts_nil : commaParts [] = [] := by
  rw [commaParts_of_not_mem (by simp)]
  rfl

/-- What holds of the texts without a comma, and of a text whenever it holds of what is behind its
first comma, holds of every text. -/
lemma comma_induction {motive : List Char → Prop} (plain : ∀ cs, ',' ∉ cs → motive cs)
    (cut : ∀ a b, ',' ∉ a → motive b → motive (a ++ ',' :: b)) (cs : List Char) : motive cs := by
  induction hn : cs.length using Nat.strong_induction_on generalizing cs with
  | _ n ih =>
    subst hn
    by_cases h : ',' ∈ cs
    · obtain ⟨a, b, rfl, ha⟩ := List.eq_append_cons_of_mem h
      refine cut a b ha (ih b.length ?_ b rfl)
      simp only [List.length_append, List.length_cons]
      omega
    · exact plain cs h

/-- Blanks in front do not matter. -/
lemma trimChars_blank_append (h : ∀ c ∈ blanks, isBlank c) (cs : List Char) :
    trimChars (blanks ++ cs) = trimChars cs := by
  unfold trimChars
  rw [List.dropWhile_append_of_pos h]

/-- A comma is no blank. -/
lemma not_mem_of_blank (h : ∀ c ∈ blanks, isBlank c) : ',' ∉ blanks := by
  intro hc
  have := h ',' hc
  exact absurd this (by decide)

/-- Blanks in front of a text make no difference to its parts. -/
lemma commaParts_blank_append (h : ∀ c ∈ blanks, isBlank c) (cs : List Char) :
    commaParts (blanks ++ cs) = commaParts cs := by
  have plain (a : List Char) (ha : ',' ∉ a) : commaParts (blanks ++ a) = commaParts a := by
    rw [commaParts_of_not_mem ha, commaParts_of_not_mem (by simp [ha, not_mem_of_blank h]),
      trimChars_blank_append h]
  by_cases hc : ',' ∈ cs
  · obtain ⟨a, b, rfl, ha⟩ := List.eq_append_cons_of_mem hc
    rw [← List.append_assoc, commaParts_append_cons, commaParts_append_cons, plain a ha]
  · exact plain cs hc

/-- Nor do blanks behind it. -/
lemma commaParts_append_blank (h : ∀ c ∈ blanks, isBlank c) (cs : List Char) :
    commaParts (cs ++ blanks) = commaParts cs := by
  induction cs using comma_induction with
  | plain cs hc =>
    rw [commaParts_of_not_mem hc, commaParts_of_not_mem (by simp [hc, not_mem_of_blank h]),
      trimChars_append h]
  | cut a b _ ih =>
    rw [List.append_assoc, List.cons_append, commaParts_append_cons, commaParts_append_cons, ih]

/-- A part of a text between commas: it holds no comma, and no blank is at its ends. -/
structure IsPart (part : List Char) : Prop where
  ne_nil : part ≠ []
  commaless : ',' ∉ part
  head : ∀ c ∈ part.head?, isBlank c = false
  last : ∀ c ∈ part.getLast?, isBlank c = false

/-- What a text without commas is cut into is a part. -/
lemma isPart_of_not_mem (hc : ',' ∉ cs) (h : part ∈ commaParts cs) : IsPart part := by
  rw [commaParts_of_not_mem hc, List.mem_filter, List.mem_singleton] at h
  obtain ⟨rfl, hne⟩ := h
  have ht := trimmed_trim (String.ofList cs)
  constructor
  · simpa using hne
  · exact fun hm => hc (mem_of_mem_trimChars hm)
  · exact fun c hc => by simpa using ht.head c (by simpa using hc)
  · exact fun c hc => by simpa using ht.last c (by simpa using hc)

/-- What a text is cut into is parts. -/
lemma isPart_of_mem_commaParts (h : part ∈ commaParts cs) : IsPart part := by
  induction cs using comma_induction with
  | plain cs hc => exact isPart_of_not_mem hc h
  | cut a b ha ih =>
    rw [commaParts_append_cons, List.mem_append] at h
    exact h.elim (isPart_of_not_mem ha) ih

/-- A part is not cut. -/
lemma IsPart.commaParts_eq (h : IsPart part) : commaParts part = [part] := by
  have ht : trimChars part = part := by
    have hs : trim (String.ofList part) = String.ofList part :=
      trim_eq_self (fun c hc => by simp [h.head c (by simpa using hc)])
        fun c hc => by simp [h.last c (by simpa using hc)]
    simpa using congrArg String.toList hs
  rw [commaParts_of_not_mem h.commaless, ht]
  simp [h.ne_nil]

/-- Parts that are joined by a comma and a blank are found again. -/
lemma commaParts_intercalate (h : ∀ part ∈ parts, IsPart part) :
    commaParts ([',', ' '].intercalate parts) = parts := by
  induction parts with
  | nil => exact commaParts_nil
  | cons part parts ih =>
    rw [List.forall_mem_cons] at h
    cases parts with
    | nil => simpa using h.1.commaParts_eq
    | cons next parts =>
      have hb : ∀ c ∈ [' '], isBlank c := List.forall_mem_singleton.2 (by decide)
      have hs : [',', ' '].intercalate (part :: next :: parts) =
          part ++ ',' :: ([' '] ++ [',', ' '].intercalate (next :: parts)) := by
        simp [List.intercalate_cons_cons]
      rw [hs, commaParts_append_cons, commaParts_blank_append hb, ih h.2, h.1.commaParts_eq]
      rfl

/-! ### Directions -/

/-- A part of a gradient either stays as it is, or it names a side and gets a blank in front of
it. -/
lemma gradientPart_cases (part : List Char) :
    gradientPart part = part ∨
      ∃ rest, part = "to".toList ++ rest ∧
        (∃ side ∈ sides, side.toList <+: rest.dropWhile isBlank) ∧
        gradientPart part = "to ".toList ++ rest.dropWhile isBlank := by
  unfold gradientPart
  split
  · exact .inl rfl
  · next rest hr =>
    dsimp only
    split
    · next hs =>
      refine .inr ⟨rest, append_of_isPrefixOf? hr, ?_, rfl⟩
      obtain ⟨side, hm, hp⟩ := List.any_eq_true.1 hs
      exact ⟨side, hm, List.isPrefixOf_iff_prefix.1 hp⟩
    · exact .inl rfl

/-- A part that names a side is cut in front of it. -/
lemma gradientPart_of_side (h : ∃ side ∈ sides, side.toList <+: rest.dropWhile isBlank) :
    gradientPart ("to".toList ++ rest) = "to ".toList ++ rest.dropWhile isBlank := by
  obtain ⟨side, hm, hp⟩ := h
  have hs : sides.any (·.toList.isPrefixOf (rest.dropWhile isBlank)) = true :=
    List.any_eq_true.2 ⟨side, hm, List.isPrefixOf_iff_prefix.2 hp⟩
  rw [gradientPart, isPrefixOf?_append]
  dsimp only
  rw [if_pos hs]

/-- The blank in front of a side is put there once. -/
lemma gradientPart_idem (part : List Char) :
    gradientPart (gradientPart part) = gradientPart part := by
  obtain h | ⟨rest, -, hs, h⟩ := gradientPart_cases part
  · rw [h, h]
  · have ht : "to ".toList ++ rest.dropWhile isBlank =
        "to".toList ++ (' ' :: rest.dropWhile isBlank) := rfl
    have hd : (' ' :: rest.dropWhile isBlank).dropWhile isBlank = rest.dropWhile isBlank := by
      rw [List.dropWhile_cons_of_pos (by decide), List.dropWhile_idempotent]
    rw [h, ht, gradientPart_of_side (by rwa [hd]), hd]
    rfl

/-- The sides have names. -/
lemma toList_ne_nil_of_mem_sides {side : String} (h : side ∈ sides) : side.toList ≠ [] := by
  simp only [sides, List.mem_cons, List.not_mem_nil, or_false] at h
  obtain rfl | rfl | rfl | rfl := h <;> decide

/-- A part of a gradient that is rewritten is a part. -/
lemma IsPart.gradientPart (h : IsPart part) : IsPart (gradientPart part) := by
  obtain he | ⟨rest, rfl, ⟨side, hm, hp⟩, he⟩ := gradientPart_cases part
  · rwa [he]
  · rw [he]
    have hne : rest.dropWhile isBlank ≠ [] := by
      intro hn
      rw [hn, List.prefix_nil] at hp
      exact toList_ne_nil_of_mem_sides hm hp
    obtain ⟨front, hf⟩ := List.dropWhile_suffix (l := rest) isBlank
    constructor
    · simp
    · intro hc
      have hm : ',' ∈ rest.dropWhile isBlank := by simpa using hc
      exact h.commaless (List.mem_append_right _ ((List.dropWhile_sublist _).subset hm))
    · intro c hc
      obtain rfl : 't' = c := by simpa using hc
      decide
    · intro c hc
      refine h.last c ?_
      rw [List.getLast?_append_of_ne_nil _ hne] at hc
      rwa [← hf, ← List.append_assoc, List.getLast?_append_of_ne_nil _ hne]

/-! ### Arguments -/

/-- The parts of all arguments. -/
def argumentParts (args : List String) : List (List Char) :=
  args.flatMap fun arg => commaParts arg.toList

/-- The text of a gradient between its parentheses. -/
def gradientText (args : List String) : List Char :=
  [',', ' '].intercalate ((argumentParts args).map gradientPart)

/-- Arguments are cut into their parts, one after the other. -/
lemma commaParts_arguments (args : List String) :
    commaParts (",".intercalate args).toList = argumentParts args := by
  induction args with
  | nil => exact commaParts_nil
  | cons arg args ih =>
    cases args with
    | nil => simp [argumentParts]
    | cons next args =>
      have hs : (",".intercalate (arg :: next :: args)).toList =
          arg.toList ++ ',' :: (",".intercalate (next :: args)).toList := by
        simp [String.intercalate_cons_cons]
      rw [hs, commaParts_append_cons, ih]
      rfl

/-- A gradient depends on the parts of its arguments only. -/
lemma gradient_eq (args : List String) :
    gradient args = "linear-gradient(" ++ String.ofList (gradientText args) ++ ")" := by
  unfold gradient
  rw [commaParts_arguments, gradientText, ← String.toList_inj]
  simp [String.toList_intercalate, Function.comp_def]

/-- The arguments of a gradient are rewritten to parts. -/
lemma isPart_gradientPart {args : List String} :
    ∀ part ∈ (argumentParts args).map gradientPart, IsPart part := by
  intro part hp
  obtain ⟨source, hs, rfl⟩ := List.mem_map.1 hp
  obtain ⟨arg, -, hs⟩ := List.mem_flatMap.1 hs
  exact (isPart_of_mem_commaParts hs).gradientPart

/-- The text of a gradient, taken for its only argument, is written again. -/
lemma gradientText_gradientText (args : List String) :
    gradientText [String.ofList (gradientText args)] = gradientText args := by
  have hp : argumentParts [String.ofList (gradientText args)] =
      (argumentParts args).map gradientPart := by
    rw [argumentParts, List.flatMap_singleton, String.toList_ofList]
    exact commaParts_intercalate isPart_gradientPart
  have hi : gradientPart ∘ gradientPart = gradientPart := funext gradientPart_idem
  rw [gradientText, hp, List.map_map, hi, gradientText]

/-- Arguments cut or joined at commas, with blanks around them, or with an empty one among them. -/
inductive Regrouped : List String → List String → Prop where
  | cut (before : List String) (a b : String) (after : List String) :
    Regrouped (before ++ (a ++ "," ++ b) :: after) (before ++ a :: b :: after)
  | padded {left right : String} (before : List String) (arg : String) (after : List String) :
    Blank left →
    Blank right →
    Regrouped (before ++ arg :: after) (before ++ (left ++ arg ++ right) :: after)
  | empty (before after : List String) :
    Regrouped (before ++ after) (before ++ "" :: after)

variable {args others : List String}

/-- Arguments that are grouped in another way have the same parts. -/
lemma Regrouped.argumentParts_eq (h : Regrouped args others) :
    argumentParts others = argumentParts args := by
  cases h with
  | cut before a b after =>
    have hs : (a ++ "," ++ b).toList = a.toList ++ ',' :: b.toList := by simp
    simp [argumentParts, hs, commaParts_append_cons]
  | @padded left right before arg after hl hr =>
    have hs : commaParts (left.toList ++ (arg.toList ++ right.toList)) = commaParts arg.toList := by
      rw [commaParts_blank_append hl, commaParts_append_blank hr]
    simp [argumentParts, hs]
  | empty before after => simp [argumentParts]

/-- Arguments that are grouped in another way, several times over, have the same parts. -/
lemma argumentParts_of_eqvGen (h : Relation.EqvGen Regrouped args others) :
    argumentParts others = argumentParts args := by
  induction h with
  | rel _ _ h => exact h.argumentParts_eq
  | refl _ => rfl
  | symm _ _ _ ih => exact ih.symm
  | trans _ _ _ _ _ ih₁ ih₂ => exact ih₂.trans ih₁

/-! ### Commas -/

/-- A comma stands well between two texts: the first one ends with a character that is neither a
comma nor a blank, and the second one starts with one blank and then such a character. -/
structure SpacedBetween (a b : List Char) : Prop where
  before : ∃ c ∈ a.getLast?, c ≠ ',' ∧ isBlank c = false
  after : ∃ c rest, b = ' ' :: c :: rest ∧ c ≠ ',' ∧ isBlank c = false

/-- Each comma in a text stands well between what is in front of it and what is behind it. -/
def SpacedCommas (cs : List Char) : Prop := ∀ a b, cs = a ++ ',' :: b → SpacedBetween a b

/-- A part starts with neither a comma nor a blank. -/
lemma IsPart.exists_head (h : IsPart part) :
    ∃ c rest, part = c :: rest ∧ c ≠ ',' ∧ isBlank c = false := by
  cases part with
  | nil => exact absurd rfl h.ne_nil
  | cons c rest =>
    exact ⟨c, rest, rfl, fun he => h.commaless (he ▸ List.mem_cons_self), h.head c rfl⟩

/-- A part ends with neither a comma nor a blank. -/
lemma IsPart.exists_last (h : IsPart part) :
    ∃ c ∈ part.getLast?, c ≠ ',' ∧ isBlank c = false := by
  cases hl : part.getLast? with
  | none => exact absurd (List.getLast?_eq_none_iff.1 hl) h.ne_nil
  | some c =>
    exact ⟨c, rfl, fun he => h.commaless (he ▸ List.mem_of_getLast? hl), h.last c hl⟩

/-- Parts with commas between them start with neither a comma nor a blank. -/
lemma exists_head_intercalate {next : List Char} (h : IsPart next) (parts : List (List Char)) :
    ∃ c rest, [',', ' '].intercalate (next :: parts) = c :: rest ∧ c ≠ ',' ∧ isBlank c = false := by
  obtain ⟨c, rest, rfl, hc⟩ := h.exists_head
  cases parts with
  | nil => exact ⟨c, rest, by simp, hc⟩
  | cons other parts => exact ⟨c, _, by rw [List.intercalate_cons_cons]; rfl, hc⟩

/-- Parts with a comma and a blank between them have a blank after each comma and none in front. -/
lemma spacedCommas_intercalate (h : ∀ part ∈ parts, IsPart part) :
    SpacedCommas ([',', ' '].intercalate parts) := by
  induction parts with
  | nil =>
    intro a b hs
    simp at hs
  | cons part parts ih =>
    rw [List.forall_mem_cons] at h
    intro a b hs
    cases parts with
    | nil =>
      rw [List.intercalate_singleton] at hs
      exact absurd (by simp [hs]) h.1.commaless
    | cons next parts =>
      rw [List.intercalate_cons_cons, List.append_assoc] at hs
      have first (ha : a = part) (hb : b = ' ' :: [',', ' '].intercalate (next :: parts)) :
          SpacedBetween a b := by
        obtain ⟨c, rest, hr, hc⟩ := exists_head_intercalate (h.2 next List.mem_cons_self) parts
        exact ⟨ha ▸ h.1.exists_last, c, rest, by rw [hb, hr], hc⟩
      -- The comma is the one behind the first part, or one among the other parts.
      obtain ⟨more, ha, hm⟩ | ⟨more, hp, hm⟩ := List.append_eq_append_iff.1 hs
      · rcases more with _ | ⟨d, _ | ⟨e, more⟩⟩
        · exact first (by simpa using ha) (List.cons.inj hm).2.symm
        · simp at hm
        · obtain ⟨-, hm⟩ := List.cons.inj hm
          obtain ⟨⟨c, hl, hc⟩, hb⟩ := ih h.2 more b (List.cons.inj hm).2
          refine ⟨⟨c, ?_, hc⟩, hb⟩
          have hl : more.getLast? = some c := hl
          simp [ha, List.getLast?_append, List.getLast?_cons, hl]
      · cases more with
        | nil => exact first (by simpa using hp.symm) (List.cons.inj hm).2
        | cons d more =>
          obtain rfl : ',' = d := (List.cons.inj hm).1
          exact absurd (by simp [hp]) h.1.commaless

/-- A gradient is in normal form. The text between its parentheses, given as the only argument,
makes the same gradient; only the text of the joined arguments matters, and how it is cut into
arguments, blanks around them and empty ones do not; and each comma in it stands between parts and
is followed by one blank. -/
theorem gradient_is_normal (args : List String) :
    ∃ text, gradient args = "linear-gradient(" ++ text ++ ")" ∧
      gradient [text] = gradient args ∧
      SpacedCommas text.toList ∧
      (∀ others, ",".intercalate others = ",".intercalate args → gradient others = gradient args) ∧
      ∀ others, Relation.EqvGen Regrouped args others → gradient others = gradient args := by
  refine ⟨String.ofList (gradientText args), gradient_eq args, ?_, ?_, fun others h => ?_,
    fun others h => ?_⟩
  · rw [gradient_eq, gradientText_gradientText, gradient_eq]
  · rw [String.toList_ofList]
    exact spacedCommas_intercalate isPart_gradientPart
  · unfold gradient
    rw [h]
  · rw [gradient_eq, gradient_eq, gradientText, gradientText, argumentParts_of_eqvGen h]

example : gradient ["toright,red", " ", "blue"] = "linear-gradient(to right, red, blue)" := by
  decide

end Stylesheet.Builtin
