import Stylesheet.Proofs.Patterns

/-!
# The dimension of a stream

The dimension of a stream is found token by token, and what is found may be overridden by what
follows. `Dimension.Decided` reads it off the whole stream at once: the last strong operand decides;
without one, a logical operator or comparison does; without these, an operand with a fraction. The
main statement is that both agree, and that with a strong operand no other token counts
(`strong_operands_decide_dimension`).
-/

namespace Stylesheet.Expr

namespace Dimension

/-- The dimensions that override whatever was found before. -/
def isStrong : Dimension → Bool
  | integer | real => false
  | pixel | colour | percent | boolean => true

end Dimension

/-- The words of logical operators and comparisons. -/
def logicalWords : List String := ["and", "or", "not", "==", "<=", ">=", "<", ">"]

/-- Every operator has a level. -/
lemma Operator.mem_levels (op : Operator) : op ∈ levels := by cases op <;> decide

/-- A logical operator has a logical word. -/
lemma Mark.word_mem_of_isLogical {m : Mark} (h : m.isLogical = true) : m.word ∈ logicalWords := by
  cases m with
  | binary op =>
    have logical : ∀ op ∈ Operator.levels, op.isArithmetic = false → op.word ∈ logicalWords := by
      decide
    exact logical op op.mem_levels (by simpa [isLogical] using h)
  | negation => decide
  | opening => cases h
  | closing => cases h

namespace Token

/-- A token is an operand that looks like a dimension. -/
def Fits (d : Dimension) : Token → Prop
  | operand text => d.Fits text
  | operator _ => False

/-- A token is an operand that looks like a dimension that overrides others. -/
def IsStrong (token : Token) : Prop := ∃ d : Dimension, d.isStrong = true ∧ token.Fits d

/-- A token is a logical operator or a comparison. -/
def IsLogical : Token → Prop
  | operand _ => False
  | operator text => Text.trim text ∈ logicalWords

end Token

namespace Dimension

/-- The dimension of a stream, read off all its tokens at once. -/
inductive Decided (tokens : List Token) : Dimension → Prop where
  /-- The last strong operand decides. -/
  | strong {before token after d} :
    tokens = before ++ token :: after →
    d.isStrong = true →
    token.Fits d →
    (∀ token ∈ after, ¬token.IsStrong) →
    Decided tokens d
  | logical :
    (∀ token ∈ tokens, ¬token.IsStrong) →
    (∃ token ∈ tokens, token.IsLogical) →
    Decided tokens boolean
  | real :
    (∀ token ∈ tokens, ¬token.IsStrong) →
    (∀ token ∈ tokens, ¬token.IsLogical) →
    (∃ token ∈ tokens, token.Fits real) →
    Decided tokens real
  | integer :
    (∀ token ∈ tokens, ¬token.IsStrong) →
    (∀ token ∈ tokens, ¬token.IsLogical) →
    (∀ token ∈ tokens, ¬token.Fits .real) →
    Decided tokens integer

variable {token : Token} {tokens before after : List Token} {found : Option Dimension}

/-! ### One token -/

/-- A token is found to be logical exactly if it is. -/
lemma isLogical_iff : isLogical token = true ↔ token.IsLogical := by
  cases token with
  | operand text => simp [isLogical, Token.IsLogical]
  | operator text =>
    constructor
    · intro h
      obtain ⟨m, hm, hl⟩ := (Option.any_eq_true _ _).1 h
      rw [Token.IsLogical, Mark.trim_eq_word hm]
      exact Mark.word_mem_of_isLogical hl
    · intro h
      have known : ∀ word ∈ logicalWords, (Mark.ofWord? word).any Mark.isLogical = true := by decide
      exact known (Text.trim text) h

/-- Nothing was found that an operand with a fraction could not override. -/
def Open (found : Option Dimension) : Prop := found = none ∨ found = some integer

/-- A strong operand decides the dimension. -/
lemma step_of_strong (hd : d.isStrong = true) (h : token.Fits d) : step found token = some d := by
  cases token with
  | operator text => cases h
  | operand text =>
    rw [step, ofOperand?_eq_some_iff.2 h]
    cases d <;> first | rfl | cases hd

/-- What an operand that is not strong looks like. -/
lemma weak_cases {text : String} (h : ¬(Token.operand text).IsStrong) :
    ofOperand? text = none ∨ ofOperand? text = some integer ∨ ofOperand? text = some real := by
  cases ho : ofOperand? text with
  | none => exact .inl rfl
  | some d =>
    cases hd : d.isStrong with
    | true => exact absurd ⟨d, hd, ofOperand?_eq_some_iff.1 ho⟩ h
    | false => cases d <;> simp_all [isStrong]

/-- A token that is not strong leaves what was found, unless that is only an integer. -/
lemma step_of_settled (h : ¬token.IsStrong) (hd : d ≠ integer) :
    step (some d) token = some d := by
  cases token with
  | operator text => rfl
  | operand text =>
    obtain ho | ho | ho := weak_cases h <;> simp [step, ho, refine, hd]

/-- A real number decides the dimension while it is open. -/
lemma step_of_real (h : token.Fits real) (ho : Open found) : step found token = some real := by
  cases token with
  | operator text => cases h
  | operand text =>
    rw [step, ofOperand?_eq_some_iff.2 h]
    exact if_pos ho

/-- Other operands leave the dimension open. -/
lemma open_step (h : ¬token.IsStrong) (hr : ¬token.Fits real) (ho : Open found) :
    Open (step found token) := by
  cases token with
  | operator text => exact ho
  | operand text =>
    obtain hw | hw | hw := weak_cases h
    · rwa [step, hw]
    · rw [step, hw]
      obtain rfl | rfl := ho
      · exact .inr rfl
      · exact .inr rfl
    · exact absurd (ofOperand?_eq_some_iff.1 hw) hr

/-! ### All tokens -/

/-- A dimension that is settled stays without strong operands. -/
lemma foldl_of_settled (h : ∀ token ∈ tokens, ¬token.IsStrong) (hd : d ≠ integer) :
    tokens.foldl step (some d) = some d := by
  induction tokens with
  | nil => rfl
  | cons token tokens ih =>
    rw [List.forall_mem_cons] at h
    rw [List.foldl_cons, step_of_settled h.1 hd]
    exact ih h.2

/-- The last strong operand decides, whatever was found before. -/
lemma foldl_of_strong (hd : d.isStrong = true) (hf : token.Fits d)
    (ha : ∀ token ∈ after, ¬token.IsStrong) :
    (before ++ token :: after).foldl step found = some d := by
  have settled : d ≠ integer := by
    rintro rfl
    cases hd
  rw [List.foldl_append, List.foldl_cons, step_of_strong hd hf]
  exact foldl_of_settled ha settled

/-- A real number decides the dimension if no operand is strong. -/
lemma foldl_of_real (h : ∀ token ∈ tokens, ¬token.IsStrong)
    (hr : ∃ token ∈ tokens, token.Fits real) (ho : Open found) :
    tokens.foldl step found = some real := by
  induction tokens generalizing found with
  | nil => simp at hr
  | cons token tokens ih =>
    rw [List.forall_mem_cons] at h
    rw [List.foldl_cons]
    by_cases hf : token.Fits real
    · rw [step_of_real hf ho]
      exact foldl_of_settled h.2 (by simp)
    · have rest : ∃ token ∈ tokens, token.Fits real := by
        obtain ⟨token', hm, hr⟩ := hr
        obtain rfl | hm := List.mem_cons.1 hm
        · exact absurd hr hf
        · exact ⟨token', hm, hr⟩
      exact ih h.2 rest (open_step h.1 hf ho)

/-- Without strong operands and real numbers the dimension stays open. -/
lemma open_foldl (h : ∀ token ∈ tokens, ¬token.IsStrong) (hr : ∀ token ∈ tokens, ¬token.Fits real)
    (ho : Open found) : Open (tokens.foldl step found) := by
  induction tokens generalizing found with
  | nil => exact ho
  | cons token tokens ih =>
    rw [List.forall_mem_cons] at h hr
    exact ih h.2 hr.2 (open_step h.1 hr.1 ho)

/-! ### The dimension -/

/-- The last strong operand decides the dimension. -/
lemma infer_of_strong (hd : d.isStrong = true) (hf : token.Fits d)
    (ha : ∀ token ∈ after, ¬token.IsStrong) : infer (before ++ token :: after) = d := by
  rw [infer, foldl_of_strong hd hf ha, Option.getD_some]

/-- What decides the dimension is what is inferred. -/
lemma Decided.infer_eq (h : Decided tokens d) : infer tokens = d := by
  have plain (hl : ∀ token ∈ tokens, ¬token.IsLogical) : ¬tokens.any isLogical = true := by
    simpa [isLogical_iff] using hl
  cases h with
  | strong ht hd hf ha =>
    rw [ht]
    exact infer_of_strong hd hf ha
  | logical hs hl =>
    obtain ⟨token, hm, hl⟩ := hl
    have logical : tokens.any isLogical = true :=
      List.any_eq_true.2 ⟨token, hm, isLogical_iff.2 hl⟩
    rw [infer, if_pos logical, foldl_of_settled hs (by simp), Option.getD_some]
  | real hs hl hr =>
    rw [infer, if_neg (plain hl), foldl_of_real hs hr (.inl rfl), Option.getD_some]
  | integer hs hl hr =>
    rw [infer, if_neg (plain hl)]
    obtain h | h := open_foldl hs hr (.inl rfl)
    · rw [h, Option.getD_none]
    · rw [h, Option.getD_some]

/-- Of tokens with a property there is a last one. -/
lemma exists_last {P : Token → Prop} (h : ∃ token ∈ tokens, P token) :
    ∃ before token after, tokens = before ++ token :: after ∧ P token ∧
      ∀ token ∈ after, ¬P token := by
  induction tokens with
  | nil => simp at h
  | cons token tokens ih =>
    by_cases hr : ∃ token ∈ tokens, P token
    · obtain ⟨before, last, after, rfl, hl⟩ := ih hr
      exact ⟨token :: before, last, after, rfl, hl⟩
    · obtain ⟨last, hm, hl⟩ := h
      obtain rfl | hm := List.mem_cons.1 hm
      · exact ⟨[], last, tokens, rfl, hl, fun token ht hp => hr ⟨token, ht, hp⟩⟩
      · exact absurd ⟨last, hm, hl⟩ hr

/-- Some dimension is decided. -/
lemma exists_decided (tokens : List Token) : ∃ d, Decided tokens d := by
  by_cases hs : ∃ token ∈ tokens, token.IsStrong
  · obtain ⟨before, token, after, ht, ⟨d, hd, hf⟩, ha⟩ := exists_last hs
    exact ⟨d, .strong ht hd hf ha⟩
  · by_cases hl : ∃ token ∈ tokens, token.IsLogical
    · exact ⟨.boolean, .logical (by simpa using hs) hl⟩
    · by_cases hr : ∃ token ∈ tokens, token.Fits .real
      · exact ⟨.real, .real (by simpa using hs) (by simpa using hl) hr⟩
      · exact ⟨.integer, .integer (by simpa using hs) (by simpa using hl) (by simpa using hr)⟩

/-- A token that is not strong does not count where there is a strong one. -/
lemma infer_insert (h : ¬token.IsStrong) (hs : ∃ token ∈ before ++ after, token.IsStrong) :
    infer (before ++ token :: after) = infer (before ++ after) := by
  by_cases ha : ∃ token ∈ after, token.IsStrong
  · obtain ⟨front, last, rest, rfl, ⟨d, hd, hf⟩, hr⟩ := exists_last ha
    calc
      infer (before ++ token :: (front ++ last :: rest)) =
          infer ((before ++ token :: front) ++ last :: rest) := by simp
      _ = d := infer_of_strong hd hf hr
      _ = infer ((before ++ front) ++ last :: rest) := (infer_of_strong hd hf hr).symm
      _ = infer (before ++ (front ++ last :: rest)) := by simp
  · have hb : ∃ token ∈ before, token.IsStrong := by
      obtain ⟨last, hm, hl⟩ := hs
      obtain hm | hm := List.mem_append.1 hm
      · exact ⟨last, hm, hl⟩
      · exact absurd ⟨last, hm, hl⟩ ha
    obtain ⟨front, last, rest, rfl, ⟨d, hd, hf⟩, hr⟩ := exists_last hb
    have weak : ∀ t ∈ rest ++ after, ¬t.IsStrong := by
      intro t hm hl
      obtain hm | hm := List.mem_append.1 hm
      · exact hr t hm hl
      · exact ha ⟨t, hm, hl⟩
    have weaker : ∀ t ∈ rest ++ token :: after, ¬t.IsStrong := by
      intro t hm
      obtain hm | rfl | hm : t ∈ rest ∨ t = token ∨ t ∈ after := by simpa using hm
      · exact weak t (List.mem_append_left _ hm)
      · exact h
      · exact weak t (List.mem_append_right _ hm)
    calc
      infer (front ++ last :: rest ++ token :: after) =
          infer (front ++ last :: (rest ++ token :: after)) := by simp
      _ = d := infer_of_strong hd hf weaker
      _ = infer (front ++ last :: (rest ++ after)) := (infer_of_strong hd hf weak).symm
      _ = infer (front ++ last :: rest ++ after) := by simp

/-- The dimension of a stream is the one that its tokens decide. Where there is a strong operand,
any token that is not strong may be left out. -/
theorem strong_operands_decide_dimension :
    (∀ tokens d, infer tokens = d ↔ Decided tokens d) ∧
      ∀ before token after, ¬Token.IsStrong token →
        (∃ token ∈ before ++ after, Token.IsStrong token) →
        infer (before ++ token :: after) = infer (before ++ after) := by
  refine ⟨fun tokens d => ⟨?_, Decided.infer_eq⟩, fun _ _ _ => infer_insert⟩
  rintro rfl
  obtain ⟨d, hd⟩ := exists_decided tokens
  rwa [hd.infer_eq]

/-- A colour, in upper case, between tokens that are not strong. -/
def mixedColour : List Token :=
  [.operand "1.5", .operator "<", .operand " #0F0 ", .operator "and", .operand "2.5"]

/-- A colour in an expression decides its dimension. -/
theorem strong_operands_decide_dimension_colour :
    Decided mixedColour colour ∧
      infer (.operator "not" :: mixedColour) = infer mixedColour := by
  have found : infer mixedColour = colour := by decide +kernel
  have strong : (Token.operand " #0F0 ").IsStrong :=
    ⟨colour, rfl, ofOperand?_eq_some_iff.1 (by decide +kernel)⟩
  refine ⟨(strong_operands_decide_dimension.1 _ _).1 found, ?_⟩
  refine strong_operands_decide_dimension.2 [] _ _ ?_ ⟨_, by simp [mixedColour], strong⟩
  rintro ⟨_, _, h⟩
  exact h

end Dimension

end Stylesheet.Expr
