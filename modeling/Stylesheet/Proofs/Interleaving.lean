import Stylesheet.Proofs.Composition
import Stylesheet.Proofs.Kinds

/-!
# Operands and operators that come apart

`interleave` makes a stream of a list of operands and a list of operator words. Neither list loses
anything, and a stream in which operands and operators alternate is made again of its two lists. So
it does not matter whether such a stream is evaluated as it is or in its parts, and whatever the
parts are, they have a text only if their numbers fit and the parentheses match
(`parts_evaluate_as_stream`).
-/

namespace Stylesheet.Expr

/-- The text of an operand. -/
def Token.operand? : Token → Option String
  | .operand text => some text
  | .operator _ => none

/-- The text of an operator. -/
def Token.operator? : Token → Option String
  | .operand _ => none
  | .operator text => some text

/-- A token without the blanks around an operator. -/
def Token.trimmed : Token → Token
  | .operand text => .operand text
  | .operator text => .operator (Text.trim text)

/-- What a stream goes on with. -/
inductive Turn where
  | operand
  | operator

/-- The rest of a stream in which operands and binary operators alternate. Before an operand there
may be opening parentheses and negations, and after it closing parentheses. -/
inductive Alternates : Turn → List Token → Prop where
  | opening {text tokens} :
    Mark.ofText? text = some .opening ∨ Mark.ofText? text = some .negation →
    Alternates .operand tokens →
    Alternates .operand (.operator text :: tokens)
  | operand {text tokens} :
    Alternates .operator tokens →
    Alternates .operand (.operand text :: tokens)
  | closing {text tokens} :
    Mark.ofText? text = some .closing →
    Alternates .operator tokens →
    Alternates .operator (.operator text :: tokens)
  | binary {text op tokens} :
    Mark.ofText? text = some (.binary op) →
    Alternates .operand tokens →
    Alternates .operator (.operator text :: tokens)
  | done :
    Alternates .operator []

/-- Whether the parentheses among marks match. The first argument counts those that are open. -/
def balanced : Nat → List Mark → Bool
  | depth, [] => depth == 0
  | depth, .opening :: rest => balanced (depth + 1) rest
  | 0, .closing :: _ => false
  | depth + 1, .closing :: rest => balanced depth rest
  | depth, .negation :: rest => balanced depth rest
  | depth, .binary _ :: rest => balanced depth rest

/-- A mark is a binary operator. -/
def Mark.isBinary : Mark → Bool
  | binary _ => true
  | _ => false

/-! ### Words -/

namespace Mark

variable {text : String}

/-- A word is read as the mark that has it. -/
lemma eq_word_of_ofWord? {word : String} {m : Mark} (h : ofWord? word = some m) :
    word = m.word := by
  unfold ofWord? at h
  split at h
  · next hw =>
    cases h
    exact hw
  · split at h
    · next hw =>
      cases h
      exact hw
    · split at h
      · next hw =>
        cases h
        exact hw
      · obtain ⟨op, ho, rfl⟩ := Option.map_eq_some_iff.1 h
        have hw := List.find?_some ho
        exact (of_decide_eq_true hw).symm

/-- An operator token without its blanks is the word of its mark. -/
lemma trim_eq_word {m : Mark} (h : ofText? text = some m) : Text.trim text = m.word :=
  eq_word_of_ofWord? h

/-- Blanks around a word do not count. -/
lemma ofText?_trim (text : String) : ofText? (Text.trim text) = ofText? text := by
  rw [ofText?, ofText?, (Text.trimmed_trim text).trim_eq]

/-- An opening parenthesis and a negation open an operand. -/
lemma opensOperand_trim (h : ofText? text = some .opening ∨ ofText? text = some .negation) :
    opensOperand (Text.trim text) = true := by
  obtain h | h := h
  · rw [trim_eq_word h]
    decide
  · rw [trim_eq_word h]
    decide

/-- A closing parenthesis closes an operand. -/
lemma closesOperand_trim (h : ofText? text = some .closing) :
    closesOperand (Text.trim text) = true := by
  rw [trim_eq_word h]
  decide

/-- A binary operator neither opens nor closes an operand. -/
lemma binary_trim {op : Operator} (h : ofText? text = some (.binary op)) :
    opensOperand (Text.trim text) = false ∧ closesOperand (Text.trim text) = false := by
  rw [trim_eq_word h]
  cases op <;> decide

end Mark

/-! ### The stream of two lists -/

/-- The rest of the stream after an operand. -/
def resume (operands words : List String) : List Token :=
  (words.takeWhile closesOperand).map .operator ++
    match words.dropWhile closesOperand with
    | [] => operands.map .operand
    | word :: words => .operator word :: interleave operands words

/-- The stream of two lists from where it goes on with an operand or with an operator. -/
def Turn.stream : Turn → List String → List String → List Token
  | operand => interleave
  | operator => resume

variable {operand word text : String} {operands words : List String} {tokens : List Token}
  {items : List Item} {n : Nat} {terms : List Term}

/-- The first operand follows the words that open it. -/
lemma interleave_cons (operand : String) (operands words : List String) :
    interleave (operand :: operands) words =
      (words.takeWhile opensOperand).map .operator ++
        .operand operand :: resume operands (words.dropWhile opensOperand) := by
  cases hw : (words.dropWhile opensOperand).dropWhile closesOperand <;>
    simp [interleave, resume, hw]

/-- A word that opens an operand comes first. -/
lemma interleave_of_opens (h : opensOperand word = true) :
    interleave (operand :: operands) (word :: words) =
      .operator word :: interleave (operand :: operands) words := by
  rw [interleave_cons, interleave_cons, List.takeWhile_cons_of_pos h, List.dropWhile_cons_of_pos h]
  rfl

/-- An operand comes first where no word opens it. -/
lemma interleave_of_not_opens (h : ∀ word ∈ words.head?, opensOperand word = false) :
    interleave (operand :: operands) words = .operand operand :: resume operands words := by
  rw [interleave_cons]
  cases words with
  | nil => rfl
  | cons word words =>
    have hw : ¬opensOperand word = true := by simp [h word rfl]
    rw [List.takeWhile_cons_of_neg hw, List.dropWhile_cons_of_neg hw]
    rfl

/-- Operands without words follow each other. -/
lemma resume_nil (operands : List String) : resume operands [] = operands.map .operand := rfl

/-- A word that closes an operand follows it. -/
lemma resume_of_closes (h : closesOperand word = true) :
    resume operands (word :: words) = .operator word :: resume operands words := by
  rw [resume, resume, List.takeWhile_cons_of_pos h, List.dropWhile_cons_of_pos h]
  rfl

/-- A word that closes no operand connects it with the next. -/
lemma resume_of_not_closes (h : closesOperand word = false) :
    resume operands (word :: words) = .operator word :: interleave operands words := by
  have hw : ¬closesOperand word = true := by simp [h]
  rw [resume, List.takeWhile_cons_of_neg hw, List.dropWhile_cons_of_neg hw]
  rfl

/-! ### Nothing is lost -/

/-- After an operand, all other operands and all words are still to come, if that is so of a whole
stream. -/
lemma filterMap_resume
    (h : ∀ words, (interleave operands words).filterMap Token.operand? = operands ∧
      (interleave operands words).filterMap Token.operator? = words) (words : List String) :
    (resume operands words).filterMap Token.operand? = operands ∧
      (resume operands words).filterMap Token.operator? = words := by
  induction words with
  | nil =>
    rw [resume_nil, List.filterMap_map, List.filterMap_map]
    constructor
    · exact List.filterMap_some
    · exact List.filterMap_none operands
  | cons word words ih =>
    cases hc : closesOperand word with
    | true =>
      rw [resume_of_closes hc]
      exact ⟨ih.1, congrArg (word :: ·) ih.2⟩
    | false =>
      rw [resume_of_not_closes hc]
      exact ⟨(h words).1, congrArg (word :: ·) (h words).2⟩

/-- The stream of two lists has the operands and the words of both, in their order. -/
lemma filterMap_interleave (operands words : List String) :
    (interleave operands words).filterMap Token.operand? = operands ∧
      (interleave operands words).filterMap Token.operator? = words := by
  induction operands generalizing words with
  | nil =>
    rw [interleave, List.filterMap_map, List.filterMap_map]
    constructor
    · exact List.filterMap_none words
    · exact List.filterMap_some
  | cons operand operands ih =>
    induction words with
    | nil =>
      rw [interleave_of_not_opens (by simp)]
      obtain ⟨ho, hw⟩ := filterMap_resume ih []
      exact ⟨congrArg (operand :: ·) ho, hw⟩
    | cons word words ihw =>
      cases hc : opensOperand word with
      | true =>
        rw [interleave_of_opens hc]
        exact ⟨ihw.1, congrArg (word :: ·) ihw.2⟩
      | false =>
        rw [interleave_of_not_opens (by simpa using hc)]
        obtain ⟨ho, hw⟩ := filterMap_resume ih (word :: words)
        exact ⟨congrArg (operand :: ·) ho, hw⟩

/-! ### A stream made again of its parts -/

namespace Alternates

/-- Where an operand is due there is one. -/
lemma exists_operand {turn : Turn} (h : Alternates turn tokens) (ht : turn = .operand) :
    ∃ operand operands, tokens.filterMap Token.operand? = operand :: operands := by
  induction h with
  | opening _ _ ih => exact ih ht
  | @operand text tokens => exact ⟨text, tokens.filterMap Token.operand?, rfl⟩
  | closing => cases ht
  | binary => cases ht
  | done => cases ht

/-- No word that opens an operand stands after one. -/
lemma not_opens (h : Alternates .operator tokens) :
    ∀ word ∈ ((tokens.filterMap Token.operator?).map Text.trim).head?,
      opensOperand word = false := by
  cases h with
  | closing hm =>
    rintro word ⟨⟩
    rw [Mark.trim_eq_word hm]
    decide
  | binary hm =>
    rintro word ⟨⟩
    exact (Mark.binary_trim hm).1
  | done => simp

/-- A stream in which operands and operators alternate is the stream of its two lists. -/
lemma stream_eq {turn : Turn} (h : Alternates turn tokens) :
    turn.stream (tokens.filterMap Token.operand?)
      ((tokens.filterMap Token.operator?).map Text.trim) = tokens.map Token.trimmed := by
  induction h with
  | @opening text tokens hm ht ih =>
    obtain ⟨operand, operands, ho⟩ := ht.exists_operand rfl
    show interleave (tokens.filterMap Token.operand?)
      (Text.trim text :: (tokens.filterMap Token.operator?).map Text.trim) = _
    rw [ho] at ih ⊢
    rw [interleave_of_opens (Mark.opensOperand_trim hm)]
    exact congrArg (Token.operator _ :: ·) ih
  | operand ht ih =>
    exact (interleave_of_not_opens ht.not_opens).trans (congrArg (Token.operand _ :: ·) ih)
  | closing hm _ ih =>
    exact (resume_of_closes (Mark.closesOperand_trim hm)).trans
      (congrArg (Token.operator _ :: ·) ih)
  | binary hm _ ih =>
    exact (resume_of_not_closes (Mark.binary_trim hm).2).trans
      (congrArg (Token.operator _ :: ·) ih)
  | done => rfl

end Alternates

/-! ### Blanks around operators -/

/-- The blanks around a token do not matter for its item. -/
lemma Token.item_trimmed (token : Token) : token.trimmed.item = token.item := by
  cases token with
  | operand text => rfl
  | operator text =>
    unfold Token.item Token.trimmed
    dsimp only
    rw [Mark.ofText?_trim, (Text.trimmed_trim text).trim_eq]

/-- The blanks around tokens do not matter for their dimension. -/
lemma Dimension.infer_map_trimmed (tokens : List Token) :
    infer (tokens.map Token.trimmed) = infer tokens := by
  have hs (found : Option Dimension) (token : Token) :
      step found token.trimmed = step found token := by
    cases token with
    | operand text => rfl
    | operator text => rfl
  have hl (token : Token) : isLogical token.trimmed = isLogical token := by
    cases token with
    | operand text => rfl
    | operator text =>
      unfold isLogical Token.trimmed
      dsimp only
      rw [Mark.ofText?_trim]
  unfold infer
  simp only [List.foldl_map, List.any_map, Function.comp_def, hs, hl]

/-- Blanks around operators do not count. -/
lemma evaluate_map_trimmed (tokens : List Token) :
    evaluate (tokens.map Token.trimmed) = evaluate tokens := by
  by_cases hl : ∃ operand, tokens = [.operand operand]
  · obtain ⟨operand, rfl⟩ := hl
    rfl
  · have hlone (operand : String) (h : tokens = [.operand operand]) : False := hl ⟨operand, h⟩
    have htrimmed (operand : String) (h : tokens.map Token.trimmed = [.operand operand]) :
        False := by
      obtain ⟨token, rfl, ht⟩ := List.map_eq_singleton_iff.1 h
      cases token with
      | operand text => exact hl ⟨text, rfl⟩
      | operator text => cases ht
    have hi : Token.item ∘ Token.trimmed = Token.item := by
      funext token
      exact token.item_trimmed
    rw [evaluate_of_not_lone hlone, evaluate_of_not_lone htrimmed, List.mapM_map,
      Dimension.infer_map_trimmed, hi]

/-! ### Streams that have a text -/

/-- A term is an operator. -/
def Term.isOp : Term → Bool
  | op _ => true
  | value _ => false

/-- A sequence that denotes a value has one operator less than it has values. -/
lemma Denotes.length_eq {ops : List Operator} {v : Scalar} (h : Denotes ops terms v) :
    terms.length = 2 * terms.countP Term.isOp + 1 := by
  induction h with
  | operand => rfl
  | tighter _ ih => exact ih
  | apply _ _ _ ihl ihr =>
    rw [List.length_append, List.length_cons, List.countP_append,
      List.countP_cons_of_pos (by rfl), ihl, ihr]
    omega

/-- The parentheses of a span match. -/
lemma Reads.balanced_append (h : Reads items n terms) (depth : Nat) (rest : List Mark) :
    balanced depth (items.filterMap Item.mark? ++ rest) = balanced depth rest := by
  induction h generalizing depth rest with
  | nil => rfl
  | value _ ih => exact ih depth rest
  | @op o items n terms _ ih =>
    show balanced depth (.binary o :: (items.filterMap Item.mark? ++ rest)) = _
    rw [balanced, ih]
  | @negation items n terms _ ih =>
    show balanced depth (.negation :: (items.filterMap Item.mark? ++ rest)) = _
    rw [balanced, ih]
  | @group inside k operands u v items n terms _ _ _ _ ihi ih =>
    have hm :
        (Item.mark .opening :: inside ++ .mark .closing :: items).filterMap Item.mark? ++ rest =
        .opening :: (inside.filterMap Item.mark? ++
          .closing :: (items.filterMap Item.mark? ++ rest)) := by
      simp [Item.mark?]
    rw [hm, balanced, ihi, balanced, ih]

/-- Counting a group as one value, the values and the operators of a span are those that are read.
Inside a group there is one operator less than there are values, so it does not matter whether it is
counted as one value or by what is in it. -/
lemma Reads.count_eq (h : Reads items n terms) :
    (items.map Item.mark?).count none + 2 * terms.countP Term.isOp =
      (items.filterMap Item.mark?).countP Mark.isBinary + terms.length := by
  induction h with
  | nil => rfl
  | value _ ih => grind [Item.mark?, Term.isOp]
  | op _ ih => grind [Item.mark?, Term.isOp, Mark.isBinary]
  | negation _ ih => grind [Item.mark?, Mark.isBinary]
  | group _ hd _ _ ihi ih =>
    have hg := hd.length_eq
    grind [Item.mark?, Term.isOp, Mark.isBinary]

/-- The operands of a stream are the values among its items. -/
lemma length_operands_of_forall₂
    (h : List.Forall₂ (fun token item => Token.item token = .ok item) tokens items) :
    (tokens.filterMap Token.operand?).length = (items.map Item.mark?).count none := by
  induction h with
  | nil => rfl
  | @cons token item _ _ hi _ ih =>
    cases token with
    | operand text =>
      cases hi
      grind [Token.operand?, Item.mark?]
    | operator text =>
      obtain ⟨m, -, rfl⟩ := exists_mark_of_item hi
      grind [Token.operand?, Item.mark?]

/-- The marks of a stream are those of its operators. -/
lemma filterMap_mark? (tokens : List Token) :
    tokens.filterMap Token.mark? = (tokens.filterMap Token.operator?).filterMap Mark.ofText? := by
  rw [List.filterMap_filterMap]
  congr 1
  funext token
  cases token <;> rfl

/-- A stream that has a text has one binary operator less than operands, and its parentheses
match. -/
lemma count_of_evaluate (h : evaluate tokens = .ok text) :
    (tokens.filterMap Token.mark?).countP Mark.isBinary + 1 =
        (tokens.filterMap Token.operand?).length ∧
      balanced 0 (tokens.filterMap Token.mark?) = true := by
  by_cases hl : ∃ operand, tokens = [.operand operand]
  · obtain ⟨operand, rfl⟩ := hl
    exact ⟨rfl, rfl⟩
  · obtain ⟨items, n, terms, u, v, hi, -, hr, hd, -, -⟩ :=
      exists_reads_of_evaluate h fun operand he => hl ⟨operand, he⟩
    have hf := forall₂_of_mapM_item hi
    have hm : tokens.filterMap Token.mark? = items.filterMap Item.mark? := by
      have marks := congrArg (List.filterMap id) (map_mark?_of_forall₂ hf)
      rwa [List.filterMap_map, List.filterMap_map, Function.id_comp, Function.id_comp] at marks
    constructor
    · have hc := hr.count_eq
      have hn := hd.length_eq
      rw [hm, length_operands_of_forall₂ hf]
      omega
    · rw [hm, ← List.append_nil (items.filterMap Item.mark?), hr.balanced_append]
      rfl

/-- A stream in which operands and operators alternate has the same text, or fails alike, whether it
is evaluated as it is or given in its operands and its operators with any blanks around these. Of
any two lists, the stream that is evaluated has all operands and all words, in their order. So it
has a text only if there is one binary operator less than there are operands, and the parentheses
match. -/
theorem parts_evaluate_as_stream :
    (∀ tokens words, Alternates .operand tokens →
        words.map Text.trim = (tokens.filterMap Token.operator?).map Text.trim →
        evaluateApart (tokens.filterMap Token.operand?) words = evaluate tokens) ∧
      ∀ operands words,
        let stream := interleave operands (words.map Text.trim)
        evaluateApart operands words = evaluate stream ∧
          stream.filterMap Token.operand? = operands ∧
          stream.filterMap Token.operator? = words.map Text.trim ∧
          ∀ text, evaluateApart operands words = .ok text →
            (words.filterMap Mark.ofText?).countP Mark.isBinary + 1 = operands.length ∧
              balanced 0 (words.filterMap Mark.ofText?) = true := by
  constructor
  · intro tokens words ha hw
    have hs : interleave (tokens.filterMap Token.operand?) (words.map Text.trim) =
        tokens.map Token.trimmed := by
      rw [hw]
      exact ha.stream_eq
    rw [evaluateApart, hs, evaluate_map_trimmed]
  · intro operands words stream
    obtain ⟨ho, hw⟩ := filterMap_interleave operands (words.map Text.trim)
    refine ⟨rfl, ho, hw, ?_⟩
    intro text ht
    have hm : stream.filterMap Token.mark? = words.filterMap Mark.ofText? := by
      rw [filterMap_mark?, hw, List.filterMap_map]
      simp only [Function.comp_def, Mark.ofText?_trim]
    obtain ⟨hc, hb⟩ := count_of_evaluate ht
    rw [hm] at hc hb
    exact ⟨hc.trans (congrArg List.length ho), hb⟩

/-- A negated comparison in parentheses, and a lone truth value. -/
def negatedGroup : List Token :=
  [.operator "not", .operator "(", .operand "1", .operator "<", .operand "2", .operator ")",
    .operator "and", .operand "true"]

/-- A negated group is evaluated from its operands and operators apart. -/
theorem parts_evaluate_as_stream_group :
    Alternates .operand negatedGroup ∧
      evaluateApart ["1", "2", "true"] [" not", "(\n", "\t< ", ")", "and"] =
        evaluate negatedGroup ∧
      evaluate negatedGroup = .ok "false" := by
  have alternates : Alternates .operand negatedGroup :=
    .opening (.inr rfl) (.opening (.inl rfl) (.operand (.binary rfl (.operand (.closing rfl
      (.binary rfl (.operand .done)))))))
  refine ⟨alternates, ?_, by decide +kernel⟩
  exact parts_evaluate_as_stream.1 negatedGroup _ alternates (by decide +kernel)

end Stylesheet.Expr
