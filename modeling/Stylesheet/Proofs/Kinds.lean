import Stylesheet.Proofs.Alphabet

/-!
# The kind of a result

Of the operators of an expression, those outside all parentheses decide what kind of text it gives.
The logical ones are folded after the arithmetic ones, so with one of them the text is a truth
value, whatever the dimension of the expression is. Without them, it is a number in that dimension
(`outer_operators_decide_kind`).
-/

namespace Stylesheet.Expr

/-- The mark that a token stands for, if it is an operator that is known. -/
def Token.mark? : Token → Option Mark
  | .operand _ => none
  | .operator text => Mark.ofText? text

/-- The mark of an item that is no value. -/
def Item.mark? : Item → Option Mark
  | .value _ => none
  | .mark m => some m

/-- The marks of a stream outside all parentheses, without the parentheses. The first argument
counts those that are open. -/
def outerMarks : Nat → List (Option Mark) → List Mark
  | _, [] => []
  | depth, some .opening :: rest => outerMarks (depth + 1) rest
  | depth, some .closing :: rest => outerMarks (depth - 1) rest
  | 0, some m :: rest => m :: outerMarks 0 rest
  | depth, _ :: rest => outerMarks depth rest

/-- The text of a number in a dimension. -/
inductive Dimension.Writes (x : Float) : Dimension → String → Prop where
  | plain {d} :
    d ∈ [integer, real, boolean] →
    Writes x d (Number.render x)
  | pixel :
    Writes x pixel (Number.render x ++ "px")
  | percent :
    Writes x percent (Number.render x ++ "%")
  | colour {digits} :
    Number.hexDigits? x = some digits →
    Writes x colour ("#" ++ digits)

variable {tokens : List Token} {items : List Item} {n : Nat} {terms : List Term}
  {ops : List Operator} {o : Operator} {v : Scalar}

/-! ### The marks of a span -/

/-- An operator token that is read is a mark. -/
lemma exists_mark_of_item {text : String} {item : Item}
    (h : (Token.operator text).item = .ok item) :
    ∃ m, Mark.ofText? text = some m ∧ item = .mark m := by
  unfold Token.item at h
  dsimp only at h
  split at h
  · next m hm =>
    cases h
    exact ⟨m, hm, rfl⟩
  · cases h

/-- The items of a stream stand for its tokens, one by one. -/
lemma forall₂_of_mapM_item (h : tokens.mapM Token.item = .ok items) :
    List.Forall₂ (fun token item => token.item = .ok item) tokens items := by
  induction tokens generalizing items with
  | nil =>
    cases h
    exact .nil
  | cons token tokens ih =>
    rw [List.mapM_cons] at h
    obtain ⟨item, hi, h⟩ := bind_eq_ok_iff.1 h
    obtain ⟨rest, hr, h⟩ := bind_eq_ok_iff.1 h
    cases h
    exact .cons hi (ih hr)

/-- The items of a stream have the marks of its tokens. -/
lemma map_mark?_of_forall₂
    (h : List.Forall₂ (fun token item => Token.item token = .ok item) tokens items) :
    tokens.map Token.mark? = items.map Item.mark? := by
  induction h with
  | nil => rfl
  | @cons token item _ _ hi _ ih =>
    rw [List.map_cons, List.map_cons, ih]
    congr 1
    cases token with
    | operand text =>
      cases hi
      rfl
    | operator text =>
      obtain ⟨m, hm, rfl⟩ := exists_mark_of_item hi
      exact hm

/-- Inside parentheses there are no marks outside all of them. -/
lemma Reads.outerMarks_succ (h : Reads items n terms) (depth : Nat) (rest : List (Option Mark)) :
    outerMarks (depth + 1) (items.map Item.mark? ++ rest) = outerMarks (depth + 1) rest := by
  induction h generalizing depth rest with
  | nil => rfl
  | value _ ih => exact ih depth rest
  | op _ ih => exact ih depth rest
  | negation _ ih => exact ih depth rest
  | @group inside k operands u v items n terms _ _ _ _ ihi ih =>
    have hm : (Item.mark .opening :: inside ++ .mark .closing :: items).map Item.mark? ++ rest =
        some .opening :: (inside.map Item.mark? ++
          some .closing :: (items.map Item.mark? ++ rest)) := by
      simp [Item.mark?]
    rw [hm, outerMarks, ihi, outerMarks]
    exact ih depth rest

/-- A group has no marks outside all parentheses. -/
lemma Reads.outerMarks_group {inside : List Item} (h : Reads inside n terms) :
    outerMarks 0 ((.mark .opening :: inside ++ .mark .closing :: items).map Item.mark?) =
      outerMarks 0 (items.map Item.mark?) := by
  have hm : (Item.mark .opening :: inside ++ .mark .closing :: items).map Item.mark? =
      some .opening :: (inside.map Item.mark? ++ some .closing :: items.map Item.mark?) := by
    simp [Item.mark?]
  rw [hm, outerMarks, h.outerMarks_succ, outerMarks]

/-- The operators outside all parentheses are those that are read. -/
lemma Reads.binary_mem_iff (h : Reads items n terms) :
    .binary o ∈ outerMarks 0 (items.map Item.mark?) ↔ .op o ∈ terms := by
  induction h with
  | nil => simp [outerMarks]
  | value _ ih => simpa [outerMarks, Item.mark?] using ih
  | op _ ih => simp [outerMarks, Item.mark?, ih]
  | negation _ ih => simpa [outerMarks, Item.mark?] using ih
  | group hi _ _ _ _ ih =>
    rw [hi.outerMarks_group, ih]
    simp

/-- The negations outside all parentheses are those that are set aside. -/
lemma Reads.negation_mem_iff (h : Reads items n terms) :
    .negation ∈ outerMarks 0 (items.map Item.mark?) ↔ 0 < n := by
  induction h with
  | nil => simp [outerMarks]
  | value _ ih => simpa [outerMarks, Item.mark?] using ih
  | op _ ih => simpa [outerMarks, Item.mark?] using ih
  | negation _ _ => simp [outerMarks, Item.mark?]
  | group hi _ _ _ _ ih => rwa [hi.outerMarks_group]

/-! ### The value of a span -/

/-- The operators among terms with a value are known. -/
lemma Denotes.mem_of_op_mem (h : Denotes ops terms v) (ho : .op o ∈ terms) : o ∈ ops := by
  induction h with
  | operand => simp at ho
  | tighter _ ih => exact List.mem_cons_of_mem _ (ih ho)
  | apply _ _ _ ihl ihr =>
    rw [List.mem_append, List.mem_cons] at ho
    obtain ho | ho | ho := ho
    · exact ihl ho
    · cases ho
      exact List.mem_cons_self
    · exact List.mem_cons_of_mem _ (ihr ho)

/-- A sequence with operators, all of them arithmetic, denotes a number. -/
lemma Denotes.exists_number (h : Denotes ops terms v) (ho : .op o ∈ terms)
    (ha : ∀ o, .op o ∈ terms → o.isArithmetic = true) : ∃ x, v = .number x := by
  induction h with
  | operand => simp at ho
  | tighter _ ih => exact ih ho ha
  | @apply op _ _ _ _ _ _ _ _ hv =>
    obtain ⟨-, hx⟩ | ⟨hop, -⟩ := exists_of_apply hv
    · exact hx
    · rw [ha op (by simp)] at hop
      cases hop

/-- Where the arithmetic operators bind tightest, a sequence with one that is not arithmetic denotes
a truth value. -/
lemma Denotes.exists_bool (h : Denotes ops terms v)
    (ht : ops.Pairwise fun a b => a.isArithmetic = true → b.isArithmetic = true)
    (ho : .op o ∈ terms) (hl : o.isArithmetic = false) : ∃ b, v = .bool b := by
  induction h with
  | operand => simp at ho
  | tighter _ ih => exact ih (List.pairwise_cons.1 ht).2 ho
  | @apply op ops lhs rhs a b v hlhs hrhs hv =>
    obtain ⟨hop, -⟩ | ⟨-, hb⟩ := exists_of_apply hv
    · -- The operator that is folded last is arithmetic, and all others bind tighter.
      have hm : o ∈ op :: ops := (Denotes.apply hlhs hrhs hv).mem_of_op_mem ho
      obtain rfl | hm := List.mem_cons.1 hm
      · rw [hop] at hl
        cases hl
      · rw [(List.pairwise_cons.1 ht).1 o hm hop] at hl
        cases hl
    · exact hb

/-- A span with a logical operator outside all parentheses has a truth value. -/
lemma Reads.exists_bool_of_logical {m : Mark} {u : Scalar} (h : Reads items n terms)
    (hd : Denotes loosestFirst terms u) (hn : Negated n u v)
    (hm : m ∈ outerMarks 0 (items.map Item.mark?)) (hl : m.isLogical = true) :
    ∃ b, v = .bool b := by
  -- Either a negation asks for a truth value, or an operator computes one.
  cases m with
  | opening => cases hl
  | closing => cases hl
  | negation =>
    have hp := h.negation_mem_iff.1 hm
    cases hn with
    | none => exact absurd hp (Nat.lt_irrefl 0)
    | some => exact ⟨_, rfl⟩
  | binary o =>
    have loose : o.isArithmetic = false := by simpa [Mark.isLogical] using hl
    obtain ⟨b, rfl⟩ := hd.exists_bool (by decide) (h.binary_mem_iff.1 hm) loose
    cases hn with
    | none => exact ⟨b, rfl⟩
    | some => exact ⟨_, rfl⟩

/-! ### The text of a stream -/

/-- Tokens other than a lone operand are evaluated by reducing their items. -/
lemma evaluate_of_not_lone (h : ∀ operand, tokens ≠ [.operand operand]) :
    evaluate tokens = (do
      let items ← tokens.mapM Token.item
      let v ← reduce items
      v.renderIn (Dimension.infer tokens)) := by
  rw [evaluate]
  exact h

/-- A stream that is more than an operand is read, and its value is written in its dimension. -/
lemma exists_reads_of_evaluate {text : String} (h : evaluate tokens = .ok text)
    (hl : ∀ operand, tokens ≠ [.operand operand]) :
    ∃ items n terms u v, tokens.mapM Token.item = .ok items ∧ reduce items = .ok v ∧
      Reads items n terms ∧ Denotes loosestFirst terms u ∧ Negated n u v ∧
      v.renderIn (Dimension.infer tokens) = .ok text := by
  rw [evaluate_of_not_lone hl] at h
  obtain ⟨items, hi, h⟩ := bind_eq_ok_iff.1 h
  obtain ⟨v, hv, h⟩ := bind_eq_ok_iff.1 h
  obtain ⟨closed, hc, hr⟩ := reduce_eq_ok_iff_reduceSpan.1 hv
  obtain ⟨n, terms, u, hs, hd, hn⟩ := reduceSpan_eq_ok_iff.1 hr
  exact ⟨items, n, terms, u, v, hi, hv, reads_of_closeGroups hc hs, hd, hn, h⟩

/-- A number that is rendered in a dimension is written in it. -/
lemma Dimension.writes_of_renderIn {d : Dimension} {x : Float} {text : String}
    (h : (Scalar.number x).renderIn d = .ok text) : d.Writes x text := by
  unfold Scalar.renderIn at h
  cases d <;> dsimp only at h
  case pixel =>
    cases h
    exact .pixel
  case percent =>
    cases h
    exact .percent
  case colour =>
    split at h
    · next digits hd =>
      cases h
      exact .colour hd
    · cases h
  all_goals
    cases h
    exact .plain (by simp)

/-- The text of a number has only characters of numbers. -/
lemma Dimension.Writes.over_numeric {d : Dimension} {x : Float} {text : String}
    (h : d.Writes x text) : Text.Over (· ∈ Text.numeric) text := by
  have hA : Text.Numeric (· ∈ Text.numeric) := fun _ hc => hc
  cases h with
  | plain => exact hA.over_render x
  | pixel => exact Text.over_append.2 ⟨hA.over_render x, hA.over_of_isNumeric rfl⟩
  | percent => exact Text.over_append.2 ⟨hA.over_render x, hA.over_of_isNumeric rfl⟩
  | colour hd => exact Text.over_append.2 ⟨hA.over_of_isNumeric rfl, hA.over_hexDigits hd⟩

/-- A number is not written as a truth value. -/
lemma Dimension.Writes.ne_bool {d : Dimension} {x : Float} {text : String} (h : d.Writes x text) :
    text ≠ "true" ∧ text ≠ "false" := by
  constructor
  · rintro rfl
    exact absurd (h.over_numeric 't' (by simp)) (by decide)
  · rintro rfl
    exact absurd (h.over_numeric 'l' (by simp)) (by decide)

/-- Whenever a stream has a text, the operators outside all parentheses decide its kind. If one of
them is logical, the text is a truth value. If there are binary operators and all are arithmetic,
the stream is reduced to a number, the text is that number in the dimension of the stream, and it is
no truth value. -/
theorem outer_operators_decide_kind {text : String} (h : evaluate tokens = .ok text) :
    let outer := outerMarks 0 (tokens.map Token.mark?)
    ((∃ m ∈ outer, m.isLogical = true) → text = "true" ∨ text = "false") ∧
      ((∃ o, .binary o ∈ outer) →
        (∀ m ∈ outer, ∃ o : Operator, m = .binary o ∧ o.isArithmetic = true) →
        ∃ items x, tokens.mapM Token.item = .ok items ∧ reduce items = .ok (.number x) ∧
          (Dimension.infer tokens).Writes x text ∧ text ≠ "true" ∧ text ≠ "false") := by
  intro outer
  by_cases hl : ∃ operand, tokens = [.operand operand]
  · obtain ⟨operand, rfl⟩ := hl
    have ho : outer = [] := rfl
    simp [ho]
  · obtain ⟨items, n, terms, u, v, hi, hv, hr, hd, hn, ht⟩ :=
      exists_reads_of_evaluate h fun operand he => hl ⟨operand, he⟩
    have houter : outer = outerMarks 0 (items.map Item.mark?) := by
      rw [← map_mark?_of_forall₂ (forall₂_of_mapM_item hi)]
    rw [houter]
    constructor
    · rintro ⟨m, hm, hlogical⟩
      obtain ⟨b, rfl⟩ := hr.exists_bool_of_logical hd hn hm hlogical
      cases ht
      cases b
      · exact .inr rfl
      · exact .inl rfl
    · rintro ⟨o, ho⟩ ha
      have harith (o : Operator) (ho : .op o ∈ terms) : o.isArithmetic = true := by
        obtain ⟨o', he, h⟩ := ha _ (hr.binary_mem_iff.2 ho)
        cases he
        exact h
      obtain ⟨x, rfl⟩ := hd.exists_number (hr.binary_mem_iff.1 ho) harith
      cases hn
      have hw := Dimension.writes_of_renderIn ht
      exact ⟨items, x, hi, hv, hw, hw.ne_bool⟩

/-- A comparison of a colour with a sum in pixels, which is negated. -/
def negatedComparison : List Token :=
  [.operator "not", .operand "#00f", .operator " <\t", .operator "(", .operand "1px",
    .operator "+", .operand "2px", .operator ")"]

/-- A colour times a sum. -/
def scaledColour : List Token :=
  [.operand "#00f", .operator "*", .operator "(", .operand "2", .operator "+", .operand "0.5",
    .operator ")"]

/-- A negated comparison gives a truth value and a scaled colour a colour. -/
theorem outer_operators_decide_kind_colours :
    (∃ text, evaluate negatedComparison = .ok text ∧
        Dimension.infer negatedComparison = .pixel ∧ (text = "true" ∨ text = "false")) ∧
      ∃ text items x, evaluate scaledColour = .ok text ∧
        scaledColour.mapM Token.item = .ok items ∧ reduce items = .ok (.number x) ∧
        Dimension.Writes x .colour text ∧ text ≠ "true" ∧ text ≠ "false" := by
  have compared : evaluate negatedComparison = .ok "true" := by decide +kernel
  have scaled : evaluate scaledColour = .ok "#26" := by decide +kernel
  have colour : Dimension.infer scaledColour = .colour := by decide +kernel
  constructor
  · have logical := (outer_operators_decide_kind compared).1
    exact ⟨"true", compared, by decide +kernel, logical ⟨.negation, by decide +kernel, rfl⟩⟩
  · have marks : outerMarks 0 (scaledColour.map Token.mark?) = [.binary .mul] := by decide +kernel
    have arithmetic := (outer_operators_decide_kind scaled).2
    rw [marks, colour] at arithmetic
    obtain ⟨items, x, number⟩ := arithmetic ⟨.mul, by simp⟩ (by simp [Operator.isArithmetic])
    exact ⟨"#26", items, x, scaled, number⟩

end Stylesheet.Expr
