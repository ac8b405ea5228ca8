import Stylesheet.Expr.Reduce
import Mathlib.Tactic.Lemma

/-!
# Precedence

`Denotes` gives the value of a sequence of operands and operators by the grammar of its levels of
precedence. The operators are folded level by level from the tightest on, and the main statement is
that this finds that value: `foldLevels_eq_ok_iff`. One level of folding is described by `Folded`,
which puts a value in the place of each chain of the operator.
-/

namespace Stylesheet.Expr

/-- The value of a sequence of operands and operators. The operators are given from the loosest on.
Each has a level of its own and associates to the left: a sequence of its level is one of the
tighter levels, or it is made of one of its level, the operator, and one of the tighter levels. -/
inductive Denotes : List Operator → List Term → Scalar → Prop where
  | operand {v} :
    Denotes [] [.value v] v
  | tighter {op ops terms v} :
    Denotes ops terms v →
    Denotes (op :: ops) terms v
  | apply {op ops lhs rhs a b v} :
    Denotes (op :: ops) lhs a →
    Denotes ops rhs b →
    Scalar.apply op a b = .ok v →
    Denotes (op :: ops) (lhs ++ .op op :: rhs) v

/-- The operators from the one that binds loosest to the one that binds tightest. -/
def loosestFirst : List Operator := [.gt, .lt, .ge, .le, .eq, .or, .and, .sub, .add, .div, .mul]

/-- A sequence and what becomes of it when one operator is folded: each chain of the operator is
replaced by its value, and the other operators stay. -/
inductive Folded (op : Operator) : List Term → List Term → Prop where
  | nil :
    Folded op [] []
  | chain {chain v terms out} :
    Denotes [op] chain v →
    Folded op terms out →
    Folded op (chain ++ terms) (.value v :: out)
  | other {o terms out} :
    o ≠ op →
    Folded op terms out →
    Folded op (.op o :: terms) (.op o :: out)

variable {op : Operator} {ops : List Operator} {terms out : List Term} {v : Scalar}

/-- Without operators only a value denotes it. -/
lemma denotes_nil_iff : Denotes [] terms v ↔ terms = [.value v] := by
  constructor
  · intro h
    cases h
    rfl
  · rintro rfl
    exact .operand

namespace Folded

/-- Terms that are folded one after the other are folded together. -/
lemma append {terms' out' : List Term} (h : Folded op terms out) (h' : Folded op terms' out') :
    Folded op (terms ++ terms') (out ++ out') := by
  induction h with
  | nil => exact h'
  | chain hc _ ih =>
    rw [List.append_assoc]
    exact .chain hc ih
  | other ho _ ih => exact .other ho ih

/-- What is folded to two parts is made of two parts. -/
lemma exists_append {left right : List Term} (h : Folded op terms (left ++ right)) :
    ∃ lhs rhs, terms = lhs ++ rhs ∧ Folded op lhs left ∧ Folded op rhs right := by
  induction left generalizing terms with
  | nil => exact ⟨[], terms, rfl, .nil, h⟩
  | cons term left ih =>
    cases h with
    | @chain chain v rest _ hc h =>
      obtain ⟨lhs, rhs, rfl, hl, hr⟩ := ih h
      exact ⟨chain ++ lhs, rhs, (List.append_assoc ..).symm, .chain hc hl, hr⟩
    | @other o rest _ ho h =>
      obtain ⟨lhs, rhs, rfl, hl, hr⟩ := ih h
      exact ⟨.op o :: lhs, rhs, rfl, .other ho hl, hr⟩

end Folded

/-! ### Folding one level -/

/-- A sequence succeeds exactly if both parts do. -/
lemma bind_eq_ok_iff {ε α β : Type} {result : Except ε α} {next : α → Except ε β} {b : β} :
    result >>= next = .ok b ↔ ∃ a, result = .ok a ∧ next a = .ok b := by
  cases result <;> simp [bind, Except.bind]

/-- A value is passed. -/
lemma foldLevel_value (passed : List Term) (v : Scalar) (terms : List Term) :
    foldLevel op passed (.value v :: terms) = foldLevel op (.value v :: passed) terms := by
  rw [foldLevel]

/-- Another operator is passed. -/
lemma foldLevel_other {o : Operator} (ho : o ≠ op) (passed terms : List Term) :
    foldLevel op passed (.op o :: terms) = foldLevel op (.op o :: passed) terms := by
  rcases passed with _ | ⟨_ | _, passed⟩ <;> rcases terms with _ | ⟨_ | _, terms⟩ <;>
    simp [foldLevel, ho]

/-- An operator is applied to the values on both sides. -/
lemma foldLevel_apply {a b x : Scalar} (hx : Scalar.apply op a b = .ok x)
    (passed terms : List Term) :
    foldLevel op (.value a :: passed) (.op op :: .value b :: terms) =
      foldLevel op (.value x :: passed) terms := by
  rw [foldLevel, if_pos rfl, hx]
  rfl

/-- A chain of one operator is folded to its value. -/
lemma foldLevel_chain {chain : List Term} (h : Denotes [op] chain v) (passed terms : List Term) :
    foldLevel op passed (chain ++ terms) = foldLevel op (.value v :: passed) terms := by
  -- The chain associates to the left, as it is folded, so the induction is on its left part.
  generalize e : [op] = levels at h
  induction h generalizing terms with
  | operand => cases e
  | tighter h _ =>
    cases e
    obtain rfl := denotes_nil_iff.1 h
    exact foldLevel_value passed _ terms
  | apply _ hr hv ihl _ =>
    cases e
    obtain rfl := denotes_nil_iff.1 hr
    rw [List.append_assoc, ihl _ rfl]
    exact foldLevel_apply hv passed terms

/-- Folding a level puts the value of each chain in its place. -/
lemma Folded.foldLevel (h : Folded op terms out) (passed : List Term) :
    foldLevel op passed terms = .ok (passed.reverse ++ out) := by
  induction h generalizing passed with
  | nil => simp [Expr.foldLevel]
  | chain hc _ ih =>
    rw [foldLevel_chain hc, ih]
    simp
  | other ho _ ih =>
    rw [foldLevel_other ho, ih]
    simp

/-- What folding a level gives is the sequence with the value of each chain in its place. What was
passed before is the folded form of a sequence `before`. -/
lemma folded_of_foldLevel {passed before : List Term} (h : foldLevel op passed terms = .ok out)
    (hp : Folded op before passed.reverse) : Folded op (before ++ terms) out := by
  fun_induction Expr.foldLevel op passed terms generalizing before with
  | case1 passed =>
    cases h
    simpa using hp
  | case2 a passed b rest ih =>
    obtain ⟨x, hx, h⟩ := bind_eq_ok_iff.1 h
    rw [List.reverse_cons] at hp
    obtain ⟨lhs, rhs, rfl, hl, hr⟩ := hp.exists_append
    cases hr with
    | @chain chain _ _ _ hc hn =>
      -- The last value that was passed stands for a chain, which the operator and `b` extend.
      cases hn
      have hx : Folded op (chain ++ .op op :: [.value b] ++ []) [.value x] :=
        .chain (.apply hc .operand hx) .nil
      have hf : Folded op ((lhs ++ (chain ++ [.op op, .value b])) ++ rest) out :=
        ih x h (by simpa using hl.append hx)
      simpa using hf
  | case3 a passed o b rest ho ih =>
    have hb : Folded op (.op o :: [.value b] ++ []) [.op o, .value b] :=
      .other ho (.chain (.tighter .operand) .nil)
    have hf : Folded op ((before ++ [.op o, .value b]) ++ rest) out :=
      ih h (by simpa using hp.append hb)
    simpa using hf
  | case4 => cases h
  | case5 passed o rest _ ho ih =>
    have hf : Folded op ((before ++ [.op o]) ++ rest) out :=
      ih h (by simpa using hp.append (.other ho .nil))
    simpa using hf
  | case6 passed v rest ih =>
    have hv : Folded op ([.value v] ++ []) [.value v] := .chain (.tighter .operand) .nil
    have hf : Folded op ((before ++ [.value v]) ++ rest) out := ih h (by simpa using hp.append hv)
    simpa using hf

/-- One level is folded exactly to what it folds to. -/
lemma foldLevel_eq_ok_iff : foldLevel op [] terms = .ok out ↔ Folded op terms out :=
  ⟨fun h => folded_of_foldLevel h .nil, fun h => h.foldLevel []⟩

/-! ### Folding every level -/

/-- A sequence has the value of what it is folded to, when the folded operator is the tightest. -/
lemma Folded.denotes (hf : Folded op terms out) (h : Denotes ops out v) :
    Denotes (ops ++ [op]) terms v := by
  induction h generalizing terms with
  | operand =>
    cases hf with
    | chain hc hn =>
      cases hn
      simpa using hc
  | tighter _ ih => exact .tighter (ih hf)
  | apply _ _ hx ihl ihr =>
    obtain ⟨lhs, rhs, rfl, hl, hr⟩ := hf.exists_append
    cases hr with
    | other _ hr => exact .apply (ihl hl) (ihr hr) hx

/-- A sequence that has a value can be folded at its tightest operator, and keeps the value. -/
lemma Denotes.exists_folded (h : Denotes (ops ++ [op]) terms v) (hop : op ∉ ops) :
    ∃ out, Folded op terms out ∧ Denotes ops out v := by
  generalize e : ops ++ [op] = levels at h
  induction h generalizing ops with
  | operand => simp at e
  | @tighter o levels terms v h ih =>
    cases ops with
    | nil =>
      -- The operator is the only one left: the whole sequence is one chain.
      cases e
      exact ⟨[.value v], by simpa using Folded.chain (.tighter h) .nil, .operand⟩
    | cons _ ops =>
      cases e
      obtain ⟨out, hf, hd⟩ := ih (List.not_mem_of_not_mem_cons hop) rfl
      exact ⟨out, hf, .tighter hd⟩
  | @apply o levels lhs rhs a b v hl hr hx ihl ihr =>
    cases ops with
    | nil =>
      cases e
      exact ⟨[.value v], by simpa using Folded.chain (.apply hl hr hx) .nil, .operand⟩
    | cons _ ops =>
      cases e
      obtain ⟨left, hfl, hdl⟩ := ihl hop rfl
      obtain ⟨right, hfr, hdr⟩ := ihr (List.not_mem_of_not_mem_cons hop) rfl
      have ho : o ≠ op := (List.ne_of_not_mem_cons hop).symm
      exact ⟨left ++ .op o :: right, hfl.append (.other ho hfr), .apply hdl hdr hx⟩

/-- The levels of a list of different operators, the tightest first, are folded to a value when the
sequence has it. -/
lemma foldlM_foldLevel_eq_ok_iff {levels : List Operator} (hl : levels.Nodup) :
    levels.foldlM (fun terms op => foldLevel op [] terms) terms = .ok [.value v] ↔
      Denotes levels.reverse terms v := by
  induction levels generalizing terms with
  | nil => simp [denotes_nil_iff, pure, Except.pure]
  | cons op levels ih =>
    obtain ⟨hop, hl⟩ := List.nodup_cons.1 hl
    simp only [List.foldlM_cons, bind_eq_ok_iff, foldLevel_eq_ok_iff, ih hl, List.reverse_cons]
    constructor
    · rintro ⟨out, hf, hd⟩
      exact hf.denotes hd
    · intro h
      exact h.exists_folded (by simpa using hop)

/-- Folding every level finds the value of a sequence, and ends in another way where there is
none. -/
lemma foldLevels_eq_ok_iff :
    foldLevels terms = .ok [.value v] ↔ Denotes loosestFirst terms v :=
  foldlM_foldLevel_eq_ok_iff (by decide)

end Stylesheet.Expr
