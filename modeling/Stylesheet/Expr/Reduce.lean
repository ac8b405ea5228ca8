import Stylesheet.Expr.Scalar

/-!
# Reduction

A stream of values and marks is reduced to one value. Each group in parentheses is reduced first,
from left to right, and its value takes its place. Then the negations of the span are counted and
taken out, the binary operators are folded level by level, and the value that is left is negated as
often as was counted.
-/

namespace Stylesheet.Expr

/-- A value or a mark. -/
inductive Item where
  | value (v : Scalar)
  | mark (m : Mark)

/-- A value or a binary operator. -/
inductive Term where
  | value (v : Scalar)
  | op (o : Operator)

/-- The inside of a group whose opening parenthesis was read, and what follows its closing one. The
first argument counts the groups that are open inside it. -/
def splitGroup : Nat → List Item → Option (List Item × List Item)
  | _, [] => none
  | 0, .mark .closing :: rest => some ([], rest)
  | depth + 1, .mark .closing :: rest =>
    (splitGroup depth rest).map fun (inside, after) => (.mark .closing :: inside, after)
  | depth, .mark .opening :: rest =>
    (splitGroup (depth + 1) rest).map fun (inside, after) => (.mark .opening :: inside, after)
  | depth, item :: rest =>
    (splitGroup depth rest).map fun (inside, after) => (item :: inside, after)

/-- A group and what follows it are parts of what is read. -/
theorem length_of_splitGroup {depth : Nat} {items inside after : List Item}
    (h : splitGroup depth items = some (inside, after)) :
    inside.length + after.length + 1 = items.length := by
  fun_induction splitGroup depth items generalizing inside after with
  | case1 => simp at h
  | case2 => simp_all
  | case3 _ _ ih | case4 _ _ ih | case5 _ _ _ _ _ _ ih =>
    simp only [Option.map_eq_some_iff, Prod.mk.injEq, Prod.exists] at h
    obtain ⟨a, b, hab, rfl, rfl⟩ := h
    have := ih hab
    simp only [List.length_cons]
    omega

/-- One binary operator is folded from left to right. The first list holds what has been passed, the
last of it first. -/
def foldLevel (op : Operator) : List Term → List Term → Except Fault (List Term)
  | passed, [] => .ok passed.reverse
  | .value a :: passed, .op o :: .value b :: rest =>
    if o = op then do foldLevel op (.value (← Scalar.apply op a b) :: passed) rest
    else foldLevel op (.value b :: .op o :: .value a :: passed) rest
  | passed, .op o :: rest =>
    if o = op then .error (.missingOperand op) else foldLevel op (.op o :: passed) rest
  | passed, .value v :: rest => foldLevel op (.value v :: passed) rest

/-- The binary operators are folded, the tightest first. -/
def foldLevels (terms : List Term) : Except Fault (List Term) :=
  Operator.levels.foldlM (fun terms op => foldLevel op [] terms) terms

/-- The one value that is left. -/
def onlyValue : List Term → Except Fault Scalar
  | [.value v] => .ok v
  | [] => .error .empty
  | terms => .error (.unconnected terms.length)

/-- A value after a number of negations, which ask for a truth value. -/
def negate (count : Nat) (v : Scalar) : Except Fault Scalar :=
  if count = 0 then .ok v
  else do
    let b ← v.asBool Mark.negation.word
    return .bool (if count % 2 = 1 then !b else b)

/-- The terms of a span without groups and the number of its negations. Of parentheses only a
closing one can be left. -/
def spanTerms : List Item → Except Fault (Nat × List Term)
  | [] => .ok (0, [])
  | .value v :: rest => do
    let (count, terms) ← spanTerms rest
    return (count, .value v :: terms)
  | .mark (.binary o) :: rest => do
    let (count, terms) ← spanTerms rest
    return (count, .op o :: terms)
  | .mark .negation :: rest => do
    let (count, terms) ← spanTerms rest
    return (count + 1, terms)
  | .mark .closing :: _ => .error .unmatchedClosing
  | .mark .opening :: _ => .error .unmatchedOpening

/-- The value of a span without groups. -/
def reduceSpan (items : List Item) : Except Fault Scalar := do
  let (count, terms) ← spanTerms items
  if count > 0 ∧ terms.isEmpty then .error .nothingToNegate
  else negate count (← onlyValue (← foldLevels terms))

mutual

/-- The stream with a value in the place of each group. -/
def closeGroups (items : List Item) : Except Fault (List Item) :=
  match items with
  | [] => .ok []
  | .mark .opening :: rest =>
    match _h : splitGroup 0 rest with
    | none => .error .unmatchedOpening
    | some (inside, after) => do
      let v ← reduce inside
      return .value v :: (← closeGroups after)
  | item :: rest => do return item :: (← closeGroups rest)
termination_by 2 * items.length
decreasing_by
  · have := length_of_splitGroup _h
    simp only [List.length_cons]
    omega
  · have := length_of_splitGroup _h
    simp only [List.length_cons]
    omega
  · simp only [List.length_cons]
    omega

/-- The value of a stream. -/
def reduce (items : List Item) : Except Fault Scalar := do
  reduceSpan (← closeGroups items)
termination_by 2 * items.length + 1

end

end Stylesheet.Expr
