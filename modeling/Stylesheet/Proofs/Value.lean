import Stylesheet.Proofs.Discipline

/-!
# Values read the state

Rendering a value looks variables up and counts levels, and does nothing else to the state. The
lemmas say so for every lenient discipline; `Discipline.reading` is the strictest of them, and
`value_ok` what it says of a value that is rendered.
-/

namespace Stylesheet

/-- An argument stands below one of the children of the node that is given it. -/
lemma Node.mem_children_of_mem_arguments {node arg : Node} (h : arg ∈ node.arguments) :
    ∃ holder ∈ node.children, arg ∈ holder.children := by
  cases hf : node.find? .arguments with
  | none => simp [arguments, hf] at h
  | some holder => exact ⟨holder, mem_of_find?_eq_some hf, by simpa [arguments, hf] using h⟩

namespace Render

namespace Discipline.Lenient

variable {D : Discipline} (hD : D.Lenient)
include hD

/-- A reference only reads the state. -/
lemma reference (mode : Mode) (text : String) : D.Respects (reference mode text) := by
  unfold Render.reference
  refine respects_get.bind fun c => ?_
  cases mode with
  | emit =>
    dsimp only
    split
    · exact respects_pure _
    · split <;> exact respects_pure _
  | fold =>
    dsimp only
    split
    · exact respects_pure _
    · exact hD.fail (by simp)

omit hD in
/-- A snapshot keeps to a discipline if its value does. -/
lemma snapshot {node : Node} {step : Render String} (hs : D.Respects step) :
    D.Respects (snapshot node step) := by
  unfold Render.snapshot
  split
  · refine respects_get.bind fun c => ?_
    split <;> exact respects_pure _
  · exact hs

/-- An expression keeps to a discipline if its operands do. -/
lemma evaluateExpression {span : Span} {step : Render (List Expr.Token)} (hs : D.Respects step) :
    D.Respects (evaluateExpression span step) := by
  unfold Render.evaluateExpression
  simp only [locating_ensuring]
  refine hD.respects (Respects.locating ?_ (hD.locate span))
  refine hs.bind fun tokens => ?_
  split
  · exact hD.fail (by simp)
  · exact hD.lift (by simp)

/-- An argument that names a list only reads the state. -/
lemma listArgument (b : Builtin) (arg : Node) : D.Respects (listArgument b arg) := by
  unfold Render.listArgument
  split
  · refine respects_get.bind fun c => ?_
    split
    · exact respects_pure _
    · exact hD.fail (by simp)
  · exact hD.fail (by simp)

/-- A built-in function keeps to a discipline if its arguments do. -/
lemma callBuiltin (b : Builtin) {args : List Argument}
    (ha : ∀ arg ∈ args, ∀ mode, D.Respects (arg.render mode)) :
    D.Respects (callBuiltin b args) := by
  unfold Render.callBuiltin
  split
  · rename_i list rest
    refine (hD.listArgument _ list.node).bind fun _ => ?_
    exact hD.lift (by simp)
  · rename_i list index rest
    refine (ha index (by simp) .fold).bind fun _ => ?_
    refine (hD.listArgument _ list.node).bind fun _ => ?_
    exact hD.lift (by simp)
  · rename_i colour amount rest
    refine (ha colour (by simp) .fold).bind fun _ => ?_
    refine (ha amount (by simp) .fold).bind fun _ => ?_
    exact respects_pure _
  · rename_i colour amount rest
    refine (ha colour (by simp) .fold).bind fun _ => ?_
    refine (ha amount (by simp) .fold).bind fun _ => ?_
    exact respects_pure _
  · refine (respects_mapM fun arg harg => ha arg harg .fold).bind fun _ => ?_
    exact respects_pure _
  · exact hD.fail (by simp)

/-- A function keeps to a discipline if its arguments do. -/
lemma callFunction (name : String) {args : List Argument}
    (ha : ∀ arg ∈ args, ∀ mode, D.Respects (arg.render mode)) :
    D.Respects (callFunction name args) := by
  unfold Render.callFunction
  split
  · exact hD.callBuiltin _ ha
  · refine (respects_mapM fun arg harg => ha arg harg .emit).bind fun _ => ?_
    exact respects_pure _

/-- The entries of a map only read the state if the values below them do. -/
lemma mapEntries_of_below {node : Node}
    (hv : ∀ entry ∈ node.children, ∀ child ∈ entry.children, ∀ mode, D.Respects (value mode child))
    (mode : Mode) : D.Respects (mapEntries mode node) := by
  rw [Render.mapEntries]
  refine respects_mapM fun entry he => Respects.check (hD.fail (by simp)) fun _ => ?_
  refine (hD.layout (entry.child_fails 0)).bind fun key => ?_
  refine (hD.layout (entry.child_fails 1)).bind fun item => ?_
  have hi := hv entry he item.1 item.2
  cases mode with
  | emit => exact (snapshot (hi .emit)).bind fun _ => respects_pure _
  | fold => exact (hi .fold).bind fun _ => respects_pure _

/-- A value and the values directly below its node only read the state. -/
lemma value_and_below (node : Node) :
    (∀ mode, D.Respects (value mode node)) ∧
      ∀ child ∈ node.children, ∀ mode, D.Respects (value mode child) := by
  -- The arguments of a call and the values of a map stand two levels below the node, so the
  -- induction carries the children along.
  induction node using Node.childInduction with
  | step node ih =>
    have children (mode : Mode) : D.Respects (node.children.mapM (value mode)) :=
      respects_mapM fun child hc => (ih child hc).1 mode
    refine ⟨fun mode => ?_, fun child hc => (ih child hc).1⟩
    rw [value]
    cases hk : node.kind <;> dsimp only
    case literal | identifier | keyword | operator | selector => exact respects_pure _
    case reference => exact hD.reference mode node.text
    case expression =>
      refine hD.evaluateExpression (respects_mapM fun part hp => ?_)
      split
      · exact respects_pure _
      · exact ((ih part hp).1 .fold).bind fun _ => respects_pure _
    case call =>
      refine (hD.layout node.name_fails).bind fun name => ?_
      refine hD.callFunction name fun arg harg mode => ?_
      obtain ⟨⟨given, hgiven⟩, -, rfl⟩ := List.mem_map.1 harg
      obtain ⟨holder, hh, hg⟩ := Node.mem_children_of_mem_arguments hgiven
      exact (ih holder hh).2 given hg mode
    case propertyValue =>
      split
      · exact respects_pure _
      · exact (children mode).bind fun _ => respects_pure _
    case listDeclaration => exact (children mode).bind fun _ => respects_pure _
    case listElement => exact (children mode).bind fun _ => respects_pure _
    case mapDeclaration =>
      refine (hD.mapEntries_of_below (fun entry he => (ih entry he).2) mode).bind fun _ => ?_
      exact respects_pure _
    all_goals exact hD.fail (by simp)

/-- A value keeps to a lenient discipline. -/
lemma value (mode : Mode) (node : Node) : D.Respects (value mode node) :=
  (hD.value_and_below node).1 mode

/-- The entries of a map keep to a lenient discipline. -/
lemma mapEntries (mode : Mode) (node : Node) : D.Respects (mapEntries mode node) :=
  hD.mapEntries_of_below (fun _ _ child _ mode => hD.value mode child) mode

/-- The value of a declaration keeps to a lenient discipline. -/
lemma declaredValue (node : Node) : D.Respects (declaredValue node) := by
  unfold Render.declaredValue
  split
  · refine (respects_mapM fun item _ => ?_).bind fun _ => respects_pure _
    exact snapshot (hD.value .emit item)
  · exact (hD.mapEntries .emit node).bind fun _ => respects_pure _
  · refine respects_get.bind fun c => ?_
    split <;> exact respects_pure _
  · exact (hD.value .emit node).bind fun _ => respects_pure _

end Discipline.Lenient

/-! ### The strictest discipline -/

/-- The state stays as it is. Only a failure at the nesting limit leaves a level that was entered
and not left. -/
def Discipline.reading : Discipline where
  onOk c c' := c' = c
  onError c d c' := d.IsLimit ∧ c' = c.descend ∨ ¬d.IsLimit ∧ c' = c
  refl _ := rfl
  trans h₁ h₂ := h₂.trans h₁
  transError h₁ h₂ := by
    subst h₁
    exact h₂

/-- Only reading the state is a lenient discipline. -/
lemma Discipline.reading_lenient : reading.Lenient where
  ok h := by
    subst h
    rfl
  error h := by
    obtain ⟨hd, rfl⟩ | ⟨hd, rfl⟩ := h
    · exact .inl ⟨hd, rfl⟩
    · exact .inr ⟨hd, rfl⟩
  limit c := .inl ⟨⟨_, rfl⟩, rfl⟩
  admits hd c := .inr ⟨hd, rfl⟩
  locate span h := by simpa [reading] using h

/-- What follows a step that only reads the state is run from the same state. -/
lemma Discipline.Respects.bind_eq_ok {α β : Type} {step : Render α} {next : α → Render β}
    {c c' : Context} {b : β} (hs : reading.Respects step) (h : (step >>= next) c = .ok b c') :
    ∃ a, step c = .ok a c ∧ next a c = .ok b c' := by
  obtain ⟨a, m, h₁, h₂⟩ := bind_eq_ok_iff.1 h
  have hm : m = c := hs.ok h₁
  subst m
  exact ⟨a, h₁, h₂⟩

/-- A value leaves the state as it is. -/
lemma value_ok {mode : Mode} {node : Node} {c c' : Context} {text : String}
    (h : value mode node c = .ok text c') : c' = c :=
  (Discipline.reading_lenient.value mode node).ok h

end Render

end Stylesheet
