import Stylesheet.Proofs.Walk

/-!
# The stacks of the walk

The walk over a document keeps its open rules, open loops and bound names on stacks, and counts
loops and levels. Every statement and every block leaves these as it found them, whether it succeeds
or fails, and only adds to the rules that wait. A level alone may stay open: the one that a failure
at the nesting limit has entered.
-/

namespace Stylesheet

/-- The stacks and the options are as before, and the rules that waited still wait, in front of
those that were added. -/
structure Context.Kept (c c' : Context) : Prop where
  options : c'.options = c.options
  source : c'.source = c.source
  ancestors : c'.ancestors = c.ancestors
  frames : c'.frames = c.frames
  bound : c'.bound = c.bound
  loopDepth : c'.loopDepth = c.loopDepth
  queue : c.queue <+: c'.queue

namespace Context.Kept

variable {c m c' : Context}

/-- A state keeps itself. -/
lemma refl (c : Context) : c.Kept c := ⟨rfl, rfl, rfl, rfl, rfl, rfl, List.prefix_refl _⟩

/-- What is kept twice is kept. -/
lemma trans (h₁ : c.Kept m) (h₂ : m.Kept c') : c.Kept c' where
  options := h₂.options.trans h₁.options
  source := h₂.source.trans h₁.source
  ancestors := h₂.ancestors.trans h₁.ancestors
  frames := h₂.frames.trans h₁.frames
  bound := h₂.bound.trans h₁.bound
  loopDepth := h₂.loopDepth.trans h₁.loopDepth
  queue := h₁.queue.trans h₂.queue

/-- A rule that is closed leaves what was kept. -/
lemma closeRule {selector : String} (h : (c.openRule selector).Kept c') : c.Kept c'.closeRule where
  options := h.options
  source := h.source
  ancestors := by simp [Context.closeRule, h.ancestors, openRule]
  frames := h.frames
  bound := h.bound
  loopDepth := h.loopDepth
  queue := h.queue

/-- A frame that is opened before the body of a loop and closed after it leaves the stack of
frames. -/
lemma closeFrame {bindings : List (String × String)}
    (h : (Render.startIteration bindings c).Kept c') : c.Kept (Render.closeFrame c') where
  options := h.options
  source := h.source
  ancestors := h.ancestors
  frames := by simp [Render.closeFrame, h.frames, Render.startIteration, Render.openFrame,
    Render.bindRow]
  bound := h.bound
  loopDepth := h.loopDepth
  queue := h.queue

/-- The rules that an iteration pulls back are those that its body added. -/
lemma endIteration {bindings : List (String × String)}
    (h : (Render.startIteration bindings c).Kept c') :
    c.Kept (Render.endIteration c.queue.length c') := by
  -- The mark is the number of rules that waited before, and the body has only added to them.
  obtain ⟨added, ha⟩ := h.queue
  have hq : c'.queue = c.queue ++ added := ha.symm
  exact { h.closeFrame with queue := by simp [Render.endIteration, hq] }

/-- A loop that is left leaves what was kept. -/
lemma leaveLoop {placement : Render.Placement} {names : List String}
    (h : (Render.enterLoop placement names c).Kept c') :
    c.Kept (Render.leaveLoop c.bound.length names c') where
  options := h.options
  source := h.source
  ancestors := h.ancestors
  frames := h.frames
  bound := by
    have hb := h.bound
    cases placement <;> simp_all [Render.leaveLoop, Render.enterLoop]
  loopDepth := by simp [Render.leaveLoop, h.loopDepth, Render.enterLoop]
  queue := h.queue

end Context.Kept

namespace Render

/-- The stacks stay as they are. So does the level, unless the failure is the one of the nesting
limit, which leaves it one deeper. -/
def Discipline.stack : Discipline where
  onOk c c' := c.Kept c' ∧ c'.depth = c.depth
  onError c d c' :=
    c.Kept c' ∧ (d.IsLimit ∧ c'.depth = c.depth + 1 ∨ ¬d.IsLimit ∧ c'.depth = c.depth)
  refl c := ⟨.refl c, rfl⟩
  trans h₁ h₂ := ⟨h₁.1.trans h₂.1, h₂.2.trans h₁.2⟩
  transError h₁ h₂ := ⟨h₁.1.trans h₂.1, by simpa only [h₁.2] using h₂.2⟩

/-- Keeping the stacks is a lenient discipline. -/
lemma Discipline.stack_lenient : stack.Lenient where
  ok h := ⟨{ h.1 with }, by simp [Context.ascend, h.2, Context.descend]⟩
  error h := by
    -- Each level is left on the way out, but the one that is over the limit was never entered by
    -- a step that would leave it.
    refine ⟨{ h.1 with }, ?_⟩
    obtain ⟨hd, hc⟩ | ⟨hd, hc⟩ := h.2
    · exact .inl ⟨hd, by simp [Context.ascend, hc, Context.descend]⟩
    · exact .inr ⟨hd, by simp [Context.ascend, hc, Context.descend]⟩
  limit c := ⟨{ Context.Kept.refl c with }, .inl ⟨⟨_, rfl⟩, rfl⟩⟩
  admits hd c := ⟨.refl c, .inr ⟨hd, rfl⟩⟩
  locate span h := by simpa [stack] using h

/-- Every change that the walk makes to the state leaves the stacks, in whatever scope. -/
lemma Discipline.stack_walk :
    Walk (fun _ : Unit => stack) (fun _ _ => ()) fun _ _ => True where
  lenient _ := stack_lenient
  below _ _ := trivial
  plain _ _ := rfl
  rule _ _ _ h := ⟨h.1.closeRule, h.2⟩
  ruleError _ _ _ h := ⟨h.1.closeRule, h.2⟩
  enqueue _ c _ := ⟨{ Context.Kept.refl c with queue := List.prefix_append _ _ }, rfl⟩
  declare {_ _ _ _ c _} _ _ _ _ _ _ := ⟨{ Context.Kept.refl c with }, rfl⟩
  define c _ _ _ _ := ⟨{ Context.Kept.refl c with }, rfl⟩
  loop _ _ _ _ h := ⟨h.1.leaveLoop, h.2⟩
  loopError _ _ _ _ h := ⟨h.1.leaveLoop, h.2⟩
  iteration _ _ _ _ h := ⟨h.1.endIteration, h.2⟩
  iterationError _ _ _ _ h := ⟨h.1.closeFrame, h.2⟩

/-- All statements keep the stacks. -/
lemma Discipline.stack_respectsAt (node : Node) : stack.RespectsAt node :=
  stack_walk.respectsAt (s := ()) node trivial

/-- Statements and blocks leave the stacks as they found them, on success and on failure, so an
iteration of a loop finds the rules that waited before its body still in front of those that the
body made wait; and a value that is rendered leaves the whole state as it is. -/
theorem stacks_restored (node : Node) :
    Discipline.stack.Respects (statement node) ∧
      Discipline.stack.Respects (block node) ∧
      (∀ bindings c text c', block node (startIteration bindings c) = .ok text c' →
        c.queue.length ≤ c'.queue.length) ∧
      ∀ mode c text c', value mode node c = .ok text c' → c' = c := by
  have h := Discipline.stack_respectsAt node
  refine ⟨h.statement, h.block, ?_, ?_⟩
  · intro bindings c text c' hb
    exact (h.block.ok hb).1.queue.length_le
  · intro mode c text c' hv
    exact value_ok hv

end Render

end Stylesheet
