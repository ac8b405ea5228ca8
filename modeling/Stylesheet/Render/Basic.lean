import Stylesheet.Context
import Stylesheet.Node.Shape

/-!
# Rendering

A rendering reads and changes the state of a compilation, and gives a result or a diagnostic. The
state survives a diagnostic.
-/

namespace Stylesheet

/-- A step of a compilation. -/
abbrev Render := EStateM Diagnostic Context

namespace Render

/-- Gives up for a reason. -/
def fail {α : Type} (fault : Fault) : Render α := throw { fault }

/-- What does not depend on the state. -/
def ofExcept {α : Type} : Except Diagnostic α → Render α
  | .ok a => pure a
  | .error d => throw d

/-- A result of a part of the library, whose faults are faults of the document. -/
def lift {ε α : Type} (fault : ε → Fault) : Except ε α → Render α
  | .ok a => pure a
  | .error e => fail (fault e)

/-- A diagnostic of the step is placed here if it has no place yet. -/
def locating {α : Type} (span : Span) (step : Render α) : Render α := fun c =>
  match step c with
  | .ok a c => .ok a c
  | .error d c => .error (d.locate span) c

/-- The state is changed after the step, whether it succeeds or not. -/
def ensuring {α : Type} (step : Render α) (after : Context → Context) : Render α := fun c =>
  match step c with
  | .ok a c => .ok a (after c)
  | .error d c => .error d (after c)

/-- One level deeper, if the options allow it. -/
def descend : Render Unit := do
  modify Context.descend
  let c ← get
  if c.tooDeep then fail (.tooDeep c.options.maxDepth)

end Render

end Stylesheet
