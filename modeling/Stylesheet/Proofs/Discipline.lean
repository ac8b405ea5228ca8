import Stylesheet.Render.Statement
import Stylesheet.Proofs.Faults

/-!
# Disciplines of steps

A discipline says what steps may do to the state: how one that succeeds relates the states before
and after it, and how one that fails does. `Discipline.Respects` holds of a step that keeps to a
discipline. The lemmas on it follow the ways in which steps are put together, so that a fact about
all statements is proved for the few steps that touch the state and carried through the rest.
-/

namespace Stylesheet.Render

variable {α β γ : Type}

/-! ### Running steps -/

/-- A sequence succeeds exactly if both steps do, the second from where the first ends. -/
lemma bind_eq_ok_iff {step : Render α} {next : α → Render β} {c c' : Context} {b : β} :
    (step >>= next) c = .ok b c' ↔ ∃ a m, step c = .ok a m ∧ next a m = .ok b c' := by
  simp only [bind, EStateM.bind]
  cases h : step c with
  | ok a m => simp [and_assoc]
  | error d m => simp

/-- A sequence fails exactly if the first step does, or the second from where the first ends. -/
lemma bind_eq_error_iff {step : Render α} {next : α → Render β} {c c' : Context}
    {d : Diagnostic} :
    (step >>= next) c = .error d c' ↔
      step c = .error d c' ∨ ∃ a m, step c = .ok a m ∧ next a m = .error d c' := by
  simp only [bind, EStateM.bind]
  cases h : step c with
  | ok a m => simp [and_assoc]
  | error d m => simp

/-- A step succeeds exactly if it does without what is done after it. -/
lemma ensuring_eq_ok_iff {step : Render α} {after : Context → Context} {c c' : Context} {a : α} :
    ensuring step after c = .ok a c' ↔ ∃ m, step c = .ok a m ∧ after m = c' := by
  simp only [ensuring]
  cases h : step c with
  | ok a m => simp [and_assoc]
  | error d m => simp

/-- A step fails exactly if it does without what is done after it. -/
lemma ensuring_eq_error_iff {step : Render α} {after : Context → Context} {c c' : Context}
    {d : Diagnostic} :
    ensuring step after c = .error d c' ↔ ∃ m, step c = .error d m ∧ after m = c' := by
  simp only [ensuring]
  cases h : step c with
  | ok a m => simp
  | error d m => simp [and_assoc]

/-- A step runs from where the one before it ends. -/
lemma bind_of_ok {step : Render α} {next : α → Render β} {c m : Context} {a : α}
    (h : step c = .ok a m) : (step >>= next) c = next a m := by
  simp only [bind, EStateM.bind, h]

/-- Nothing runs after a step that fails. -/
lemma bind_of_error {step : Render α} {next : α → Render β} {c m : Context} {d : Diagnostic}
    (h : step c = .error d m) : (step >>= next) c = .error d m :=
  bind_eq_error_iff.2 (.inl h)

/-- Steps over a list run one after the other. -/
lemma mapM_cons_of_ok {step : α → Render β} {a : α} {as : List α} {b : β} {bs : List β}
    {c m c' : Context} (h : step a c = .ok b m) (hs : as.mapM step m = .ok bs c') :
    (a :: as).mapM step c = .ok (b :: bs) c' := by
  rw [List.mapM_cons, bind_of_ok h, bind_of_ok hs]
  rfl

/-- A step that only gives a result leaves the state. -/
@[simp] lemma pure_apply (a : α) (c : Context) : (pure a : Render α) c = .ok a c := rfl

/-- A step that only fails leaves the state. -/
@[simp] lemma throw_apply (d : Diagnostic) (c : Context) :
    (throw d : Render α) c = .error d c := rfl

/-- What reads the state is given it. -/
@[simp] lemma get_bind_apply (next : Context → Render α) (c : Context) :
    (get >>= next) c = next c c := rfl

/-- What follows a change runs in the changed state. -/
@[simp] lemma modify_bind_apply (f : Context → Context) (next : PUnit → Render α) (c : Context) :
    (modify f >>= next) c = next ⟨⟩ (f c) := rfl

/-- What follows a result is given it. -/
@[simp] lemma pure_bind_apply (a : α) (next : α → Render β) (c : Context) :
    (pure a >>= next) c = next a c := rfl

/-- A result that does not depend on the state is there from every state. -/
lemma ofExcept_eq_ok_iff {result : Except Diagnostic α} {c c' : Context} {a : α} :
    ofExcept result c = .ok a c' ↔ result = .ok a ∧ c' = c := by
  cases result with
  | ok b => simp [ofExcept, eq_comm]
  | error d => simp [ofExcept]

/-- What follows a result that does not depend on the state is run from the same state. -/
lemma ofExcept_bind_eq_ok_iff {result : Except Diagnostic α} {next : α → Render β}
    {c c' : Context} {b : β} :
    (ofExcept result >>= next) c = .ok b c' ↔ ∃ a, result = .ok a ∧ next a c = .ok b c' := by
  cases result with
  | ok a => simp [ofExcept]
  | error d => simp [bind_eq_ok_iff, ofExcept]

/-- One level deeper is reached unless the options forbid it. -/
lemma descend_apply (c : Context) :
    descend c = if c.descend.tooDeep then
      .error { fault := .tooDeep c.options.maxDepth } c.descend else .ok ⟨⟩ c.descend := by
  simp only [descend, modify_bind_apply, get_bind_apply]
  split <;> rfl

/-- What succeeds one level deeper is run there, and the level is left. -/
lemma descend_ensuring_eq_ok {step : Render α} {c c' : Context} {a : α}
    (h : (do descend; ensuring step Context.ascend) c = .ok a c') :
    ∃ m, step c.descend = .ok a m ∧ m.ascend = c' := by
  obtain ⟨_, m, hm, h⟩ := bind_eq_ok_iff.1 h
  rw [descend_apply] at hm
  split at hm
  · cases hm
  · cases hm
    exact ensuring_eq_ok_iff.1 h

/-- Locating a diagnostic does not matter where there is none. -/
lemma locating_eq_ok_iff {step : Render α} {span : Span} {c c' : Context} {a : α} :
    locating span step c = .ok a c' ↔ step c = .ok a c' := by
  simp only [locating]
  cases step c <;> simp

/-- A step that is located fails where it does without, with a located diagnostic. -/
lemma locating_eq_error_iff {step : Render α} {span : Span} {c c' : Context} {d : Diagnostic} :
    locating span step c = .error d c' ↔ ∃ e, step c = .error e c' ∧ e.locate span = d := by
  simp only [locating]
  cases step c with
  | ok a m => simp
  | error e m => simp [and_assoc, and_comm]

/-- Locating a diagnostic and changing the state do not meet. -/
lemma locating_ensuring (span : Span) (step : Render α) (after : Context → Context) :
    locating span (ensuring step after) = ensuring (locating span step) after := by
  funext c
  simp only [locating, ensuring]
  cases step c <;> rfl

/-- What a step gives, if it succeeds. -/
def result? (step : Render α) (c : Context) : Option α :=
  match step c with
  | .ok a _ => some a
  | .error _ _ => none

/-- A result of a step comes with a state. -/
lemma exists_of_result? {step : Render α} {c : Context} {a : α} (h : result? step c = some a) :
    ∃ c', step c = .ok a c' := by
  unfold result? at h
  cases hs : step c with
  | ok b c' =>
    rw [hs] at h
    cases h
    exact ⟨c', rfl⟩
  | error d c' =>
    rw [hs] at h
    cases h

/-! ### Disciplines -/

/-- What steps may do to the state. A step that fails may do so after others that succeed. -/
structure Discipline where
  onOk : Context → Context → Prop
  onError : Context → Diagnostic → Context → Prop
  refl : ∀ c, onOk c c
  trans : ∀ {c m c'}, onOk c m → onOk m c' → onOk c c'
  transError : ∀ {c m d c'}, onOk c m → onError m d c' → onError c d c'

/-- The steps keep a property of the state, whether they succeed or not. -/
def Discipline.invariant (P : Context → Prop) : Discipline where
  onOk c c' := P c → P c'
  onError c _ c' := P c → P c'
  refl _ h := h
  trans h₁ h₂ h := h₂ (h₁ h)
  transError h₁ h₂ h := h₂ (h₁ h)

/-- A step keeps to a discipline from every state. -/
structure Discipline.Respects (D : Discipline) (step : Render α) : Prop where
  ok : ∀ {c a c'}, step c = .ok a c' → D.onOk c c'
  error : ∀ {c d c'}, step c = .error d c' → D.onError c d c'

/-- A discipline admits failing with a diagnostic where the state has not changed. -/
def Discipline.Admits (D : Discipline) (d : Diagnostic) : Prop := ∀ c, D.onError c d c

namespace Discipline

variable {D : Discipline}

/-- A step that only gives a result keeps to every discipline. -/
lemma respects_pure (a : α) : D.Respects (pure a) where
  ok h := by
    cases h
    exact D.refl _
  error h := by cases h

/-- Reading the state keeps to every discipline. -/
lemma respects_get : D.Respects (get : Render Context) where
  ok h := by
    cases h
    exact D.refl _
  error h := by cases h

/-- A step that fails keeps to a discipline that admits its diagnostic. -/
lemma respects_throw {d : Diagnostic} (hd : D.Admits d) : D.Respects (throw d : Render α) where
  ok h := by cases h
  error h := by
    cases h
    exact hd _

/-- A fault keeps to a discipline that admits it. -/
lemma respects_fail {fault : Fault} (hd : D.Admits { fault }) :
    D.Respects (fail fault : Render α) :=
  respects_throw hd

/-- A change keeps to a discipline that allows it. -/
lemma respects_modify {f : Context → Context} (hf : ∀ c, D.onOk c (f c)) :
    D.Respects (modify f : Render PUnit) where
  ok h := by
    cases h
    exact hf _
  error h := by cases h

/-- A result that does not depend on the state keeps to a discipline that admits its failures. -/
lemma respects_ofExcept {result : Except Diagnostic α} (hr : Fails D.Admits result) :
    D.Respects (ofExcept result) := by
  cases result with
  | ok a => exact respects_pure a
  | error d => exact respects_throw (hr d rfl)

/-- A result that is lifted keeps to a discipline that admits its faults. -/
lemma respects_lift {ε : Type} {fault : ε → Fault} {result : Except ε α}
    (hr : ∀ e, D.Admits { fault := fault e }) : D.Respects (lift fault result) := by
  cases result with
  | ok a => exact respects_pure a
  | error e => exact respects_fail (hr e)

/-- A sequence of steps keeps to a discipline if the first does and the second does for every
result that the first can give. -/
lemma Respects.bind_of_yields {step : Render α} {next : α → Render β} (hs : D.Respects step)
    (hn : ∀ {c a m}, step c = .ok a m → D.Respects (next a)) : D.Respects (step >>= next) where
  ok h := by
    obtain ⟨a, m, h₁, h₂⟩ := bind_eq_ok_iff.1 h
    exact D.trans (hs.ok h₁) ((hn h₁).ok h₂)
  error h := by
    obtain h₁ | ⟨a, m, h₁, h₂⟩ := bind_eq_error_iff.1 h
    · exact hs.error h₁
    · exact D.transError (hs.ok h₁) ((hn h₁).error h₂)

/-- Steps that keep to a discipline do so one after the other. -/
lemma Respects.bind {step : Render α} {next : α → Render β} (hs : D.Respects step)
    (hn : ∀ a, D.Respects (next a)) : D.Respects (step >>= next) :=
  hs.bind_of_yields fun _ => hn _

/-- A check that may end the steps early keeps to a discipline if its failure and what follows
do. -/
lemma Respects.check {p : Prop} [Decidable p] {stop : Render PUnit} {next : PUnit → Render α}
    (hs : D.Respects stop) (hn : ∀ r, D.Respects (next r)) :
    D.Respects (if p then stop >>= next else next ⟨⟩) := by
  split
  · exact hs.bind hn
  · exact hn _

/-- Steps over a list keep to a discipline if each does. -/
lemma respects_mapM {as : List α} {step : α → Render β} (hs : ∀ a ∈ as, D.Respects (step a)) :
    D.Respects (as.mapM step) := by
  induction as with
  | nil => exact respects_pure []
  | cons a as ih =>
    rw [List.mapM_cons]
    refine (hs a List.mem_cons_self).bind fun b => ?_
    refine (ih fun a' ha' => hs a' (List.mem_cons_of_mem a ha')).bind fun bs => ?_
    exact respects_pure _

/-- A fold over a list keeps to a discipline if each step does. -/
lemma respects_foldlM {as : List α} {step : γ → α → Render γ} {start : γ}
    (hs : ∀ b, ∀ a ∈ as, D.Respects (step b a)) : D.Respects (as.foldlM step start) := by
  induction as generalizing start with
  | nil => exact respects_pure start
  | cons a as ih =>
    rw [List.foldlM_cons]
    refine (hs start a List.mem_cons_self).bind fun b => ?_
    exact ih fun b' a' ha' => hs b' a' (List.mem_cons_of_mem a ha')

/-- Placing the diagnostics of a step keeps to a discipline that does not look at their place. -/
lemma Respects.locating {step : Render α} {span : Span} (hs : D.Respects step)
    (hl : ∀ {c d c'}, D.onError c d c' → D.onError c (d.locate span) c') :
    D.Respects (locating span step) where
  ok h := hs.ok (locating_eq_ok_iff.1 h)
  error {c d c'} h := by
    simp only [Render.locating] at h
    cases hc : step c with
    | ok b m => simp [hc] at h
    | error d m =>
      rw [hc] at h
      cases h
      exact hl (hs.error hc)

/-- A discipline that takes no notice of a level that is entered and left again. Only the limit of
the options may keep a step from entering it. -/
structure Levelled (D : Discipline) : Prop where
  ok : ∀ {c c'}, D.onOk c.descend c' → D.onOk c c'.ascend
  error : ∀ {c d c'}, D.onError c.descend d c' → D.onError c d c'.ascend
  limit : ∀ c, D.onError c { fault := .tooDeep c.options.maxDepth } c.descend

/-- A step one level deeper keeps to a discipline that takes levels into account. -/
lemma Levelled.respects (hD : D.Levelled) {step : Render α} (hs : D.Respects step) :
    D.Respects (do descend; ensuring step Context.ascend) where
  ok h := by
    obtain ⟨m, hm, rfl⟩ := descend_ensuring_eq_ok h
    exact hD.ok (hs.ok hm)
  error {c d c'} h := by
    obtain hm | ⟨_, m, hm, h⟩ := bind_eq_error_iff.1 h
    · rw [descend_apply] at hm
      split at hm
      · cases hm
        exact hD.limit c
      · cases hm
    · obtain ⟨n, hn, rfl⟩ := ensuring_eq_error_iff.1 h
      rw [descend_apply] at hm
      split at hm
      · cases hm
      · cases hm
        exact hD.error (hs.error hn)

/-- A discipline that, besides, takes no notice of where a diagnostic is placed, and of all faults
only of the nesting limit. -/
structure Lenient (D : Discipline) : Prop extends D.Levelled where
  admits : ∀ {d : Diagnostic}, ¬d.IsLimit → D.Admits d
  locate : ∀ {c d c'} span, D.onError c d c' → D.onError c (d.locate span) c'

namespace Lenient

variable (hD : D.Lenient)
include hD

/-- A fault other than that of the limit keeps to a lenient discipline. -/
lemma fail {fault : Fault} (hf : ∀ limit, fault ≠ .tooDeep limit) :
    D.Respects (fail fault : Render α) :=
  respects_fail (hD.admits fun ⟨limit, h⟩ => hf limit h)

/-- A result without the fault of the limit keeps to a lenient discipline. -/
lemma ofExcept {result : Except Diagnostic α} (hr : Fails (fun d => ¬d.IsLimit) result) :
    D.Respects (ofExcept result) :=
  respects_ofExcept (hr.mono fun _ => hD.admits)

/-- Reading the layout of a node keeps to the discipline. -/
lemma layout {node : Node} {result : Except Diagnostic α} (hr : Fails node.IsFlaw result) :
    D.Respects (Render.ofExcept result) :=
  hD.ofExcept (hr.mono fun _ => Node.IsFlaw.not_isLimit)

/-- A result that is lifted without the fault of the limit keeps to a lenient discipline. -/
lemma lift {ε : Type} {fault : ε → Fault} {result : Except ε α}
    (hf : ∀ e limit, fault e ≠ .tooDeep limit) : D.Respects (lift fault result) :=
  respects_lift fun e => hD.admits fun ⟨limit, h⟩ => hf e limit h

end Lenient

end Discipline

end Stylesheet.Render
