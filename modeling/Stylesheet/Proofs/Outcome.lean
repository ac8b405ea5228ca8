import Stylesheet.Proofs.Walk

/-!
# Outcomes of steps

`Yields` says what a step gives where it succeeds: from a state in which an invariant holds it ends
in such a state, and its result has a property. The lemmas on it follow the ways in which steps are
put together.
-/

namespace Stylesheet.Render

variable {α β γ : Type} {I J : Context → Prop} {P Q : α → Prop} {R : β → Prop}

/-- A step keeps an invariant and gives results with a property, wherever it succeeds. -/
def Yields (I : Context → Prop) (step : Render α) (Q : α → Prop) : Prop :=
  ∀ ⦃c a c'⦄, I c → step c = .ok a c' → I c' ∧ Q a

/-- What a step yields has every wider property. -/
lemma Yields.mono {step : Render α} (h : Yields I step P) (hpq : ∀ a, P a → Q a) :
    Yields I step Q := by
  intro c a c' hc hs
  obtain ⟨hi, ha⟩ := h hc hs
  exact ⟨hi, hpq a ha⟩

/-- A step that only reads the state keeps every invariant. -/
lemma Yields.reading {step : Render α} (hs : Discipline.reading.Respects step)
    (hij : ∀ c, J c → I c) (h : Yields I step Q) : Yields J step Q := by
  intro c a c' hc hr
  have hcc : c' = c := hs.ok hr
  subst hcc
  exact ⟨hc, (h (hij _ hc) hr).2⟩

/-- A step that only reads the state yields something. -/
lemma yields_of_reading {step : Render α} (hs : Discipline.reading.Respects step) :
    Yields I step fun _ => True := by
  intro c a c' hc hr
  have hcc : c' = c := hs.ok hr
  subst hcc
  exact ⟨hc, trivial⟩

/-- A result that is given is yielded. -/
lemma yields_pure {a : α} (h : Q a) : Yields I (pure a) Q := by
  intro c b c' hc hs
  cases hs
  exact ⟨hc, h⟩

/-- Reading the state yields one with the invariant. -/
lemma yields_get : Yields I get I := by
  intro c a c' hc hs
  cases hs
  exact ⟨hc, hc⟩

/-- A step that fails yields nothing. -/
lemma yields_throw {d : Diagnostic} : Yields I (throw d : Render α) Q := by
  intro c a c' hc hs
  cases hs

/-- A fault yields nothing. -/
lemma yields_fail {fault : Fault} : Yields I (fail fault : Render α) Q := yields_throw

/-- A result that does not depend on the state is yielded. -/
lemma yields_ofExcept {result : Except Diagnostic α} (h : ∀ a, result = .ok a → Q a) :
    Yields I (ofExcept result) Q := by
  intro c a c' hc hs
  obtain ⟨hr, rfl⟩ := ofExcept_eq_ok_iff.1 hs
  exact ⟨hc, h a hr⟩

/-- A result that is lifted is yielded. -/
lemma yields_lift {ε : Type} {fault : ε → Fault} {result : Except ε α}
    (h : ∀ a, result = .ok a → Q a) : Yields I (lift fault result) Q := by
  cases result with
  | ok a => exact yields_pure (h a rfl)
  | error e => exact yields_fail

/-- What follows a step yields what it does on the results of the step. -/
lemma Yields.bind {step : Render α} {next : α → Render β} (hs : Yields I step P)
    (hn : ∀ a, P a → Yields I (next a) R) : Yields I (step >>= next) R := by
  intro c b c' hc h
  obtain ⟨a, m, h₁, h₂⟩ := bind_eq_ok_iff.1 h
  obtain ⟨hm, ha⟩ := hs hc h₁
  exact hn a ha hm h₂

/-- What follows a check only runs where the check is passed. -/
lemma Yields.check {p : Prop} [Decidable p] {stop : Render PUnit} {next : PUnit → Render α}
    (hs : Yields I stop fun _ => False) (hn : ¬p → Yields I (next ⟨⟩) Q) :
    Yields I (if p then stop >>= next else next ⟨⟩) Q := by
  split
  · exact hs.bind fun _ h => h.elim
  · next h => exact hn h

/-- Steps over a list yield what each does. -/
lemma yields_mapM {as : List α} {step : α → Render β} (hs : ∀ a ∈ as, Yields I (step a) R) :
    Yields I (as.mapM step) fun bs => ∀ b ∈ bs, R b := by
  induction as with
  | nil => exact yields_pure (by simp)
  | cons a as ih =>
    rw [List.mapM_cons]
    refine (hs a List.mem_cons_self).bind fun b hb => ?_
    refine (ih fun a' ha' => hs a' (List.mem_cons_of_mem a ha')).bind fun bs hbs => ?_
    exact yields_pure (List.forall_mem_cons.2 ⟨hb, hbs⟩)

/-- A fold over a list yields what its steps keep. -/
lemma yields_foldlM {as : List β} {step : α → β → Render α} {start : α} (h₀ : P start)
    (hs : ∀ a, P a → ∀ b ∈ as, Yields I (step a b) P) : Yields I (as.foldlM step start) P := by
  induction as generalizing start with
  | nil => exact yields_pure h₀
  | cons b as ih =>
    rw [List.foldlM_cons]
    refine (hs start h₀ b List.mem_cons_self).bind fun a ha => ?_
    exact ih ha fun a' ha' b' hb' => hs a' ha' b' (List.mem_cons_of_mem b hb')

/-- Locating a diagnostic does not matter for what is yielded. -/
lemma Yields.locating {step : Render α} {span : Span} (hs : Yields I step Q) :
    Yields I (locating span step) Q :=
  fun _ _ _ hc h => hs hc (locating_eq_ok_iff.1 h)

/-- An invariant that takes no notice of the level is kept one level deeper. -/
lemma Yields.descend {step : Render α} (hs : Yields I step Q) (hd : ∀ c, I c → I c.descend)
    (ha : ∀ c, I c → I c.ascend) : Yields I (do descend; ensuring step Context.ascend) Q := by
  intro c a c' hc h
  obtain ⟨m, hm, rfl⟩ := descend_ensuring_eq_ok h
  obtain ⟨hi, hq⟩ := hs (hd c hc) hm
  exact ⟨ha m hi, hq⟩

/-- Iterations yield what each does. -/
lemma yields_iterate {step : Nat → Render String} {R : String → Prop}
    (hs : ∀ i, Yields I (step i) R) (count index : Nat) :
    Yields I (iterate step count index) fun texts => ∀ text ∈ texts, R text := by
  induction count generalizing index with
  | zero => exact yields_pure (by simp)
  | succ count ih =>
    refine (hs index).bind fun text ht => ?_
    refine (ih (index + 1)).bind fun texts hts => ?_
    exact yields_pure (List.forall_mem_cons.2 ⟨ht, hts⟩)

end Stylesheet.Render
