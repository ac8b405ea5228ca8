import Stylesheet.Expr.Evaluate
import Stylesheet.Proofs.Precedence
import Stylesheet.Render.Basic

/-!
# Values of streams

`HasValue` says which value a stream of values and marks has: each group in parentheses stands for
its value, the negations are set aside, what remains is read by precedence, and the value is negated
as often as was set aside. The main statement is that a stream is reduced to a value exactly when it
has it: `reduction_finds_value`.
-/

namespace Stylesheet.Expr

/-- A value and what a number of negations make of it. Without negations any value stays; with them
it is a truth value, and an odd number of them inverts it. -/
inductive Negated : Nat → Scalar → Scalar → Prop where
  | none {v} :
    Negated 0 v v
  | some {n b} :
    Negated (n + 1) (.bool b) (.bool (if (n + 1) % 2 = 1 then !b else b))

/-- A span, the number of its negations, and its operands and operators. A group of the span is one
operand, the value of the span inside. -/
inductive Reads : List Item → Nat → List Term → Prop where
  | nil :
    Reads [] 0 []
  | value {v items n terms} :
    Reads items n terms →
    Reads (.value v :: items) n (.value v :: terms)
  | op {o items n terms} :
    Reads items n terms →
    Reads (.mark (.binary o) :: items) n (.op o :: terms)
  | negation {items n terms} :
    Reads items n terms →
    Reads (.mark .negation :: items) (n + 1) terms
  | group {inside k operands u v items n terms} :
    Reads inside k operands →
    Denotes loosestFirst operands u →
    Negated k u v →
    Reads items n terms →
    Reads (.mark .opening :: inside ++ .mark .closing :: items) n (.value v :: terms)

/-- The value of a stream. -/
def HasValue (items : List Item) (v : Scalar) : Prop :=
  ∃ n terms u, Reads items n terms ∧ Denotes loosestFirst terms u ∧ Negated n u v

variable {items inside after closed : List Item} {n : Nat} {terms : List Term} {u v : Scalar}

/-! ### One span -/

/-- What denotes a value is not empty. -/
lemma Denotes.ne_nil {ops : List Operator} (h : Denotes ops terms v) : terms ≠ [] := by
  induction h with
  | operand => exact List.cons_ne_nil _ _
  | tighter _ ih => exact ih
  | apply => exact List.append_ne_nil_of_right_ne_nil _ (List.cons_ne_nil _ _)

/-- Only a value is left exactly if nothing else is. -/
lemma onlyValue_eq_ok_iff : onlyValue terms = .ok v ↔ terms = [.value v] := by
  rcases terms with _ | ⟨_ | _, _ | ⟨_, _⟩⟩ <;> simp [onlyValue]

/-- Negations ask for a truth value and flip it. -/
lemma negate_eq_ok_iff : negate n u = .ok v ↔ Negated n u v := by
  constructor
  · intro h
    unfold negate at h
    split at h
    · next hn =>
      cases h
      subst hn
      exact .none
    · next hn =>
      obtain ⟨k, rfl⟩ := Nat.exists_eq_succ_of_ne_zero hn
      obtain ⟨b, hb, h⟩ := bind_eq_ok_iff.1 h
      cases u <;> cases hb
      cases h
      exact .some
  · intro h
    cases h <;> rfl

/-- A span without groups is reduced to the value of its operands and operators, negated. -/
lemma reduceSpan_eq_ok_iff :
    reduceSpan closed = .ok v ↔
      ∃ n terms u, spanTerms closed = .ok (n, terms) ∧
        Denotes loosestFirst terms u ∧ Negated n u v := by
  unfold reduceSpan
  constructor
  · intro h
    obtain ⟨⟨n, terms⟩, hs, h⟩ := bind_eq_ok_iff.1 h
    dsimp only at h
    split at h
    · cases h
    · obtain ⟨out, hf, h⟩ := bind_eq_ok_iff.1 h
      obtain ⟨u, hu, h⟩ := bind_eq_ok_iff.1 h
      rw [onlyValue_eq_ok_iff.1 hu] at hf
      exact ⟨n, terms, u, hs, foldLevels_eq_ok_iff.1 hf, negate_eq_ok_iff.1 h⟩
  · rintro ⟨n, terms, u, hs, hd, hn⟩
    have he : ¬(n > 0 ∧ terms.isEmpty) := by simp [hd.ne_nil]
    refine bind_eq_ok_iff.2 ⟨_, hs, ?_⟩
    dsimp only
    rw [if_neg he]
    refine bind_eq_ok_iff.2 ⟨_, foldLevels_eq_ok_iff.2 hd, ?_⟩
    exact bind_eq_ok_iff.2 ⟨u, onlyValue_eq_ok_iff.2 rfl, negate_eq_ok_iff.2 hn⟩

/-! ### Groups -/

/-- A group is followed by its closing parenthesis. -/
lemma eq_append_of_splitGroup {depth : Nat} (h : splitGroup depth items = some (inside, after)) :
    items = inside ++ .mark .closing :: after := by
  fun_induction splitGroup depth items generalizing inside after with
  | case1 => cases h
  | case2 rest =>
    cases h
    rfl
  | case3 _ _ ih | case4 _ _ ih | case5 _ _ _ _ _ _ ih =>
    obtain ⟨⟨i, a⟩, ha, h⟩ := Option.map_eq_some_iff.1 h
    cases h
    rw [ih ha]
    rfl

/-- The parentheses of a span match, so no group around it ends inside it. -/
lemma Reads.splitGroup_append (h : Reads items n terms) (depth : Nat)
    (rest : List Item) :
    splitGroup depth (items ++ rest) =
      (splitGroup depth rest).map fun (inside, after) => (items ++ inside, after) := by
  induction h generalizing depth rest with
  | nil => simp
  | value _ ih => simp [splitGroup, ih, Function.comp_def]
  | op _ ih => simp [splitGroup, ih, Function.comp_def]
  | negation _ ih => simp [splitGroup, ih, Function.comp_def]
  | group _ _ _ _ ihi ih => simp [splitGroup, ihi, ih, Function.comp_def]

/-- A group is split off where it closes. -/
lemma Reads.splitGroup (h : Reads inside n terms) (after : List Item) :
    splitGroup 0 (inside ++ .mark .closing :: after) = some (inside, after) := by
  simp [h.splitGroup_append, Expr.splitGroup]

/-- Items are reduced by closing their groups first. -/
lemma reduce_eq_ok_iff_reduceSpan :
    reduce items = .ok v ↔
      ∃ closed, closeGroups items = .ok closed ∧ reduceSpan closed = .ok v := by
  rw [reduce]
  exact bind_eq_ok_iff

/-- An item that opens no group is passed. -/
lemma closeGroups_cons_eq_ok_iff {item : Item} (hi : item ≠ .mark .opening) :
    closeGroups (item :: items) = .ok closed ↔
      ∃ rest, closeGroups items = .ok rest ∧ item :: rest = closed := by
  rw [closeGroups, bind_eq_ok_iff]
  · simp [pure, Except.pure]
  · exact hi

/-- A group is closed by reducing what is inside. -/
lemma closeGroups_opening_eq_ok_iff :
    closeGroups (.mark .opening :: items) = .ok closed ↔
      ∃ inside after v rest, splitGroup 0 items = some (inside, after) ∧ reduce inside = .ok v ∧
        closeGroups after = .ok rest ∧ .value v :: rest = closed := by
  rw [closeGroups]
  split
  · next h => simp [h]
  · next inside after h => simp [h, and_assoc, bind_eq_ok_iff, pure, Except.pure]

/-- An item that opens no group stays when the groups after it are closed. -/
lemma exists_closeGroups_cons {item : Item} {count : Nat} {read : List Term}
    (hi : item ≠ .mark .opening)
    (hs : ∀ rest, spanTerms rest = .ok (n, terms) → spanTerms (item :: rest) = .ok (count, read))
    (h : ∃ closed, closeGroups items = .ok closed ∧ spanTerms closed = .ok (n, terms)) :
    ∃ closed, closeGroups (item :: items) = .ok closed ∧ spanTerms closed = .ok (count, read) := by
  obtain ⟨closed, hc, ht⟩ := h
  exact ⟨item :: closed, (closeGroups_cons_eq_ok_iff hi).2 ⟨closed, hc, rfl⟩, hs closed ht⟩

/-- A span is read when its groups have been closed. -/
lemma Reads.exists_closeGroups (h : Reads items n terms) :
    ∃ closed, closeGroups items = .ok closed ∧ spanTerms closed = .ok (n, terms) := by
  induction h with
  | nil => exact ⟨[], by rw [closeGroups], rfl⟩
  | value _ ih =>
    exact exists_closeGroups_cons (by simp) (fun _ h => bind_eq_ok_iff.2 ⟨_, h, rfl⟩) ih
  | op _ ih =>
    exact exists_closeGroups_cons (by simp) (fun _ h => bind_eq_ok_iff.2 ⟨_, h, rfl⟩) ih
  | negation _ ih =>
    exact exists_closeGroups_cons (by simp) (fun _ h => bind_eq_ok_iff.2 ⟨_, h, rfl⟩) ih
  | @group inside k operands u v items n terms hi hd hn _ ihi ih =>
    obtain ⟨inner, hci, hsi⟩ := ihi
    obtain ⟨closed, hc, hs⟩ := ih
    have hr : reduce inside = .ok v :=
      reduce_eq_ok_iff_reduceSpan.2 ⟨inner, hci, reduceSpan_eq_ok_iff.2 ⟨_, _, _, hsi, hd, hn⟩⟩
    refine ⟨.value v :: closed, closeGroups_opening_eq_ok_iff.2 ?_, ?_⟩
    · exact ⟨inside, items, v, closed, hi.splitGroup items, hr, hc, rfl⟩
    · exact bind_eq_ok_iff.2 ⟨(n, terms), hs, rfl⟩

/-- When the groups have been closed, what is read is read from the span. -/
lemma reads_of_closeGroups (hc : closeGroups items = .ok closed)
    (hs : spanTerms closed = .ok (n, terms)) : Reads items n terms := by
  -- The inside of a group is shorter than the stream, and so is what follows the group.
  induction hl : items.length using Nat.strongRecOn generalizing items closed n terms with
  | _ len ih =>
    subst hl
    rcases items with _ | ⟨v | ⟨o⟩ | _ | _ | _, items⟩
    · rw [closeGroups] at hc
      cases hc
      cases hs
      exact .nil
    · obtain ⟨rest, hr, rfl⟩ := (closeGroups_cons_eq_ok_iff (by simp)).1 hc
      obtain ⟨⟨n, terms⟩, ht, h⟩ := bind_eq_ok_iff.1 hs
      cases h
      exact .value (ih _ (Nat.lt_succ_self _) hr ht rfl)
    · obtain ⟨rest, hr, rfl⟩ := (closeGroups_cons_eq_ok_iff (by simp)).1 hc
      obtain ⟨⟨n, terms⟩, ht, h⟩ := bind_eq_ok_iff.1 hs
      cases h
      exact .op (ih _ (Nat.lt_succ_self _) hr ht rfl)
    · obtain ⟨rest, hr, rfl⟩ := (closeGroups_cons_eq_ok_iff (by simp)).1 hc
      obtain ⟨⟨n, terms⟩, ht, h⟩ := bind_eq_ok_iff.1 hs
      cases h
      exact .negation (ih _ (Nat.lt_succ_self _) hr ht rfl)
    · obtain ⟨inside, after, v, rest, hg, hr, ha, rfl⟩ := closeGroups_opening_eq_ok_iff.1 hc
      obtain ⟨⟨n, terms⟩, ht, h⟩ := bind_eq_ok_iff.1 hs
      cases h
      obtain ⟨inner, hci, hi⟩ := reduce_eq_ok_iff_reduceSpan.1 hr
      obtain ⟨k, operands, u, hsi, hd, hn⟩ := reduceSpan_eq_ok_iff.1 hi
      have hl := length_of_splitGroup hg
      rw [eq_append_of_splitGroup hg]
      simp only [List.length_cons] at ih
      exact .group (ih _ (by omega) hci hsi rfl) hd hn (ih _ (by omega) ha ht rfl)
    · obtain ⟨rest, hr, rfl⟩ := (closeGroups_cons_eq_ok_iff (by simp)).1 hc
      cases hs

/-- A stream is reduced to a value exactly if it has it, so to no other; and whenever a stream of
tokens has no text, the diagnostic is a semantic one. -/
theorem reduction_finds_value :
    (∀ items v, reduce items = .ok v ↔ HasValue items v) ∧
      ∀ tokens c d c', Render.lift .expression (evaluate tokens) c = .error d c' →
        d.fault.category = .semantic := by
  refine ⟨fun items v => ⟨fun h => ?_, fun h => ?_⟩, fun tokens c d c' h => ?_⟩
  · obtain ⟨closed, hc, hr⟩ := reduce_eq_ok_iff_reduceSpan.1 h
    obtain ⟨n, terms, u, hs, hd, hn⟩ := reduceSpan_eq_ok_iff.1 hr
    exact ⟨n, terms, u, reads_of_closeGroups hc hs, hd, hn⟩
  · obtain ⟨n, terms, u, hr, hd, hn⟩ := h
    obtain ⟨closed, hc, hs⟩ := hr.exists_closeGroups
    exact reduce_eq_ok_iff_reduceSpan.2
      ⟨closed, hc, reduceSpan_eq_ok_iff.2 ⟨n, terms, u, hs, hd, hn⟩⟩
  · cases he : evaluate tokens with
    | ok text =>
      rw [he] at h
      cases h
    | error fault =>
      rw [he] at h
      cases h
      rfl

end Stylesheet.Expr
