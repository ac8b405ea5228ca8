import Stylesheet.Diagnostic
import Stylesheet.Proofs.Binding
import Mathlib.Data.List.Perm.Subperm

/-!
# Inclusions with missing arguments

A mixin may be included with fewer arguments than it has parameters, if each parameter without an
argument has a default value. Two checks decide this: one counts the default values, and one looks
for a value at each position. The count alone never turns an inclusion away that could be bound
(`requiredArity_le`), and what it lets through is left to the positions (`exists_bindNames_iff`), so
it does not matter where the parameters with default values stand.
-/

namespace Stylesheet.Mixin

variable {m : Mixin} {mixin : String} {names args others : List String}
  {defaults : Registry String} {body fragments : Fragments} {fault : Fault}

/-- An inclusion has a value for every parameter: those behind the arguments have default values. -/
def Supplies (names : List String) (defaults : Registry String) (args : List String) : Prop :=
  ∀ name ∈ names.drop args.length, defaults.contains name = true

/-! ### Binding by position -/

/-- Where binding by position fails, it names a parameter that has neither an argument nor a default
value. -/
lemma bindNames_eq_error (h : bindNames mixin defaults names args = .error fault) :
    ∃ name ∈ names.drop args.length, defaults.contains name = false ∧
      fault = .missingArgument name mixin := by
  induction names generalizing args with
  | nil => cases h
  | cons name names ih =>
    rw [bindNames] at h
    split at h
    · cases hb : bindNames mixin defaults names args.tail with
      | ok bindings =>
        rw [hb] at h
        cases h
      | error fault' =>
        rw [hb] at h
        cases h
        obtain ⟨missing, hm, hf⟩ := ih hb
        refine ⟨missing, ?_, hf⟩
        cases args with
        | nil => exact List.mem_cons_of_mem _ hm
        | cons arg args => exact hm
    · next hv =>
      cases h
      obtain ⟨hargs, hdefault⟩ := Option.or_eq_none_iff.1 hv
      rw [List.head?_eq_none_iff] at hargs
      subst hargs
      exact ⟨name, List.mem_cons_self, by simp [Registry.contains, hdefault], rfl⟩

/-- Names can be bound exactly if each has an argument or a default value. -/
lemma exists_bindNames_iff :
    (∃ bindings, bindNames mixin defaults names args = .ok bindings) ↔
      Supplies names defaults args := by
  constructor
  · rintro ⟨bindings, h⟩ name hn
    obtain ⟨hnames, hvalues⟩ := bindNames_eq_ok h
    obtain ⟨i, hi⟩ := List.mem_iff_getElem?.1 hn
    rw [List.getElem?_drop, ← hnames, List.getElem?_map, Option.map_eq_some_iff] at hi
    obtain ⟨b, hb, rfl⟩ := hi
    -- The position is behind all arguments, so its value is the default one.
    have hv := hvalues _ b hb
    rw [List.getElem?_eq_none (Nat.le_add_right _ _), Option.none_or] at hv
    simp [Registry.contains, hv]
  · intro h
    cases hb : bindNames mixin defaults names args with
    | ok bindings => exact ⟨bindings, rfl⟩
    | error fault =>
      obtain ⟨name, hn, hd, -⟩ := bindNames_eq_error hb
      rw [h name hn] at hd
      cases hd

/-- Arguments behind the last parameter are not looked at. -/
lemma bindNames_take :
    bindNames mixin defaults names (args.take names.length) =
      bindNames mixin defaults names args := by
  induction names generalizing args with
  | nil => rfl
  | cons name names ih =>
    cases args with
    | nil => rfl
    | cons arg args =>
      rw [bindNames, bindNames]
      simp only [List.length_cons, List.take_succ_cons, List.head?_cons, List.tail_cons, ih]

/-! ### The number of arguments -/

/-- The parameters without an argument are different names that all have default values, so there
are at most as many of them as there are default values. -/
lemma requiredArity_le (hm : m.parameters = .fixed names defaults) (hn : names.Nodup)
    (h : Supplies names defaults args) : m.requiredArity ≤ args.length := by
  have hsub : names.drop args.length ⊆ defaults.names := by
    intro name hname
    obtain ⟨v, hv⟩ := Option.isSome_iff_exists.1 (h name hname)
    exact List.mem_map_of_mem (Registry.mem_of_get? hv)
  have hle := ((hn.sublist (List.drop_sublist _ _)).subperm hsub).length_le
  rw [List.length_drop, Registry.names, List.length_map] at hle
  rw [requiredArity, hm]
  dsimp only [Registry.size]
  omega

/-- Arguments can be bound to fixed parameters exactly if each has an argument or a default
value. -/
lemma exists_bind_iff (hm : m.parameters = .fixed names defaults) (hn : names.Nodup) :
    (∃ bindings, m.bind mixin args = .ok bindings) ↔ Supplies names defaults args := by
  rw [Mixin.bind, hm]
  dsimp only
  split
  · next hlt =>
    refine iff_of_false (by simp) fun h => ?_
    have := requiredArity_le hm hn h
    omega
  · exact exists_bindNames_iff

/-- An inclusion is turned away for its number of arguments, or for a parameter that has neither an
argument nor a default value. -/
lemma bind_eq_error (hm : m.parameters = .fixed names defaults)
    (h : m.bind mixin args = .error fault) :
    fault = .tooFewArguments mixin m.requiredArity args.length ∨
      ∃ name ∈ names.drop args.length, defaults.contains name = false ∧
        fault = .missingArgument name mixin := by
  rw [Mixin.bind, hm] at h
  dsimp only at h
  split at h
  · cases h
    exact .inl rfl
  · exact .inr (bindNames_eq_error h)

/-- Arguments beyond the parameters do not matter. -/
lemma bind_take (hm : m.parameters = .fixed names defaults) :
    m.bind mixin (args.take names.length) = m.bind mixin args := by
  by_cases hl : args.length ≤ names.length
  · rw [List.take_of_length_le hl]
  · -- With an argument for every parameter, both lists pass the check of their number.
    have hr : m.requiredArity ≤ names.length := by
      rw [requiredArity, hm]
      exact Nat.sub_le _ _
    rw [Mixin.bind, Mixin.bind, hm]
    dsimp only
    rw [if_neg, if_neg, bindNames_take]
    · omega
    · rw [List.length_take]
      omega

/-! ### Inclusions -/

/-- An expansion fails only where the arguments cannot be bound. -/
lemma bind_eq_error_of_expand (h : m.expand mixin args = .error fault) :
    m.bind mixin args = .error fault := by
  rw [expand] at h
  cases hb : m.bind mixin args with
  | ok bindings =>
    rw [hb] at h
    cases h
  | error other =>
    rw [hb] at h
    cases h
    rfl

/-- A mixin can be expanded exactly if its arguments can be bound. -/
lemma exists_expand_iff :
    (∃ fragments, m.expand mixin args = .ok fragments) ↔
      ∃ bindings, m.bind mixin args = .ok bindings := by
  constructor
  · rintro ⟨fragments, h⟩
    obtain ⟨bindings, hb, -⟩ := exists_bind_of_expand h
    exact ⟨bindings, hb⟩
  · rintro ⟨bindings, hb⟩
    rw [expand, hb]
    exact ⟨_, rfl⟩

/-- A mixin with fixed parameters has the ones it was given. -/
lemma eq_of_fixed (h : Mixin.fixed names defaults body = .ok m) :
    m = ⟨.fixed names defaults, body⟩ := by
  unfold Mixin.fixed at h
  split at h
  · cases h
  · cases h
    rfl

/-- An inclusion of a mixin with different named parameters succeeds exactly if each parameter
without an argument has a default value, and fails with a fault of its arguments otherwise. It
gives as many lines and rules as the mixin has, and no argument beyond the parameters makes a
difference. -/
theorem expands_iff_supplied (hm : Mixin.fixed names defaults body = .ok m) (hn : names.Nodup)
    (mixin : String) (args : List String) :
    ((∃ fragments, m.expand mixin args = .ok fragments) ↔ Supplies names defaults args) ∧
    (¬Supplies names defaults args →
      ∃ fault, m.expand mixin args = .error fault ∧
        (Stylesheet.Fault.mixin fault).category = .argument) ∧
    (∀ fragments, m.expand mixin args = .ok fragments →
      fragments.direct.length = body.direct.length ∧
        fragments.deferred.length = body.deferred.length) ∧
    ∀ others, others.take names.length = args.take names.length →
      m.expand mixin others = m.expand mixin args := by
  have hp : m.parameters = .fixed names defaults := by rw [eq_of_fixed hm]
  have hb : m.body = body := by rw [eq_of_fixed hm]
  have succeeds : (∃ fragments, m.expand mixin args = .ok fragments) ↔
      Supplies names defaults args :=
    exists_expand_iff.trans (exists_bind_iff hp hn)
  refine ⟨succeeds, fun hs => ?_, fun fragments h => ?_, fun others h => ?_⟩
  · cases he : m.expand mixin args with
    | ok fragments => exact absurd (succeeds.1 ⟨fragments, he⟩) hs
    | error fault =>
      refine ⟨fault, rfl, ?_⟩
      obtain rfl | ⟨_, -, -, rfl⟩ := bind_eq_error hp (bind_eq_error_of_expand he)
      · rfl
      · rfl
  · obtain ⟨bindings, -, rfl⟩ := exists_bind_of_expand h
    simp [Fragments.map, hb]
  · rw [expand, expand, ← bind_take hp, h, bind_take hp]

/-- Default values for the first and the last of three parameters. -/
def outerInsets : Registry String := ⟨[("$top", "0"), ("$bottom", "0")]⟩

/-- One argument is as many as the mixin requires, but it leaves the second parameter without a
value. Two arguments supply it. -/
theorem expands_iff_supplied_outerInsets :
    ∃ m, Mixin.fixed ["$top", "$side", "$bottom"] outerInsets
        { direct := ["padding: $top $side $bottom;"] } = .ok m ∧
      m.requiredArity = 1 ∧
      (∃ fault, m.expand "inset" ["1px"] = .error fault ∧
        (Stylesheet.Fault.mixin fault).category = .argument) ∧
      ∃ fragments, m.expand "inset" ["1px", "2px"] = .ok fragments ∧
        fragments.direct.length = 1 ∧ m.expand "inset" ["1px", "2px", "3px", "4px"] =
          m.expand "inset" ["1px", "2px", "3px"] := by
  have hm : Mixin.fixed ["$top", "$side", "$bottom"] outerInsets
      { direct := ["padding: $top $side $bottom;"] } = .ok _ := rfl
  have supplied (args : List String) := expands_iff_supplied hm (by decide) "inset" args
  have missing : ¬Supplies ["$top", "$side", "$bottom"] outerInsets ["1px"] := by
    intro h
    have := h "$side" (by decide)
    revert this
    decide
  have given : Supplies ["$top", "$side", "$bottom"] outerInsets ["1px", "2px"] := by
    intro name hn
    rw [List.mem_singleton.1 hn]
    decide
  obtain ⟨fragments, h⟩ := (supplied ["1px", "2px"]).1.2 given
  exact ⟨_, hm, rfl, (supplied ["1px"]).2.1 missing, fragments, h,
    ((supplied ["1px", "2px"]).2.2.1 fragments h).1, (supplied ["1px", "2px", "3px"]).2.2.2 _ rfl⟩

end Stylesheet.Mixin
