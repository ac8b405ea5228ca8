import Stylesheet.Mixin
import Stylesheet.Proofs.Basic
import Stylesheet.Proofs.Precedence

/-!
# Binding the parameters of a mixin

An inclusion binds the parameters of a mixin in their order, each to the argument at its position or
else to its default value.
-/

namespace Stylesheet

/-- The names of parameters have a property, and their default values have another. -/
def Parameters.Sorted (P T : String → Prop) : Parameters → Prop
  | fixed names defaults => (∀ name ∈ names, P name) ∧ ∀ e ∈ defaults.entries, T e.2
  | variadic name => P name

/-- Parameters of some sorts are of wider ones. -/
lemma Parameters.Sorted.mono {P T U : String → Prop} {ps : Parameters} (h : ps.Sorted P T)
    (htu : ∀ t, T t → U t) : ps.Sorted P U := by
  cases ps with
  | fixed names defaults => exact ⟨h.1, fun e he => htu _ (h.2 e he)⟩
  | variadic name => exact h

namespace Mixin

variable {m : Mixin} {mixin : String} {names args : List String} {defaults : Registry String}
  {bindings : List (String × String)} {fragments : Fragments}

/-- Each name is bound to the argument in its place, or to its default value. -/
lemma bindNames_eq_ok (h : bindNames mixin defaults names args = .ok bindings) :
    bindings.map Prod.fst = names ∧
      ∀ (i : Nat) (b : String × String), bindings[i]? = some b →
        args[i]?.or (defaults.get? b.1) = some b.2 := by
  induction names generalizing args bindings with
  | nil =>
    cases h
    simp
  | cons name names ih =>
    rw [bindNames] at h
    split at h
    · next value hv =>
      obtain ⟨_, hb, h⟩ := Expr.bind_eq_ok_iff.1 h
      cases hb
      obtain ⟨rest, hr, h⟩ := Expr.bind_eq_ok_iff.1 h
      cases h
      obtain ⟨hn, hi⟩ := ih hr
      refine ⟨by rw [List.map_cons, hn], fun i b hb => ?_⟩
      cases i with
      | zero =>
        cases hb
        rwa [← List.head?_eq_getElem?]
      | succ i =>
        rw [List.getElem?_cons_succ] at hb
        rw [← List.getElem?_tail]
        exact hi i b hb
    · cases h

/-- With named parameters, the arguments are bound by position. -/
lemma bind_eq_ok_of_fixed (hm : m.parameters = .fixed names defaults)
    (h : m.bind mixin args = .ok bindings) :
    bindings.map Prod.fst = names ∧
      ∀ (i : Nat) (b : String × String), bindings[i]? = some b →
        args[i]?.or (defaults.get? b.1) = some b.2 := by
  rw [Mixin.bind, hm] at h
  dsimp only at h
  split at h
  · cases h
  · exact bindNames_eq_ok h

/-- What holds of the names of the parameters holds of the names that are bound, and what holds of
the default values and the arguments of the values. -/
lemma forall_of_bind {P T : String → Prop} (hm : m.parameters.Sorted P T)
    (ha : ∀ arg ∈ args, T arg) (hall : T (", ".intercalate args))
    (h : m.bind mixin args = .ok bindings) : ∀ b ∈ bindings, P b.1 ∧ T b.2 := by
  cases hp : m.parameters with
  | variadic parameter =>
    rw [Mixin.bind, hp] at h
    cases h
    rw [hp] at hm
    exact List.forall_mem_singleton.2 ⟨hm, hall⟩
  | fixed names defaults =>
    obtain ⟨hnames, hvalues⟩ := bind_eq_ok_of_fixed hp h
    rw [hp] at hm
    intro b hb
    refine ⟨hm.1 b.1 (hnames ▸ List.mem_map_of_mem hb), ?_⟩
    obtain ⟨i, hi⟩ := List.mem_iff_getElem?.1 hb
    rcases Option.or_eq_some_iff.1 (hvalues i b hi) with harg | ⟨-, hdefault⟩
    · exact ha b.2 (List.mem_of_getElem? harg)
    · exact hm.2 _ (Registry.mem_of_get? hdefault)

/-- The texts of an inclusion are those of the mixin, with each parameter substituted. -/
lemma exists_bind_of_expand (h : m.expand mixin args = .ok fragments) :
    ∃ bindings, m.bind mixin args = .ok bindings ∧
      fragments = m.body.map (substituteAll bindings) := by
  obtain ⟨bindings, hb, h⟩ := Expr.bind_eq_ok_iff.1 h
  cases h
  exact ⟨bindings, hb, rfl⟩

/-- What each substitution keeps, all of them keep. -/
lemma substituteAll_keeps {P : String → Prop} {text : String}
    (h : ∀ b ∈ bindings, ∀ t, P t → P (Text.substitute t b.1 b.2)) (ht : P text) :
    P (substituteAll bindings text) :=
  List.foldlRecOn bindings _ ht fun t ht b hb => h b hb t ht

end Mixin

end Stylesheet
