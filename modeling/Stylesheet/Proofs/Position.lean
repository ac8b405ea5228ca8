import Stylesheet.Proofs.Alphabet
import Stylesheet.Proofs.RuleTree

/-!
# Where declarations and rules stand

A declaration is housed if a rule is nearer to it than any loop or mixin. The selector of a rule
depends on where it stands, too: composing it with those around it brings in no characters but
theirs.
-/

namespace Stylesheet

namespace Node

/-- Whether a declaration below a node is in a rule, if one at the node would be. -/
def houses (inRule : Bool) (node : Node) : Bool :=
  match node.kind with
  | .rule => true
  | .forLoop | .eachLoop | .mixinDeclaration => false
  | _ => inRule

/-- Of the rules, loops and mixins around each declaration in a tree, the nearest is a rule; whether
that is so at the root of the tree is given. -/
inductive Housed : Bool → Node → Prop where
  | intro {inRule node} :
    (node.kind = .declaration → inRule = true) →
    (∀ child ∈ node.children, Housed (node.houses inRule) child) →
    Housed inRule node

/-- Every declaration of a document is in a rule that is nearer than any loop or mixin. -/
def AllHoused (root : Node) : Prop := ∀ node ∈ root.children, node.Housed false

/-- A tree is housed if its root and the trees below it are. -/
lemma housed_iff {inRule : Bool} {node : Node} :
    node.Housed inRule ↔ (node.kind = .declaration → inRule = true) ∧
      ∀ child ∈ node.children, child.Housed (node.houses inRule) := by
  constructor
  · rintro ⟨hd, hc⟩
    exact ⟨hd, hc⟩
  · rintro ⟨hd, hc⟩
    exact .intro hd hc

/-- Whether a tree is housed. -/
def isHoused (inRule : Bool) (node : Node) : Bool :=
  (node.kind != .declaration || inRule) &&
    node.children.attach.all fun ⟨child, _⟩ => child.isHoused (node.houses inRule)
termination_by sizeOf node
decreasing_by exact sizeOf_lt_of_mem ‹_›

/-- The check finds trees that are housed. -/
lemma housed_of_isHoused (inRule : Bool) (node : Node) (h : node.isHoused inRule = true) :
    node.Housed inRule := by
  induction node using childInduction generalizing inRule with
  | step node ih =>
    rw [isHoused, Bool.and_eq_true, List.all_eq_true] at h
    refine .intro (fun hk => by simpa [hk] using h.1) fun child hc => ih child hc _ ?_
    exact h.2 ⟨child, hc⟩ (List.mem_attach _ _)

/-- A document is housed if the check finds its statements to be. -/
lemma allHoused_of_all {root : Node} (h : root.children.all (·.isHoused false) = true) :
    root.AllHoused := by
  intro node hn
  exact housed_of_isHoused false node (List.all_eq_true.1 h node hn)

/-- The block of a node that changes nothing about where a declaration is. -/
lemma Housed.statement {inRule now : Bool} {node block other : Node} (h : node.Housed inRule)
    (hn : node.houses inRule = now) (hb : block ∈ node.children) (hk : block.kind = .block)
    (ho : other ∈ block.children) : other.Housed now := by
  have hblock := (housed_iff.1 h).2 block hb
  have hsame : block.houses now = now := by simp [houses, hk]
  rw [hn] at hblock
  rw [← hsame]
  exact (housed_iff.1 hblock).2 other ho

/-- The block that a node ends with is one. -/
lemma kind_of_body {node : Node} {block : node.Child} (h : node.body = .ok block) :
    block.1.kind = .block := by
  unfold body at h
  split at h
  · split at h
    · next hk =>
      cases h
      exact hk
    · cases h
  · cases h

end Node

/-! ### Selectors -/

/-- The selector around a statement of a mixin is of a sort. -/
def Render.Site.Within (T : String → Prop) : Render.Site → Prop
  | body => True
  | rule selector => T selector

section

variable {A : Char → Prop} (hA : Text.Ample A) {parent selector : String}
include hA

/-- A selector that is placed under another has no characters but theirs. -/
lemma over_compose (hp : Text.Over A parent) (hs : Text.Over A selector) :
    Text.Over A (Selector.compose parent selector) := by
  have ht := hs.trim
  unfold Selector.compose
  dsimp only
  split
  · refine Text.over_ofList.2 fun c hc => ?_
    obtain ⟨d, hd, hc⟩ := List.mem_flatMap.1 hc
    split at hc
    · exact hp c hc
    · rw [List.mem_singleton.1 hc]
      exact ht d hd
  · split
    · exact ht
    · refine Text.over_append.2 ⟨Text.over_append.2 ⟨hp, hA.over_of_isPlain rfl⟩, ht⟩

/-- The selector of nested rules has no characters but theirs. -/
lemma over_chain {path : List String} (h : ∀ s ∈ path, Text.Over A s) :
    Text.Over A (Selector.chain path) := by
  unfold Selector.chain
  induction path using List.reverseRecOn with
  | nil => exact Text.over_empty
  | append_singleton path s ih =>
    rw [List.foldl_append, List.foldl_cons, List.foldl_nil]
    rw [List.forall_mem_append, List.forall_mem_singleton] at h
    exact over_compose hA (ih h.1) h.2

/-- The selector of a rule of a mixin has no characters but its own and those around it. -/
lemma over_siteCompose {site : Render.Site} (hp : site.Within (Text.Over A))
    (hs : Text.Over A selector) : Text.Over A (site.compose selector) := by
  cases site with
  | body => exact hs
  | rule parent =>
    unfold Render.Site.compose
    dsimp only
    split
    · exact hs
    · exact over_compose hA hp hs

/-- The selector of a rule is written in its group. -/
lemma Node.Over.selectorText {group : Node} (h : group.Over A) :
    Text.Over A group.selectorText := by
  unfold Node.selectorText
  split
  · exact h.text.trim
  · refine Text.over_intercalate (hA.over_of_isPlain rfl) fun t ht => ?_
    obtain ⟨child, hc, rfl⟩ := List.mem_map.1 (List.mem_filter.1 ht).1
    exact (h.child hc).text.trim

end

end Stylesheet
