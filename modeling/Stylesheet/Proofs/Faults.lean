import Stylesheet.Render.Capture
import Stylesheet.Proofs.Basic

/-!
# Where faults come from

`Fails P` holds of a result whose failures all have the property `P`. Reading the layout of a node
gives the child that stands there or fails with a flaw of that node, and capturing a mixin fails
with any fault but the one of the nesting limit, which only the rendering itself can exceed.
-/

namespace Stylesheet

/-- Locating a diagnostic keeps its fault. -/
@[simp] lemma Diagnostic.locate_fault (d : Diagnostic) (span : Span) :
    (d.locate span).fault = d.fault := by
  unfold locate
  split <;> rfl

/-- A diagnostic that says that the document nests too deep. -/
def Diagnostic.IsLimit (d : Diagnostic) : Prop := ∃ limit, d.fault = .tooDeep limit

/-- Locating a diagnostic does not make it one of the limit, nor keeps it from being one. -/
@[simp] lemma Diagnostic.isLimit_locate (d : Diagnostic) (span : Span) :
    (d.locate span).IsLimit ↔ d.IsLimit := by
  simp [IsLimit]

/-- A malformed node is no matter of the limit. -/
@[simp] lemma Node.not_isLimit_malformed (node : Node) (flaw : Flaw) :
    ¬(node.malformed flaw).IsLimit := by
  simp [Node.malformed, Diagnostic.IsLimit]

/-- Every failure of a result has a property. -/
def Fails {α : Type} (P : Diagnostic → Prop) (result : Except Diagnostic α) : Prop :=
  ∀ d, result = .error d → P d

namespace Fails

variable {α β : Type} {P Q : Diagnostic → Prop}

/-- A result that is there does not fail. -/
lemma ok (a : α) : Fails P (.ok a : Except Diagnostic α) := by
  intro d hd
  cases hd

/-- A failure has the property of its diagnostic. -/
lemma error {d : Diagnostic} (hd : P d) : Fails P (.error d : Except Diagnostic α) := by
  rintro _ ⟨⟩
  exact hd

/-- Failures have every wider property. -/
lemma mono {result : Except Diagnostic α} (h : Fails P result) (hPQ : ∀ d, P d → Q d) :
    Fails Q result :=
  fun d hd => hPQ d (h d hd)

/-- A sequence fails where one of its parts does. -/
lemma bind {first : Except Diagnostic α} {next : α → Except Diagnostic β} (hf : Fails P first)
    (hn : ∀ a, Fails P (next a)) : Fails P (first >>= next) := by
  cases first with
  | ok a => exact hn a
  | error d => exact error (hf d rfl)

/-- Results over a list fail where one of them does. -/
lemma mapM {as : List α} {f : α → Except Diagnostic β} (hf : ∀ a ∈ as, Fails P (f a)) :
    Fails P (as.mapM f) := by
  induction as with
  | nil => exact ok []
  | cons a as ih =>
    rw [List.mapM_cons]
    refine (hf a List.mem_cons_self).bind fun b => ?_
    refine (ih fun a' ha' => hf a' (List.mem_cons_of_mem a ha')).bind fun bs => ?_
    exact ok _

end Fails

/-! ### The layout of a node -/

namespace Node

/-- A diagnostic that is a flaw of a node. -/
def IsFlaw (node : Node) (d : Diagnostic) : Prop := ∃ flaw, d = node.malformed flaw

/-- A flaw of a node is no matter of the limit. -/
lemma IsFlaw.not_isLimit {node : Node} {d : Diagnostic} (h : node.IsFlaw d) : ¬d.IsLimit := by
  obtain ⟨flaw, rfl⟩ := h
  exact node.not_isLimit_malformed flaw

variable (node : Node)

/-- A child that is missing is a flaw of the node. -/
lemma child_fails (position : Nat) : Fails node.IsFlaw (node.child position) := by
  unfold child
  split
  · exact .ok _
  · exact .error ⟨_, rfl⟩

/-- A child that is missing or of another kind is a flaw of the node. -/
lemma childOf_fails (position : Nat) (kind : Kind) :
    Fails node.IsFlaw (node.childOf position kind) := by
  refine (node.child_fails position).bind fun child => ?_
  split
  · exact .ok _
  · exact .error ⟨_, rfl⟩

/-- A body that is missing is a flaw of the node. -/
lemma body_fails : Fails node.IsFlaw node.body := by
  unfold body
  split
  · split
    · exact .ok _
    · exact .error ⟨_, rfl⟩
  · exact .error ⟨_, rfl⟩

/-- A name that is missing is a flaw of the node. -/
lemma name_fails : Fails node.IsFlaw node.name :=
  (node.childOf_fails 0 .identifier).bind fun _ => .ok _

variable {node} {position : Nat} {kind : Kind}

/-- A child that is found stands at its position. -/
lemma getElem?_of_child {found : node.Child} (h : node.child position = .ok found) :
    node.children[position]? = some found.1 := by
  unfold child at h
  split at h
  · rename_i h'
    cases h
    exact h'
  · cases h

/-- A child that stands at a position is found. -/
lemma child_of_getElem? {found : Node} (h : node.children[position]? = some found) :
    node.child position = .ok ⟨found, List.mem_of_getElem? h⟩ := by
  unfold child
  split
  · rename_i h'
    cases h.symm.trans h'
    rfl
  · rename_i h'
    cases h.symm.trans h'

/-- The child of a kind that is read is the one at the position, and of that kind. -/
lemma getElem?_of_childOf {found : node.Child} (h : node.childOf position kind = .ok found) :
    node.children[position]? = some found.1 ∧ found.1.kind = kind := by
  unfold childOf at h
  cases hc : node.child position with
  | error d =>
    rw [hc] at h
    cases h
  | ok other =>
    rw [hc] at h
    change (if other.1.kind = kind then _ else _) = _ at h
    split at h
    · cases h
      exact ⟨getElem?_of_child hc, ‹_›⟩
    · cases h

/-- A child of the kind that stands at the position is read. -/
lemma childOf_of_getElem? {found : Node} (h : node.children[position]? = some found)
    (hk : found.kind = kind) :
    node.childOf position kind = .ok ⟨found, List.mem_of_getElem? h⟩ := by
  unfold childOf
  rw [child_of_getElem? h]
  exact if_pos hk

/-- A name is found where the first child is an identifier. -/
lemma name_of_getElem? {found : Node} (h : node.children[0]? = some found)
    (hk : found.kind = .identifier) : node.name = .ok (Text.trim found.text) := by
  rw [Node.name, childOf_of_getElem? h hk]
  rfl

/-- A body is found where the last child is a block. -/
lemma body_of_getLast? {found : Node} (h : node.children.getLast? = some found)
    (hk : found.kind = .block) : node.body = .ok ⟨found, List.mem_of_getLast? h⟩ := by
  unfold body
  split
  · next child hc =>
    obtain rfl : found = child := by
      rw [h] at hc
      exact Option.some.inj hc
    rw [if_pos hk]
  · next hc =>
    rw [h] at hc
    cases hc

end Node

/-! ### Capturing mixins -/

namespace Render

/-- No inclusion fails at the nesting limit. -/
lemma expandMixin_fails (mixins : MixinTable) (node : Node) (args : List String) :
    Fails (fun d => ¬d.IsLimit) (expandMixin mixins node args) := by
  refine (node.name_fails.mono fun _ => Node.IsFlaw.not_isLimit).bind fun name => ?_
  split
  · exact .error (by simp [Diagnostic.IsLimit])
  · rename_i m _
    cases m.expand name args with
    | ok fragments => exact .ok _
    | error fault => exact .error (by simp [Diagnostic.IsLimit])

/-- Capturing a declaration fails only for a flaw of the node. -/
lemma rawDeclaration_fails (node : Node) : Fails node.IsFlaw (rawDeclaration node) :=
  node.name_fails.bind fun _ => (node.child_fails 1).bind fun _ => .ok _

/-- Capturing does not count levels, so it never fails at the nesting limit. -/
lemma capture_fails (mixins : MixinTable) (indent : String) (node : Node) : ∀ site,
    Fails (fun d => ¬d.IsLimit) (captureStatement mixins indent site node) ∧
      Fails (fun d => ¬d.IsLimit) (captureBlock mixins indent site node) := by
  -- The block of a rule is captured at another site than the rule.
  induction node using Node.childInduction with
  | step node ih =>
    intro site
    have rule : Fails (fun d => ¬d.IsLimit) (captureRule mixins indent site node) := by
      rw [captureRule]
      refine ((node.childOf_fails 0 _).mono fun _ => Node.IsFlaw.not_isLimit).bind fun group => ?_
      refine ((node.childOf_fails 1 _).mono fun _ => Node.IsFlaw.not_isLimit).bind fun body => ?_
      exact (ih body.1 body.2 _).2.bind fun _ => .ok _
    constructor
    · rw [captureStatement]
      split
      · exact ((rawDeclaration_fails node).mono fun _ => Node.IsFlaw.not_isLimit).bind
          fun _ => .ok _
      · exact rule.bind fun _ => .ok _
      · exact (expandMixin_fails mixins node _).bind fun _ => .ok _
      · refine .error ?_
        cases site <;> simp [Diagnostic.IsLimit, Site.fault]
    · rw [captureBlock]
      exact (Fails.mapM fun child hc => (ih child hc site).1).bind fun _ => .ok _

end Render

end Stylesheet
