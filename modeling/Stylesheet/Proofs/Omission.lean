import Stylesheet.Proofs.Agreement
import Stylesheet.Proofs.Steady

/-!
# Mixins that are not included

A document is compared with what is left of it without the declaration of a mixin, wherever that
declaration stands. Both runs go through the same statements but for this one, and their tables of
mixins differ in one name, which no statement looks up.
-/

namespace Stylesheet

namespace Node

/-- The statement at a position of the document or of a block in it, to which a path of positions
leads. -/
def statementAt? (i : Nat) : List Nat → Node → Option Node
  | [], node => if node.kind.listsStatements then node.children[i]? else none
  | j :: path, node => do
    let child ← node.children[j]?
    child.statementAt? i path

/-- The tree without this statement. The texts of the nodes around it stay as they are. -/
def removeAt (i : Nat) : List Nat → Node → Node
  | [], node => { node with children := node.children.eraseIdx i }
  | j :: path, node => { node with children := node.children.modify j (removeAt i path) }

/-- The mixin that a node declares is included somewhere in the tree. -/
def IncludesMixinOf (root declaration : Node) : Prop :=
  ∃ node name, root.Holds (fun _ => True) node ∧ node.kind = .includeDeclaration ∧
    node.name = .ok name ∧ declaration.name = .ok name

variable {root branch node declaration : Node}

/-- What a branch holds belongs to the tree. -/
lemma Holds.of_branch {sort : Node → Prop} (hs : sort root) (hb : branch ∈ root.children)
    (h : branch.Holds sort node) : root.Holds sort node := by
  induction h with
  | root => exact .child .root hs hb
  | child _ hn hc ih => exact ih.child hn hc

/-- A branch that includes a mixin makes the node around it include the mixin. -/
lemma IncludesMixinOf.of_branch (hb : branch ∈ root.children)
    (h : branch.IncludesMixinOf declaration) : root.IncludesMixinOf declaration := by
  obtain ⟨node, name, hn, hi⟩ := h
  exact ⟨node, name, .of_branch trivial hb hn, hi⟩

/-- It is enough to look at each node. -/
lemma not_includesMixinOf
    (h : root.every (fun node => node.kind != .includeDeclaration ||
      node.name.toOption != declaration.name.toOption) = true) :
    ¬root.IncludesMixinOf declaration := by
  rintro ⟨node, name, hn, hk, hi, hd⟩
  simpa [hk, hi, hd, Except.toOption] using every_of_holds h hn

end Node

/-! ### The two runs -/

/-- A node is the same in both runs, or a statement is removed from it. In both cases it does not
include what that statement declares. -/
structure Spared (removed a b : Node) : Prop where
  kept : b = a ∨ ∃ i path, a.statementAt? i path = some removed ∧ b = a.removeAt i path
  unused : ¬a.IncludesMixinOf removed

namespace Spared

variable {removed a b : Node}

/-- Nodes that are spared are of the same kind. -/
lemma kind (h : Spared removed a b) : b.kind = a.kind := by
  obtain rfl | ⟨i, _ | ⟨j, path⟩, -, rfl⟩ := h.kept <;> rfl

/-- Nodes that are spared have the same text. -/
lemma text (h : Spared removed a b) : b.text = a.text := by
  obtain rfl | ⟨i, _ | ⟨j, path⟩, -, rfl⟩ := h.kept <;> rfl

/-- Without a statement that is removed the other statements are spared. -/
lemma thinned_eraseIdx {as : List Node} {i : Nat} (ha : ∀ a ∈ as, Spared removed a a)
    (hi : as[i]? = some removed) :
    Thinned (Spared removed) (· = removed) as (as.eraseIdx i) := by
  induction as generalizing i with
  | nil => cases hi
  | cons first as ih =>
    rw [List.forall_mem_cons] at ha
    cases i with
    | zero =>
      cases hi
      exact .dropped rfl (.of_forall₂ (List.forall₂_same.2 ha.2))
    | succ i => exact .kept ha.1 (ih ha.2 hi)

/-- A change of one child that spares it spares all. -/
lemma forall₂_modify {as : List Node} {j : Nat} {f : Node → Node}
    (ha : ∀ a ∈ as, Spared removed a a) (hj : as[j]? = some a) (hf : Spared removed a (f a)) :
    List.Forall₂ (Spared removed) as (as.modify j f) := by
  induction as generalizing j with
  | nil => cases hj
  | cons first as ih =>
    rw [List.forall_mem_cons] at ha
    cases j with
    | zero =>
      cases hj
      exact .cons hf (List.forall₂_same.2 ha.2)
    | succ j => exact .cons ha.1 (ih ha.2 hj)

/-- The children of a node are spared, or the removed statement is one of them. -/
lemma children (h : Spared removed a b) :
    List.Forall₂ (Spared removed) a.children b.children ∨
      a.kind.listsStatements = true ∧
        Thinned (Spared removed) (· = removed) a.children b.children := by
  have unused (child : Node) (hc : child ∈ a.children) : ¬child.IncludesMixinOf removed :=
    fun hi => h.unused (hi.of_branch hc)
  have same (child : Node) (hc : child ∈ a.children) : Spared removed child child :=
    ⟨.inl rfl, unused child hc⟩
  obtain rfl | ⟨i, path, hs, rfl⟩ := h.kept
  · exact .inl (List.forall₂_same.2 same)
  cases path with
  | nil =>
    obtain ⟨hl, hi⟩ := Option.ite_none_right_eq_some.1 hs
    exact .inr ⟨hl, thinned_eraseIdx same hi⟩
  | cons j path =>
    obtain ⟨child, hj, hs⟩ := Option.bind_eq_some_iff.1 hs
    refine .inl (forall₂_modify same hj ⟨.inr ⟨i, path, hs, rfl⟩, ?_⟩)
    exact unused child (List.mem_of_getElem? hj)

end Spared

/-- A run on a document and one without the declaration of a mixin that is not included. -/
def Simulation.without (declaration : Node) (hk : declaration.kind = .mixinDeclaration) :
    Simulation where
  sameLayout := True
  oneSided := True
  apart name := declaration.name = .ok name
  alike := Spared declaration
  dropped := (· = declaration)
  matching _ _ := True
  kind := Spared.kind
  text := Spared.text
  children h hl := h.children.resolve_right fun ht => Bool.false_ne_true (hl.symm.trans ht.1)
  statements h := h.children.elim .of_forall₂ And.right
  included h hi hn ha := h.unused ⟨_, _, .root, hi, hn, ha⟩
  drops := by
    rintro _ rfl
    exact ⟨trivial, hk, fun _ => id⟩
  fault _ := trivial
  locate _ _ := trivial

namespace Compiler

/-- The declaration of a mixin that is not included can be removed from a document that compiles:
the text and the variables stay the same. -/
theorem unused_mixin_is_inert {compiler : Compiler} {root declaration : Node} {i : Nat}
    {path : List Nat} {css : String} (hd : root.statementAt? i path = some declaration)
    (hk : declaration.kind = .mixinDeclaration) (hu : ¬root.IncludesMixinOf declaration)
    (hc : (compiler.compile root).1 = .ok css) :
    (compiler.compile (root.removeAt i path)).1 = .ok css ∧
      (compiler.compile (root.removeAt i path)).2.symbols =
        (compiler.compile root).2.symbols := by
  let K := Simulation.without declaration hk
  have hr : K.alike root (root.removeAt i path) := ⟨.inr ⟨i, path, hd, rfl⟩, hu⟩
  have ends := K.ends_document hr (.refl compiler.context.reset) fun _ => ⟨rfl, rfl⟩
  unfold compile at hc ⊢
  generalize Render.document root compiler.context.reset = result at ends hc
  generalize Render.document (root.removeAt i path) compiler.context.reset = result' at ends
  cases ends with
  | ok hcss hl =>
    cases hc
    exact ⟨congrArg Except.ok (hcss trivial), hl.symbols⟩
  | error => cases hc
  | failed => cases hc

/-- A mixin with a rule. -/
def hoverMixin (name : String) : Node :=
  .mixin name [.parameter "w"] [.rule ["&:h"] [.declaration "x" (.reference "w")]]

/-- Both rounds of a loop include a mixin. Another one is declared in a branch, which has no text
and falls through to the next. -/
def mixinInBranch : Node :=
  .stylesheet
    [.assignment "g" (.literal "1"),
      hoverMixin "m",
      .forLoop "i" (.literal "1") "through" (.literal "2")
        [.rule [".#\x7b$i\x7d"]
          [.conditional (.literal "false") [] [(.literal "true", [hoverMixin "u"])]
              (some [.declaration "y" (.reference "g")]),
            .inclusion "m" [.literal "2"]]]]

/-- A mixin that is declared in a branch and not included does not matter. -/
theorem unused_mixin_is_inert_mixinInBranch :
    let css := ":root\x7b\n\t--g: 1;\n\x7d\n\n" ++
      ".1\x7b\n\ty: var(--g);\n\x7d\n\n\n.1:h\x7b\n\tx: 2;\n\x7d\n" ++
      ".2\x7b\n\ty: var(--g);\n\x7d\n\n\n.2:h\x7b\n\tx: 2;\n\x7d"
    let rest := mixinInBranch.removeAt 0 [2, 4, 0, 1, 0, 2, 1]
    mixinInBranch.statementAt? 0 [2, 4, 0, 1, 0, 2, 1] = some (hoverMixin "u") ∧
      (Compiler.compile {} mixinInBranch).1 = .ok css ∧
      (Compiler.compile {} rest).1 = .ok css ∧
      (Compiler.compile {} rest).2.symbols = (Compiler.compile {} mixinInBranch).2.symbols := by
  intro css rest
  have hd : mixinInBranch.statementAt? 0 [2, 4, 0, 1, 0, 2, 1] = some (hoverMixin "u") := by
    decide +kernel
  have hu : ¬mixinInBranch.IncludesMixinOf (hoverMixin "u") :=
    Node.not_includesMixinOf (by decide +kernel)
  have hrun : (Compiler.compile {} mixinInBranch).1 = .ok css := by decide +kernel
  exact ⟨hd, hrun, unused_mixin_is_inert hd rfl hu hrun⟩

end Compiler

end Stylesheet
