import Stylesheet.Node.Build
import Stylesheet.Proofs.Walk

/-!
# The branches of a conditional

A conditional takes the first branch whose guard holds, but it passes over a further branch whose
block renders to nothing, as if its guard had failed. What such a block did to the state stays, so
two branches can take effect (`conditional_falls_through`). `conditional_renders_one_branch` says
what holds: the text is that of one block, and the state is the one that this block leaves after
the blocks that were passed over.
-/

namespace Stylesheet

namespace Node

/-- The block of a further branch. -/
def elseIfBlock? (branch : Node) : Option Node := branch.children[1]?

/-- The blocks of the further branches of a conditional. -/
def elseIfBlocks (node : Node) : List Node := (node.filter .elseIf).filterMap elseIfBlock?

/-- The blocks of all branches of a conditional, in their order. -/
def branchBlocks (node : Node) : List Node :=
  node.children[1]?.toList ++ node.elseIfBlocks ++
    ((node.find? .otherwise).bind (·.children[0]?)).toList

end Node

namespace Render

/-- A further branch is passed over: its guard holds and its block renders to nothing. -/
def PassesOver (branch : Node) (c m : Context) : Prop :=
  ∃ guard body, branch.children[0]? = some guard ∧ branch.elseIfBlock? = some body ∧
    holds guard c = .ok true c ∧ block body c = .ok "" m

/-- Further branches that are passed over one after the other, each from the state that the one
before it leaves. -/
inductive PassedOver : Context → List Node → Context → Prop where
  | nil {c} :
    PassedOver c [] c
  | cons {c m c' branch branches} :
    PassesOver branch c m →
    PassedOver m branches c' →
    PassedOver c (branch :: branches) c'

variable {node branch : Node} {c m c' : Context} {text : String}

/-- A further branch that does not fail is skipped, passed over, or gives its text. -/
lemma elseIfBranch_ok {result : Option String} (h : elseIfBranch branch c = .ok result m) :
    (result = none ∧ m = c) ∨
      (result = none ∧ PassesOver branch c m) ∨
      ∃ body text, result = some text ∧ branch.elseIfBlock? = some body ∧
        block body c = .ok text m := by
  rw [elseIfBranch] at h
  obtain ⟨guard, hg, h⟩ := ofExcept_bind_eq_ok_iff.1 h
  obtain ⟨decided, hd, h⟩ := (Discipline.reading_lenient.holds guard.1).bind_eq_ok h
  cases decided with
  | false =>
    cases h
    exact .inl ⟨rfl, rfl⟩
  | true =>
    obtain ⟨body, hb, h⟩ := ofExcept_bind_eq_ok_iff.1 h
    obtain ⟨hb, -⟩ := Node.getElem?_of_childOf hb
    obtain ⟨text, _, ht, h⟩ := bind_eq_ok_iff.1 h
    cases h
    by_cases he : text = ""
    · subst he
      exact .inr (.inl ⟨rfl, guard.1, body.1, Node.getElem?_of_child hg, hb, hd, ht⟩)
    · exact .inr (.inr ⟨body.1, text, if_neg he, hb, ht⟩)

/-- The first text among further branches comes from one of them, or from what is left, after
others before it were passed over. -/
lemma firstText_ok {branches : List Node} {rest : Render String}
    (h : firstText (branches.map elseIfBranch) rest c = .ok text c') :
    ∃ passed m, PassedOver c passed m ∧
      ((∃ branch body, (passed ++ [branch]).Sublist branches ∧ branch.elseIfBlock? = some body ∧
          block body m = .ok text c') ∨
        passed.Sublist branches ∧ rest m = .ok text c') := by
  -- The state is generalised: after a branch that is passed over, the rest starts where it ends.
  induction branches generalizing c with
  | nil => exact ⟨[], c, .nil, .inr ⟨.slnil, h⟩⟩
  | cons branch branches ih =>
    obtain ⟨result, m, hb, h⟩ := bind_eq_ok_iff.1 h
    obtain ⟨rfl, hm⟩ | ⟨rfl, hp⟩ | ⟨body, t, rfl, hbody, ht⟩ := elseIfBranch_ok hb
    · subst m
      obtain ⟨passed, m', hp, h⟩ := ih h
      refine ⟨passed, m', hp, ?_⟩
      obtain ⟨other, body, hs, h⟩ | ⟨hs, h⟩ := h
      · exact .inl ⟨other, body, hs.cons _, h⟩
      · exact .inr ⟨hs.cons _, h⟩
    · obtain ⟨passed, m', hps, h⟩ := ih h
      refine ⟨branch :: passed, m', .cons hp hps, ?_⟩
      obtain ⟨other, body, hs, h⟩ | ⟨hs, h⟩ := h
      · exact .inl ⟨other, body, hs.cons_cons _, h⟩
      · exact .inr ⟨hs.cons_cons _, h⟩
    · cases h
      refine ⟨[], c, .nil, .inl ⟨branch, body, ?_, hbody, ht⟩⟩
      simp

/-- A conditional that does not fail takes its first block, or decides among the further branches
and what is left. -/
lemma conditional_ok (h : conditional node c = .ok text c') :
    (∃ body, node.children[1]? = some body ∧ block body c = .ok text c') ∨
      firstText ((node.filter .elseIf).map elseIfBranch)
        (match node.find? .otherwise with
          | some branch => otherwiseBranch branch
          | none => return "") c = .ok text c' := by
  rw [conditional] at h
  obtain ⟨guard, -, h⟩ := ofExcept_bind_eq_ok_iff.1 h
  obtain ⟨body, hb, h⟩ := ofExcept_bind_eq_ok_iff.1 h
  obtain ⟨decided, hd, h⟩ := (Discipline.reading_lenient.holds guard.1).bind_eq_ok h
  cases decided with
  | true => exact .inl ⟨body.1, (Node.getElem?_of_childOf hb).1, h⟩
  | false =>
    rw [List.map_attach_eq_pmap, List.pmap_eq_map, if_neg Bool.false_ne_true] at h
    refine .inr ?_
    split at h <;> rename_i hf <;> rw [hf] <;> exact h

/-- The block of a further branch stands among the blocks of the conditional, after those of the
branches before it. -/
lemma sublist_branchBlocks_of_elseIf {passed : List Node} {body : Node}
    (hs : (passed ++ [branch]).Sublist (node.filter .elseIf))
    (hb : branch.elseIfBlock? = some body) :
    (passed.filterMap Node.elseIfBlock? ++ [body]).Sublist node.branchBlocks := by
  have h := hs.filterMap Node.elseIfBlock?
  rw [List.filterMap_append, List.filterMap_cons_some hb, List.filterMap_nil] at h
  unfold Node.branchBlocks
  rw [List.append_assoc]
  refine List.Sublist.trans ?_ (List.sublist_append_right _ _)
  exact h.trans (List.sublist_append_left _ _)

/-- The block of the last branch comes after those of the branches that were passed. -/
lemma sublist_branchBlocks_of_otherwise {passed : List Node} {body : Node}
    (hs : passed.Sublist (node.filter .elseIf)) (hf : node.find? .otherwise = some branch)
    (hb : branch.children[0]? = some body) :
    (passed.filterMap Node.elseIfBlock? ++ [body]).Sublist node.branchBlocks := by
  have hrest : ((node.find? .otherwise).bind (·.children[0]?)).toList = [body] := by
    simp [hf, hb]
  unfold Node.branchBlocks
  rw [hrest, List.append_assoc]
  refine List.Sublist.trans ?_ (List.sublist_append_right _ _)
  exact (hs.filterMap _).append (List.Sublist.refl _)

/-- A conditional that does not fail passes over some of its further branches and then gives the
text of one block, or none. -/
lemma conditional_chain (h : conditional node c = .ok text c') :
    ∃ passed m, PassedOver c passed m ∧ passed.Sublist (node.filter .elseIf) ∧
      (text = "" ∧ c' = m ∨
        ∃ body, (passed.filterMap Node.elseIfBlock? ++ [body]).Sublist node.branchBlocks ∧
          block body m = .ok text c') := by
  obtain ⟨body, hb, h⟩ | h := conditional_ok h
  · refine ⟨[], c, .nil, List.nil_sublist _, .inr ⟨body, ?_, h⟩⟩
    simp [Node.branchBlocks, hb]
  · obtain ⟨passed, m, hp, ⟨branch, body, hs, hb, h⟩ | ⟨hs, h⟩⟩ := firstText_ok h
    · refine ⟨passed, m, hp, (List.sublist_append_left _ _).trans hs, .inr ⟨body, ?_, h⟩⟩
      exact sublist_branchBlocks_of_elseIf hs hb
    · refine ⟨passed, m, hp, hs, ?_⟩
      cases hf : node.find? .otherwise with
      | none =>
        rw [hf] at h
        cases h
        exact .inl ⟨rfl, rfl⟩
      | some branch =>
        rw [hf] at h
        dsimp only at h
        rw [otherwiseBranch] at h
        obtain ⟨body, hb, h⟩ := ofExcept_bind_eq_ok_iff.1 h
        obtain ⟨hb, -⟩ := Node.getElem?_of_childOf hb
        exact .inr ⟨body.1, sublist_branchBlocks_of_otherwise hs hf hb, h⟩

/-- Branches whose blocks do nothing leave the state when they are passed over. -/
lemma PassedOver.eq_of_idle {passed : List Node} (hp : PassedOver c passed m)
    (idle : ∀ body ∈ passed.filterMap Node.elseIfBlock?, ∀ m, block body c = .ok "" m → m = c) :
    m = c := by
  induction hp with
  | nil => rfl
  | @cons c m c' branch branches hb _ ih =>
    obtain ⟨guard, body, -, hbody, -, hrun⟩ := hb
    rw [List.filterMap_cons_some hbody] at idle
    have hm : m = c := idle body List.mem_cons_self m hrun
    subst m
    exact ih fun body hmem => idle body (List.mem_cons_of_mem _ hmem)

/-- The text of a conditional is that of one of its blocks, and the state that it leaves is the one
that this block leaves after the further branches that were passed over. Where the blocks of the
further branches that render to nothing do nothing, either nothing happens or one block takes
effect. -/
theorem conditional_renders_one_branch (h : conditional node c = .ok text c') :
    (∃ passed m, PassedOver c passed m ∧ passed.Sublist (node.filter .elseIf) ∧
      (text = "" ∧ c' = m ∨
        ∃ body, (passed.filterMap Node.elseIfBlock? ++ [body]).Sublist node.branchBlocks ∧
          block body m = .ok text c')) ∧
    ((∀ body ∈ node.elseIfBlocks, ∀ m, block body c = .ok "" m → m = c) →
      c' = c ∧ text = "" ∨ ∃ body ∈ node.branchBlocks, block body c = .ok text c') := by
  refine ⟨conditional_chain h, fun idle => ?_⟩
  obtain ⟨passed, m, hp, hs, h⟩ := conditional_chain h
  have hm : m = c := hp.eq_of_idle fun body hb => idle body ((hs.filterMap _).subset hb)
  subst m
  obtain ⟨ht, hc⟩ | ⟨body, hb, h⟩ := h
  · exact .inl ⟨hc, ht⟩
  · exact .inr ⟨body, hb.subset (by simp), h⟩

/-- A conditional of which one branch declares a variable and the next one refers to it. -/
def fallingThrough : Node :=
  Node.conditional (Node.literal "false") []
    [(Node.literal "true", [Node.assignment "v" (Node.literal "1px")])]
    (some [Node.declaration "x" (Node.reference "v")])

/-- The block that declares the variable renders to nothing, and the one after it already finds the
variable declared. -/
theorem conditional_renders_one_branch_fallingThrough :
    ∃ c', conditional fallingThrough {} = .ok "\n\tx: var(--v);" c' ∧
      ∃ passed m, PassedOver {} passed m ∧ passed.Sublist (fallingThrough.filter .elseIf) ∧
        ("\n\tx: var(--v);" = "" ∧ c' = m ∨
          ∃ body, (passed.filterMap Node.elseIfBlock? ++ [body]).Sublist
            fallingThrough.branchBlocks ∧ block body m = .ok "\n\tx: var(--v);" c') := by
  have hrun : result? (conditional fallingThrough) {} = some "\n\tx: var(--v);" := by decide +kernel
  obtain ⟨c', h⟩ := exists_of_result? hrun
  exact ⟨c', h, (conditional_renders_one_branch h).1⟩

/-- No block of this conditional alone gives what the conditional gives. -/
theorem conditional_falls_through :
    ¬∀ text c', conditional fallingThrough {} = .ok text c' →
      c' = {} ∧ text = "" ∨
        ∃ body ∈ fallingThrough.branchBlocks, block body {} = .ok text c' := by
  intro claim
  have hrun : result? (conditional fallingThrough) {} = some "\n\tx: var(--v);" := by decide +kernel
  have alone : ∀ body ∈ fallingThrough.branchBlocks,
      result? (block body) {} ≠ some "\n\tx: var(--v);" := by decide +kernel
  obtain ⟨c', h⟩ := exists_of_result? hrun
  obtain ⟨-, ht⟩ | ⟨body, hb, ht⟩ := claim _ c' h
  · exact absurd ht (by decide)
  · exact alone body hb (by rw [result?, ht])

end Render

end Stylesheet
