import Stylesheet.Proofs.Agreement
import Stylesheet.Proofs.Origin
import Stylesheet.Proofs.Reach

/-!
# Locations

Where nodes are located does not matter for what a document means, and neither does the layout: two
documents that differ in nothing else declare the same variables and fail for the same reason. What
locations are for is the place of a failure: it is that of a node in the statement that failed. Both
facts are cases of a comparison of two runs, the second one of a run with itself.
-/

namespace Stylesheet

open Render

/-! ### Runs on the same statements -/

/-- How two runs on the same statements are compared. Nodes that correspond differ at most in their
places, and diagnostics that match do so wherever both runs place them. -/
structure Comparison where
  /-- The two runs are laid out in the same way. -/
  sameLayout : Prop
  alike : Node → Node → Prop
  matching : Diagnostic → Diagnostic → Prop
  kind : ∀ {a b}, alike a b → b.kind = a.kind
  text : ∀ {a b}, alike a b → b.text = a.text
  children : ∀ {a b}, alike a b → List.Forall₂ alike a.children b.children
  fault : ∀ fault, matching { fault } { fault }
  locate : ∀ {a b d e}, alike a b → matching d e → matching (d.locate a.span) (e.locate b.span)

/-- A simulation in which no statement is dropped, no mixin differs, and neither run may fail where
the other does not. -/
def Comparison.simulation (K : Comparison) : Simulation where
  sameLayout := K.sameLayout
  oneSided := False
  apart _ := False
  alike := K.alike
  dropped _ := False
  matching := K.matching
  kind := K.kind
  text := K.text
  children h _ := K.children h
  statements h := .of_forall₂ (K.children h)
  included _ _ _ := id
  drops := False.elim
  fault := K.fault
  locate := K.locate

/-- The two runs agree on documents. -/
lemma Comparison.ends_document (K : Comparison) {a b : Node} {c d : Context} (h : K.alike a b)
    (hc : c.Like K.sameLayout d) :
    K.simulation.Ends K.simulation.UnderLayout (document a c) (document b d) := by
  refine Simulation.ends_document (K := K.simulation) h hc ?_
  rintro ⟨a, ha⟩
  cases ha

/-! ### Documents without their locations -/

/-- Trees that are equal without their locations are equal in their kinds, texts and children. -/
lemma Node.withoutSpans_inj {a b : Node} (h : a.withoutSpans = b.withoutSpans) :
    a.kind = b.kind ∧ a.text = b.text ∧
      List.Forall₂ (fun x y => x.withoutSpans = y.withoutSpans) a.children b.children := by
  rw [withoutSpans, withoutSpans] at h
  obtain ⟨hk, ht, hc, -⟩ := Node.mk.inj h
  rw [← List.forall₂_eq_eq_eq, List.forall₂_map_left_iff, List.forall₂_map_right_iff] at hc
  exact ⟨hk, ht, hc⟩

/-- Two runs on trees that are equal without their locations. -/
def Comparison.unlocated (sameLayout : Prop) : Comparison where
  sameLayout
  alike a b := a.withoutSpans = b.withoutSpans
  matching d e := e.fault = d.fault
  kind h := (Node.withoutSpans_inj h).1.symm
  text h := (Node.withoutSpans_inj h).2.1.symm
  children h := (Node.withoutSpans_inj h).2.2
  fault _ := rfl
  locate _ h := by rw [Diagnostic.locate_fault, Diagnostic.locate_fault, h]

/-- A document that is compiled after another starts from the options alone. -/
lemma Context.Like.reset {same : Prop} {c d : Context}
    (hd : d.options.maxDepth = c.options.maxDepth) (hs : same → d.options = c.options) :
    c.reset.Like same d.reset :=
  ⟨hd, rfl, .refl _, rfl, rfl, rfl, rfl, rfl, hs, fun _ _ _ => rfl, fun _ => rfl⟩

/-- Attaching a source keeps the fault. -/
lemma Diagnostic.elim_attach_fault (d : Diagnostic) (source : Option Source) :
    (source.elim d d.attach).fault = d.fault := by
  cases source <;> rfl

/-- Attaching a source keeps the place. -/
lemma Diagnostic.elim_attach_span (d : Diagnostic) (source : Option Source) :
    (source.elim d d.attach).span = d.span := by
  cases source <;> rfl

/-- Documents that differ in their locations, compiled under options that differ in the layout,
declare the same variables in the same order. Both are compiled, to the same text if the options are
the same, or both fail for the same reason. -/
theorem Compiler.compile_ignores_locations_and_layout {a b : Compiler} {root root' : Node}
    (hd : a.context.options.maxDepth = b.context.options.maxDepth)
    (hr : root.withoutSpans = root'.withoutSpans) :
    (a.compile root).2.symbols = (b.compile root').2.symbols ∧
      ((∃ css css', (a.compile root).1 = .ok css ∧ (b.compile root').1 = .ok css' ∧
          (a.context.options = b.context.options → css = css')) ∨
        ∃ d e, (a.compile root).1 = .error d ∧ (b.compile root').1 = .error e ∧
          d.fault = e.fault) := by
  let K := Comparison.unlocated (a.context.options = b.context.options)
  have hl : a.context.reset.Like K.sameLayout b.context.reset := .reset hd.symm Eq.symm
  have ends := K.ends_document hr hl
  unfold Compiler.compile
  generalize document root a.context.reset = result at ends
  generalize document root' b.context.reset = result' at ends
  cases ends with
  | ok hcss hc => exact ⟨hc.symbols.symm, .inl ⟨_, _, rfl, rfl, fun ho => (hcss ho).symm⟩⟩
  | error hf hc =>
    refine ⟨hc.symbols.symm, .inr ⟨_, _, rfl, rfl, ?_⟩⟩
    rw [Diagnostic.elim_attach_fault, Diagnostic.elim_attach_fault]
    exact hf.symm
  | failed one => cases one

/-- A rule that includes a mixin which is not declared. The document, its statements and the
inclusion are located. -/
def missingMixin (document statement inclusion : Span) : Node :=
  { Node.stylesheet
      [{ Node.assignment "g" (.literal "1") with span := statement },
        { Node.rule ["a"] [{ Node.inclusion "m" [] with span := inclusion }] with
          span := statement }] with
    span := document }

/-- Two documents with an undeclared mixin fail for the same reason wherever it stands. -/
theorem Compiler.compile_ignores_locations_and_layout_missingMixin :
    let a : Compiler := {}
    let b := Compiler.new { indent := "  ", rootSelector := "html" } (some ⟨"b", "text"⟩)
    let root := missingMixin ⟨0, 40⟩ ⟨3, 38⟩ ⟨8, 12⟩
    let root' := missingMixin {} ⟨5, 6⟩ {}
    (a.compile root).2.symbols = (b.compile root').2.symbols ∧
      ∃ d e, (a.compile root).1 = .error d ∧ (b.compile root').1 = .error e ∧
        d.fault = .undeclaredMixin "m" ∧ d.fault = e.fault := by
  intro a b root root'
  have hrun : (a.compile root).1 = .error ⟨.undeclaredMixin "m", some ⟨8, 12⟩, none, none⟩ := by
    decide +kernel
  have hr : root.withoutSpans = root'.withoutSpans := by decide +kernel
  obtain ⟨hs, ⟨css, css', h, -⟩ | ⟨d, e, h, h', he⟩⟩ :=
    compile_ignores_locations_and_layout (a := a) (b := b) rfl hr
  · rw [hrun] at h
    cases h
  · rw [hrun] at h
    cases h
    exact ⟨hs, _, e, hrun, h', rfl, he⟩

/-! ### The place of a failure -/

/-- A diagnostic is placed at a node of a tree, which has a place in the document. -/
def Diagnostic.LocatedIn (d : Diagnostic) (root : Node) : Prop :=
  ∃ node, root.Holds (fun _ => True) node ∧ node.span.isEmpty = false ∧ d.span = some node.span

/-- A run on a part of a tree, compared with itself. Its diagnostics are placed in the tree, if they
are placed. -/
def Comparison.within (root : Node) : Comparison where
  sameLayout := True
  alike a b := b = a ∧ root.Holds (fun _ => True) a
  matching d e := e = d ∧ (d.span = none ∨ d.LocatedIn root)
  kind h := by rw [h.1]
  text h := by rw [h.1]
  children := by
    rintro a _ ⟨rfl, h⟩
    exact List.forall₂_same.2 fun child hc => ⟨rfl, h.child trivial hc⟩
  fault _ := ⟨rfl, .inl rfl⟩
  locate := by
    rintro a _ d _ ⟨rfl, h⟩ ⟨rfl, hd⟩
    refine ⟨rfl, ?_⟩
    unfold Diagnostic.locate
    split
    · next hs => exact .inr ⟨_, h, by simpa using hs.2, rfl⟩
    · exact hd

/-- A diagnostic has a place after it is located, unless there is none to give. -/
lemma Diagnostic.locate_span_ne_none (d : Diagnostic) {span : Span} (hs : span.isEmpty = false) :
    (d.locate span).span ≠ none := by
  unfold Diagnostic.locate
  split
  · simp
  · next h => simpa [hs] using h

/-- A statement that has a place and fails does so somewhere in it. -/
lemma Render.locatedIn_of_statement {node : Node} {c c' : Context} {d : Diagnostic}
    (hs : node.span.isEmpty = false) (h : statement node c = .error d c') : d.LocatedIn node := by
  have agree := Simulation.agreeAt (K := (Comparison.within node).simulation) node
  have ends := agree.statement node ⟨rfl, .root⟩ (Context.Like.refl c)
  rw [h] at ends
  cases ends with
  | failed one => cases one
  | error hd _ =>
    rw [statement] at h
    obtain ⟨e, -, rfl⟩ := locating_eq_error_iff.1 h
    exact hd.2.resolve_left (e.locate_span_ne_none hs)

/-- Steps over a list fail where the first that fails does. -/
lemma Render.mapM_eq_error {α β : Type} {as : List α} {step : α → Render β} {c c' : Context}
    {d : Diagnostic} (h : as.mapM step c = .error d c') :
    ∃ before a after bs m, as = before ++ a :: after ∧ before.mapM step c = .ok bs m ∧
      step a m = .error d c' := by
  induction as generalizing c with
  | nil => cases h
  | cons a as ih =>
    rw [List.mapM_cons] at h
    obtain h | ⟨b, m, hb, h⟩ := bind_eq_error_iff.1 h
    · exact ⟨[], a, as, [], c, rfl, rfl, h⟩
    · obtain h | ⟨bs, n, -, h⟩ := bind_eq_error_iff.1 h
      · obtain ⟨before, a', after, bs, n, rfl, hbs, ha⟩ := ih h
        refine ⟨a :: before, a', after, b :: bs, n, rfl, ?_, ha⟩
        rw [List.mapM_cons, bind_of_ok hb, bind_of_ok hbs]
        rfl
      · cases h

/-- A document that fails is no stylesheet, or one of its statements fails. -/
lemma Render.document_eq_error {root : Node} {c c' : Context} {d : Diagnostic}
    (h : document root c = .error d c') :
    root.kind ≠ .stylesheet ∧ d = root.malformed .notAStylesheet ∨
      ∃ node ∈ root.children, ∃ m m', Reaches root c [root] m node ∧
        statement node m = .error d m' := by
  unfold document at h
  split at h
  · next hk =>
    cases h
    exact .inl ⟨hk, rfl⟩
  · next hk =>
    obtain h | ⟨texts, m, -, h⟩ := bind_eq_error_iff.1 h
    · obtain ⟨before, node, after, texts, m, hc, hb, h⟩ := mapM_eq_error h
      obtain h | ⟨text, m', -, h⟩ := bind_eq_error_iff.1 h
      · exact .inr ⟨node, by simp [hc], m, c', .outermost (not_not.1 hk) hc hb, h⟩
      · cases h
    · cases h

/-- A statement that fails reports the place of a node in it. A document that fails reports its own
place, if it is no stylesheet, or one in the statement of it that failed. -/
theorem Compiler.failures_are_located (root : Node) (hs : root.span.isEmpty = false) :
    (∀ c d c', statement root c = .error d c' → d.LocatedIn root) ∧
      ∀ (compiler : Compiler) (d : Diagnostic),
        (∀ node ∈ root.children, node.span.isEmpty = false) →
        (compiler.compile root).1 = .error d →
        root.kind ≠ .stylesheet ∧ d.span = some root.span ∨
          ∃ node ∈ root.children, ∃ c e c', Reaches root compiler.context.reset [root] c node ∧
            statement node c = .error e c' ∧ d.fault = e.fault ∧ d.LocatedIn node := by
  refine ⟨fun c d c' => locatedIn_of_statement hs, fun compiler d hc h => ?_⟩
  unfold Compiler.compile at h
  split at h
  · cases h
  · next e c' hd =>
    cases h
    simp only [Diagnostic.LocatedIn, Diagnostic.elim_attach_fault, Diagnostic.elim_attach_span]
    obtain ⟨hk, rfl⟩ | ⟨node, hn, c, c', hr, hf⟩ := document_eq_error hd
    · refine .inl ⟨hk, ?_⟩
      simp [Node.malformed, Diagnostic.locate, hs]
    · exact .inr ⟨node, hn, c, e, c', hr, hf, rfl, locatedIn_of_statement (hc node hn) hf⟩

/-- An undeclared mixin is located at its inclusion. -/
theorem Compiler.failures_are_located_missingMixin :
    let root := missingMixin ⟨0, 40⟩ ⟨3, 38⟩ ⟨8, 12⟩
    ∃ d, (Compiler.compile {} root).1 = .error d ∧ d.span = some ⟨8, 12⟩ ∧
      ∃ node ∈ root.children, d.LocatedIn node := by
  intro root
  have hrun : (Compiler.compile {} root).1 =
      .error ⟨.undeclaredMixin "m", some ⟨8, 12⟩, none, none⟩ := by
    decide +kernel
  have hc : ∀ node ∈ root.children, node.span.isEmpty = false := by decide +kernel
  refine ⟨_, hrun, rfl, ?_⟩
  obtain ⟨hk, -⟩ | ⟨node, hn, -, -, -, -, -, -, hl⟩ :=
    (failures_are_located root (by decide)).2 {} _ hc hrun
  · exact (hk rfl).elim
  · exact ⟨node, hn, hl⟩

end Stylesheet
