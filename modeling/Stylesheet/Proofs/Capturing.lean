import Stylesheet.Proofs.Binding
import Stylesheet.Proofs.Outcome
import Stylesheet.Proofs.RuleTree
import Mathlib.Data.List.Forall2

/-!
# Declaring and including mixins

`Captures` lists how a relation between a statement of a mixin, its place there and its texts
follows from the same relation for the statements below it. A relation that keeps to this holds of
everything that is captured: `Captures.statement` and `Captures.block`. The other lemmas say what a
mixin is when it is declared, and what an inclusion gives.
-/

namespace Stylesheet

namespace Node

/-- The names of the parameters that a node holds. -/
def parameterNames (params : Node) : List String :=
  params.children.filterMap fun parameter =>
    parameter.children[0]?.map fun reference => Variable.sigilName reference.text

/-- The names of the parameters of a mixin. -/
def ownNames (mixin : Node) : List String :=
  ((mixin.find? .parameters).map parameterNames).getD []

end Node

/-- The names of parameters. -/
def Parameters.names : Parameters → List String
  | fixed names _ => names
  | variadic name => [name]

/-- The texts of parts, one after the other. -/
def Fragments.concat (parts : List Fragments) : Fragments where
  direct := parts.flatMap direct
  deferred := parts.flatMap deferred

/-- Parts that are put together from the left are there one after the other. -/
lemma Fragments.foldl_append (parts : List Fragments) : parts.foldl (· ++ ·) {} = concat parts := by
  have go (start : Fragments) : parts.foldl (· ++ ·) start = start ++ concat parts := by
    induction parts generalizing start with
    | nil =>
      change start = append start {}
      simp [append]
    | cons part parts ih =>
      rw [List.foldl_cons, ih]
      change append (append start part) _ = append start _
      simp [concat, append]
  exact go {}

/-- The name that a node has is written in its first child. -/
lemma Node.exists_of_name {node : Node} {name : String} (h : node.name = .ok name) :
    ∃ identifier ∈ node.children, name = Text.trim identifier.text := by
  obtain ⟨identifier, -, h⟩ := Expr.bind_eq_ok_iff.1 h
  cases h
  exact ⟨identifier.1, identifier.2, rfl⟩

namespace Render

/-- A declaration of a mixin is captured as it is written. -/
lemma exists_of_rawDeclaration {node : Node} {line : String} (h : rawDeclaration node = .ok line) :
    ∃ property item, node.name = .ok property ∧ node.children[1]? = some item ∧
      line = property ++ ": " ++ Text.trim item.text ++ ";" := by
  obtain ⟨property, hp, h⟩ := Expr.bind_eq_ok_iff.1 h
  obtain ⟨item, hi, h⟩ := Expr.bind_eq_ok_iff.1 h
  cases h
  exact ⟨property, item.1, hp, Node.getElem?_of_child hi, rfl⟩

/-! ### Inclusions -/

/-- An inclusion gives the texts of the mixin with its name, with each parameter substituted. -/
lemma exists_of_expandMixin {mixins : MixinTable} {node : Node} {args : List String}
    {fragments : Fragments} (h : expandMixin mixins node args = .ok fragments) :
    ∃ name m bindings, node.name = .ok name ∧ mixins.get? name = some m ∧
      m.bind name args = .ok bindings ∧ fragments = m.body.map (Mixin.substituteAll bindings) := by
  obtain ⟨name, hname, h⟩ := Expr.bind_eq_ok_iff.1 h
  split at h
  · cases h
  · next m hg =>
    cases he : m.expand name args with
    | error fault =>
      rw [he] at h
      cases h
    | ok found =>
      rw [he] at h
      cases h
      obtain ⟨bindings, hb, hf⟩ := Mixin.exists_bind_of_expand he
      exact ⟨name, m, bindings, hname, hg, hb, hf⟩

/-- An inclusion that is rendered gives the lines of the mixin and makes its rules wait. -/
lemma exists_of_includeMixin {node : Node} {c c' : Context} {text : String}
    (h : includeMixin node c = .ok text c') :
    ∃ args fragments, node.arguments.mapM (value .fold) c = .ok args c ∧
      expandMixin c.mixins node args = .ok fragments ∧
      text = fragments.inline c.options.indent ∧
      c' = { c with
        queue := c.queue ++ fragments.deferred.map (Selector.place c.chain · ++ "\n\n") } := by
  unfold includeMixin at h
  have hread : Discipline.reading.Respects (node.arguments.mapM (value .fold)) :=
    Discipline.respects_mapM fun arg _ => Discipline.reading_lenient.value .fold arg
  obtain ⟨args, ha, h⟩ := hread.bind_eq_ok h
  rw [get_bind_apply] at h
  obtain ⟨fragments, hf, h⟩ := ofExcept_bind_eq_ok_iff.1 h
  cases h
  exact ⟨args, fragments, ha, hf, rfl, rfl⟩

/-! ### Declarations -/

/-- The parameters that the declaration of a mixin gives it. -/
inductive Takes (node : Node) (mixin : String) (c : Context) : Parameters → Prop where
  | none :
    node.find? .parameters = none →
    Takes node mixin c (.fixed [] {})
  | rest {params rest reference} :
    node.find? .parameters = some params →
    params.children = [rest] →
    rest.children[0]? = some reference →
    Takes node mixin c (.variadic (Variable.sigilName reference.text))
  | given {params names defaults} :
    node.find? .parameters = some params →
    parameters mixin params c = .ok (names, defaults) c →
    Takes node mixin c (.fixed names defaults)

/-- A mixin with named parameters is made of them. -/
lemma eq_of_fixed {names : List String} {defaults : Registry String} {body : Fragments} {m : Mixin}
    (h : Mixin.fixed names defaults body = .ok m) : m = ⟨.fixed names defaults, body⟩ := by
  unfold Mixin.fixed at h
  split at h
  · cases h
  · cases h
    rfl

/-- A mixin has the parameters and the body that it is given. -/
lemma exists_of_mixinWith {node params : Node} {mixin : String} {body : Fragments}
    {c c' : Context} {m : Mixin} (hp : node.find? .parameters = some params)
    (h : mixinWith mixin params body c = .ok m c') :
    c' = c ∧ m.body = body ∧ Takes node mixin c m.parameters := by
  unfold mixinWith at h
  cases hrest : params.find? .restParameter with
  | some rest =>
    rw [hrest] at h
    dsimp only at h
    split at h
    · cases h
    · next hl =>
      obtain ⟨reference, hr, h⟩ := ofExcept_bind_eq_ok_iff.1 h
      obtain ⟨only, ho⟩ := List.length_eq_one_iff.1 (not_not.1 hl)
      have hm := Node.mem_of_find?_eq_some hrest
      rw [ho, List.mem_singleton] at hm
      cases h
      exact ⟨rfl, rfl, .rest hp (hm ▸ ho) (Node.getElem?_of_childOf hr).1⟩
  | none =>
    rw [hrest] at h
    obtain ⟨⟨names, defaults⟩, hf, h⟩ :=
      (Discipline.reading_lenient.parameters mixin params).bind_eq_ok h
    dsimp only at h
    cases hm : Mixin.fixed names defaults body with
    | error fault =>
      rw [hm] at h
      cases h
    | ok found =>
      rw [hm] at h
      cases h
      obtain rfl := eq_of_fixed hm
      exact ⟨rfl, rfl, .given hp hf⟩

/-- A mixin that is declared has the texts that are captured of its block. -/
lemma exists_of_declareMixin {node : Node} {c c' : Context} {u : Unit}
    (h : declareMixin node c = .ok u c') :
    ∃ name block m, node.name = .ok name ∧ node.body = .ok block ∧
      captureBlock c.mixins c.options.indent .body block.1 = .ok m.body ∧
      Takes node name c m.parameters ∧
      c' = { c with mixins := c.mixins.insert name m } := by
  unfold declareMixin at h
  obtain ⟨name, hname, h⟩ := ofExcept_bind_eq_ok_iff.1 h
  obtain ⟨block, hblock, h⟩ := ofExcept_bind_eq_ok_iff.1 h
  rw [get_bind_apply] at h
  obtain ⟨body, hcapture, h⟩ := ofExcept_bind_eq_ok_iff.1 h
  cases hp : node.find? .parameters with
  | none =>
    rw [hp] at h
    cases h
    exact ⟨name, block, ⟨.fixed [] {}, body⟩, hname, hblock, hcapture, .none hp, rfl⟩
  | some params =>
    rw [hp] at h
    dsimp only at h
    obtain ⟨m, c'', hm, hset⟩ := bind_eq_ok_iff.1 h
    obtain ⟨rfl, rfl, ht⟩ := exists_of_mixinWith hp hm
    cases hset
    exact ⟨name, block, m, hname, hblock, hcapture, ht, rfl⟩

/-- The names of the parameters that are read are those that the node holds. -/
lemma yields_parameterNames {I : Context → Prop} (mixin : String) (params : Node) :
    Yields I (parameters mixin params) fun found => found.1 = params.parameterNames := by
  unfold parameters Node.parameterNames
  -- The names that were read before are put in front.
  suffices h : ∀ (children : List Node) (start : List String × Registry String),
      Yields I (children.foldlM _ start) fun found => found.1 = start.1 ++
        children.filterMap fun parameter => parameter.children[0]?.map fun reference =>
          Variable.sigilName reference.text from h params.children ([], {})
  intro children
  induction children with
  | nil => exact fun start => yields_pure (by simp)
  | cons parameter children ih =>
    intro start
    rw [List.foldlM_cons]
    refine Yields.bind (P := fun next : List String × Registry String =>
      next.1 = start.1 ++ (parameter.children[0]?.map fun reference =>
        Variable.sigilName reference.text).toList) ?_ fun next hnext => ?_
    · refine Yields.check yields_fail fun _ => ?_
      refine (yields_ofExcept fun _ => Node.getElem?_of_childOf).bind fun reference hr => ?_
      dsimp only
      rw [hr.1]
      split
      · next default _ =>
        refine (yields_of_reading (Discipline.reading_lenient.value .fold default)).bind
          fun text _ => yields_pure ?_
        simp
      · exact yields_pure (by simp)
    · refine (ih next).mono fun found hf => ?_
      rw [hf, hnext, List.filterMap_cons]
      cases parameter.children[0]? <;> simp

namespace Takes

variable {node : Node} {mixin : String} {c : Context} {ps : Parameters}

/-- A mixin has parameters with the names that its declaration holds. -/
lemma names_eq (h : Takes node mixin c ps) : ps.names = node.ownNames := by
  cases h with
  | none hp => simp [Parameters.names, Node.ownNames, hp]
  | rest hp hr href => simp [Parameters.names, Node.ownNames, hp, Node.parameterNames, hr, href]
  | @given params names defaults hp hf =>
    have hn : names = params.parameterNames :=
      (yields_parameterNames (I := fun _ => True) mixin params trivial hf).2
    simp [Parameters.names, Node.ownNames, hp, hn]

/-- What holds of the names in a declaration and of the values of its defaults holds of the
parameters. -/
lemma sorted {N T : String → Prop} (h : Takes node mixin c ps) (hn : ∀ name ∈ node.ownNames, N name)
    (hd : ∀ params names defaults, node.find? .parameters = some params →
      parameters mixin params c = .ok (names, defaults) c → ∀ e ∈ defaults.entries, T e.2) :
    ps.Sorted N T := by
  rw [← h.names_eq] at hn
  cases h with
  | none => exact ⟨hn, by simp⟩
  | rest => exact hn _ (List.mem_singleton_self _)
  | given hp hf => exact ⟨hn, hd _ _ _ hp hf⟩

end Takes

end Render

/-- The name of a parameter is written in the declaration of its mixin. -/
lemma Node.exists_of_mem_ownNames {node : Node} {name : String} (h : name ∈ node.ownNames) :
    ∃ params ∈ node.children, ∃ parameter ∈ params.children, ∃ reference ∈ parameter.children,
      name = Variable.sigilName reference.text := by
  unfold ownNames at h
  cases hf : node.find? .parameters with
  | none => simp [hf] at h
  | some params =>
    rw [hf] at h
    obtain ⟨parameter, hp, hr⟩ := List.mem_filterMap.1 h
    obtain ⟨reference, href, rfl⟩ := Option.map_eq_some_iff.1 hr
    exact ⟨params, mem_of_find?_eq_some hf, parameter, hp, reference,
      List.mem_of_getElem? href, rfl⟩

namespace Render

/-! ### Captured statements -/

/-- A relation that holds of a statement of a mixin, its place and its texts whenever it holds of
the statements below it. -/
structure Captures (mixins : MixinTable) (indent : String)
    (P : Site → Node → Fragments → Prop) : Prop where
  declaration : ∀ {site node line}, node.kind = .declaration → rawDeclaration node = .ok line →
    P site node { direct := [line] }
  rule : ∀ {site node group block parts}, node.IsRule group block →
    List.Forall₂ (P (.rule (site.compose group.selectorText))) block.children parts →
    P site node
      { deferred := Selector.block (site.compose group.selectorText)
          (Fragments.indented indent (parts.flatMap Fragments.direct)) ::
            parts.flatMap Fragments.deferred }
  inclusion : ∀ {site node found}, node.kind = .includeDeclaration →
    expandMixin mixins node (node.arguments.map fun arg => Text.trim arg.text) = .ok found →
    P site node (site.place found)

/-- Results of steps that succeed are related to what the steps are for. -/
lemma forall₂_of_mapM {α β : Type} {f : α → Except Diagnostic β} {as : List α} {bs : List β}
    {R : α → β → Prop} (h : as.mapM f = .ok bs) (hf : ∀ a ∈ as, ∀ b, f a = .ok b → R a b) :
    List.Forall₂ R as bs := by
  induction as generalizing bs with
  | nil =>
    cases h
    exact .nil
  | cons a as ih =>
    rw [List.mapM_cons] at h
    obtain ⟨b, hb, h⟩ := Expr.bind_eq_ok_iff.1 h
    obtain ⟨others, ho, h⟩ := Expr.bind_eq_ok_iff.1 h
    cases h
    rw [List.forall_mem_cons] at hf
    exact .cons (hf.1 b hb) (ih ho hf.2)

/-- What holds of the texts of each part holds of all of them. -/
lemma forall_mem_flatMap {α β γ : Type} {R : α → β → Prop} {as : List α} {bs : List β}
    {texts : β → List γ} {T : γ → Prop} (h : List.Forall₂ R as bs)
    (ht : ∀ a ∈ as, ∀ b, R a b → ∀ t ∈ texts b, T t) : ∀ t ∈ bs.flatMap texts, T t := by
  induction h with
  | nil => simp
  | cons hab _ ih =>
    rw [List.forall_mem_cons] at ht
    exact List.forall_mem_append.2 ⟨ht.1 _ hab, ih ht.2⟩

namespace Captures

variable {mixins : MixinTable} {indent : String} {P : Site → Node → Fragments → Prop}
  (hC : Captures mixins indent P) {site : Site} {node : Node} {fragments : Fragments}
include hC

/-- A relation that keeps to how statements are captured holds of every captured statement. -/
theorem statement (h : captureStatement mixins indent site node = .ok fragments) :
    P site node fragments := by
  induction hn : sizeOf node using Nat.strong_induction_on generalizing site node fragments with
  | _ n ih =>
    rw [captureStatement] at h
    cases hk : node.kind <;> rw [hk] at h <;> dsimp only at h
    case declaration =>
      obtain ⟨line, hl, h⟩ := Expr.bind_eq_ok_iff.1 h
      cases h
      exact hC.declaration hk hl
    case rule =>
      obtain ⟨rules, hr, h⟩ := Expr.bind_eq_ok_iff.1 h
      cases h
      rw [captureRule] at hr
      obtain ⟨⟨group, _⟩, hg, hr⟩ := Expr.bind_eq_ok_iff.1 hr
      obtain ⟨⟨block, hm⟩, hb, hr⟩ := Expr.bind_eq_ok_iff.1 hr
      obtain ⟨inner, hi, hr⟩ := Expr.bind_eq_ok_iff.1 hr
      cases hr
      obtain ⟨hg, hgk⟩ := Node.getElem?_of_childOf hg
      obtain ⟨hb, hbk⟩ := Node.getElem?_of_childOf hb
      rw [captureBlock] at hi
      obtain ⟨parts, hp, hi⟩ := Expr.bind_eq_ok_iff.1 hi
      cases hi
      rw [Fragments.foldl_append]
      refine hC.rule ⟨hk, hg, hgk, hb, hbk⟩ (forall₂_of_mapM hp fun child hc part hs => ?_)
      have hlt := Nat.lt_trans (Node.sizeOf_lt_of_mem hc) (Node.sizeOf_lt_of_mem hm)
      exact ih (sizeOf child) (hn ▸ hlt) hs rfl
    case includeDeclaration =>
      obtain ⟨found, hf, h⟩ := Expr.bind_eq_ok_iff.1 h
      cases h
      exact hC.inclusion hk hf
    all_goals cases h

/-- The texts of a captured block are those of its statements, one after the other. -/
theorem block (h : captureBlock mixins indent site node = .ok fragments) :
    ∃ parts, List.Forall₂ (P site) node.children parts ∧ fragments = .concat parts := by
  rw [captureBlock] at h
  obtain ⟨parts, hp, h⟩ := Expr.bind_eq_ok_iff.1 h
  cases h
  exact ⟨parts, forall₂_of_mapM hp fun child _ part hs => hC.statement hs,
    Fragments.foldl_append parts⟩

end Captures

end Render

end Stylesheet
