import Stylesheet.Proofs.Flattening
import Stylesheet.Proofs.Simulation
import Stylesheet.Proofs.Stack

/-!
# Runs that agree

The two runs of a simulation agree on every value, on every mixin that both declare or include, and
on every statement that both have. A statement gives texts of which both are empty or none, and the
same text under the same layout. A statement that only the first run has leaves it where the second
is.
-/

namespace Stylesheet.Simulation

open Render Text

variable {K : Simulation} {a b : Node}

/-! ### Values -/

/-- A reference is resolved to the same text. -/
lemma agree_reference (mode : Mode) (text : String) :
    K.Agree Eq (reference mode text) (reference mode text) := by
  refine agree_get.bind fun c d h => ?_
  rw [h.symbols, h.bound]
  cases mode with
  | emit =>
    dsimp only
    split
    · exact agree_pure rfl
    · split <;> exact agree_pure rfl
  | fold =>
    dsimp only
    split
    · exact agree_pure rfl
    · exact agree_fail

/-- A snapshot of the variables is taken of the same values. -/
lemma agree_snapshot {step other : Render String} (h : K.alike a b) (hs : K.Agree Eq step other) :
    K.Agree Eq (snapshot a step) (snapshot b other) := by
  unfold snapshot
  rw [K.kind h, K.text h]
  split
  · refine agree_get.bind fun c d hc => ?_
    rw [hc.symbols]
    split <;> exact agree_pure rfl
  · exact hs

/-- An expression is evaluated to the same text. -/
lemma agree_evaluateExpression {step other : Render (List Expr.Token)} (h : K.alike a b)
    (hs : K.Agree Eq step other) :
    K.Agree Eq (evaluateExpression a.span step) (evaluateExpression b.span other) := by
  refine agree_descend.bindEq fun _ => Agree.locating ?_ h
  refine Agree.ensuring (hs.bindEq fun tokens => ?_) fun c d hc => hc.ascend
  split
  · exact agree_fail
  · exact agree_lift

/-- An argument that names a list gives the same items. -/
lemma agree_listArgument (builtin : Builtin) (h : K.alike a b) :
    K.Agree Eq (listArgument builtin a) (listArgument builtin b) := by
  unfold listArgument
  rw [K.kind h, K.text h]
  split
  · refine agree_get.bind fun c d hc => ?_
    rw [hc.symbols]
    split
    · exact agree_pure rfl
    · exact agree_fail
  · exact agree_fail

/-- Two arguments are given by nodes that correspond, and render to the same text. -/
structure SameArgument (K : Simulation) (arg other : Argument) : Prop where
  node : K.alike arg.node other.node
  render : ∀ mode, K.Agree Eq (arg.render mode) (other.render mode)

/-- Arguments that correspond are rendered to the same texts. -/
lemma agree_arguments {args others : List Argument} (h : List.Forall₂ K.SameArgument args others)
    (mode : Mode) :
    K.Agree Eq (args.mapM (·.render mode)) (others.mapM (·.render mode)) := by
  have hm := agree_mapM (h.imp fun arg other ha => ha.render mode)
  rwa [List.forall₂_eq_eq_eq] at hm

/-- A built-in function gives the same text on arguments that correspond. -/
lemma agree_callBuiltin (builtin : Builtin) {args others : List Argument}
    (h : List.Forall₂ K.SameArgument args others) :
    K.Agree Eq (callBuiltin builtin args) (callBuiltin builtin others) := by
  have few : K.Agree Eq (fail (.tooFewArguments builtin args.length) : Render String)
      (fail (.tooFewArguments builtin others.length)) := by
    rw [h.length_eq]
    exact agree_fail
  cases builtin with
  | linearGradient => exact (agree_arguments h .fold).bindEq fun _ => agree_pure rfl
  | length =>
    cases h with
    | nil => exact few
    | cons hlist _ => exact (agree_listArgument _ hlist.node).bindEq fun _ => agree_lift
  | nth =>
    cases h with
    | nil => exact few
    | cons hlist hrest =>
      cases hrest with
      | nil => exact few
      | cons hindex _ =>
        refine (hindex.render .fold).bindEq fun index => ?_
        exact (agree_listArgument _ hlist.node).bindEq fun _ => agree_lift
  | darken | lighten =>
    cases h with
    | nil => exact few
    | cons hcolour hrest =>
      cases hrest with
      | nil => exact few
      | cons hamount _ =>
        refine (hcolour.render .fold).bindEq fun colour => ?_
        exact (hamount.render .fold).bindEq fun amount => agree_pure rfl

/-- A function gives the same text on arguments that correspond. -/
lemma agree_callFunction (name : String) {args others : List Argument}
    (h : List.Forall₂ K.SameArgument args others) :
    K.Agree Eq (callFunction name args) (callFunction name others) := by
  unfold callFunction
  split
  · exact agree_callBuiltin _ h
  · exact (agree_arguments h .emit).bindEq fun _ => agree_pure rfl

/-- The entries of maps agree if the values below them do. -/
lemma agree_mapEntries_of_below (h : K.alike a b) (hk : a.kind = .mapDeclaration)
    (hv : ∀ entry ∈ a.children, ∀ child ∈ entry.children, ∀ mode other, K.alike child other →
      K.Agree Eq (value mode child) (value mode other)) (mode : Mode) :
    K.Agree Eq (mapEntries mode a) (mapEntries mode b) := by
  rw [mapEntries, mapEntries, ← List.forall₂_eq_eq_eq]
  refine agree_mapM (forall₂_of_alike (K.children h (hk ▸ rfl)) fun entry he entry' hee => ?_)
  rw [K.kind hee]
  refine Agree.check (K.fault _) fun hke => ?_
  have hl : entry.kind.listsStatements = false := not_not.1 hke ▸ rfl
  refine (agree_ofExcept (K.both_child hee hl 0)).bind fun key key' hkey => ?_
  refine (agree_ofExcept (K.both_child hee hl 1)).bind fun item item' hitem => ?_
  have hi := fun mode => hv entry he item.1 item.2 mode item'.1 hitem
  dsimp only
  rw [K.text hkey]
  cases mode with
  | emit => exact (agree_snapshot hitem (hi .emit)).bindEq fun _ => agree_pure rfl
  | fold => exact (hi .fold).bindEq fun _ => agree_pure rfl

/-- Values agree, and so do the values directly below their nodes. -/
lemma agree_value_and_below (a : Node) :
    (∀ mode b, K.alike a b → K.Agree Eq (value mode a) (value mode b)) ∧
      ∀ child ∈ a.children, ∀ mode b, K.alike child b →
        K.Agree Eq (value mode child) (value mode b) := by
  induction a using Node.childInduction with
  | step a ih =>
    refine ⟨fun mode b h => ?_, fun child hc => (ih child hc).1⟩
    have children (hl : a.kind.listsStatements = false) :
        K.Agree Eq (a.children.mapM (value mode)) (b.children.mapM (value mode)) := by
      rw [← List.forall₂_eq_eq_eq]
      exact agree_mapM (forall₂_of_alike (K.children h hl) fun child hc => (ih child hc).1 mode)
    rw [value, value, K.kind h, K.text h]
    cases hk : a.kind <;> dsimp only
    case literal | identifier | keyword | operator | selector => exact agree_pure rfl
    case reference => exact agree_reference mode a.text
    case expression =>
      refine agree_evaluateExpression h ?_
      rw [← List.forall₂_eq_eq_eq]
      refine agree_mapM (forall₂_of_alike (K.children h (hk ▸ rfl)) fun part hp part' hpp => ?_)
      rw [K.kind hpp, K.text hpp]
      split
      · exact agree_pure rfl
      · exact ((ih part hp).1 .fold part' hpp).bindEq fun _ => agree_pure rfl
    case call =>
      refine (agree_ofExcept (K.both_name h (hk ▸ rfl))).bindEq fun name =>
        agree_callFunction name ?_
      simp only [List.map_attach_eq_pmap, List.pmap_eq_map, List.forall₂_map_left_iff,
        List.forall₂_map_right_iff]
      refine forall₂_of_alike (K.forall₂_arguments h (hk ▸ rfl)) fun arg harg arg' haa =>
        ⟨haa, fun mode => ?_⟩
      obtain ⟨holder, hh, hg⟩ := Node.mem_children_of_mem_arguments harg
      exact (ih holder hh).2 arg hg mode arg' haa
    case propertyValue =>
      have he : b.children.isEmpty = a.children.isEmpty := by
        rw [Bool.eq_iff_iff, List.isEmpty_iff_length_eq_zero, List.isEmpty_iff_length_eq_zero,
          (K.children h (hk ▸ rfl)).length_eq]
      rw [he]
      split
      · exact agree_pure rfl
      · exact (children (hk ▸ rfl)).bindEq fun _ => agree_pure rfl
    case listDeclaration => exact (children (hk ▸ rfl)).bindEq fun _ => agree_pure rfl
    case listElement => exact (children (hk ▸ rfl)).bindEq fun _ => agree_pure rfl
    case mapDeclaration =>
      refine (agree_mapEntries_of_below h hk (fun entry he => (ih entry he).2) mode).bindEq
        fun _ => ?_
      exact agree_pure rfl
    all_goals exact agree_fail

/-- Values that correspond are rendered to the same text. -/
lemma agree_value (mode : Mode) (h : K.alike a b) :
    K.Agree Eq (value mode a) (value mode b) :=
  (agree_value_and_below a).1 mode b h

/-- A variable is declared with the same value. -/
lemma agree_declaredValue (h : K.alike a b) :
    K.Agree Eq (declaredValue a) (declaredValue b) := by
  unfold declaredValue
  rw [K.kind h, K.text h]
  split
  · next hk =>
    refine Agree.bindEq ?_ fun _ => agree_pure rfl
    rw [← List.forall₂_eq_eq_eq]
    refine agree_mapM ((K.children h (hk ▸ rfl)).imp fun item item' hi => ?_)
    exact agree_snapshot hi (agree_value .emit hi)
  · next hk =>
    refine Agree.bindEq ?_ fun _ => agree_pure rfl
    exact agree_mapEntries_of_below h hk (fun _ _ _ _ mode _ => agree_value mode) .emit
  · refine agree_get.bind fun c d hc => ?_
    rw [hc.symbols]
    split <;> exact agree_pure rfl
  · exact (agree_value .emit h).bindEq fun _ => agree_pure rfl

/-! ### Mixins -/

section

variable {mixins mixins' : MixinTable} {indent indent' : String}
  (hm : mixins.Like mixins' K.apart)
  (hs : K.sameLayout → ∀ name, ¬K.apart name → mixins'.get? name = mixins.get? name)
include hm hs

/-- Mixins that are alike have the same texts for the same arguments, up to the layout of rules. An
inclusion names no mixin in which the two runs may differ. -/
lemma both_expandMixin (h : K.alike a b) (hk : a.kind = .includeDeclaration)
    (args : List String) :
    K.Both (Fragments.Like K.sameLayout) (expandMixin mixins a args)
      (expandMixin mixins' b args) := by
  refine (K.both_name h (hk ▸ rfl)).recall.bind fun name name' hname => ?_
  obtain ⟨rfl, hn⟩ := hname
  have ha := K.included h hk hn
  have hr := hm name ha
  have hs := fun hl => hs hl name ha
  generalize mixins.get? name = found at hr hs
  generalize mixins'.get? name = found' at hr hs
  cases hr with
  | none => exact .error (K.fault _)
  | @some m m' hm =>
    simp only [Mixin.expand, hm.bind]
    cases m.bind name args with
    | error fault => exact .error (K.fault _)
    | ok bindings =>
      refine .ok ⟨congrArg (List.map _) hm.direct, fun hl => ?_⟩
      cases hs hl
      rfl

omit hm hs in
/-- A declaration in a mixin is captured as the same line. -/
lemma both_rawDeclaration (h : K.alike a b) (hk : a.kind = .declaration) :
    K.Both Eq (rawDeclaration a) (rawDeclaration b) := by
  refine (K.both_name h (hk ▸ rfl)).bind fun name name' hname => ?_
  refine (K.both_child h (hk ▸ rfl) 1).bind fun value value' hvalue => ?_
  rw [hname, K.text hvalue]
  exact .ok rfl

variable (hi : K.sameLayout → indent' = indent)
include hi

omit hm hs hi in
/-- A statement that only the first run has may not stand in a mixin. -/
lemma captureStatement_dropped (mixins : MixinTable) (indent : String) (site : Site) (a : Node)
    (h : K.dropped a) : ∃ d, captureStatement mixins indent site a = .error d := by
  rw [captureStatement, (K.drops h).2.1]
  exact ⟨_, rfl⟩

/-- What is captured of a statement agrees, and what is captured of a block. -/
lemma both_capture (a : Node) :
    (∀ site b, K.alike a b → K.Both (Fragments.Like K.sameLayout)
      (captureStatement mixins indent site a) (captureStatement mixins' indent' site b)) ∧
    ∀ site b, K.alike a b → K.Both (Fragments.Like K.sameLayout)
      (captureBlock mixins indent site a) (captureBlock mixins' indent' site b) := by
  induction a using Node.childInduction with
  | step a ih =>
    constructor
    · intro site b h
      rw [captureStatement, captureStatement, K.kind h]
      cases hk : a.kind <;> dsimp only
      case declaration =>
        refine (both_rawDeclaration h hk).bind fun line line' hline => ?_
        cases hline
        exact .ok ⟨rfl, fun _ => rfl⟩
      case rule =>
        rw [captureRule, captureRule, bind_assoc, bind_assoc]
        refine (K.both_childOf h (hk ▸ rfl) 0 .selectorGroup).bind fun group group' hgroup => ?_
        rw [bind_assoc, bind_assoc]
        refine (K.both_childOf h (hk ▸ rfl) 1 .block).bind fun block block' hblock => ?_
        dsimp only
        rw [K.selectorText hgroup.1 (hgroup.2 ▸ rfl), bind_assoc, bind_assoc]
        refine ((ih block.1 block.2).2 _ block'.1 hblock.1).bind fun inner inner' hinner => ?_
        refine .ok ⟨rfl, fun hl => ?_⟩
        rw [hi hl, Fragments.inline, Fragments.inline, hinner.direct, hinner.deferred hl]
      case includeDeclaration =>
        rw [map_trim_text (K.forall₂_arguments h (hk ▸ rfl))]
        refine (both_expandMixin hm hs h hk _).bind fun found found' hfound => ?_
        exact .ok (hfound.place site)
      all_goals exact .error (K.locate h (K.fault _))
    · intro site b h
      rw [captureBlock, captureBlock]
      have parts := both_mapM (K.statements h) (fun child hc => (ih child hc).1 site)
        (captureStatement_dropped mixins indent site)
      exact parts.bind fun fragments fragments' hparts => .ok (Fragments.Like.nil.foldl hparts)

end

/-- The names of parameters and their default values agree. -/
lemma agree_parameters (mixin : String) (h : K.alike a b) (hk : a.kind = .parameters) :
    K.Agree Eq (parameters mixin a) (parameters mixin b) := by
  unfold parameters
  refine agree_foldlM ((K.children h (hk ▸ rfl)).imp fun parameter parameter' hp found => ?_) _
  rw [K.kind hp]
  refine Agree.check (K.fault _) fun hkp => ?_
  have hl : parameter.kind.listsStatements = false := not_not.1 hkp ▸ rfl
  refine (agree_ofExcept (K.both_childOf hp hl 0 .reference)).bind fun name name' hname => ?_
  rw [K.text hname.1]
  have hd := rel_getElem? (K.children hp hl) 1
  generalize parameter.children[1]? = default at hd
  generalize parameter'.children[1]? = default' at hd
  cases hd with
  | none => exact agree_pure rfl
  | some hd => exact (agree_value .fold hd).bindEq fun _ => agree_pure rfl

/-- Two mixins are alike, and are the same under the same layout. -/
def SameMixin (K : Simulation) (m n : Mixin) : Prop := m.Like n ∧ (K.sameLayout → n = m)

/-- A mixin with fixed parameters takes the same arguments whatever its body. -/
lemma agree_fixed (names : List String) (defaults : Registry String) {body body' : Fragments}
    (h : body.Like K.sameLayout body') :
    K.Agree K.SameMixin (lift .mixin (Mixin.fixed names defaults body))
      (lift .mixin (Mixin.fixed names defaults body')) := by
  unfold Mixin.fixed
  split
  · exact agree_fail
  · exact agree_pure ⟨⟨rfl, h.direct⟩, fun hl => by rw [h.eq hl]⟩

/-- A mixin takes the same arguments if its parameters correspond. -/
lemma agree_mixinWith (mixin : String) {body body' : Fragments} (h : K.alike a b)
    (hk : a.kind = .parameters) (hb : body.Like K.sameLayout body') :
    K.Agree K.SameMixin (mixinWith mixin a body) (mixinWith mixin b body') := by
  have hf := K.rel_find? h (hk ▸ rfl) .restParameter
  unfold mixinWith
  rw [← (K.children h (hk ▸ rfl)).length_eq]
  generalize a.find? .restParameter = rest at hf
  generalize b.find? .restParameter = rest' at hf
  cases hf with
  | none =>
    refine (agree_parameters mixin h hk).bindEq fun found => ?_
    exact agree_fixed found.1 found.2 hb
  | some hr =>
    refine Agree.check (K.fault _) fun _ => ?_
    refine (agree_ofExcept (K.both_childOf hr.1 (hr.2 ▸ rfl) 0 .reference)).bind
      fun name name' hname => ?_
    rw [K.text hname.1]
    exact agree_pure ⟨⟨rfl, hb.direct⟩, fun hl => by rw [hb.eq hl]⟩

/-- Mixins that correspond are declared as the same, up to the layout. -/
lemma agree_declareMixin (h : K.alike a b) (hk : a.kind = .mixinDeclaration) :
    K.Agree Eq (declareMixin a) (declareMixin b) := by
  refine (agree_ofExcept (K.both_name h (hk ▸ rfl))).bindEq fun name => ?_
  refine (agree_ofExcept (K.both_body h (hk ▸ rfl))).bind fun block block' hblock => ?_
  refine agree_get.bind fun c d hc => ?_
  have hi : K.sameLayout → d.options.indent = c.options.indent := fun hl => by rw [hc.options hl]
  have captured := (both_capture hc.mixins hc.sameMixins hi block.1).2 .body block'.1 hblock
  refine (agree_ofExcept captured).bind fun body body' hbody => ?_
  have define (m n : Mixin) (hm : K.SameMixin m n) : K.Agree Eq
      (modify fun c => { c with mixins := c.mixins.insert name m } : Render PUnit)
      (modify fun c => { c with mixins := c.mixins.insert name n }) :=
    agree_modify fun c d hc => hc.define name hm.1 hm.2
  have hf := K.rel_find? h (hk ▸ rfl) .parameters
  generalize a.find? .parameters = params at hf
  generalize b.find? .parameters = params' at hf
  cases hf with
  | none => exact (agree_fixed [] {} hbody).bind define
  | some hp => exact (agree_mixinWith name hp.1 hp.2 hbody).bind define

/-! ### Statements -/

/-- Two texts of a statement: both are empty or none, and under the same layout they are the
same. -/
structure SameText (K : Simulation) (text other : String) : Prop where
  empty : other = "" ↔ text = ""
  eq : K.sameLayout → other = text

/-- Nothing is written in both runs. -/
lemma SameText.nil : K.SameText "" "" := ⟨Iff.rfl, fun _ => rfl⟩

/-- Texts that are not empty only have to be the same under the same layout. -/
lemma SameText.ofNonempty {text other : String} (h : text ≠ "") (h' : other ≠ "")
    (he : K.sameLayout → other = text) : K.SameText text other :=
  ⟨⟨fun ho => (h' ho).elim, fun ht => (h ht).elim⟩, he⟩

/-- Texts that are the same up to the layout are so one after the other. -/
lemma SameText.append {text other text' other' : String} (h : K.SameText text other)
    (h' : K.SameText text' other') : K.SameText (text ++ text') (other ++ other') := by
  refine ⟨?_, fun hl => by rw [h.eq hl, h'.eq hl]⟩
  rw [String.append_eq_empty_iff, h.empty, h'.empty, String.append_eq_empty_iff]

/-- Texts that are the same up to the layout are so when they are joined. -/
lemma SameText.join {texts others : List String} (h : List.Forall₂ K.SameText texts others) :
    K.SameText (String.join texts) (String.join others) := by
  induction h with
  | nil => exact .nil
  | cons h _ ih =>
    rw [String.join_cons, String.join_cons]
    exact h.append ih

/-- The same lines are the same text up to the indentation. -/
lemma SameText.indented {indent indent' : String} (hi : K.sameLayout → indent' = indent)
    (lines : List String) :
    K.SameText (Fragments.indented indent lines) (Fragments.indented indent' lines) := by
  refine SameText.join ?_
  rw [List.forall₂_map_left_iff, List.forall₂_map_right_iff, List.forall₂_same]
  intro line _
  exact .ofNonempty (by simp) (by simp) fun hl => by rw [hi hl]

/-- Inclusions that correspond give the same text, up to the layout. -/
lemma agree_includeMixin (h : K.alike a b) (hk : a.kind = .includeDeclaration) :
    K.Agree K.SameText (includeMixin a) (includeMixin b) := by
  refine Agree.bindEq ?_ fun args => agree_get.bind fun c d hc => ?_
  · rw [← List.forall₂_eq_eq_eq]
    exact agree_mapM ((K.forall₂_arguments h (hk ▸ rfl)).imp fun _ _ => agree_value .fold)
  · refine (agree_ofExcept (both_expandMixin hc.mixins hc.sameMixins h hk args)).bind
      fun found found' hfound => ?_
    refine (agree_set ?_).bindEq fun _ => agree_pure ?_
    · exact hc.enqueueAll fun hl => by rw [hfound.deferred hl, hc.chain]
    · rw [Fragments.inline, Fragments.inline, hfound.direct]
      exact .indented (fun hl => by rw [hc.options hl]) _

/-- Declarations that correspond give the same line, up to the layout. -/
lemma agree_declaration (h : K.alike a b) (hk : a.kind = .declaration) :
    K.Agree K.SameText (declaration a) (declaration b) := by
  refine (agree_ofExcept (K.both_name h (hk ▸ rfl))).bindEq fun property => ?_
  refine (agree_ofExcept (K.both_child h (hk ▸ rfl) 1)).bind fun node node' hnode => ?_
  refine (agree_value .emit hnode).bindEq fun text => ?_
  refine agree_get.bind fun c d hc => agree_pure ?_
  exact .ofNonempty (by simp) (by simp) fun hl => by rw [hc.options hl]

/-- Declarations of variables that correspond declare the same. -/
lemma agree_declareVariable (h : K.alike a b) (hk : a.kind = .variableDeclaration) :
    K.Agree Eq (declareVariable a) (declareVariable b) := by
  refine (agree_ofExcept (K.both_childOf h (hk ▸ rfl) 0 .reference)).bind fun name name' hname => ?_
  refine (agree_ofExcept (K.both_child h (hk ▸ rfl) 1)).bind fun node node' hnode => ?_
  refine agree_get.bind fun c d hc => ?_
  dsimp only
  rw [hc.inTemporaryScope, K.text hname.1]
  refine (agree_declaredValue hnode).bindEq fun value => ?_
  exact agree_modify fun c d hc => hc.declare _ _

/-- The two runs agree on a rule if they do on its body. -/
lemma agree_rule (selector : String) {body other : Render String}
    (h : K.Agree K.SameText body other) :
    K.Agree K.SameText (rule selector body) (rule selector other) := by
  refine (agree_modify fun c d hc => hc.openRule selector).bindEq fun _ => ?_
  refine (h.ensuring fun c d hc => hc.closeRule).bind fun text text' htext => ?_
  refine agree_get.bind fun c d hc => ?_
  dsimp only
  rw [hc.isNested, hc.isUnrollingChild, hc.chain]
  have he : K.sameLayout → Selector.block (Selector.compose c.chain selector) text' ++ "\n\n" =
      Selector.block (Selector.compose c.chain selector) text ++ "\n\n" :=
    fun hl => by rw [htext.eq hl]
  split
  · exact agree_pure (.ofNonempty (by simp) (by simp) he)
  · refine (agree_modify fun c d hc => ?_).bindEq fun _ => agree_pure .nil
    exact hc.enqueueAll fun hl => by rw [he hl]

/-! ### Loops -/

/-- What waits after a loop only has to be the same under the same layout. -/
def UnderLayout (K : Simulation) {α : Type} (x y : α) : Prop := K.sameLayout → y = x

/-- The two runs agree on an iteration if they do on the body of the loop. -/
lemma agree_iteration (placement : Placement) (bindings : List (String × String))
    {body other : Render String} (h : K.Agree K.SameText body other) :
    K.Agree K.UnderLayout (iteration body placement bindings)
      (iteration other placement bindings) := by
  refine (agree_modify fun c d hc => hc.bindRow bindings).bindEq fun _ => ?_
  refine agree_get.bind fun c d hc => ?_
  refine (agree_modify fun c d hc => hc.openFrame).bindEq fun _ => ?_
  refine (h.ensuring fun c d hc => hc.closeFrame).bind fun text text' htext => ?_
  refine agree_get.bind fun m n hm => (agree_set ?_).bindEq fun _ => agree_pure fun hl => ?_
  · exact { hm with queue := fun hl => by rw [hm.queue hl, hc.queue hl] }
  · rw [htext.eq hl, hm.queue hl, hc.queue hl]

/-- What is made to wait is the same under the same layout. -/
lemma agree_wait {text other : String} (h : K.UnderLayout text other) :
    K.Agree Eq (if text ≠ "" then modify (Context.enqueue text) else pure ⟨⟩ : Render PUnit)
      (if other ≠ "" then modify (Context.enqueue other) else pure ⟨⟩) := by
  intro c d hc
  -- under different layouts one of the texts may be empty and the other not
  split
  · next ht =>
    split
    · exact .ok rfl (hc.enqueueAll fun hl => by rw [h hl])
    · next ho => exact .ok rfl { hc with queue := fun hl => (ho (h hl ▸ ht)).elim }
  · next ht =>
    split
    · next ho => exact .ok rfl { hc with queue := fun hl => (ht (h hl ▸ ho)).elim }
    · exact .ok rfl hc

/-- The two runs agree on a loop over the same rows if they do on its body. -/
lemma agree_unroll (placement : Placement) (names : List String) (rows : Rows)
    {body other : Render String} (h : K.Agree K.SameText body other) :
    K.Agree Eq (unroll body placement names rows) (unroll other placement names rows) := by
  refine agree_get.bind fun c d hc => ?_
  dsimp only
  rw [hc.bound]
  refine (agree_modify fun c d hc => hc.enterLoop placement names).bindEq fun _ => ?_
  have rounds := agree_iterate (fun i => agree_iteration placement (names.zip (rows.row i)) h)
    rows.count 0
  refine (rounds.ensuring fun c d hc => hc.leaveLoop _ names).bind fun texts texts' htexts => ?_
  refine agree_wait fun hl => ?_
  have he := htexts.imp fun x y hxy => (hxy hl).symm
  rw [List.forall₂_eq_eq_eq] at he
  rw [he]

/-- The bounds of loops that correspond are the same. -/
lemma agree_loopBound (h : K.alike a b) : K.Agree Eq (loopBound a) (loopBound b) := by
  refine (agree_value .fold h).bindEq fun text => ?_
  split
  · exact agree_pure rfl
  · exact agree_fail

/-- The rows of maps that correspond are the same. -/
lemma agree_mapRows (h : K.alike a b) : K.Agree Eq (mapRows a) (mapRows b) := by
  unfold mapRows
  rw [K.kind h, K.text h]
  refine Agree.check (K.fault _) fun _ => agree_get.bind fun c d hc => ?_
  rw [hc.symbols]
  split
  · exact agree_fail
  · split
    · exact agree_pure rfl
    · exact agree_fail

/-- The items of lists that correspond are the same. -/
lemma agree_listItems (h : K.alike a b) : K.Agree Eq (listItems a) (listItems b) := by
  unfold listItems
  rw [K.kind h, K.text h]
  split
  · refine agree_get.bind fun c d hc => ?_
    rw [hc.symbols]
    exact agree_pure rfl
  · next hk =>
    rw [← List.forall₂_eq_eq_eq]
    exact agree_mapM ((K.children h (hk ▸ rfl)).imp fun _ _ => agree_value .fold)
  · exact agree_pure rfl

/-- Loops that correspond run over the same rows. -/
lemma agree_eachRows (h : K.alike a b) (hk : a.kind = .eachLoop) :
    K.Agree Eq (eachRows a) (eachRows b) := by
  have hl : a.kind.listsStatements = false := hk ▸ rfl
  unfold eachRows
  rw [← (K.children h hl).length_eq]
  split
  · refine (agree_ofExcept (K.both_childOf h hl 0 .reference)).bind fun key key' hkey => ?_
    refine (agree_ofExcept (K.both_childOf h hl 1 .reference)).bind fun item item' hitem => ?_
    refine (agree_ofExcept (K.both_child h hl 2)).bind fun source source' hsource => ?_
    rw [K.text hkey.1, K.text hitem.1]
    exact (agree_mapRows hsource).bindEq fun _ => agree_pure rfl
  · refine (agree_ofExcept (K.both_childOf h hl 0 .reference)).bind fun item item' hitem => ?_
    refine (agree_ofExcept (K.both_child h hl 1)).bind fun source source' hsource => ?_
    rw [K.text hitem.1]
    exact (agree_listItems hsource).bindEq fun _ => agree_pure rfl
  · exact agree_throw (K.malformed h _)

/-! ### The induction over the tree -/

/-- The two runs agree on a node and all that correspond to it, wherever they meet them. -/
structure AgreeAt (K : Simulation) (a : Node) : Prop where
  statement : ∀ b, K.alike a b → K.Agree K.SameText (statement a) (statement b)
  block : ∀ b, K.alike a b → K.Agree K.SameText (block a) (block b)
  elseIf : a.kind = .elseIf → ∀ b, K.alike a b →
    K.Agree (Option.Rel K.SameText) (elseIfBranch a) (elseIfBranch b)
  otherwise : a.kind = .otherwise → ∀ b, K.alike a b →
    K.Agree K.SameText (otherwiseBranch a) (otherwiseBranch b)

/-- Conditions that correspond hold in both runs or in none. -/
lemma agree_holds (h : K.alike a b) : K.Agree Eq (holds a) (holds b) :=
  (agree_value .fold h).bindEq fun _ => agree_pure rfl

section

variable (ih : ∀ child ∈ a.children, K.AgreeAt child) (h : K.alike a b)
include ih h

/-- Rules that correspond give the same text, up to the layout. -/
lemma agree_ruleStatement (hk : a.kind = .rule) :
    K.Agree K.SameText (ruleStatement a) (ruleStatement b) := by
  have hl : a.kind.listsStatements = false := hk ▸ rfl
  rw [ruleStatement, ruleStatement]
  refine (agree_ofExcept (K.both_childOf h hl 0 .selectorGroup)).bind fun group group' hgroup => ?_
  refine (agree_ofExcept (K.both_childOf h hl 1 .block)).bind fun body body' hbody => ?_
  dsimp only
  rw [K.selectorText hgroup.1 (hgroup.2 ▸ rfl)]
  exact agree_rule _ ((ih body.1 body.2).block body'.1 hbody.1)

/-- Counting loops that correspond give the same text, up to the layout. -/
lemma agree_forLoop (hk : a.kind = .forLoop) : K.Agree K.SameText (forLoop a) (forLoop b) := by
  have hl : a.kind.listsStatements = false := hk ▸ rfl
  rw [forLoop, forLoop]
  refine (agree_ofExcept (K.both_childOf h hl 0 .reference)).bind
    fun counter counter' hcounter => ?_
  refine (agree_ofExcept (K.both_child h hl 1)).bind fun first first' hfirst => ?_
  refine (agree_loopBound hfirst).bindEq fun first => ?_
  refine (agree_ofExcept (K.both_childOf h hl 2 .keyword)).bind fun word word' hword => ?_
  refine (agree_ofExcept (K.both_child h hl 3)).bind fun last last' hlast => ?_
  refine (agree_loopBound hlast).bindEq fun last => ?_
  refine (agree_ofExcept (K.both_childOf h hl 4 .block)).bind fun body body' hbody => ?_
  dsimp only
  rw [K.text hcounter.1, K.text hword.1]
  refine agree_lift.bindEq fun last => ?_
  have unrolled := agree_unroll .interpolated [Variable.sigilName counter.1.text]
    (.range first last) ((ih body.1 body.2).block body'.1 hbody.1)
  exact unrolled.bindEq fun _ => agree_pure .nil

/-- Loops over maps or lists that correspond give the same text, up to the layout. -/
lemma agree_eachLoop (hk : a.kind = .eachLoop) :
    K.Agree K.SameText (eachLoop a) (eachLoop b) := by
  rw [eachLoop, eachLoop]
  refine (agree_ofExcept (K.both_body h (hk ▸ rfl))).bind fun body body' hbody => ?_
  refine (agree_eachRows h hk).bindEq fun bound => ?_
  have unrolled := agree_unroll .substituted bound.1 bound.2
    ((ih body.1 body.2).block body'.1 hbody)
  exact unrolled.bindEq fun _ => agree_pure .nil

/-- Conditionals that correspond give the same text, up to the layout. -/
lemma agree_conditional (hk : a.kind = .conditional) :
    K.Agree K.SameText (conditional a) (conditional b) := by
  have hl : a.kind.listsStatements = false := hk ▸ rfl
  rw [conditional, conditional]
  refine (agree_ofExcept (K.both_child h hl 0)).bind fun guard guard' hguard => ?_
  refine (agree_ofExcept (K.both_childOf h hl 1 .block)).bind fun body body' hbody => ?_
  refine (agree_holds hguard).bindEq fun holds => ?_
  split
  · exact (ih body.1 body.2).block body'.1 hbody.1
  · refine agree_firstText ?_ ?_
    · simp only [List.map_attach_eq_pmap, List.pmap_eq_map, List.forall₂_map_left_iff,
        List.forall₂_map_right_iff]
      refine forall₂_of_alike (K.forall₂_filter h hl .elseIf) fun branch hb => ?_
      exact (ih branch (Node.mem_of_mem_filter hb)).elseIf (by simpa using (List.mem_filter.1 hb).2)
    · have hf := K.rel_find? h hl .otherwise
      split
      · next branch ho =>
        split
        · next branch' ho' =>
          rw [ho, ho'] at hf
          cases hf with
          | some hb =>
            exact (ih branch (Node.mem_of_find?_eq_some ho)).otherwise hb.2 branch' hb.1
        · next ho' =>
          rw [ho, ho'] at hf
          cases hf
      · next ho =>
        split
        · next branch' ho' =>
          rw [ho, ho'] at hf
          cases hf
        · exact agree_pure .nil

/-- Statements that correspond are performed alike. -/
lemma agree_perform : K.Agree K.SameText (perform a) (perform b) := by
  rw [perform, perform, K.kind h]
  cases hk : a.kind <;> dsimp only
  case rule => exact agree_ruleStatement ih h hk
  case declaration => exact agree_declaration h hk
  case variableDeclaration => exact (agree_declareVariable h hk).bindEq fun _ => agree_pure .nil
  case mixinDeclaration => exact (agree_declareMixin h hk).bindEq fun _ => agree_pure .nil
  case includeDeclaration => exact agree_includeMixin h hk
  case forLoop => exact agree_forLoop ih h hk
  case eachLoop => exact agree_eachLoop ih h hk
  case conditional => exact agree_conditional ih h hk
  all_goals exact agree_fail

end

/-! ### Statements of the first run alone -/

/-- Declaring a mixin changes nothing but the mixin of its name. -/
lemma declareMixin_eq_ok {c c' : Context} (h : declareMixin a c = .ok ⟨⟩ c') :
    ∃ name m, a.name = .ok name ∧ c' = { c with mixins := c.mixins.insert name m } := by
  unfold declareMixin at h
  obtain ⟨name, hn, h⟩ := ofExcept_bind_eq_ok_iff.1 h
  obtain ⟨block, -, h⟩ := ofExcept_bind_eq_ok_iff.1 h
  rw [get_bind_apply] at h
  obtain ⟨body, -, h⟩ := ofExcept_bind_eq_ok_iff.1 h
  have hD := Discipline.reading_lenient
  generalize a.find? .parameters = params at h
  cases params with
  | some params =>
    obtain ⟨m, -, h⟩ := (hD.mixinWith name params body).bind_eq_ok h
    cases h
    exact ⟨name, m, hn, rfl⟩
  | none =>
    obtain ⟨m, -, h⟩ := (hD.lift (by simp)).bind_eq_ok h
    cases h
    exact ⟨name, m, hn, rfl⟩

/-- So does the statement, which gives no text. -/
lemma statement_eq_ok_of_mixin {c c' : Context} {text : String} (hk : a.kind = .mixinDeclaration)
    (h : statement a c = .ok text c') :
    text = "" ∧ ∃ name m, a.name = .ok name ∧ c' = { c with mixins := c.mixins.insert name m } := by
  rw [statement, locating_eq_ok_iff] at h
  obtain ⟨m, hp, rfl⟩ := descend_ensuring_eq_ok h
  rw [perform, hk] at hp
  obtain ⟨_, m, hd, hp⟩ := bind_eq_ok_iff.1 hp
  cases hp
  obtain ⟨name, mixin, hn, rfl⟩ := declareMixin_eq_ok hd
  exact ⟨rfl, name, mixin, hn, rfl⟩

/-- A statement that only the first run has gives no text and leaves its state alike to that of the
second. -/
lemma agree_dropped (h : K.dropped a) :
    K.Agree (fun text _ => text = "") (statement a) (pure ⟨⟩ : Render PUnit) := by
  obtain ⟨side, hk, hn⟩ := K.drops h
  intro c d hc
  cases hs : statement a c with
  | error e m => exact .failed side
  | ok text m =>
    obtain ⟨ht, name, mixin, hname, rfl⟩ := statement_eq_ok_of_mixin hk hs
    exact .ok ht (hc.defineApart (hn name hname) mixin)

/-- The two runs agree on blocks of statements, of which some are left out of the second. -/
lemma agree_statements {as bs : List Node} (h : Thinned K.alike K.dropped as bs)
    (ih : ∀ a ∈ as, K.AgreeAt a) :
    K.Agree (fun texts others => K.SameText (String.join texts) (String.join others))
      (as.mapM statement) (bs.mapM statement) := by
  induction h with
  | nil => exact agree_pure .nil
  | kept h _ rest =>
    rw [List.forall_mem_cons] at ih
    rw [List.mapM_cons, List.mapM_cons]
    refine (ih.1.statement _ h).bind fun text other ht => ?_
    refine (rest ih.2).bind fun texts others hts => ?_
    refine agree_pure ?_
    rw [String.join_cons, String.join_cons]
    exact ht.append hts
  | @dropped a as bs h _ rest =>
    rw [List.forall_mem_cons] at ih
    rw [List.mapM_cons]
    refine (agree_dropped h).before fun text ht => ?_
    rw [← bind_pure (bs.mapM statement)]
    refine (rest ih.2).bind fun texts others hts => agree_pure ?_
    rw [String.join_cons, ht, String.empty_append]
    exact hts

/-! ### The whole tree -/

/-- The two runs agree on every node. -/
lemma agreeAt (a : Node) : K.AgreeAt a := by
  induction a using Node.childInduction with
  | step a ih =>
    constructor
    case statement =>
      intro b h
      rw [statement, statement]
      refine Agree.locating (agree_descend.bindEq fun _ => ?_) h
      exact (agree_perform ih h).ensuring fun c d hc => hc.ascend
    case block =>
      intro b h
      rw [block, block, K.kind h]
      refine Agree.check (K.malformed h _) fun _ => ?_
      exact (agree_statements (K.statements h) ih).bind fun texts texts' htexts => agree_pure htexts
    case elseIf =>
      intro hk b h
      rw [elseIfBranch, elseIfBranch]
      refine (agree_ofExcept (K.both_child h (hk ▸ rfl) 0)).bind fun guard guard' hguard => ?_
      refine (agree_holds hguard).bindEq fun holds => ?_
      split
      · refine (agree_ofExcept (K.both_childOf h (hk ▸ rfl) 1 .block)).bind
          fun body body' hbody => ?_
        refine ((ih body.1 body.2).block body'.1 hbody.1).bind fun text text' htext => ?_
        simp only [htext.empty]
        split
        · exact agree_pure .none
        · exact agree_pure (.some htext)
      · exact agree_pure .none
    case otherwise =>
      intro hk b h
      rw [otherwiseBranch, otherwiseBranch]
      refine (agree_ofExcept (K.both_childOf h (hk ▸ rfl) 0 .block)).bind fun body body' hbody => ?_
      exact (ih body.1 body.2).block body'.1 hbody.1

/-! ### Documents -/

/-- The two runs agree on what has waited. -/
lemma agree_flushed : K.Agree K.UnderLayout flushed flushed := by
  refine agree_get.bind fun c d hc => ?_
  have hf := hc.flush
  generalize c.flush = ready at hf
  generalize d.flush = ready' at hf
  refine (agree_set hf.2).bindEq fun _ => agree_pure fun hl => ?_
  rw [hf.1 hl]

/-- The two runs agree on outermost statements. -/
lemma agree_outermost (h : K.alike a b) : K.Agree K.UnderLayout (outermost a) (outermost b) := by
  refine ((agreeAt a).statement b h).bind fun text text' htext => ?_
  refine agree_flushed.bind fun ready ready' hready => agree_pure fun hl => ?_
  rw [htext.eq hl, hready hl]

/-- Where the first run has a statement of its own, no rule is open and none waits. Otherwise what
waits would follow that statement. -/
def Ready (K : Simulation) (c : Context) : Prop :=
  (∃ a, K.dropped a) → c.ancestors = [] ∧ c.queue = []

/-- A state that is ready stays so after an outermost statement. -/
lemma Ready.outermost {c m : Context} {text : String} (hc : K.Ready c)
    (h : outermost a c = .ok text m) : K.Ready m := by
  intro hd
  obtain ⟨own, c', hs, h⟩ := bind_eq_ok_iff.1 h
  have ha : c'.ancestors = [] :=
    ((Discipline.stack_respectsAt a).statement.ok hs).1.ancestors.trans (hc hd).1
  rw [bind_of_ok (flushed_of_outermost ha)] at h
  cases h
  exact ⟨ha, rfl⟩

/-- Between two statements of a document nothing waits, so nothing follows a statement that only the
first run has. -/
lemma outermost_eq_ok_of_dropped {c d m : Context} {text : String} (h : K.dropped a)
    (hc : c.Like K.sameLayout d K.apart) (hr : c.ancestors = [] ∧ c.queue = [])
    (hs : outermost a c = .ok text m) : text = "" ∧ m.Like K.sameLayout d K.apart := by
  obtain ⟨-, hk, hn⟩ := K.drops h
  obtain ⟨own, c', hs, hf⟩ := bind_eq_ok_iff.1 hs
  obtain ⟨rfl, name, mixin, hname, rfl⟩ := statement_eq_ok_of_mixin hk hs
  have ready := flushed_of_outermost (c := { c with mixins := c.mixins.insert name mixin }) hr.1
  rw [bind_of_ok ready] at hf
  cases hf
  refine ⟨by simp [hr.2], ?_⟩
  exact { hc.defineApart (hn name hname) mixin with
    queue := fun hs => (hc.queue hs).trans hr.2 }

/-- The two runs agree on the outermost statements, of which some are left out of the second. -/
lemma ends_mapM_outermost {as bs : List Node} {c d : Context}
    (h : Thinned K.alike K.dropped as bs) (hc : c.Like K.sameLayout d K.apart) (hr : K.Ready c) :
    K.Ends (fun texts others => K.UnderLayout (String.join texts) (String.join others))
      (as.mapM outermost c) (bs.mapM outermost d) := by
  induction h generalizing c d with
  | nil => exact .ok (fun _ => rfl) hc
  | kept h _ ih =>
    rw [List.mapM_cons, List.mapM_cons]
    refine (agree_outermost h hc).bind fun text other m n hm ht hl => ?_
    refine (ih hl (hr.outermost hm)).bind fun texts others _ _ _ hts hl => .ok (fun hs => ?_) hl
    rw [String.join_cons, String.join_cons, ht hs, hts hs]
  | @dropped a as bs h _ ih =>
    rw [List.mapM_cons]
    obtain ⟨side, hk, hn⟩ := K.drops h
    cases hs : outermost a c with
    | error e m =>
      rw [bind_of_error hs]
      exact .failed side
    | ok text m =>
      have ready := hr.outermost hs
      obtain ⟨rfl, hm⟩ := outermost_eq_ok_of_dropped h hc (hr ⟨a, h⟩) hs
      rw [bind_of_ok hs, ← bind_pure (bs.mapM outermost)]
      refine (ih hm ready).bind fun texts others _ _ _ hts hl => .ok (fun hs => ?_) hl
      rw [String.join_cons, String.empty_append, hts hs]

/-- The two runs agree on documents. -/
lemma ends_document {c d : Context} (h : K.alike a b) (hc : c.Like K.sameLayout d K.apart)
    (hr : K.Ready c) : K.Ends K.UnderLayout (document a c) (document b d) := by
  unfold document
  rw [K.kind h]
  split
  · exact .error (K.malformed h _) hc
  · refine (ends_mapM_outermost (K.statements h) hc hr).bind fun texts others m n _ ht hl => ?_
    refine .ok (fun hs => ?_) hl
    rw [ht hs, withProperties, withProperties, hl.symbols, hl.options hs]

end Stylesheet.Simulation
