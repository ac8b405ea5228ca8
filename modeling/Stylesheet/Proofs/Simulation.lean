import Stylesheet.Compiler
import Stylesheet.Proofs.Discipline
import Mathlib.Data.List.Forall2

/-!
# Two runs side by side

Two runs of the compiler are compared, on trees that correspond to each other and under options that
may differ in the layout. A `Simulation` says which nodes correspond, which statements only the
first run has, and which diagnostics count as the same. `Simulation.Agree` holds of two steps that
end alike from states that are alike. The lemmas on it follow the ways in which steps are put
together.
-/

namespace Stylesheet

/-- The children of a node of this kind are statements, one after the other. -/
def Kind.listsStatements : Kind → Bool
  | .stylesheet | .block => true
  | _ => false

/-- Two lists of nodes that correspond to each other, once some are left out of the first. -/
inductive Thinned (alike : Node → Node → Prop) (dropped : Node → Prop) :
    List Node → List Node → Prop where
  | nil :
    Thinned alike dropped [] []
  | kept {a b as bs} :
    alike a b →
    Thinned alike dropped as bs →
    Thinned alike dropped (a :: as) (b :: bs)
  | dropped {a as bs} :
    dropped a →
    Thinned alike dropped as bs →
    Thinned alike dropped (a :: as) bs

/-- Nodes that correspond one by one do so with none left out. -/
lemma Thinned.of_forall₂ {alike : Node → Node → Prop} {dropped : Node → Prop} {as bs : List Node}
    (h : List.Forall₂ alike as bs) : Thinned alike dropped as bs := by
  induction h with
  | nil => exact .nil
  | cons h _ ih => exact .kept h ih

/-- How two runs are compared. Nodes that correspond have the same kind and text, and diagnostics
that match do so wherever both runs place them. -/
structure Simulation where
  /-- The two runs are laid out in the same way. -/
  sameLayout : Prop
  /-- Where the first run fails the second may do anything. -/
  oneSided : Prop
  /-- The names under which the two runs may have declared different mixins. -/
  apart : String → Prop
  alike : Node → Node → Prop
  /-- The statements that only the first run has. -/
  dropped : Node → Prop
  matching : Diagnostic → Diagnostic → Prop
  kind : ∀ {a b}, alike a b → b.kind = a.kind
  text : ∀ {a b}, alike a b → b.text = a.text
  children : ∀ {a b}, alike a b → a.kind.listsStatements = false →
    List.Forall₂ alike a.children b.children
  statements : ∀ {a b}, alike a b → Thinned alike dropped a.children b.children
  included : ∀ {a b name}, alike a b → a.kind = .includeDeclaration → a.name = .ok name →
    ¬apart name
  drops : ∀ {a}, dropped a → oneSided ∧ a.kind = .mixinDeclaration ∧
    ∀ name, a.name = .ok name → apart name
  fault : ∀ fault, matching { fault } { fault }
  locate : ∀ {a b d e}, alike a b → matching d e → matching (d.locate a.span) (e.locate b.span)

/-! ### States -/

/-- The texts of two mixins have the same lines. The rules may be laid out differently, unless the
layout is the same. -/
structure Fragments.Like (same : Prop) (a b : Fragments) : Prop where
  direct : b.direct = a.direct
  deferred : same → b.deferred = a.deferred

/-- Two mixins take the same arguments and have the same lines. -/
structure Mixin.Like (m n : Mixin) : Prop where
  parameters : n.parameters = m.parameters
  direct : n.body.direct = m.body.direct

/-- Two tables have mixins under the same names, which are alike, up to names that are apart. -/
def MixinTable.Like (a b : MixinTable) (apart : String → Prop := fun _ => False) : Prop :=
  ∀ name, ¬apart name → Option.Rel Mixin.Like (a.get? name) (b.get? name)

/-- Two states differ at most in the layout, that is in the options for it, in the rules of mixins
and in what waits, and in the mixins under names that are apart. -/
structure Context.Like (same : Prop) (c d : Context) (apart : String → Prop := fun _ => False) :
    Prop where
  maxDepth : d.options.maxDepth = c.options.maxDepth
  symbols : d.symbols = c.symbols
  mixins : MixinTable.Like c.mixins d.mixins apart
  ancestors : d.ancestors = c.ancestors
  loopDepth : d.loopDepth = c.loopDepth
  frames : d.frames = c.frames
  bound : d.bound = c.bound
  depth : d.depth = c.depth
  options : same → d.options = c.options
  sameMixins : same → ∀ name, ¬apart name → d.mixins.get? name = c.mixins.get? name
  queue : same → d.queue = c.queue

/-- No texts are the same in both runs. -/
lemma Fragments.Like.nil {same : Prop} : Fragments.Like same {} {} := ⟨rfl, fun _ => rfl⟩

/-- Under the same layout the texts of mixins are equal. -/
lemma Fragments.Like.eq {same : Prop} {a b : Fragments} (h : a.Like same b) (hs : same) :
    b = a := by
  obtain ⟨direct, deferred⟩ := a
  obtain ⟨rfl, hd⟩ := h
  cases hd hs
  rfl

/-- The texts of mixins are alike one after the other. -/
lemma Fragments.Like.append {same : Prop} {a b a' b' : Fragments} (h : a.Like same b)
    (h' : a'.Like same b') : (a ++ a').Like same (b ++ b') where
  direct := congrArg₂ (· ++ ·) h.direct h'.direct
  deferred hs := congrArg₂ (· ++ ·) (h.deferred hs) (h'.deferred hs)

/-- The texts of mixins are alike when they are put together. -/
lemma Fragments.Like.foldl {same : Prop} {as bs : List Fragments} {a b : Fragments}
    (h : a.Like same b) (hs : List.Forall₂ (Fragments.Like same) as bs) :
    (as.foldl (· ++ ·) a).Like same (bs.foldl (· ++ ·) b) := by
  induction hs generalizing a b with
  | nil => exact h
  | cons h' _ ih => exact ih (h.append h')

/-- The texts of mixins are alike at the same site. -/
lemma Fragments.Like.place {same : Prop} {a b : Fragments} (h : a.Like same b)
    (site : Render.Site) : (site.place a).Like same (site.place b) := by
  cases site with
  | body => exact h
  | rule selector => exact ⟨h.direct, fun hs => congrArg (List.map _) (h.deferred hs)⟩

/-- Mixins that are alike bind the same arguments. -/
lemma Mixin.Like.bind {m n : Mixin} (h : m.Like n) (name : String) (args : List String) :
    n.bind name args = m.bind name args := by
  obtain ⟨parameters, body⟩ := n
  obtain ⟨rfl, -⟩ := h
  rfl

/-- A table is like itself. -/
lemma MixinTable.Like.refl {apart : String → Prop} (table : MixinTable) :
    MixinTable.Like table table apart := by
  intro name _
  cases table.get? name with
  | none => exact .none
  | some m => exact .some ⟨rfl, rfl⟩

/-- Tables stay alike if mixins that are alike are declared. -/
lemma MixinTable.Like.insert {apart : String → Prop} {a b : MixinTable} {m n : Mixin}
    (h : MixinTable.Like a b apart) (name : String) (hm : m.Like n) :
    MixinTable.Like (a.insert name m) (b.insert name n) apart := by
  intro other ho
  rw [Registry.get?_insert, Registry.get?_insert]
  split
  · exact .some hm
  · exact h other ho

namespace Context.Like

variable {same : Prop} {c d : Context} {apart : String → Prop}

/-- A state is like itself. -/
lemma refl (c : Context) : c.Like same c apart :=
  ⟨rfl, rfl, .refl _, rfl, rfl, rfl, rfl, rfl, fun _ => rfl, fun _ _ _ => rfl, fun _ => rfl⟩

/-- States that are alike have the same selectors open. -/
lemma chain (h : c.Like same d apart) : d.chain = c.chain := congrArg Selector.chain h.ancestors

/-- States that are alike are both nested or both not. -/
lemma isNested (h : c.Like same d apart) : d.isNested = c.isNested := by
  rw [Context.isNested, Context.isNested, h.ancestors]

/-- States that are alike both unroll a child or both do not. -/
lemma isUnrollingChild (h : c.Like same d apart) : d.isUnrollingChild = c.isUnrollingChild := by
  rw [Context.isUnrollingChild, Context.isUnrollingChild, h.ancestors, h.frames]

/-- States that are alike are both temporary or both not. -/
lemma inTemporaryScope (h : c.Like same d apart) : d.inTemporaryScope = c.inTemporaryScope := by
  rw [Context.inTemporaryScope, Context.inTemporaryScope, h.isNested, h.loopDepth]

/-- States that are alike stay so one level deeper. -/
lemma descend (h : c.Like same d apart) : c.descend.Like same d.descend apart :=
  { h with depth := congrArg (· + 1) h.depth }

/-- States that are alike stay so one level up. -/
lemma ascend (h : c.Like same d apart) : c.ascend.Like same d.ascend apart :=
  { h with depth := congrArg (· - 1) h.depth }

/-- States that are alike are both too deep or both not. -/
lemma tooDeep (h : c.Like same d apart) : d.tooDeep = c.tooDeep := by
  rw [Context.tooDeep, Context.tooDeep, h.maxDepth, h.depth]

/-- States that are alike stay so when a rule is opened. -/
lemma openRule (h : c.Like same d apart) (selector : String) :
    (c.openRule selector).Like same (d.openRule selector) apart :=
  { h with ancestors := congrArg (· ++ [selector]) h.ancestors }

/-- States that are alike stay so when a rule is closed. -/
lemma closeRule (h : c.Like same d apart) : c.closeRule.Like same d.closeRule apart :=
  { h with ancestors := congrArg List.dropLast h.ancestors }

/-- States that are alike stay so when the same texts wait. -/
lemma enqueueAll (h : c.Like same d apart) {a b : List String} (hq : same → b = a) :
    Context.Like same { c with queue := c.queue ++ a } { d with queue := d.queue ++ b } apart :=
  { h with queue := fun hs => congrArg₂ (· ++ ·) (h.queue hs) (hq hs) }

/-- States that are alike stay so when a variable is declared. -/
lemma declare (h : c.Like same d apart) (name : String) (v : Variable) :
    Context.Like same { c with symbols := c.symbols.declare name v }
      { d with symbols := d.symbols.declare name v } apart :=
  { h with symbols := congrArg (SymbolTable.declare · name v) h.symbols }

/-- States that are alike stay so when mixins that are alike are declared. -/
lemma define (h : c.Like same d apart) (name : String) {m n : Mixin} (hm : m.Like n)
    (hs : same → n = m) :
    Context.Like same { c with mixins := c.mixins.insert name m }
      { d with mixins := d.mixins.insert name n } apart :=
  { h with
    mixins := h.mixins.insert name hm
    sameMixins := fun hl other ho => by
      rw [Registry.get?_insert, Registry.get?_insert, hs hl, h.sameMixins hl other ho] }

/-- A mixin under a name that is apart may be declared in the first state alone. -/
lemma defineApart (h : c.Like same d apart) {name : String} (hn : apart name) (m : Mixin) :
    Context.Like same { c with mixins := c.mixins.insert name m } d apart := by
  have other (found : String) (hf : ¬apart found) :
      (c.mixins.insert name m).get? found = c.mixins.get? found := by
    have hne : name ≠ found := by
      rintro rfl
      exact hf hn
    rw [Registry.get?_insert, if_neg hne]
  exact { h with
    mixins := fun found hf => by
      rw [other found hf]
      exact h.mixins found hf
    sameMixins := fun hl found hf => by rw [other found hf, h.sameMixins hl found hf] }

/-- States that are alike stay so when a row is bound. -/
lemma bindRow (h : c.Like same d apart) (bindings : List (String × String)) :
    (Render.bindRow bindings c).Like same (Render.bindRow bindings d) apart :=
  { h with symbols := by rw [Render.bindRow, Render.bindRow, h.symbols] }

/-- States that are alike stay so when a frame is opened. -/
lemma openFrame (h : c.Like same d apart) :
    (Render.openFrame c).Like same (Render.openFrame d) apart :=
  { h with frames := by rw [Render.openFrame, Render.openFrame, h.frames, h.ancestors] }

/-- States that are alike stay so when a frame is closed. -/
lemma closeFrame (h : c.Like same d apart) :
    (Render.closeFrame c).Like same (Render.closeFrame d) apart :=
  { h with frames := congrArg List.dropLast h.frames }

/-- States that are alike stay so when a loop is entered. -/
lemma enterLoop (h : c.Like same d apart) (placement : Render.Placement) (names : List String) :
    (Render.enterLoop placement names c).Like same (Render.enterLoop placement names d) apart :=
  { h with
    loopDepth := congrArg (· + 1) h.loopDepth
    bound := by simp only [Render.enterLoop, h.bound] }

/-- States that are alike stay so when a loop is left. -/
lemma leaveLoop (h : c.Like same d apart) (kept : Nat) (names : List String) :
    (Render.leaveLoop kept names c).Like same (Render.leaveLoop kept names d) apart :=
  { h with
    loopDepth := congrArg (· - 1) h.loopDepth
    bound := congrArg (List.take kept) h.bound
    symbols := congrArg (names.foldl SymbolTable.remove) h.symbols }

/-- What waits in states that are alike is written alike. -/
lemma flush (h : c.Like same d apart) :
    (same → d.flush.1 = c.flush.1) ∧ c.flush.2.Like same d.flush.2 apart := by
  unfold Context.flush
  rw [h.isNested]
  split
  · exact ⟨fun _ => rfl, h⟩
  · exact ⟨h.queue, { h with queue := fun _ => rfl }⟩

end Context.Like

namespace Simulation

variable {K : Simulation} {α β γ δ : Type} {R : α → β → Prop} {P : γ → δ → Prop}

/-! ### Results that do not depend on the state -/

/-- Two results are both there, and related, or are both missing for reasons that match. Where one
side may do anything it is enough that the first is missing. -/
inductive Both (K : Simulation) (R : α → β → Prop) :
    Except Diagnostic α → Except Diagnostic β → Prop where
  | ok {a b} : R a b → Both K R (.ok a) (.ok b)
  | error {d e} : K.matching d e → Both K R (.error d) (.error e)
  | failed {d other} : K.oneSided → Both K R (.error d) other

/-- Results that agree do so one after the other. -/
lemma Both.bind {first : Except Diagnostic γ} {other : Except Diagnostic δ}
    {next : γ → Except Diagnostic α} {next' : δ → Except Diagnostic β}
    (h : K.Both P first other) (hn : ∀ a b, P a b → K.Both R (next a) (next' b)) :
    K.Both R (first >>= next) (other >>= next') := by
  cases h with
  | ok hp => exact hn _ _ hp
  | error hd => exact .error hd
  | failed ho => exact .failed ho

/-- What is related is a result of the first. -/
lemma Both.recall {first : Except Diagnostic α} {other : Except Diagnostic β}
    (h : K.Both R first other) : K.Both (fun a b => R a b ∧ first = .ok a) first other := by
  cases h with
  | ok hr => exact .ok ⟨hr, rfl⟩
  | error hd => exact .error hd
  | failed ho => exact .failed ho

/-- A statement that only the first run has must not give a result. -/
lemma both_mapM {as bs : List Node} {f : Node → Except Diagnostic α}
    {g : Node → Except Diagnostic β}
    (h : Thinned K.alike K.dropped as bs)
    (hk : ∀ a ∈ as, ∀ b, K.alike a b → K.Both R (f a) (g b))
    (hd : ∀ a, K.dropped a → ∃ d, f a = .error d) :
    K.Both (List.Forall₂ R) (as.mapM f) (bs.mapM g) := by
  induction h with
  | nil => exact .ok .nil
  | kept h _ ih =>
    rw [List.forall_mem_cons] at hk
    rw [List.mapM_cons, List.mapM_cons]
    refine (hk.1 _ h).bind fun a b hr => (ih hk.2).bind fun as bs hrs => ?_
    exact .ok (.cons hr hrs)
  | dropped h =>
    obtain ⟨d, he⟩ := hd _ h
    rw [List.mapM_cons, he]
    exact .failed (K.drops h).1

/-! ### The layout of a node -/

/-- What stands at one position of lists that are related is related. -/
lemma rel_getElem? {as : List γ} {bs : List δ} (h : List.Forall₂ P as bs) (i : Nat) :
    Option.Rel P as[i]? bs[i]? := by
  induction h generalizing i with
  | nil => exact .none
  | cons h _ ih =>
    cases i with
    | zero => exact .some h
    | succ i => exact ih i

/-- What holds of a node and all that correspond to it, for the nodes of a list, holds along lists
of nodes that correspond. -/
lemma forall₂_of_alike {as bs : List Node} {Q : Node → Node → Prop}
    (h : List.Forall₂ K.alike as bs) (hq : ∀ a ∈ as, ∀ b, K.alike a b → Q a b) :
    List.Forall₂ Q as bs :=
  ((List.forall₂_and_left _ _).2 ⟨hq, h⟩).imp fun _ b hab => hab.1 b hab.2

/-- Nodes that correspond have the same texts. -/
lemma map_trim_text {as bs : List Node} (h : List.Forall₂ K.alike as bs) :
    (bs.map fun b => Text.trim b.text) = as.map fun a => Text.trim a.text := by
  induction h with
  | nil => rfl
  | cons hab _ ih => rw [List.map_cons, List.map_cons, K.text hab, ih]

section

variable {a b : Node} (h : K.alike a b)
include h

/-- Nodes that correspond are malformed in the same way. -/
lemma malformed (flaw : Flaw) : K.matching (a.malformed flaw) (b.malformed flaw) := by
  unfold Node.malformed
  rw [K.kind h]
  exact K.locate h (K.fault _)

variable (hl : a.kind.listsStatements = false)
include hl

/-- The first children of a kind correspond. -/
lemma rel_find? (kind : Kind) :
    Option.Rel (fun x y => K.alike x y ∧ x.kind = kind) (a.find? kind) (b.find? kind) := by
  have hc := K.children h hl
  unfold Node.find?
  generalize a.children = as at hc
  generalize b.children = bs at hc
  induction hc with
  | nil => exact .none
  | cons hc _ ih =>
    rw [List.find?_cons, List.find?_cons, K.kind hc]
    split
    · next hk => exact .some ⟨hc, by simpa using hk⟩
    · exact ih

/-- The children of a kind correspond. -/
lemma forall₂_filter (kind : Kind) :
    List.Forall₂ K.alike (a.filter kind) (b.filter kind) := by
  refine List.rel_filter (fun x y hxy => ?_) (K.children h hl)
  simp only [K.kind hxy]

/-- The arguments of nodes that correspond do. -/
lemma forall₂_arguments : List.Forall₂ K.alike a.arguments b.arguments := by
  have hf := K.rel_find? h hl .arguments
  unfold Node.arguments
  generalize a.find? .arguments = holder at hf
  generalize b.find? .arguments = other at hf
  cases hf with
  | none => exact .nil
  | some hc => exact K.children hc.1 (hc.2 ▸ rfl)

/-- Rules that correspond have the same selector. -/
lemma selectorText : b.selectorText = a.selectorText := by
  rw [Node.selectorText, Node.selectorText, map_trim_text (K.children h hl), K.text h]

/-- The children at one position correspond, or both are missing. -/
lemma both_child (position : Nat) :
    K.Both (fun x y => K.alike x.1 y.1) (a.child position) (b.child position) := by
  have hr := rel_getElem? (K.children h hl) position
  unfold Node.child
  split
  · next child ha =>
    split
    · next other hb =>
      rw [ha, hb] at hr
      cases hr with
      | some hc => exact .ok hc
    · next hb =>
      rw [ha, hb] at hr
      cases hr
  · next ha =>
    split
    · next other hb =>
      rw [ha, hb] at hr
      cases hr
    · exact .error (K.malformed h _)

/-- The children of a kind at one position correspond, or both are missing. -/
lemma both_childOf (position : Nat) (kind : Kind) :
    K.Both (fun x y => K.alike x.1 y.1 ∧ x.1.kind = kind) (a.childOf position kind)
      (b.childOf position kind) := by
  refine (K.both_child h hl position).bind fun x y hxy => ?_
  rw [K.kind hxy]
  split
  · next hk => exact .ok ⟨hxy, hk⟩
  · exact .error (K.malformed h _)

/-- The bodies of nodes that correspond do, or both are missing. -/
lemma both_body : K.Both (fun x y => K.alike x.1 y.1) a.body b.body := by
  have hr := rel_getElem? (K.children h hl) (a.children.length - 1)
  rw [← List.getLast?_eq_getElem?, (K.children h hl).length_eq, ← List.getLast?_eq_getElem?] at hr
  unfold Node.body
  split
  · next child ha =>
    rw [ha] at hr
    -- the kinds are compared before the other node is looked at
    split
    · next hk =>
      split
      · next other hb =>
        rw [hb] at hr
        cases hr with
        | some hc =>
          rw [if_pos ((K.kind hc).trans hk)]
          exact .ok hc
      · next hb =>
        rw [hb] at hr
        cases hr
    · next hk =>
      split
      · next other hb =>
        rw [hb] at hr
        cases hr with
        | some hc =>
          rw [if_neg ((K.kind hc).trans_ne hk)]
          exact .error (K.malformed h _)
      · exact .error (K.malformed h _)
  · next ha =>
    rw [ha] at hr
    split
    · next other hb =>
      rw [hb] at hr
      cases hr
    · exact .error (K.malformed h _)

/-- Nodes that correspond have the same name, or both have none. -/
lemma both_name : K.Both Eq a.name b.name := by
  refine (K.both_childOf h hl 0 .identifier).bind fun x y hxy => ?_
  rw [K.text hxy.1]
  exact .ok rfl

end

/-! ### Steps -/

/-- Two steps end alike: both with results that are related, or both with diagnostics that match,
and in states that are alike. Where one side may do anything it is enough that the first fails. -/
inductive Ends (K : Simulation) (R : α → β → Prop) :
    EStateM.Result Diagnostic Context α → EStateM.Result Diagnostic Context β → Prop where
  | ok {a b c d} : R a b → c.Like K.sameLayout d K.apart → Ends K R (.ok a c) (.ok b d)
  | error {e f c d} : K.matching e f → c.Like K.sameLayout d K.apart →
    Ends K R (.error e c) (.error f d)
  | failed {e c other} : K.oneSided → Ends K R (.error e c) other

/-- Two steps agree if they end alike from all states that are alike. -/
def Agree (K : Simulation) (R : α → β → Prop) (step : Render α) (other : Render β) : Prop :=
  ∀ ⦃c d⦄, c.Like K.sameLayout d K.apart → K.Ends R (step c) (other d)

open Render

/-- Results that are related agree. -/
lemma agree_pure {a : α} {b : β} (h : R a b) : K.Agree R (pure a) (pure b) :=
  fun _ _ hc => .ok h hc

/-- Diagnostics that match agree. -/
lemma agree_throw {d e : Diagnostic} (h : K.matching d e) :
    K.Agree R (throw d : Render α) (throw e) :=
  fun _ _ hc => .error h hc

/-- The same fault agrees with itself. -/
lemma agree_fail {fault : Fault} : K.Agree R (fail fault : Render α) (fail fault) :=
  agree_throw (K.fault fault)

/-- The states that are read are alike. -/
lemma agree_get : K.Agree (fun c d => c.Like K.sameLayout d K.apart) get get :=
  fun _ _ hc => .ok hc hc

/-- States that are alike may be set. -/
lemma agree_set {c d : Context} (h : c.Like K.sameLayout d K.apart) :
    K.Agree Eq (set c : Render PUnit) (set d) :=
  fun _ _ _ => .ok rfl h

/-- Changes that keep states alike agree. -/
lemma agree_modify {f g : Context → Context}
    (h : ∀ c d, c.Like K.sameLayout d K.apart → (f c).Like K.sameLayout (g d) K.apart) :
    K.Agree Eq (modify f : Render PUnit) (modify g) :=
  fun c d hc => .ok rfl (h c d hc)

/-- Results that agree do so as steps. -/
lemma agree_ofExcept {first : Except Diagnostic α} {other : Except Diagnostic β}
    (h : K.Both R first other) : K.Agree R (Render.ofExcept first) (Render.ofExcept other) := by
  cases h with
  | ok hr => exact agree_pure hr
  | error hd => exact agree_throw hd
  | failed ho => exact fun _ _ _ => .failed ho

/-- The same result agrees with itself when it is lifted. -/
lemma agree_lift {ε : Type} {fault : ε → Fault} {result : Except ε α} :
    K.Agree Eq (lift fault result) (lift fault result) := by
  cases result with
  | ok a => exact agree_pure rfl
  | error e => exact agree_fail

/-- Steps that end alike do so together with what follows. -/
lemma Ends.bind {step : Render γ} {other : Render δ} {next : γ → Render α} {next' : δ → Render β}
    {c d : Context} (hs : K.Ends P (step c) (other d))
    (hn : ∀ a b m n, step c = .ok a m → P a b → m.Like K.sameLayout n K.apart →
      K.Ends R (next a m) (next' b n)) :
    K.Ends R ((step >>= next) c) ((other >>= next') d) := by
  simp only [Bind.bind, EStateM.bind]
  generalize hr : step c = result at hs hn
  generalize other d = result' at hs
  cases hs with
  | ok hp hm => exact hn _ _ _ _ rfl hp hm
  | error he hm => exact .error he hm
  | failed ho => exact .failed ho

/-- Steps that agree do so one after the other. -/
lemma Agree.bind {step : Render γ} {other : Render δ} {next : γ → Render α} {next' : δ → Render β}
    (hs : K.Agree P step other) (hn : ∀ a b, P a b → K.Agree R (next a) (next' b)) :
    K.Agree R (step >>= next) (other >>= next') :=
  fun _ _ hc => (hs hc).bind fun a b _ _ _ hp => @hn a b hp _ _

/-- A step of the first run alone, which leaves the second where it is. -/
lemma Agree.before {Q : γ → Prop} {step : Render γ} {next : γ → Render α} {other : Render β}
    (hs : K.Agree (fun a _ => Q a) step (pure ⟨⟩ : Render PUnit))
    (hn : ∀ a, Q a → K.Agree R (next a) other) : K.Agree R (step >>= next) other := by
  rw [← pure_bind (⟨⟩ : PUnit) fun _ => other]
  exact hs.bind fun a _ ha => hn a ha

/-- Equal results of two steps can be given one name. -/
lemma Agree.bindEq {step other : Render γ} {next : γ → Render α} {next' : γ → Render β}
    (hs : K.Agree Eq step other) (hn : ∀ a, K.Agree R (next a) (next' a)) :
    K.Agree R (step >>= next) (other >>= next') :=
  hs.bind fun a _ hab => hab ▸ hn a

/-- Checks for the same condition agree if what follows does. -/
lemma Agree.check {p : Prop} [Decidable p] {d e : Diagnostic} {next : PUnit → Render α}
    {next' : PUnit → Render β} (hd : K.matching d e) (hn : ¬p → K.Agree R (next ⟨⟩) (next' ⟨⟩)) :
    K.Agree R (if p then throw d >>= next else next ⟨⟩)
      (if p then throw e >>= next' else next' ⟨⟩) := by
  split
  · exact fun c d hc => .error hd hc
  · next hp => exact hn hp

/-- Steps over lists agree if they do one by one. -/
lemma agree_mapM {as : List γ} {bs : List δ} {f : γ → Render α} {g : δ → Render β}
    (h : List.Forall₂ (fun a b => K.Agree R (f a) (g b)) as bs) :
    K.Agree (List.Forall₂ R) (as.mapM f) (bs.mapM g) := by
  induction h with
  | nil => exact agree_pure .nil
  | cons h _ ih =>
    rw [List.mapM_cons, List.mapM_cons]
    refine h.bind fun a b hr => ih.bind fun as bs hrs => ?_
    exact agree_pure (.cons hr hrs)

/-- Folds over lists agree if their steps do. -/
lemma agree_foldlM {as : List γ} {bs : List δ} {f : α → γ → Render α} {g : α → δ → Render α}
    (h : List.Forall₂ (fun a b => ∀ x, K.Agree Eq (f x a) (g x b)) as bs) (start : α) :
    K.Agree Eq (as.foldlM f start) (bs.foldlM g start) := by
  induction h generalizing start with
  | nil => exact agree_pure rfl
  | cons h _ ih =>
    rw [List.foldlM_cons, List.foldlM_cons]
    exact (h start).bindEq ih

/-- Steps agree after their diagnostics are located at nodes that correspond. -/
lemma Agree.locating {step : Render α} {other : Render β} {a b : Node} (hs : K.Agree R step other)
    (h : K.alike a b) : K.Agree R (locating a.span step) (locating b.span other) := by
  intro c d hc
  have he := hs hc
  simp only [Render.locating]
  generalize step c = result at he
  generalize other d = result' at he
  cases he with
  | ok hr hm => exact .ok hr hm
  | error he hm => exact .error (K.locate h he) hm
  | failed ho => exact .failed ho

/-- Steps agree together with what is done after them. -/
lemma Agree.ensuring {step : Render α} {other : Render β} {f g : Context → Context}
    (hs : K.Agree R step other)
    (hf : ∀ c d, c.Like K.sameLayout d K.apart → (f c).Like K.sameLayout (g d) K.apart) :
    K.Agree R (ensuring step f) (ensuring other g) := by
  intro c d hc
  have he := hs hc
  simp only [Render.ensuring]
  generalize step c = result at he
  generalize other d = result' at he
  cases he with
  | ok hr hm => exact .ok hr (hf _ _ hm)
  | error he hm => exact .error he (hf _ _ hm)
  | failed ho => exact .failed ho

/-- Going one level deeper agrees. -/
lemma agree_descend : K.Agree Eq descend descend := by
  intro c d hc
  rw [descend_apply, descend_apply, hc.descend.tooDeep, hc.maxDepth]
  split
  · exact .error (K.fault _) hc.descend
  · exact .ok rfl hc.descend

/-- Iterations agree if each does. -/
lemma agree_iterate {step other : Nat → Render String} {R : String → String → Prop}
    (hs : ∀ i, K.Agree R (step i) (other i)) (count index : Nat) :
    K.Agree (List.Forall₂ R) (iterate step count index) (iterate other count index) := by
  induction count generalizing index with
  | zero => exact agree_pure .nil
  | succ count ih =>
    refine (hs index).bind fun a b hr => (ih (index + 1)).bind fun as bs hrs => ?_
    exact agree_pure (.cons hr hrs)

/-- Branches agree if each does. -/
lemma agree_firstText {branches others : List (Render (Option String))}
    {rest rest' : Render String} {R : String → String → Prop}
    (hb : List.Forall₂ (K.Agree (Option.Rel R)) branches others) (hr : K.Agree R rest rest') :
    K.Agree R (firstText branches rest) (firstText others rest') := by
  induction hb with
  | nil => exact hr
  | cons h _ ih =>
    refine h.bind fun text other ht => ?_
    cases ht with
    | none => exact ih
    | some ht => exact agree_pure ht

end Simulation

end Stylesheet
