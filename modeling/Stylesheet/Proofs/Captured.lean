import Stylesheet.Proofs.Lines

/-!
# Captured mixins

The texts of a mixin keep their form from where the mixin is captured to where it is included: a
line outside its rules is loose, and a rule is framed and among those that `Captured` tells of.
`Portrays` says so of each statement of a mixin.
-/

namespace Stylesheet

open Text

/-- The texts of a mixin, or of an inclusion of it. The rules among them are of a sort. -/
structure Fragments.Laid (root : Node) (W : String → String → Prop) (fragments : Fragments) :
    Prop where
  direct : ∀ line ∈ fragments.direct, Loose root line
  deferred : ∀ rule ∈ fragments.deferred, Framed root W rule

/-- A mixin that the document has declared under a name: every inclusion of it brings its rules. -/
structure Mixin.Declared (root : Node) (start : Context) (name : String) (m : Mixin) : Prop where
  parameters : m.parameters.Sorted Variable.Replaceable (Over unbraced)
  body : m.body.Laid root fun selector body => ∀ mixins args bindings,
    mixins.get? name = some m → m.bind name args = .ok bindings →
      Render.Brings root start mixins name args (substituteAll bindings selector)
        (substituteAll bindings body)

variable {root : Node} {start : Context}

namespace Render

/-! ### Inclusions -/

/-- An inclusion brings rules of the mixin, with its arguments in the place of the parameters. -/
lemma laid_of_expandMixin {mixins : MixinTable} {node : Node} {args : List String}
    {fragments : Fragments} (h : expandMixin mixins node args = .ok fragments)
    (hm : ∀ e ∈ mixins.entries, e.2.Declared root start e.1)
    (ha : ∀ arg ∈ args, Over unbraced arg) :
    ∃ name, node.name = .ok name ∧ fragments.Laid root (Brings root start mixins name args) := by
  obtain ⟨name, m, bindings, hname, hg, hb, rfl⟩ := exists_of_expandMixin h
  have hdecl := hm _ (Registry.mem_of_get? hg)
  have hall : Over unbraced (", ".intercalate args) :=
    over_intercalate (ample_unbraced.over_of_isPlain rfl) ha
  have hbound := Mixin.forall_of_bind hdecl.parameters ha hall hb
  refine ⟨name, hname, fun line hl => ?_, fun rule hl => ?_⟩
  · obtain ⟨source, hs, rfl⟩ := List.mem_map.1 hl
    refine Mixin.substituteAll_keeps (fun b hb t ht => ?_) (hdecl.body.direct source hs)
    obtain ⟨hn, hv⟩ := hbound b hb
    obtain ⟨word, hw⟩ := hn.sigil
    exact ⟨ht.chars.substitute hw hn.chars hv, ht.unhoused⟩
  · obtain ⟨source, hs, rfl⟩ := List.mem_map.1 hl
    exact (hdecl.body.deferred source hs).substituteAll hbound
      fun selector body hw => hw mixins args bindings hg hb

/-! ### Capturing -/

/-- A statement of a mixin stands in a rule of it. -/
def Site.isInRule : Site → Bool
  | body => false
  | rule _ => true

/-- The texts of a statement of a mixin. If every declaration is housed, the lines are those of a
declaration, as it is written. -/
structure Portrayed (root : Node) (start : Context) (mixins : MixinTable) (site : Site)
    (node : Node) (fragments : Fragments) : Prop where
  chars : ∀ line ∈ fragments.direct, Over unbraced line
  loose : site = .body → ∀ line ∈ fragments.direct, Loose root line
  lines : root.AllHoused → List.Forall₂ (fun child line => rawDeclaration child = .ok line)
    ([node].filter (·.kind == .declaration)) fragments.direct
  rules : ∀ rule ∈ fragments.deferred, Framed root (Captured root start mixins site node) rule

/-- What is captured of a statement without braces is portrayed by it. -/
def Portrays (root : Node) (start : Context) (mixins : MixinTable) (site : Site) (node : Node)
    (fragments : Fragments) : Prop :=
  node.Over unbraced → site.Within (Over unbraced) →
    (root.AllHoused → node.Housed site.isInRule) →
      Portrayed root start mixins site node fragments

/-- A declaration is captured with its characters only. -/
lemma over_rawDeclaration {node : Node} {line : String} (hn : node.Over unbraced)
    (h : rawDeclaration node = .ok line) : Over unbraced line := by
  obtain ⟨property, item, hp, hi, rfl⟩ := exists_of_rawDeclaration h
  exact over_line ample_unbraced over_semicolon (hn.name hp)
    (hn.child (List.mem_of_getElem? hi)).text.trim

section

variable {mixins : MixinTable} {node group block : Node} {site : Site}

/-- A declaration in the body of a mixin is not housed. -/
lemma portrayed_declaration {line : String} (hk : node.kind = .declaration)
    (hn : node.Over unbraced) (hh : root.AllHoused → node.Housed site.isInRule)
    (h : rawDeclaration node = .ok line) :
    Portrayed root start mixins site node { direct := [line] } where
  chars := List.forall_mem_singleton.2 (over_rawDeclaration hn h)
  loose hs := by
    refine List.forall_mem_singleton.2 ⟨over_rawDeclaration hn h, fun hall => ?_⟩
    have := (Node.housed_iff.1 (hh hall)).1 hk
    rw [hs] at this
    cases this
  lines _ := by
    simp only [List.filter_singleton, hk]
    exact .cons h .nil
  rules := by simp

/-- A statement in the block of a rule of a mixin is in the rule. -/
lemma Portrays.of_rule {child : Node} {part : Fragments}
    (h : Portrays root start mixins (.rule (site.compose group.selectorText)) child part)
    (hrule : node.IsRule group block) (hc : child ∈ block.children) (hn : node.Over unbraced)
    (hs : site.Within (Over unbraced)) (hh : root.AllHoused → node.Housed site.isInRule) :
    Portrayed root start mixins (.rule (site.compose group.selectorText)) child part := by
  have hb := List.mem_of_getElem? hrule.block_at
  have hg := List.mem_of_getElem? hrule.group_at
  refine h ((hn.child hb).child hc) ?_ fun hall => ?_
  · exact over_siteCompose ample_unbraced hs ((hn.child hg).selectorText ample_unbraced)
  · exact (hh hall).statement (by simp [Node.houses, hrule.kind, Site.isInRule]) hb
      hrule.block_kind hc

/-- The lines of a rule are those of the declarations in its block. -/
lemma forall₂_declarations {parts : List Fragments}
    (h : List.Forall₂ (fun child part =>
      List.Forall₂ (fun child line => rawDeclaration child = .ok line)
        ([child].filter (·.kind == .declaration)) part.direct) block.children parts) :
    List.Forall₂ (fun child line => rawDeclaration child = .ok line) (block.filter .declaration)
      (parts.flatMap Fragments.direct) := by
  have hf : block.filter .declaration =
      block.children.flatMap fun child => [child].filter (·.kind == .declaration) := by
    unfold Node.filter
    induction block.children with
    | nil => rfl
    | cons child children ih => rw [List.flatMap_cons, ← ih, ← List.filter_append]; rfl
  rw [hf]
  exact List.rel_flatMap h fun _ _ hp => hp

/-- A rule of a mixin is captured with its lines, and after it the rules in it. -/
lemma portrayed_rule {parts : List Fragments} (hi : Over unbraced start.options.indent)
    (hrule : node.IsRule group block) (hn : node.Over unbraced) (hs : site.Within (Over unbraced))
    (h : List.Forall₂ (Portrayed root start mixins (.rule (site.compose group.selectorText)))
      block.children parts) :
    Portrayed root start mixins site node
      { deferred := Selector.block (site.compose group.selectorText)
          (Fragments.indented start.options.indent (parts.flatMap Fragments.direct)) ::
            parts.flatMap Fragments.deferred } where
  chars := by simp
  loose := by simp
  lines _ := by
    simp only [List.filter_singleton, hrule.kind]
    exact .nil
  rules := by
    refine List.forall_mem_cons.2 ⟨⟨_, _, block_eq _ _, ?_⟩, ?_⟩
    · have hg := (hn.child (List.mem_of_getElem? hrule.group_at)).selectorText ample_unbraced
      have hheld : Held root (fun _ => True)
          (Fragments.indented start.options.indent (parts.flatMap Fragments.direct)) := by
        refine .indented hi ?_ fun _ _ _ => trivial
        exact forall_mem_flatMap h fun child _ part hpart => hpart.chars
      refine .of_held (over_siteCompose ample_unbraced hs hg) hheld fun hall => .rule hrule ?_
      exact forall₂_declarations (h.imp fun _ _ hpart => hpart.lines hall)
    · refine forall_mem_flatMap h fun child hc part hpart rule hm => ?_
      exact (hpart.rules rule hm).mono fun _ _ => .nested hrule hc

/-- An inclusion in a mixin places the rules that it brings under the rule around it. -/
lemma portrayed_inclusion {found : Fragments} {name : String} (hk : node.kind = .includeDeclaration)
    (hname : node.name = .ok name) (hs : site.Within (Over unbraced))
    (h : found.Laid root
      (Brings root start mixins name (node.arguments.map fun arg => trim arg.text))) :
    Portrayed root start mixins site node (site.place found) := by
  have hdirect : (site.place found).direct = found.direct := by
    cases site <;> rfl
  refine ⟨?_, ?_, fun hall => ?_, ?_⟩
  · rw [hdirect]
    exact fun line hl => (h.direct line hl).chars
  · rw [hdirect]
    exact fun _ => h.direct
  · -- A line of a mixin stands outside its rules, so there is none.
    have hnone : found.direct = [] := List.eq_nil_iff_forall_not_mem.2 fun line hl =>
      (h.direct line hl).unhoused hall
    rw [hdirect, hnone]
    simp only [List.filter_singleton, hk]
    exact .nil
  · intro rule hm
    cases site with
    | body => exact (h.deferred rule hm).mono fun _ _ => .included hk hname
    | rule parent =>
      obtain ⟨source, hsource, rfl⟩ := List.mem_map.1 hm
      exact (h.deferred source hsource).place hs fun _ _ => .placed hk hname

/-- Everything that is captured is portrayed by its statement. -/
lemma captures_portrays (hi : Over unbraced start.options.indent)
    (hm : ∀ e ∈ mixins.entries, e.2.Declared root start e.1) :
    Captures mixins start.options.indent (Portrays root start mixins) where
  declaration hk h hn _ hh := portrayed_declaration hk hn hh h
  rule {site node group block parts} hrule h hn hs hh := by
    refine portrayed_rule hi hrule hn hs ?_
    have hparts := (List.forall₂_and_left (p := (· ∈ block.children)) _ _).2 ⟨fun _ => id, h⟩
    exact hparts.imp fun child part hp => hp.2.of_rule hrule hp.1 hn hs hh
  inclusion hk h hn hs _ := by
    obtain ⟨name, hname, hlaid⟩ := laid_of_expandMixin h hm fun arg ha => by
      obtain ⟨given, hg, rfl⟩ := List.mem_map.1 ha
      exact (hn.argument hg).text.trim
    exact portrayed_inclusion hk hname hs hlaid

end

/-! ### Declarations -/

/-- A mixin that is declared where the document is walked over is a mixin of the document. -/
lemma declared_of_declareMixin {above : List Node} {node : Node} {c : Context} {name : String}
    {m : Mixin} {block : node.Child} {inRule : Bool} (hi : Over unbraced start.options.indent)
    (hreach : Reaches root start above c node) (hk : node.kind = .mixinDeclaration)
    (hn : node.Over unbraced) (hh : root.AllHoused → node.Housed inRule)
    (hm : ∀ e ∈ c.mixins.entries, e.2.Declared root start e.1)
    (hp : m.parameters.Sorted Variable.Replaceable (Over unbraced))
    (hrun : declareMixin node c.descend =
      .ok ⟨⟩ { c.descend with mixins := c.mixins.insert name m })
    (hbody : node.body = .ok block)
    (hcapture : captureBlock c.mixins start.options.indent .body block.1 = .ok m.body) :
    m.Declared root start name := by
  obtain ⟨parts, hparts, hcat⟩ := (captures_portrays hi hm).block hcapture
  have hportrayed (child : Node) (hc : child ∈ block.1.children) (part : Fragments)
      (h : Portrays root start c.mixins .body child part) :
      Portrayed root start c.mixins .body child part := by
    refine h ((hn.child block.2).child hc) trivial fun hall => ?_
    exact (hh hall).statement (by simp [Node.houses, hk, Site.isInRule]) block.2
      (Node.kind_of_body hbody) hc
  refine ⟨hp, ?_⟩
  rw [hcat]
  constructor
  · exact forall_mem_flatMap hparts fun child hc part h => (hportrayed child hc part h).loose rfl
  · refine forall_mem_flatMap hparts fun child hc part h rule hr => ?_
    have hframed := (hportrayed child hc part h).rules rule hr
    exact hframed.mono fun _ _ hcap mixins args bindings hg hb =>
      .intro hg hb hreach hk hrun hbody hc hcap

end Render

end Stylesheet
