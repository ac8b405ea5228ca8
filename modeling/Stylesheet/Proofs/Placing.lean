import Stylesheet.Node.Build
import Stylesheet.Proofs.Limit
import Stylesheet.Proofs.Sheet
import Stylesheet.Proofs.Stencil
import Stylesheet.Proofs.Unrolling

/-!
# Placing the values of a loop

A loop over a list or a map leaves its names in the text of an iteration and replaces them at its
end. The text is the one of the body in which the values are placed beforehand: literals for the
references to the names, and values for their placeholders (`Render.each_places_values`). For that,
sigils have to stand in whole placeholders also in what the loop finds around it, the indent and the
selectors of the rules that are open (`Compiler.surroundings_join_name`).
-/

namespace Stylesheet

open Text

/-! ### Values in a tree -/

/-- A tree with values for names: literals in the place of references, and the values in the place
of placeholders in all other texts. -/
def Node.placed (bindings : List (String × String)) (node : Node) : Node :=
  if node.kind = .reference then (bindings.lookup node.text).elim node Node.literal
  else
    { node with
      text := interpolateAll bindings node.text
      children := node.children.map (placed bindings) }
termination_by sizeOf node
decreasing_by exact sizeOf_lt_of_mem ‹_›

namespace Node

variable {bindings : List (String × String)} {ρ : String → String} {R : String → Prop}
  {node name value group block : Node}

/-- A reference that is placed is the literal of its value. -/
lemma placed_of_reference (h : node.kind = .reference) :
    node.placed bindings = (bindings.lookup node.text).elim node Node.literal := by
  rw [placed, if_pos h]

variable (bindings) in
/-- Placing values keeps the kind of a node that is no reference. -/
lemma kind_placed (h : node.kind ≠ .reference) : (node.placed bindings).kind = node.kind := by
  rw [placed, if_neg h]

/-- Placing values interpolates them in the text of a node that is no reference. -/
lemma text_placed (h : node.kind ≠ .reference) :
    (node.placed bindings).text = interpolateAll bindings node.text := by
  rw [placed, if_neg h]

/-- Placing values is done below a node that is no reference. -/
lemma children_placed (h : node.kind ≠ .reference) :
    (node.placed bindings).children = node.children.map (placed bindings) := by
  rw [placed, if_neg h]

variable (bindings) in
/-- A declaration of a property stays one. -/
lemma IsProperty.placed (h : node.IsProperty name value) :
    (node.placed bindings).IsProperty (name.placed bindings) (value.placed bindings) := by
  have hk : node.kind ≠ .reference := by simp [h.kind]
  have hn : name.kind ≠ .reference := by simp [h.name_kind]
  constructor
  · rw [kind_placed bindings hk, h.kind]
  · rw [children_placed hk, List.getElem?_map, h.name_at, Option.map_some]
  · rw [kind_placed bindings hn, h.name_kind]
  · rw [children_placed hk, List.getElem?_map, h.value_at, Option.map_some]

variable (bindings) in
/-- A rule stays one. -/
lemma IsRule.placed (h : node.IsRule group block) :
    (node.placed bindings).IsRule (group.placed bindings) (block.placed bindings) := by
  have hk : node.kind ≠ .reference := by simp [h.kind]
  have hg : group.kind ≠ .reference := by simp [h.group_kind]
  have hb : block.kind ≠ .reference := by simp [h.block_kind]
  constructor
  · rw [kind_placed bindings hk, h.kind]
  · rw [children_placed hk, List.getElem?_map, h.group_at, Option.map_some]
  · rw [kind_placed bindings hg, h.group_kind]
  · rw [children_placed hk, List.getElem?_map, h.block_at, Option.map_some]
  · rw [kind_placed bindings hb, h.block_kind]

section

variable (hb : ∀ b ∈ bindings, Insertable b)
include hb

/-- No reference to a name is a stencil, so in stencils just placeholders are filled. -/
lemma places_text_placed (h : isStencil node.text = true) :
    Places bindings node.text (node.placed bindings).text := by
  by_cases hk : node.kind = .reference
  · rw [placed_of_reference hk]
    cases hl : bindings.lookup node.text with
    | none => exact places_self h
    | some value =>
      obtain ⟨word, hw, -⟩ := (insertable_of_lookup hb hl).isName
      rw [isStencil, hw] at h
      cases h
  · rw [text_placed hk]
    exact places_interpolateAll hb h

/-- Values are placed in a text without the blanks at its ends. -/
lemma places_trim_placed (h : isStencil node.text = true) :
    Places bindings (trim node.text) (trim (node.placed bindings).text) :=
  (places_text_placed hb h).trim solid_unplaced (solid_placed hb)

/-- Values are placed in the selector of a rule. -/
lemma places_selectorText_placed (hg : group.kind ≠ .reference)
    (h : ∀ part ∈ group :: group.children, isStencil part.text = true) :
    Places bindings group.selectorText (group.placed bindings).selectorText := by
  rw [List.forall_mem_cons] at h
  refine rel_selectorText (fun h => h.eq_empty_iff solid_unplaced (solid_placed hb))
    (fun h h' => .intercalate (by decide) (.cons h h')) ?_ (places_trim_placed hb h.1)
  rw [children_placed hg, List.map_map, List.forall₂_map_left_iff, List.forall₂_map_right_iff,
    List.forall₂_same]
  exact fun part hp => places_trim_placed hb (h.2 part hp)

omit hb in
/-- Parts in which values are placed coincide. -/
lemma coincide_placed {parts : List Node} (h : ∀ part ∈ parts,
      Coincide bindings (part.spell ρ) ((part.placed bindings).spell ρ)) :
    List.Forall₂ (Coincide bindings) (parts.map (spell ρ))
      ((parts.map (Node.placed bindings)).map (spell ρ)) := by
  rw [List.map_map, List.forall₂_map_left_iff, List.forall₂_map_right_iff, List.forall₂_same]
  exact h

/-- Where the names stand for themselves in the output, a value and the one in which they are placed
coincide. -/
lemma Spelled.placed (hρ : ∀ b ∈ bindings, ρ b.1 = b.1)
    (h : node.Spelled (isStencil · = true) R) :
    (node.placed bindings).Spelled (fun _ => True) (fun _ => True) ∧
      Coincide bindings (node.spell ρ) ((node.placed bindings).spell ρ) := by
  induction h with
  | @literal node hk hl =>
    have hn : node.kind ≠ .reference := by simp [hk]
    have hk' := (kind_placed bindings hn).trans hk
    refine ⟨.literal hk' trivial, ?_⟩
    rw [spell_of_literal hk, spell_of_literal hk']
    exact (places_trim_placed hb hl).coincide hb
  | @reference node hk _ =>
    rw [placed_of_reference hk, spell_of_reference hk]
    cases hl : bindings.lookup node.text with
    | none =>
      refine ⟨.reference hk trivial, ?_⟩
      rw [Option.elim_none, spell_of_reference hk]
      exact .refl _
    | some value =>
      have hv := insertable_of_lookup hb hl
      have hm : (node.text, value) ∈ bindings := by
        obtain ⟨before, after, rfl, -⟩ := List.lookup_eq_some_iff.1 hl
        simp
      refine ⟨.literal rfl trivial, ?_⟩
      rw [Option.elim_some, spell_of_literal rfl, hρ _ hm]
      have ht : trim (Node.literal value).text = value := trim_eq_self hv.solid.head hv.solid.last
      rw [ht]
      exact .name_value hb hl
  | @element node hk _ ih =>
    have hn : node.kind ≠ .reference := by simp [hk]
    have hk' := (kind_placed bindings hn).trans hk
    refine ⟨.element hk' ?_, ?_⟩
    · rw [children_placed hn, List.forall_mem_map]
      exact fun part hp => (ih part hp).1
    · rw [spell_of_element hk, spell_of_element hk', children_placed hn]
      exact .intercalate hb (by decide) (coincide_placed fun part hp => (ih part hp).2)
  | @bare node hk hc hl =>
    have hn : node.kind ≠ .reference := by simp [hk]
    have hk' := (kind_placed bindings hn).trans hk
    have hc' : (node.placed bindings).children = [] := by rw [children_placed hn, hc, List.map_nil]
    refine ⟨.bare hk' hc' trivial, ?_⟩
    rw [spell_of_bare hk hc, spell_of_bare hk' hc']
    exact (places_trim_placed hb hl).coincide hb
  | @elements node hk hc _ ih =>
    have hn : node.kind ≠ .reference := by simp [hk]
    have hk' := (kind_placed bindings hn).trans hk
    have hc' : (node.placed bindings).children ≠ [] := by simpa [children_placed hn] using hc
    refine ⟨.elements hk' hc' ?_, ?_⟩
    · rw [children_placed hn, List.forall_mem_map]
      exact fun part hp => (ih part hp).1
    · rw [spell_of_elements hk hc, spell_of_elements hk' hc', children_placed hn]
      exact .intercalate hb (by decide) (coincide_placed fun part hp => (ih part hp).2)

end

end Node

/-- A block of rules, and the one in which values are placed. -/
lemma Composed.placed {bindings : List (String × String)} {ρ : String → String} {nodes : List Node}
    {body : Body} (hb : ∀ b ∈ bindings, Insertable b) (hρ : ∀ b ∈ bindings, ρ b.1 = b.1)
    (h : Composed (isStencil · = true) ρ nodes body) :
    ∃ body', Composed (fun _ => True) ρ (nodes.map (Node.placed bindings)) body' ∧
      Body.Rel (Places bindings) (Coincide bindings) body body' := by
  induction h with
  | nil => exact ⟨.nil, .nil, .nil⟩
  | declaration hn hp hv _ ih =>
    obtain ⟨rest', hc, hr⟩ := ih
    obtain ⟨hs, coincide⟩ := hv.placed hb hρ
    exact ⟨_, .declaration (hn.placed bindings) trivial hs hc,
      .declaration (Node.places_trim_placed hb hp) coincide hr⟩
  | @rule node group block nodes inner rest hn hs _ _ ihi ih =>
    obtain ⟨inner', hci, hri⟩ := ihi
    obtain ⟨rest', hc, hr⟩ := ih
    have hblock : block.kind ≠ .reference := by simp [hn.block_kind]
    have hgroup : group.kind ≠ .reference := by simp [hn.group_kind]
    rw [← Node.children_placed hblock] at hci
    exact ⟨_, .rule (hn.placed bindings) (fun _ _ => trivial) hci hc,
      .rule (Node.places_selectorText_placed hb hgroup hs) hri hr⟩

/-! ### The texts of iterations -/

namespace FlatRule

/-- The lines of a rule are its declarations, one after the other. -/
lemma lines_eq_join (indent : String) (declarations : List (String × String)) :
    lines indent declarations = String.join ((declarations.map fun d =>
      indent ++ d.1 ++ ": " ++ d.2 ++ ";").map ("\n" ++ ·)) := by
  simp only [lines, List.map_map, Function.comp_def, String.append_assoc]

/-- The text of a rule is its selector and its lines between braces. -/
lemma text_eq_append (indent : String) (r : FlatRule) :
    r.text indent =
      Selector.chain r.path ++ "\x7b" ++ lines indent r.declarations ++ "\n" ++ "\x7d" := by
  have closing : "\n\x7d" = "\n" ++ "\x7d" := rfl
  rw [text, Selector.block, closing, ← String.append_assoc]

/-- Of a rule that had to wait, just the start of the selector is trimmed. -/
lemma trim_fragment (indent : String) (r : FlatRule) :
    trim (r.fragment indent) =
      trim (Selector.chain r.path ++ "\x7b") ++ lines indent r.declarations ++ "\n" ++ "\x7d" := by
  have start (t : String) : trimStart (Selector.chain r.path ++ "\x7b" ++ t) =
      trimStart (Selector.chain r.path) ++ "\x7b" ++ t := trimStart_append rfl (by decide)
  have opening : trim (Selector.chain r.path ++ "\x7b") =
      trimStart (Selector.chain r.path) ++ "\x7b" := by
    have alone := start ""
    rw [String.append_empty, String.append_empty] at alone
    rw [trim_eq_trimEnd, alone]
    exact trimEnd_eq_self rfl (by decide)
  have whole := start (lines indent r.declarations ++ ("\n" ++ "\x7d"))
  rw [← String.append_assoc, ← String.append_assoc, ← String.append_assoc,
    ← String.append_assoc] at whole
  rw [fragment, trim_append blank_newlines, text_eq_append, opening, trim_eq_trimEnd, whole]
  exact trimEnd_eq_self rfl (by decide)

variable {bindings : List (String × String)} {indent s s' : String} {r r' : FlatRule}
  (hb : ∀ b ∈ bindings, Insertable b) (hi : isStencil indent = true)
include hb hi

namespace Rel

variable (h : Rel (Places bindings) (Coincide bindings) r r')
include h

/-- Blocks coincide if values are placed in the selector. -/
lemma coincide_block (hs : Places bindings s s') :
    Coincide bindings (s ++ lines indent r.declarations ++ "\n" ++ "\x7d")
      (s' ++ lines indent r'.declarations ++ "\n" ++ "\x7d") := by
  have lines : List.Forall₂ (Coincide bindings)
      (r.declarations.map fun d => indent ++ d.1 ++ ": " ++ d.2 ++ ";")
      (r'.declarations.map fun d => indent ++ d.1 ++ ": " ++ d.2 ++ ";") := by
    rw [List.forall₂_map_left_iff, List.forall₂_map_right_iff]
    refine h.declarations.imp fun d d' hd => ?_
    have property : Places bindings (indent ++ d.1) (indent ++ d'.1) :=
      (places_self hi).append hd.1
    exact ((property.coincide hb).cut hb (by decide) hd.2).append_cut hb (by decide)
  have opened := (hs.coincide hb).append_join hb (show cuts "\n" = true by decide) lines
  rw [← lines_eq_join, ← lines_eq_join] at opened
  exact opened.cut hb (by decide) (.refl _)

omit hi in
/-- Values are placed in the start of a rule. -/
lemma places_opening :
    Places bindings (Selector.chain r.path ++ "\x7b") (Selector.chain r'.path ++ "\x7b") :=
  (Alike.chain solid_unplaced (solid_placed hb) h.path).append (.refl_of_not_mem (by decide))

/-- Rules in which values are placed coincide. -/
lemma coincide_text : Coincide bindings (r.text indent) (r'.text indent) := by
  rw [text_eq_append, text_eq_append]
  exact h.coincide_block hb hi (h.places_opening hb)

/-- Fragments in which values are placed coincide. -/
lemma coincide_trim_fragment :
    Coincide bindings (trim (r.fragment indent)) (trim (r'.fragment indent)) := by
  rw [trim_fragment, trim_fragment]
  exact h.coincide_block hb hi ((h.places_opening hb).trim solid_unplaced (solid_placed hb))

end Rel

end FlatRule

/-- The texts of an iteration coincide if values are placed in its rules. -/
lemma Body.Rel.coincide_iterationText {bindings : List (String × String)} {indent : String}
    {path : List String} {rules rules' : Body} (hb : ∀ b ∈ bindings, Insertable b)
    (hi : isStencil indent = true) (hp : ∀ selector ∈ path, isStencil selector = true)
    (h : Rel (Places bindings) (Coincide bindings) rules rules') :
    Coincide bindings (rules.iterationText indent path) (rules'.iterationText indent path) := by
  have around : List.Forall₂ (Places bindings) path path :=
    List.forall₂_same.2 fun selector hs => places_self (hp selector hs)
  have outer : List.Forall₂ (Coincide bindings) ((rules.outer path).map (·.text indent))
      ((rules'.outer path).map (·.text indent)) := by
    rw [List.forall₂_map_left_iff, List.forall₂_map_right_iff]
    exact (h.outer around).imp fun r r' hr => hr.coincide_text hb hi
  have inner : List.Forall₂ (Coincide bindings)
      ((rules.inner path).map fun r => trim (r.fragment indent))
      ((rules'.inner path).map fun r => trim (r.fragment indent)) := by
    rw [List.forall₂_map_left_iff, List.forall₂_map_right_iff]
    exact (h.inner around).imp fun r r' hr => hr.coincide_trim_fragment hb hi
  have texts := (Coincide.join_append hb (show cuts "\n\n" = true by decide) outer).append_join hb
    (show cuts "\n" = true by decide) inner
  rw [List.map_map, List.map_map, List.map_map, List.map_map] at texts
  exact texts

/-! ### Running a loop -/

namespace Render

variable {L : String → Prop} {ρ : String → String} {c m : Context} {nodes : List Node}
  {node body : Node} {rules : Body} {texts names : List String} {text : String}
  {bindings : List (String × String)} {rows : List (List String)}

/-- Of statements that succeed, the first succeeds and the others do so at the same level. -/
lemma exists_of_mapM_statement_cons (h : (node :: nodes).mapM statement c = .ok texts m) :
    ∃ text m' texts' m'', statement node c = .ok text m' ∧
      nodes.mapM statement m' = .ok texts' m'' ∧ c.Level m' := by
  rw [List.mapM_cons] at h
  obtain ⟨text, m', hs, h⟩ := bind_eq_ok_iff.1 h
  obtain ⟨texts', m'', hts, -⟩ := bind_eq_ok_iff.1 h
  exact ⟨text, m', texts', m'', hs, hts, level_of_statement hs⟩

/-- Statements that succeed nest no deeper than the limit. -/
lemma nesting_le_of_mapM (h : Composed L ρ nodes rules)
    (ht : nodes.mapM statement c = .ok texts m) :
    rules.nesting ≤ c.options.maxDepth.toNat - c.depth := by
  induction h generalizing c m texts with
  | nil => exact Nat.zero_le _
  | declaration _ _ _ _ ih =>
    obtain ⟨text, m', texts', m'', hs, hts, level⟩ := exists_of_mapM_statement_cons ht
    have within := (lt_maxDepth_of_statement hs).1
    have rest := ih hts
    rw [level.depth, level.options] at rest
    rw [Body.nesting]
    omega
  | rule hn _ _ _ ihi ih =>
    obtain ⟨text, m', texts', m'', hs, hts, level⟩ := exists_of_mapM_statement_cons ht
    have within := (lt_maxDepth_of_statement hs).1
    have rest := ih hts
    rw [level.depth, level.options] at rest
    obtain ⟨inner, m₀, hb⟩ := exists_mapM_inside hn hs
    have inside : _ ≤ c.options.maxDepth.toNat - (c.depth + 1) := ihi hb
    rw [Body.nesting]
    omega

/-- An iteration runs the statements of the block. -/
lemma exists_mapM_of_iteration {placement : Placement}
    (h : iteration (block body) placement bindings c = .ok text m) :
    ∃ texts m', body.children.mapM statement (startIteration bindings c) = .ok texts m' := by
  rw [iteration, modify_bind_apply, get_bind_apply, modify_bind_apply] at h
  obtain ⟨text, m', h, -⟩ := bind_eq_ok_iff.1 h
  obtain ⟨m'', h, -⟩ := ensuring_eq_ok_iff.1 h
  obtain ⟨texts, hm, -⟩ := mapM_of_block h
  exact ⟨texts, m'', hm⟩

/-- An iteration of rules succeeds just where these fit, and it binds the names. -/
lemma iteration_eq_ok_iff (hk : body.kind = .block)
    (h : Composed L (bindRow bindings c).emitted body.children rules)
    (hr : ∀ child ∈ body.children, child.kind = .rule) (placement : Placement) :
    iteration (block body) placement bindings c = .ok text m ↔
      rules.nesting ≤ c.options.maxDepth.toNat - c.depth ∧
        text = trim (bindings.foldl (fun text b => placement.apply text b.1 b.2)
          (rules.iterationText c.options.indent c.ancestors)) ∧
        m = bindRow bindings c := by
  constructor
  · intro hi
    obtain ⟨texts, m', ht⟩ := exists_mapM_of_iteration hi
    have fits := nesting_le_of_mapM h ht
    change rules.nesting ≤ c.options.maxDepth.toNat - c.depth at fits
    rw [iteration_of_composed hk h hr fits] at hi
    cases hi
    exact ⟨fits, rfl, rfl⟩
  · rintro ⟨fits, rfl, rfl⟩
    exact iteration_of_composed hk h hr fits placement

/-- Where the names stand for themselves in the output, an iteration is the one of the body in which
their values are placed. -/
lemma iteration_placed_iff (hk : body.kind = .block)
    (h : Composed (isStencil · = true) ρ body.children rules)
    (hr : ∀ child ∈ body.children, child.kind = .rule) (hb : ∀ b ∈ bindings, Insertable b)
    (hn : ∀ b ∈ bindings, (bindRow bindings c).emitted b.1 = b.1)
    (hi : isStencil c.options.indent = true)
    (ha : ∀ selector ∈ c.ancestors, isStencil selector = true) :
    iteration (block body) .substituted bindings c = .ok text m ↔
      iteration (block (body.placed bindings)) .substituted bindings c = .ok text m := by
  have hn' : body.kind ≠ .reference := by simp [hk]
  obtain ⟨rules, h, -⟩ := h.exists_respelled (bindRow bindings c).emitted
  obtain ⟨rules', h', related⟩ := h.placed hb hn
  have hr' : ∀ child ∈ (body.placed bindings).children, child.kind = .rule := by
    rw [Node.children_placed hn', List.forall_mem_map]
    intro child hc
    rw [Node.kind_placed bindings (by simp [hr child hc]), hr child hc]
  have same : bindings.foldl (fun text b => Placement.substituted.apply text b.1 b.2)
        (rules.iterationText c.options.indent c.ancestors) =
      bindings.foldl (fun text b => Placement.substituted.apply text b.1 b.2)
        (rules'.iterationText c.options.indent c.ancestors) :=
    related.coincide_iterationText hb hi ha
  rw [← Node.children_placed hn'] at h'
  rw [iteration_eq_ok_iff hk h hr,
    iteration_eq_ok_iff ((Node.kind_placed bindings hn').trans hk) h' hr', related.nesting,
    same]

/-- Steps that succeed alike from the states of a set, which they do not leave, succeed alike one
after the other. -/
lemma mapM_eq_ok_iff_of_step {α β : Type} {step other : α → Render β} {P : Context → Prop}
    {as : List α} {bs : List β}
    (hs : ∀ a ∈ as, ∀ c, P c → ∀ b m, step a c = .ok b m ↔ other a c = .ok b m)
    (hP : ∀ a ∈ as, ∀ c, P c → ∀ b m, other a c = .ok b m → P m) (hc : P c) :
    as.mapM step c = .ok bs m ↔ as.mapM other c = .ok bs m := by
  induction as generalizing c m bs with
  | nil => rfl
  | cons a as ih =>
    rw [List.forall_mem_cons] at hs hP
    rw [List.mapM_cons, List.mapM_cons, bind_eq_ok_iff, bind_eq_ok_iff]
    refine exists_congr fun b => exists_congr fun m₁ => ?_
    rw [hs.1 c hc]
    refine and_congr_right fun hb => ?_
    rw [bind_eq_ok_iff, bind_eq_ok_iff]
    refine exists_congr fun bs => exists_congr fun m₂ => ?_
    exact and_congr_left' (ih hs.2 hP.2 (hP.1 c hc b m₁ hb))

/-- The rows of a list are run through in its order. -/
lemma iterate_ofList (step : List String → Render String) (rows : List (List String)) :
    iterate (fun i => step ((Rows.ofList rows).row i)) (Rows.ofList rows).count 0 =
      rows.mapM step := by
  have from_index (front rest : List (List String)) :
      iterate (fun i => step ((front ++ rest).getD i [])) rest.length front.length =
        rest.mapM step := by
    induction rest generalizing front with
    | nil => rfl
    | cons row rest ih =>
      have next := ih (front ++ [row])
      rw [List.append_assoc, List.singleton_append, List.length_append] at next
      have here : (front ++ row :: rest).getD front.length [] = row := by simp
      rw [List.length_cons, iterate, List.mapM_cons, here]
      exact congrArg _ (funext fun text => by rw [← next]; rfl)
  exact from_index [] rows

/-- A loop over a list of rows runs one iteration after the other. -/
lemma unroll_ofList_eq_ok_iff {placement : Placement} {body : Render String} {result : PUnit} :
    unroll body placement names (.ofList rows) c = .ok result m ↔
      ∃ texts m', (rows.mapM fun row => iteration body placement (names.zip row))
          (enterLoop placement names c) = .ok texts m' ∧
        m = (leaveLoop c.bound.length names m').enqueueAll
          (["\n".intercalate texts].filter (· ≠ "")) := by
  rw [unroll, get_bind_apply, modify_bind_apply, bind_eq_ok_iff]
  refine exists_congr fun texts => ?_
  rw [iterate_ofList fun row => iteration body placement (names.zip row)]
  constructor
  · rintro ⟨left, h, hq⟩
    obtain ⟨m', hm, rfl⟩ := ensuring_eq_ok_iff.1 h
    cases (enqueue_unless_empty _ _).symm.trans hq
    exact ⟨m', hm, rfl⟩
  · rintro ⟨m', hm, rfl⟩
    exact ⟨_, ensuring_eq_ok_iff.2 ⟨m', hm, rfl⟩, enqueue_unless_empty _ _⟩

/-- A loop over a declared list or map, with its body, its names and the rows of values that they
are bound to one after the other. -/
inductive EachOver (node : Node) (c : Context) :
    Node → List String → List (List String) → Prop where
  | list {item source body items temporary} :
    node.kind = .eachLoop →
    node.children = [item, source, body] →
    item.kind = .reference →
    source.kind = .reference →
    body.kind = .block →
    c.symbols.lookup source.text = some ⟨.list items, temporary⟩ →
    EachOver node c body [Variable.sigilName item.text] (items.map fun text => [text])
  | map {key item source body entries temporary} :
    node.kind = .eachLoop →
    node.children = [key, item, source, body] →
    key.kind = .reference →
    item.kind = .reference →
    source.kind = .reference →
    body.kind = .block →
    c.symbols.lookup (Variable.bareName source.text) = some ⟨.map entries, temporary⟩ →
    EachOver node c body [Variable.sigilName key.text, Variable.sigilName item.text]
      (entries.map fun entry => [entry.1, entry.2])

namespace EachOver

/-- The body of a loop is a block. -/
lemma body_kind (h : EachOver node c body names rows) : body.kind = .block := by
  cases h with
  | list _ _ _ _ hk => exact hk
  | map _ _ _ _ _ hk => exact hk

/-- The names of a loop have their sigils. -/
lemma sigilName_eq (h : EachOver node c body names rows) {name : String} (hn : name ∈ names) :
    Variable.sigilName name = name := by
  have same (text : String) :
      Variable.sigilName (Variable.sigilName text) = Variable.sigilName text := by
    rw [Variable.sigilName, Variable.bareName_sigilName, Variable.sigilName]
  cases h with
  | list =>
    obtain rfl := List.mem_singleton.1 hn
    exact same _
  | map =>
    simp only [List.mem_cons, List.not_mem_nil, or_false] at hn
    obtain rfl | rfl := hn <;> exact same _

/-- A loop over rows unrolls over them. -/
lemma unrolls (h : EachOver node c body names rows) :
    Unrolls node c body .substituted names (.ofList rows) := by
  cases h with
  | @list item source _ items temporary hk hc hi hs hb hl =>
    have length : node.children.length = 3 := by rw [hc]; rfl
    have item_at : node.children[0]? = some item := by rw [hc]; rfl
    have source_at : node.children[1]? = some source := by rw [hc]; rfl
    have found : listItems source c = .ok items c := by
      simp only [listItems, hs, get_bind_apply, hl, Option.bind_some, Value.items?]
      rfl
    refine .through hk (by rw [hc]; rfl) hb ?_
    simp only [eachRows, length, Node.childOf_of_getElem? item_at hi,
      Node.child_of_getElem? source_at, ofExcept, pure_bind, bind_of_ok found]
    rfl
  | @map key item source _ entries temporary hk hc hkey hi hs hb hl =>
    have length : node.children.length = 4 := by rw [hc]; rfl
    have key_at : node.children[0]? = some key := by rw [hc]; rfl
    have item_at : node.children[1]? = some item := by rw [hc]; rfl
    have source_at : node.children[2]? = some source := by rw [hc]; rfl
    have found : mapRows source c =
        .ok (.ofList (entries.map fun entry => [entry.1, entry.2])) c := by
      simp only [mapRows, hs, ne_eq, not_true_eq_false, if_false, get_bind_apply, hl]
      rfl
    refine .through hk (by rw [hc]; rfl) hb ?_
    simp only [eachRows, length, Node.childOf_of_getElem? key_at hkey,
      Node.childOf_of_getElem? item_at hi, Node.child_of_getElem? source_at, ofExcept, pure_bind,
      bind_of_ok found]
    rfl

/-- What a loop over a list or a map does. -/
lemma perform_eq_ok_iff (h : EachOver node c body names rows) {c' : Context} :
    perform node c = .ok text c' ↔ text = "" ∧ ∃ texts m,
      (rows.mapM fun row => iteration (block body) .substituted (names.zip row))
        (enterLoop .substituted names c) = .ok texts m ∧
      c' = (leaveLoop c.bound.length names m).enqueueAll
        (["\n".intercalate texts].filter (· ≠ "")) := by
  rw [perform_of_unrolls h.unrolls, bind_eq_ok_iff]
  constructor
  · rintro ⟨result, m, hu, hp⟩
    cases hp
    exact ⟨rfl, unroll_ofList_eq_ok_iff.1 hu⟩
  · rintro ⟨rfl, hu⟩
    exact ⟨⟨⟩, c', unroll_ofList_eq_ok_iff.2 hu, rfl⟩

end EachOver

/-- A state in which an iteration of a loop can start. -/
structure InLoop (c : Context) (names : List String) (m : Context) : Prop where
  options : m.options = c.options
  ancestors : m.ancestors = c.ancestors
  depth : m.depth = c.depth
  bound : ∀ name ∈ names, Variable.bareName name ∈ m.bound

namespace InLoop

/-- A loop is entered. -/
lemma enterLoop (c : Context) (names : List String) :
    InLoop c names (enterLoop .substituted names c) where
  options := rfl
  ancestors := rfl
  depth := rfl
  bound _ hn := List.mem_append_right _ (List.mem_map_of_mem hn)

/-- The values of a row are bound inside of the loop. -/
lemma bindRow (h : InLoop c names m) (bindings : List (String × String)) :
    InLoop c names (bindRow bindings m) :=
  ⟨h.options, h.ancestors, h.depth, h.bound⟩

/-- In a loop its names stand for themselves. -/
lemma emitted_eq (h : InLoop c names m) {name : String} (hn : name ∈ names)
    (hs : Variable.sigilName name = name) : m.emitted name = name := by
  rw [Context.emitted, if_pos (h.bound name hn)]
  exact hs

end InLoop

section

variable (h : EachOver node c body names rows)
  (hw : Composed (isStencil · = true) ρ body.children rules)
  (hr : ∀ child ∈ body.children, child.kind = .rule)
include h hw hr

/-- An iteration over rules succeeds and stays in the loop. -/
lemma exists_iteration (hd : c.depth + rules.nesting ≤ c.options.maxDepth.toNat)
    (row : List String) (hm : InLoop c names m) :
    ∃ text m', iteration (block body) .substituted (names.zip row) m = .ok text m' ∧
      InLoop c names m' := by
  obtain ⟨rules', hw', nesting⟩ := hw.exists_respelled (bindRow (names.zip row) m).emitted
  have fits : rules'.nesting ≤ m.options.maxDepth.toNat - m.depth := by
    rw [hm.options, hm.depth, nesting]
    omega
  exact ⟨_, _, iteration_of_composed h.body_kind hw' hr fits .substituted, hm.bindRow _⟩

/-- An iteration stays in the loop. -/
lemma inLoop_of_iteration {row : List String} (hm : InLoop c names m) {text : String} {m' : Context}
    (ht : iteration (block body) .substituted (names.zip row) m = .ok text m') :
    InLoop c names m' := by
  obtain ⟨rules', hw', -⟩ := hw.exists_respelled (bindRow (names.zip row) m).emitted
  obtain ⟨-, -, rfl⟩ := (iteration_eq_ok_iff h.body_kind hw' hr .substituted).1 ht
  exact hm.bindRow _

end

/-- An iteration of a loop of rules over a list or a map gives the same text and state from the body
in which the values of its row are placed. The loop runs these iterations in the order of the list
or the map and makes their texts wait, with a line break between two. It succeeds if the rules are
within the limit. -/
theorem each_places_values (h : EachOver node c body names rows)
    (hb : ∀ row ∈ rows, ∀ b ∈ names.zip row, Insertable b)
    (hw : Composed (isStencil · = true) ρ body.children rules)
    (hr : ∀ child ∈ body.children, child.kind = .rule)
    (hi : isStencil c.options.indent = true)
    (ha : ∀ selector ∈ c.ancestors, isStencil selector = true) :
    (∀ row ∈ rows, ∀ m, InLoop c names m → ∀ text m',
      iteration (block body) .substituted (names.zip row) m = .ok text m' ↔
        iteration (block (body.placed (names.zip row))) .substituted (names.zip row) m =
          .ok text m') ∧
    (∀ text c', perform node c = .ok text c' ↔ text = "" ∧ ∃ texts m,
      (rows.mapM fun row => iteration (block (body.placed (names.zip row))) .substituted
        (names.zip row)) (enterLoop .substituted names c) = .ok texts m ∧
      c' = (leaveLoop c.bound.length names m).enqueueAll
        (["\n".intercalate texts].filter (· ≠ ""))) ∧
    (c.depth + rules.nesting ≤ c.options.maxDepth.toNat → ∃ c', perform node c = .ok "" c') := by
  have placed (row : List String) (hrow : row ∈ rows) (m : Context) (hm : InLoop c names m)
      (text : String) (m' : Context) :
      iteration (block body) .substituted (names.zip row) m = .ok text m' ↔
        iteration (block (body.placed (names.zip row))) .substituted (names.zip row) m =
          .ok text m' := by
    refine iteration_placed_iff h.body_kind hw hr (hb row hrow) (fun b hbz => ?_) ?_ ?_
    · have hn := (List.of_mem_zip hbz).1
      exact (hm.bindRow _).emitted_eq hn (h.sigilName_eq hn)
    · rwa [hm.options]
    · rwa [hm.ancestors]
  refine ⟨placed, fun text c' => ?_, fun hd => ?_⟩
  · rw [h.perform_eq_ok_iff]
    refine and_congr_right fun _ => exists_congr fun texts => exists_congr fun m => ?_
    refine and_congr_left' (mapM_eq_ok_iff_of_step placed ?_ (InLoop.enterLoop c names))
    intro row hrow m hm text m' ht
    exact inLoop_of_iteration h hw hr hm ((placed row hrow m hm text m').2 ht)
  · obtain ⟨texts, m, ht⟩ : ∃ texts m, (rows.mapM fun row =>
        iteration (block body) .substituted (names.zip row)) (enterLoop .substituted names c) =
          .ok texts m :=
      exists_mapM_of_step (fun row _ m hm => exists_iteration h hw hr hd row hm)
        (InLoop.enterLoop c names)
    exact ⟨_, h.perform_eq_ok_iff.2 ⟨rfl, texts, m, ht, rfl⟩⟩

/-- A state inside a rule, with a map of themes. -/
def themeState : Context where
  symbols := ⟨[("themes", ⟨.map [("dark", "#000"), ("light", "#fff")], false⟩)]⟩
  ancestors := ["nav"]

/-- Rules for a theme. The first name is the start of the second, and both stand in selectors, a
property and values. -/
def themeRules : List Node :=
  [.rule [".#\x7b$t\x7d &", "p"] [.declaration "--#\x7b$t\x7d-ink" (.propertyValue
      [[.reference "tone", .literal "1px#\x7b$tone\x7d"], [.reference "other"]]),
    .rule ["&:hover"] [.declaration "ink" (.reference "t")]]]

def themeLoop : Node := .eachLoop ["t", "tone"] (.reference "themes") themeRules

/-- Values of themes are placed in the rules of a loop. -/
theorem each_places_values_themes :
    ∃ texts m,
      ([["dark", "#000"], ["light", "#fff"]].mapM fun row =>
        iteration (block ((Node.block themeRules).placed (["$t", "$tone"].zip row))) .substituted
          (["$t", "$tone"].zip row)) (enterLoop .substituted ["$t", "$tone"] themeState) =
            .ok texts m ∧
      perform themeLoop themeState = .ok "" ((leaveLoop 0 ["$t", "$tone"] m).enqueueAll
        (["\n".intercalate texts].filter (· ≠ ""))) := by
  have loop : EachOver themeLoop themeState (.block themeRules) ["$t", "$tone"]
      [["dark", "#000"], ["light", "#fff"]] := by
    have names : [Variable.sigilName (Node.reference "t").text,
        Variable.sigilName (Node.reference "tone").text] = ["$t", "$tone"] := by
      decide +kernel
    have found : themeState.symbols.lookup (Variable.bareName (Node.reference "themes").text) =
        some ⟨.map [("dark", "#000"), ("light", "#fff")], false⟩ := by
      decide +kernel
    rw [← names]
    exact .map rfl rfl rfl rfl rfl rfl found
  have values : ∀ row ∈ [["dark", "#000"], ["light", "#fff"]],
      ∀ b ∈ ["$t", "$tone"].zip row, Insertable b := by
    have check : [["dark", "#000"], ["light", "#fff"]].all (fun row =>
        (["$t", "$tone"].zip row).all isInsertable) = true := by
      decide +kernel
    intro row hrow b hb
    exact insertable_of_isInsertable (List.all_eq_true.1 (List.all_eq_true.1 check row hrow) b hb)
  obtain ⟨rules, written, nesting⟩ : ∃ rules,
      Composed (isStencil · = true) id (Node.block themeRules).children rules ∧
        rules.nesting = 3 := by
    have ink : (Node.propertyValue [[.reference "tone", .literal "1px#\x7b$tone\x7d"],
        [.reference "other"]]).Spelled (isStencil · = true) (fun _ => True) := by
      refine .elements rfl (by simp [Node.propertyValue, Node.branch]) ?_
      refine List.forall_mem_cons.2 ⟨.element rfl ?_, List.forall_mem_singleton.2 (.element rfl ?_)⟩
      · exact List.forall_mem_cons.2 ⟨.reference rfl trivial,
          List.forall_mem_singleton.2 (.literal rfl (by decide +kernel))⟩
      · exact List.forall_mem_singleton.2 (.reference rfl trivial)
    have hover : Composed (isStencil · = true) id
        [.rule ["&:hover"] [.declaration "ink" (.reference "t")]] _ :=
      .rule ⟨rfl, rfl, rfl, rfl, rfl⟩ (List.all_eq_true.1 (by decide +kernel))
        (.declaration ⟨rfl, rfl, rfl, rfl⟩ (by decide +kernel) (.reference rfl trivial) .nil) .nil
    exact ⟨_, .rule ⟨rfl, rfl, rfl, rfl, rfl⟩ (List.all_eq_true.1 (by decide +kernel))
      (.declaration ⟨rfl, rfl, rfl, rfl⟩ (by decide +kernel) ink hover) .nil, rfl⟩
  obtain ⟨-, runs, succeeds⟩ := each_places_values loop values written (by decide)
    (by decide +kernel) (by decide +kernel)
  obtain ⟨c', performed⟩ := succeeds (by rw [nesting]; decide)
  obtain ⟨-, texts, m, rounds, rfl⟩ := (runs "" c').1 performed
  exact ⟨texts, m, rounds, performed⟩

end Render

namespace Compiler

/-- A loop over a map with one entry. -/
def entryLoop (rules : List Node) : Node := .eachLoop ["k", "v"] (.reference "m") rules

/-- A document in which the map is declared first. -/
def entryDocument (node : Node) : Node :=
  .stylesheet [.assignment "m" (.map [("a", .literal "b")]), node]

/-- A sigil in the indent, or at the end of the selector of a rule around the loop, makes a name of
what a text in the body starts with. Where the value is placed beforehand, it makes another one. -/
theorem surroundings_join_name :
    let placed := List.map (Node.placed [("$k", "a"), ("$v", "b")])
    let lines := [Node.rule ["x"] [.declaration "k#\x7b$v\x7d" (.literal "1")]]
    let indented := Compiler.new { indent := "$" } none
    let rules := [Node.rule ["&#\x7b$v\x7d"] []]
    (indented.compile (entryDocument (entryLoop lines))).1 = .ok "x\x7b\nab: 1;\n\x7d" ∧
      (indented.compile (entryDocument (entryLoop (placed lines)))).1 =
        .ok "x\x7b\n$kb: 1;\n\x7d" ∧
      (compile {} (entryDocument (.rule ["x$k"] [entryLoop rules]))).1 =
        .ok "x$k\x7b\n\x7d\n\nxab\x7b\n\x7d" ∧
      (compile {} (entryDocument (.rule ["x$k"] [entryLoop (placed rules)]))).1 =
        .ok "x$k\x7b\n\x7d\n\nx$kb\x7b\n\x7d" := by
  decide +kernel

end Compiler

end Stylesheet
