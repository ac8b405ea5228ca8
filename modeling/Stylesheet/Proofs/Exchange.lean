import Stylesheet.Node.Build
import Stylesheet.Options
import Stylesheet.Proofs.Basic
import Stylesheet.Proofs.Reading
import Mathlib.Data.List.Forall2

/-!
# Exchanging trees without loss

`Node.Form` relates a tree to the JSON values that stand for it: fields that hold their default may
be left out, at each node for itself. A tree is read back from the text of each of its forms, as
long as that nests no deeper than what is read (`Node.ofJson?_of_form`), and so are options.
-/

namespace Stylesheet

namespace Json

/-- The number of arrays and objects inside each other in a value. -/
def nesting : Json → Nat
  | .array items => (items.map nesting).foldr max 0 + 1
  | .object members => (members.map fun m => nesting m.2).foldr max 0 + 1
  | _ => 0
termination_by j => sizeOf j
decreasing_by
  · have := List.sizeOf_lt_of_mem ‹_ ∈ items›
    simp only [array.sizeOf_spec]
    omega
  · have h := List.sizeOf_lt_of_mem ‹m ∈ members›
    have : sizeOf m = 1 + sizeOf m.1 + sizeOf m.2 := rfl
    simp only [object.sizeOf_spec]
    omega

/-- An array nests one deeper than its items. -/
lemma nesting_array_le {items : List Json} {n : Nat} :
    (Json.array items).nesting ≤ n + 1 ↔ ∀ item ∈ items, item.nesting ≤ n := by
  rw [nesting, Nat.add_le_add_iff_right, foldr_max_le]
  simp

/-- A record nests one deeper than the values of its members. -/
lemma nesting_record_le {members : List (String × Json)} {n : Nat} :
    (record members).nesting ≤ n + 1 ↔ ∀ m ∈ members, m.2.nesting ≤ n := by
  rw [record, nesting, Nat.add_le_add_iff_right, foldr_max_le, List.map_map, List.forall_mem_map]
  rfl

/-- A text does not nest. -/
lemma nesting_ofString (s : String) : (ofString s).nesting = 0 := by
  rw [ofString, nesting]
  all_goals simp

/-- A text is read back from its form. -/
lemma text?_ofString (s : String) (levels : Nat) :
    (ofString s).text? = if (ofString s).nesting ≤ levels then some s else none := by
  rw [nesting_ofString, if_pos (Nat.zero_le _)]
  exact unquote?_quote s

/-- The fields of an object that was written are those of its members. -/
lemma fields?_record (names : List String) (members : List (String × Json)) :
    (record members).fields? names = names.mapM (member? members) := by
  have unquoted : (members.map fun m => (quote m.1, m.2)).mapM
      (fun m => do return (← unquote? m.1, m.2)) = some members := by
    induction members with
    | nil => rfl
    | cons m members ih =>
      rw [List.map_cons, List.mapM_cons, ih, unquote?_quote]
      rfl
  exact congrArg (· >>= fun members => names.mapM (member? members)) unquoted

/-- The members that write a field of a record: one, or none where the field may be left out. -/
inductive Field (key : String) (value : Json) (optional : Prop) : List (String × Json) → Prop where
  | given :
    Field key value optional [(key, value)]
  | omitted :
    optional →
    Field key value optional []

/-- What is read next is read only under the condition. -/
lemma ite_bind {α β : Type} {p : Prop} [Decidable p] (a : α) (next : α → Option β) :
    ((if p then some a else none) >>= next) = if p then next a else none := by
  split <;> rfl

/-- A field has its value wherever it is written. -/
lemma Field.value_eq {key : String} {value : Json} {optional : Prop}
    {members : List (String × Json)} (h : Field key value optional members) :
    ∀ m ∈ members, m.2 = value := by
  cases h <;> simp

/-- The value of a field, if it is written. -/
def written? (members : List (String × Json)) : Option Json := members.head?.map Prod.snd

/-- A field is read within a number of levels if its value is, and if it is left out. -/
lemma Field.read {α : Type} {key : String} {value : Json} {optional : Prop}
    {members : List (String × Json)} (h : Field key value optional members) {levels : Nat}
    {reader : Json → Option α} {default a : α}
    (hr : reader value = if value.nesting ≤ levels then some a else none)
    (hd : optional → a = default) :
    ((written? members).map reader).getD (some default) =
      if ∀ m ∈ members, m.2.nesting ≤ levels then some a else none := by
  cases h with
  | given => simpa [written?] using hr
  | omitted ho => simp [written?, hd ho]

end Json

namespace Span

/-- A span nests once. -/
lemma nesting_toJson (span : Span) : span.toJson.nesting = 1 := by
  simp [toJson, Json.record, Json.ofNat, Json.nesting]

/-- A span is written plainly. -/
lemma plain_toJson (span : Span) : span.toJson.Plain := by
  refine .record ?_
  simp only [List.forall_mem_cons, List.not_mem_nil, false_imp_iff, implies_true, and_true]
  exact ⟨.number, .number⟩

/-- A span is read back from its form, where enough levels are left. -/
lemma ofJson?_toJson (span : Span) (levels : Nat) :
    Span.ofJson? levels span.toJson = if span.toJson.nesting ≤ levels then some span else none := by
  rw [nesting_toJson, Span.ofJson?, toJson, Json.fields?_record]
  cases levels with
  | zero => rfl
  | succ levels => simp [Json.member?, Json.word?_ofNat, guard]

end Span

/-- A kind is read back from its name. -/
lemma Kind.ofTag?_tag (k : Kind) : ofTag? k.tag = some k := by cases k <;> decide

/-- A kind is read back from the name in a form. -/
lemma Kind.ofJson?_tag (kind : Kind) (levels : Nat) :
    Kind.ofJson? levels (.ofString kind.tag) = some kind := by
  rw [Json.ofString, Kind.ofJson?, Json.unquote?_quote]
  exact Kind.ofTag?_tag kind

namespace Node

open Json

/-- The JSON values that stand for a tree. The text, the children and the span of a node may be left
out where they are what is then taken for them. -/
inductive Form : Node → Json → Prop where
  | record {node items text children span} :
    List.Forall₂ Form node.children items →
    Field "text" (.ofString node.text) (node.text = "") text →
    Field "children" (.array items) (node.children = []) children →
    Field "span" node.span.toJson (node.span = {}) span →
    Form node (.record (("kind", .ofString node.kind.tag) :: (text ++ children ++ span)))

/-- A tree with all its fields is one of its forms. -/
lemma form_toJson (node : Node) : node.Form node.toJson := by
  induction node using Node.childInduction with
  | step node ih =>
    rw [toJson]
    have items : List.Forall₂ Form node.children (node.children.map toJson) := by
      rw [List.forall₂_map_right_iff, List.forall₂_same]
      exact ih
    exact .record items .given .given .given

/-- What holds of all the members of a form: of its tag, and of each field that it has. -/
lemma forall_mem_form {p : Json → Prop} {kind value items place : Json} {a b c : Prop}
    {text children span : List (String × Json)} (ht : Field "text" value a text)
    (hc : Field "children" items b children) (hs : Field "span" place c span)
    (hk : p kind) (hv : p value) (hi : p items) (hp : p place) :
    ∀ m ∈ ("kind", kind) :: (text ++ children ++ span), p m.2 := by
  simp only [List.forall_mem_cons, List.forall_mem_append]
  exact ⟨hk, ⟨fun m hm => ht.value_eq m hm ▸ hv, fun m hm => hc.value_eq m hm ▸ hi⟩,
    fun m hm => hs.value_eq m hm ▸ hp⟩

/-- What holds of every form of some nodes holds of the items that are forms of them. -/
lemma forall_mem_of_forms {p : Json → Prop} {nodes : List Node} {items : List Json}
    (h : List.Forall₂ Form nodes items) (hp : ∀ node ∈ nodes, ∀ {j}, node.Form j → p j) :
    ∀ item ∈ items, p item := by
  induction h with
  | nil => simp
  | cons hn _ ih =>
    obtain ⟨head, tail⟩ := List.forall_mem_cons.1 hp
    exact List.forall_mem_cons.2 ⟨head hn, ih tail⟩

/-- Every form of a node is plain. -/
lemma plain_of_form (node : Node) : ∀ {j : Json}, node.Form j → j.Plain := by
  induction node using Node.childInduction with
  | step node ih =>
    intro j h
    cases h with
    | record hi ht hc hs =>
      have list := Plain.array (forall_mem_of_forms hi ih)
      exact .record (forall_mem_form ht hc hs .string .string list node.span.plain_toJson)

/-- No form nests deeper than the tree with all its fields. -/
lemma nesting_le_of_form (node : Node) : ∀ {j : Json} {levels : Nat}, node.Form j →
    node.toJson.nesting ≤ levels → j.nesting ≤ levels := by
  induction node using Node.childInduction with
  | step node ih =>
    intro j levels h hn
    have pos : 1 ≤ node.toJson.nesting := by simp [toJson, Json.record, nesting]
    obtain ⟨levels, rfl⟩ : ∃ n, levels = n + 1 := ⟨levels - 1, by omega⟩
    rw [toJson, nesting_record_le] at hn
    simp only [List.forall_mem_cons] at hn
    obtain ⟨-, -, list, place, -⟩ := hn
    cases h with
    | @record _ items _ _ _ hi ht hc hs =>
      have flat (s : String) : (ofString s).nesting ≤ levels := by simp [nesting_ofString]
      have inside : (Json.array items).nesting ≤ levels := by
        have pos : 1 ≤ (Json.array (node.children.map toJson)).nesting := by simp [nesting]
        obtain ⟨levels, rfl⟩ : ∃ n, levels = n + 1 := ⟨levels - 1, by omega⟩
        rw [nesting_array_le, List.forall_mem_map] at list
        exact nesting_array_le.2 <|
          forall_mem_of_forms hi fun child hm _ h => ih child hm h (list child hm)
      exact nesting_record_le.2 <| forall_mem_form (p := fun j => j.nesting ≤ levels) ht hc hs
        (flat _) (flat _) inside place

/-- The fields of a form, of which each may be missing. -/
lemma fields?_form {kind value items place : Json} {p q r : Prop}
    {text children span : List (String × Json)} (ht : Field "text" value p text)
    (hc : Field "children" items q children) (hs : Field "span" place r span) :
    (Json.record (("kind", kind) :: (text ++ children ++ span))).fields?
        ["kind", "text", "children", "span"] =
      some [some kind, written? text, written? children, written? span] := by
  rw [fields?_record]
  cases ht <;> cases hc <;> cases hs <;> simp [member?, written?]

/-- How an object with the fields of a form is read. -/
lemma ofJson?_record {kind value items place : Json} {p q r : Prop}
    {text children span : List (String × Json)} (ht : Field "text" value p text)
    (hc : Field "children" items q children) (hs : Field "span" place r span) (levels : Nat) :
    ofJson? (levels + 1) (.record (("kind", kind) :: (text ++ children ++ span))) = do
      return {
        kind := ← Kind.ofJson? levels kind
        text := ← ((written? text).map text?).getD (some "")
        children := ← ((written? children).map (listOfJson? levels)).getD (some [])
        span := ← ((written? span).map (Span.ofJson? levels)).getD (some {}) } := by
  rw [ofJson?, fields?_form ht hc hs]
  rfl

/-- Nodes are read back from their forms, where enough levels are left. -/
lemma listOfJson?_of_forms {nodes : List Node} {items : List Json}
    (h : List.Forall₂ Form nodes items)
    (hi : ∀ node ∈ nodes, ∀ {j levels}, node.Form j →
      ofJson? levels j = if j.nesting ≤ levels then some node else none) (levels : Nat) :
    listOfJson? levels (.array items) =
      if (Json.array items).nesting ≤ levels then some nodes else none := by
  cases levels with
  | zero =>
    rw [if_neg (by simp [nesting])]
    rfl
  | succ levels =>
    rw [if_congr nesting_array_le rfl rfl]
    change items.mapM (ofJson? levels) = _
    induction h with
    | nil => rfl
    | @cons node item nodes items hn _ ih =>
      rw [List.mapM_cons, hi node List.mem_cons_self hn,
        ih fun node hm => hi node (List.mem_cons_of_mem _ hm),
        if_congr List.forall_mem_cons rfl rfl]
      rw [ite_bind, ite_bind, ite_and]
      rfl

/-- A form is read exactly if it nests within the levels. -/
lemma ofJson?_of_form (node : Node) : ∀ {j : Json} {levels : Nat}, node.Form j →
    ofJson? levels j = if j.nesting ≤ levels then some node else none := by
  induction node using Node.childInduction with
  | step node ih =>
    intro j levels h
    cases h with
    | @record node items text children span hi ht hc hs =>
      cases levels with
      | zero =>
        rw [if_neg (by simp [Json.record, nesting])]
        rfl
      | succ levels =>
        have texts := ht.read (text?_ofString node.text levels) id
        have list := hc.read (listOfJson?_of_forms hi ih levels) id
        have place := hs.read (Span.ofJson?_toJson node.span levels) id
        rw [ofJson?_record ht hc hs, Kind.ofJson?_tag, texts, list, place,
          if_congr nesting_record_le rfl rfl]
        simp only [List.forall_mem_cons, List.forall_mem_append, nesting_ofString, Nat.zero_le,
          true_and, ite_and]
        split_ifs
        · cases node
          rfl
        all_goals rfl

/-- A form is read back from its text exactly if it nests no deeper than what is read. -/
lemma parse?_of_form {node : Node} {j : Json} (h : node.Form j) :
    Node.parse? j.compact = if j.nesting ≤ 127 then some node else none := by
  rw [Node.parse?, parse?_compact (plain_of_form node h)]
  exact ofJson?_of_form node h

end Node

namespace Options

/-- Options are written plainly. -/
lemma plain_toJson (options : Options) : options.toJson.Plain := by
  rw [toJson]
  refine .record ?_
  simp only [List.forall_mem_cons, List.not_mem_nil, false_imp_iff, implies_true, and_true]
  exact ⟨.string, .string, .number⟩

/-- Options are read back from their form. -/
lemma ofJson?_toJson (options : Options) : ofJson? options.toJson = some options := by
  rw [ofJson?, toJson, Json.fields?_record]
  simp [Json.member?, Json.word?_ofNat, Json.text?, Json.ofString, Json.unquote?_quote]

end Options

/-- Reading undoes writing. -/
theorem reading_undoes_writing (node : Node) (options : Options) :
    Node.parse? node.toJson.compact = (if node.toJson.nesting ≤ 127 then some node else none) ∧
      (node.toJson.nesting ≤ 127 → ∀ j, node.Form j → Node.parse? j.compact = some node) ∧
      Options.parse? options.toJson.compact = some options := by
  refine ⟨Node.parse?_of_form node.form_toJson, fun hn j h => ?_, ?_⟩
  · rw [Node.parse?_of_form h, if_pos (Node.nesting_le_of_form node h hn)]
  · rw [Options.parse?, Json.parse?_compact options.plain_toJson, Option.bind_eq_bind,
      Option.bind_some, Options.ofJson?_toJson]

/-- The document leaves out its text and its span, and the literal, whose text has escapes, its
children and its span. -/
theorem reading_undoes_writing_omitted :
    (Node.toJson ⟨.stylesheet, "", [.literal "\"\n"], {}⟩).nesting ≤ 127 ∧
      Node.parse? (Json.record [("kind", .ofString "Stylesheet"), ("children", .array
        [.record [("kind", .ofString "Literal"), ("text", .ofString "\"\n")]])]).compact =
        some ⟨.stylesheet, "", [.literal "\"\n"], {}⟩ := by
  have nests : (Node.toJson ⟨.stylesheet, "", [.literal "\"\n"], {}⟩).nesting ≤ 127 := by
    simp [Node.toJson, Node.literal, Node.leaf, Json.record, Json.ofString, Json.nesting,
      Span.nesting_toJson]
  have leaf : (Node.literal "\"\n").Form
      (.record [("kind", .ofString "Literal"), ("text", .ofString "\"\n")]) :=
    .record .nil .given (.omitted rfl) (.omitted rfl)
  have form : Node.Form ⟨.stylesheet, "", [.literal "\"\n"], {}⟩ _ :=
    .record (.cons leaf .nil) (.omitted rfl) .given (.omitted rfl)
  exact ⟨nests, (reading_undoes_writing _ {}).2.1 nests _ form⟩

end Stylesheet
