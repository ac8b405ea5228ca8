import Stylesheet.Proofs.Outcome
import Stylesheet.Proofs.Reduction
import Stylesheet.Proofs.Substitution

/-!
# The characters of texts

`Text.Over` says that the characters of a text are in an alphabet. Numbers are written with few
characters, and what an expression gives is a number, a truth value or one of its operands. The
compiler writes no `reserved` character into a value by itself, so an alphabet that has all others
is ample.
-/

namespace Stylesheet

namespace Text

/-- The characters that structure a stylesheet, and the mark for the selector of the parent. The
compiler writes none of them into a value by itself. -/
def reserved : List Char := ['\x7b', '\x7d', ';', '&']

/-- No character of a text is reserved. -/
def isPlain (text : String) : Bool := text.toList.all fun c => !reserved.contains c

/-- The characters of a text are in an alphabet. -/
def Over (A : Char → Prop) (text : String) : Prop := ∀ c ∈ text.toList, A c

/-- Only reserved characters may be missing in an alphabet. -/
def Ample (A : Char → Prop) : Prop := ∀ c, c ∉ reserved → A c

variable {A : Char → Prop} {a b text : String} {texts : List String}

/-- A text of plain characters is over every ample alphabet. -/
lemma Ample.over_of_isPlain (hA : Ample A) (h : isPlain text = true) : Over A text := by
  intro c hc
  have hr := List.all_eq_true.1 h c hc
  exact hA c (by simpa using hr)

/-- The empty text is over every alphabet. -/
lemma over_empty : Over A "" := by
  intro c hc
  cases hc

/-- A text is over an alphabet exactly if its parts are. -/
lemma over_append : Over A (a ++ b) ↔ Over A a ∧ Over A b := by
  simp only [Over, String.toList_append, List.forall_mem_append]

/-- A text is over an alphabet exactly if its characters are in it. -/
lemma over_ofList {cs : List Char} : Over A (String.ofList cs) ↔ ∀ c ∈ cs, A c := by
  rw [Over, String.toList_ofList]

/-- A sort of texts that holds the empty one and is closed under putting two of them together is
closed under joining and separating many. -/
lemma join_of_append {T : String → Prop} (empty : T "") (append : ∀ {a b}, T a → T b → T (a ++ b))
    (h : ∀ t ∈ texts, T t) : T (String.join texts) := by
  induction texts with
  | nil => exact empty
  | cons t texts ih =>
    rw [List.forall_mem_cons] at h
    rw [String.join_cons]
    exact append h.1 (ih h.2)

/-- What holds of texts one after the other holds of them with separators between. -/
lemma intercalate_of_append {T : String → Prop} {sep : String} (empty : T "")
    (append : ∀ {a b}, T a → T b → T (a ++ b)) (hs : T sep) (h : ∀ t ∈ texts, T t) :
    T (sep.intercalate texts) := by
  induction texts with
  | nil => exact empty
  | cons t texts ih =>
    rw [List.forall_mem_cons] at h
    cases texts with
    | nil => simpa using h.1
    | cons u texts =>
      rw [String.intercalate_cons_cons]
      exact append (append h.1 hs) (ih h.2)

/-- Texts over an alphabet are so when they are joined. -/
lemma over_join (h : ∀ t ∈ texts, Over A t) : Over A (String.join texts) :=
  join_of_append over_empty (fun ha hb => over_append.2 ⟨ha, hb⟩) h

/-- Texts over an alphabet are so with a separator over it between them. -/
lemma over_intercalate {sep : String} (hs : Over A sep) (h : ∀ t ∈ texts, Over A t) :
    Over A (sep.intercalate texts) :=
  intercalate_of_append over_empty (fun ha hb => over_append.2 ⟨ha, hb⟩) hs h

/-- A character that is left was there before. -/
lemma mem_of_mem_trimChars {c : Char} {cs : List Char} (h : c ∈ trimChars cs) : c ∈ cs := by
  have h := (List.dropWhile_sublist _).subset (List.mem_reverse.1 h)
  exact (List.dropWhile_sublist _).subset (List.mem_reverse.1 h)

/-- A text over an alphabet is so without the blanks at its ends. -/
lemma Over.trim (h : Over A text) : Over A (trim text) := by
  intro c hc
  rw [toList_trim] at hc
  exact h c (mem_of_mem_trimChars hc)

/-- The name in a reference over an alphabet is over it. -/
lemma Over.bareName (h : Over A text) : Over A (Variable.bareName text) := by
  intro c hc
  rw [Variable.bareName, String.toList_ofList] at hc
  exact h c (mem_of_mem_trimChars ((List.dropWhile_sublist _).subset hc))

/-- The name in a reference over an ample alphabet is over it with its sigil. -/
lemma Ample.sigilName (hA : Ample A) (h : Over A text) : Over A (Variable.sigilName text) :=
  over_append.2 ⟨hA.over_of_isPlain rfl, h.bareName⟩

/-- Interpolating a value over an alphabet stays in it. -/
lemma Over.interpolate {value : String} (ht : Over A text) (name : String) (hv : Over A value) :
    Over A (interpolate text name value) := by
  rw [Text.interpolate, replaceAll]
  split
  · exact ht
  · refine over_ofList.2 fun c hc => ?_
    obtain hc | ⟨_, hc⟩ := mem_of_mem_replaceEach hc
    · exact ht c hc
    · exact hv c hc

/-- Substituting a value over an alphabet stays in it. -/
lemma Over.substitute {name value : String} {word : List Char} (hn : name.toList = '$' :: word)
    (ht : Over A text) (h : Over A name) (hv : Over A value) :
    Over A (substitute text name value) := by
  intro c hc
  rcases mem_of_mem_substitute hn hc with hc | hc | hc
  · exact ht c hc
  · exact h c hc
  · exact hv c hc

/-! ### Numbers -/

/-- The characters that numbers are written with. -/
def numeric : List Char := "0123456789abcdef*-.infNpx%#".toList

/-- All characters of a text are those of numbers. -/
def isNumeric (text : String) : Bool := text.toList.all numeric.contains

/-- An alphabet has the characters of numbers. -/
def Numeric (A : Char → Prop) : Prop := ∀ c ∈ numeric, A c

/-- Digits are characters of numbers. -/
lemma digitChar_mem_numeric (n : Nat) : n.digitChar ∈ numeric := by
  fun_cases Nat.digitChar n <;> decide

/-- Numerals are of characters of numbers. -/
lemma toDigits_mem_numeric {base : Nat} (hb : 1 < base) (n : Nat) :
    ∀ c ∈ Nat.toDigits base n, c ∈ numeric := by
  induction n using Nat.strong_induction_on with
  | _ n ih =>
    intro c hc
    rw [Nat.toDigits_eq_if hb] at hc
    split at hc
    · rw [List.mem_singleton] at hc
      rw [hc]
      exact digitChar_mem_numeric n
    · rename_i hn
      rw [List.mem_append, List.mem_singleton] at hc
      rcases hc with hc | rfl
      · exact ih _ (Nat.div_lt_self (by omega) hb) c hc
      · exact digitChar_mem_numeric _

/-- An ample alphabet holds the characters of numbers. -/
lemma Ample.numeric (hA : Ample A) : Numeric A := by
  intro c hc
  have hn : Text.numeric.all (fun c => !reserved.contains c) = true := by decide
  exact hA c (by simpa using List.all_eq_true.1 hn c hc)

namespace Numeric

variable (hA : Numeric A)
include hA

/-- A text of characters of numbers is over an alphabet that holds them. -/
lemma over_of_isNumeric (h : isNumeric text = true) : Over A text := by
  intro c hc
  exact hA c (by simpa using List.all_eq_true.1 h c hc)

/-- A natural number is written over the alphabet. -/
lemma over_nat (n : Nat) : Over A (toString n) := by
  intro c hc
  rw [Nat.toString_eq_repr, Nat.toList_repr] at hc
  exact hA c (toDigits_mem_numeric (by decide) n c hc)

/-- A whole number is written over the alphabet. -/
lemma over_int (n : Int) : Over A (toString n) := by
  cases n with
  | ofNat m => exact hA.over_nat m
  | negSucc m => exact over_append.2 ⟨hA.over_of_isNumeric rfl, hA.over_nat (m + 1)⟩

/-- A sign does not leave the alphabet. -/
lemma over_signed (negative : Bool) (h : Over A text) : Over A (Number.signed negative text) := by
  unfold Number.signed
  split
  · exact over_append.2 ⟨hA.over_of_isNumeric rfl, h⟩
  · exact h

/-- A number with a point is written over the alphabet. -/
lemma over_pointed (n : Nat) : Over A (Number.pointed n) := by
  have hp (width n : Nat) : ∀ c ∈ Number.paddedDigits width n, A c := by
    intro c hc
    rcases List.mem_append.1 hc with hc | hc
    · rw [List.eq_of_mem_replicate hc]
      exact hA _ (by decide)
    · exact hA c (toDigits_mem_numeric (by decide) n c hc)
  have hs (ds : List Char) (hd : ∀ c ∈ ds, A c) : ∀ c ∈ Number.dropFinalZeros ds, A c := by
    intro c hc
    exact hd c (List.mem_reverse.1 ((List.dropWhile_sublist _).subset (List.mem_reverse.1 hc)))
  unfold Number.pointed
  dsimp only
  split
  · exact hA.over_nat _
  · refine over_append.2 ⟨over_append.2 ⟨hA.over_nat _, hA.over_of_isNumeric rfl⟩, ?_⟩
    exact over_ofList.2 (hs _ (hp _ _))

/-- A float is written over the alphabet. -/
lemma over_render (x : Float) : Over A (Number.render x) := by
  unfold Number.render
  cases Number.Binary.ofFloat (Number.toPlaces x) with
  | nan => exact hA.over_of_isNumeric rfl
  | infinite negative => exact hA.over_signed _ (hA.over_of_isNumeric rfl)
  | finite negative m e =>
    unfold Number.Binary.render
    dsimp only
    split
    · exact hA.over_signed _ (hA.over_nat _)
    · exact hA.over_signed _ (hA.over_pointed _)

/-- Hexadecimal digits are in the alphabet. -/
lemma over_hexDigits {x : Float} {digits : String} (h : Number.hexDigits? x = some digits) :
    Over A digits := by
  unfold Number.hexDigits? at h
  split at h
  · dsimp only at h
    split at h
    · cases h
    · cases h
      rw [over_ofList]
      intro c hc
      exact hA c (toDigits_mem_numeric (by decide) _ c hc)
  · cases h

end Numeric

end Text

/-! ### Expressions -/

namespace Expr

variable {ops : List Operator} {terms : List Term} {items : List Item} {s : String}

/-- Arithmetic gives numbers. -/
lemma exists_number_of_combine {op : Operator} {f : Float → Float → Float} {a b v : Scalar}
    (h : Scalar.combine op f a b = .ok v) : ∃ x, v = .number x := by
  obtain ⟨x, -, h⟩ := bind_eq_ok_iff.1 h
  obtain ⟨y, -, h⟩ := bind_eq_ok_iff.1 h
  exact ⟨f x y, (Except.ok.inj h).symm⟩

/-- Comparisons give truth values. -/
lemma exists_bool_of_compare {op : Operator} {f : Float → Float → Bool} {a b v : Scalar}
    (h : Scalar.compare op f a b = .ok v) : ∃ t, v = .bool t := by
  obtain ⟨x, -, h⟩ := bind_eq_ok_iff.1 h
  obtain ⟨y, -, h⟩ := bind_eq_ok_iff.1 h
  exact ⟨f x y, (Except.ok.inj h).symm⟩

/-- Logical operators give truth values. -/
lemma exists_bool_of_map {result : Except Fault Bool} {v : Scalar}
    (h : Scalar.bool <$> result = .ok v) : ∃ t, v = .bool t := by
  cases result with
  | ok t => exact ⟨t, (Except.ok.inj h).symm⟩
  | error fault => cases h

/-- An arithmetic operator computes a number and any other one a truth value. -/
lemma exists_of_apply {op : Operator} {a b v : Scalar} (h : Scalar.apply op a b = .ok v) :
    (op.isArithmetic = true ∧ ∃ x, v = .number x) ∨
      (op.isArithmetic = false ∧ ∃ t, v = .bool t) := by
  unfold Scalar.apply at h
  split at h
  · cases h
  · cases op <;> dsimp only at h
    case mul | add | sub => exact .inl ⟨rfl, exists_number_of_combine h⟩
    case le | ge | lt | gt => exact .inr ⟨rfl, exists_bool_of_compare h⟩
    case eq => exact .inr ⟨rfl, _, (Except.ok.inj h).symm⟩
    case div =>
      obtain ⟨y, -, h⟩ := bind_eq_ok_iff.1 h
      split at h
      · cases h
      · obtain ⟨x, -, h⟩ := bind_eq_ok_iff.1 h
        exact .inl ⟨rfl, x / y, (Except.ok.inj h).symm⟩
    case and =>
      obtain ⟨t, -, h⟩ := bind_eq_ok_iff.1 h
      split at h
      · exact .inr ⟨rfl, exists_bool_of_map h⟩
      · exact .inr ⟨rfl, false, (Except.ok.inj h).symm⟩
    case or =>
      obtain ⟨t, -, h⟩ := bind_eq_ok_iff.1 h
      split at h
      · exact .inr ⟨rfl, true, (Except.ok.inj h).symm⟩
      · exact .inr ⟨rfl, exists_bool_of_map h⟩

/-- A text that a sequence denotes is one of its operands. -/
lemma mem_of_denotes_text (h : Denotes ops terms (.text s)) : .value (.text s) ∈ terms := by
  generalize hv : Scalar.text s = v at h
  induction h with
  | operand =>
    subst hv
    exact List.mem_singleton_self _
  | tighter _ ih => exact ih hv
  | apply _ _ ha =>
    subst hv
    obtain ⟨-, _, hx⟩ | ⟨-, _, ht⟩ := exists_of_apply ha
    · cases hx
    · cases ht

/-- A text among the terms is one of the items. -/
lemma mem_of_reads_text {n : Nat} (h : Reads items n terms) (hm : .value (.text s) ∈ terms) :
    .value (.text s) ∈ items := by
  induction h with
  | nil => cases hm
  | value _ ih =>
    rcases List.mem_cons.1 hm with hm | hm
    · cases hm
      exact List.mem_cons_self
    · exact List.mem_cons_of_mem _ (ih hm)
  | op _ ih =>
    rcases List.mem_cons.1 hm with hm | hm
    · cases hm
    · exact List.mem_cons_of_mem _ (ih hm)
  | negation _ ih => exact List.mem_cons_of_mem _ (ih hm)
  | group _ hd hn _ ihi ih =>
    rcases List.mem_cons.1 hm with hm | hm
    · -- A group that is negated has a truth value, so this one is not.
      cases hm
      cases hn
      have hi := ihi (mem_of_denotes_text hd)
      exact List.mem_append_left _ (List.mem_cons_of_mem _ hi)
    · exact List.mem_append_right _ (List.mem_cons_of_mem _ (ih hm))

/-- A stream that is reduced to a text holds it as an operand. -/
lemma mem_of_reduce_text (h : reduce items = .ok (.text s)) : .value (.text s) ∈ items := by
  obtain ⟨closed, hc, hr⟩ := reduce_eq_ok_iff_reduceSpan.1 h
  obtain ⟨n, terms, u, hs, hd, hn⟩ := reduceSpan_eq_ok_iff.1 hr
  cases hn
  exact mem_of_reads_text (reads_of_closeGroups hc hs) (mem_of_denotes_text hd)

/-- An operand that is read as a text is that text without the blanks at its ends. -/
lemma eq_trim_of_ofText_eq_text {text : String} (h : Scalar.ofText text = .text s) :
    s = Text.trim text := by
  unfold Scalar.ofText Scalar.ofTrimmed at h
  split at h
  · cases h
  · split at h
    · cases h
    · split at h
      · split at h
        · cases h
        · exact (Scalar.text.inj h).symm
      · cases hn : number? (Scalar.magnitude (Text.trim text).toList) with
        | none =>
          rw [hn] at h
          exact (Scalar.text.inj h).symm
        | some x =>
          rw [hn] at h
          cases h

/-- A value among the items was an operand. -/
lemma mem_of_mapM_item {tokens : List Token} (h : tokens.mapM Token.item = .ok items) {v : Scalar}
    (hv : .value v ∈ items) : ∃ text, .operand text ∈ tokens ∧ v = Scalar.ofText text := by
  induction tokens generalizing items with
  | nil =>
    cases h
    cases hv
  | cons token tokens ih =>
    rw [List.mapM_cons] at h
    obtain ⟨item, hi, h⟩ := bind_eq_ok_iff.1 h
    obtain ⟨rest, hr, h⟩ := bind_eq_ok_iff.1 h
    cases h
    rcases List.mem_cons.1 hv with rfl | hv
    · cases token with
      | operand text =>
        exact ⟨text, List.mem_cons_self, (Item.value.inj (Except.ok.inj hi)).symm⟩
      | operator text =>
        unfold Token.item at hi
        dsimp only at hi
        split at hi <;> cases hi
    · obtain ⟨text, ht, hv⟩ := ih hr hv
      exact ⟨text, List.mem_cons_of_mem _ ht, hv⟩

end Expr

open Text

/-! ### What is in scope -/

/-- The characters of all texts in a tree are in an alphabet. -/
inductive Node.Over (A : Char → Prop) : Node → Prop where
  | intro {node} :
    Text.Over A node.text →
    (∀ child ∈ node.children, Over A child) →
    Over A node

/-- Whether all characters in a tree pass a test. -/
def Node.isOver (p : Char → Bool) (node : Node) : Bool := node.every fun n => n.text.toList.all p

/-- A tree that passes the test is over the alphabet of the characters that do. -/
lemma Node.over_of_isOver {p : Char → Bool} {A : Char → Prop} (hp : ∀ c, p c = true → A c)
    (node : Node) (h : node.isOver p = true) : node.Over A := by
  induction node using Node.childInduction with
  | step node ih =>
    have ht := List.all_eq_true.1 (Node.every_self h)
    exact .intro (fun c hc => hp c (ht c hc)) fun child hc => ih child hc (Node.every_child h hc)

namespace Node.Over

variable {A : Char → Prop} {node other : Node}

/-- The text of a node over an alphabet is over it. -/
lemma text (h : node.Over A) : Text.Over A node.text := by
  cases h with
  | intro ht _ => exact ht

/-- What is below a node over an alphabet is over it. -/
lemma child (h : node.Over A) (ho : other ∈ node.children) : other.Over A := by
  cases h with
  | intro _ hs => exact hs other ho

/-- The name of a node over an alphabet is over it. -/
lemma name {name : String} (h : node.Over A) (hn : node.name = .ok name) : Text.Over A name := by
  obtain ⟨identifier, -, hn⟩ := Expr.bind_eq_ok_iff.1 hn
  rw [← Except.ok.inj hn]
  exact (h.child identifier.2).text.trim

/-- The arguments of a node over an alphabet are over it. -/
lemma argument (h : node.Over A) (ho : other ∈ node.arguments) : other.Over A := by
  obtain ⟨holder, hh, ho⟩ := mem_children_of_mem_arguments ho
  exact (h.child hh).child ho

end Node.Over

end Stylesheet
