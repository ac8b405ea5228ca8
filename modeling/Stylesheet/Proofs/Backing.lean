import Stylesheet.Proofs.Substitution
import Stylesheet.Proofs.Wording
import Mathlib.Data.List.Infix
import Mathlib.Data.List.TakeWhile

/-!
# Backed references

In the output, `var(--` starts a reference to a custom property. A text is backed by names if each
reference in it is to one of them. Backed texts that are put one after the other are backed, unless
a start of a reference comes about where they meet; so a value is backed if the texts are that it is
made of (`wording_backed`). A text that cites others has no references but those that it takes over
from them as a whole, and it is backed if they are.
-/

namespace Stylesheet.Text

/-- The start of a reference to a custom property. -/
def opening : List Char := ['v', 'a', 'r', '(', '-', '-']

/-- A text holds the start of a reference. -/
def HasOpening (text : String) : Prop := opening <:+: text.toList

instance : DecidablePred HasOpening := fun text =>
  inferInstanceAs (Decidable (opening <:+: text.toList))

/-- The rest of a reference to one of the names, from the name on. -/
def Refers (names : String → Prop) (cs : List Char) : Prop :=
  ∃ name, names name ∧ name.toList ++ [')'] <+: cs

/-- Every reference in a text is to one of the names. -/
def Backed (names : String → Prop) (text : String) : Prop :=
  ∀ before rest, text.toList = before ++ (opening ++ rest) → Refers names rest

/-- A text ends with a part of the start of a reference. -/
def EndsOpen (text : String) : Prop :=
  ∃ part ∈ opening.inits, part ≠ [] ∧ part ≠ opening ∧ part <:+ text.toList

instance : DecidablePred EndsOpen := fun text =>
  inferInstanceAs (Decidable (∃ part ∈ opening.inits, part ≠ [] ∧ part ≠ opening ∧
    part <:+ text.toList))

/-- A text may start with what is left of the start of a reference, as far as its first character
tells. -/
def isOpenStart (text : String) : Bool := text.toList.head?.any opening.tail.contains

/-- No text that ends with the given one ends with a part of the start of a reference. -/
def Shuts (text : String) : Prop :=
  ∀ part ∈ opening.inits, part ≠ [] → part ≠ opening →
    ¬part <:+ text.toList ∧ ¬text.toList <:+ part

instance : DecidablePred Shuts := fun text =>
  inferInstanceAs (Decidable (∀ part ∈ opening.inits, part ≠ [] → part ≠ opening →
    ¬part <:+ text.toList ∧ ¬text.toList <:+ part))

/-- A text ends every start of a reference that it is put after, and starts none. -/
def isClosing (text : String) : Bool :=
  !decide (HasOpening text) && !isOpenStart text && decide (Shuts text)

/-- A backed text that may be put in front of any other. -/
structure Sealed (names : String → Prop) (text : String) : Prop where
  backed : Backed names text
  closed : ¬EndsOpen text

/-- A name that the text of a reference shows as a whole, wherever the text is cut. -/
structure IsProper (name : String) : Prop where
  parenthesis : ')' ∉ name.toList
  comma : ',' ∉ name.toList
  opening : ¬HasOpening name

/-- Every reference in a text, up to its parenthesis, stands in one of the sources as well. -/
def Cites (sources : List String) (text : String) : Prop :=
  ∀ tail ∈ text.toList.tails, opening <+: tail → ∃ source ∈ sources,
    tail.takeWhile (· != ')') ++ [')'] <+: tail ∧
      tail.takeWhile (· != ')') ++ [')'] <:+: source.toList

instance (sources : List String) (text : String) : Decidable (Cites sources text) :=
  inferInstanceAs (Decidable (∀ tail ∈ text.toList.tails, _ → ∃ source ∈ sources, _ ∧ _))

variable {names other : String → Prop} {a b text : String}

/-! ### References -/

/-- Two words before the first of a character that they do not hold are the same. -/
lemma eq_of_prefix_append {c : Char} {a b rest : List Char} (ha : c ∉ a) (hb : c ∉ b)
    (h : a ++ [c] <+: b ++ c :: rest) : a = b := by
  induction a generalizing b with
  | nil =>
    cases b with
    | nil => rfl
    | cons d b =>
      obtain rfl := (List.cons_prefix_cons.1 h).1
      exact absurd List.mem_cons_self hb
  | cons d a ih =>
    rw [List.mem_cons, not_or] at ha
    cases b with
    | nil => exact absurd (List.cons_prefix_cons.1 h).1.symm ha.1
    | cons e b =>
      obtain ⟨rfl, hp⟩ := List.cons_prefix_cons.1 h
      rw [List.mem_cons, not_or] at hb
      rw [ih ha.2 hb.2 hp]

/-- A pattern does not reach into a text without its last character. -/
lemma prefix_of_prefix_append {c : Char} {pattern cs after : List Char} (hc : c ∉ after)
    (h : pattern ++ [c] <+: cs ++ after) : pattern ++ [c] <+: cs := by
  obtain hp | ⟨more, hm⟩ := List.prefix_or_prefix_of_prefix h (List.prefix_append cs after)
  · exact hp
  · rw [← hm] at h ⊢
    obtain rfl | ⟨more, last, rfl⟩ := List.eq_nil_or_concat more
    · rw [List.append_nil]
    · rw [List.concat_eq_append, ← List.append_assoc] at hm
      obtain rfl : last = c := List.singleton_inj.1 (List.append_inj' hm rfl).2
      have hm := ((List.prefix_append_right_inj cs).1 h).subset
      exact absurd (hm (by simp)) hc

/-- What follows a reference does not matter. -/
lemma Refers.append {cs more : List Char} (h : Refers names cs) : Refers names (cs ++ more) := by
  obtain ⟨name, hn, hp⟩ := h
  exact ⟨name, hn, hp.trans (List.prefix_append cs more)⟩

/-- The name in a reference to one of the names, if it ends at the first parenthesis. -/
lemma Refers.of_parenthesis {word rest : List Char} (hN : ∀ name, names name → ')' ∉ name.toList)
    (hw : ')' ∉ word) (h : Refers names (word ++ ')' :: rest)) :
    ∃ name, names name ∧ word = name.toList := by
  obtain ⟨name, hn, hp⟩ := h
  exact ⟨name, hn, (eq_of_prefix_append (hN name hn) hw hp).symm⟩

/-- What is left of the start of a reference after a part of it starts with an open character. -/
lemma isOpenStart_of_append {part left rest : List Char} (ho : opening = part ++ left)
    (hp : part ≠ []) (hl : left ≠ []) (hb : b.toList = left ++ rest) : isOpenStart b = true := by
  obtain ⟨first, part, rfl⟩ := List.exists_cons_of_ne_nil hp
  obtain ⟨c, left, rfl⟩ := List.exists_cons_of_ne_nil hl
  have htail : opening.tail = part ++ c :: left := by rw [ho]; rfl
  simp [isOpenStart, hb, htail]

/-- A text that ends with one that shuts it does not end with a part of a start. -/
lemma Shuts.not_endsOpen (h : Shuts b) : ¬EndsOpen (a ++ b) := by
  rintro ⟨part, hi, hne, hno, hs⟩
  rw [String.toList_append] at hs
  obtain hs | hs := List.suffix_or_suffix_of_suffix hs (List.suffix_append _ _)
  · exact (h part hi hne hno).1 hs
  · exact (h part hi hne hno).2 hs

namespace Backed

/-- A text without a start of a reference is backed. -/
lemma of_not_hasOpening (h : ¬HasOpening text) : Backed names text := by
  intro before rest hs
  exact absurd ⟨before, rest, by rw [hs, List.append_assoc]⟩ h

/-- A text that is backed by some names is backed by more. -/
lemma mono (h : Backed names text) (hno : ∀ name, names name → other name) :
    Backed other text := by
  intro before rest hs
  obtain ⟨name, hn, hp⟩ := h before rest hs
  exact ⟨name, hno name hn, hp⟩

/-- A reference in a text that is backed by names is to one of them. -/
lemma of_property {name : String} (hN : ∀ name, names name → ')' ∉ name.toList)
    (hn : ')' ∉ name.toList) (h : Backed names text)
    (hp : (Variable.property name).toList <:+: text.toList) : names name := by
  obtain ⟨before, after, hs⟩ := hp
  have hs : text.toList = before ++ (opening ++ (name.toList ++ ')' :: after)) := by
    rw [← hs]
    simp [Variable.property, opening]
  obtain ⟨found, hf, he⟩ := (h before _ hs).of_parenthesis hN hn
  rwa [String.toList_inj.1 he]

/-- A text that cites backed texts is backed. -/
lemma of_cites {sources : List String} (hN : ∀ name, names name → ')' ∉ name.toList)
    (hs : ∀ source ∈ sources, Backed names source) (h : Cites sources text) :
    Backed names text := by
  intro before rest ht
  have htail : opening ++ rest ∈ text.toList.tails := (List.mem_tails _ _).2 ⟨before, ht.symm⟩
  obtain ⟨source, hsource, hp, ⟨front, back, hi⟩⟩ := h _ htail (List.prefix_append _ _)
  have hword : (opening ++ rest).takeWhile (· != ')') = opening ++ rest.takeWhile (· != ')') := rfl
  rw [hword, List.append_assoc] at hp hi
  have hclosed : ')' ∉ rest.takeWhile (· != ')') := by
    intro hm
    simpa using List.mem_takeWhile_imp hm
  have hi : source.toList =
      front ++ (opening ++ (rest.takeWhile (· != ')') ++ ')' :: back)) := by
    rw [← hi]
    simp
  obtain ⟨name, hn, he⟩ := (hs source hsource front _ hi).of_parenthesis hN hclosed
  rw [he] at hp
  exact ⟨name, hn, (List.prefix_append_right_inj opening).1 hp⟩

/-! ### Texts one after the other -/

/-- Backed texts are backed together if no start of a reference comes about between them. -/
lemma append (ha : Backed names a) (hb : Backed names b)
    (h : ¬EndsOpen a ∨ isOpenStart b = false) : Backed names (a ++ b) := by
  intro before rest hs
  rw [String.toList_append] at hs
  obtain ⟨before', rfl, h'⟩ | ⟨part, hp, h'⟩ := List.append_eq_append_iff.1 hs
  · exact hb before' rest h'
  · obtain ⟨front, rfl, rfl⟩ | ⟨left, ho, hb'⟩ := List.append_eq_append_iff.1 h'
    · exact (ha before front hp).append
    · -- The first text ends with a part of the start, and the second starts with what is left.
      by_cases hleft : left = []
      · subst hleft
        rw [List.append_nil] at ho
        obtain ⟨name, -, hp⟩ := ha before [] (by rw [hp, ← ho, List.append_nil])
        simp at hp
      by_cases hpart : part = []
      · subst hpart
        exact hb [] rest (by rw [hb', ho]; rfl)
      obtain h | h := h
      · refine absurd ⟨part, (List.mem_inits _ _).2 ⟨left, ho.symm⟩, hpart, ?_, ⟨before, hp.symm⟩⟩ h
        rintro rfl
        exact hleft (List.self_eq_append_right.1 ho)
      · rw [isOpenStart_of_append ho hpart hleft hb'] at h
        cases h

/-- A backed text is sealed by one that closes it. -/
lemma closed (ha : Backed names a) (hb : isClosing b = true) : Sealed names (a ++ b) := by
  simp only [isClosing, Bool.and_eq_true, Bool.not_eq_true', decide_eq_false_iff_not,
    decide_eq_true_eq] at hb
  obtain ⟨⟨hopening, hstart⟩, hshuts⟩ := hb
  exact ⟨ha.append (.of_not_hasOpening hopening) (.inr hstart), hshuts.not_endsOpen⟩

/-- A part of a backed text is backed, if no reference in it reaches beyond its end. -/
lemma part (h : Backed names text) (before after : List Char) {part : List Char}
    (hs : text.toList = before ++ (part ++ after))
    (ha : ∀ name rest, names name → name.toList ++ [')'] <+: rest ++ after →
      name.toList ++ [')'] <+: rest) : Backed names (String.ofList part) := by
  intro front rest hp
  rw [String.toList_ofList] at hp
  obtain ⟨name, hn, hr⟩ := h (before ++ front) (rest ++ after) (by simp [hs, hp])
  exact ⟨name, hn, ha name rest hn hr⟩

/-- The blanks at the ends of a text belong to no reference. -/
lemma trim (h : Backed names text) : Backed names (Text.trim text) := by
  have hd := List.takeWhile_append_dropWhile (p := isBlank) (l := text.toList)
  have ht := List.takeWhile_append_dropWhile (p := isBlank)
    (l := (text.toList.dropWhile isBlank).reverse)
  have hs : text.toList = text.toList.takeWhile isBlank ++ (trimChars text.toList ++
      ((text.toList.dropWhile isBlank).reverse.takeWhile isBlank).reverse) := by
    rw [trimChars, ← List.reverse_append, ht, List.reverse_reverse, hd]
  refine h.part _ _ hs fun name rest _ => ?_
  refine prefix_of_prefix_append fun hm => ?_
  have := List.mem_takeWhile_imp (List.mem_reverse.1 hm)
  exact absurd this (by decide)

end Backed

namespace Sealed

/-- The empty text is sealed. -/
lemma empty : Sealed names "" := ⟨.of_not_hasOpening (by decide), by decide⟩

/-- A backed text may be put after one that is sealed. -/
lemma append_backed (ha : Sealed names a) (hb : Backed names b) : Backed names (a ++ b) :=
  ha.backed.append hb (.inl ha.closed)

/-- Texts that are sealed are sealed together. -/
lemma append (ha : Sealed names a) (hb : Sealed names b) : Sealed names (a ++ b) := by
  refine ⟨ha.append_backed hb.backed, ?_⟩
  rintro ⟨part, hi, hne, hno, hs⟩
  rw [String.toList_append] at hs
  obtain hs | ⟨front, rfl⟩ := List.suffix_or_suffix_of_suffix hs (List.suffix_append _ _)
  · exact hb.closed ⟨part, hi, hne, hno, hs⟩
  · obtain ⟨before, hbefore⟩ := hs
    rw [← List.append_assoc] at hbefore
    have hfront : front <:+ a.toList := ⟨before, List.append_cancel_right hbefore⟩
    obtain ⟨left, ho⟩ := (List.mem_inits _ _).1 hi
    by_cases hempty : front = []
    · subst hempty
      exact hb.closed ⟨b.toList, hi, hne, hno, List.suffix_rfl⟩
    · refine ha.closed ⟨front, (List.mem_inits _ _).2 ⟨b.toList ++ left, ?_⟩, hempty, ?_, hfront⟩
      · rw [← ho, List.append_assoc]
      · rintro rfl
        have hlength := congrArg List.length ho
        simp only [List.length_append] at hlength
        exact hno (by rw [List.eq_nil_of_length_eq_zero (by omega : b.toList.length = 0),
          List.append_nil])

/-- A text that is backed by some names is sealed by more. -/
lemma mono (h : Sealed names text) (hno : ∀ name, names name → other name) : Sealed other text :=
  ⟨h.backed.mono hno, h.closed⟩

/-- Sealed texts are sealed one after the other. -/
lemma join {texts : List String} (h : ∀ t ∈ texts, Sealed names t) :
    Sealed names (String.join texts) := by
  induction texts with
  | nil => exact empty
  | cons first texts ih =>
    rw [List.forall_mem_cons] at h
    rw [String.join_cons]
    exact h.1.append (ih h.2)

/-- A text that closes others is sealed. -/
lemma of_isClosing (h : isClosing text = true) : Sealed names text := by
  have := (empty : Sealed names "").backed.closed h
  rwa [String.empty_append] at this

end Sealed

/-! ### Values -/

/-- Backed texts with a text between them that closes each are backed. -/
lemma Backed.intercalate {sep : String} {texts : List String} (hs : isClosing sep = true)
    (h : ∀ t ∈ texts, Backed names t) : Backed names (sep.intercalate texts) := by
  cases texts with
  | nil => exact Sealed.empty.backed
  | cons first texts =>
    rw [List.forall_mem_cons] at h
    induction texts generalizing first with
    | nil => simpa using h.1
    | cons second texts ih =>
      rw [List.forall_mem_cons] at h
      rw [String.intercalate_cons_cons]
      exact (h.1.closed hs).append_backed (ih second h.2)

/-- A reference to one of the names is backed. -/
lemma Backed.property {name : String} (hn : names name) (hp : IsProper name) :
    Backed names (Variable.property name) := by
  -- Behind its first character the reference holds no other, to whatever name.
  have hrest : Sealed (fun _ => False) ("ar(--" ++ (name ++ ")")) :=
    .append ⟨.of_not_hasOpening (by decide), by decide⟩
      ((Backed.of_not_hasOpening hp.opening).closed (by decide))
  intro before rest hs
  have hs : 'v' :: ("ar(--" ++ (name ++ ")")).toList = before ++ (opening ++ rest) := by
    rw [← hs]
    simp [Variable.property]
  cases before with
  | nil =>
    have hr : opening ++ (name.toList ++ [')']) = opening ++ rest := by simpa [opening] using hs
    exact ⟨name, hn, List.append_cancel_left hr ▸ List.prefix_rfl⟩
  | cons c before =>
    obtain ⟨_, hf, _⟩ := hrest.backed before rest (List.cons.inj hs).2
    exact hf.elim

/-- A part of a gradient may be cut in front of a side. -/
lemma Backed.gradientPart {part : List Char} (h : Backed names (String.ofList part)) :
    Backed names (String.ofList (Builtin.gradientPart part)) := by
  unfold Builtin.gradientPart
  split
  · exact h
  · next rest hr =>
    dsimp only
    split
    · have hto : Sealed names "to " := .of_isClosing (by decide)
      have hside : Backed names (String.ofList (rest.dropWhile isBlank)) := by
        refine h.part ("to".toList ++ rest.takeWhile isBlank) [] ?_ ?_
        · rw [String.toList_ofList, append_of_isPrefixOf? hr, List.append_nil, List.append_assoc,
            List.takeWhile_append_dropWhile]
        · intro name cs _ hp
          rwa [List.append_nil] at hp
      rw [String.ofList_append, String.ofList_toList]
      exact hto.append_backed hside
    · exact h

section

variable (hN : ∀ name, names name → IsProper name)
include hN

/-- A gradient is backed if its arguments are: it is cut at commas, which are in no reference. -/
lemma Backed.gradient {args : List String} (h : ∀ arg ∈ args, Backed names arg) :
    Backed names (Builtin.gradient args) := by
  have hargs : Backed names (",".intercalate args) := .intercalate (by decide) h
  have hparts : ∀ text ∈ ((Builtin.commaParts (",".intercalate args).toList).map
      Builtin.gradientPart).map String.ofList, Backed names text := by
    intro text ht
    obtain ⟨_, hg, rfl⟩ := List.mem_map.1 ht
    obtain ⟨part, hm, rfl⟩ := List.mem_map.1 hg
    obtain ⟨before, piece, after, hs, rfl, -, ha⟩ := Builtin.exists_of_mem_commaParts hm
    have hpiece : Backed names (String.ofList piece) := by
      refine hargs.part _ _ hs fun name rest hn hp => ?_
      cases after with
      | nil => rwa [List.append_nil] at hp
      | cons c after =>
        obtain rfl : c = ',' := ha c rfl
        refine prefix_of_prefix_append_cons ?_ hp
        simpa using (hN name hn).comma
    have htrim := hpiece.trim
    rw [Text.trim, String.toList_ofList] at htrim
    exact htrim.gradientPart
  have hstart : Sealed names "linear-gradient(" := ⟨.of_not_hasOpening (by decide), by decide⟩
  exact ((hstart.append_backed (.intercalate (by decide) hparts)).closed (by decide)).backed

/-- Texts that are backed by names are closed under what becomes of texts in a value, if no call
looks like a reference. -/
lemma wording_backed : Wording (Backed names) fun name => Sealed names (Text.trim name ++ "(") where
  trim h := h.trim
  number {a} h := by
    refine .of_not_hasOpening fun ho => ?_
    exact absurd (h 'v' (ho.subset (by simp [opening]))) (by decide)
  truth h := by
    obtain rfl | rfl := h
    · exact .of_not_hasOpening (by decide)
    · exact .of_not_hasOpening (by decide)
  separated hs h := by
    obtain rfl | rfl := hs
    · exact .intercalate (by decide) h
    · exact .intercalate (by decide) h
  entry hk ht := (hk.closed (by decide)).append_backed ht
  mix {base colour amount} hb hc ha := by
    have hstart : Sealed names "color-mix(in srgb, " := .of_isClosing (by decide)
    have hbase : Backed names base := by
      obtain rfl | rfl := hb
      · exact .of_not_hasOpening (by decide)
      · exact .of_not_hasOpening (by decide)
    have hfront : Sealed names ("color-mix(in srgb, " ++ base ++ " ") :=
      (hstart.append_backed hbase).closed (by decide)
    have hmiddle := (hfront.append_backed ha.trim).closed (b := ", ") (by decide)
    exact ((hmiddle.append_backed hc.trim).closed (by decide)).backed
  gradient h := .gradient hN h
  foreign hn h := ((hn.append_backed (.intercalate (by decide) h)).closed (by decide)).backed

end

end Stylesheet.Text
