import Stylesheet.Proofs.Alphabet
import Stylesheet.Proofs.Binding
import Stylesheet.Proofs.Composition
import Stylesheet.Proofs.Simultaneous
import Stylesheet.Proofs.Template

/-!
# Parent marks and placeholders

A captured rule is placed by the text before its first brace. That brace may be the one of a
placeholder, and a parent mark behind it is not seen. `Slotted` describes the texts in which every
brace before some tail is that of a placeholder of given names: substituting these names leaves no
brace there, so that all marks are found (`Slotted.substituteAll`, `exists_cut`).
-/

namespace Stylesheet

namespace Text

open Selector (parentMark)

/-- Before a tail, a text has no braces but those of placeholders of names. -/
inductive Slotted (N : String → Prop) (Tail : List Char → Prop) : List Char → Prop where
  | tail {cs} :
    Tail cs →
    Slotted N Tail cs
  | char {c cs} :
    c ≠ '\x7b' →
    Slotted N Tail cs →
    Slotted N Tail (c :: cs)
  | slot {name cs} :
    N name →
    Slotted N Tail cs →
    Slotted N Tail ((placeholder name).toList ++ cs)

/-- No parent mark stands behind a brace, placeholders of names aside. -/
abbrev Led (N : String → Prop) : List Char → Prop := Slotted N (parentMark ∉ ·)

namespace Slotted

variable {N N' : String → Prop} {Tail Tail' : List Char → Prop} {a b cs : List Char} {c : Char}

/-- Slots are those of more names. -/
lemma mono (h : Slotted N Tail cs) (hn : ∀ name, N name → N' name)
    (ht : ∀ cs, Tail cs → Tail' cs) : Slotted N' Tail' cs := by
  induction h with
  | tail h => exact .tail (ht _ h)
  | char hc _ ih => exact .char hc ih
  | slot h _ ih => exact .slot (hn _ h) ih

/-- Slotted texts are slotted one after the other. -/
lemma append (h : Slotted N (· = []) a) (hb : Slotted N Tail b) : Slotted N Tail (a ++ b) := by
  induction h with
  | tail h =>
    rw [h]
    exact hb
  | char hc _ ih => exact .char hc ih
  | slot hn _ ih =>
    rw [List.append_assoc]
    exact .slot hn ih

/-- A text without braces is slotted. -/
lemma of_not_mem (h : '\x7b' ∉ a) : Slotted N (· = []) a := by
  induction a with
  | nil => exact .tail rfl
  | cons c a ih =>
    rw [List.mem_cons, not_or] at h
    exact .char (Ne.symm h.1) (ih h.2)

/-- A text without marks may follow. -/
lemma append_unmarked (h : Led N a) (hb : parentMark ∉ b) : Led N (a ++ b) := by
  induction h with
  | tail h => exact .tail (by simp [h, hb])
  | char hc _ ih => exact .char hc ih
  | slot hn _ ih =>
    rw [List.append_assoc]
    exact .slot hn ih

/-- Every text before the first character of a placeholder can be dropped. -/
lemma of_append (h : Led N (a ++ b)) (ha : '#' ∉ a) : Led N b := by
  induction a with
  | nil => exact h
  | cons c a ih =>
    rw [List.mem_cons, not_or] at ha
    refine ih ?_ ha.2
    generalize hcs : c :: a ++ b = cs at h
    cases h with
    | tail h =>
      subst hcs
      exact .tail fun hm => h (List.mem_cons_of_mem _ hm)
    | char _ h =>
      cases hcs
      exact h
    | @slot name cs _ _ =>
      have hp : (placeholder name).toList = '#' :: ("\x7b" ++ name ++ "\x7d").toList := by
        simp [placeholder]
      rw [hp] at hcs
      exact absurd (List.cons.inj hcs).1.symm ha.1

/-- A brace where no placeholder starts begins the tail. -/
lemma unmarked_of_brace (h : Led N ('\x7b' :: cs)) : parentMark ∉ cs := by
  generalize hcs : '\x7b' :: cs = text at h
  cases h with
  | tail h =>
    subst hcs
    exact fun hm => h (List.mem_cons_of_mem _ hm)
  | char hc _ =>
    cases hcs
    exact absurd rfl hc
  | slot _ _ => simp [placeholder] at hcs

/-- Without placeholders, the first brace begins the tail. -/
lemma unmarked_of_cut (h : Led (fun _ => False) (a ++ '\x7b' :: b)) (ha : '\x7b' ∉ a) :
    parentMark ∉ b := by
  induction a with
  | nil => exact h.unmarked_of_brace
  | cons c a ih =>
    rw [List.mem_cons, not_or] at ha
    generalize hcs : c :: a ++ '\x7b' :: b = cs at h
    cases h with
    | tail h =>
      subst hcs
      exact fun hm => h (by simp [hm])
    | char _ h =>
      cases hcs
      exact ih h ha.2
    | slot hn _ => exact hn.elim

end Slotted

/-! ### Substitution -/

section

variable {N : String → Prop} {name : String} {word value cs : List Char}

/-- A character that continues no name is not in a word. -/
lemma not_mem_of_isIdentifier {c : Char} (hw : ∀ c ∈ word, isIdentifier c)
    (hc : isIdentifier c = false) : c ∉ word := by
  intro h
  have := hw c h
  rw [hc] at this
  cases this

/-- The tail of a placeholder holds no character that could start another. -/
lemma hash_not_mem_placeholder (hw : ∀ c ∈ word, isIdentifier c) :
    '#' ∉ '\x7b' :: ('$' :: word ++ ['\x7d']) := by
  have := not_mem_of_isIdentifier hw (c := '#') (by decide)
  simp [this]

/-- A pattern that is not found at its first character is not found before the next. -/
lemma replaceEach_copy_append {p : Char} {ps a b : List Char} {out : List Char → List Char}
    (h : ¬p :: ps <+: p :: a ++ b) (ha : p ∉ a) :
    replaceEach p ps out (p :: a ++ b) = p :: a ++ replaceEach p ps out b := by
  rw [List.cons_append] at h ⊢
  rw [replaceEach_copy h, replaceEach_append_of_not_mem ha, List.cons_append]

/-- Interpolating a name leaves placeholders of the other names only. -/
lemma Slotted.replacePlaceholder (hn : name.toList = '$' :: word)
    (hw : ∀ c ∈ word, isIdentifier c) (hN : ∀ name, N name → IsName name)
    (hb : '\x7b' ∉ value) (hm : parentMark ∉ value) (h : Led N cs) :
    Led (fun other => N other ∧ other ≠ name)
      (replaceEach '#' ('\x7b' :: ('$' :: word ++ ['\x7d'])) (fun _ => value) cs) := by
  have unmarked {cs : List Char} (h : parentMark ∉ cs) : parentMark ∉
      replaceEach '#' ('\x7b' :: ('$' :: word ++ ['\x7d'])) (fun _ => value) cs := by
    intro hr
    obtain hr | ⟨-, hr⟩ := mem_of_mem_replaceEach hr
    · exact h hr
    · exact hm hr
  induction h with
  | tail h => exact .tail (unmarked h)
  | @char c cs hc h ih =>
    by_cases hp : '#' :: ('\x7b' :: ('$' :: word ++ ['\x7d'])) <+: c :: cs
    · -- the brace that follows is not one of a placeholder, so the tail has begun
      obtain ⟨rest, hr⟩ := hp
      rw [List.cons_append, List.cons_append] at hr
      obtain ⟨rfl, rfl⟩ := List.cons.inj hr
      have hrest := h.unmarked_of_brace
      refine .tail (unmarked fun hm => ?_)
      obtain hm | hm := List.mem_cons.1 hm
      · cases hm
      · obtain hm | hm := List.mem_cons.1 hm
        · cases hm
        · exact hrest hm
    · rw [replaceEach_copy hp]
      exact .char hc ih
  | @slot other cs ho h ih =>
    obtain ⟨word', hn', hw'⟩ := hN other ho
    rw [toList_placeholder hn']
    by_cases he : other = name
    · subst he
      cases hn.symm.trans hn'
      rw [replaceEach_found]
      exact (of_not_mem hb).append ih
    · rw [replaceEach_copy_append ?_ (hash_not_mem_placeholder hw'), ← toList_placeholder hn']
      · exact .slot ⟨ho, he⟩ ih
      · rintro ⟨rest, hr⟩
        have hs : Form.placeholder.Starts name ((placeholder other).toList ++ cs) :=
          (Form.starts_placeholder_iff hn).2 ⟨rest, by simpa [toList_placeholder hn'] using hr.symm⟩
        have hs' : Form.placeholder.Starts other ((placeholder other).toList ++ cs) :=
          ⟨cs, rfl, rfl⟩
        exact he (hs'.unique ⟨word', hn', hw'⟩ ⟨word, hn, hw⟩ hs).2

/-- The placeholder of a name holds no token of another. -/
lemma replaceEach_placeholder_append {other : String} (hn : name.toList = '$' :: word)
    (hw : ∀ c ∈ word, isIdentifier c) (ho : IsName other) (he : other ≠ name) :
    replaceEach '$' word (tokenValue ('$' :: word) value) ((placeholder other).toList ++ cs) =
      (placeholder other).toList ++ replaceEach '$' word (tokenValue ('$' :: word) value) cs := by
  obtain ⟨word', hn', hw'⟩ := ho
  have hd : '$' ∉ word := not_mem_of_isIdentifier hw (by decide)
  have hd' : '$' ∉ word' ++ ['\x7d'] := by
    simp [not_mem_of_isIdentifier hw' (c := '$') (by decide)]
  have hend : endsName ('\x7d' :: cs) = true := by
    simp only [endsName, List.head?_cons, Option.any_some]
    decide
  have hhead : ('#' :: ('\x7b' :: ('$' :: word' ++ ['\x7d']))) ++ cs =
      ['#', '\x7b'] ++ '$' :: ((word' ++ ['\x7d']) ++ cs) := by simp
  rw [toList_placeholder hn', hhead, replaceEach_append_of_not_mem (by decide),
    replaceEach_tokenValue_copy hd, replaceEach_append_of_not_mem hd']
  · simp
  · intro rest hr
    -- the name would end where the other one does, and be the same
    rw [← Bool.not_eq_true]
    intro hrest
    rw [List.cons_append, List.cons.injEq, List.append_assoc] at hr
    have hsame := eq_of_append_eq hw' hw hend hrest hr.2
    exact he (String.toList_inj.1 (by rw [hn, hn', hsame]))

/-- Replacing the tokens of a name keeps the placeholders of the others. -/
lemma Slotted.replaceToken (hn : name.toList = '$' :: word)
    (hw : ∀ c ∈ word, isIdentifier c) (hN : ∀ other, N other → IsName other ∧ other ≠ name)
    (hb : '\x7b' ∉ value) (hm : parentMark ∉ value) (h : Led N cs) :
    Led N (replaceEach '$' word (tokenValue ('$' :: word) value) cs) := by
  have hd : '$' ∉ word := not_mem_of_isIdentifier hw (by decide)
  have written {c : Char} {rest : List Char} (hc : isIdentifier c = false) (hs : c ≠ '$')
      (hv : c ∉ value) : c ∉ tokenValue ('$' :: word) value rest := by
    intro h
    obtain h | h := mem_of_mem_tokenValue h
    · obtain h | h := List.mem_cons.1 h
      · exact hs h
      · exact not_mem_of_isIdentifier hw hc h
    · exact hv h
  induction h with
  | tail h =>
    refine .tail fun hr => ?_
    obtain hr | ⟨_, hr⟩ := mem_of_mem_replaceEach hr
    · exact h hr
    · exact written (by decide) (by decide) hm hr
  | @char c cs hc h ih =>
    by_cases hp : '$' :: word <+: c :: cs
    · obtain ⟨rest, hr⟩ := hp
      rw [List.cons_append] at hr
      obtain ⟨rfl, rfl⟩ := List.cons.inj hr
      rw [← List.cons_append, replaceEach_found]
      rw [replaceEach_append_of_not_mem hd] at ih
      have hrest := ih.of_append (not_mem_of_isIdentifier hw (by decide))
      exact (of_not_mem (written (by decide) (by decide) hb)).append hrest
    · rw [replaceEach_copy hp]
      exact .char hc ih
  | @slot other cs ho h ih =>
    rw [replaceEach_placeholder_append hn hw (hN other ho).1 (hN other ho).2]
    exact .slot ho ih

end

/-- A character is not a parent mark. -/
def isUnmarked (c : Char) : Bool := c != parentMark

/-- A character is not a parent mark and opens no placeholder. -/
def isBare (c : Char) : Bool := c != parentMark && c != '\x7b'

/-- The characters but the parent mark are ample. -/
lemma ample_isUnmarked : Ample (isUnmarked ·) := by
  intro c hc
  simp only [isUnmarked, bne_iff_ne]
  rintro rfl
  exact hc (by decide)

/-- The characters but the parent mark and an opening brace are ample. -/
lemma ample_isBare : Ample (isBare ·) := by
  intro c hc
  simp only [isBare, Bool.and_eq_true, bne_iff_ne]
  refine ⟨?_, ?_⟩
  · rintro rfl
    exact hc (by decide)
  · rintro rfl
    exact hc (by decide)

/-- A text is without marks exactly if the parent mark is not in it. -/
lemma over_isUnmarked_iff {text : String} :
    Over (isUnmarked ·) text ↔ parentMark ∉ text.toList := by
  simp only [Over, isUnmarked, bne_iff_ne]
  exact ⟨fun h hm => h _ hm rfl, fun h c hc he => h (he ▸ hc)⟩

/-- A text is bare exactly if neither the parent mark nor an opening brace is in it. -/
lemma over_isBare_iff {text : String} :
    Over (isBare ·) text ↔ parentMark ∉ text.toList ∧ '\x7b' ∉ text.toList := by
  simp only [Over, isBare, Bool.and_eq_true, bne_iff_ne]
  exact ⟨fun h => ⟨fun hm => (h _ hm).1 rfl, fun hm => (h _ hm).2 rfl⟩,
    fun h c hc => ⟨fun he => h.1 (he ▸ hc), fun he => h.2 (he ▸ hc)⟩⟩

/-- Bare characters are no marks. -/
lemma isUnmarked_of_isBare (c : Char) (h : isBare c) : isUnmarked c := by
  rw [isBare, Bool.and_eq_true] at h
  exact h.1

section

variable {N : String → Prop} {bindings : List (String × String)} {name value text : String}

/-- Substituting a name leaves placeholders of the other names only. -/
lemma Slotted.substitute (hN : ∀ name, N name → IsName name) (hn : IsName name)
    (hv : Over (isBare ·) value) (h : Led N text.toList) :
    Led (fun other => N other ∧ other ≠ name) (substitute text name value).toList := by
  obtain ⟨word, hn, hw⟩ := hn
  obtain ⟨hm, hb⟩ := over_isBare_iff.1 hv
  have hi := h.replacePlaceholder hn hw hN hb hm
  rw [← toList_interpolate hn] at hi
  rw [Text.substitute, toList_replaceToken hn]
  exact hi.replaceToken hn hw (fun other ho => ⟨hN other ho.1, ho.2⟩) hb hm

/-- Substituting all names leaves no placeholder in front of a mark. -/
lemma Slotted.substituteAll (hN : ∀ name, N name → IsName name ∧ name ∈ bindings.map Prod.fst)
    (hb : ∀ b ∈ bindings, IsName b.1 ∧ Over (isBare ·) b.2) (h : Led N text.toList) :
    Led (fun _ => False) (Mixin.substituteAll bindings text).toList := by
  induction bindings generalizing N text with
  | nil =>
    refine h.mono (fun name hname => ?_) fun _ ht => ht
    cases (hN name hname).2
  | cons b bindings ih =>
    rw [List.forall_mem_cons] at hb
    refine ih (fun other ho => ⟨(hN other ho.1).1, ?_⟩) hb.2
      (h.substitute (fun name hname => (hN name hname).1) hb.1.1 hb.1.2)
    exact (List.mem_cons.1 (hN other ho.1).2).resolve_left ho.2

end

/-! ### The brace of a block -/

/-- A block opens in a text: a brace with a new line behind it. -/
def Opens (cs : List Char) : Prop := ['\x7b', '\n'] <:+: cs

section

variable {p c : Char} {ps a b cs : List Char} {out : List Char → List Char}

/-- A character that no pattern ends with stays at the end of a text. -/
lemma replaceEach_concat (hc : (p :: ps).getLast? ≠ some c)
    (ho : ∀ rest, out (rest ++ [c]) = out rest) (a : List Char) :
    replaceEach p ps out (a ++ [c]) = replaceEach p ps out a ++ [c] := by
  induction a using pattern_induction p ps with
  | nil =>
    rw [List.nil_append, replaceEach_nil, replaceEach_copy, replaceEach_nil, List.nil_append]
    rintro ⟨rest, hr⟩
    refine hc ?_
    cases ps with
    | nil => simp_all
    | cons q ps => simp at hr
  | found rest ih =>
    rw [List.append_assoc, replaceEach_found, replaceEach_found, ho, ih, List.append_assoc]
  | copy d cs h ih =>
    rw [replaceEach_copy h, List.cons_append, replaceEach_copy, ih, List.cons_append]
    intro hp
    rw [← List.cons_append, List.prefix_concat_iff] at hp
    obtain hp | hp := hp
    · refine hc ?_
      rw [hp, List.getLast?_concat]
    · exact h hp

/-- A text that opens a block still does after a pattern is replaced. -/
lemma Opens.replaceEach (hp : '\n' ∉ p :: ps) (hl : (p :: ps).getLast? ≠ some '\x7b')
    (ho : ∀ sep, isIdentifier sep = false → ∀ rest b, out (rest ++ sep :: b) = out rest)
    (h : Opens cs) : Opens (replaceEach p ps out cs) := by
  obtain ⟨a, b, rfl⟩ := h
  have hs : a ++ ['\x7b', '\n'] ++ b = (a ++ ['\x7b']) ++ '\n' :: b := by simp
  rw [hs, replaceEach_append_cons hp (fun rest => ho '\n' (by decide) rest b),
    replaceEach_concat hl fun rest => ho '\x7b' (by decide) rest []]
  exact ⟨Text.replaceEach p ps out a, Text.replaceEach p ps out b, by simp⟩

end

/-- A text that opens a block still does after a value is substituted. -/
lemma Opens.substitute {name value text : String} (hn : IsName name) (h : Opens text.toList) :
    Opens (substitute text name value).toList := by
  obtain ⟨word, hn, hw⟩ := hn
  have hl : '\n' ∉ word := not_mem_of_isIdentifier hw (by decide)
  have hb : '\x7b' ∉ word := not_mem_of_isIdentifier hw (by decide)
  rw [Text.substitute, toList_replaceToken hn, toList_interpolate hn]
  refine Opens.replaceEach (by simp [hl]) ?_ ?_ (Opens.replaceEach (by simp [hl]) ?_ ?_ h)
  · intro he
    obtain he | he := List.mem_cons.1 (List.mem_of_getLast? he)
    · cases he
    · exact hb he
  · exact fun sep hsep rest b => tokenValue_append_cons hsep rest b
  · rw [← List.cons_append, ← List.cons_append, List.getLast?_concat]
    decide
  · exact fun _ _ _ _ => rfl

/-- A text that opens a block has a first brace, and no mark stands behind it once all names are
substituted. -/
lemma exists_cut {cs : List Char} (h : Led (fun _ => False) cs) (ho : Opens cs) :
    ∃ head rest, cs = head ++ '\x7b' :: rest ∧ '\x7b' ∉ head ∧ parentMark ∉ rest ∧
      Opens ('\x7b' :: rest) := by
  obtain ⟨head, rest, rfl, hh⟩ := List.eq_append_cons_of_mem (ho.subset List.mem_cons_self)
  refine ⟨head, rest, rfl, hh, h.unmarked_of_cut hh, ?_⟩
  clear h
  induction head with
  | nil => exact ho
  | cons c head ih =>
    rw [List.mem_cons, not_or] at hh
    obtain hp | hi := List.infix_cons_iff.1 ho
    · exact absurd (List.cons_prefix_cons.1 hp).1 hh.1
    · exact ih hh.2 hi

/-! ### What stands outside placeholders -/

/-- A text with the slots of names left out. -/
def unslotted (names : List String) (text : String) : List Char :=
  fillSlots (names.map fun name => (name, "")) text.toList

/-- No parent mark stands behind a brace, slots of names aside. -/
def isLed (names : List String) (text : String) : Bool :=
  !((unslotted names text).dropWhile (· != '\x7b')).contains parentMark

/-- A text has no parent mark or no brace, slots of names aside. -/
def isSettled (names : List String) (text : String) : Bool :=
  !(unslotted names text).contains parentMark || !(unslotted names text).contains '\x7b'

section

variable {names : List String} {text : String}

/-- What is left out of a text are slots, and the other characters are copied one by one. -/
lemma slots_induction (hn : ∀ name ∈ names, IsName name)
    {motive : List Char → List Char → Prop} (nil : motive [] [])
    (slot : ∀ name ∈ names, ∀ (form : Form) (rest out : List Char), motive rest out →
      motive (form.written name ++ rest) out)
    (copy : ∀ c cs out, motive cs out → motive (c :: cs) (c :: out)) (cs : List Char) :
    motive cs (fillSlots (names.map fun name => (name, "")) cs) := by
  induction hl : cs.length using Nat.strong_induction_on generalizing cs with
  | _ n ih =>
    subst hl
    cases cs with
    | nil =>
      rw [fillSlots_nil]
      exact nil
    | cons c cs =>
      rw [fillSlots]
      split
      · next value rest hs =>
        obtain ⟨name, hb, form, ha⟩ := exists_of_slot? hs
        have hr := ih _ (Form.length_lt_of_after? ha) rest rfl
        obtain ⟨other, hm, hp⟩ := List.mem_map.1 hb
        cases hp
        rw [((Form.after?_eq_some_iff (hn name hm)).1 ha).1]
        exact slot name hm form rest _ hr
      · exact copy c cs _ (ih _ (by simp) cs rfl)

variable (hn : ∀ name ∈ names, IsName name)
include hn

/-- A name is written without marks. -/
lemma mark_not_mem_written {name : String} (hm : name ∈ names) (form : Form) :
    parentMark ∉ form.written name := by
  obtain ⟨word, hw, hi⟩ := hn name hm
  have hmark : parentMark ∉ word := not_mem_of_isIdentifier hi (by decide)
  have hne : parentMark ≠ '$' ∧ parentMark ≠ '#' ∧ parentMark ≠ '\x7b' ∧ parentMark ≠ '\x7d' := by
    decide
  cases form with
  | placeholder => simp [Form.written_placeholder hw, hmark, hne]
  | token => simp [Form.written, hw, hmark, hne]

/-- A slot may stand in front of what is slotted. -/
lemma Slotted.written {name : String} {Tail : List Char → Prop} {rest : List Char}
    (hm : name ∈ names) (form : Form) (h : Slotted (· ∈ names) Tail rest) :
    Slotted (· ∈ names) Tail (form.written name ++ rest) := by
  cases form with
  | placeholder => exact .slot hm h
  | token =>
    obtain ⟨word, hw, hi⟩ := hn name hm
    have hb : '\x7b' ∉ word := not_mem_of_isIdentifier hi (by decide)
    refine (of_not_mem ?_).append h
    simp [Form.written, hw, hb]

/-- What has no mark outside of its slots has none. -/
lemma mark_not_mem_of_unslotted (h : parentMark ∉ unslotted names text) :
    parentMark ∉ text.toList := by
  refine fun hm => h (slots_induction hn
    (motive := fun cs out => parentMark ∈ cs → parentMark ∈ out) id ?_ ?_ text.toList hm)
  · intro name hname form rest out ih hm
    exact ih ((List.mem_append.1 hm).resolve_left (mark_not_mem_written hn hname form))
  · intro c cs out ih hm
    obtain rfl | hm := List.mem_cons.1 hm
    · exact List.mem_cons_self
    · exact List.mem_cons_of_mem c (ih hm)

/-- What has no brace outside of its slots is slotted. -/
lemma slotted_of_unslotted (h : '\x7b' ∉ unslotted names text) :
    Slotted (· ∈ names) (· = []) text.toList := by
  refine slots_induction hn
    (motive := fun cs out => '\x7b' ∉ out → Slotted (· ∈ names) (· = []) cs) ?_ ?_ ?_ text.toList h
  · exact fun _ => .tail rfl
  · exact fun name hname form rest out ih h => (ih h).written hn hname form
  · intro c cs out ih h
    rw [List.mem_cons, not_or] at h
    exact .char (Ne.symm h.1) (ih h.2)

/-- What is checked to be led is led. -/
lemma led_of_isLed (h : isLed names text = true) : Led (· ∈ names) text.toList := by
  refine (slots_induction hn (motive := fun cs out => (parentMark ∈ cs → parentMark ∈ out) ∧
    (parentMark ∉ out.dropWhile (· != '\x7b') → Led (· ∈ names) cs)) ?_ ?_ ?_ text.toList).2 ?_
  · exact ⟨id, fun _ => .tail (by simp)⟩
  · intro name hname form rest out ih
    refine ⟨fun hm => ?_, fun h => (ih.2 h).written hn hname form⟩
    exact ih.1 ((List.mem_append.1 hm).resolve_left (mark_not_mem_written hn hname form))
  · intro c cs out ih
    refine ⟨fun hm => ?_, fun h => ?_⟩
    · obtain rfl | hm := List.mem_cons.1 hm
      · exact List.mem_cons_self
      · exact List.mem_cons_of_mem c (ih.1 hm)
    · by_cases hc : c = '\x7b'
      · subst hc
        refine .tail fun hm => h ?_
        obtain hm | hm := List.mem_cons.1 hm
        · cases hm
        · simpa using .inr (ih.1 hm)
      · rw [List.dropWhile_cons_of_pos (by simpa using hc)] at h
        exact .char hc (ih.2 h)
  · simpa [isLed, unslotted] using h

end

end Text

/-! ### Selectors -/

namespace Selector

open Text

variable {N : String → Prop} {parent selector fragment : String}

/-- A selector that is placed under one without marks has none. -/
lemma mark_not_mem_compose (hp : parentMark ∉ parent.toList) :
    parentMark ∉ (compose parent selector).toList := by
  unfold compose
  dsimp only
  split
  · rw [String.toList_ofList]
    exact mark_not_mem_fill hp
  · next hs =>
    split
    · exact hs
    · simp only [String.toList_append, List.mem_append, not_or]
      exact ⟨⟨hp, by decide⟩, hs⟩

/-- No mark is left in a chain of selectors. -/
lemma mark_not_mem_chain (selectors : List String) : parentMark ∉ (chain selectors).toList := by
  unfold chain
  induction selectors using List.reverseRecOn with
  | nil => simp
  | append_singleton selectors selector ih =>
    rw [List.foldl_append, List.foldl_cons, List.foldl_nil]
    exact mark_not_mem_compose ih

/-- Placing a selector without braces adds only the braces of what it is placed under. -/
lemma slotted_compose (hp : Slotted N (· = []) parent.toList) (hs : '\x7b' ∉ selector.toList) :
    Slotted N (· = []) (compose parent selector).toList := by
  have ht : '\x7b' ∉ (trim selector).toList := by
    intro h
    rw [toList_trim] at h
    exact hs (mem_of_mem_trimChars h)
  unfold compose
  dsimp only
  split
  · rw [String.toList_ofList]
    generalize (trim selector).toList = cs at ht
    induction cs with
    | nil => exact .tail rfl
    | cons c cs ih =>
      rw [List.mem_cons, not_or] at ht
      rw [fill_cons]
      split
      · exact hp.append (ih ht.2)
      · exact .char (Ne.symm ht.1) (ih ht.2)
  · split
    · exact .of_not_mem ht
    · rw [String.toList_append, String.toList_append, List.append_assoc]
      exact hp.append (.of_not_mem (by simpa using ht))

/-- A rule that is placed under a selector without marks has none. -/
lemma mark_not_mem_place (hp : parentMark ∉ parent.toList)
    (h : Led (fun _ => False) fragment.toList) (ho : Opens fragment.toList) :
    parentMark ∉ (place parent fragment).toList := by
  obtain ⟨head, rest, hf, hh, hr, -⟩ := exists_cut h ho
  obtain rfl : fragment = String.ofList head ++ "\x7b" ++ String.ofList rest := by
    rw [← String.toList_inj, hf]
    simp
  rw [place_of_not_mem (by simpa using hh)]
  simp only [String.toList_append, List.mem_append, not_or, String.toList_ofList]
  exact ⟨⟨mark_not_mem_compose hp, by decide⟩, hr⟩

/-- A rule that is placed under a selector has no marks behind a brace, if the selector has no marks
or no braces, placeholders aside. -/
lemma led_place (hp : parentMark ∉ parent.toList ∨ Slotted N (· = []) parent.toList)
    (h : Led (fun _ => False) fragment.toList) (ho : Opens fragment.toList) :
    Led N (place parent fragment).toList ∧ Opens (place parent fragment).toList := by
  obtain ⟨head, rest, hf, hh, hr, hopens⟩ := exists_cut h ho
  obtain rfl : fragment = String.ofList head ++ "\x7b" ++ String.ofList rest := by
    rw [← String.toList_inj, hf]
    simp
  have hu : parentMark ∉ '\x7b' :: rest := by simpa using ⟨by decide, hr⟩
  have ht : (compose parent (String.ofList head) ++ "\x7b" ++ String.ofList rest).toList =
      (compose parent (String.ofList head)).toList ++ '\x7b' :: rest := by simp
  rw [place_of_not_mem (by simpa using hh), ht]
  refine ⟨?_, hopens.trans (List.suffix_append _ _).isInfix⟩
  obtain hp | hp := hp
  · refine .tail fun hm => ?_
    obtain hm | hm := List.mem_append.1 hm
    · exact mark_not_mem_compose hp hm
    · exact hu hm
  · exact (slotted_compose hp (by simpa using hh)).append (.tail hu)

/-- The text of a rule opens its block. -/
lemma opens_block {body : String} (hb : body = "" ∨ ∃ rest, body = "\n" ++ rest) :
    Opens (block selector body).toList := by
  obtain rfl | ⟨rest, rfl⟩ := hb
  · exact ⟨selector.toList, ['\x7d'], by simp [block]⟩
  · exact ⟨selector.toList, rest.toList ++ ['\n', '\x7d'], by simp [block]⟩

/-- A rule is led if its selector is and its body has no mark. -/
lemma led_block {body : String} (hs : Led N selector.toList) (hb : parentMark ∉ body.toList) :
    Led N (block selector body).toList := by
  have ht : (block selector body).toList =
      selector.toList ++ '\x7b' :: (body.toList ++ ['\n', '\x7d']) := by
    simp [block]
  have hne : parentMark ≠ '\x7b' ∧ parentMark ≠ '\n' ∧ parentMark ≠ '\x7d' := by decide
  rw [ht]
  exact hs.append_unmarked (by simp [hb, hne])

end Selector

end Stylesheet
