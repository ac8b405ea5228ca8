import Stylesheet.Node.Basic
import Stylesheet.SymbolTable
import Stylesheet.Text.Replace
import Mathlib.Tactic.Lemma

/-!
# Registries, trees and texts

The facts on the definitions that all other modules build on: what registering a name does to the
values and the names of a registry, the induction over the nodes of a tree, the largest of the
numbers that are given for its nodes, and what a text starts with.
-/

namespace Stylesheet

namespace Registry

variable {α : Type}

/-! ### What registering and taking out do to the values and the names -/

/-- What is found in a list of entries after one is inserted. -/
lemma findEntry_insertEntry (name : String) (value : α) (es : List (String × α))
    (other : String) :
    findEntry other (insertEntry name value es) =
      if name = other then some value else findEntry other es := by
  induction es with
  | nil => rfl
  | cons e es ih =>
    by_cases he : e.1 = name
    · by_cases h : name = other <;> simp [insertEntry, findEntry, he, h]
    · by_cases h : e.1 = other
      · subst h
        simp [insertEntry, findEntry, he, Ne.symm he]
      · simp [insertEntry, findEntry, he, h, ih]

/-- The name that is registered has the new value, and every other name its old one. -/
lemma get?_insert (r : Registry α) (name : String) (value : α) (other : String) :
    (r.insert name value).get? other = if name = other then some value else r.get? other :=
  findEntry_insertEntry name value r.entries other

/-- The names in a list of entries after one is inserted. -/
lemma map_fst_insertEntry (name : String) (value : α) (es : List (String × α)) :
    (insertEntry name value es).map Prod.fst =
      if name ∈ es.map Prod.fst then es.map Prod.fst else es.map Prod.fst ++ [name] := by
  induction es with
  | nil => simp [insertEntry]
  | cons e es ih =>
    by_cases he : e.1 = name
    · simp [insertEntry, he]
    · have : name ≠ e.1 := fun h => he h.symm
      simp only [insertEntry, he, if_false, List.map_cons, ih, List.mem_cons, this, false_or]
      split <;> rfl

/-- A new name goes to the end, and a present one stays in its place. -/
lemma names_insert (r : Registry α) (name : String) (value : α) :
    (r.insert name value).names = if name ∈ r.names then r.names else r.names ++ [name] :=
  map_fst_insertEntry name value r.entries

/-- The names in a list of entries after one is taken out. -/
lemma map_fst_eraseEntry (name : String) (es : List (String × α)) :
    (eraseEntry name es).map Prod.fst = (es.map Prod.fst).erase name := by
  induction es with
  | nil => rfl
  | cons e es ih =>
    by_cases he : e.1 = name
    · simp [eraseEntry, he]
    · simp [eraseEntry, he, ih]

/-- The names that stay keep their order. -/
lemma names_erase (r : Registry α) (name : String) :
    (r.erase name).names = r.names.erase name :=
  map_fst_eraseEntry name r.entries

/-! ### Entries -/

/-- The value of a name stands in its entry. -/
lemma mem_of_get? {r : Registry α} {name : String} {v : α} (h : r.get? name = some v) :
    (name, v) ∈ r.entries := by
  unfold get? at h
  generalize r.entries = es at h
  induction es with
  | nil => cases h
  | cons e es ih =>
    unfold findEntry at h
    split at h
    · next he =>
      cases h
      rw [← he]
      exact List.mem_cons_self
    · exact List.mem_cons_of_mem _ (ih h)

/-- Where each name has one entry, that is its value. -/
lemma get?_eq_some_iff {r : Registry α} (hr : r.names.Nodup) {name : String} {v : α} :
    r.get? name = some v ↔ (name, v) ∈ r.entries := by
  refine ⟨mem_of_get?, fun h => ?_⟩
  unfold names at hr
  unfold get?
  generalize r.entries = es at hr h
  induction es with
  | nil => cases h
  | cons e es ih =>
    rw [List.map_cons, List.nodup_cons] at hr
    unfold findEntry
    rcases List.mem_cons.1 h with rfl | h
    · rw [if_pos rfl]
    · have hn : e.1 ≠ name := fun he => hr.1 (he ▸ List.mem_map_of_mem h)
      rw [if_neg hn, ih hr.2 h]

/-- An entry is the one that is registered, or was one before. -/
lemma mem_insert {r : Registry α} {name : String} {v : α} {e : String × α}
    (h : e ∈ (r.insert name v).entries) : e = (name, v) ∨ e ∈ r.entries := by
  unfold insert at h
  dsimp only at h
  generalize r.entries = es at h
  induction es with
  | nil => exact .inl (List.mem_singleton.1 h)
  | cons d es ih =>
    unfold insertEntry at h
    split at h
    · exact (List.mem_cons.1 h).imp_right (List.mem_cons_of_mem _)
    · rcases List.mem_cons.1 h with rfl | h
      · exact .inr List.mem_cons_self
      · exact (ih h).imp_right (List.mem_cons_of_mem _)

/-- Every entry that is left was one before. -/
lemma mem_erase {r : Registry α} {name : String} {e : String × α}
    (h : e ∈ (r.erase name).entries) : e ∈ r.entries := by
  unfold erase at h
  dsimp only at h
  generalize r.entries = es at h
  induction es with
  | nil => cases h
  | cons d es ih =>
    unfold eraseEntry at h
    split at h
    · exact List.mem_cons_of_mem _ h
    · rcases List.mem_cons.1 h with rfl | h
      · exact List.mem_cons_self
      · exact List.mem_cons_of_mem _ (ih h)

end Registry

/-- The custom properties are the scalars that are not temporary. -/
lemma SymbolTable.mem_properties_iff {table : SymbolTable} {name text : String} :
    (name, text) ∈ table.properties ↔ (name, ⟨.scalar text, false⟩) ∈ table.entries := by
  rw [SymbolTable.properties, List.mem_filterMap]
  constructor
  · rintro ⟨⟨other, v⟩, he, h⟩
    unfold SymbolTable.entryProperty? at h
    split at h
    · next hv =>
      cases h
      simpa [← hv] using he
    · cases h
  · exact fun h => ⟨_, h, rfl⟩

/-! ### Trees -/

/-- What holds of a node whenever it holds of its children holds of every node. -/
lemma Node.childInduction {motive : Node → Prop}
    (step : ∀ node, (∀ child ∈ node.children, motive child) → motive node) (node : Node) :
    motive node :=
  step node fun child _ => Node.childInduction step child
termination_by sizeOf node
decreasing_by exact Node.sizeOf_lt_of_mem ‹_›

/-! ### The largest number in a list -/

/-- The largest number in a list is at most another exactly if each number is. -/
lemma foldr_max_le {ns : List Nat} {n : Nat} : ns.foldr max 0 ≤ n ↔ ∀ k ∈ ns, k ≤ n := by
  induction ns with
  | nil => simp
  | cons k ns ih => rw [List.foldr_cons, Nat.max_le, ih, List.forall_mem_cons]

/-- The largest number is in the list, unless it is zero. -/
lemma foldr_max_mem (ns : List Nat) : ns.foldr max 0 = 0 ∨ ns.foldr max 0 ∈ ns := by
  induction ns with
  | nil => exact .inl rfl
  | cons n ns ih =>
    rw [List.foldr_cons]
    obtain h | h := Nat.le_total (ns.foldr max 0) n
    · rw [Nat.max_eq_left h]
      exact .inr List.mem_cons_self
    · rw [Nat.max_eq_right h]
      exact ih.imp_right (List.mem_cons_of_mem n)

namespace Text

/-! ### Texts -/

/-- The characters of a text without the blanks at its ends. -/
@[simp] lemma toList_trim (s : String) : (trim s).toList = trimChars s.toList := by
  simp [trim]

/-- A text that starts with a pattern has the pattern as a prefix. -/
lemma isPrefixOf?_append (p t : List Char) : p.isPrefixOf? (p ++ t) = some t := by
  induction p with
  | nil => rfl
  | cons a p ih =>
    change (if a == a then p.isPrefixOf? (p ++ t) else none) = some t
    rw [if_pos (beq_self_eq_true a), ih]

end Text

end Stylesheet
