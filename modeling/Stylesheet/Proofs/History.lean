import Stylesheet.Proofs.Unrolling
import Mathlib.Data.List.Induction

/-!
# The history of a symbol table

A symbol table is the result of a history of changes: variables are declared, taken out, and all
cleared. The history tells everything about the table. The variable of a name is the one that was
declared last (`Declares`), and a name stands where it was declared first since it was last taken
out (`Opens`), whatever it was declared as in between. `Recorded` is what each change keeps.
-/

namespace Stylesheet

namespace Registry

variable {α : Type} {r : Registry α} {name other : String}

/-- The name that is taken out has no value, and every other name its old one. -/
lemma get?_erase (hr : r.names.Nodup) :
    (r.erase name).get? other = if name = other then none else r.get? other := by
  ext v
  have hn : (r.erase name).names.Nodup := by
    rw [names_erase]
    exact hr.erase _
  split
  · next he =>
    subst he
    refine iff_of_false (fun h => ?_) (by simp)
    have hm : name ∈ (r.erase name).names := List.mem_map_of_mem (mem_of_get? h)
    rw [names_erase, hr.mem_erase_iff] at hm
    exact hm.1 rfl
  · next he =>
    unfold get? erase
    dsimp only
    generalize r.entries = es
    induction es with
    | nil => rfl
    | cons e es ih =>
      rw [eraseEntry]
      split
      · next hf => rw [findEntry, if_neg (hf ▸ he)]
      · rw [findEntry, findEntry]
        split
        · rfl
        · exact ih

end Registry

namespace SymbolTable

/-- A change to a symbol table. -/
inductive Change where
  | declare (name : String) (v : Variable)
  | remove (name : String)
  | clear
deriving DecidableEq, Repr

namespace Change

/-- The table after a change. -/
def apply (table : SymbolTable) : Change → SymbolTable
  | declare name v => table.declare name v
  | remove name => table.remove name
  | clear => {}

/-- The name in a change is written without blanks around it and without sigils. -/
def IsBare : Change → Prop
  | declare name _ | remove name => Variable.bareName name = name
  | clear => True

/-- The change takes a name out. -/
def Drops (name : String) (change : Change) : Prop := change = .remove name ∨ change = .clear

/-- The change declares a name or takes it out. -/
def Concerns (name : String) (change : Change) : Prop :=
  (∃ v, change = .declare name v) ∨ change.Drops name

end Change

/-- The table after a history of changes. -/
def after (changes : List Change) : SymbolTable := changes.foldl Change.apply {}

/-- The last declaration of a name gives it a variable, and the name is not taken out after it. -/
def Declares (changes : List Change) (name : String) (v : Variable) : Prop :=
  ∃ before rest, changes = before ++ .declare name v :: rest ∧
    ∀ change ∈ rest, ¬change.Concerns name

/-- The change at a position is the first one that declares a name since the name was last taken
out. -/
structure Opens (changes : List Change) (name : String) (i : Nat) : Prop where
  declares : ∃ v, changes[i]? = some (.declare name v)
  stays : ∀ j, i < j → ∀ change, changes[j]? = some change → ¬change.Drops name
  fresh : ∀ j < i, ∀ v, changes[j]? = some (.declare name v) →
    ∃ k, j < k ∧ k < i ∧ ∃ change, changes[k]? = some change ∧ change.Drops name

/-- One name was declared before another, each counted from where it was last taken out. -/
def Earlier (changes : List Change) (a b : String) : Prop :=
  ∃ i j, Opens changes a i ∧ Opens changes b j ∧ i < j

variable {changes : List Change} {change : Change} {name a b : String} {v : Variable} {i j : Nat}

/-- A name has one position: between two of them it would have been taken out. -/
lemma Opens.unique (hi : Opens changes name i) (hj : Opens changes name j) : i = j := by
  have first {i j : Nat} (hi : Opens changes name i) (hj : Opens changes name j) : ¬i < j := by
    intro hlt
    obtain ⟨v, hv⟩ := hi.declares
    obtain ⟨k, hik, -, change, hk, hd⟩ := hj.fresh i hlt v hv
    exact hi.stays k hik change hk hd
  have := first hi hj
  have := first hj hi
  omega

/-! ### One more change -/

/-- One more change is applied to what the others gave. -/
lemma after_concat : after (changes ++ [change]) = change.apply (after changes) := by
  simp [after]

/-- A change of a longer history is one of the shorter one or the last. -/
lemma getElem?_concat_eq_some_iff {c : Change} :
    (changes ++ [change])[i]? = some c ↔
      changes[i]? = some c ∨ i = changes.length ∧ change = c := by
  rw [List.getElem?_append]
  split
  · next hlt => simp [Nat.ne_of_lt hlt]
  · next hge =>
    rw [List.getElem?_eq_none (Nat.le_of_not_lt hge), List.getElem?_singleton]
    split
    · next h0 => simp [show i = changes.length by omega]
    · next h0 => simp [show i ≠ changes.length by omega]

/-- A change decides on the names that it concerns, and leaves the other names to the changes before
it. -/
lemma declares_concat :
    Declares (changes ++ [change]) name v ↔
      change = .declare name v ∨ ¬change.Concerns name ∧ Declares changes name v := by
  constructor
  · rintro ⟨before, rest, h, hr⟩
    rcases List.eq_nil_or_concat rest with rfl | ⟨rest, last, rfl⟩
    · obtain ⟨-, h⟩ := List.append_inj' h rfl
      exact .inl (List.singleton_inj.1 h)
    · have h : changes ++ [change] = (before ++ .declare name v :: rest) ++ [last] := by
        simpa using h
      obtain ⟨hb, h⟩ := List.append_inj' h rfl
      cases h
      rw [List.concat_eq_append, List.forall_mem_append, List.forall_mem_singleton] at hr
      exact .inr ⟨hr.2, before, rest, hb, hr.1⟩
  · rintro (rfl | ⟨hc, before, rest, rfl, hr⟩)
    · exact ⟨changes, [], rfl, by simp⟩
    · exact ⟨before, rest ++ [change], by simp,
        List.forall_mem_append.2 ⟨hr, List.forall_mem_singleton.2 hc⟩⟩

/-- A change that opens a name is one of the history. -/
lemma Opens.lt_length (h : Opens changes name i) : i < changes.length := by
  obtain ⟨v, hv⟩ := h.declares
  exact (List.getElem?_eq_some_iff.1 hv).1

/-- A name that is not taken out stays where it is, also if it is declared again. -/
lemma Opens.concat (h : Opens changes name i) (hd : ¬change.Drops name) :
    Opens (changes ++ [change]) name i where
  declares := by
    obtain ⟨v, hv⟩ := h.declares
    exact ⟨v, getElem?_concat_eq_some_iff.2 (.inl hv)⟩
  stays j hj c hc := by
    obtain hc | ⟨-, rfl⟩ := getElem?_concat_eq_some_iff.1 hc
    · exact h.stays j hj c hc
    · exact hd
  fresh j hj v hv := by
    obtain hv | ⟨rfl, -⟩ := getElem?_concat_eq_some_iff.1 hv
    · obtain ⟨k, hjk, hki, c, hc, hdrop⟩ := h.fresh j hj v hv
      exact ⟨k, hjk, hki, c, getElem?_concat_eq_some_iff.2 (.inl hc), hdrop⟩
    · have := h.lt_length
      omega

/-- A name that came before another still does, if neither is dropped. -/
lemma Earlier.concat (h : Earlier changes a b) (ha : ¬change.Drops a) (hb : ¬change.Drops b) :
    Earlier (changes ++ [change]) a b := by
  obtain ⟨i, j, hi, hj, hlt⟩ := h
  exact ⟨i, j, hi.concat ha, hj.concat hb, hlt⟩

/-- Every declaration of a name is followed by a change that takes the name out. -/
def Gone (changes : List Change) (name : String) : Prop :=
  ∀ (j : Nat) (v : Variable), changes[j]? = some (.declare name v) →
    ∃ (k : Nat) (change : Change), j < k ∧ changes[k]? = some change ∧ change.Drops name

/-- A name that is gone stays gone until it is declared. -/
lemma Gone.concat (h : Gone changes name) (hc : ∀ v, change ≠ .declare name v) :
    Gone (changes ++ [change]) name := by
  intro j v hv
  obtain hv | ⟨-, he⟩ := getElem?_concat_eq_some_iff.1 hv
  · obtain ⟨k, c, hjk, hk, hd⟩ := h j v hv
    exact ⟨k, c, hjk, getElem?_concat_eq_some_iff.2 (.inl hk), hd⟩
  · exact absurd he (hc v)

/-- A name that is dropped is gone. -/
lemma gone_of_drops (hd : change.Drops name) : Gone (changes ++ [change]) name := by
  intro j v hv
  obtain hv | ⟨-, rfl⟩ := getElem?_concat_eq_some_iff.1 hv
  · have hlt : j < changes.length := (List.getElem?_eq_some_iff.1 hv).1
    exact ⟨changes.length, change, hlt, getElem?_concat_eq_some_iff.2 (.inr ⟨rfl, rfl⟩), hd⟩
  · simp [Change.Drops] at hd

/-- A name that is gone is placed by its next declaration. -/
lemma Gone.opens (h : Gone changes name) (v : Variable) :
    Opens (changes ++ [.declare name v]) name changes.length where
  declares := ⟨v, getElem?_concat_eq_some_iff.2 (.inr ⟨rfl, rfl⟩)⟩
  stays j hj c hc := by
    have hlt := (List.getElem?_eq_some_iff.1 hc).1
    rw [List.length_append, List.length_singleton] at hlt
    omega
  fresh j hj u hu := by
    obtain hu | ⟨rfl, -⟩ := getElem?_concat_eq_some_iff.1 hu
    · obtain ⟨k, c, hjk, hk, hd⟩ := h j u hu
      exact ⟨k, hjk, (List.getElem?_eq_some_iff.1 hk).1, c,
        getElem?_concat_eq_some_iff.2 (.inl hk), hd⟩
    · omega

/-! ### What a table holds -/

/-- A table holds what a history of changes says. -/
structure Recorded (changes : List Change) (table : SymbolTable) : Prop where
  current : ∀ name v, table.get? name = some v ↔ Declares changes name v
  present : ∀ name ∈ table.names, ∃ i, Opens changes name i
  absent : ∀ name ∉ table.names, Gone changes name
  ordered : table.names.Pairwise (Earlier changes)

namespace Recorded

variable {table : SymbolTable}

/-- No name stands at two places, since it would have been declared before itself. -/
lemma nodup (h : Recorded changes table) : table.names.Nodup := by
  refine h.ordered.imp fun he hab => ?_
  obtain ⟨i, j, hi, hj, hlt⟩ := he
  subst hab
  exact absurd (hi.unique hj) (Nat.ne_of_lt hlt)

/-- The empty table records no changes. -/
lemma nil : Recorded [] {} where
  current name v := by simp [Declares, Registry.get?, Registry.findEntry]
  present := by simp [Registry.names]
  absent name _ j v h := by simp at h
  ordered := .nil

/-- A declaration is recorded. -/
lemma declare (h : Recorded changes table) (name : String) (v : Variable) :
    Recorded (changes ++ [.declare name v]) (table.declare name v) := by
  have names := Registry.names_insert table name v
  have stays (other : String) : ¬(Change.declare name v).Drops other := by simp [Change.Drops]
  have ordered := h.ordered.imp fun he => Earlier.concat he (stays _) (stays _)
  have present (other : String) (ho : other ∈ table.names) :
      ∃ i, Opens (changes ++ [.declare name v]) other i := by
    obtain ⟨i, hi⟩ := h.present other ho
    exact ⟨i, hi.concat (stays other)⟩
  have current (other : String) (u : Variable) :
      (table.declare name v).get? other = some u ↔
        Declares (changes ++ [.declare name v]) other u := by
    rw [SymbolTable.declare, Registry.get?_insert, declares_concat, ← h.current]
    split
    · next he =>
      subst he
      simp [Change.Concerns]
    · next he => simp [Change.Concerns, Change.Drops, he]
  have absent (other : String) (hn : other ≠ name) (ho : other ∉ table.names) :
      Gone (changes ++ [.declare name v]) other :=
    (h.absent other ho).concat fun u he => hn (Change.declare.inj he).1.symm
  split at names
  · next hm =>
    refine ⟨current, ?_, ?_, ?_⟩ <;> rw [SymbolTable.declare, names]
    · exact present
    · exact fun other ho => absent other (fun he => ho (he ▸ hm)) ho
    · exact ordered
  · next hm =>
    have opens := (h.absent name hm).opens v
    refine ⟨current, ?_, ?_, ?_⟩ <;> rw [SymbolTable.declare, names]
    · exact List.forall_mem_append.2 ⟨present, List.forall_mem_singleton.2 ⟨_, opens⟩⟩
    · intro other ho
      rw [List.mem_append, List.mem_singleton, not_or] at ho
      exact absent other ho.2 ho.1
    · -- The name goes behind all others, which were declared before this change.
      refine List.pairwise_append.2
        ⟨ordered, List.pairwise_singleton _ _, fun other ho last hl => ?_⟩
      rw [List.mem_singleton.1 hl]
      obtain ⟨i, hi⟩ := h.present other ho
      exact ⟨i, _, hi.concat (stays other), opens, hi.lt_length⟩

/-- A removal is recorded. -/
lemma remove (h : Recorded changes table) (hb : Variable.bareName name = name) :
    Recorded (changes ++ [.remove name]) (table.remove name) := by
  have drops (other : String) : (Change.remove name).Drops other ↔ name = other := by
    simp [Change.Drops]
  have names : (table.remove name).names = table.names.erase name := by
    rw [SymbolTable.remove, hb, Registry.names_erase]
  have stays (other : String) (ho : other ∈ table.names.erase name) :
      other ∈ table.names ∧ ¬(Change.remove name).Drops other := by
    rw [h.nodup.mem_erase_iff] at ho
    exact ⟨ho.2, fun hd => ho.1 ((drops other).1 hd).symm⟩
  refine ⟨fun other u => ?_, ?_, ?_, ?_⟩
  · rw [SymbolTable.remove, hb, Registry.get?_erase h.nodup, declares_concat, ← h.current]
    split
    · next he => simp [Change.Concerns, Change.Drops, he]
    · next he => simp [Change.Concerns, Change.Drops, he]
  · rw [names]
    intro other ho
    obtain ⟨hm, hd⟩ := stays other ho
    obtain ⟨i, hi⟩ := h.present other hm
    exact ⟨i, hi.concat hd⟩
  · rw [names]
    intro other ho
    by_cases he : name = other
    · exact gone_of_drops ((drops other).2 he)
    · have hm : other ∉ table.names := fun hm => ho (h.nodup.mem_erase_iff.2 ⟨Ne.symm he, hm⟩)
      exact (h.absent other hm).concat (by simp)
  · rw [names]
    refine (h.ordered.sublist List.erase_sublist).imp_of_mem fun ha hb he => ?_
    exact he.concat (stays _ ha).2 (stays _ hb).2

/-- Clearing the table is recorded. -/
lemma clear : Recorded (changes ++ [.clear]) {} where
  current name v := by
    rw [declares_concat]
    simp [Change.Concerns, Change.Drops, Registry.get?, Registry.findEntry]
  present := by simp [Registry.names]
  absent name _ := gone_of_drops (.inr rfl)
  ordered := .nil

end Recorded

/-- Each change keeps the table in step with the history. -/
lemma recorded_after (hb : ∀ change ∈ changes, change.IsBare) :
    Recorded changes (after changes) := by
  induction changes using List.reverseRecOn with
  | nil => exact .nil
  | append_singleton changes change ih =>
    rw [List.forall_mem_append, List.forall_mem_singleton] at hb
    have h := ih hb.1
    rw [after_concat]
    cases change with
    | declare name v => exact h.declare name v
    | remove name => exact h.remove hb.2
    | clear => exact .clear

/-- A custom property has the name of its entry. -/
lemma name_of_entryProperty? {entry : String × Variable} {property : String × String}
    (h : entryProperty? entry = some property) : property.1 = entry.1 := by
  unfold entryProperty? at h
  split at h
  · cases h
    rfl
  · cases h

namespace Recorded

variable {table : SymbolTable} {text : String}

/-- The custom properties are the scalars that were declared last and are not temporary. -/
lemma mem_properties_iff (h : Recorded changes table) :
    (name, text) ∈ table.properties ↔ Declares changes name ⟨.scalar text, false⟩ := by
  rw [SymbolTable.mem_properties_iff, ← Registry.get?_eq_some_iff h.nodup, h.current]

/-- The custom properties stand in the order of their names. -/
lemma pairwise_properties (h : Recorded changes table) :
    table.properties.Pairwise fun a b => Earlier changes a.1 b.1 := by
  have ordered : table.entries.Pairwise fun a b => Earlier changes a.1 b.1 :=
    List.pairwise_map.1 h.ordered
  refine ordered.filterMap entryProperty? fun a b he a' ha b' hb => ?_
  rwa [name_of_entryProperty? ha, name_of_entryProperty? hb]

end Recorded

/-- A symbol table is a map in the order of insertion. After any history of changes each name
stands in it once; a name, with or without its sigil, has the variable that was declared last, if
the name was not taken out since; and the custom properties are the scalars that are not
temporary, in the order in which their names were first declared since they were last taken out. A
position in the history is what places a name, and declaring a present name again leaves all names
in their places. -/
theorem table_follows_history (changes : List Change) (hb : ∀ change ∈ changes, change.IsBare) :
    (after changes).names.Nodup ∧
    (∀ name v, Variable.bareName name = name →
      ((after changes).lookup name = some v ↔ Declares changes name v) ∧
        ((after changes).lookup ("$" ++ name) = some v ↔ Declares changes name v)) ∧
    (∀ name text, (name, text) ∈ (after changes).properties ↔
      Declares changes name ⟨.scalar text, false⟩) ∧
    (after changes).properties.Pairwise (fun a b => Earlier changes a.1 b.1) ∧
    (∀ name i j, Opens changes name i → Opens changes name j → i = j) ∧
    ∀ name v, name ∈ (after changes).names →
      (after (changes ++ [.declare name v])).names = (after changes).names := by
  have h := recorded_after hb
  refine ⟨h.nodup, fun name v hname => ?_, fun _ _ => h.mem_properties_iff, h.pairwise_properties,
    fun _ _ _ => Opens.unique, fun name v hm => ?_⟩
  · have sigil : Variable.bareName ("$" ++ name) = name := by
      have := Variable.bareName_sigilName name
      rwa [Variable.sigilName, hname] at this
    rw [lookup, lookup, sigil, hname]
    exact ⟨h.current name v, h.current name v⟩
  · rw [after_concat]
    exact (Registry.names_insert _ _ _).trans (if_pos hm)

/-- A history in which one name changes its sort and its scope and stays, and one is taken out and
comes back. -/
def returning : List Change :=
  [.declare "gap" ⟨.scalar "1px", false⟩, .declare "rim" ⟨.scalar "2px", false⟩,
    .declare "gap" ⟨.list ["3px", "4px"], true⟩, .remove "rim",
    .declare "tone" ⟨.scalar "red", false⟩, .declare "rim" ⟨.scalar "5px", false⟩,
    .declare "gap" ⟨.scalar "6px", false⟩]

/-- A name that is removed and declared again comes last. -/
theorem table_follows_history_returning :
    (after returning).properties = [("gap", "6px"), ("tone", "red"), ("rim", "5px")] ∧
      (after returning).lookup "$gap" = some ⟨.scalar "6px", false⟩ ∧
      Declares returning "gap" ⟨.scalar "6px", false⟩ ∧
      Earlier returning "gap" "tone" ∧ Earlier returning "tone" "rim" := by
  have bare : ∀ change ∈ returning, change.IsBare := by
    simp only [returning, List.forall_mem_cons, Change.IsBare]
    exact ⟨rfl, rfl, rfl, rfl, rfl, rfl, rfl, by simp⟩
  have properties :
      (after returning).properties = [("gap", "6px"), ("tone", "red"), ("rim", "5px")] := by
    decide
  obtain ⟨-, current, listed, ordered, -⟩ := table_follows_history returning bare
  have declares : Declares returning "gap" ⟨.scalar "6px", false⟩ := by
    rw [← listed, properties]
    exact List.mem_cons_self
  rw [properties] at ordered
  simp only [List.pairwise_cons, List.forall_mem_cons] at ordered
  exact ⟨properties, (current "gap" _ rfl).2.2 declares, declares, ordered.1.1, ordered.2.1.1⟩

end SymbolTable

end Stylesheet
