import BemSheet.Bem.Entity
import BemSheet.Proofs.Bem.Modifier

/-!
Class names tell entities apart.

The names in a class share no character with the delimiters, so each row of delimiter characters is
one delimiter. Reading the rows tells what every name behind one belongs to, also where one
delimiter starts with the other.

* `delimit_spaced`: the words of a modifier come back with the delimiter between them.
* `readClass_className`: a class name is read back.
* `className_inj`: different entities with different modifiers have different class names.
-/

namespace BemSheet.Bem

open Text

/-- What may stand for a name or a word of a modifier: some text without separators that shares no
character with the delimiters. -/
structure Delimiters.Names (delimiters : Delimiters) (s : Text) : Prop where
  nonempty : s ≠ []
  solid : ∀ c ∈ s, isBlank c = false ∧ c ≠ ','
  arrowless : ¬ ['-', '>'] <:+: s
  apart : ∀ c ∈ s, c ∉ delimiters.modifier ++ delimiters.element

instance (delimiters : Delimiters) (s : Text) : Decidable (delimiters.Names s) :=
  decidable_of_iff (s ≠ [] ∧ (∀ c ∈ s, isBlank c = false ∧ c ≠ ',') ∧ ¬ ['-', '>'] <:+: s ∧
    ∀ c ∈ s, c ∉ delimiters.modifier ++ delimiters.element)
    ⟨fun h => ⟨h.1, h.2.1, h.2.2.1, h.2.2.2⟩,
      fun h => ⟨h.nonempty, h.solid, h.arrowless, h.apart⟩⟩

/-- Words with a space between each two of them. -/
def spaced (words : List Text) : Text := [' '].intercalate words

/-- The class selector of an entity with the words of a modifier, if there are any. -/
def className (delimiters : Delimiters) (entity : Entity) (words : List Text) : Text :=
  let modifier := if words = [] then none else some (delimit (spaced words) delimiters.modifier)
  entity.selector modifier delimiters

/-! ## The words of a modifier -/

variable {delimiters : Delimiters}

theorem Delimiters.Names.unseparated {s : Text} (h : delimiters.Names s) : Unseparated s :=
  ⟨h.solid, h.arrowless⟩

theorem spaced_cons (word next : Text) (words : List Text) :
    spaced (word :: next :: words) = word ++ ([' '] ++ spaced (next :: words)) := by
  simp [spaced, List.intercalate, List.intersperse]

/-- A space does not go on with an arrow. -/
theorem space_not_arrow (rest : Text) : ∀ c ∈ ([' '] ++ rest).head?, c ≠ '>' := by
  intro c hc
  obtain rfl : ' ' = c := Option.some.inj hc
  decide

theorem arrowless_spaced {word : Text} {words : List Text} (h : delimiters.Names word) :
    ¬ ['-', '>'] <+: spaced (word :: words) := by
  cases words with
  | nil =>
    intro starts
    apply h.arrowless
    simpa [spaced, List.intercalate] using starts.isInfix
  | cons next words =>
    rw [spaced_cons]
    exact arrowless_append h.nonempty h.arrowless (space_not_arrow _)

/-- Each space between two words is the separator there. -/
theorem cuts_spaced {word : Text} {words : List Text}
    (h : ∀ word' ∈ word :: words, delimiters.Names word') :
    Cuts separatorAt? (spaced (word :: words)) word (words.map fun next => ((), next)) := by
  induction words generalizing word with
  | nil =>
    obtain ⟨own, -⟩ := List.forall_mem_cons.mp h
    have alone : spaced [word] = word := by simp [spaced, List.intercalate]
    rw [alone]
    exact .last (own.unseparated.noMatch nofun)
  | cons next words ih =>
    obtain ⟨own, others⟩ := List.forall_mem_cons.mp h
    have space : separatorAt? ([' '] ++ spaced (next :: words)) = some ((), 0) := by
      have first := others next List.mem_cons_self
      have none : arrowLength (spaced (next :: words)) = 0 :=
        arrowLength_eq_zero (arrowless_spaced first)
      have blank : isBlank ' ' = true := by decide
      simp [separatorAt?, separatorLength, none, blank]
    rw [spaced_cons]
    exact .found (own.unseparated.noMatch (space_not_arrow _)) space rfl (ih others)

/-- The words of a modifier come back with the delimiter between them. -/
theorem delimit_spaced {word : Text} {words : List Text}
    (h : ∀ word' ∈ word :: words, delimiters.Names word') (delimiter : Text) :
    delimit (spaced (word :: words)) delimiter = word ++ words.flatMap (delimiter ++ ·) := by
  simp only [delimit, modifierWords, (cuts_spaced h).eq, List.map_map, Function.comp_def,
    List.map_id']

/-! ## Rows of delimiter characters -/

/-- Whether a character belongs to a delimiter. -/
def Delimiters.has (delimiters : Delimiters) (c : Char) : Bool :=
  (delimiters.modifier ++ delimiters.element).contains c

/-- The row of delimiter characters that a text starts with, and one less than its length. -/
def delimiterAt? (delimiters : Delimiters) (s : Text) : Option (Text × Nat) :=
  match s.takeWhile delimiters.has with
  | [] => none
  | c :: row => some (c :: row, row.length)

/-- A delimiter, or a row of its characters, that is not empty. -/
structure Delimiters.Row (delimiters : Delimiters) (s : Text) : Prop where
  nonempty : s ≠ []
  chars : ∀ c ∈ s, delimiters.has c = true

theorem Delimiters.Names.has {s : Text} (h : delimiters.Names s) :
    ∀ c ∈ s, delimiters.has c = false := by
  intro c hc
  simpa [Delimiters.has] using h.apart c hc

theorem delimiterAt?_row {row rest : Text} (h : delimiters.Row row)
    (ends : ∀ c ∈ rest.head?, delimiters.has c = false) :
    delimiterAt? delimiters (row ++ rest) = some (row, row.length - 1) := by
  have taken : (row ++ rest).takeWhile delimiters.has = row := by
    rw [List.takeWhile_append_of_pos h.chars]
    cases rest with
    | nil => simp
    | cons c rest => simp [ends c rfl]
  rw [delimiterAt?, taken]
  cases row with
  | nil => exact absurd rfl h.nonempty
  | cons c row => rfl

theorem noMatch_delimiterAt? {gap : Text} (h : ∀ c ∈ gap, delimiters.has c = false) (rest : Text) :
    NoMatch (delimiterAt? delimiters) gap rest := by
  intro c u suffix
  have other := h c (suffix.subset List.mem_cons_self)
  simp [delimiterAt?, other]

/-- Names with a delimiter in front of each. -/
def marked (names : List (Text × Text)) : Text := names.flatMap fun part => part.1 ++ part.2

/-- The rows of delimiter characters are the delimiters between names. -/
theorem cuts_marked {first : Text} {names : List (Text × Text)}
    (own : ∀ c ∈ first, delimiters.has c = false)
    (h : ∀ part ∈ names, delimiters.Row part.1 ∧ delimiters.Names part.2) :
    Cuts (delimiterAt? delimiters) (first ++ marked names) first names := by
  induction names generalizing first with
  | nil =>
    have whole : first ++ marked [] = first := List.append_nil first
    rw [whole]
    exact .last (noMatch_delimiterAt? own [])
  | cons part names ih =>
    obtain ⟨⟨row, name⟩, others⟩ := List.forall_mem_cons.mp h
    have length : part.1.length = part.1.length - 1 + 1 :=
      (Nat.succ_pred_eq_of_pos (List.length_pos_iff.mpr row.nonempty)).symm
    have ends : ∀ c ∈ (part.2 ++ marked names).head?, delimiters.has c = false := by
      obtain ⟨c, t, eq⟩ := List.exists_cons_of_ne_nil name.nonempty
      intro d hd
      rw [eq] at hd
      obtain rfl := Option.some.inj hd
      apply name.has
      rw [eq]
      exact List.mem_cons_self
    have whole : marked (part :: names) = part.1 ++ (part.2 ++ marked names) := by simp [marked]
    rw [whole]
    exact .found (noMatch_delimiterAt? own _) (delimiterAt?_row row ends) length
      (ih name.has others)

/-! ## Class names -/

/-- The names behind the block, each with its delimiter. -/
def nameParts (delimiters : Delimiters) (entity : Entity) (words : List Text) :
    List (Text × Text) :=
  entity.elem.toList.map (delimiters.element, ·) ++ words.map (delimiters.modifier, ·)

/-- An entity and the words of a modifier, read off their class. -/
def readClass (delimiters : Delimiters) (class_ : Text) : Entity × List Text :=
  let (block, names) := cut (delimiterAt? delimiters) 0 class_.tail
  let elem := (names.find? (·.1 == delimiters.element)).map (·.2)
  ({ block := named? block, elem }, (names.filter (·.1 == delimiters.modifier)).map (·.2))

/-- An entity and the words of a modifier, all with names that the delimiters can tell apart. -/
structure Delimiters.NamesAll (delimiters : Delimiters) (entity : Entity) (words : List Text) :
    Prop where
  block : ∀ name ∈ entity.block, delimiters.Names name
  elem : ∀ name ∈ entity.elem, delimiters.Names name
  words : ∀ word ∈ words, delimiters.Names word

theorem className_eq {entity : Entity} {words : List Text}
    (h : ∀ word ∈ words, delimiters.Names word) : className delimiters entity words =
      '.' :: (entity.block.getD [] ++ marked (nameParts delimiters entity words)) := by
  have block : Entity.part [] entity.block = entity.block.getD [] := by cases entity.block <;> rfl
  have elem : Entity.part delimiters.element entity.elem =
      marked (entity.elem.toList.map (delimiters.element, ·)) := by
    cases entity.elem <;> simp [Entity.part, marked]
  have modifier : Entity.part delimiters.modifier ((if words = [] then none
      else some (delimit (spaced words) delimiters.modifier)).bind named?) =
        marked (words.map (delimiters.modifier, ·)) := by
    cases words with
    | nil => rfl
    | cons word words =>
      have filled : word ≠ [] := (h word List.mem_cons_self).nonempty
      simp [delimit_spaced h, named?, filled, Entity.part, marked, List.flatMap_map]
  simp only [className, Entity.selector, block, elem, modifier, nameParts, marked,
    List.flatMap_append, List.cons_append, List.append_assoc]

section

variable (modifier : delimiters.modifier ≠ []) (element : delimiters.element ≠ [])
  (differ : delimiters.modifier ≠ delimiters.element)

include modifier element

theorem forall_nameParts {entity : Entity} {words : List Text}
    (h : delimiters.NamesAll entity words) : ∀ part ∈ nameParts delimiters entity words,
      delimiters.Row part.1 ∧ delimiters.Names part.2 := by
  have rows : delimiters.Row delimiters.modifier ∧ delimiters.Row delimiters.element := by
    refine ⟨⟨modifier, ?_⟩, ⟨element, ?_⟩⟩
    · intro c hc
      simp [Delimiters.has, hc]
    · intro c hc
      simp [Delimiters.has, hc]
  intro part mem
  rcases List.mem_append.mp mem with mem | mem
  · obtain ⟨name, own, rfl⟩ := List.mem_map.mp mem
    exact ⟨rows.2, h.elem name (Option.mem_toList.mp own)⟩
  · obtain ⟨word, own, rfl⟩ := List.mem_map.mp mem
    exact ⟨rows.1, h.words word own⟩

include differ

/-- A class name is read back. -/
theorem readClass_className {entity : Entity} {words : List Text}
    (h : delimiters.NamesAll entity words) :
    readClass delimiters (className delimiters entity words) = (entity, words) := by
  have first : ∀ c ∈ entity.block.getD [], delimiters.has c = false := by
    cases own : entity.block with
    | none => nofun
    | some name => exact (h.block name own).has
  have block : named? (entity.block.getD []) = entity.block := by
    cases own : entity.block with
    | none => rfl
    | some name => simp [named?, (h.block name own).nonempty]
  have elem : ((nameParts delimiters entity words).find? (·.1 == delimiters.element)).map (·.2) =
      entity.elem := by
    cases own : entity.elem <;> simp [nameParts, own, differ]
  have others : ((nameParts delimiters entity words).filter (·.1 == delimiters.modifier)).map
      (·.2) = words := by
    cases own : entity.elem <;>
      simp [nameParts, own, List.filter_map, Function.comp_def, differ.symm]
  have cuts := cuts_marked first (forall_nameParts modifier element h)
  rw [className_eq h.words, readClass, List.tail_cons, cuts.eq]
  simp only [block, elem, others]

/-- Different entities, or the same with different words of a modifier, have different class names,
for any two delimiters that differ. -/
theorem className_inj {a b : Entity} {v w : List Text} (ha : delimiters.NamesAll a v)
    (hb : delimiters.NamesAll b w) :
    className delimiters a v = className delimiters b w ↔ a = b ∧ v = w := by
  constructor
  · intro same
    have read := congrArg (readClass delimiters) same
    rw [readClass_className modifier element differ ha,
      readClass_className modifier element differ hb] at read
    exact Prod.mk.inj read
  · rintro ⟨rfl, rfl⟩
    rfl

end

/-- An element is told apart from a word of a modifier where one delimiter is twice the other. -/
theorem className_inj_twice :
    className {} ⟨some ['a'], some ['b']⟩ [['c'], ['d', '-']] = ".a__b_c_d-".toList ∧
    className {} ⟨some ['a'], none⟩ [['b'], ['c'], ['d', '-']] = ".a_b_c_d-".toList ∧
    className {} ⟨some ['a'], some ['b']⟩ [['c'], ['d', '-']] ≠
      className {} ⟨some ['a'], none⟩ [['b'], ['c'], ['d', '-']] := by
  have element : Delimiters.NamesAll {} ⟨some ['a'], some ['b']⟩ [['c'], ['d', '-']] :=
    ⟨by decide, by decide, by decide⟩
  have words : Delimiters.NamesAll {} ⟨some ['a'], none⟩ [['b'], ['c'], ['d', '-']] :=
    ⟨by decide, by decide, by decide⟩
  refine ⟨by decide, by decide, ?_⟩
  intro same
  have apart := (className_inj (by decide) (by decide) (by decide) element words).mp same
  exact absurd apart (by decide)

end BemSheet.Bem
