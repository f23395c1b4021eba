import BemSheet.Text

/-!
Taking blanks off a text.

The blanks at either end of a text and the trimmed text between them are unique: cutting finds the
parts that were put together (`cut_of_parts`), and what it finds are such parts (`parts_of_cut`).
-/

namespace BemSheet.Text

def Blank (s : Text) : Prop := ∀ c ∈ s, isBlank c = true

/-- A text that does not end with a blank. -/
def EndsFilled (s : Text) : Prop := ∀ c ∈ s.getLast?, isBlank c = false

/-- A text that neither starts nor ends with a blank. -/
structure Trimmed (s : Text) : Prop where
  first : ∀ c ∈ s.head?, isBlank c = false
  last : EndsFilled s

instance (s : Text) : Decidable (Blank s) :=
  inferInstanceAs (Decidable (∀ c ∈ s, isBlank c = true))

instance (s : Text) : Decidable (EndsFilled s) :=
  inferInstanceAs (Decidable (∀ c ∈ s.getLast?, isBlank c = false))

instance (s : Text) : Decidable (Trimmed s) :=
  decidable_of_iff ((∀ c ∈ s.head?, isBlank c = false) ∧ EndsFilled s)
    ⟨fun h => ⟨h.1, h.2⟩, fun h => ⟨h.first, h.last⟩⟩

theorem blank_leading (s : Text) : Blank s.leading := by
  intro c hc
  exact List.all_eq_true.mp List.all_takeWhile c hc

theorem trimStart_first (s : Text) : ∀ c ∈ s.trimStart.head?, isBlank c = false := by
  intro c hc
  have stop := List.head?_dropWhile_not isBlank s
  simp only [trimStart, Option.mem_def] at hc
  simpa [hc] using stop

/-! ## The end of a text -/

theorem endsFilled_append_cons (a : Text) {c : Char} {b : Text} :
    EndsFilled (a ++ c :: b) ↔ EndsFilled (c :: b) := by
  have last : (a ++ c :: b).getLast? = (c :: b).getLast? := by
    rw [List.getLast?_append]
    cases eq : (c :: b).getLast? with
    | none => simp at eq
    | some d => rfl
  simp only [EndsFilled, last]

theorem endsFilled_append {a b : Text} (ha : EndsFilled a) (hb : EndsFilled b) :
    EndsFilled (a ++ b) := by
  cases b with
  | nil => rwa [List.append_nil]
  | cons c b => exact (endsFilled_append_cons a).mpr hb

theorem EndsFilled.of_append {a b : Text} (h : EndsFilled (a ++ b)) : EndsFilled b := by
  cases b with
  | nil => nofun
  | cons c b => exact (endsFilled_append_cons a).mp h

theorem blank_splitEnd (s : Text) : Blank s.splitEnd.2 := by
  induction s with
  | nil => nofun
  | cons c s ih =>
    rw [splitEnd]
    split
    next blanks eq =>
      rw [eq] at ih
      by_cases blank : isBlank c = true
      · rw [if_pos blank]
        exact List.forall_mem_cons.mpr ⟨blank, ih⟩
      · rw [if_neg blank]
        exact ih
    next body blanks _ eq =>
      rw [eq] at ih
      exact ih

theorem splitEnd_last (s : Text) : EndsFilled s.splitEnd.1 := by
  induction s with
  | nil => nofun
  | cons c s ih =>
    rw [splitEnd]
    split
    next blanks eq =>
      by_cases blank : isBlank c = true
      · rw [if_pos blank]
        intro d hd
        cases hd
      · rw [if_neg blank]
        intro d hd
        obtain rfl : c = d := by simpa using hd
        simpa using blank
    next body blanks nonempty eq =>
      rw [eq] at ih
      cases body with
      | nil => exact (nonempty rfl).elim
      | cons d body => exact (endsFilled_append_cons [c]).mpr ih

theorem splitEnd_of_blank {blanks : Text} (h : Blank blanks) : blanks.splitEnd = ([], blanks) := by
  induction blanks with
  | nil => rfl
  | cons c blanks ih =>
    obtain ⟨first, others⟩ := List.forall_mem_cons.mp h
    rw [splitEnd, ih others]
    simp [first]

theorem splitEnd_of_parts {s blanks : Text} (last : EndsFilled s) (h : Blank blanks) :
    (s ++ blanks).splitEnd = (s, blanks) := by
  induction s with
  | nil => exact splitEnd_of_blank h
  | cons c s ih =>
    rw [List.cons_append, splitEnd]
    cases s with
    | nil =>
      have filled : isBlank c = false := last c rfl
      simp [splitEnd_of_blank h, filled]
    | cons d s =>
      rw [ih ((endsFilled_append_cons [c]).mp last)]

/-! ## Both ends of a text -/

theorem leading_of_parts {blanks s : Text} (h : Blank blanks)
    (first : ∀ c ∈ s.head?, isBlank c = false) :
    leading (blanks ++ s) = blanks ∧ trimStart (blanks ++ s) = s := by
  induction blanks with
  | nil =>
    cases s with
    | nil => exact ⟨rfl, rfl⟩
    | cons c s =>
      have filled : isBlank c = false := first c rfl
      simp [leading, trimStart, filled]
  | cons c blanks ih =>
    obtain ⟨blank, others⟩ := List.forall_mem_cons.mp h
    obtain ⟨lead, rest⟩ := ih others
    rw [leading] at lead
    rw [trimStart] at rest
    simp [leading, trimStart, blank, lead, rest]

/-- Blanks, a trimmed text and blanks again are found where they are, if there are none behind an
empty text. -/
theorem cut_of_parts {front s back : Text} (hf : Blank front) (hs : Trimmed s) (hb : Blank back)
    (empty : s = [] → back = []) : leading (front ++ s ++ back) = front ∧
      (trimStart (front ++ s ++ back)).splitEnd = (s, back) := by
  have first : ∀ c ∈ (s ++ back).head?, isBlank c = false := by
    cases s with
    | nil => rw [empty rfl]; nofun
    | cons c s => exact hs.first
  obtain ⟨lead, rest⟩ := leading_of_parts hf first
  rw [List.append_assoc, lead, rest]
  exact ⟨rfl, splitEnd_of_parts hs.last hb⟩

/-- What is found in a text: blanks, a trimmed text and blanks again, of which there are none behind
an empty text. -/
theorem parts_of_cut (s : Text) : Blank s.leading ∧ Trimmed s.trimStart.splitEnd.1 ∧
    Blank s.trimStart.splitEnd.2 ∧ (s.trimStart.splitEnd.1 = [] → s.trimStart.splitEnd.2 = []) := by
  have whole := splitEnd_append s.trimStart
  have last := splitEnd_last s.trimStart
  have blanks := blank_splitEnd s.trimStart
  have first := trimStart_first s
  generalize s.trimStart.splitEnd = parts at whole last blanks ⊢
  obtain ⟨body, back⟩ := parts
  simp only at whole last blanks ⊢
  rw [← whole] at first
  refine ⟨blank_leading s, ⟨?_, last⟩, blanks, ?_⟩
  · cases body with
    | nil => nofun
    | cons c body => exact first
  · intro empty
    subst empty
    cases back with
    | nil => rfl
    | cons c back =>
      have filled : isBlank c = false := first c rfl
      rw [blanks c List.mem_cons_self] at filled
      cases filled

theorem parts_of_trim {s middle : Text} (h : s.trim = middle) :
    ∃ front back, Blank front ∧ Blank back ∧ s = front ++ middle ++ back := by
  obtain ⟨front, -, back, -⟩ := parts_of_cut s
  refine ⟨s.leading, s.trimStart.splitEnd.2, front, back, ?_⟩
  rw [← h, trim, List.append_assoc, splitEnd_append, leading_append]

/-- The first word of a text, between the blanks before it and a blank or the end. A text of blanks
counts as its own first word. -/
inductive FirstWord : (s word : Text) → Prop
  | word {blanks word back : Text} (blank : Blank blanks) (nonempty : word ≠ [])
    (filled : ∀ c ∈ word, isBlank c = false) (ends : ∀ c ∈ back.head?, isBlank c = true) :
    FirstWord (blanks ++ word ++ back) word
  | blank {s : Text} (blank : Blank s) : FirstWord s s

theorem takeWhile_of_word {word back : Text} (filled : ∀ c ∈ word, isBlank c = false)
    (ends : ∀ c ∈ back.head?, isBlank c = true) :
    (word ++ back).takeWhile (fun c => !isBlank c) = word := by
  rw [List.takeWhile_append_of_pos (by simpa using filled)]
  cases back with
  | nil => simp
  | cons c back =>
    have blank : isBlank c = true := ends c rfl
    simp [blank]

/-- The characters of a text up to its first blank, and what stands from there on. -/
theorem word_of_takeWhile (s : Text) : ∃ back, s = s.takeWhile (fun c => !isBlank c) ++ back ∧
    (∀ c ∈ s.takeWhile (fun c => !isBlank c), isBlank c = false) ∧
      ∀ c ∈ back.head?, isBlank c = true := by
  refine ⟨s.dropWhile fun c => !isBlank c, List.takeWhile_append_dropWhile.symm, ?_, ?_⟩
  · intro c hc
    simpa using List.all_eq_true.mp List.all_takeWhile c hc
  · intro c hc
    have stop := List.head?_dropWhile_not (fun c => !isBlank c) s
    rw [Option.mem_def] at hc
    rw [hc] at stop
    simpa using stop

/-- Every text has one first word, which is the one that `firstWord?` finds. -/
theorem firstWord_iff {s word : Text} : FirstWord s word ↔ s.firstWord?.getD s = word := by
  constructor
  · intro h
    cases h with
    | @word blanks word back blank nonempty filled ends =>
      have first : ∀ c ∈ (word ++ back).head?, isBlank c = false := by
        cases word with
        | nil => exact absurd rfl nonempty
        | cons c word => exact fun d hd => filled d (List.mem_of_mem_head? hd)
      have found := takeWhile_of_word filled ends
      rw [List.append_assoc, firstWord?, (leading_of_parts blank first).2]
      cases eq : word ++ back with
      | nil => exact absurd (List.append_eq_nil_iff.mp eq).1 nonempty
      | cons c t => simpa [eq] using found
    | blank blank =>
      have nothing := (leading_of_parts (s := []) blank nofun).2
      rw [List.append_nil] at nothing
      rw [firstWord?, nothing]
      rfl
  · intro h
    subst h
    have whole := leading_append s
    have lead := blank_leading s
    have first := trimStart_first s
    rw [firstWord?]
    cases eq : s.trimStart with
    | nil =>
      rw [eq, List.append_nil] at whole
      exact .blank (whole ▸ lead)
    | cons c t =>
      rw [eq] at first whole
      have filled : isBlank c = false := first c rfl
      obtain ⟨back, parts, all, ends⟩ := word_of_takeWhile (c :: t)
      have split := FirstWord.word lead (by simp [filled]) all ends
      rwa [List.append_assoc, ← parts, whole] at split

theorem trim_of_parts {front s back : Text} (hf : Blank front) (hs : Trimmed s) (hb : Blank back)
    (nonempty : s ≠ []) : (front ++ s ++ back).trim = s := by
  rw [trim, (cut_of_parts hf hs hb fun empty => absurd empty nonempty).2]

end BemSheet.Text
