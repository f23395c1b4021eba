import BemSheet.Proofs.Css.Spelling

/-!
Texts that do not disturb the statements they stand in.

* `openAfter?` reads the brackets of a text and tells which are open after it. It fails where they
  do not match, and where a character that would end or start a statement stands in no parentheses
  and no square brackets.
* A text is `Plain` if nothing in it hides its brackets: no string, escape, comment or address.
* A text is `Safe` if it is plain and leaves no bracket open.
-/

namespace BemSheet.Css

/-! ## Brackets -/

def Bracket.ofLeft? : Char → Option Bracket
  | '(' => some .round
  | '[' => some .square
  | '{' => some .curly
  | _ => none

def Bracket.ofRight? : Char → Option Bracket
  | ')' => some .round
  | ']' => some .square
  | '}' => some .curly
  | _ => none

/-- The characters that end or start a statement or its body. -/
def isGuarded (c : Char) : Bool := c == '{' || c == '}' || c == ';' || c == '@'

/-- The brackets that are open after one more character, innermost first, if it may stand there. A
guarded character may stand only in parentheses or square brackets. -/
def openAfterChar? (opened : List Bracket) (c : Char) : Option (List Bracket) :=
  if isGuarded c && !opened.any (· != .curly) then none
  else
    match Bracket.ofLeft? c, Bracket.ofRight? c, opened with
    | some bracket, _, opened => some (bracket :: opened)
    | none, some bracket, innermost :: outer => if bracket = innermost then some outer else none
    | none, some _, [] => none
    | none, none, opened => some opened

/-- The brackets that are open after a text, innermost first. -/
def openAfter? (opened : List Bracket) (s : Text) : Option (List Bracket) :=
  s.foldlM openAfterChar? opened

theorem openAfter?_append (opened : List Bracket) (a b : Text) :
    openAfter? opened (a ++ b) = (openAfter? opened a).bind (openAfter? · b) :=
  List.foldlM_append

theorem openAfter?_cons (opened : List Bracket) (c : Char) (s : Text) :
    openAfter? opened (c :: s) = (openAfterChar? opened c).bind (openAfter? · s) := rfl

theorem openAfter?_singleton (opened : List Bracket) (c : Char) :
    openAfter? opened [c] = openAfterChar? opened c := by
  rw [openAfter?_cons]
  cases openAfterChar? opened c <;> rfl

/-- The characters that the brackets of a text depend on. -/
def special : List Char := ['(', ')', '[', ']', '{', '}', ';', '@']

/-- A character that passes a test is none of those that fail it. -/
theorem not_mem_of_test {test : Char → Bool} {cs : List Char} (none : ∀ c ∈ cs, test c = false)
    {c : Char} (h : test c = true) : c ∉ cs := by
  intro hc
  rw [none c hc] at h
  cases h

theorem not_special_of {test : Char → Bool} (none : ∀ c ∈ special, test c = false) {c : Char}
    (h : test c = true) : c ∉ special :=
  not_mem_of_test none h

theorem openAfterChar?_of_neutral {c : Char} (h : c ∉ special) (opened : List Bracket) :
    openAfterChar? opened c = some opened := by
  simp only [special, List.mem_cons, List.not_mem_nil, or_false, not_or] at h
  obtain ⟨h1, h2, h3, h4, h5, h6, h7, h8⟩ := h
  have left : Bracket.ofLeft? c = none := by
    unfold Bracket.ofLeft?
    split <;> simp_all
  have right : Bracket.ofRight? c = none := by
    unfold Bracket.ofRight?
    split <;> simp_all
  simp [openAfterChar?, isGuarded, left, right, h5, h6, h7, h8]

theorem openAfter?_of_neutral {s : Text} (h : ∀ c ∈ s, c ∉ special) (opened : List Bracket) :
    openAfter? opened s = some opened := by
  induction s with
  | nil => rfl
  | cons c s ih =>
    obtain ⟨first, others⟩ := List.forall_mem_cons.mp h
    rw [openAfter?_cons, openAfterChar?_of_neutral first, Option.bind_some, ih others]

theorem openAfter?_of_test {test : Char → Bool} (none : ∀ c ∈ special, test c = false) {s : Text}
    (h : ∀ c ∈ s, test c = true) (opened : List Bracket) :
    openAfter? opened s = some opened := by
  apply openAfter?_of_neutral
  intro c hc
  exact not_special_of none (h c hc)

theorem openAfterChar?_left {b : Bracket} {opened after : List Bracket}
    (h : openAfterChar? opened b.left = some after) :
    after = b :: opened ∧ (b = .curly → opened ≠ []) := by
  cases b <;> cases opened <;> simp_all [openAfterChar?, Bracket.left, Bracket.ofLeft?, isGuarded]

theorem openAfterChar?_right {b : Bracket} {opened after : List Bracket}
    (h : openAfterChar? opened b.right = some after) : opened = b :: after := by
  cases b <;> cases opened <;>
    simp_all [openAfterChar?, Bracket.right, Bracket.ofLeft?, Bracket.ofRight?, isGuarded]

theorem openAfterChar?_guarded {c : Char} {opened after : List Bracket}
    (h : openAfterChar? opened c = some after) (guarded : c = ';' ∨ c = '@') :
    after = opened ∧ opened ≠ [] := by
  cases opened with
  | nil => rcases guarded with rfl | rfl <;> simp [openAfterChar?, isGuarded] at h
  | cons bracket outer =>
    refine ⟨?_, List.cons_ne_nil _ _⟩
    rcases guarded with rfl | rfl <;>
      simp [openAfterChar?, Bracket.ofLeft?, Bracket.ofRight?, isGuarded] at h <;> exact h.2.symm

/-! ## What hides brackets -/

/-- The characters that strings, escapes and comments start with. -/
def isHiding (c : Char) : Bool := c == '"' || c == '\'' || c == '\\' || c == '/'

/-- The characters that `isHiding` tells. -/
def hidingChars : List Char := ['"', '\'', '\\', '/']

theorem shown_of_not_mem {c : Char} (h : c ∉ hidingChars) : isHiding c = false := by
  simpa [isHiding, hidingChars, and_assoc] using h

/-- Whether an address starts at the head of a text. -/
def startsUrl (s : Text) : Bool := (s.take 4).map Char.toLower == ['u', 'r', 'l', '(']

/-- Whether an address starts anywhere in a text. -/
def containsUrl : Text → Bool
  | [] => false
  | c :: s => startsUrl (c :: s) || containsUrl s

/-- A text in which nothing hides a bracket. -/
structure Plain (s : Text) : Prop where
  shown : ∀ c ∈ s, isHiding c = false
  no_url : containsUrl s = false

/-- A plain text whose brackets match, in which no guarded character stands outside of parentheses
and square brackets. -/
structure Safe (s : Text) : Prop extends Plain s where
  nested : openAfter? [] s = some []

instance (s : Text) : Decidable (Safe s) :=
  decidable_of_iff
    ((∀ c ∈ s, isHiding c = false) ∧ containsUrl s = false ∧ openAfter? [] s = some [])
    ⟨fun h => ⟨⟨h.1, h.2.1⟩, h.2.2⟩, fun h => ⟨h.shown, h.no_url, h.nested⟩⟩

theorem containsUrl_cons_eq_false {c : Char} {s : Text} (h : containsUrl (c :: s) = false) :
    startsUrl (c :: s) = false ∧ containsUrl s = false :=
  Bool.or_eq_false_iff.mp h

theorem Plain.of_append {a b : Text} (h : Plain (a ++ b)) : Plain b := by
  induction a with
  | nil => exact h
  | cons c a ih =>
    apply ih
    constructor
    · intro d hd
      exact h.shown d (List.mem_cons_of_mem _ hd)
    · exact (containsUrl_cons_eq_false h.no_url).2

theorem Plain.of_suffix {s t : Text} (h : Plain t) (suffix : s <:+ t) : Plain s := by
  obtain ⟨a, rfl⟩ := suffix
  exact h.of_append

/-- Letters, digits, underscores and hyphens. -/
def isPlainChar (c : Char) : Bool := c.isAlphanum || c == '_' || c == '-'

/-! ## Safe texts side by side -/

/-- A character is a lower-case letter in place of an upper-case one, or itself. -/
theorem of_toLower_eq {c d : Char} (h : c.toLower = d) :
    c = d ∨ 65 ≤ c.toNat ∧ c.toNat + 32 = d.toNat := by
  unfold Char.toLower at h
  split at h
  next upper =>
    right
    have low : 65 ≤ c.toNat := UInt32.le_iff_toNat_le.mp upper.1
    have high : c.toNat ≤ 90 := UInt32.le_iff_toNat_le.mp upper.2
    have sum : d.toNat = (c.val + 32).toNat := by
      rw [← h]
      rfl
    have small : c.toNat + 32 < 2 ^ 32 := by omega
    rw [UInt32.toNat_add] at sum
    constructor
    · exact low
    · exact (sum.trans (Nat.mod_eq_of_lt small)).symm
  next =>
    left
    exact h

/-- The characters that addresses start with. -/
def urlChars : List Char := ['u', 'U', 'r', 'R', 'l', 'L', '(']

theorem mem_urlChars {c : Char} (h : c.toLower ∈ ['u', 'r', 'l', '(']) : c ∈ urlChars := by
  have same {d : Char} (eq : c.toNat = d.toNat) : c = d := Char.ext (UInt32.toNat_inj.mp eq)
  simp only [List.mem_cons, List.not_mem_nil, or_false] at h
  rcases h with h | h | h | h <;> rcases of_toLower_eq h with rfl | ⟨low, sum⟩
  case inl.inl | inr.inl.inl | inr.inr.inl.inl | inr.inr.inr.inl => decide
  case inl.inr => exact same (d := 'U') (Nat.add_right_cancel sum) ▸ by decide
  case inr.inl.inr => exact same (d := 'R') (Nat.add_right_cancel sum) ▸ by decide
  case inr.inr.inl.inr => exact same (d := 'L') (Nat.add_right_cancel sum) ▸ by decide
  case inr.inr.inr.inr => exact absurd sum (by show c.toNat + 32 ≠ 40; omega)

/-- No address goes over a character that none starts with. -/
theorem startsUrl_append_cons (a : Text) {c : Char} (h : c ∉ urlChars) (b : Text) :
    startsUrl (a ++ c :: b) = startsUrl a := by
  have other := mt mem_urlChars h
  simp only [List.mem_cons, List.not_mem_nil, or_false, not_or] at other
  match a with
  | [] | [_] | [_, _] | [_, _, _] => simp [startsUrl, other]
  | _ :: _ :: _ :: _ :: _ => rfl

theorem containsUrl_append_cons (a : Text) {c : Char} (h : c ∉ urlChars) (b : Text) :
    containsUrl (a ++ c :: b) = (containsUrl a || containsUrl b) := by
  induction a with
  | nil =>
    have starts : startsUrl (c :: b) = false := startsUrl_append_cons [] h b
    simp [containsUrl, starts]
  | cons d a ih =>
    rw [List.cons_append, containsUrl, containsUrl, ih, ← List.cons_append,
      startsUrl_append_cons _ h, Bool.or_assoc]

/-- A character that may stand between two safe texts. -/
structure Joins (c : Char) : Prop where
  shown : isHiding c = false
  not_special : c ∉ special
  not_url : c ∉ urlChars

theorem Safe.nil : Safe [] := ⟨⟨nofun, rfl⟩, rfl⟩

theorem Safe.join {a b : Text} {c : Char} (ha : Safe a) (hc : Joins c) (hb : Safe b) :
    Safe (a ++ c :: b) where
  shown d hd := by
    rcases List.mem_append.mp hd with hd | hd
    · exact ha.shown d hd
    · rcases List.mem_cons.mp hd with rfl | hd
      · exact hc.shown
      · exact hb.shown d hd
  no_url := by rw [containsUrl_append_cons a hc.not_url, ha.no_url, hb.no_url]; rfl
  nested := by
    rw [openAfter?_append, ha.nested, Option.bind_some, openAfter?_cons,
      openAfterChar?_of_neutral hc.not_special, Option.bind_some, hb.nested]

theorem joins_of_isBlank {c : Char} (h : isBlank c = true) : Joins c := by
  have none : ∀ d ∈ hidingChars ++ special ++ urlChars, isBlank d = false := by decide
  have other := not_mem_of_test none h
  simp only [List.mem_append, not_or] at other
  exact ⟨shown_of_not_mem other.1.1, other.1.2, other.2⟩

/-- A safe text with blanks before it. -/
theorem Safe.blanks_append {blanks s : Text} (h : ∀ c ∈ blanks, isBlank c = true) (hs : Safe s) :
    Safe (blanks ++ s) := by
  induction blanks with
  | nil => exact hs
  | cons c blanks ih =>
    obtain ⟨first, others⟩ := List.forall_mem_cons.mp h
    exact Safe.join Safe.nil (joins_of_isBlank first) (ih others)

/-- A safe text with blanks after it. -/
theorem Safe.append_blanks {s blanks : Text} (hs : Safe s) (h : ∀ c ∈ blanks, isBlank c = true) :
    Safe (s ++ blanks) := by
  cases blanks with
  | nil => rwa [List.append_nil]
  | cons c blanks =>
    obtain ⟨first, others⟩ := List.forall_mem_cons.mp h
    have after := Safe.blanks_append others Safe.nil
    rw [List.append_nil] at after
    exact hs.join (joins_of_isBlank first) after

end BemSheet.Css
