import BemSheet.Css.Name

/-!
Quoted strings and the contents of `url(`.
-/

namespace BemSheet.Css

/-! ## Strings -/

/-- The number of characters of one step inside a string: an escape, an escaped line break, or a
character other than the quote and a line break. -/
def stringUnit (quote : Char) : Text → Nat
  | [] => 0
  | c :: s =>
    if c = '\\' then if startsWith isNewline s then 1 + newlineLength s else escapeLength s
    else if c = quote || isNewline c then 0 else 1

/-- What follows the opening quote: the contents, and the same quote unless a bare line break or the
end comes first. -/
def stringTail (quote : Char) (s : Text) : Text :=
  let contents := Text.run (stringUnit quote) 0 s
  if startsWith (· == quote) (Text.after contents s) then contents ++ [quote] else contents

/-! ## Addresses -/

def isControl (c : Char) : Bool :=
  let n := c.toNat
  (1 ≤ n && n ≤ 8) || n == 0x0B || (0x0E ≤ n && n ≤ 0x1F) || n == 0x7F

/-- The number of characters of one step inside an unquoted address. -/
def urlUnit : Text → Nat
  | [] => 0
  | c :: s =>
    if c = '\\' then if startsWith isNewline s then 0 else escapeLength s
    else if c = ')' || c = '"' || c = '\'' || c = '(' || isSpace c || isControl c then 0
    else 1

/-- The number of characters of one step inside a broken address, which ends at its first
parenthesis that no backslash stands before. -/
def brokenUrlUnit : Text → Nat
  | [] => 0
  | c :: s =>
    if c = ')' then 0
    else if c = '\\' && startsWith (fun d => d == ')' || d == '\\') s then 2
    else 1

/-- The closing parenthesis, where a text starts with one. -/
def closing (s : Text) : Text := if startsWith (· == ')') s then [')'] else []

/-- What ends an address: its parenthesis, or the end of the text. Any other character breaks the
address, which then goes on to its parenthesis. -/
def urlEnd : Text → Text
  | [] => []
  | c :: s =>
    if c = ')' then [c]
    else
      let broken := Text.run brokenUrlUnit 0 s
      c :: broken ++ closing (Text.after broken s)

/-- What follows `url(` in one token. If a quote comes first, no address follows but an argument. -/
def urlTail? (s : Text) : Option Text :=
  let lead := s.takeWhile isSpace
  let rest := s.dropWhile isSpace
  if startsWith (fun c => c == '"' || c == '\'') rest then none
  else
    let address := Text.run urlUnit 0 rest
    let rest := Text.after address rest
    some (lead ++ address ++ rest.takeWhile isSpace ++ urlEnd (rest.dropWhile isSpace))

/-! ## Every reader takes a piece at the head of its text -/

theorem stringTail_isPrefix (quote : Char) (s : Text) : stringTail quote s <+: s := by
  simp only [stringTail]
  split
  next h =>
    exact Text.append_isPrefix (Text.run_isPrefix _ _ _) (singleton_isPrefix_of_startsWith h)
  next => exact Text.run_isPrefix _ _ _

theorem closing_isPrefix (s : Text) : closing s <+: s := by
  unfold closing
  split
  next h => exact singleton_isPrefix_of_startsWith h
  next => exact List.nil_prefix

theorem urlEnd_isPrefix (s : Text) : urlEnd s <+: s := by
  cases s with
  | nil => exact List.nil_prefix
  | cons c s =>
    simp only [urlEnd]
    split
    · exact List.cons_prefix_cons.mpr ⟨rfl, List.nil_prefix⟩
    · exact List.cons_prefix_cons.mpr
        ⟨rfl, Text.append_isPrefix (Text.run_isPrefix _ _ _) (closing_isPrefix _)⟩

theorem urlTail?_isPrefix {s tail : Text} (h : urlTail? s = some tail) : tail <+: s := by
  simp only [urlTail?] at h
  split at h
  · cases h
  · obtain rfl := Option.some.inj h
    simp only [List.append_assoc]
    exact Text.takeWhile_append_isPrefix (Text.append_isPrefix (Text.run_isPrefix _ _ _)
      (Text.takeWhile_append_isPrefix (urlEnd_isPrefix _)))

end BemSheet.Css
