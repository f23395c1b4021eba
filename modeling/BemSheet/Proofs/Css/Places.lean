import BemSheet.Proofs.Css.Spelling
import BemSheet.Css.Outline

/-!
Where the tokens and the statements of a text stand.

Nothing but places depends on the place that a text is read from.

* `tokensFrom_relocate`: if the cursors of two readings stay in step, character by character, the
  tokens are the same but for their places.
* `outlineFrom_congr`: then so are the statements, since grouping tokens and splitting them into
  statements never look at a place.
* `outlineFrom_behind`: behind another text, places are counted on from its end.
-/

namespace BemSheet.Css

/-! ## Tokens, forests and statements at other places -/

section

variable (g : Location → Location)

def Token.relocate (t : Token) : Token := { t with start := g t.start }

namespace Forest

/-- A forest with its tokens at other places. -/
def relocate : Forest → Forest
  | nil => nil
  | leaf token rest => leaf (token.relocate g) rest.relocate
  | block opener body closer rest =>
    block (opener.relocate g) body.relocate (closer.map (Token.relocate g)) rest.relocate

theorem text_relocate (f : Forest) : (f.relocate g).text = f.text := by
  induction f with
  | nil => rfl
  | leaf token rest ih =>
    rw [relocate, text, text, ih]
    rfl
  | block opener body closer rest inner ih =>
    rw [relocate, text, text, inner, ih]
    cases closer <;> rfl

theorem blockText_relocate (opener : Token) (body : Forest) (closer : Option Token) :
    blockText (opener.relocate g) (body.relocate g) (closer.map (Token.relocate g)) =
      blockText opener body closer := by
  rw [blockText, blockText, text_relocate]
  cases closer <;> rfl

end Forest

namespace Continuation

def relocate : {opened : List Bracket} → Continuation opened → Continuation opened
  | [], forest => Forest.relocate g forest
  | _ :: _, ((forest, closer), outer) =>
    ((forest.relocate g, closer.map (Token.relocate g)), relocate outer)

theorem relocate_atEnd (opened : List Bracket) : relocate g (atEnd opened) = atEnd opened := by
  induction opened with
  | nil => rfl
  | cons bracket outer ih => exact congrArg (((.nil, none) : Forest × Option Token), ·) ih

theorem relocate_change (h h' : Forest → Forest)
    (same : ∀ f, (h f).relocate g = h' (f.relocate g)) {opened : List Bracket}
    (c : Continuation opened) : relocate g (change h c) = change h' (relocate g c) := by
  cases opened with
  | nil => exact same c
  | cons bracket outer =>
    obtain ⟨⟨forest, closer⟩, rest⟩ := c
    simp only [change, relocate, same]
    rfl

theorem ofTokens_relocate (opened : List Bracket) (ts : List Token) :
    ofTokens opened (ts.map (Token.relocate g)) = relocate g (ofTokens opened ts) := by
  fun_induction ofTokens opened ts with
  | case1 opened => rw [relocate_atEnd, List.map_nil, ofTokens]
  | case2 token ts bracket opened opens body closer rest eq ih =>
    have opens' : (token.relocate g).opens? = some bracket := opens
    rw [eq] at ih
    rw [List.map_cons, ofTokens.eq_def]
    simp only [opens', ih, relocate]
    exact (relocate_change g (.block token body closer) _ (fun _ => rfl) rest).symm
  | case3 token ts bracket outer opens closes ih =>
    have opens' : (token.relocate g).opens? = none := opens
    have closes' : (token.relocate g).kind = .closer bracket := closes
    rw [List.map_cons, ofTokens.eq_def]
    simp only [opens', closes', ih, ↓reduceIte]
    rfl
  | case4 token ts bracket outer opens other ih =>
    have opens' : (token.relocate g).opens? = none := opens
    have other' : ¬ (token.relocate g).kind = .closer bracket := other
    rw [List.map_cons, ofTokens.eq_def]
    simp only [opens', other', ih, ↓reduceIte]
    exact (relocate_change g (.leaf token) _ (fun _ => rfl) _).symm
  | case5 token ts opens ih =>
    have opens' : (token.relocate g).opens? = none := opens
    rw [List.map_cons, ofTokens.eq_def]
    simp only [opens', ih]
    exact (relocate_change g (.leaf token) _ (fun _ => rfl) _).symm

end Continuation

/-- A list of statements with these at other places. -/
def Outline.relocate : Outline → Outline
  | done after => .done after
  | comment before body closed start rest => .comment before body closed (g start) rest.relocate
  | flat before header start semicolon rest =>
    .flat before header (g start) semicolon rest.relocate
  | nest before header start body closed rest =>
    .nest before header (g start) body.relocate closed rest.relocate

def Ending.relocate : Ending → Ending
  | flat semicolon rest => .flat semicolon (rest.relocate g)
  | nest body closed rest => .nest (body.relocate g) closed (rest.relocate g)

namespace Outline

theorem relocate_id (o : Outline) : o.relocate id = o := by
  induction o with
  | done after => rfl
  | comment before body closed start rest ih | flat before header start semicolon rest ih =>
    rw [relocate, ih]
    rfl
  | nest before header start body closed rest inner ih =>
    rw [relocate, inner, ih]
    rfl

theorem relocate_prepend (gap : Text) (o : Outline) :
    (o.prepend gap).relocate g = (o.relocate g).prepend gap := by
  cases o <;> rfl

theorem relocate_statement (header : Header) (start : Location) (e : Ending) :
    (statement header start e).relocate g = statement header (g start) (e.relocate g) := by
  cases e <;> rfl

theorem ofForest_relocate (f : Forest) :
    ofForest (f.relocate g) = (ofForest f).relocate g ∧
    ∀ custom colon, finish custom colon (f.relocate g) =
      ((finish custom colon f).1, (finish custom colon f).2.relocate g) := by
  induction f with
  | nil =>
    constructor
    · rw [Forest.relocate, ofForest]
      rfl
    · intro custom colon
      rw [Forest.relocate, finish]
      rfl
  | leaf token rest ih =>
    obtain ⟨list, tail⟩ := ih
    constructor
    · obtain ⟨kind, text, start⟩ := token
      cases kind with
      | space | semicolon =>
        simp only [Forest.relocate, Token.relocate, ofForest, list, relocate_prepend]
      | comment => simp only [Forest.relocate, Token.relocate, ofForest, list, relocate]
      | _ =>
        simp only [Forest.relocate, Token.relocate, ofForest, tail, relocate_statement]
        rfl
    · intro custom colon
      by_cases is : token.kind = .semicolon
      · simp only [Forest.relocate, Token.relocate, finish, is, list, ↓reduceIte]
        rfl
      · simp only [Forest.relocate, Token.relocate, finish, is, ↓reduceIte]
        exact congrArg (fun e : Text × Ending => (token.text ++ e.1, e.2)) (tail custom _)
  | block opener body closer rest inner ih =>
    obtain ⟨list, tail⟩ := ih
    constructor
    · by_cases is : opener.kind = .opener .curly
      · simp only [Forest.relocate, Token.relocate, ofForest, is, list, inner.1, ↓reduceIte,
          Option.isSome_map, relocate]
      · have is' : ¬ (opener.relocate g).kind = .opener .curly := is
        simp only [Forest.relocate, ofForest, is, is', ↓reduceIte, Forest.blockText_relocate, tail,
          relocate_statement]
        rfl
    · intro custom colon
      by_cases is : (decide (opener.kind = .opener .curly) && !(custom && colon)) = true
      · have is' : (decide ((opener.relocate g).kind = .opener .curly) &&
            !(custom && colon)) = true := is
        simp only [Forest.relocate, finish, is, is', ↓reduceIte, list, inner.1, Option.isSome_map,
          Ending.relocate]
      · have is' : ¬ (decide ((opener.relocate g).kind = .opener .curly) &&
            !(custom && colon)) = true := is
        simp only [Forest.relocate, finish, is, is', Forest.blockText_relocate, tail]
        rfl

end Outline

end

/-! ## Reading a text from two places -/

/-- If two cursors are in step from the first character on, and being in step puts the tokens to
corresponding places, the tokens are the same but for these places. -/
theorem tokensFrom_relocate {g g' : Location → Location} (InStep : Cursor → Cursor → Prop)
    (places : ∀ {p q}, InStep p q → g p.location = g' q.location)
    (steps : ∀ {p q} (c : Char), InStep p q → InStep (p.step c) (q.step c)) {p q : Cursor}
    (h : InStep p q) (left : Nat) (s : Text) :
    (tokensFrom p left s).map (Token.relocate g) =
      (tokensFrom q left s).map (Token.relocate g') := by
  induction s generalizing p q left with
  | nil => cases left <;> rfl
  | cons c s ih =>
    cases left with
    | succ left => exact ih (steps c h) left
    | zero =>
      rw [tokensFrom_cons, tokensFrom_cons, List.map_cons, List.map_cons, ih (steps c h)]
      congr 1
      exact congrArg (Token.mk (lexeme c s).1 (c :: (lexeme c s).2)) (places h)

/-- No place at all, so that two readings differ in nothing else. -/
def nowhere : Location → Location := fun _ => ⟨0, 0⟩

theorem tokensFrom_nowhere (p q : Cursor) (s : Text) :
    (tokensFrom p 0 s).map (Token.relocate nowhere) =
      (tokensFrom q 0 s).map (Token.relocate nowhere) :=
  tokensFrom_relocate (fun _ _ => True) (fun _ => rfl) (fun _ _ => trivial) trivial 0 s

/-- The statements of a text that is read from the place `p` on. -/
def outlineFrom (p : Cursor) (s : Text) : Outline := .ofForest (.ofTokens (tokensFrom p 0 s))

theorem relocate_ofTokens (g : Location → Location) (ts : List Token) :
    (Outline.ofForest (.ofTokens ts)).relocate g =
      .ofForest (.ofTokens (ts.map (Token.relocate g))) := by
  rw [← (Outline.ofForest_relocate g _).1]
  congr 1
  exact (Continuation.ofTokens_relocate g [] ts).symm

theorem outlineFrom_congr {p q : Cursor} {s : Text} {g g' : Location → Location}
    (h : (tokensFrom p 0 s).map (Token.relocate g) = (tokensFrom q 0 s).map (Token.relocate g')) :
    (outlineFrom p s).relocate g = (outlineFrom q s).relocate g' := by
  rw [outlineFrom, outlineFrom, relocate_ofTokens, relocate_ofTokens, h]

theorem outlineFrom_nowhere (p q : Cursor) (s : Text) :
    (outlineFrom p s).relocate nowhere = (outlineFrom q s).relocate nowhere :=
  outlineFrom_congr (tokensFrom_nowhere p q s)

/-! ## Reading a text behind another -/

/-- The places in a text whose first line goes on at `seam`. If the text is joined, the line break
that it starts with has begun before it. -/
def shifted (seam : Location) (joined : Bool) (l : Location) : Location :=
  if l.line = 1 then ⟨seam.line, seam.column + (l.column - 1)⟩
  else ⟨seam.line + l.line - (if joined then 2 else 1), l.column⟩

/-- The place, in a text with this front, of what stands at `l` in the rest. A carriage return at
the end of the front and a line feed at the head of the rest make one line break. -/
def behind (front rest : Text) (l : Location) : Location :=
  let seam := Cursor.start.through front
  shifted seam.location (seam.afterReturn && rest.head? == some '\n') l

/-- The second cursor has come to the place that the first one is shifted to. -/
structure InStep (seam : Location) (joined : Bool) (p q : Cursor) : Prop where
  line : 1 ≤ p.location.line
  column : 1 ≤ p.location.column
  second : joined = true → 2 ≤ p.location.line
  location : shifted seam joined p.location = q.location
  afterReturn : p.afterReturn = q.afterReturn

namespace InStep

variable {seam : Location} {joined : Bool} {p q : Cursor}

/-- Cursors that are in step are so on the next line. -/
theorem nextLine (h : InStep seam joined p q) (afterReturn : Bool) :
    InStep seam joined ⟨⟨p.location.line + 1, 1⟩, afterReturn⟩
      ⟨⟨q.location.line + 1, 1⟩, afterReturn⟩ := by
  obtain ⟨line, -, second, location, -⟩ := h
  refine ⟨by simp, by simp, fun is => ?_, ?_, rfl⟩
  · have := second is
    simp only
    omega
  · rw [← location, shifted, shifted, if_neg (by simp only; omega)]
    by_cases first : p.location.line = 1
    · have : joined = false := by
        cases joined with
        | false => rfl
        | true => exact absurd (second rfl) (by omega)
      simp [first, this]
    · rw [if_neg first]
      cases joined with
      | false => simp only [Bool.false_eq_true, ↓reduceIte, Location.mk.injEq, and_true]; omega
      | true =>
        have := second rfl
        simp only [↓reduceIte, Location.mk.injEq, and_true]
        omega

theorem step (c : Char) (h : InStep seam joined p q) :
    InStep seam joined (p.step c) (q.step c) := by
  have lines := h.nextLine
  obtain ⟨line, column, second, location, afterReturn⟩ := h
  simp only [Cursor.step, ← afterReturn]
  split
  · split
    · exact ⟨line, column, second, location, rfl⟩
    · exact lines false
  · split
    · exact lines false
    · split
      · exact lines true
      · refine ⟨line, by simp only; omega, second, ?_, rfl⟩
        rw [← location, shifted, shifted]
        split
        · simp only [Location.mk.injEq, true_and]
          omega
        · rfl

end InStep

/-- Behind a carriage return a line starts. -/
theorem column_of_afterReturn (s : Text) {p : Cursor}
    (h : p.afterReturn = true → p.location.column = 1)
    (is : (p.through s).afterReturn = true) : (p.through s).location.column = 1 := by
  induction s generalizing p with
  | nil => exact h is
  | cons c s ih =>
    refine ih ?_ is
    unfold Cursor.step
    split
    · split <;> nofun
    · split
      · nofun
      · split
        · exact fun _ => rfl
        · nofun

/-- From the first character on, a text that is read alone and behind another is read in step. -/
theorem inStep_first (front : Text) (c : Char) (rest : Text) :
    let seam := Cursor.start.through front
    InStep seam.location (seam.afterReturn && (c :: rest).head? == some '\n')
      (Cursor.start.step c) (seam.step c) := by
  intro seam
  by_cases joined : seam.afterReturn = true ∧ c = '\n'
  · obtain ⟨returned, rfl⟩ := joined
    have column : seam.location.column = 1 := column_of_afterReturn front nofun returned
    have stays : seam.step '\n' = ⟨seam.location, false⟩ := by simp [Cursor.step, returned]
    have both : (seam.afterReturn && ('\n' :: rest).head? == some '\n') = true := by
      rw [returned]
      rfl
    rw [both, stays]
    refine ⟨by decide, by decide, fun _ => by decide, ?_, rfl⟩
    calc shifted seam.location true ⟨2, 1⟩
      _ = ⟨seam.location.line, 1⟩ := rfl
      _ = seam.location := by rw [← column]
  · have apart : (seam.afterReturn && (c :: rest).head? == some '\n') = false := by
      simpa using joined
    have same : seam.step c = Cursor.step ⟨seam.location, false⟩ c := by
      unfold Cursor.step
      split
      next feed =>
        have : seam.afterReturn = false := by simpa [feed] using joined
        rw [this]
      next => rfl
    rw [apart, same]
    exact InStep.step c ⟨Nat.le_refl 1, Nat.le_refl 1, nofun, rfl, rfl⟩

/-- The statements of a text are the same behind another, at places behind it. -/
theorem outlineFrom_behind (front rest : Text) : outlineFrom (Cursor.start.through front) rest =
    (outline rest).relocate (behind front rest) := by
  have same : (outlineFrom .start rest).relocate (behind front rest) =
      (outlineFrom (Cursor.start.through front) rest).relocate id := by
    apply outlineFrom_congr
    cases rest with
    | nil => rfl
    | cons c rest =>
      rw [tokensFrom_cons, tokensFrom_cons, List.map_cons, List.map_cons]
      congr 1
      exact tokensFrom_relocate (InStep _ _) InStep.location InStep.step
        (inStep_first front c rest) _ rest
  rw [Outline.relocate_id] at same
  exact same.symm

end BemSheet.Css
