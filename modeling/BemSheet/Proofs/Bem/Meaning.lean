import BemSheet.Bem.Clause
import BemSheet.Proofs.Bem.Piece
import Mathlib.Data.List.Infix

/-!
What the pieces of a clause mean.

The entity at a place of a clause depends only on the names in front of it: the last block, and the
last element behind that block. What a piece stands for follows from that entity and the piece
before it, so a clause can be rendered piece by piece without a state.

* `renderPieces_eq`: the one pass with its state writes what the pieces stand for.
* `exists_class_of_group`, `exists_class_of_name`: no tag is left without a class selector.
-/

namespace BemSheet.Bem

/-! ## The entity at a place -/

namespace Piece

def block? : Piece → Option Text
  | .block name => some name
  | _ => none

def elem? : Piece → Option Text
  | .elem name => some name
  | _ => none

/-- Whether a piece names a block or an element. -/
def isName (p : Piece) : Bool := p.block?.isSome || p.elem?.isSome

end Piece

/-- The entity behind these pieces: the last block, and the last element that follows it. An empty
name is no name. -/
def entityAt (front : List Piece) : Entity where
  block := (front.reverse.findSome? Piece.block?).bind named?
  elem := ((front.reverse.takeWhile (·.block?.isNone)).findSome? Piece.elem?).bind named?

theorem entityAt_block (front : List Piece) (name : Text) :
    entityAt (front ++ [.block name]) = .ofBlock name := by
  rw [entityAt, List.reverse_append]
  rfl

theorem entityAt_elem (front : List Piece) (name : Text) :
    entityAt (front ++ [.elem name]) = (entityAt front).element name := by
  rw [entityAt, List.reverse_append]
  rfl

/-- Pieces that name nothing leave the entity as it is. -/
theorem entityAt_other (front : List Piece) {p : Piece} (h : p.isName = false) :
    entityAt (front ++ [p]) = entityAt front := by
  simp only [Piece.isName, Bool.or_eq_false_iff, Option.isSome_eq_false_iff,
    Option.isNone_iff_eq_none] at h
  simp [entityAt, h]

/-! ## What a piece stands for -/

/-- The class selector at a piece behind `front`: one with the modifier at a modifier, and one
without at a literal right behind a block or an element. -/
def classAt? (delimiters : Delimiters) (front : List Piece) : Piece → Option Text
  | .mod value =>
    some ((entityAt front).selector (delimit value delimiters.modifier) delimiters)
  | .literal _ =>
    if front.getLast?.any Piece.isName then some ((entityAt front).selector none delimiters)
    else none
  | _ => none

/-- The text that a piece keeps. -/
def Piece.kept : Piece → Text
  | .literal text => text
  | _ => []

def standsFor (delimiters : Delimiters) (front : List Piece) (p : Piece) : Text :=
  (classAt? delimiters front p).getD [] ++ p.kept

/-- What the pieces behind `front` stand for, each with all the pieces in front of it. -/
def meaning (delimiters : Delimiters) (front ps : List Piece) : Text :=
  (ps.inits.zip ps).flatMap fun (between, p) => standsFor delimiters (front ++ between) p

variable (delimiters : Delimiters)

theorem meaning_cons (front : List Piece) (p : Piece) (ps : List Piece) :
    meaning delimiters front (p :: ps) =
      standsFor delimiters front p ++ meaning delimiters (front ++ [p]) ps := by
  simp [meaning, List.zip_map_left, List.flatMap_map]

/-- The state of the one pass is what the pieces in front of it say. -/
theorem renderPieces_eq (front ps : List Piece) :
    renderPieces delimiters (entityAt front) (front.getLast?.any Piece.isName) ps =
      meaning delimiters front ps := by
  induction ps generalizing front with
  | nil => rfl
  | cons p ps ih =>
    have rest := ih (front ++ [p])
    rw [List.getLast?_concat, Option.any_some] at rest
    rw [meaning_cons, ← rest]
    cases p with
    | literal text =>
      rw [renderPieces, entityAt_other front rfl]
      cases named : front.getLast?.any Piece.isName <;> simp [standsFor, classAt?, named] <;> rfl
    | block name =>
      rw [renderPieces, entityAt_block]
      rfl
    | elem name =>
      rw [renderPieces, entityAt_elem]
      rfl
    | mod value =>
      rw [renderPieces, entityAt_other front rfl]
      simp [standsFor, classAt?]
      rfl

/-- The state behind a row of pieces is what they say, so that the pass goes on from there. -/
theorem renderPieces_append (front ps more : List Piece) :
    renderPieces delimiters (entityAt front) (front.getLast?.any Piece.isName) (ps ++ more) =
      meaning delimiters front ps ++ renderPieces delimiters (entityAt (front ++ ps))
        ((front ++ ps).getLast?.any Piece.isName) more := by
  rw [renderPieces_eq, renderPieces_eq]
  induction ps generalizing front with
  | nil => simp [meaning]
  | cons p ps ih => simp [meaning_cons, ih (front ++ [p])]

/-! ## Every tag gets a class -/

/-- Right behind a name, a piece that is no name itself writes a class selector. -/
theorem classAt?_isSome (front : List Piece) {p q : Piece} (hp : p.isName = true)
    (hq : q.isName = false) : (classAt? delimiters (front ++ [p]) q).isSome = true := by
  cases q with
  | literal text => rw [classAt?, List.getLast?_concat, Option.any_some, if_pos hp]; rfl
  | mod value => rfl
  | block name | elem name => cases hq

/-- A row of tags up to a literal writes a class selector: at its last tag, if that is a modifier,
and else at the literal. -/
theorem exists_class_of_group (front : List Piece) {group : List Piece} (last : Text)
    (nonempty : group ≠ []) (tags : ∀ p ∈ group, p.keyword? ≠ none) :
    ∃ before p after, group ++ [.literal last] = before ++ p :: after ∧
      (classAt? delimiters (front ++ before) p).isSome = true := by
  obtain rfl | ⟨before, p, rfl⟩ := List.eq_nil_or_concat group
  · exact absurd rfl nonempty
  · rw [List.concat_eq_append] at tags ⊢
    cases p with
    | literal text => exact absurd rfl (tags _ List.mem_concat_self)
    | mod value => exact ⟨before, .mod value, [.literal last], List.append_assoc .., rfl⟩
    | block name | elem name =>
      refine ⟨before ++ [_], .literal last, [], rfl, ?_⟩
      rw [← List.append_assoc]
      exact classAt?_isSome delimiters _ rfl rfl

/-- Whether a piece takes the place of a name in the entity. -/
def Piece.overwrites (next p : Piece) : Bool :=
  next.block?.isSome || (next.elem?.isSome && p.elem?.isSome)

/-- An entity with the name that a piece gives. -/
def Entity.Includes (entity : Entity) : Piece → Prop
  | .block name => entity.block = named? name
  | .elem name => entity.elem = named? name
  | _ => False

theorem names_of_meets {p q : Piece} (h : Meets p q) (hp : p.isName = true) (hq : q.isName = true) :
    (∃ name, p = .block name) ∧ ∃ name, q = .elem name := by
  cases p with
  | block name =>
    cases q with
    | elem name' => exact ⟨⟨name, rfl⟩, name', rfl⟩
    | block => cases h
    | mod | literal => cases hq
  | elem name =>
    cases q with
    | block | elem => cases h
    | mod | literal => cases hq
  | mod | literal => cases hp

theorem includes_entityAt (front : List Piece) {p : Piece} (h : p.isName = true) :
    (entityAt (front ++ [p])).Includes p := by
  cases p with
  | block name => rw [entityAt_block]; rfl
  | elem name => rw [entityAt_elem]; rfl
  | mod value | literal text => cases h

/-- Every name of a clause gets into a class selector before another takes its place. -/
theorem exists_class_of_name (clause : Text) {front back : List Piece} {p : Piece}
    (whole : pieces clause = front ++ p :: back) (names : p.isName = true) :
    ∃ between q rest, back = between ++ q :: rest ∧ (∀ r ∈ between, r.overwrites p = false) ∧
      (entityAt (front ++ p :: between)).Includes p ∧
      (classAt? delimiters (front ++ p :: between) q).isSome = true := by
  have meets := meets_pieces clause
  obtain ⟨-, last, ends⟩ := ends_pieces clause
  rw [whole] at meets ends
  replace meets := meets.right_of_append
  rw [List.getLast?_append_cons] at ends
  cases back with
  | nil =>
    obtain rfl := Option.some.inj ends
    cases names
  | cons q back =>
    obtain ⟨first, behind⟩ := List.isChain_cons_cons.mp meets
    cases names' : q.isName with
    | false =>
      exact ⟨[], q, back, rfl, nofun, includes_entityAt front names,
        classAt?_isSome delimiters front names names'⟩
    | true =>
      -- a block and its element: what follows them is no name
      obtain ⟨⟨block, rfl⟩, elem, rfl⟩ := names_of_meets first names names'
      cases back with
      | nil => cases ends
      | cons next back =>
        have other : next.isName = false := by
          rw [Bool.eq_false_iff]
          intro third
          obtain ⟨⟨_, eq⟩, -⟩ :=
            names_of_meets (List.isChain_cons_cons.mp behind).1 names' third
          cases eq
        have own : entityAt (front ++ [.block block, .elem elem]) =
            (Entity.ofBlock block).element elem := by
          rw [← entityAt_block front, ← entityAt_elem, List.append_assoc]
          rfl
        have class_ := classAt?_isSome delimiters (front ++ [.block block]) names' other
        rw [List.append_assoc] at class_
        refine ⟨[.elem elem], next, back, rfl, ?_, ?_, class_⟩
        · intro r hr
          rw [List.mem_singleton.mp hr]
          rfl
        · rw [own]
          rfl

theorem last_of_pieces (clause : Text) : (pieces clause).getLast?.any Piece.isName = false := by
  obtain ⟨-, last, ends⟩ := ends_pieces clause
  rw [ends]
  rfl

/-- A clause is written as what its pieces stand for, each by the names in front of it. Every row of
tags writes a class selector, every name gets into one before another takes its place, no name waits
for its class selector behind the clause, and a modifier changes nothing for later pieces. -/
theorem renderClause_meaning (clause : Text) :
    renderClause delimiters clause = meaning delimiters [] (pieces clause) ∧
    (∀ front first group last back,
      pieces clause = front ++ .literal first :: (group ++ .literal last :: back) → group ≠ [] →
        (∀ p ∈ group, p.keyword? ≠ none) →
        ∃ before p after, group ++ [.literal last] = before ++ p :: after ∧
          (classAt? delimiters (front ++ .literal first :: before) p).isSome = true) ∧
    (∀ front p back, pieces clause = front ++ p :: back → p.isName = true →
      ∃ between q rest, back = between ++ q :: rest ∧ (∀ r ∈ between, r.overwrites p = false) ∧
        (entityAt (front ++ p :: between)).Includes p ∧
        (classAt? delimiters (front ++ p :: between) q).isSome = true) ∧
    (∀ more, renderPieces delimiters {} false (pieces clause ++ more) =
      renderClause delimiters clause ++
        renderPieces delimiters (entityAt (pieces clause)) false more) ∧
    ∀ front value, entityAt (front ++ [.mod value]) = entityAt front := by
  have last := last_of_pieces clause
  refine ⟨renderPieces_eq delimiters [] _, ?_, ?_, ?_, ?_⟩
  · intro front first group last back _ nonempty tags
    have found := exists_class_of_group delimiters (front ++ [.literal first]) last nonempty tags
    simpa only [List.append_assoc, List.singleton_append] using found
  · intro front p back whole names
    exact exists_class_of_name delimiters clause whole names
  · intro more
    have all := renderPieces_append delimiters [] (pieces clause) more
    rw [List.nil_append, last, ← renderPieces_eq] at all
    exact all
  · intro front value
    exact entityAt_other front rfl

/-- The block gets into the class selector that the literal behind the element writes. -/
theorem renderClause_meaning_joined :
    (∃ between q rest, [.elem ['b'], .literal ['x']] = between ++ q :: rest ∧
      (∀ r ∈ between, r.overwrites (.block ['a']) = false) ∧
      (entityAt ([.literal []] ++ .block ['a'] :: between)).Includes (.block ['a']) ∧
      (classAt? {} ([.literal []] ++ .block ['a'] :: between) q).isSome = true) ∧
    ∃ before p after, [.block ['a'], .elem ['b']] ++ [.literal ['x']] = before ++ p :: after ∧
      (classAt? {} ([] ++ .literal [] :: before) p).isSome = true :=
  ⟨(renderClause_meaning {} "block(a) elem(b)x".toList).2.2.1 _ _ _ (by decide) rfl,
    (renderClause_meaning {} "block(a) elem(b)x".toList).2.1 _ _ _ _ [] (by decide) nofun
      (by decide)⟩

end BemSheet.Bem
