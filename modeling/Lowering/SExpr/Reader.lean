import Lowering.SExpr.Basic
import Lowering.SExpr.Blank
import Lowering.Text.Literal

/-!
# Reading S-expressions

Words end at blanks, control characters, parentheses and semicolons. A word that starts like a number is an
integer if it is a literal, out of range if its value does not fit, and a plain word otherwise. Readers take
the text from a position on together with the position, and say where they stopped.
-/

namespace Lowering

/-! ### Errors -/

/-- What a reader did not find. -/
inductive ReadProblem where
  | expected (text : Text)
  | noAtom
  | noInt
  /-- The literal is out of range. -/
  | range (literal : Text)
  | unclosed
  /-- None of the alternatives fits. -/
  | noneOf (names : List Text)
  deriving DecidableEq, Repr

/-- The alternatives as a phrase. -/
def alternativesText : List Text → Text
  | [] => "<none>"
  | [name] => name
  | names => Text.join ", " names.dropLast ++ " or " ++ (names.getLast?.getD [])

/-- The text of a problem. -/
def ReadProblem.message : ReadProblem → Text
  | .expected text => text.quoted ++ " expected"
  | .noAtom => "Atom expected"
  | .noInt => "Int expected"
  | .range literal => "strconv.ParseInt: parsing " ++ literal.quoted ++ ": value out of range"
  | .unclosed => "unclosed list"
  | .noneOf names => "expected " ++ alternativesText names

/-- Where in the grammar a problem arose. -/
inductive ReadStep where
  | item (index : Nat)
  | form (index : Nat)
  | before
  | after
  | number
  /-- Inside the alternative of the given name. -/
  | inside (name : Text)
  deriving DecidableEq, Repr

def ReadStep.text : ReadStep → Text
  | .item index => "item " ++ Text.ofNat index
  | .form index => "form " ++ Text.ofNat index
  | .before => "pre"
  | .after => "post"
  | .number => "int"
  | .inside name => name

/-- A problem, the position where it showed and the steps that led to it, outermost first. -/
structure ReadError where
  pos : Nat
  path : List ReadStep := []
  problem : ReadProblem
  deriving DecidableEq, Repr

namespace ReadError

/-- Puts further steps around an error. -/
def within (e : ReadError) (steps : List ReadStep) : ReadError := { e with path := steps ++ e.path }

/-- The text of an error, without its position. -/
def message (e : ReadError) : Text :=
  Text.join ": " (e.path.map ReadStep.text ++ [e.problem.message])

end ReadError

/-! ### Words -/

namespace SExpr

def openParen : UInt8 := 40

def closeParen : UInt8 := 41

/-- Is the byte part of a word? -/
def isWordByte (b : UInt8) : Bool :=
  32 < b && b != 0x7f && b != openParen && b != closeParen && b != 59

/-- The word that a text starts with. -/
def wordOf (rest : Text) : Text := rest.takeWhile isWordByte

/-- Does the text start with a digit or with a minus sign and a digit? -/
def startsLikeInt : Text → Bool
  | 45 :: d :: _ => Text.isDigit d
  | d :: _ => Text.isDigit d
  | [] => false

/-- Reads a word. -/
def readAtom (rest : Text) (pos : Nat) : Except ReadError (SExpr × Nat) :=
  let word := wordOf rest
  if word.isEmpty then .error { pos, problem := .noAtom }
  else .ok (.atom ⟨pos, pos + word.length⟩ word, pos + word.length)

/-- Reads an integer. -/
def readInt (rest : Text) (pos : Nat) : Except ReadError (SExpr × Nat) :=
  if startsLikeInt rest then
    let word := wordOf rest
    match Text.readInt word with
    | .ok value => .ok (.int ⟨pos, pos + word.length⟩ value, pos + word.length)
    | .error .outOfRange =>
      .error { pos := pos + word.length, path := [.number], problem := .range word }
    | .error .malformed => .error { pos, problem := .noInt }
  else .error { pos, problem := .noInt }

/-- The names of the alternatives for an expression. -/
def alternatives : List Text := ["parse.List", "parse.Int", "parse.Atom"]

/-- Reads an expression that is no list. -/
def readLeaf (rest : Text) (pos : Nat) : Except ReadError (SExpr × Nat) :=
  match readInt rest pos with
  | .ok found => .ok found
  | .error e =>
    if e.pos ≠ pos then .error (e.within [.inside "parse.Int"])
    else
      match readAtom rest pos with
      | .ok found => .ok found
      | .error _ => .error { pos, problem := .noneOf alternatives }

theorem lt_of_readAtom {rest : Text} {pos stop : Nat} {x : SExpr} (h : readAtom rest pos = .ok (x, stop)) :
    pos < stop := by
  unfold readAtom at h
  dsimp only at h
  split at h
  · cases h
  · next hword =>
    cases h
    exact Nat.lt_add_of_pos_right (List.length_pos_iff.mpr (mt List.isEmpty_iff.mpr hword))

theorem lt_of_readInt {rest : Text} {pos stop : Nat} {x : SExpr} (h : readInt rest pos = .ok (x, stop)) :
    pos < stop := by
  unfold readInt at h
  dsimp only at h
  split at h
  · split at h
    · next hvalue =>
      cases h
      refine Nat.lt_add_of_pos_right (List.length_pos_iff.mpr fun hword => ?_)
      rw [hword] at hvalue
      cases hvalue
    · cases h
    · cases h
  · cases h

/-- An expression that is no list has at least one byte. -/
theorem lt_of_readLeaf {rest : Text} {pos stop : Nat} {x : SExpr} (h : readLeaf rest pos = .ok (x, stop)) :
    pos < stop := by
  unfold readLeaf at h
  split at h
  · next hint =>
    cases h
    exact lt_of_readInt hint
  · split at h
    · cases h
    · split at h
      · next hatom =>
        cases h
        exact lt_of_readAtom hatom
      · cases h

/-! ### Lists -/

/-- Reads the items of a list up to its closing parenthesis, the first one being number `index`. Yields the
items and the number of bytes before the parenthesis. -/
def readItems (rest : Text) (pos index : Nat) : Except ReadError (List SExpr × Nat) :=
  let k := Skipper.blank.count rest
  match _h : rest.drop k with
  | [] => .error { pos := pos + k, problem := .unclosed }
  | c :: cs =>
    if c = closeParen then .ok ([], k)
    else if c = openParen then
      match readItems cs (pos + k + 1) 0 with
      | .error e => .error (e.within [.item index, .inside "parse.List"])
      | .ok (inner, n) =>
        match readItems (cs.drop (n + 1)) (pos + k + n + 2) (index + 1) with
        | .error e => .error e
        | .ok (items, m) => .ok (.list ⟨pos + k, pos + k + n + 2⟩ inner :: items, k + n + 2 + m)
    else
      match _hleaf : readLeaf (c :: cs) (pos + k) with
      | .error e => .error (e.within [.item index])
      | .ok (leaf, stop) =>
        match readItems ((c :: cs).drop (stop - (pos + k))) stop (index + 1) with
        | .error e => .error e
        | .ok (items, m) => .ok (leaf :: items, stop - pos + m)
termination_by rest.length
decreasing_by
  all_goals
    have hlength := congrArg List.length _h
    simp only [List.length_drop, List.length_cons] at hlength ⊢
  · omega
  · omega
  · have hprogress := lt_of_readLeaf _hleaf
    omega

/-- The error where no list starts. -/
def noList (pos : Nat) : ReadError := { pos, path := [.before], problem := .expected "(" }

/-- Reads a list. -/
def readList (rest : Text) (pos : Nat) : Except ReadError (SExpr × Nat) :=
  match rest with
  | [] => .error (noList pos)
  | c :: cs =>
    if c = openParen then
      match readItems cs (pos + 1) 0 with
      | .error e => .error e
      | .ok (items, n) => .ok (.list ⟨pos, pos + n + 2⟩ items, pos + n + 2)
    else .error (noList pos)

/-- A list has at least its parentheses. -/
theorem lt_of_readList {rest : Text} {pos stop : Nat} {x : SExpr} (h : readList rest pos = .ok (x, stop)) :
    pos < stop := by
  unfold readList at h
  split at h
  · cases h
  · split at h
    · split at h
      · cases h
      · cases h
        omega
    · cases h

/-- Reads an expression. -/
def readExpr (rest : Text) (pos : Nat) : Except ReadError (SExpr × Nat) :=
  match readList rest pos with
  | .ok found => .ok found
  | .error e => if e.pos ≠ pos then .error (e.within [.inside "parse.List"]) else readLeaf rest pos

/-- Reads lists up to the end of the text, the first one being number `index`. Yields the lists and the
position of the end. -/
def readForms (rest : Text) (pos index : Nat) : Except ReadError (List SExpr × Nat) :=
  let k := Skipper.blank.count rest
  match _h : rest.drop k with
  | [] => .ok ([], pos + k)
  | c :: cs =>
    match _hform : readList (c :: cs) (pos + k) with
    | .error e => .error (e.within [.form index])
    | .ok (form, stop) =>
      match readForms ((c :: cs).drop (stop - (pos + k))) stop (index + 1) with
      | .error e => .error e
      | .ok (forms, last) => .ok (form :: forms, last)
termination_by rest.length
decreasing_by
  have hlength := congrArg List.length _h
  have hprogress := lt_of_readList _hform
  simp only [List.length_drop, List.length_cons] at hlength ⊢
  omega

/-- Reads a document. -/
def readDocument (rest : Text) (pos : Nat) : Except ReadError (Document × Nat) :=
  match readForms rest pos 0 with
  | .error e => .error e
  | .ok (forms, stop) => .ok (⟨⟨pos, stop⟩, forms⟩, stop)

end SExpr

end Lowering
