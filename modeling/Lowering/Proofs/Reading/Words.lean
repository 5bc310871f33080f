import Lowering.Proofs.Template.Pieces
import Lowering.SExpr.Reader

/-!
# Words as they are read

A word of a source is read as a number or as a name, and which of the two depends on nothing but the word, as long as
the text behind it does not carry it on. Numbers in decimal are read as themselves. A name is a word that can be read as
one, and no other atom is ever read.
-/

namespace Lowering

namespace Text

/-! ### Numbers -/

theorem readDigits_append (base n : Nat) (a b : Text) :
    readDigits base n (a ++ b) = (readDigits base n a).bind fun m => readDigits base m b := by
  induction a generalizing n with
  | nil => rfl
  | cons d rest ih =>
    rw [List.cons_append, readDigits, readDigits]
    split
    · exact ih n
    · split
      · rfl
      · split
        · rfl
        · split
          · rfl
          · exact ih _

theorem readDigits_digit {base n d : Nat} (hd : d < 10) (hbase : 10 ≤ base) (hn : n * base + d ≤ maxUnsigned) :
    readDigits base n [digit d] = .ok (n * base + d) := by
  have hdigit : isDigit (digit d) = true := isDigit_digit hd
  have hvalue : digitValue? (digit d) = some d := by
    rw [digitValue?, if_pos hdigit, digit_toNat hd]
  have hne : digit d ≠ byte '_' := by
    intro h
    rw [h] at hdigit
    cases hdigit
  rw [readDigits, if_neg hne, hvalue]
  dsimp only
  rw [if_neg (by omega), if_neg (by omega), readDigits]

theorem readDigits_ofNat {n : Nat} (hn : n ≤ maxUnsigned) : readDigits 10 0 (ofNat n) = .ok n := by
  induction n using Nat.strongRecOn with
  | ind n ih =>
    rw [ofNat]
    split
    · next hsmall =>
      rw [readDigits_digit hsmall (Nat.le_refl 10) (by omega)]
      exact congrArg Except.ok (by omega)
    · rw [readDigits_append, ih (n / 10) (by omega) (by omega)]
      show readDigits 10 (n / 10) [digit (n % 10)] = _
      rw [readDigits_digit (by omega) (Nat.le_refl 10) (by omega)]
      exact congrArg Except.ok (by omega)

/-- Only zero starts with a zero. -/
theorem exists_ofNat_eq_cons {n : Nat} (hn : 0 < n) : ∃ b rest, ofNat n = b :: rest ∧ b ≠ 48 := by
  induction n using Nat.strongRecOn with
  | ind n ih =>
    rw [ofNat]
    split
    · next hsmall =>
      refine ⟨digit n, [], rfl, ?_⟩
      intro h
      have hvalue := digit_toNat hsmall
      rw [h] at hvalue
      simp at hvalue
      omega
    · obtain ⟨b, rest, heq, hb⟩ := ih (n / 10) (by omega) (by omega)
      exact ⟨b, rest ++ [digit (n % 10)], by rw [heq]; rfl, hb⟩

theorem readUnsigned_ofNat {n : Nat} (hn : n ≤ maxUnsigned) : readUnsigned (ofNat n) = .ok n := by
  by_cases hzero : n = 0
  · rw [hzero, ofNat]
    rfl
  · obtain ⟨b, rest, heq, hb⟩ := exists_ofNat_eq_cons (Nat.pos_of_ne_zero hzero)
    have hsplit : splitBase (b :: rest) = (10, b :: rest) := by
      unfold splitBase
      split
      · next h => cases h; exact absurd rfl hb
      · next h => cases h; exact absurd rfl hb
      · rfl
    have hplain : (ofNat n).contains (byte '_') = false := by
      apply Bool.eq_false_iff.mpr
      intro h
      have hdigit := isDigit_of_mem_ofNat n _ (List.contains_iff_mem.mp h)
      cases hdigit
    have hread := readDigits_ofNat hn
    rw [heq] at hplain hread ⊢
    rw [readUnsigned, hsplit]
    dsimp only
    rw [hread, hplain]
    rfl

/-- A number is read back as it is written. -/
theorem readInt_ofInt {v : Int} (hlow : -(signedLimit : Int) ≤ v) (hhigh : v < signedLimit) :
    readInt (ofInt v) = .ok v := by
  have hlimit : signedLimit ≤ maxUnsigned := by decide
  cases v with
  | ofNat n =>
    have hn : n < signedLimit := Int.ofNat_lt.mp hhigh
    have hread : readPositive (ofNat n) = .ok (n : Int) := by
      rw [readPositive, readUnsigned_ofNat (by omega)]
      exact if_neg (by omega)
    show readInt (ofNat n) = _
    rw [readInt.eq_def]
    split
    · next h => exact absurd h (ofNat_ne_cons rfl n _)
    · next h => exact absurd h (ofNat_ne_cons rfl n _)
    · exact hread
  | negSucc n =>
    show readNegative (ofNat (n + 1)) = _
    rw [readNegative, readUnsigned_ofNat (by omega)]
    exact if_neg (by omega)

theorem readInt_range {t : Text} {v : Int} (h : readInt t = .ok v) : -(signedLimit : Int) ≤ v ∧ v < signedLimit := by
  have hpositive {u : Text} (hread : readPositive u = .ok v) : -(signedLimit : Int) ≤ v ∧ v < signedLimit := by
    rw [readPositive] at hread
    cases hunsigned : readUnsigned u with
    | error e => rw [hunsigned] at hread; cases hread
    | ok n =>
      rw [hunsigned] at hread
      change (if signedLimit ≤ n then _ else _) = Except.ok v at hread
      split at hread
      · cases hread
      · cases hread
        omega
  rw [readInt.eq_def] at h
  split at h
  · next u =>
    rw [readNegative] at h
    cases hunsigned : readUnsigned u with
    | error e => rw [hunsigned] at h; cases h
    | ok n =>
      rw [hunsigned] at h
      change (if signedLimit < n then _ else _) = Except.ok v at h
      split at h
      · cases h
      · have : 0 < signedLimit := by decide
        cases h
        omega
  · exact hpositive h
  · exact hpositive h

end Text

namespace SExpr

/-! ### Names -/

/-- Can the text be read as an atom? -/
def isName (w : Text) : Bool :=
  !w.isEmpty && w.all isWordByte &&
    (!startsLikeInt w ||
      match Text.readInt w with
      | .error .malformed => true
      | _ => false)

/-- Does the text carry on no word before it? -/
def endsWord : Text → Bool
  | [] => true
  | b :: _ => !isWordByte b

theorem isWordByte_of_isDigit {b : UInt8} (hb : Text.isDigit b = true) : isWordByte b = true := by
  have hrange : 48 ≤ b.toNat ∧ b.toNat ≤ 57 := by
    simpa [Text.isDigit, UInt8.le_iff_toNat_le] using hb
  have hne (c : UInt8) (hc : c.toNat < 48 ∨ 57 < c.toNat) : (b != c) = true := by
    apply bne_iff_ne.mpr
    rintro rfl
    omega
  have hlow : (32 < b) := UInt8.lt_iff_toNat_lt.mpr (Nat.lt_of_lt_of_le (by decide) hrange.1)
  rw [isWordByte, decide_eq_true hlow, hne 0x7f (by decide), hne openParen (by decide), hne closeParen (by decide),
    hne 59 (by decide)]
  rfl

section Word

variable {w rest : Text}

theorem wordOf_append (hw : w.all isWordByte = true) (hrest : endsWord rest = true) : wordOf (w ++ rest) = w := by
  rw [wordOf, List.takeWhile_append_of_pos (List.all_eq_true.mp hw)]
  cases rest with
  | nil => exact List.append_nil w
  | cons b rest =>
    have hb : ¬ isWordByte b = true := by
      intro hb
      rw [endsWord, hb] at hrest
      cases hrest
    rw [List.takeWhile_cons_of_neg hb, List.append_nil]

theorem not_isDigit_of_endsWord {b : UInt8} (hb : endsWord (b :: rest) = true) : Text.isDigit b = false := by
  apply Bool.eq_false_iff.mpr
  intro hdigit
  rw [endsWord, isWordByte_of_isDigit hdigit] at hb
  cases hb

theorem startsLikeInt_cons (b : UInt8) (t : Text) :
    startsLikeInt (b :: t) = if b = 45 then t.head?.any Text.isDigit else Text.isDigit b := by
  split
  · next hb =>
    subst hb
    cases t <;> rfl
  · next hb =>
    unfold startsLikeInt
    split
    · next h => cases h; exact absurd rfl hb
    · next h => cases h; rfl
    · next h => cases h

/-- Whether a word starts like a number does not depend on what follows it. -/
theorem startsLikeInt_append (w : Text) (hrest : endsWord rest = true) :
    startsLikeInt (w ++ rest) = startsLikeInt w := by
  match w with
  | [] =>
    cases rest with
    | nil => rfl
    | cons d rest =>
      have hd : d ≠ 45 := by
        rintro rfl
        cases hrest
      rw [List.nil_append, startsLikeInt_cons, if_neg hd, not_isDigit_of_endsWord hrest]
      rfl
  | b :: c :: w => rw [List.cons_append, List.cons_append, startsLikeInt_cons, startsLikeInt_cons]; rfl
  | [b] =>
    rw [List.singleton_append, startsLikeInt_cons, startsLikeInt_cons]
    cases rest with
    | nil => rfl
    | cons d rest =>
      show (if b = 45 then Text.isDigit d else _) = if b = 45 then false else _
      rw [not_isDigit_of_endsWord hrest]

/-- Every text is a word and what follows it. -/
theorem eq_word_append (t : Text) : ∃ rest, t = wordOf t ++ rest ∧ endsWord rest = true := by
  refine ⟨t.dropWhile isWordByte, List.takeWhile_append_dropWhile.symm, ?_⟩
  cases h : t.dropWhile isWordByte with
  | nil => rfl
  | cons b rest =>
    have hb := List.head?_dropWhile_not isWordByte t
    rw [h] at hb
    rw [endsWord]
    simpa using hb

theorem all_wordOf (t : Text) : (wordOf t).all isWordByte = true := List.all_takeWhile

theorem wordOf_word (hw : w.all isWordByte = true) : wordOf w = w := by
  rw [← List.append_nil w, wordOf_append hw rfl, List.append_nil]

/-- A number is read from the first word only. -/
theorem readInt_append (hw : w.all isWordByte = true) (hrest : endsWord rest = true) (pos : Nat) :
    readInt (w ++ rest) pos = readInt w pos := by
  rw [readInt, startsLikeInt_append w hrest, wordOf_append hw hrest, readInt, wordOf_word hw]

theorem readAtom_append (hw : w.all isWordByte = true) (hrest : endsWord rest = true) (pos : Nat) :
    readAtom (w ++ rest) pos =
      if w.isEmpty then .error { pos, problem := .noAtom }
      else .ok (.atom ⟨pos, pos + w.length⟩ w, pos + w.length) := by
  rw [readAtom, wordOf_append hw hrest]

theorem isName_iff : isName w = true ↔ w ≠ [] ∧ w.all isWordByte = true ∧
    (startsLikeInt w = true → Text.readInt w = .error .malformed) := by
  have hmalformed : (match Text.readInt w with | .error .malformed => true | _ => false) = true ↔
      Text.readInt w = .error .malformed := by
    split <;> simp_all
  rw [isName, Bool.and_eq_true, Bool.and_eq_true, Bool.or_eq_true, hmalformed, and_assoc, Bool.not_eq_true',
    Bool.not_eq_true', List.isEmpty_eq_false_iff]
  refine and_congr_right fun _ => and_congr_right fun _ => ?_
  cases startsLikeInt w <;> simp

/-- A name is read as an atom. -/
theorem readLeaf_name (hname : isName w = true) (hrest : endsWord rest = true) (pos : Nat) :
    readLeaf (w ++ rest) pos = .ok (.atom ⟨pos, pos + w.length⟩ w, pos + w.length) := by
  obtain ⟨hne, hw, hint⟩ := isName_iff.mp hname
  have hnoInt : readInt (w ++ rest) pos = .error { pos, problem := .noInt } := by
    rw [readInt_append hw hrest, readInt, wordOf_word hw]
    dsimp only
    split
    · next hstarts => rw [hint hstarts]
    · rfl
  rw [readLeaf, hnoInt]
  dsimp only
  rw [if_neg (fun h => h rfl), readAtom_append hw hrest, if_neg fun h => hne (List.isEmpty_iff.mp h)]

theorem ofInt_word (v : Int) :
    Text.ofInt v ≠ [] ∧ (Text.ofInt v).all isWordByte = true ∧ startsLikeInt (Text.ofInt v) = true := by
  have hdigits (n : Nat) : (Text.ofNat n).all isWordByte = true :=
    List.all_eq_true.mpr fun b hb => isWordByte_of_isDigit (Text.isDigit_of_mem_ofNat n b hb)
  have hhead (n : Nat) : (Text.ofNat n).head?.any Text.isDigit = true := by
    have hmem := Text.isDigit_of_mem_ofNat n
    cases h : Text.ofNat n with
    | nil => exact absurd h (Text.ofNat_ne_nil n)
    | cons b rest => exact hmem b (h ▸ List.mem_cons_self ..)
  cases v with
  | ofNat n =>
    refine ⟨Text.ofNat_ne_nil n, hdigits n, ?_⟩
    have hdigit := hhead n
    show startsLikeInt (Text.ofNat n) = true
    cases h : Text.ofNat n with
    | nil => exact absurd h (Text.ofNat_ne_nil n)
    | cons b rest =>
      have hb : b ≠ 45 := by
        rintro rfl
        exact Text.ofNat_ne_cons rfl n rest h
      rw [h] at hdigit
      rw [startsLikeInt_cons, if_neg hb]
      exact hdigit
  | negSucc n =>
    refine ⟨List.cons_ne_nil _ _, hdigits (n + 1), ?_⟩
    show startsLikeInt (45 :: Text.ofNat (n + 1)) = true
    rw [startsLikeInt_cons, if_pos rfl]
    exact hhead (n + 1)

/-- A literal is read as its value. -/
theorem readLeaf_literal {v : Int} (hw : w.all isWordByte = true) (hstarts : startsLikeInt w = true)
    (hread : Text.readInt w = .ok v) (hrest : endsWord rest = true) (pos : Nat) :
    readLeaf (w ++ rest) pos = .ok (.int ⟨pos, pos + w.length⟩ v, pos + w.length) := by
  rw [readLeaf, readInt_append hw hrest, readInt, if_pos hstarts, wordOf_word hw]
  dsimp only
  rw [hread]

/-- A number is read as a number. -/
theorem readLeaf_numeral {v : Int} (hlow : -(Text.signedLimit : Int) ≤ v) (hhigh : v < Text.signedLimit)
    (hrest : endsWord rest = true) (pos : Nat) :
    readLeaf (Text.ofInt v ++ rest) pos =
      .ok (.int ⟨pos, pos + (Text.ofInt v).length⟩ v, pos + (Text.ofInt v).length) :=
  readLeaf_literal (ofInt_word v).2.1 (ofInt_word v).2.2 (Text.readInt_ofInt hlow hhigh) hrest pos

/-- Nothing is read as a leaf but the first word of the text, as a name or as a number. -/
theorem readLeaf_ok {t : Text} {pos stop : Nat} {x : SExpr} (h : readLeaf t pos = .ok (x, stop)) :
    ∃ w rest, t = w ++ rest ∧ w ≠ [] ∧ w.all isWordByte = true ∧ endsWord rest = true ∧ stop = pos + w.length ∧
      ((x = .atom ⟨pos, stop⟩ w ∧ isName w = true) ∨
        ∃ v, x = .int ⟨pos, stop⟩ v ∧ startsLikeInt w = true ∧ Text.readInt w = .ok v) := by
  obtain ⟨rest, ht, hrest⟩ := eq_word_append t
  have hword := all_wordOf t
  generalize wordOf t = w at ht hword
  subst ht
  rw [readLeaf, readInt_append hword hrest, readAtom_append hword hrest, readInt, wordOf_word hword] at h
  dsimp only at h
  by_cases hempty : w = []
  · subst hempty
    simp [startsLikeInt] at h
  · refine ⟨w, rest, rfl, hempty, hword, hrest, ?_⟩
    rw [if_neg fun h => hempty (List.isEmpty_iff.mp h)] at h
    by_cases hstarts : startsLikeInt w = true
    · rw [if_pos hstarts] at h
      cases hread : Text.readInt w with
      | ok value =>
        rw [hread] at h
        cases h
        exact ⟨rfl, .inr ⟨value, rfl, hstarts, rfl⟩⟩
      | error e =>
        rw [hread] at h
        cases e with
        | malformed =>
          simp only [ne_eq, not_true_eq_false, if_false] at h
          cases h
          exact ⟨rfl, .inl ⟨rfl, isName_iff.mpr ⟨hempty, hword, fun _ => hread⟩⟩⟩
        | outOfRange =>
          have hpos : 0 < w.length := List.length_pos_iff.mpr hempty
          dsimp only at h
          rw [if_pos (by omega)] at h
          cases h
    · rw [if_neg hstarts] at h
      simp only [ne_eq, not_true_eq_false, if_false] at h
      cases h
      exact ⟨rfl, .inl ⟨rfl, isName_iff.mpr ⟨hempty, hword, fun h => absurd h hstarts⟩⟩⟩

end Word

end SExpr

end Lowering
