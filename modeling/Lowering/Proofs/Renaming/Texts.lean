import Lowering.Listing
import Lowering.Proofs.Template.Pieces
import Mathlib.Data.List.Forall2

/-!
# Renumbered texts

Renumbering goes through a text word by word. It takes texts that differ only in the names of registers to the same
text, `renumber_rename`, and a text that is renumbered stays as it is, `renumber_renumber`. Both are shown on lists of
words; that a list of words can be recovered from its text is `IsCut.cut_flatten`.
-/

namespace Lowering.Listing

/-! ### Words -/

/-- The words of a text, and one by one the bytes between them. -/
def cut : Text → List Text
  | [] => []
  | c :: rest =>
    if isWordByte c then (c :: rest.takeWhile isWordByte) :: cut (rest.dropWhile isWordByte) else [c] :: cut rest
termination_by t => t.length
decreasing_by
  · exact Nat.lt_succ_of_le (List.dropWhile_suffix _).length_le
  · exact Nat.lt_succ_self _

/-- A list of words with bytes between them: behind a word there is such a byte or the end. -/
inductive IsCut : List Text → Prop where
  | nil : IsCut []
  | byte {b : UInt8} {ws : List Text} (hb : isWordByte b = false) (hws : IsCut ws) : IsCut ([b] :: ws)
  | word {w : Text} {ws : List Text} (hne : w ≠ []) (hw : ∀ b ∈ w, isWordByte b = true)
    (hends : ∀ v ∈ ws.head?, ∃ b, v = [b] ∧ isWordByte b = false) (hws : IsCut ws) : IsCut (w :: ws)

theorem isCut_cut (t : Text) : IsCut (cut t) := by
  fun_induction cut t with
  | case1 => exact .nil
  | case2 c rest hc ih =>
    refine .word (List.cons_ne_nil _ _) (List.forall_mem_cons.mpr ⟨hc, List.all_eq_true.mp List.all_takeWhile⟩) ?_ ih
    have hhead := List.head?_dropWhile_not isWordByte rest
    cases hrest : rest.dropWhile isWordByte with
    | nil => simp [cut]
    | cons b after =>
      rw [hrest] at hhead
      have hb : isWordByte b = false := hhead
      rw [cut, if_neg (by simp [hb])]
      rintro _ ⟨⟩
      exact ⟨b, rfl, hb⟩
  | case3 c rest hc ih => exact .byte (Bool.eq_false_iff.mpr hc) ih

theorem IsCut.cut_flatten {ws : List Text} (h : IsCut ws) : cut ws.flatten = ws := by
  induction h with
  | nil => rw [List.flatten_nil, cut]
  | byte hb _ ih => rw [List.flatten_cons, List.singleton_append, cut, if_neg (by simp [hb]), ih]
  | @word w ws hne hw hends _ ih =>
    obtain ⟨c, w, rfl⟩ := List.exists_cons_of_ne_nil hne
    obtain ⟨hc, hw⟩ := List.forall_mem_cons.mp hw
    have hstop : ws.flatten.takeWhile isWordByte = [] ∧ ws.flatten.dropWhile isWordByte = ws.flatten := by
      cases ws with
      | nil => exact ⟨rfl, rfl⟩
      | cons v ws =>
        obtain ⟨b, rfl, hb⟩ := hends v rfl
        simp [hb]
    rw [List.flatten_cons, List.cons_append, cut, if_pos hc, List.takeWhile_append_of_pos hw,
      List.dropWhile_append_of_pos hw, hstop.1, hstop.2, List.append_nil, ih]

/-! ### Names -/

theorem isTempName_iff {w : Text} :
    isTempName w = true ↔ ∃ ds, w = Text.byte 't' :: ds ∧ ds ≠ [] ∧ ∀ d ∈ ds, Text.isDigit d = true := by
  cases w with
  | nil => simp [isTempName]
  | cons c ds => simp [isTempName, and_assoc]

theorem isWordByte_of_isTempName {w : Text} (hw : isTempName w = true) : ∀ b ∈ w, isWordByte b = true := by
  obtain ⟨ds, rfl, -, hds⟩ := isTempName_iff.mp hw
  refine List.forall_mem_cons.mpr ⟨by decide, fun d hd => ?_⟩
  simp [isWordByte, Text.isAlphanumeric, hds d hd]

/-- The second word stands where the first one did: it is the same, or both are names of registers. -/
def Respelt (w v : Text) : Prop := v = w ∨ isTempName w = true ∧ isTempName v = true

theorem Respelt.byte {b : UInt8} {v : Text} (h : Respelt [b] v) : v = [b] := by
  obtain h | ⟨hname, -⟩ := h
  · exact h
  · obtain ⟨ds, heq, hne, -⟩ := isTempName_iff.mp hname
    cases heq
    exact absurd rfl hne

/-- Other names for registers leave the words where they were. -/
theorem IsCut.respelt {ws vs : List Text} (h : IsCut ws) (hvs : List.Forall₂ Respelt ws vs) : IsCut vs := by
  induction h generalizing vs with
  | nil =>
    cases hvs
    exact .nil
  | byte hb _ ih =>
    cases hvs with
    | cons hv hvs =>
      rw [hv.byte]
      exact .byte hb (ih hvs)
  | word hne hw hends _ ih =>
    cases hvs with
    | @cons _ v _ vs hv hvs =>
      have hends' : ∀ u ∈ vs.head?, ∃ b, u = [b] ∧ isWordByte b = false := by
        cases hvs with
        | nil => exact nofun
        | cons hu _ =>
          obtain ⟨b, rfl, hb⟩ := hends _ rfl
          rintro _ ⟨⟩
          exact ⟨b, hu.byte, hb⟩
      obtain rfl | ⟨-, hname⟩ := hv
      · exact .word hne hw hends' (ih hvs)
      · refine .word ?_ (isWordByte_of_isTempName hname) hends' (ih hvs)
        rintro rfl
        cases hname

/-! ### Numbering words -/

/-- The name of the register with a number. -/
def numberName (n : Nat) : Text := "t" ++ Text.ofNat n

theorem isTempName_numberName (n : Nat) : isTempName (numberName n) = true :=
  isTempName_iff.mpr ⟨_, rfl, Text.ofNat_ne_nil n, Text.isDigit_of_mem_ofNat n⟩

theorem numberName_injective {n m : Nat} (h : numberName n = numberName m) : n = m :=
  Text.ofNat_injective (List.cons.inj h).2

/-- A name was seen before or is seen now. -/
theorem numberOf_cases (seen : List Text) (w : Text) :
    (∃ i, i < seen.length ∧ numberOf seen w = (i + 1, seen)) ∨ numberOf seen w = (seen.length + 1, seen ++ [w]) := by
  rw [numberOf]
  cases hplace : seen.idxOf? w with
  | some i => exact .inl ⟨i, (List.idxOf?_eq_some_iff.mp hplace).1, rfl⟩
  | none => exact .inr rfl

/-- Numbers the registers among words, given the names seen so far. -/
def numberWords (seen : List Text) : List Text → List Text
  | [] => []
  | w :: ws =>
    if isTempName w then numberName (numberOf seen w).1 :: numberWords (numberOf seen w).2 ws
    else w :: numberWords seen ws

theorem drop_word_rest (c : UInt8) (rest : Text) :
    rest.drop ((c :: rest.takeWhile isWordByte).length - 1) = rest.dropWhile isWordByte := by
  have hdrop : (rest.takeWhile isWordByte ++ rest.dropWhile isWordByte).drop (rest.takeWhile isWordByte).length = _ :=
    List.drop_left
  rw [List.takeWhile_append_dropWhile] at hdrop
  exact hdrop

/-- Renumbering a text is numbering the registers among its words. -/
theorem renumberFrom_eq (seen : List Text) (t : Text) : renumberFrom seen t = (numberWords seen (cut t)).flatten := by
  fun_induction renumberFrom seen t with
  | case1 => rw [cut]; rfl
  | case2 seen c rest hc word after hname n seen' hnumber ih =>
    rw [cut, if_pos hc, numberWords, if_pos hname, List.flatten_cons, ih, ← drop_word_rest c rest, hnumber]
    rfl
  | case3 seen c rest hc word after hname ih =>
    rw [cut, if_pos hc, numberWords, if_neg hname, List.flatten_cons, ih, ← drop_word_rest c rest]
  | case4 seen c rest hc ih =>
    have hname : ¬ isTempName [c] = true := by simp [isTempName]
    rw [cut, if_neg hc, numberWords, if_neg hname, List.flatten_cons, ih, List.singleton_append]

theorem numberWords_respelt (seen ws : List Text) : List.Forall₂ Respelt ws (numberWords seen ws) := by
  induction ws generalizing seen with
  | nil => exact .nil
  | cons w ws ih =>
    rw [numberWords]
    split
    · next hw => exact .cons (.inr ⟨hw, isTempName_numberName _⟩) (ih _)
    · exact .cons (.inl rfl) (ih _)

/-- The names of the numbers from one on. -/
def numberNames (k : Nat) : List Text := (List.range k).map fun i => numberName (i + 1)

theorem numberOf_numberNames {i k : Nat} (hi : i < k) :
    numberOf (numberNames k) (numberName (i + 1)) = (i + 1, numberNames k) := by
  have hplace : (numberNames k).idxOf? (numberName (i + 1)) = some i := by
    refine List.idxOf?_eq_some_iff.mpr ⟨by simpa [numberNames] using hi, by simp [numberNames], fun j hj heq => ?_⟩
    have := numberName_injective (by simpa [numberNames] using heq)
    omega
  rw [numberOf, hplace]

theorem numberOf_numberNames_new (k : Nat) :
    numberOf (numberNames k) (numberName (k + 1)) = (k + 1, numberNames (k + 1)) := by
  have hnew : (numberNames k).idxOf? (numberName (k + 1)) = none := by
    refine List.idxOf?_eq_none_iff.mpr fun hmem => ?_
    obtain ⟨i, hi, heq⟩ := List.mem_map.mp hmem
    have := numberName_injective heq
    have := List.mem_range.mp hi
    omega
  rw [numberOf, hnew]
  simp [numberNames, List.range_succ]

theorem numberWords_numberWords (seen ws : List Text) :
    numberWords (numberNames seen.length) (numberWords seen ws) = numberWords seen ws := by
  induction ws generalizing seen with
  | nil => rfl
  | cons w ws ih =>
    rw [numberWords]
    split
    -- The names that have been seen among numbered words are the first so many.
    · have hnumber : numberOf (numberNames seen.length) (numberName (numberOf seen w).1) =
          ((numberOf seen w).1, numberNames (numberOf seen w).2.length) := by
        obtain ⟨i, hi, hold⟩ | hnew := numberOf_cases seen w
        · rw [hold]
          exact numberOf_numberNames hi
        · rw [hnew, List.length_append, List.length_singleton]
          exact numberOf_numberNames_new seen.length
      rw [numberWords, if_pos (isTempName_numberName _), hnumber, ih]
    · next hw => rw [numberWords, if_neg hw, ih]

/-- What is renumbered stays as it is. -/
theorem renumber_renumber (t : Text) : renumber (renumber t) = renumber t := by
  rw [renumber, renumber, renumberFrom_eq, renumberFrom_eq,
    ((isCut_cut t).respelt (numberWords_respelt [] _)).cut_flatten]
  exact congrArg List.flatten (numberWords_numberWords [] _)

/-! ### Renamed texts -/

/-- Other names for registers, different ones for different ones. -/
structure Renames (f : Text → Text) : Prop where
  name : ∀ w, isTempName w = true → isTempName (f w) = true
  injective : ∀ v w, isTempName v = true → isTempName w = true → f v = f w → v = w

/-- The text with other names for registers. -/
def rename (f : Text → Text) (t : Text) : Text := ((cut t).map fun w => if isTempName w then f w else w).flatten

variable {f : Text → Text} (hf : Renames f)

include hf

theorem Renames.respelt (ws : List Text) :
    List.Forall₂ Respelt ws (ws.map fun w => if isTempName w then f w else w) := by
  refine List.forall₂_map_right_iff.mpr (List.forall₂_same.mpr fun w _ => ?_)
  split
  · next hw => exact .inr ⟨hw, hf.name w hw⟩
  · exact .inl rfl

theorem Renames.numberOf {seen : List Text} (hseen : ∀ v ∈ seen, isTempName v = true) {w : Text}
    (hw : isTempName w = true) :
    Listing.numberOf (seen.map f) (f w) = ((Listing.numberOf seen w).1, (Listing.numberOf seen w).2.map f) := by
  have hplace : (seen.map f).idxOf? (f w) = seen.idxOf? w := by
    induction seen with
    | nil => rfl
    | cons v seen ih =>
      obtain ⟨hv, hseen⟩ := List.forall_mem_cons.mp hseen
      have heq : (f v == f w) = (v == w) :=
        Bool.eq_iff_iff.mpr (by simpa using ⟨hf.injective v w hv hw, congrArg f⟩)
      rw [List.map_cons, List.idxOf?_cons, List.idxOf?_cons, heq, ih hseen]
  rw [Listing.numberOf, Listing.numberOf, hplace]
  split
  · rfl
  · rw [List.length_map, List.map_append]
    rfl

theorem Renames.numberWords {seen : List Text} (hseen : ∀ v ∈ seen, isTempName v = true) (ws : List Text) :
    Listing.numberWords (seen.map f) (ws.map fun w => if isTempName w then f w else w) =
      Listing.numberWords seen ws := by
  induction ws generalizing seen with
  | nil => rfl
  | cons w ws ih =>
    rw [List.map_cons]
    split
    · next hw =>
      have hseen' : ∀ v ∈ (Listing.numberOf seen w).2, isTempName v = true := by
        obtain ⟨i, -, hold⟩ | hnew := numberOf_cases seen w
        · rw [hold]
          exact hseen
        · rw [hnew]
          exact List.forall_mem_append.mpr ⟨hseen, List.forall_mem_singleton.mpr hw⟩
      rw [Listing.numberWords, if_pos (hf.name w hw), hf.numberOf hseen hw, ih hseen', Listing.numberWords, if_pos hw]
    · next hw => rw [Listing.numberWords, if_neg hw, ih hseen, Listing.numberWords, if_neg hw]

/-- Texts that differ only in the names of registers are the same once they are renumbered. -/
theorem renumber_rename (t : Text) : renumber (rename f t) = renumber t := by
  rw [renumber, renumber, renumberFrom_eq, renumberFrom_eq, rename, ((isCut_cut t).respelt (hf.respelt _)).cut_flatten]
  exact congrArg List.flatten (hf.numberWords (List.forall_mem_nil _) _)

end Lowering.Listing
