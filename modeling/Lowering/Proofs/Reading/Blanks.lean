import Lowering.Proofs.Reading.Positions

/-!
# Skipping blanks

To skip blanks is to go around a loop: over blanks, and where a comment starts, on to the end of its line. Whatever the
blanks and the mark of comments are, the loop ends, unless the mark is itself the end of a line. What it has passed then
is blanks and comments and nothing else, and what it stopped at is neither. So to skip once more changes nothing.
-/

namespace Lowering.Skipper

open SExpr (lineLength_append eq_line_append)

/-! ### The loop -/

/-- The position behind the blanks that stand at a position. -/
def passBlanks (s : Skipper) (t : Text) (i : Nat) : Nat := i + ((t.drop i).takeWhile s.blanks.contains).length

/-- The position of the end of the line. -/
def lineEnd (t : Text) (i : Nat) : Nat := i + lineLength (t.drop i)

/-- A comment starts at the position. -/
def AtComment (s : Skipper) (t : Text) (i : Nat) : Prop := ∃ mark, s.comment = some mark ∧ t[i]? = some mark

instance (s : Skipper) (t : Text) (i : Nat) : Decidable (s.AtComment t i) :=
  decidable_of_iff (s.comment.isSome ∧ t[i]? = s.comment) <| by
    cases h : s.comment <;> simp [AtComment, h]

/-- Where the loop ends that goes over blanks and comments by turns, if it does so within `n` turns. -/
def skipWithin (s : Skipper) (t : Text) : Nat → Nat → Option Nat
  | 0, _ => none
  | n + 1, i =>
    let j := s.passBlanks t i
    if s.AtComment t j then s.skipWithin t n (lineEnd t j) else some j

/-- A text that is made of blanks and comments, and the text behind it. A comment runs up to the end of its line, which
is not part of it, or to the end of the text. -/
inductive Skipped (blanks : List UInt8) (mark : UInt8) : Text → Text → Prop where
  | nil (rest : Text) : Skipped blanks mark [] rest
  | blank {b : UInt8} {u rest : Text} (hb : b ∈ blanks) (hu : Skipped blanks mark u rest) :
      Skipped blanks mark (b :: u) rest
  | comment {body u rest : Text} (hbody : Text.newline ∉ body)
      (hend : (u ++ rest).head?.all (· == Text.newline) = true) (hu : Skipped blanks mark u rest) :
      Skipped blanks mark (mark :: (body ++ u)) rest

variable {s : Skipper} {t : Text} {i : Nat} {mark : UInt8}

/-! ### What is skipped -/

theorem count_eq_zero (h : ∀ b, t.head? = some b → b ∉ s.blanks ∧ s.comment ≠ some b) : s.count t = 0 := by
  cases t with
  | nil => rw [count]
  | cons b rest =>
    obtain ⟨hblank, hcomment⟩ := h b rfl
    rw [count, if_neg (by simpa using hblank), if_neg hcomment]

/-- Where skipping stops there is neither a blank nor a comment. -/
theorem head?_drop_count (s : Skipper) (t : Text) :
    ∀ b, (t.drop (s.count t)).head? = some b → b ∉ s.blanks ∧ s.comment ≠ some b := by
  fun_induction count s t with
  | case1 => simp
  | case2 b rest hblank ih => rwa [Nat.add_comm, List.drop_succ_cons]
  | case3 b rest hblank hcomment ih =>
    rwa [Nat.add_assoc, Nat.add_comm 1, List.drop_succ_cons, ← List.drop_drop]
  | case4 b rest hblank hcomment =>
    rintro b' ⟨⟩
    exact ⟨by simpa using hblank, hcomment⟩

theorem count_drop_count (s : Skipper) (t : Text) : s.count (t.drop (s.count t)) = 0 :=
  count_eq_zero (s.head?_drop_count t)

/-- What is skipped is made of blanks and comments. -/
theorem skipped_count (hs : s.comment = some mark) (t : Text) :
    Skipped s.blanks mark (t.take (s.count t)) (t.drop (s.count t)) := by
  fun_induction count s t with
  | case1 => exact .nil _
  | case2 b rest hblank ih =>
    rw [Nat.add_comm, List.take_succ_cons, List.drop_succ_cons]
    exact .blank (by simpa using hblank) ih
  | case3 b rest hblank hcomment ih =>
    obtain rfl : mark = b := Option.some.inj (hs.symm.trans hcomment)
    obtain ⟨body, after, rfl, hbody, hafter⟩ := eq_line_append rest
    -- What is skipped behind the line starts with the end of the line, if with anything, so the comment is whole.
    rw [lineLength_append hbody hafter, List.drop_left] at ih ⊢
    rw [Nat.add_assoc, Nat.add_comm 1, List.take_succ_cons, List.drop_succ_cons, List.take_length_add_append,
      List.drop_length_add_append]
    exact .comment hbody (by rwa [List.take_append_drop]) ih
  | case4 b rest hblank hcomment => exact .nil _

/-- Blanks and comments are skipped, if the mark of a comment is not taken for a blank. -/
theorem Skipped.count_append {u rest : Text} (hu : Skipped s.blanks mark u rest) (hs : s.comment = some mark)
    (hmark : mark ∉ s.blanks) : s.count (u ++ rest) = u.length + s.count rest := by
  induction hu with
  | nil rest => simp
  | blank hb _ ih =>
    rw [List.cons_append, count, if_pos (by simpa using hb), ih, List.length_cons]
    omega
  | comment hbody hend _ ih =>
    rw [List.cons_append, count, if_neg (by simpa using hmark), if_pos hs, List.append_assoc,
      lineLength_append hbody hend, List.drop_left, ih, List.length_cons, List.length_append]
    omega

/-! ### One turn -/

theorem count_takeWhile (s : Skipper) (t : Text) :
    s.count t = (t.takeWhile s.blanks.contains).length + s.count (t.drop (t.takeWhile s.blanks.contains).length) := by
  induction t with
  | nil => simp
  | cons b rest ih =>
    by_cases hb : s.blanks.contains b = true
    · rw [List.takeWhile_cons_of_pos hb, List.length_cons, List.drop_succ_cons, count, if_pos hb, ih]
      omega
    · rw [List.takeWhile_cons_of_neg hb, List.length_nil, List.drop_zero, Nat.zero_add]

/-- Skipping goes on behind the blanks. -/
theorem skip_passBlanks (s : Skipper) (t : Text) (i : Nat) : s.skip t (s.passBlanks t i) = s.skip t i := by
  rw [skip, skip, passBlanks, s.count_takeWhile (t.drop i), List.drop_drop, Nat.add_assoc]

theorem head?_drop_takeWhile {b : UInt8}
    (hb : (t.drop (t.takeWhile s.blanks.contains).length).head? = some b) : b ∉ s.blanks := by
  induction t with
  | nil => simp at hb
  | cons c rest ih =>
    by_cases hc : s.blanks.contains c = true
    · rw [List.takeWhile_cons_of_pos hc] at hb
      exact ih hb
    · rw [List.takeWhile_cons_of_neg hc] at hb
      cases hb
      simpa using hc

/-- Behind the blanks there is no blank. -/
theorem not_mem_blanks_of_passBlanks {b : UInt8} (hb : t[s.passBlanks t i]? = some b) : b ∉ s.blanks := by
  rw [passBlanks, ← List.head?_drop, ← List.drop_drop] at hb
  exact head?_drop_takeWhile hb

/-- From the start of a comment, skipping goes on at the end of its line, and that lies further on: the mark is on the
line itself. -/
theorem skip_lineEnd (hs : s.comment = some mark) (hmark : mark ≠ Text.newline) (hblank : mark ∉ s.blanks)
    (hi : t[i]? = some mark) : s.skip t (lineEnd t i) = s.skip t i ∧ i < lineEnd t i ∧ lineEnd t i ≤ t.length := by
  obtain ⟨rest, hrest⟩ : ∃ rest, t.drop i = mark :: rest := by
    rw [← List.head?_drop] at hi
    exact List.head?_eq_some_iff.mp hi
  have hline : lineLength (t.drop i) = lineLength rest + 1 := by
    rw [hrest, lineLength, List.takeWhile_cons_of_pos (by simpa using hmark), List.length_cons, lineLength]
  have hcount : s.count (t.drop i) = 1 + lineLength rest + s.count (rest.drop (lineLength rest)) := by
    rw [hrest, count, if_neg (by simpa using hblank), if_pos hs]
  have hlength : lineLength (t.drop i) ≤ (t.drop i).length := (List.takeWhile_prefix _).length_le
  rw [List.length_drop] at hlength
  refine ⟨?_, by rw [lineEnd]; omega, by rw [lineEnd]; omega⟩
  rw [skip, skip, lineEnd, ← List.drop_drop, hline, hcount, hrest, List.drop_succ_cons]
  omega

/-- Where no comment starts, the turn was the last. -/
theorem skip_of_not_atComment (hi : ¬ s.AtComment t (s.passBlanks t i)) : s.passBlanks t i = s.skip t i := by
  have hzero : s.count (t.drop (s.passBlanks t i)) = 0 := by
    apply count_eq_zero
    intro b hb
    rw [List.head?_drop] at hb
    exact ⟨not_mem_blanks_of_passBlanks hb, fun hcomment => hi ⟨b, hcomment, hb⟩⟩
  rw [← skip_passBlanks, skip, hzero, Nat.add_zero]

/-! ### All turns -/

/-- Each turn but the last passes the mark of a comment, so there are no more turns than bytes, and one. -/
theorem skipWithin_eq_skip {n : Nat} (hs : s.comment = some mark) (hmark : mark ≠ Text.newline) (hi : i ≤ t.length)
    (hn : t.length - i < n) : s.skipWithin t n i = some (s.skip t i) := by
  -- On the turns that are left: a turn that is not the last leaves fewer bytes, since the mark is none of them.
  induction n generalizing i with
  | zero => exact absurd hn (Nat.not_lt_zero _)
  | succ n ih =>
    have hpass : i ≤ s.passBlanks t i := Nat.le_add_right _ _
    rw [skipWithin]
    split
    case isFalse hcomment => rw [skip_of_not_atComment hcomment]
    case isTrue hcomment =>
      obtain ⟨mark', hmark', hbyte⟩ := hcomment
      obtain rfl : mark = mark' := Option.some.inj (hs.symm.trans hmark')
      obtain ⟨hskip, hlt, hle⟩ := skip_lineEnd hs hmark (not_mem_blanks_of_passBlanks hbyte) hbyte
      rw [ih hle (by omega), hskip, skip_passBlanks]

/-- A mark that ends a line holds the loop up forever. -/
theorem skipWithin_newline {blanks : List UInt8} (hblank : Text.newline ∉ blanks) (rest : Text) (n : Nat) :
    (Skipper.mk blanks (some Text.newline)).skipWithin (Text.newline :: rest) n 0 = none := by
  have hpass : (Skipper.mk blanks (some Text.newline)).passBlanks (Text.newline :: rest) 0 = 0 := by
    simp [passBlanks, hblank]
  have hline : lineEnd (Text.newline :: rest) 0 = 0 := rfl
  induction n with
  | zero => rfl
  | succ n ih =>
    rw [skipWithin, hpass, if_pos ⟨_, rfl, rfl⟩, hline]
    exact ih

theorem skipFrom_natCast (s : Skipper) (t : Text) (i : Nat) : s.skipFrom t i = .ok (s.skip t i) :=
  if_neg (Int.not_lt.mpr (Int.natCast_nonneg i))

theorem skip_le (s : Skipper) (hi : i ≤ t.length) : s.skip t i ≤ t.length := by
  have hcount := s.count_le (t.drop i)
  rw [List.length_drop] at hcount
  rw [skip]
  omega

theorem skip_skip (s : Skipper) (t : Text) (i : Nat) : s.skip t (s.skip t i) = s.skip t i := by
  have hcount : s.count (t.drop (s.skip t i)) = 0 := by
    rw [skip, ← List.drop_drop]
    exact s.count_drop_count (t.drop i)
  rw [skip, hcount, Nat.add_zero]

theorem skipped_skip (hs : s.comment = some mark) (t : Text) (i : Nat) :
    Skipped s.blanks mark ((t.take (s.skip t i)).drop i) (t.drop (s.skip t i)) := by
  rw [List.drop_take, skip, Nat.add_sub_cancel_left, ← List.drop_drop]
  exact skipped_count hs (t.drop i)

/-- Whatever stretch is made of blanks and comments, skipping gets behind it. -/
theorem Skipped.le_skip {j : Nat} (hu : Skipped s.blanks mark ((t.take j).drop i) (t.drop j))
    (hs : s.comment = some mark) (hmark : mark ∉ s.blanks) (hj : j ≤ t.length) (hij : i ≤ j) : j ≤ s.skip t i := by
  have htext : (t.take j).drop i ++ t.drop j = t.drop i := by
    rw [← List.drop_append_of_le_length (by rw [List.length_take]; omega), List.take_append_drop]
  have hcount := hu.count_append hs hmark
  rw [htext, List.length_drop, List.length_take] at hcount
  rw [skip, hcount]
  omega

/-- Skipping blanks ends, and ends where nothing is left to skip. For any blanks and any mark that does not end a line,
the loop ends within one turn more than there are bytes. It has passed blanks and comments only, it stopped at neither,
so it stays there if it is run again; and if the mark is not a blank, no longer stretch is made of blanks and comments.
-/
theorem skipping_ends_behind_blanks (blanks : List UInt8) (mark : UInt8) (hblanks : ∀ b ∈ blanks, b < 64)
    (hmark : mark ≠ Text.newline) :
    ∃ s, ofBlanks blanks (some mark) = .ok s ∧ ∀ (t : Text) (st : Nat), st ≤ t.length →
      ∃ i, s.skipWithin t (t.length - st + 1) st = some i ∧ s.skipFrom t st = .ok i ∧ st ≤ i ∧ i ≤ t.length ∧
        Skipped blanks mark ((t.take i).drop st) (t.drop i) ∧
        (∀ b, t[i]? = some b → b ∉ blanks ∧ b ≠ mark) ∧
        s.skipFrom t i = .ok i ∧
        (mark ∉ blanks → ∀ j, st ≤ j → j ≤ t.length → Skipped blanks mark ((t.take j).drop st) (t.drop j) → j ≤ i) := by
  refine ⟨⟨blanks, some mark⟩, if_pos (by simpa using hblanks), fun t st hst => ?_⟩
  generalize hs : Skipper.mk blanks (some mark) = s
  obtain ⟨rfl, hcomment⟩ : s.blanks = blanks ∧ s.comment = some mark := by simp [← hs]
  refine ⟨s.skip t st, skipWithin_eq_skip hcomment hmark hst (Nat.lt_succ_self _), s.skipFrom_natCast t st,
    Nat.le_add_right _ _, s.skip_le hst, skipped_skip hcomment t st, ?_, ?_, ?_⟩
  · intro b hb
    rw [skip, ← List.head?_drop, ← List.drop_drop] at hb
    obtain ⟨hblank, hne⟩ := s.head?_drop_count (t.drop st) b hb
    exact ⟨hblank, fun heq => hne (heq ▸ hcomment)⟩
  · rw [skipFrom_natCast, skip_skip]
  · intro hfree j hle hj hu
    exact hu.le_skip hcomment hfree hj hle

/-- A comment, the end of its line, a blank and a comment that ends with the text. -/
def hashComments : Text := " #a\n #b"

theorem hashComments_are_skipped :
    (∀ b ∈ spaceAll.blanks, b < 64) ∧ (35 : UInt8) ≠ Text.newline ∧
    ∃ s, ofBlanks spaceAll.blanks (some 35) = .ok s ∧ 0 ≤ hashComments.length ∧
      s.skipWithin hashComments 8 0 = some 7 ∧ s.skipFrom hashComments 0 = .ok 7 ∧
      Skipped spaceAll.blanks 35 ((hashComments.take 7).drop 0) (hashComments.drop 7) ∧
      (∀ b, hashComments[7]? = some b → b ∉ spaceAll.blanks ∧ b ≠ 35) ∧ s.skipFrom hashComments 7 = .ok 7 := by
  have hblanks : ∀ b ∈ spaceAll.blanks, b < 64 := by simp [spaceAll]
  have hmark : (35 : UInt8) ≠ Text.newline := by decide
  obtain ⟨s, hs, hskip⟩ := skipping_ends_behind_blanks spaceAll.blanks 35 hblanks hmark
  obtain ⟨i, hloop, hfrom, -, -, hskipped, hstop, hagain, -⟩ := hskip hashComments 0 (Nat.zero_le _)
  obtain rfl : Skipper.mk spaceAll.blanks (some 35) = s := Except.ok.inj hs
  obtain rfl : 7 = i := by
    apply Option.some.inj
    rw [← hloop]
    decide +kernel
  exact ⟨hblanks, hmark, _, hs, Nat.zero_le _, hloop, hfrom, hskipped, hstop, hagain⟩

end Lowering.Skipper
