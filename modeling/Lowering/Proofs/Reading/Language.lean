import Lowering.Proofs.Reading.Data

/-!
# The language of sources

Which texts are documents, and what they say, in the words of a grammar. A document is made of lists and blanks; a list
holds lists and words, with blanks wherever one likes, and a word goes on for as long as it can. The reader is not
mentioned in the grammar. The rest of the module shows that the reader and the grammar agree: what is read was derived,
and what is derived is read, as the same data.
-/

namespace Lowering

namespace SExpr

/-! ### The grammar -/

/-- A blank byte, or a comment together with the end of its line. -/
inductive Blank : Text → Prop where
  | byte {b : UInt8} (hb : b = 32 ∨ b = 9 ∨ b = 13 ∨ b = 10) : Blank [b]
  | comment {body : Text} (hbody : Text.newline ∉ body) : Blank (59 :: body ++ [Text.newline])

/-- A byte that words are made of. -/
def InWord (b : UInt8) : Prop := 0x20 < b ∧ b ≠ 0x7f ∧ b ≠ 40 ∧ b ≠ 41 ∧ b ≠ 59

/-- A word that starts with a digit, or with a minus sign and a digit. -/
def LikeNumber (w : Text) : Prop :=
  ∃ d rest, Text.isDigit d = true ∧ (w = d :: rest ∨ w = 45 :: d :: rest)

/-- What a word says. One that starts like a number and is out of range says nothing. -/
inductive WordSays : Text → Datum → Prop where
  | int {w : Text} {v : Int} (hlike : LikeNumber w) (hread : Text.readInt w = .ok v) : WordSays w (.int v)
  | malformed {w : Text} (hlike : LikeNumber w) (hread : Text.readInt w = .error .malformed) : WordSays w (.atom w)
  | plain {w : Text} (hlike : ¬ LikeNumber w) : WordSays w (.atom w)

/-- What may stand between the parentheses of a list, and the items it says. -/
inductive IsItems : Text → List Datum → Prop where
  | nil : IsItems [] []
  | blank {b t : Text} {ds : List Datum} (hb : Blank b) (ht : IsItems t ds) : IsItems (b ++ t) ds
  | word {w t : Text} {d : Datum} {ds : List Datum} (hne : w ≠ []) (hw : ∀ b ∈ w, InWord b)
    (hmaximal : ∀ b ∈ t.head?, ¬ InWord b) (hd : WordSays w d) (ht : IsItems t ds) : IsItems (w ++ t) (d :: ds)
  | list {inner t : Text} {items ds : List Datum} (hinner : IsItems inner items) (ht : IsItems t ds) :
    IsItems (openParen :: (inner ++ closeParen :: t)) (.list items :: ds)

/-- A document and the lists it says. A comment may end with the text instead of its line. -/
inductive IsDocument : Text → List Datum → Prop where
  | nil : IsDocument [] []
  | lastComment {body : Text} (hbody : Text.newline ∉ body) : IsDocument (59 :: body) []
  | blank {b t : Text} {ds : List Datum} (hb : Blank b) (ht : IsDocument t ds) : IsDocument (b ++ t) ds
  | list {inner t : Text} {items ds : List Datum} (hinner : IsItems inner items) (ht : IsDocument t ds) :
    IsDocument (openParen :: (inner ++ closeParen :: t)) (.list items :: ds)

/-! ### Blanks -/

/-- Blanks in a row. -/
inductive Blanks : Text → Prop where
  | nil : Blanks []
  | cons {b t : Text} (hb : Blank b) (ht : Blanks t) : Blanks (b ++ t)

theorem Blanks.items {bs t : Text} {ds : List Datum} (hbs : Blanks bs) (ht : IsItems t ds) : IsItems (bs ++ t) ds := by
  induction hbs with
  | nil => exact ht
  | cons hb _ ih =>
    rw [List.append_assoc]
    exact .blank hb ih

theorem Blanks.document {bs t : Text} {ds : List Datum} (hbs : Blanks bs) (ht : IsDocument t ds) :
    IsDocument (bs ++ t) ds := by
  induction hbs with
  | nil => exact ht
  | cons hb _ ih =>
    rw [List.append_assoc]
    exact .blank hb ih

theorem isBlank_iff {b : UInt8} : Skipper.blank.blanks.contains b = true ↔ b = 32 ∨ b = 9 ∨ b = 13 ∨ b = 10 := by
  simp [Skipper.blank, Skipper.spaceAll]

theorem count_blankByte {b : UInt8} (hb : Skipper.blank.blanks.contains b = true) (t : Text) :
    Skipper.blank.count (b :: t) = 1 + Skipper.blank.count t := by
  rw [Skipper.count, if_pos hb]

theorem count_comment (t : Text) : Skipper.blank.count (59 :: t) =
    1 + Skipper.lineLength t + Skipper.blank.count (t.drop (Skipper.lineLength t)) := by
  rw [Skipper.count, if_neg (by decide), if_pos (by rfl)]

/-- The length of a line whose end is known. -/
theorem lineLength_append {body after : Text} (hbody : Text.newline ∉ body)
    (hafter : after.head?.all (· == Text.newline) = true) : Skipper.lineLength (body ++ after) = body.length := by
  have hline : ∀ b ∈ body, (b != Text.newline) = true := by
    intro b hb
    apply bne_iff_ne.mpr
    rintro rfl
    exact hbody hb
  have hend : after.takeWhile (· != Text.newline) = [] := by
    cases after with
    | nil => rfl
    | cons b rest =>
      obtain rfl : b = Text.newline := by simpa using hafter
      rfl
  rw [Skipper.lineLength, List.takeWhile_append_of_pos hline, hend, List.append_nil]

/-- Every text is a line and what follows it. -/
theorem eq_line_append (t : Text) :
    ∃ body after, t = body ++ after ∧ Text.newline ∉ body ∧ after.head?.all (· == Text.newline) = true := by
  refine ⟨t.takeWhile (· != Text.newline), t.dropWhile (· != Text.newline), List.takeWhile_append_dropWhile.symm, ?_,
    ?_⟩
  · intro hmem
    have hne := List.all_eq_true.mp (List.all_takeWhile (p := (· != Text.newline)) (l := t)) _ hmem
    simp at hne
  · have hhead := List.head?_dropWhile_not (· != Text.newline) t
    cases h : t.dropWhile (· != Text.newline) with
    | nil => rfl
    | cons b rest =>
      rw [h] at hhead
      simpa using hhead

theorem Blank.count_append {b : Text} (hb : Blank b) (t : Text) :
    Skipper.blank.count (b ++ t) = b.length + Skipper.blank.count t := by
  cases hb with
  | byte hb => exact count_blankByte (isBlank_iff.mpr hb) t
  | @comment body hbody =>
    have htext : (59 :: body ++ [Text.newline]) ++ t = 59 :: (body ++ Text.newline :: t) := by simp
    rw [htext, count_comment, lineLength_append hbody rfl, List.drop_left, count_blankByte (by decide)]
    simp only [List.length_append, List.length_cons, List.length_nil]
    omega

theorem Blanks.count_append {bs : Text} (hbs : Blanks bs) (t : Text) :
    Skipper.blank.count (bs ++ t) = bs.length + Skipper.blank.count t := by
  induction hbs with
  | nil => simp
  | cons hb _ ih => rw [List.append_assoc, hb.count_append, ih, List.length_append, Nat.add_assoc]

/-- Text behind blanks and something that is no blank is not skipped. -/
theorem Blanks.count_cons {bs : Text} (hbs : Blanks bs) {c : UInt8} (hblank : Skipper.blank.blanks.contains c = false)
    (hcomment : c ≠ 59) (t : Text) : Skipper.blank.count (bs ++ c :: t) = bs.length := by
  rw [hbs.count_append, count_blank_of_plain hblank hcomment, Nat.add_zero]

theorem Blanks.snoc {bs b : Text} (hbs : Blanks bs) (hb : Blank b) : Blanks (bs ++ b) := by
  induction hbs with
  | nil => simpa using Blanks.cons hb .nil
  | cons hb' _ ih =>
    rw [List.append_assoc]
    exact .cons hb' ih

/-- What is skipped at the start of a text is made of blanks, unless it is all of the text and ends in a comment. -/
theorem count_cases (t : Text) :
    ∃ bs rest, t = bs ++ rest ∧ Blanks bs ∧
      (Skipper.blank.count t = bs.length ∨
        ∃ body, rest = 59 :: body ∧ Text.newline ∉ body ∧ Skipper.blank.count t = t.length) := by
  induction hlength : t.length using Nat.strongRecOn generalizing t with
  | ind n ih =>
    cases t with
    | nil => exact ⟨[], [], rfl, .nil, .inl Datum.count_nil⟩
    | cons b t =>
      subst hlength
      by_cases hb : Skipper.blank.blanks.contains b = true
      · obtain ⟨bs, rest, rfl, hbs, hcount⟩ := ih _ (Nat.lt_succ_self _) t rfl
        refine ⟨b :: bs, rest, rfl, .cons (.byte (isBlank_iff.mp hb)) hbs, ?_⟩
        rw [count_blankByte hb]
        rcases hcount with hcount | ⟨body, hrest, hbody, hcount⟩
        · exact .inl (by rw [hcount, List.length_cons, Nat.add_comm])
        · exact .inr ⟨body, hrest, hbody, by rw [hcount, List.length_cons, Nat.add_comm]⟩
      · by_cases hcomment : b = 59
        · subst hcomment
          obtain ⟨body, after, rfl, hbody, hafter⟩ := eq_line_append t
          rw [count_comment, lineLength_append hbody hafter, List.drop_left]
          cases after with
          | nil =>
            refine ⟨[], 59 :: body, by simp, .nil, .inr ⟨body, rfl, hbody, ?_⟩⟩
            simp [Datum.count_nil, Nat.add_comm]
          | cons c after =>
            -- The end of the line is a blank itself, so it goes with the comment.
            obtain rfl : c = Text.newline := by simpa using hafter
            obtain ⟨bs, rest, rfl, hbs, hcount⟩ := ih after.length (by simp; omega) after rfl
            refine ⟨(59 :: body ++ [Text.newline]) ++ bs, rest, by simp, .cons (.comment hbody) hbs, ?_⟩
            rw [count_blankByte (by decide)]
            simp only [List.length_append, List.length_cons, List.length_nil]
            rcases hcount with hcount | ⟨last, hrest, hlast, hcount⟩
            · exact .inl (by omega)
            · refine .inr ⟨last, hrest, hlast, ?_⟩
              rw [List.length_append] at hcount
              omega
        · refine ⟨[], b :: t, rfl, .nil, .inl ?_⟩
          exact count_blank_of_plain (Bool.eq_false_iff.mpr hb) hcomment t

/-- Where something is left, only blanks were skipped. -/
theorem eq_blanks_append {t cs : Text} {c : UInt8} (hdrop : t.drop (Skipper.blank.count t) = c :: cs) :
    ∃ bs, t = bs ++ c :: cs ∧ Blanks bs ∧ Skipper.blank.count t = bs.length := by
  obtain ⟨bs, rest, rfl, hbs, hcount | ⟨-, -, -, hcount⟩⟩ := count_cases t
  · rw [hcount, List.drop_left] at hdrop
    exact ⟨bs, by rw [hdrop], hbs, hcount⟩
  · rw [hcount, List.drop_length] at hdrop
    cases hdrop

/-- A text of which nothing is left says nothing. -/
theorem document_of_skipped {t : Text} (hdrop : t.drop (Skipper.blank.count t) = []) : IsDocument t [] := by
  obtain ⟨bs, rest, rfl, hbs, hcount | ⟨body, rfl, hbody, -⟩⟩ := count_cases t
  · rw [hcount, List.drop_left] at hdrop
    rw [hdrop]
    exact hbs.document .nil
  · exact hbs.document (.lastComment hbody)

/-! ### Words -/

theorem isWordByte_iff {b : UInt8} : isWordByte b = true ↔ InWord b := by
  simp [isWordByte, InWord, openParen, closeParen, and_assoc]

theorem all_isWordByte_iff {w : Text} : w.all isWordByte = true ↔ ∀ b ∈ w, InWord b := by
  simp only [List.all_eq_true, isWordByte_iff]

theorem startsLikeInt_iff {w : Text} : startsLikeInt w = true ↔ LikeNumber w := by
  fun_cases startsLikeInt w with
  | case1 d rest =>
    refine ⟨fun hd => ⟨d, rest, hd, .inr rfl⟩, ?_⟩
    rintro ⟨d', rest', hd', h | h⟩
    · cases h
      cases hd'
    · cases h
      exact hd'
  | case2 d rest hminus =>
    refine ⟨fun hd => ⟨d, rest, hd, .inl rfl⟩, ?_⟩
    rintro ⟨d', rest', hd', h | h⟩
    · cases h
      exact hd'
    · cases h
      exact absurd rfl (hminus d' rest' rfl)
  | case3 =>
    refine ⟨fun h => absurd h Bool.false_ne_true, ?_⟩
    rintro ⟨d, rest, -, h | h⟩ <;> cases h

theorem WordSays.of_isName {w : Text} (hw : isName w = true) : WordSays w (.atom w) := by
  by_cases hlike : LikeNumber w
  · exact .malformed hlike ((isName_iff.mp hw).2.2 (startsLikeInt_iff.mpr hlike))
  · exact .plain hlike

theorem WordSays.readLeaf {w after : Text} {d : Datum} (hd : WordSays w d) (hne : w ≠ []) (hw : w.all isWordByte = true)
    (hafter : endsWord after = true) (pos : Nat) :
    ∃ x, readLeaf (w ++ after) pos = .ok (x, pos + w.length) ∧ x.datum = d := by
  cases hd with
  | int hlike hread => exact ⟨_, readLeaf_literal hw (startsLikeInt_iff.mpr hlike) hread hafter pos, rfl⟩
  | malformed hlike hread => exact ⟨_, readLeaf_name (isName_iff.mpr ⟨hne, hw, fun _ => hread⟩) hafter pos, rfl⟩
  | plain hlike =>
    have hno : startsLikeInt w = true → Text.readInt w = .error .malformed :=
      fun hstarts => absurd (startsLikeInt_iff.mp hstarts) hlike
    exact ⟨_, readLeaf_name (isName_iff.mpr ⟨hne, hw, hno⟩) hafter pos, rfl⟩

/-- Inside a list, a word that is followed by no word byte is at its end. -/
theorem endsWord_append_close {t : Text} (rest : Text) :
    endsWord (t ++ closeParen :: rest) = true ↔ ∀ b ∈ t.head?, ¬ InWord b := by
  cases t with
  | nil => simp [endsWord, isWordByte]
  | cons b t => simp [endsWord, ← isWordByte_iff]

/-! ### What is read was derived -/

theorem IsItems.of_readLeaf {t : Text} {pos stop : Nat} {x : SExpr} (h : readLeaf t pos = .ok (x, stop)) :
    ∃ w after, t = w ++ after ∧ w ≠ [] ∧ stop = pos + w.length ∧ ∀ u v ds, after = u ++ closeParen :: v → IsItems u ds →
      IsItems (w ++ u) (x.datum :: ds) := by
  obtain ⟨w, after, rfl, hne, hw, hafter, hstop, hx⟩ := readLeaf_ok h
  refine ⟨w, after, rfl, hne, hstop, ?_⟩
  rintro u v ds rfl hu
  refine .word hne (all_isWordByte_iff.mp hw) ((endsWord_append_close v).mp hafter) ?_ hu
  obtain ⟨rfl, hname⟩ | ⟨v, rfl, hstarts, hread⟩ := hx
  · exact .of_isName hname
  · exact .int (startsLikeInt_iff.mp hstarts) hread

theorem readItems_derives {rest : Text} {pos index n : Nat} {items : List SExpr}
    (h : readItems rest pos index = .ok (items, n)) :
    ∃ inner after, rest = inner ++ closeParen :: after ∧ inner.length = n ∧ IsItems inner (data items) := by
  fun_induction readItems rest pos index generalizing items n with
  | case1 | case3 | case4 | case6 | case7 => cases h
  | case2 =>
    rename_i after hdrop
    cases h
    obtain ⟨bs, rfl, hbs, hcount⟩ := eq_blanks_append hdrop
    have hitems := hbs.items .nil
    rw [List.append_nil] at hitems
    exact ⟨bs, after, rfl, hcount.symm, hitems⟩
  | case5 =>
    rename_i hread _ m hread' hdrop _ ihinner ihrest
    cases h
    obtain ⟨bs, rfl, hbs, hcount⟩ := eq_blanks_append hdrop
    obtain ⟨inner, after, rfl, rfl, hinner⟩ := ihinner hread
    rw [drop_body] at ihrest hread'
    obtain ⟨u, after', rfl, rfl, hu⟩ := ihrest hread'
    refine ⟨bs ++ openParen :: (inner ++ closeParen :: u), after', by simp, ?_, hbs.items (.list hinner hu)⟩
    simp only [List.length_append, List.length_cons]
    omega
  | case8 =>
    rename_i pos _ k c cs hdrop _ _ leaf stop hleaf _ m hread' ihrest
    cases h
    obtain ⟨bs, rfl, hbs, hcount⟩ := eq_blanks_append hdrop
    obtain ⟨w, after, hword, -, rfl, hderives⟩ := IsItems.of_readLeaf hleaf
    rw [hword, Nat.add_sub_cancel_left, List.drop_left] at ihrest hread'
    obtain ⟨u, after', rfl, rfl, hu⟩ := ihrest hread'
    refine ⟨bs ++ (w ++ u), after', by rw [hword]; simp, ?_, hbs.items (hderives u after' _ rfl hu)⟩
    simp only [List.length_append]
    omega

theorem readList_derives {t : Text} {pos stop : Nat} {x : SExpr} (h : readList t pos = .ok (x, stop)) :
    ∃ inner after items, t = openParen :: (inner ++ closeParen :: after) ∧ stop = pos + inner.length + 2 ∧
      IsItems inner items ∧ x.datum = .list items := by
  unfold readList at h
  split at h
  · cases h
  · split at h
    · next hopen =>
      split at h
      · cases h
      · next hread =>
        cases h
        obtain ⟨inner, after, rfl, rfl, hinner⟩ := readItems_derives hread
        exact ⟨inner, after, _, by rw [hopen], rfl, hinner, rfl⟩
    · cases h

theorem readForms_derives {rest : Text} {pos index last : Nat} {forms : List SExpr}
    (h : readForms rest pos index = .ok (forms, last)) : IsDocument rest (data forms) := by
  fun_induction readForms rest pos index generalizing forms last with
  | case1 =>
    rename_i hdrop
    cases h
    exact document_of_skipped hdrop
  | case2 | case3 => cases h
  | case4 =>
    rename_i pos _ k c cs hdrop _ _ hform _ _ hrest ihrest
    cases h
    obtain ⟨bs, rfl, hbs, -⟩ := eq_blanks_append hdrop
    obtain ⟨inner, after, items, hlist, rfl, hinner, hitems⟩ := readList_derives hform
    obtain ⟨rfl, rfl⟩ := List.cons.inj hlist
    rw [drop_list] at ihrest hrest
    rw [data, hitems]
    exact hbs.document (.list hinner (ihrest hrest))

/-! ### What is derived is read -/

/-- The items of a list are read as they are derived, whatever blanks stand before them. -/
theorem IsItems.read {t : Text} {ds : List Datum} (h : IsItems t ds) {bs : Text} (hbs : Blanks bs) (rest : Text)
    (pos index : Nat) :
    ∃ items, readItems (bs ++ (t ++ closeParen :: rest)) pos index = .ok (items, bs.length + t.length) ∧
      data items = ds := by
  induction h generalizing bs rest pos index with
  | nil =>
    exact ⟨[], readItems_close (hbs.count_cons (by decide) (by decide) rest) List.drop_left, rfl⟩
  | @blank b t ds hb _ ih =>
    obtain ⟨items, hread, hdata⟩ := ih (hbs.snoc hb) rest pos index
    refine ⟨items, ?_, hdata⟩
    rw [List.append_assoc b, ← List.append_assoc bs, hread, List.length_append, List.length_append, Nat.add_assoc]
  | @word w t d ds hne hw hmaximal hd _ ih =>
    have hword := all_isWordByte_iff.mpr hw
    obtain ⟨x, hx, hdatum⟩ := hd.readLeaf hne hword ((endsWord_append_close rest).mpr hmaximal) (pos + bs.length)
    obtain ⟨items, hread, hdata⟩ := ih .nil rest (pos + bs.length + w.length) (index + 1)
    rw [List.length_nil, Nat.zero_add] at hread
    obtain ⟨c, w, rfl⟩ := List.exists_cons_of_ne_nil hne
    have hc : isWordByte c = true := List.all_eq_true.mp hword c (List.mem_cons_self ..)
    obtain ⟨hblank, hcomment, hclose⟩ := plain_of_startsItem (c := c) (by rw [startsItem, hc, Bool.or_true])
    have hopen : c ≠ openParen := by
      rintro rfl
      exact Bool.false_ne_true hc
    rw [List.append_assoc]
    have hcount : Skipper.blank.count (bs ++ (c :: w ++ (t ++ closeParen :: rest))) = bs.length :=
      hbs.count_cons hblank hcomment _
    refine ⟨x :: items, ?_, by rw [data, hdatum, hdata]⟩
    rw [readItems_leaf hcount List.drop_left hclose hopen hx hread, List.length_append, List.length_cons, Nat.add_assoc]
  | @list inner t items ds _ _ ihinner ih =>
    obtain ⟨inside, hinside, hdata⟩ := ihinner .nil (t ++ closeParen :: rest) (pos + bs.length + 1) 0
    obtain ⟨others, hothers, hdata'⟩ := ih .nil rest (pos + bs.length + inner.length + 2) (index + 1)
    rw [List.length_nil, Nat.zero_add] at hinside hothers
    have htext : openParen :: (inner ++ closeParen :: t) ++ closeParen :: rest =
        openParen :: (inner ++ closeParen :: (t ++ closeParen :: rest)) := by simp
    rw [htext]
    have hcount : Skipper.blank.count (bs ++ openParen :: (inner ++ closeParen :: (t ++ closeParen :: rest))) =
        bs.length := hbs.count_cons (by decide) (by decide) _
    refine ⟨.list ⟨pos + bs.length, pos + bs.length + inner.length + 2⟩ inside :: others, ?_, ?_⟩
    · rw [readItems_list hcount List.drop_left hinside hothers, List.length_cons, List.length_append, List.length_cons]
      congr 2
      omega
    · rw [data, hdata', ← hdata]
      rfl

/-- A document is read to its end as it is derived, whatever blanks stand before it. -/
theorem IsDocument.read {t : Text} {ds : List Datum} (h : IsDocument t ds) {bs : Text} (hbs : Blanks bs)
    (pos index : Nat) :
    ∃ forms, readForms (bs ++ t) pos index = .ok (forms, pos + (bs ++ t).length) ∧ data forms = ds := by
  induction h generalizing bs pos index with
  | nil =>
    have hcount : Skipper.blank.count (bs ++ []) = (bs ++ []).length := by
      rw [hbs.count_append, Datum.count_nil, List.length_append, List.length_nil]
    refine ⟨[], ?_, rfl⟩
    rw [Datum.readForms_end (by rw [hcount, List.drop_length]), hcount]
  | @lastComment body hbody =>
    have hline : Skipper.lineLength body = body.length := by
      have hline := @lineLength_append body [] hbody rfl
      rwa [List.append_nil] at hline
    have hcount : Skipper.blank.count (bs ++ 59 :: body) = (bs ++ 59 :: body).length := by
      rw [hbs.count_append, count_comment, hline, List.drop_length, Datum.count_nil]
      simp only [List.length_append, List.length_cons]
      omega
    refine ⟨[], ?_, rfl⟩
    rw [Datum.readForms_end (by rw [hcount, List.drop_length]), hcount]
  | @blank b t ds hb _ ih =>
    rw [← List.append_assoc]
    exact ih (hbs.snoc hb) pos index
  | @list inner t items ds hinner _ ih =>
    obtain ⟨inside, hinside, hdata⟩ := hinner.read .nil t (pos + bs.length + 1) 0
    rw [List.nil_append, List.length_nil, Nat.zero_add] at hinside
    obtain ⟨forms, hforms, hdata'⟩ := ih .nil (pos + bs.length + inner.length + 2) (index + 1)
    rw [List.nil_append] at hforms
    have hcount : Skipper.blank.count (bs ++ openParen :: (inner ++ closeParen :: t)) = bs.length :=
      hbs.count_cons (by decide) (by decide) _
    have hlist : readList (openParen :: (inner ++ closeParen :: t)) (pos + bs.length) =
        .ok (.list ⟨pos + bs.length, pos + bs.length + inner.length + 2⟩ inside,
          pos + bs.length + inner.length + 2) := by
      rw [readList, if_pos rfl, hinside]
    refine ⟨.list ⟨pos + bs.length, pos + bs.length + inner.length + 2⟩ inside :: forms, ?_, ?_⟩
    · rw [Datum.readForms_cons hcount List.drop_left hlist (by rw [drop_list, hforms])]
      simp only [List.length_append, List.length_cons]
      congr 2
      omega
    · rw [data, hdata', ← hdata]
      rfl

end SExpr

/-- A text is read exactly when it is a document, and what is read is what the document says. -/
theorem Source.is_read_iff_in_language (name text : Text) :
    ((∃ node, (Source.ofFile name text).parse .file = .ok node) ↔ ∃ ds, SExpr.IsDocument text ds) ∧
      ∀ ds, SExpr.IsDocument text ds ↔
        ∃ d, (Source.ofFile name text).parse .file = .ok (.document d) ∧ SExpr.data d.forms = ds := by
  have hderives : ∀ node, (Source.ofFile name text).parse .file = .ok node →
      ∃ d, node = .document d ∧ SExpr.IsDocument text (SExpr.data d.forms) := by
    intro node h
    obtain ⟨d, last, rfl, hforms⟩ := Source.readForms_of_parse h
    rw [Source.text_ofFile] at hforms
    exact ⟨d, rfl, SExpr.readForms_derives hforms⟩
  have hread : ∀ ds, SExpr.IsDocument text ds →
      ∃ d, (Source.ofFile name text).parse .file = .ok (.document d) ∧ SExpr.data d.forms = ds := by
    intro ds h
    obtain ⟨forms, hforms, hdata⟩ := h.read .nil 0 0
    rw [List.nil_append, Nat.zero_add, ← Source.text_ofFile name text] at hforms
    exact ⟨_, Source.parse_of_readForms hforms, hdata⟩
  refine ⟨⟨?_, ?_⟩, fun ds => ⟨hread ds, ?_⟩⟩
  · rintro ⟨node, h⟩
    obtain ⟨d, rfl, hd⟩ := hderives node h
    exact ⟨_, hd⟩
  · rintro ⟨ds, h⟩
    obtain ⟨d, hd, -⟩ := hread ds h
    exact ⟨_, hd⟩
  · rintro ⟨d, h, rfl⟩
    obtain ⟨_, heq, hd⟩ := hderives _ h
    cases heq
    exact hd

end Lowering
