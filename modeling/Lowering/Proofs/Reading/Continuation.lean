import Lowering.Proofs.Reading.Language

/-!
# Text behind a text

What is read from a text is read from it wherever it stands and whatever follows it, with all spans moved along. Forms
are complete when their last parenthesis closes, so the only thing that the end of a text can leave open is a comment.
Then the first line of what follows goes with the comment.
-/

namespace Lowering

/-- The span of the same stretch, `d` bytes further on. -/
def Span.shift (d : Nat) (s : Span) : Span := ⟨s.start + d, s.stop + d⟩

namespace SExpr

mutual

/-- The expression with all its spans moved by `d` bytes. -/
def shift (d : Nat) : SExpr → SExpr
  | .atom span w => .atom (span.shift d) w
  | .int span v => .int (span.shift d) v
  | .list span items => .list (span.shift d) (shiftAll d items)

@[inherit_doc shift]
def shiftAll (d : Nat) : List SExpr → List SExpr
  | [] => []
  | x :: rest => x.shift d :: shiftAll d rest

end

theorem start_shift (d : Nat) (x : SExpr) : (x.shift d).span.start = x.span.start + d := by
  cases x <;> rfl

/-! ### Items -/

/-- A leaf is the first word of its text and depends on nothing else. -/
theorem readLeaf_shift {t : Text} {pos stop : Nat} {x : SExpr} (h : readLeaf t pos = .ok (x, stop)) :
    ∃ w after, t = w ++ after ∧ w ≠ [] ∧ w.all isWordByte = true ∧ endsWord after = true ∧ stop = pos + w.length ∧
      ∀ after' d, endsWord after' = true → readLeaf (w ++ after') (pos + d) = .ok (x.shift d, pos + d + w.length) := by
  obtain ⟨w, after, rfl, hne, hw, hafter, rfl, hx⟩ := readLeaf_ok h
  refine ⟨w, after, rfl, hne, hw, hafter, rfl, ?_⟩
  intro after' d hafter'
  have hspan : Span.shift d ⟨pos, pos + w.length⟩ = ⟨pos + d, pos + d + w.length⟩ := by
    rw [Span.shift, Nat.add_right_comm]
  obtain ⟨rfl, hname⟩ | ⟨v, rfl, hstarts, hread⟩ := hx
  · rw [readLeaf_name hname hafter', shift, hspan]
  · rw [readLeaf_literal hw hstarts hread hafter', shift, hspan]

theorem endsWord_append {t : Text} (ht : endsWord t = true) (hne : t ≠ []) (u : Text) : endsWord (t ++ u) = true := by
  cases t with
  | nil => exact absurd rfl hne
  | cons b t => exact ht

/-- The items of a list end at its parenthesis. -/
theorem readItems_append {rest : Text} {pos index n : Nat} {items : List SExpr}
    (h : readItems rest pos index = .ok (items, n)) (u : Text) (d index' : Nat) :
    readItems (rest ++ u) (pos + d) index' = .ok (shiftAll d items, n) := by
  fun_induction readItems rest pos index generalizing items n index' with
  | case1 | case3 | case4 | case6 | case7 => cases h
  | case2 =>
    rename_i k after hdrop
    cases h
    obtain ⟨bs, rfl, hbs, hcount : k = bs.length⟩ := eq_blanks_append hdrop
    rw [hcount, List.append_assoc]
    exact readItems_close (hbs.count_cons (by decide) (by decide) _) List.drop_left
  | case5 =>
    rename_i pos _ k cs inner _ hread items m hread' hdrop _ ihinner ihrest
    cases h
    obtain ⟨bs, rfl, hbs, hcount : k = bs.length⟩ := eq_blanks_append hdrop
    obtain ⟨body, after, rfl, rfl, -⟩ := readItems_derives hread
    have hinner := ihinner hread 0
    have hrest := ihrest hread' (index' + 1)
    rw [hcount] at hinner hrest ⊢
    rw [drop_body, show pos + bs.length + body.length + 2 + d = pos + d + bs.length + body.length + 2 by omega] at hrest
    rw [show pos + bs.length + 1 + d = pos + d + bs.length + 1 by omega, List.append_assoc, List.cons_append] at hinner
    rw [List.append_assoc, List.cons_append, List.append_assoc, List.cons_append,
      readItems_list (hbs.count_cons (by decide) (by decide) _) List.drop_left hinner hrest, shiftAll, shift,
      Span.shift]
    simp only [Nat.add_right_comm _ _ d]
  | case8 =>
    rename_i pos _ k c cs hdrop hclose hopen leaf stop hleaf items m hread' ihrest
    cases h
    obtain ⟨bs, rfl, hbs, hcount : k = bs.length⟩ := eq_blanks_append hdrop
    obtain ⟨w, after, hword, hne, hw, hends, rfl, hshift⟩ := readLeaf_shift hleaf
    obtain ⟨b, w, rfl⟩ := List.exists_cons_of_ne_nil hne
    rw [List.cons_append] at hword
    obtain ⟨rfl, rfl⟩ := List.cons.inj hword
    have hc : startsItem c = true := by
      rw [startsItem, List.all_eq_true.mp hw c List.mem_cons_self, Bool.or_true]
    obtain ⟨hblank, hcomment, -⟩ := plain_of_startsItem hc
    have hrest := ihrest hread' (index' + 1)
    rw [List.length_cons, drop_word] at hrest hread'
    -- The list is closed later on, so the word does not end with the text.
    have hne : after ≠ [] := by
      obtain ⟨body, after', rfl, -, -⟩ := readItems_derives hread'
      simp
    have hleaf' := hshift (after ++ u) d (endsWord_append hends hne u)
    rw [hcount] at hleaf' hrest
    rw [show pos + bs.length + (w.length + 1) + d = pos + d + bs.length + (w.length + 1) by omega] at hrest
    rw [show pos + bs.length + d = pos + d + bs.length by omega, List.cons_append] at hleaf'
    rw [List.append_assoc, List.cons_append, List.append_assoc,
      readItems_leaf (hbs.count_cons hblank hcomment _) List.drop_left hclose hopen hleaf' hrest, shiftAll, hcount,
      List.length_cons, show pos + bs.length + (w.length + 1) - pos = bs.length + (w.length + 1) by omega]

/-- A list stands where it starts. -/
theorem readList_append {t : Text} {pos stop : Nat} {x : SExpr} (h : readList t pos = .ok (x, stop)) :
    ∃ body after, t = openParen :: (body ++ closeParen :: after) ∧ stop = pos + body.length + 2 ∧ x.span.start = pos ∧
      (∃ ds, IsItems body ds) ∧ ∀ u d, readList (t ++ u) (pos + d) = .ok (x.shift d, stop + d) := by
  unfold readList at h
  split at h
  · cases h
  · split at h
    · next hopen =>
      split at h
      · cases h
      · next hread =>
        cases h
        subst hopen
        obtain ⟨body, after, rfl, rfl, hbody⟩ := readItems_derives hread
        refine ⟨body, after, rfl, rfl, rfl, ⟨_, hbody⟩, ?_⟩
        intro u d
        have hitems := readItems_append hread u d 0
        rw [Nat.add_right_comm] at hitems
        rw [List.cons_append, readList, if_pos rfl, hitems]
        simp only [shift, Span.shift, Nat.add_right_comm _ _ d]
    · cases h

/-! ### Forms -/

theorem readForms_of_drop {rest cs : Text} {c : UInt8} {k : Nat} (hk : Skipper.blank.count rest = k)
    (hdrop : rest.drop k = c :: cs) (pos index : Nat) :
    readForms rest pos index =
      match readList (c :: cs) (pos + k) with
      | .error e => .error (e.within [.form index])
      | .ok (form, stop) =>
        match readForms ((c :: cs).drop (stop - (pos + k))) stop (index + 1) with
        | .error e => .error e
        | .ok (forms, last) => .ok (form :: forms, last) := by
  subst hk
  rw [readForms]
  split
  · next h =>
    rw [h] at hdrop
    cases hdrop
  · next h =>
    rw [h] at hdrop
    cases hdrop
    split
    · next hform => rw [hform]
    · next hform =>
      generalize readList _ _ = form at hform ⊢
      cases hform
      rfl

/-- Reading starts behind what is skipped. -/
theorem readForms_skip {t u : Text} (hcount : Skipper.blank.count (t ++ u) = t.length + Skipper.blank.count u)
    (pos index : Nat) : readForms (t ++ u) pos index = readForms u (pos + t.length) index := by
  have hdrop : (t ++ u).drop (t.length + Skipper.blank.count u) = u.drop (Skipper.blank.count u) :=
    List.drop_length_add_append ..
  cases hrest : u.drop (Skipper.blank.count u) with
  | nil =>
    rw [Datum.readForms_end hrest, Datum.readForms_end (by rw [hcount, hdrop, hrest]), hcount, Nat.add_assoc]
  | cons c cs =>
    rw [readForms_of_drop rfl hrest, readForms_of_drop hcount (hdrop.trans hrest)]
    simp only [Nat.add_assoc]

/-- Forms are read to the end of the text. -/
theorem readForms_last {t : Text} {pos index last : Nat} {forms : List SExpr}
    (h : readForms t pos index = .ok (forms, last)) : last = pos + t.length := by
  obtain ⟨forms', hread, -⟩ := (readForms_derives h).read .nil pos index
  rw [List.nil_append, h] at hread
  exact (Prod.mk.inj (Except.ok.inj hread)).2

/-- The first form starts where the blanks end. -/
theorem readForms_head {t : Text} {pos index last : Nat} {forms : List SExpr}
    (h : readForms t pos index = .ok (forms, last)) :
    forms.head?.map (·.span.start) =
      if Skipper.blank.count t < t.length then some (pos + Skipper.blank.count t) else none := by
  cases hdrop : t.drop (Skipper.blank.count t) with
  | nil =>
    rw [Datum.readForms_end hdrop] at h
    cases h
    rw [if_neg (Nat.not_lt.mpr (List.drop_eq_nil_iff.mp hdrop))]
    rfl
  | cons c cs =>
    have hlt : Skipper.blank.count t < t.length := by
      apply Nat.lt_of_not_le
      intro hle
      rw [List.drop_eq_nil_of_le hle] at hdrop
      cases hdrop
    rw [readForms_of_drop rfl hdrop] at h
    split at h
    · cases h
    · next hlist =>
      split at h
      · cases h
      · cases h
        obtain ⟨-, -, -, -, hstart, -⟩ := readList_append hlist
        rw [if_pos hlt, List.head?_cons, Option.map_some, hstart]

/-! ### Comments -/

/-- Is the end of a text inside a comment, if its start is or is not? -/
def commentAfter (inside : Bool) (t : Text) : Bool :=
  t.foldl (fun inside b => b != Text.newline && (inside || b == 59)) inside

theorem commentAfter_cons (inside : Bool) (b : UInt8) (t : Text) :
    commentAfter inside (b :: t) = commentAfter (b != Text.newline && (inside || b == 59)) t := rfl

theorem commentAfter_append (inside : Bool) (t u : Text) :
    commentAfter inside (t ++ u) = commentAfter (commentAfter inside t) u := List.foldl_append ..

theorem commentAfter_newline (inside : Bool) (t u : Text) :
    commentAfter inside (t ++ Text.newline :: u) = commentAfter false u := by
  rw [commentAfter_append]
  rfl

theorem commentAfter_line {t : Text} (ht : Text.newline ∉ t) : commentAfter true t = true := by
  induction t with
  | nil => rfl
  | cons b t ih =>
    obtain ⟨hb, ht⟩ := not_or.mp (mt List.mem_cons.mpr ht)
    rw [commentAfter_cons, bne_iff_ne.mpr (Ne.symm hb), Bool.true_or, Bool.true_and, ih ht]

theorem Blanks.endsOutside {bs : Text} (hbs : Blanks bs) : commentAfter false bs = false := by
  induction hbs with
  | nil => rfl
  | cons hb _ ih =>
    rw [commentAfter_append]
    cases hb with
    | byte hb =>
      rcases hb with rfl | rfl | rfl | rfl <;> exact ih
    | comment hbody => rw [commentAfter_newline]; exact ih

theorem commentAfter_word {w : Text} (hw : ∀ b ∈ w, InWord b) : commentAfter false w = false := by
  induction w with
  | nil => rfl
  | cons b w ih =>
    obtain ⟨hb, hw⟩ := List.forall_mem_cons.mp hw
    have hne : (b == 59) = false := beq_eq_false_iff_ne.mpr hb.2.2.2.2
    rw [commentAfter_cons, hne, Bool.or_false, Bool.and_false, ih hw]

/-- A list leaves no comment open. -/
theorem IsItems.endsOutside {t : Text} {ds : List Datum} (h : IsItems t ds) : commentAfter false t = false := by
  induction h with
  | nil => rfl
  | blank hb _ ih =>
    have hb := (Blanks.cons hb .nil).endsOutside
    rw [List.append_nil] at hb
    rw [commentAfter_append, hb, ih]
  | word _ hw _ _ _ ih => rw [commentAfter_append, commentAfter_word hw, ih]
  | @list inner t _ _ _ _ ihinner ih =>
    change commentAfter false (inner ++ closeParen :: t) = false
    rw [commentAfter_append, ihinner]
    exact ih

/-- The bytes at the start of a text that a comment before it takes. -/
def carried (inside : Bool) (t : Text) : Nat := if inside then Skipper.lineLength t else 0

/-- Reads forms from inside a comment, or from outside. -/
def readOn (inside : Bool) (t : Text) (pos index : Nat) : Except ReadError (List SExpr × Nat) :=
  readForms (t.drop (carried inside t)) (pos + carried inside t) index

/-- Forms that were read before. -/
def behind (forms : List SExpr) (found : List SExpr × Nat) : List SExpr × Nat := (forms ++ found.1, found.2)

/-- What follows a comment is read behind the line of the comment. -/
theorem readForms_comment {body : Text} (hbody : Text.newline ∉ body) (u : Text) (pos index : Nat) :
    readForms (59 :: body ++ u) pos index = readOn true u (pos + (body.length + 1)) index := by
  obtain ⟨line, after, rfl, hline, hafter⟩ := eq_line_append u
  have hnotin : Text.newline ∉ body ++ line := fun h => (List.mem_append.mp h).elim hbody hline
  have hcount : Skipper.blank.count ((59 :: body ++ line) ++ after) =
      (59 :: body ++ line).length + Skipper.blank.count after := by
    rw [List.cons_append, List.cons_append, count_comment, lineLength_append hnotin hafter, List.drop_left,
      List.length_cons]
    omega
  rw [← List.append_assoc, readForms_skip hcount, readOn, carried, if_pos rfl, lineLength_append hline hafter,
    List.drop_left, List.length_append, List.length_cons, ← Nat.add_assoc pos]

/-- Where a text has no forms, reading goes on with the text that follows. -/
theorem readForms_append_of_skipped {t : Text} (hdrop : t.drop (Skipper.blank.count t) = []) (u : Text)
    (pos index : Nat) : readForms (t ++ u) pos index = readOn (commentAfter false t) u (pos + t.length) index := by
  obtain ⟨bs, rest, rfl, hbs, hcount | ⟨body, rfl, hbody, -⟩⟩ := count_cases t
  · obtain rfl : rest = [] := by
      rw [← hdrop, hcount, List.drop_left]
    rw [List.append_nil, hbs.endsOutside, readForms_skip (hbs.count_append u)]
    rfl
  · have hinside : commentAfter false (59 :: body) = true := commentAfter_line hbody
    rw [commentAfter_append, hbs.endsOutside, hinside, List.append_assoc, readForms_skip (hbs.count_append _),
      readForms_comment hbody, List.length_append, List.length_cons, Nat.add_assoc]

/-- Behind the forms of a text, reading goes on with the text that follows. -/
theorem readForms_append {t : Text} {pos index last : Nat} {forms : List SExpr}
    (h : readForms t pos index = .ok (forms, last)) (u : Text) (d index' : Nat) :
    readForms (t ++ u) (pos + d) index' =
      (readOn (commentAfter false t) u (pos + d + t.length) (index' + forms.length)).map
        (behind (shiftAll d forms)) := by
  fun_induction readForms t pos index generalizing forms last index' with
  | case1 =>
    rename_i hdrop
    cases h
    rw [readForms_append_of_skipped hdrop]
    cases readOn .. <;> rfl
  | case2 | case3 => cases h
  | case4 =>
    rename_i pos _ k c cs hdrop form stop hform forms last hrest ihrest
    cases h
    obtain ⟨bs, rfl, hbs, hcount : k = bs.length⟩ := eq_blanks_append hdrop
    obtain ⟨body, after, hlist, rfl, -, ⟨ds, hbody⟩, hform'⟩ := readList_append hform
    obtain ⟨rfl, rfl⟩ := List.cons.inj hlist
    have hread := ihrest hrest (index' + 1)
    rw [drop_list] at hread
    have hform' := hform' u d
    rw [hcount] at hread hform'
    rw [Nat.add_right_comm, List.cons_append, List.append_assoc, List.cons_append] at hform'
    have hinside : commentAfter false (bs ++ openParen :: (body ++ closeParen :: after)) =
        commentAfter false after := by
      rw [commentAfter_append, hbs.endsOutside]
      change commentAfter false (body ++ closeParen :: after) = _
      rw [commentAfter_append, hbody.endsOutside]
      rfl
    rw [hinside, List.append_assoc, List.cons_append, List.append_assoc, List.cons_append,
      readForms_of_drop (hbs.count_cons (by decide) (by decide) _) List.drop_left, hform']
    dsimp only
    rw [show pos + bs.length + body.length + 2 + d - (pos + d + bs.length) =
        pos + bs.length + body.length + 2 - (pos + bs.length) by omega,
      drop_list, hread, show pos + bs.length + body.length + 2 + d + after.length =
        pos + d + (bs ++ openParen :: (body ++ closeParen :: after)).length by simp; omega,
      List.length_cons, show index' + 1 + forms.length = index' + (forms.length + 1) by omega]
    cases readOn .. <;> rfl

end SExpr

end Lowering
