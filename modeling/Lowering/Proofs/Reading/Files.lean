import Mathlib.Data.List.Forall2
import Lowering.Proofs.Reading.Continuation

/-!
# Files of one source

The files of a source are read as one text, with nothing between them. Files that can be read on their own are read in
the source as the same forms, each moved to where its file stands, unless a form begins on the first line of a file and
the text before it ends inside a comment. That line goes with the comment, and the form is lost.
-/

namespace Lowering

namespace SExpr

/-! ### First lines -/

/-- Does a form begin on the first line, before any comment? -/
def opensAtOnce (t : Text) : Bool := (t.takeWhile fun b => b != Text.newline && b != 59).contains openParen

theorem lineLength_cons {b : UInt8} (hb : b ≠ Text.newline) (t : Text) :
    Skipper.lineLength (b :: t) = Skipper.lineLength t + 1 := by
  rw [Skipper.lineLength, List.takeWhile_cons_of_pos (p := (· != Text.newline)) (bne_iff_ne.mpr hb), List.length_cons]
  rfl

theorem lineLength_newline (t : Text) : Skipper.lineLength (Text.newline :: t) = 0 := rfl

theorem opensAtOnce_cons {b : UInt8} (hnewline : b ≠ Text.newline) (hcomment : b ≠ 59) (t : Text) :
    opensAtOnce (b :: t) = (openParen == b || opensAtOnce t) := by
  rw [opensAtOnce, List.takeWhile_cons_of_pos (by simp [hnewline, hcomment]), List.contains_cons]
  rfl

/-- A form that begins on the first line begins before its end. -/
theorem count_lt_lineLength {t : Text} (ht : opensAtOnce t = true) : Skipper.blank.count t < Skipper.lineLength t := by
  induction t with
  | nil => cases ht
  | cons b t ih =>
    have hnewline : b ≠ Text.newline := by
      rintro rfl
      cases ht
    have hcomment : b ≠ 59 := by
      rintro rfl
      cases ht
    rw [lineLength_cons hnewline]
    by_cases hblank : Skipper.blank.blanks.contains b = true
    · have hne : (openParen == b) = false := by
        apply beq_eq_false_iff_ne.mpr
        rintro rfl
        cases hblank
      rw [opensAtOnce_cons hnewline hcomment, hne, Bool.false_or] at ht
      have := ih ht
      rw [count_blankByte hblank]
      omega
    · rw [count_blank_of_plain (Bool.eq_false_iff.mpr hblank) hcomment]
      omega

/-- Where no form begins on the first line, all of the line is skipped. -/
theorem count_line {t : Text} (hopen : ∀ c cs, t.drop (Skipper.blank.count t) = c :: cs → c = openParen)
    (ht : opensAtOnce t = false) :
    Skipper.blank.count t = Skipper.lineLength t + Skipper.blank.count (t.drop (Skipper.lineLength t)) := by
  induction t with
  | nil => exact (Nat.zero_add _).symm
  | cons b t ih =>
    by_cases hnewline : b = Text.newline
    · subst hnewline
      rw [lineLength_newline, List.drop_zero, Nat.zero_add]
    rw [lineLength_cons hnewline, List.drop_succ_cons]
    by_cases hcomment : b = 59
    · subst hcomment
      rw [count_comment, Nat.add_comm 1]
    rw [opensAtOnce_cons hnewline hcomment, Bool.or_eq_false_iff] at ht
    by_cases hblank : Skipper.blank.blanks.contains b = true
    · rw [count_blankByte hblank] at hopen ⊢
      have := ih (fun c cs h => hopen c cs (by rw [Nat.add_comm]; exact h)) ht.2
      omega
    · have hzero := count_blank_of_plain (Bool.eq_false_iff.mpr hblank) hcomment t
      have := hopen b t (by rw [hzero]; rfl)
      simp [this] at ht

/-- A document starts with blanks and a parenthesis. -/
theorem readForms_opens {t : Text} {pos index last : Nat} {forms : List SExpr}
    (h : readForms t pos index = .ok (forms, last)) (c : UInt8) (cs : Text)
    (hdrop : t.drop (Skipper.blank.count t) = c :: cs) : c = openParen := by
  rw [readForms_of_drop rfl hdrop] at h
  split at h
  · cases h
  · next hlist =>
    obtain ⟨_, _, hcons, -⟩ := readList_append hlist
    exact (List.cons.inj hcons).1

/-- Where no form begins on the first line, the line may be left out. -/
theorem readForms_line {t : Text} {pos index last : Nat} {forms : List SExpr}
    (h : readForms t pos index = .ok (forms, last)) (ht : opensAtOnce t = false) :
    readForms (t.drop (Skipper.lineLength t)) (pos + Skipper.lineLength t) index = .ok (forms, last) := by
  have hcount := count_line (readForms_opens h) ht
  have hlength : (t.take (Skipper.lineLength t)).length = Skipper.lineLength t := by
    rw [List.length_take]
    exact Nat.min_eq_left (List.takeWhile_prefix _).length_le
  have hskip := @readForms_skip (t.take (Skipper.lineLength t)) (t.drop (Skipper.lineLength t))
    (by rw [List.take_append_drop, hlength, hcount]) pos index
  rw [List.take_append_drop, hlength, h] at hskip
  exact hskip.symm

/-! ### One file after the other -/

theorem lineLength_append_line {line : Text} (hline : Text.newline ∉ line) (u : Text) :
    Skipper.lineLength (line ++ u) = line.length + Skipper.lineLength u := by
  obtain ⟨body, after, rfl, hbody, hafter⟩ := eq_line_append u
  have hnotin : Text.newline ∉ line ++ body := fun h => (List.mem_append.mp h).elim hline hbody
  rw [← List.append_assoc, lineLength_append hnotin hafter, lineLength_append hbody hafter, List.length_append]

/-- Reading goes over a text to the text that follows, unless a comment takes the start of a form. -/
theorem readOn_append {t : Text} {last : Nat} {forms : List SExpr} (h : readForms t 0 0 = .ok (forms, last))
    {inside : Bool} (ht : (inside && opensAtOnce t) = false) (u : Text) (pos index : Nat) :
    readOn inside (t ++ u) pos index =
      (readOn (commentAfter inside t) u (pos + t.length) (index + forms.length)).map (behind (shiftAll pos forms)) := by
  cases inside with
  | false =>
    have hread := readForms_append h u pos index
    rw [Nat.zero_add] at hread
    exact hread
  | true =>
    have hline := readForms_line h ht
    obtain ⟨line, after, rfl, hnotin, hafter⟩ := eq_line_append t
    rw [lineLength_append hnotin hafter, List.drop_left] at hline
    cases after with
    | nil =>
      rw [Datum.readForms_end List.drop_nil] at hline
      cases hline
      rw [List.append_nil, commentAfter_line hnotin, readOn, carried, if_pos rfl, lineLength_append_line hnotin,
        List.drop_length_add_append, ← Nat.add_assoc]
      change readOn true u (pos + line.length) index = _
      cases readOn .. <;> rfl
    | cons b after =>
      obtain rfl : b = Text.newline := by simpa using hafter
      have hread := readForms_append hline u pos index
      rw [Nat.zero_add] at hread
      rw [commentAfter_newline, readOn, carried, if_pos rfl, List.append_assoc, lineLength_append hnotin rfl,
        List.drop_left, Nat.add_comm pos, hread, List.length_append, Nat.add_comm line.length pos, Nat.add_assoc pos]
      rfl

end SExpr

namespace Source

/-- The forms of files as they stand in one text, the first file being at `base`. -/
def formsFrom (base : Nat) : List SourceFile → List Document → List SExpr
  | f :: files, d :: docs => SExpr.shiftAll base d.forms ++ formsFrom (base + f.text.length) files docs
  | _, _ => []

/-- Is there no file with a form on its first line behind text that ends inside a comment? -/
def keepsForms (inside : Bool) : List SourceFile → Bool
  | [] => true
  | f :: files => !(inside && SExpr.opensAtOnce f.text) && keepsForms (SExpr.commentAfter inside f.text) files

/-- The file can be read on its own. -/
def IsRead (f : SourceFile) (d : Document) : Prop := (ofFile f.name f.text).parse .file = .ok (.document d)

theorem IsRead.readForms {f : SourceFile} {d : Document} (h : IsRead f d) :
    ∃ last, SExpr.readForms f.text 0 0 = .ok (d.forms, last) := by
  obtain ⟨d', last, hd, hread⟩ := readForms_of_parse h
  cases hd
  rw [text_ofFile] at hread
  exact ⟨last, hread⟩

theorem map_behind_eq_ok {forms others : List SExpr} {last : Nat} {found : Except ReadError (List SExpr × Nat)} :
    found.map (SExpr.behind forms) = .ok (forms ++ others, last) ↔ found = .ok (others, last) := by
  cases found with
  | error e =>
    constructor
    all_goals
      intro h
      cases h
  | ok found => simp [Except.map, SExpr.behind, Prod.ext_iff]

/-- A form on the first line is lost to a comment. -/
theorem readOn_ne_of_opensAtOnce {t : Text} {forms : List SExpr} {last : Nat}
    (h : SExpr.readForms t 0 0 = .ok (forms, last)) (ht : SExpr.opensAtOnce t = true) (u : Text) (pos index last' : Nat)
    (others : List SExpr) : SExpr.readOn true (t ++ u) pos index ≠ .ok (SExpr.shiftAll pos forms ++ others, last') := by
  have hbefore := SExpr.count_lt_lineLength ht
  have hline : Skipper.lineLength t ≤ t.length := (List.takeWhile_prefix _).length_le
  have hfirst := SExpr.readForms_head h
  rw [if_pos (by omega), Nat.zero_add] at hfirst
  obtain ⟨x, hx, hstart⟩ := Option.map_eq_some_iff.mp hfirst
  obtain ⟨rest, rfl⟩ := List.head?_eq_some_iff.mp hx
  have hlonger : Skipper.lineLength t ≤ Skipper.lineLength (t ++ u) := by
    rw [Skipper.lineLength, Skipper.lineLength, List.takeWhile_append]
    split
    · rw [List.length_append]
      omega
    · exact Nat.le_refl _
  intro hread
  have hhead := SExpr.readForms_head hread
  rw [SExpr.shiftAll, List.cons_append, List.head?_cons, Option.map_some, SExpr.start_shift, hstart, SExpr.carried,
    if_pos rfl] at hhead
  split at hhead
  · have := Option.some.inj hhead
    omega
  · cases hhead

/-- From inside a comment or from outside, the forms of all files are read exactly if none is lost. -/
theorem readOn_files {files : List SourceFile} {docs : List Document} (h : List.Forall₂ IsRead files docs)
    (inside : Bool) (pos index : Nat) :
    (∃ last, SExpr.readOn inside (files.flatMap (·.text)) pos index = .ok (formsFrom pos files docs, last)) ↔
      keepsForms inside files = true := by
  induction h generalizing inside pos index with
  | nil =>
    rw [List.flatMap_nil, SExpr.readOn, List.drop_nil]
    exact iff_of_true ⟨_, Datum.readForms_end List.drop_nil _ _⟩ rfl
  | @cons f d files docs hf _ ih =>
    obtain ⟨last, hread⟩ := hf.readForms
    rw [List.flatMap_cons, formsFrom, keepsForms, Bool.and_eq_true, Bool.not_eq_true']
    by_cases hlost : (inside && SExpr.opensAtOnce f.text) = true
    · obtain ⟨rfl, hopens⟩ := Bool.and_eq_true_iff.mp hlost
      apply iff_of_false
      · rintro ⟨last', hall⟩
        exact readOn_ne_of_opensAtOnce hread hopens _ _ _ _ _ hall
      · intro hkept
        rw [hlost] at hkept
        cases hkept.1
    · have hkept := Bool.eq_false_iff.mpr hlost
      rw [SExpr.readOn_append hread hkept, ← ih _ (pos + f.text.length) (index + d.forms.length)]
      simp only [map_behind_eq_ok, hkept, true_and]

/-- The source of files that are added one after the other. -/
def ofFiles (files : List SourceFile) : Source := files.foldl (fun s f => s.add f.name f.text) {}

theorem files_ofFiles (files : List SourceFile) : (ofFiles files).files = files := by
  have hadded (s : Source) : (files.foldl (fun s f => s.add f.name f.text) s).files = s.files ++ files := by
    induction files generalizing s with
    | nil => exact (List.append_nil _).symm
    | cons f files ih =>
      rw [List.foldl_cons, ih, add, List.append_assoc]
      rfl
  exact hadded {}

/-- A source is read as its forms exactly if the forms are read to the end of its text. -/
theorem parse_eq_ok_iff {src : Source} {forms : List SExpr} :
    src.parse .file = .ok (.document ⟨⟨0, src.text.length⟩, forms⟩) ↔
      ∃ last, SExpr.readForms src.text 0 0 = .ok (forms, last) := by
  constructor
  · intro h
    obtain ⟨d, last, hd, hread⟩ := readForms_of_parse h
    cases hd
    exact ⟨last, hread⟩
  · rintro ⟨last, hread⟩
    obtain rfl := SExpr.readForms_last hread
    rw [Nat.zero_add] at hread
    exact parse_of_readForms hread

/-- Files that can be read on their own are read in one source as the same forms, in order and moved to where the files
stand, exactly if no file has a form on its first line behind text that ends inside a comment. -/
theorem forms_of_files_kept_iff (files : List SourceFile) (docs : List Document) (h : List.Forall₂ IsRead files docs) :
    (ofFiles files).parse .file =
        .ok (.document ⟨⟨0, (files.flatMap (·.text)).length⟩, formsFrom 0 files docs⟩) ↔
      keepsForms false files = true := by
  have htext : (ofFiles files).text = files.flatMap (·.text) := by
    rw [text, files_ofFiles]
  rw [← htext, parse_eq_ok_iff, htext]
  exact readOn_files h false 0 0

/-- A comment goes on through blanks and another comment up to the end of a line in the third file. -/
theorem openComment_keeps_forms :
    let files : List SourceFile := [⟨"a", "(a) ; x"⟩, ⟨"b", "  ; (y)"⟩, ⟨"c", "\n(b (c -7))"⟩, ⟨"d", ""⟩, ⟨"e", "(d)"⟩]
    let docs : List Document := [⟨⟨0, 7⟩, [.list ⟨0, 3⟩ [.atom ⟨1, 2⟩ "a"]]⟩, ⟨⟨0, 7⟩, []⟩,
      ⟨⟨0, 11⟩, [.list ⟨1, 11⟩ [.atom ⟨2, 3⟩ "b", .list ⟨4, 10⟩ [.atom ⟨5, 6⟩ "c", .int ⟨7, 9⟩ (-7)]]]⟩, ⟨⟨0, 0⟩, []⟩,
      ⟨⟨0, 3⟩, [.list ⟨0, 3⟩ [.atom ⟨1, 2⟩ "d"]]⟩]
    List.Forall₂ IsRead files docs ∧ keepsForms false files = true ∧
      (ofFiles files).parse .file = .ok (.document ⟨⟨0, 28⟩, [.list ⟨0, 3⟩ [.atom ⟨1, 2⟩ "a"],
        .list ⟨15, 25⟩ [.atom ⟨16, 17⟩ "b", .list ⟨18, 24⟩ [.atom ⟨19, 20⟩ "c", .int ⟨21, 23⟩ (-7)]],
        .list ⟨25, 28⟩ [.atom ⟨26, 27⟩ "d"]]⟩) := by
  intro files docs
  have hread : List.Forall₂ IsRead files docs := by
    repeat first | exact .nil | refine .cons (by with_unfolding_all rfl) ?_
  exact ⟨hread, by decide, (forms_of_files_kept_iff files docs hread).mpr (by decide)⟩

/-- Behind a comment that is not ended, the form on the first line of the second file is lost. -/
theorem openComment_loses_form :
    let files : List SourceFile := [⟨"a", "(a) ; x"⟩, ⟨"b", "(b)"⟩]
    let docs : List Document := [⟨⟨0, 7⟩, [.list ⟨0, 3⟩ [.atom ⟨1, 2⟩ "a"]]⟩,
      ⟨⟨0, 3⟩, [.list ⟨0, 3⟩ [.atom ⟨1, 2⟩ "b"]]⟩]
    List.Forall₂ IsRead files docs ∧
      formsFrom 0 files docs = [.list ⟨0, 3⟩ [.atom ⟨1, 2⟩ "a"], .list ⟨7, 10⟩ [.atom ⟨8, 9⟩ "b"]] ∧
      (ofFiles files).parse .file = .ok (.document ⟨⟨0, 10⟩, [.list ⟨0, 3⟩ [.atom ⟨1, 2⟩ "a"]]⟩) := by
  intro files docs
  have hfirst : IsRead ⟨"a", "(a) ; x"⟩ ⟨⟨0, 7⟩, [.list ⟨0, 3⟩ [.atom ⟨1, 2⟩ "a"]]⟩ := by with_unfolding_all rfl
  have hsecond : IsRead ⟨"b", "(b)"⟩ ⟨⟨0, 3⟩, [.list ⟨0, 3⟩ [.atom ⟨1, 2⟩ "b"]]⟩ := by with_unfolding_all rfl
  refine ⟨.cons hfirst (.cons hsecond .nil), rfl, ?_⟩
  -- The comment takes all of the second file, and nothing is left to read.
  have hrest : SExpr.readOn true "(b)" 7 1 = .ok ([], 10 + Skipper.blank.count []) :=
    Datum.readForms_end List.drop_nil 10 1
  obtain ⟨last, hread⟩ := hfirst.readForms
  have hboth := SExpr.readForms_append hread "(b)" 0 0
  have hinside : SExpr.commentAfter false "(a) ; x" = true := by decide
  rw [hinside] at hboth
  exact parse_eq_ok_iff.mpr ⟨_, hboth.trans (congrArg _ hrest)⟩

end Source

end Lowering
