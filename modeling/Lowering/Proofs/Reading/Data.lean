import Lowering.Proofs.Reading.Words
import Lowering.SExpr.Source

/-!
# Data

What an expression says, apart from where it stands in its source. A datum is written with one blank between the items
of a list, and what is written is read back as the datum. Everything that is ever read can be written in this way.
-/

namespace Lowering

/-- An expression without its spans. -/
inductive Datum where
  | atom (text : Text)
  | int (value : Int)
  | list (items : List Datum)

namespace Datum

mutual

def text : Datum → Text
  | .atom w => w
  | .int v => Text.ofInt v
  | .list items => "(" ++ Text.join " " (texts items) ++ ")"

def texts : List Datum → List Text
  | [] => []
  | d :: rest => d.text :: texts rest

end

mutual

/-- Are all atoms names and all numbers of 64 bits? -/
def readable : Datum → Bool
  | .atom w => SExpr.isName w
  | .int v => decide (-(Text.signedLimit : Int) ≤ v) && decide (v < Text.signedLimit)
  | .list items => readableAll items

@[inherit_doc readable]
def readableAll : List Datum → Bool
  | [] => true
  | d :: rest => d.readable && readableAll rest

end

/-- The text of items, each behind a blank, the first one behind `lead`. -/
def spaced (lead : Text) : List Datum → Text
  | [] => []
  | d :: rest => lead ++ d.text ++ spaced " " rest

theorem join_texts (items : List Datum) : Text.join " " (texts items) = spaced [] items := by
  have hrest (d : Datum) (rest : List Datum) :
      Text.join " " (texts (d :: rest)) = d.text ++ spaced " " rest := by
    induction rest generalizing d with
    | nil => exact (List.append_nil _).symm
    | cons e rest ih =>
      show d.text ++ Text.ofString " " ++ Text.join " " (texts (e :: rest)) = _
      rw [ih e, spaced, List.append_assoc, List.append_assoc]
  cases items with
  | nil => rfl
  | cons d rest => exact hrest d rest

theorem text_list (items : List Datum) : (Datum.list items).text = 40 :: (spaced [] items ++ [41]) := by
  rw [text, join_texts]
  rfl

end Datum

namespace SExpr

mutual

/-- What the expression says. -/
def datum : SExpr → Datum
  | .atom _ w => .atom w
  | .int _ v => .int v
  | .list _ items => .list (data items)

@[inherit_doc datum]
def data : List SExpr → List Datum
  | [] => []
  | x :: rest => x.datum :: data rest

end

/-! ### Steps of reading -/

theorem readItems_of_drop {rest cs : Text} {c : UInt8} {k : Nat} (hk : Skipper.blank.count rest = k)
    (hdrop : rest.drop k = c :: cs) (pos index : Nat) :
    readItems rest pos index =
      if c = closeParen then .ok ([], k)
      else if c = openParen then
        match readItems cs (pos + k + 1) 0 with
        | .error e => .error (e.within [.item index, .inside "parse.List"])
        | .ok (inner, n) =>
          match readItems (cs.drop (n + 1)) (pos + k + n + 2) (index + 1) with
          | .error e => .error e
          | .ok (items, m) => .ok (.list ⟨pos + k, pos + k + n + 2⟩ inner :: items, k + n + 2 + m)
      else
        match readLeaf (c :: cs) (pos + k) with
        | .error e => .error (e.within [.item index])
        | .ok (leaf, stop) =>
          match readItems ((c :: cs).drop (stop - (pos + k))) stop (index + 1) with
          | .error e => .error e
          | .ok (items, m) => .ok (leaf :: items, stop - pos + m) := by
  subst hk
  rw [readItems]
  split
  · next h =>
    rw [h] at hdrop
    cases hdrop
  · next h =>
    rw [h] at hdrop
    cases hdrop
    congr 2
    split
    · next hleaf => rw [hleaf]
    · next hleaf =>
      generalize readLeaf _ _ = leaf at hleaf ⊢
      cases hleaf
      rfl

section Steps

variable {rest after : Text} {k m pos index : Nat} {items : List SExpr}

theorem readItems_close (hk : Skipper.blank.count rest = k) (hdrop : rest.drop k = closeParen :: after) :
    readItems rest pos index = .ok ([], k) := by
  rw [readItems_of_drop hk hdrop, if_pos rfl]

theorem drop_body (body after : Text) : (body ++ closeParen :: after).drop (body.length + 1) = after := by
  rw [List.drop_append]
  simp

/-- What follows a list, by the positions where the list starts and where it stops. -/
theorem drop_list (body after : Text) (pos : Nat) :
    (openParen :: (body ++ closeParen :: after)).drop (pos + body.length + 2 - pos) = after := by
  rw [Nat.add_assoc, Nat.add_sub_cancel_left, List.drop_succ_cons, drop_body]

theorem drop_word (c : UInt8) (cs after : Text) (pos : Nat) :
    (c :: (cs ++ after)).drop (pos + (cs.length + 1) - pos) = after := by
  rw [Nat.add_sub_cancel_left, List.drop_succ_cons, List.drop_left]

theorem readItems_list {body : Text} {inner : List SExpr} (hk : Skipper.blank.count rest = k)
    (hdrop : rest.drop k = openParen :: (body ++ closeParen :: after))
    (hinner : readItems (body ++ closeParen :: after) (pos + k + 1) 0 = .ok (inner, body.length))
    (hitems : readItems after (pos + k + body.length + 2) (index + 1) = .ok (items, m)) :
    readItems rest pos index =
      .ok (.list ⟨pos + k, pos + k + body.length + 2⟩ inner :: items, k + body.length + 2 + m) := by
  rw [readItems_of_drop hk hdrop, if_neg (by decide), if_pos rfl, hinner]
  dsimp only
  rw [drop_body, hitems]

theorem readItems_leaf {c : UInt8} {cs : Text} {x : SExpr} (hk : Skipper.blank.count rest = k)
    (hdrop : rest.drop k = c :: (cs ++ after)) (hclose : c ≠ closeParen) (hopen : c ≠ openParen)
    (hx : readLeaf (c :: (cs ++ after)) (pos + k) = .ok (x, pos + k + (cs.length + 1)))
    (hitems : readItems after (pos + k + (cs.length + 1)) (index + 1) = .ok (items, m)) :
    readItems rest pos index = .ok (x :: items, k + (cs.length + 1) + m) := by
  rw [readItems_of_drop hk hdrop, if_neg hclose, if_neg hopen, hx]
  dsimp only
  rw [drop_word, hitems]
  dsimp only
  rw [show pos + k + (cs.length + 1) - pos + m = k + (cs.length + 1) + m by omega]

end Steps

/-- Nothing is skipped before a byte that is neither blank nor a semicolon. -/
theorem count_blank_of_plain {c : UInt8} (hc : Skipper.blank.blanks.contains c = false) (hcomment : c ≠ 59) (t : Text) :
    Skipper.blank.count (c :: t) = 0 := by
  have hnot : ¬ Skipper.blank.comment = some c := by
    intro h
    exact hcomment (Option.some.inj h).symm
  rw [Skipper.count, hc, if_neg Bool.false_ne_true, if_neg hnot]

/-- A byte that starts an item. -/
def startsItem (c : UInt8) : Bool := c = openParen || isWordByte c

theorem plain_of_startsItem {c : UInt8} (hc : startsItem c = true) :
    Skipper.blank.blanks.contains c = false ∧ c ≠ 59 ∧ c ≠ closeParen := by
  have hne (d : UInt8) (hd : startsItem d = false) : c ≠ d := by
    rintro rfl
    rw [hc] at hd
    cases hd
  refine ⟨?_, hne 59 (by decide), hne closeParen (by decide)⟩
  simp [Skipper.blank, Skipper.spaceAll, hne 32 (by decide), hne 9 (by decide), hne 13 (by decide), hne 10 (by decide)]

theorem count_lead {lead : Text} (hlead : lead = [] ∨ lead = Text.ofString " ") {c : UInt8}
    (hc : startsItem c = true ∨ c = closeParen) (t : Text) : Skipper.blank.count (lead ++ c :: t) = lead.length := by
  have hplain : Skipper.blank.count (c :: t) = 0 := by
    rcases hc with hc | rfl
    · exact count_blank_of_plain (plain_of_startsItem hc).1 (plain_of_startsItem hc).2.1 t
    · exact count_blank_of_plain (by decide) (by decide) t
  rcases hlead with rfl | rfl
  · exact hplain
  · show Skipper.blank.count (32 :: c :: t) = 1
    rw [Skipper.count, if_pos (by decide), hplain]

end SExpr

namespace Datum

open SExpr

theorem exists_text_eq_cons {d : Datum} (hd : d.readable = true) : ∃ c cs, d.text = c :: cs ∧ startsItem c = true := by
  have hword {w : Text} (hne : w ≠ []) (hw : w.all isWordByte = true) : ∃ c cs, w = c :: cs ∧ startsItem c = true := by
    cases w with
    | nil => exact absurd rfl hne
    | cons c cs =>
      refine ⟨c, cs, rfl, ?_⟩
      rw [startsItem, List.all_eq_true.mp hw c (List.mem_cons_self ..), Bool.or_true]
  cases d with
  | atom w =>
    obtain ⟨hne, hw, -⟩ := isName_iff.mp hd
    exact hword hne hw
  | int v => exact hword (ofInt_word v).1 (ofInt_word v).2.1
  | list items => exact ⟨40, _, text_list items, rfl⟩

theorem endsWord_spaced (ds : List Datum) (rest : Text) : endsWord (spaced " " ds ++ 41 :: rest) = true := by
  cases ds <;> rfl

theorem readLeaf_text {d : Datum} (hd : d.readable = true) (hleaf : ∀ items, d ≠ .list items) {rest : Text}
    (hrest : endsWord rest = true) (pos : Nat) :
    ∃ x, readLeaf (d.text ++ rest) pos = .ok (x, pos + d.text.length) ∧ x.datum = d := by
  cases d with
  | atom w => exact ⟨_, readLeaf_name hd hrest pos, rfl⟩
  | int v =>
    obtain ⟨hlow, hhigh⟩ := Bool.and_eq_true_iff.mp hd
    exact ⟨_, readLeaf_numeral (of_decide_eq_true hlow) (of_decide_eq_true hhigh) hrest pos, rfl⟩
  | list items => exact absurd rfl (hleaf items)

theorem ne_openParen_of_leaf {d : Datum} (hd : d.readable = true) (hleaf : ∀ items, d ≠ .list items) {c : UInt8}
    {cs : Text} (htext : d.text = c :: cs) : c ≠ openParen := by
  have hword {w : Text} (hw : w.all isWordByte = true) (hcons : w = c :: cs) : c ≠ openParen := by
    rintro rfl
    rw [hcons] at hw
    cases hw
  cases d with
  | atom w => exact hword (isName_iff.mp hd).2.1 htext
  | int v => exact hword (ofInt_word v).2.1 htext
  | list items => exact absurd rfl (hleaf items)

/-- Reading goes over one item of a list and then over the rest. -/
theorem readItems_cons {d : Datum} (hd : d.readable = true) {lead : Text} (hlead : lead = [] ∨ lead = Text.ofString " ")
    {rest : Text} (hrest : endsWord rest = true) {pos index m : Nat} {items : List SExpr}
    (hinner : ∀ inner, d = .list inner → ∀ pos, ∃ items,
      readItems (spaced [] inner ++ 41 :: rest) pos 0 = .ok (items, (spaced [] inner).length) ∧
        SExpr.data items = inner)
    (hitems : readItems rest (pos + lead.length + d.text.length) (index + 1) = .ok (items, m)) :
    ∃ x, readItems (lead ++ d.text ++ rest) pos index = .ok (x :: items, lead.length + d.text.length + m) ∧
      x.datum = d := by
  obtain ⟨c, cs, htext, hc⟩ := exists_text_eq_cons hd
  have hk : Skipper.blank.count (lead ++ d.text ++ rest) = lead.length := by
    rw [List.append_assoc, htext]
    exact count_lead hlead (.inl hc) (cs ++ rest)
  have hdrop : (lead ++ d.text ++ rest).drop lead.length = d.text ++ rest := by
    rw [List.append_assoc, List.drop_left]
  by_cases hlist : ∃ inner, d = .list inner
  · obtain ⟨inner, rfl⟩ := hlist
    obtain ⟨inside, hinside, hdata⟩ := hinner inner rfl (pos + lead.length + 1)
    have hlength : (Datum.list inner).text.length = (spaced [] inner).length + 2 := by
      rw [text_list]
      simp
    have hopen : (Datum.list inner).text ++ rest = openParen :: (spaced [] inner ++ closeParen :: rest) := by
      rw [text_list, List.cons_append, List.append_assoc]
      rfl
    rw [hlength] at hitems ⊢
    exact ⟨_, readItems_list hk (hdrop.trans hopen) hinside hitems, congrArg Datum.list hdata⟩
  · have hleaf : ∀ items, d ≠ .list items := fun inner h => hlist ⟨inner, h⟩
    obtain ⟨x, hx, hdatum⟩ := readLeaf_text hd hleaf hrest (pos + lead.length)
    rw [htext] at hx hdrop hitems hk ⊢
    exact ⟨x, readItems_leaf hk hdrop (plain_of_startsItem hc).2.2 (ne_openParen_of_leaf hd hleaf htext) hx hitems,
      hdatum⟩

/-- The items of a list are read as they were written. -/
theorem readItems_spaced (ds : List Datum) (hds : readableAll ds = true) {lead : Text}
    (hlead : lead = [] ∨ lead = Text.ofString " ") (rest : Text) (pos index : Nat) :
    ∃ items, readItems (spaced lead ds ++ 41 :: rest) pos index = .ok (items, (spaced lead ds).length) ∧
      SExpr.data items = ds := by
  match ds with
  | [] => exact ⟨[], readItems_close (count_lead (.inl rfl) (.inr rfl) rest) rfl, rfl⟩
  | d :: ds =>
    obtain ⟨hd, hds⟩ := Bool.and_eq_true_iff.mp hds
    obtain ⟨items, hitems, hdata⟩ :=
      readItems_spaced ds hds (.inr rfl) rest (pos + lead.length + d.text.length) (index + 1)
    have hinner (inner : List Datum) (hinner : d = .list inner) (pos : Nat) : ∃ items,
        readItems (spaced [] inner ++ 41 :: (spaced " " ds ++ 41 :: rest)) pos 0 =
          .ok (items, (spaced [] inner).length) ∧ SExpr.data items = inner := by
      subst hinner
      exact readItems_spaced inner hd (.inl rfl) _ pos 0
    obtain ⟨x, hx, hdatum⟩ := readItems_cons hd hlead (endsWord_spaced ds rest) hinner hitems
    refine ⟨x :: items, ?_, ?_⟩
    · rw [spaced, List.append_assoc, hx, List.length_append, List.length_append]
    · rw [SExpr.data, hdatum, hdata]
termination_by sizeOf ds

end Datum

namespace SExpr

/-! ### Whatever is read can be written -/

theorem readLeaf_readable {t : Text} {pos stop : Nat} {x : SExpr} (h : readLeaf t pos = .ok (x, stop)) :
    x.datum.readable = true := by
  obtain ⟨w, _, -, -, -, -, -, ⟨rfl, hw⟩ | ⟨v, rfl, -, hread⟩⟩ := readLeaf_ok h
  · exact hw
  · obtain ⟨hlow, hhigh⟩ := Text.readInt_range hread
    exact Bool.and_eq_true_iff.mpr ⟨decide_eq_true hlow, decide_eq_true hhigh⟩

theorem readItems_readable {rest : Text} {pos index n : Nat} {items : List SExpr}
    (h : readItems rest pos index = .ok (items, n)) : Datum.readableAll (data items) = true := by
  fun_induction readItems rest pos index generalizing items n with
  | case1 | case3 | case4 | case6 | case7 => cases h
  | case2 => cases h; rfl
  | case5 =>
    rename_i hinner _ _ hrest _ _ ihinner ihrest
    cases h
    exact Bool.and_eq_true_iff.mpr ⟨ihinner hinner, ihrest hrest⟩
  | case8 =>
    rename_i hleaf _ _ hrest ihrest
    cases h
    exact Bool.and_eq_true_iff.mpr ⟨readLeaf_readable hleaf, ihrest hrest⟩

theorem readList_readable {rest : Text} {pos stop : Nat} {x : SExpr} (h : readList rest pos = .ok (x, stop)) :
    x.datum.readable = true := by
  unfold readList at h
  split at h
  · cases h
  · split at h
    · split at h
      · cases h
      · next hitems =>
        cases h
        exact readItems_readable hitems
    · cases h

theorem readForms_readable {rest : Text} {pos index last : Nat} {forms : List SExpr}
    (h : readForms rest pos index = .ok (forms, last)) : ∀ x ∈ forms, x.datum.readable = true := by
  fun_induction readForms rest pos index generalizing forms last with
  | case1 =>
    cases h
    exact List.forall_mem_nil _
  | case2 | case3 => cases h
  | case4 =>
    rename_i hform _ _ hrest ihrest
    cases h
    exact List.forall_mem_cons.mpr ⟨readList_readable hform, ihrest hrest⟩

end SExpr

/-! ### Sources -/

namespace Datum

open SExpr

theorem count_nil : Skipper.blank.count [] = 0 := by rw [Skipper.count]

theorem readForms_end {rest : Text} (hdrop : rest.drop (Skipper.blank.count rest) = []) (pos index : Nat) :
    readForms rest pos index = .ok ([], pos + Skipper.blank.count rest) := by
  rw [readForms]
  split
  · rfl
  · next h =>
    rw [hdrop] at h
    cases h

theorem readForms_cons {rest cs : Text} {c : UInt8} {k pos index stop last : Nat} {form : SExpr} {forms : List SExpr}
    (hk : Skipper.blank.count rest = k) (hdrop : rest.drop k = c :: cs)
    (hform : readList (c :: cs) (pos + k) = .ok (form, stop))
    (hforms : readForms ((c :: cs).drop (stop - (pos + k))) stop (index + 1) = .ok (forms, last)) :
    readForms rest pos index = .ok (form :: forms, last) := by
  subst hk
  rw [readForms]
  split
  · next h =>
    rw [hdrop] at h
    cases h
  · next h =>
    rw [hdrop] at h
    cases h
    split
    · next hform' => cases hform.symm.trans hform'
    · next hform' =>
      cases hform.symm.trans hform'
      rw [hforms]

/-- A list is read as the only form of its text. -/
theorem readForms_list {ds : List Datum} (hds : readableAll ds = true) (pos index : Nat) :
    ∃ x, readForms (Datum.list ds).text pos index = .ok ([x], pos + (Datum.list ds).text.length) ∧
      x.datum = .list ds := by
  obtain ⟨items, hitems, hdata⟩ := readItems_spaced ds hds (.inl rfl) [] (pos + 1) 0
  have hlist : readList (40 :: (spaced [] ds ++ [41])) pos =
      .ok (.list ⟨pos, pos + (spaced [] ds).length + 2⟩ items, pos + (spaced [] ds).length + 2) := by
    rw [readList, if_pos (by rfl), hitems]
  refine ⟨.list ⟨pos, pos + (spaced [] ds).length + 2⟩ items, ?_, congrArg Datum.list hdata⟩
  rw [text_list, List.length_cons, List.length_append]
  refine readForms_cons (count_blank_of_plain (by decide) (by decide) _) rfl hlist ?_
  have hafter : (40 :: (spaced [] ds ++ [41])).drop (pos + (spaced [] ds).length + 2 - (pos + 0)) = [] :=
    drop_list _ [] pos
  rw [hafter, readForms_end List.drop_nil, count_nil]
  rfl

end Datum

@[simp] theorem Source.text_ofFile (name text : Text) : (Source.ofFile name text).text = text := List.append_nil _

/-- A source whose forms are read to the end of its text is a document. -/
theorem Source.parse_of_readForms {src : Source} {forms : List SExpr}
    (h : SExpr.readForms src.text 0 0 = .ok (forms, src.text.length)) :
    src.parse .file = .ok (.document ⟨⟨0, src.text.length⟩, forms⟩) := by
  have hlast : Skipper.blank.skip src.text src.text.length = src.text.length := by
    rw [Skipper.skip, List.drop_length, Datum.count_nil]
    rfl
  rw [Source.parse, Grammar.parse, SExpr.readDocument, h]
  dsimp only
  rw [hlast]
  exact if_neg fun h => h rfl

theorem Source.readForms_of_parse {src : Source} {node : Node} (h : src.parse .file = .ok node) :
    ∃ d last, node = .document d ∧ SExpr.readForms src.text 0 0 = .ok (d.forms, last) := by
  rw [Source.parse, Grammar.parse, SExpr.readDocument] at h
  cases hforms : SExpr.readForms src.text 0 0 with
  | error e =>
    rw [hforms] at h
    cases h
  | ok found =>
    rw [hforms] at h
    dsimp only at h
    split at h
    · cases h
    · cases h
      exact ⟨_, _, rfl, rfl⟩

/-- The text of a list is a document with one form. -/
theorem Source.parse_list (name : Text) {ds : List Datum} (hds : Datum.readableAll ds = true) :
    ∃ d x, (Source.ofFile name (Datum.list ds).text).parse .file = .ok (.document d) ∧ d.forms = [x] ∧
      x.datum = .list ds := by
  obtain ⟨x, hforms, hx⟩ := Datum.readForms_list hds 0 0
  rw [Nat.zero_add, ← Source.text_ofFile name (Datum.list ds).text] at hforms
  exact ⟨_, x, Source.parse_of_readForms hforms, rfl, hx⟩

/-- What is read from a source can be written. -/
theorem Source.parse_readable {src : Source} {d : Document} (h : src.parse .file = .ok (.document d)) :
    ∀ x ∈ d.forms, x.datum.readable = true := by
  obtain ⟨_, last, heq, hforms⟩ := Source.readForms_of_parse h
  cases heq
  exact SExpr.readForms_readable hforms

end Lowering
