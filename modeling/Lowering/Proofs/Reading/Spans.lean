import Lowering.Proofs.Reading.Continuation

/-!
# Spans

Every expression that is read knows the stretch of text it was read from. The stretches of the items of a list lie
between its parentheses, one behind the other, and none is empty. What an expression is depends on nothing outside its
stretch: read alone, the stretch gives the same expression, up to where it starts.
-/

namespace Lowering

namespace SExpr

/-- The expression is the other one or stands somewhere inside it. -/
inductive OccursIn (x : SExpr) : SExpr → Prop where
  | self : OccursIn x x
  | item {span : Span} {items : List SExpr} {y : SExpr} (hy : y ∈ items) (h : OccursIn x y) :
    OccursIn x (.list span items)

/-- The spans follow each other without overlapping. -/
def Apart (xs : List SExpr) : Prop := xs.Pairwise fun x y => x.span.stop ≤ y.span.start

/-- A list starts and ends with a parenthesis, and its items lie between the two. -/
def Encloses (text : Text) : SExpr → Prop
  | .list span items =>
    text[span.start]? = some openParen ∧ text[span.stop - 1]? = some closeParen ∧
      (∀ y ∈ items, span.start < y.span.start ∧ y.span.stop < span.stop) ∧ Apart items
  | _ => True

/-- The span of an expression is a stretch of the source that holds what belongs to the expression and nothing else. -/
structure Placed (src : Source) (x : SExpr) : Prop where
  nonempty : x.span.start < x.span.stop
  inText : x.span.stop ≤ src.text.length
  encloses : Encloses src.text x
  /-- Read alone, the stretch is used up and gives the expression as it stands at the start of a text. -/
  alone : ∃ part y, src.slice x.span.start x.span.stop = .ok part ∧
    Grammar.expr.parse part 0 = .ok (.expr y, part.length) ∧ y.shift x.span.start = x

/-! ### Expressions one behind the other -/

/-- The expressions stand between two positions, one behind the other, and none is empty. -/
def InOrder (low high : Nat) : List SExpr → Prop
  | [] => low ≤ high
  | x :: rest => low ≤ x.span.start ∧ x.span.start < x.span.stop ∧ InOrder x.span.stop high rest

namespace InOrder

variable {low high : Nat} {xs : List SExpr}

theorem le (h : InOrder low high xs) : low ≤ high := by
  induction xs generalizing low with
  | nil => exact h
  | cons x rest ih =>
    obtain ⟨hlow, hspan, hrest⟩ := h
    have := ih hrest
    omega

theorem between (h : InOrder low high xs) : ∀ x ∈ xs, low ≤ x.span.start ∧ x.span.stop ≤ high := by
  induction xs generalizing low with
  | nil => exact List.forall_mem_nil _
  | cons x rest ih =>
    obtain ⟨hlow, hspan, hrest⟩ := h
    refine List.forall_mem_cons.mpr ⟨⟨hlow, hrest.le⟩, ?_⟩
    intro y hy
    have := ih hrest y hy
    omega

theorem apart (h : InOrder low high xs) : Apart xs := by
  induction xs generalizing low with
  | nil => exact .nil
  | cons x rest ih =>
    obtain ⟨-, -, hrest⟩ := h
    apply List.pairwise_cons.mpr
    exact ⟨fun y hy => (hrest.between y hy).1, ih hrest⟩

end InOrder

/-! ### Expressions read alone -/

theorem slice_eq (src : Source) {start : Nat} {part after : Text} (h : src.text.drop start = part ++ after) :
    src.slice start (start + part.length : Nat) = .ok part := by
  rw [Source.slice, if_neg (by omega)]
  have hlength : ((start + part.length : Nat) - start : Int).toNat = part.length := by omega
  rw [hlength, Int.toNat_natCast, h, List.take_left]

theorem getElem?_of_drop {text part after : Text} {start : Nat} {b : UInt8} (h : text.drop start = part ++ b :: after) :
    text[start + part.length]? = some b := by
  rw [← List.getElem?_drop, h, List.getElem?_append_right (Nat.le_refl _), Nat.sub_self]
  rfl

theorem le_length_of_drop {text part after : Text} {start : Nat} (hpart : part ≠ [])
    (h : text.drop start = part ++ after) : start + part.length ≤ text.length := by
  have hlength := congrArg List.length h
  have hpos := List.length_pos_iff.mpr hpart
  rw [List.length_drop, List.length_append] at hlength
  omega

theorem parse_expr {part : Text} {y : SExpr} {stop : Nat} (h : readExpr part 0 = .ok (y, stop)) :
    Grammar.expr.parse part 0 = .ok (.expr y, stop) := by
  rw [Grammar.parse, h]
  rfl

/-- No list starts with a word. -/
theorem readExpr_word {w : Text} (hne : w ≠ []) (hw : w.all isWordByte = true) (pos : Nat) :
    readExpr w pos = readLeaf w pos := by
  obtain ⟨b, w, rfl⟩ := List.exists_cons_of_ne_nil hne
  have hb : b ≠ openParen := by
    rintro rfl
    cases hw
  have hlist : readList (b :: w) pos = .error (noList pos) := if_neg hb
  rw [readExpr, hlist]
  exact if_neg fun h => h rfl

/-- A leaf has the span of its word, and nothing stands inside it. -/
theorem readLeaf_span {t : Text} {pos stop : Nat} {leaf : SExpr} (h : readLeaf t pos = .ok (leaf, stop)) :
    leaf.span = ⟨pos, stop⟩ ∧ (∀ text, Encloses text leaf) ∧ ∀ x, OccursIn x leaf → x = leaf := by
  obtain ⟨w, -, -, -, -, -, -, ⟨rfl, -⟩ | ⟨v, rfl, -⟩⟩ := readLeaf_ok h
  all_goals
    refine ⟨rfl, fun _ => trivial, ?_⟩
    intro x hx
    cases hx
    rfl

/-- A leaf is read from its word alone. -/
theorem readLeaf_alone {t : Text} {pos stop : Nat} {leaf : SExpr} (h : readLeaf t pos = .ok (leaf, stop)) :
    ∃ w after y, t = w ++ after ∧ w ≠ [] ∧ stop = pos + w.length ∧ readExpr w 0 = .ok (y, w.length) ∧
      y.shift pos = leaf := by
  obtain ⟨w, after, rfl, hne, hw, -, rfl, hleaf⟩ := readLeaf_ok h
  have hspan : Span.shift pos ⟨0, 0 + w.length⟩ = ⟨pos, pos + w.length⟩ := by
    rw [Span.shift, Nat.zero_add, Nat.zero_add, Nat.add_comm]
  have hword : ∃ y, readLeaf (w ++ []) 0 = .ok (y, 0 + w.length) ∧ y.shift pos = leaf := by
    obtain ⟨rfl, hname⟩ | ⟨v, rfl, hstarts, hread⟩ := hleaf
    · exact ⟨_, readLeaf_name hname rfl 0, by rw [shift, hspan]⟩
    · exact ⟨_, readLeaf_literal hw hstarts hread rfl 0, by rw [shift, hspan]⟩
  obtain ⟨y, hread, hshift⟩ := hword
  rw [List.append_nil, Nat.zero_add, ← readExpr_word hne hw] at hread
  exact ⟨w, after, y, rfl, hne, rfl, hread, hshift⟩

theorem placed_leaf {src : Source} {t : Text} {pos stop : Nat} {leaf : SExpr} (ht : src.text.drop pos = t)
    (h : readLeaf t pos = .ok (leaf, stop)) : pos < stop ∧ Placed src leaf := by
  obtain ⟨hspan, hencloses, -⟩ := readLeaf_span h
  obtain ⟨w, after, y, rfl, hne, rfl, hread, hshift⟩ := readLeaf_alone h
  have hlt : pos < pos + w.length := by
    have := List.length_pos_iff.mpr hne
    omega
  refine ⟨hlt, ?_⟩
  constructor
  · rw [hspan]
    exact hlt
  · rw [hspan]
    exact le_length_of_drop hne ht
  · exact hencloses src.text
  · rw [hspan]
    exact ⟨w, y, slice_eq src ht, parse_expr hread, hshift⟩

/-- The items of a list are read from the text up to its parenthesis alone. -/
theorem readItems_alone {body after : Text} {pos index : Nat} {items : List SExpr}
    (h : readItems (body ++ closeParen :: after) (pos + 1) index = .ok (items, body.length)) :
    ∃ items', readItems (body ++ [closeParen]) 1 0 = .ok (items', body.length) ∧ shiftAll pos items' = items := by
  obtain ⟨inner, after', htext, hlength, hinner⟩ := readItems_derives h
  obtain ⟨rfl, -⟩ := List.append_inj htext hlength.symm
  obtain ⟨items', hread, -⟩ := hinner.read .nil [] 1 0
  rw [List.nil_append, List.length_nil, Nat.zero_add] at hread
  refine ⟨items', hread, ?_⟩
  have hmoved := readItems_append hread after pos index
  rw [List.append_assoc, List.singleton_append, Nat.add_comm 1, h] at hmoved
  exact (Prod.mk.inj (Except.ok.inj hmoved)).1.symm

/-- A list is read from the text between and with its parentheses alone. -/
theorem placed_list {src : Source} {body after : Text} {pos : Nat} {items : List SExpr}
    (ht : src.text.drop pos = openParen :: (body ++ closeParen :: after))
    (h : readItems (body ++ closeParen :: after) (pos + 1) 0 = .ok (items, body.length))
    (horder : InOrder (pos + 1) (pos + 1 + body.length) items) :
    Placed src (.list ⟨pos, pos + body.length + 2⟩ items) := by
  have hpart : src.text.drop pos = (openParen :: (body ++ [closeParen])) ++ after := by
    rw [ht, List.cons_append, List.append_assoc]
    rfl
  have hlength : (openParen :: (body ++ [closeParen])).length = body.length + 2 := by
    rw [List.length_cons, List.length_append]
    rfl
  have hstop : pos + body.length + 2 = pos + (openParen :: (body ++ [closeParen])).length := by
    rw [hlength, Nat.add_assoc]
  obtain ⟨items', hread, hshift⟩ := readItems_alone h
  constructor
  · show pos < pos + body.length + 2
    omega
  · show pos + body.length + 2 ≤ src.text.length
    rw [hstop]
    exact le_length_of_drop (List.cons_ne_nil _ _) hpart
  · have hopen : src.text[pos + ([] : Text).length]? = some openParen := getElem?_of_drop ht
    have hclose : src.text[pos + (openParen :: body).length]? = some closeParen := getElem?_of_drop ht
    have hindex : pos + body.length + 2 - 1 = pos + (openParen :: body).length := by
      rw [List.length_cons]
      omega
    refine ⟨hopen, by rw [← hclose, ← hindex], ?_, horder.apart⟩
    intro y hy
    obtain ⟨hlow, hhigh⟩ := horder.between y hy
    dsimp only
    omega
  · refine ⟨openParen :: (body ++ [closeParen]), .list ⟨0, body.length + 2⟩ items', ?_, ?_, ?_⟩
    · show src.slice pos (pos + body.length + 2 : Nat) = _
      rw [hstop]
      exact slice_eq src hpart
    · apply parse_expr
      have hlist : readList (openParen :: (body ++ [closeParen])) 0 =
          .ok (.list ⟨0, body.length + 2⟩ items', body.length + 2) := by
        rw [readList, if_pos rfl, hread]
        simp only [Nat.zero_add]
      rw [readExpr, hlist, hlength]
    · show (SExpr.list ⟨0, body.length + 2⟩ items').shift pos = _
      rw [shift, hshift, Span.shift, Nat.zero_add, Nat.add_comm (body.length + 2), ← Nat.add_assoc]

/-! ### What is read -/

theorem drop_behind {text cs : Text} {c : UInt8} {pos stop : Nat} (h : text.drop pos = c :: cs) (hlt : pos < stop) :
    text.drop stop = (c :: cs).drop (stop - pos) := by
  rw [← h, List.drop_drop, Nat.add_sub_of_le (Nat.le_of_lt hlt)]

theorem forall_occursIn_list {P : SExpr → Prop} {span : Span} {items : List SExpr} (hlist : P (.list span items))
    (hitems : ∀ y ∈ items, ∀ x, OccursIn x y → P x) : ∀ x, OccursIn x (.list span items) → P x := by
  intro x hx
  cases hx with
  | self => exact hlist
  | item hy h => exact hitems _ hy x h

theorem readItems_placed {src : Source} {rest : Text} {pos index n : Nat} {items : List SExpr}
    (hrest : src.text.drop pos = rest) (h : readItems rest pos index = .ok (items, n)) :
    InOrder pos (pos + n) items ∧ ∀ y ∈ items, ∀ x, OccursIn x y → Placed src x := by
  fun_induction readItems rest pos index generalizing items n with
  | case1 | case3 | case4 | case6 | case7 => cases h
  | case2 =>
    cases h
    exact ⟨Nat.le_add_right _ _, List.forall_mem_nil _⟩
  | case5 =>
    rename_i pos _ k cs inner n hread items m hread' hdrop _ ihinner ihrest
    cases h
    have hlist : src.text.drop (pos + k) = openParen :: cs := by rw [← List.drop_drop, hrest, hdrop]
    have hcs : src.text.drop (pos + k + 1) = cs := by rw [← List.drop_drop, hlist]; rfl
    have hafter : src.text.drop (pos + k + n + 2) = cs.drop (n + 1) := by
      rw [show pos + k + n + 2 = pos + k + 1 + (n + 1) by omega, ← List.drop_drop, hcs]
    obtain ⟨horder, hplaced⟩ := ihinner hcs hread
    obtain ⟨horder', hplaced'⟩ := ihrest hafter hread'
    obtain ⟨body, after, rfl, rfl, -⟩ := readItems_derives hread
    constructor
    · refine ⟨Nat.le_add_right _ _, ?_, ?_⟩
      · show pos + k < pos + k + body.length + 2
        omega
      · rw [show pos + (k + body.length + 2 + m) = pos + k + body.length + 2 + m by omega]
        exact horder'
    · rw [List.forall_mem_cons]
      exact ⟨forall_occursIn_list (placed_list hlist hread horder) hplaced, hplaced'⟩
  | case8 =>
    rename_i pos _ k c cs hdrop _ _ leaf stop hleaf items m hread' ihrest
    cases h
    have hword : src.text.drop (pos + k) = c :: cs := by rw [← List.drop_drop, hrest, hdrop]
    obtain ⟨hspan, -, honly⟩ := readLeaf_span hleaf
    obtain ⟨hlt, hplaced⟩ := placed_leaf hword hleaf
    obtain ⟨horder', hplaced'⟩ := ihrest (drop_behind hword hlt) hread'
    constructor
    · rw [InOrder, hspan, show pos + (stop - pos + m) = stop + m by omega]
      exact ⟨Nat.le_add_right _ _, hlt, horder'⟩
    · rw [List.forall_mem_cons]
      refine ⟨?_, hplaced'⟩
      intro x hx
      rw [honly x hx]
      exact hplaced

theorem readList_placed {src : Source} {t : Text} {pos stop : Nat} {form : SExpr} (ht : src.text.drop pos = t)
    (h : readList t pos = .ok (form, stop)) :
    form.span = ⟨pos, stop⟩ ∧ pos < stop ∧ ∀ x, OccursIn x form → Placed src x := by
  unfold readList at h
  split at h
  · cases h
  · split at h
    · next hopen =>
      split at h
      · cases h
      · next c cs _ items n hread =>
        cases h
        rw [hopen] at ht
        have hcs : src.text.drop (pos + 1) = cs := by rw [← List.drop_drop, ht]; rfl
        obtain ⟨horder, hplaced⟩ := readItems_placed hcs hread
        obtain ⟨body, after, rfl, rfl, -⟩ := readItems_derives hread
        exact ⟨rfl, by omega, forall_occursIn_list (placed_list ht hread horder) hplaced⟩
    · cases h

theorem readForms_placed {src : Source} {rest : Text} {pos index last : Nat} {forms : List SExpr}
    (hrest : src.text.drop pos = rest) (h : readForms rest pos index = .ok (forms, last)) :
    InOrder pos last forms ∧ ∀ form ∈ forms, ∀ x, OccursIn x form → Placed src x := by
  fun_induction readForms rest pos index generalizing forms last with
  | case1 =>
    cases h
    exact ⟨Nat.le_add_right _ _, List.forall_mem_nil _⟩
  | case2 | case3 => cases h
  | case4 =>
    rename_i pos _ k c cs hdrop form stop hform forms last hread ihrest
    cases h
    have hlist : src.text.drop (pos + k) = c :: cs := by rw [← List.drop_drop, hrest, hdrop]
    obtain ⟨hspan, hlt, hplaced⟩ := readList_placed hlist hform
    obtain ⟨horder, hplaced'⟩ := ihrest (drop_behind hlist hlt) hread
    constructor
    · rw [InOrder, hspan]
      exact ⟨Nat.le_add_right _ _, hlt, horder⟩
    · rw [List.forall_mem_cons]
      exact ⟨hplaced, hplaced'⟩

end SExpr

namespace Source

/-- The forms of a document lie in its span one behind the other, and every expression in them, however deep, has a span
of its own that holds its items between its parentheses and that reads as the expression when it stands alone. -/
theorem spans_are_nested_and_selfContained (src : Source) (node : Node) (h : src.parse .file = .ok node) :
    ∃ d, node = .document d ∧
      (∀ form ∈ d.forms, d.span.start ≤ form.span.start ∧ form.span.stop ≤ d.span.stop) ∧ SExpr.Apart d.forms ∧
      ∀ form ∈ d.forms, ∀ x, SExpr.OccursIn x form → SExpr.Placed src x := by
  obtain ⟨d, last, rfl, hforms⟩ := readForms_of_parse h
  have hlast := SExpr.readForms_last hforms
  obtain ⟨horder, hplaced⟩ := SExpr.readForms_placed List.drop_zero hforms
  rw [hlast, Nat.zero_add] at hforms horder
  have hspan : d.span = ⟨0, src.text.length⟩ := by
    have hdocument := h.symm.trans (parse_of_readForms hforms)
    exact congrArg Document.span (Node.document.inj (Except.ok.inj hdocument))
  refine ⟨d, rfl, ?_, horder.apart, hplaced⟩
  rw [hspan]
  exact horder.between

/-- A word that is ended by a comment, with a parenthesis in the comment, before a nested list. -/
theorem commentedList_spans_are_selfContained :
    let src := ofFile "a" "(a;)\n(16 b)) ; ("
    let inner : SExpr := .list ⟨5, 11⟩ [.int ⟨6, 8⟩ 16, .atom ⟨9, 10⟩ "b"]
    src.parse .file = .ok (.document ⟨⟨0, 16⟩, [.list ⟨0, 12⟩ [.atom ⟨1, 2⟩ "a", inner]]⟩) ∧
      SExpr.Placed src inner := by
  intro src inner
  have hforms : SExpr.readForms "(a;)\n(16 b)) ; (" 0 0 = .ok ([.list ⟨0, 12⟩ [.atom ⟨1, 2⟩ "a", inner]], 16) := by
    with_unfolding_all rfl
  have hread : src.parse .file = .ok (.document ⟨⟨0, 16⟩, [.list ⟨0, 12⟩ [.atom ⟨1, 2⟩ "a", inner]]⟩) :=
    parse_of_readForms hforms
  obtain ⟨d, hd, -, -, hplaced⟩ := spans_are_nested_and_selfContained src _ hread
  cases hd
  refine ⟨hread, hplaced _ (List.mem_singleton.mpr rfl) inner (.item ?_ .self)⟩
  exact List.mem_cons_of_mem _ (List.mem_singleton.mpr rfl)

end Source

end Lowering
