import Lowering.Proofs.Reading.Continuation

/-!
# Where reading stops

A grammar that is given wherever one is needed ends without a fault, and it stops between the position it was started at
and the end of the text, with a node or with an error. This is shown of each reader first and then of each way of
putting grammars together. Words, numbers and lists are never empty, so loops over them come to an end.
-/

namespace Lowering

/-- Nothing is skipped beyond the end of a text. -/
theorem Skipper.count_le (s : Skipper) (t : Text) : s.count t ≤ t.length := by
  fun_induction Skipper.count s t with
  | case1 => exact Nat.le_refl 0
  | case2 b rest hblank ih =>
    rw [List.length_cons]
    omega
  | case3 b rest hblank hcomment ih =>
    have hline : Skipper.lineLength rest ≤ rest.length := (List.takeWhile_prefix _).length_le
    rw [List.length_drop] at ih
    rw [List.length_cons]
    omega
  | case4 => exact Nat.zero_le _

namespace SExpr

/-! ### Readers -/

/-- A reader stopped between two positions, with what it read or with an error. -/
def StopsIn {α : Type} (low high : Nat) : Except ReadError (α × Nat) → Prop
  | .ok (_, stop) => low ≤ stop ∧ stop ≤ high
  | .error e => low ≤ e.pos ∧ e.pos ≤ high

theorem StopsIn.of_ok {α : Type} {low high stop : Nat} {r : Except ReadError (α × Nat)} {x : α} (h : StopsIn low high r)
    (hr : r = .ok (x, stop)) : low ≤ stop ∧ stop ≤ high := by
  rw [hr] at h
  exact h

theorem StopsIn.of_error {α : Type} {low high : Nat} {r : Except ReadError (α × Nat)} {e : ReadError}
    (h : StopsIn low high r) (hr : r = .error e) : low ≤ e.pos ∧ e.pos ≤ high := by
  rw [hr] at h
  exact h

theorem length_wordOf_le (t : Text) : (wordOf t).length ≤ t.length := (List.takeWhile_prefix _).length_le

theorem readAtom_stops (t : Text) (pos : Nat) : StopsIn pos (pos + t.length) (readAtom t pos) := by
  have hword := length_wordOf_le t
  unfold readAtom
  dsimp only
  split
  · exact ⟨Nat.le_refl _, Nat.le_add_right _ _⟩
  · exact ⟨Nat.le_add_right _ _, by omega⟩

theorem readInt_stops (t : Text) (pos : Nat) : StopsIn pos (pos + t.length) (readInt t pos) := by
  have hword := length_wordOf_le t
  have hstart : pos ≤ pos ∧ pos ≤ pos + t.length := ⟨Nat.le_refl _, Nat.le_add_right _ _⟩
  have hbehind : pos ≤ pos + (wordOf t).length ∧ pos + (wordOf t).length ≤ pos + t.length := by omega
  unfold readInt
  split
  · dsimp only
    split
    · exact hbehind
    · exact hbehind
    · exact hstart
  · exact hstart

theorem readLeaf_stops (t : Text) (pos : Nat) : StopsIn pos (pos + t.length) (readLeaf t pos) := by
  have hint := readInt_stops t pos
  have hatom := readAtom_stops t pos
  unfold readLeaf
  split
  · next found h => exact h ▸ hint
  · next e h =>
    rw [h] at hint
    split
    · exact hint
    · split
      · next found h' => exact h' ▸ hatom
      · exact ⟨Nat.le_refl _, Nat.le_add_right _ _⟩

/-- The parenthesis behind the items of a list is still in the text. -/
theorem readItems_lt {t : Text} {pos index n : Nat} {items : List SExpr}
    (h : readItems t pos index = .ok (items, n)) : n < t.length := by
  obtain ⟨body, after, rfl, rfl, -⟩ := readItems_derives h
  rw [List.length_append, List.length_cons]
  omega

theorem length_of_drop {t cs : Text} {k : Nat} {c : UInt8} (h : t.drop k = c :: cs) : t.length = k + cs.length + 1 := by
  have hlength := congrArg List.length h
  rw [List.length_drop, List.length_cons] at hlength
  omega

/-- The error that ends the items of a list is among them or at the end of the text. -/
theorem readItems_error {t : Text} {pos index : Nat} {e : ReadError} (h : readItems t pos index = .error e) :
    pos ≤ e.pos ∧ e.pos ≤ pos + t.length := by
  fun_induction readItems t pos index generalizing e with
  | case1 =>
    rename_i t _ _ k _
    cases h
    have hskipped : k ≤ t.length := Skipper.blank.count_le t
    dsimp only
    omega
  | case2 | case5 | case8 => cases h
  | case3 =>
    rename_i k cs e hread hdrop _ ih
    cases h
    have hlength := length_of_drop hdrop
    have hinside := ih hread
    dsimp only [ReadError.within]
    omega
  | case4 =>
    rename_i k cs _ n hread e hread' hdrop _ _ ihrest
    cases h
    have hlength := length_of_drop hdrop
    have hclosed := readItems_lt hread
    have hbehind := ihrest hread'
    rw [List.length_drop] at hbehind
    omega
  | case6 =>
    rename_i pos _ k c cs hdrop _ _ e hleaf
    cases h
    have hlength := length_of_drop hdrop
    have hinside := (readLeaf_stops (c :: cs) (pos + k)).of_error hleaf
    rw [List.length_cons] at hinside
    dsimp only [ReadError.within]
    omega
  | case7 =>
    rename_i pos _ k c cs hdrop _ _ leaf stop hleaf e hread' ihrest
    cases h
    have hlength := length_of_drop hdrop
    have hlt := lt_of_readLeaf hleaf
    have hstop := (readLeaf_stops (c :: cs) (pos + k)).of_ok hleaf
    have hbehind := ihrest hread'
    rw [List.length_cons] at hstop
    rw [List.length_drop, List.length_cons] at hbehind
    omega

theorem readList_stops (t : Text) (pos : Nat) : StopsIn pos (pos + t.length) (readList t pos) := by
  have hstart : pos ≤ pos ∧ pos ≤ pos + t.length := ⟨Nat.le_refl _, Nat.le_add_right _ _⟩
  unfold readList
  split
  · exact hstart
  · next c cs =>
    split
    · split
      · next e h =>
        have hinside := readItems_error h
        rw [StopsIn, List.length_cons]
        omega
      · next items n h =>
        have hclosed := readItems_lt h
        rw [StopsIn, List.length_cons]
        omega
    · exact hstart

theorem readExpr_stops (t : Text) (pos : Nat) : StopsIn pos (pos + t.length) (readExpr t pos) := by
  have hlist := readList_stops t pos
  unfold readExpr
  split
  · next found h => exact h ▸ hlist
  · next e h =>
    rw [h] at hlist
    split
    · exact hlist
    · exact readLeaf_stops t pos

theorem lt_of_readExpr {t : Text} {pos stop : Nat} {x : SExpr} (h : readExpr t pos = .ok (x, stop)) : pos < stop := by
  unfold readExpr at h
  split at h
  · next found hlist =>
    rw [h] at hlist
    exact lt_of_readList hlist
  · split at h
    · cases h
    · exact lt_of_readLeaf h

theorem readForms_error {t : Text} {pos index : Nat} {e : ReadError} (h : readForms t pos index = .error e) :
    pos ≤ e.pos ∧ e.pos ≤ pos + t.length := by
  fun_induction readForms t pos index generalizing e with
  | case1 | case4 => cases h
  | case2 =>
    rename_i pos _ k c cs hdrop e hlist
    cases h
    have hlength := length_of_drop hdrop
    have hinside := (readList_stops (c :: cs) (pos + k)).of_error hlist
    rw [List.length_cons] at hinside
    dsimp only [ReadError.within]
    omega
  | case3 =>
    rename_i pos _ k c cs hdrop form stop hlist e hread' ihrest
    cases h
    have hlength := length_of_drop hdrop
    have hlt := lt_of_readList hlist
    have hstop := (readList_stops (c :: cs) (pos + k)).of_ok hlist
    have hbehind := ihrest hread'
    rw [List.length_cons] at hstop
    rw [List.length_drop, List.length_cons] at hbehind
    omega

theorem readDocument_stops (t : Text) (pos : Nat) : StopsIn pos (pos + t.length) (readDocument t pos) := by
  unfold readDocument
  split
  · next e h => exact readForms_error h
  · next forms stop h =>
    obtain rfl := readForms_last h
    exact ⟨Nat.le_add_right _ _, Nat.le_refl _⟩

end SExpr

/-- The skippers that are known by name. -/
def Skipper.predefined : List Skipper := [.space, .spaceTab, .spaceAll, .blank]

namespace Grammar

/-! ### Grammars put together -/

/-- A grammar is given wherever one is needed, and only known skippers are used. What stands around a grammar may be
missing. -/
inductive Usable : Grammar → Prop where
  | const (text : Text) : Usable (.const text)
  | atom : Usable .atom
  | int : Usable .int
  | list : Usable .list
  | expr : Usable .expr
  | file : Usable .file
  | context {before inner after : Grammar} (hbefore : before ≠ .missing → Usable before) (hinner : Usable inner)
    (hafter : after ≠ .missing → Usable after) : Usable (.context before inner after)
  | anyOf {alternatives : List Grammar} (h : ∀ g ∈ alternatives, Usable g) : Usable (.anyOf alternatives)
  | spaced {inner : Grammar} {skipper : Skipper} (hinner : Usable inner) (hskipper : skipper ∈ Skipper.predefined) :
    Usable (.spaced inner skipper)

/-- Reading stopped at the given position, with a node or with an error. -/
def StopsAt (i : Nat) : Result → Prop
  | .ok (_, stop) => stop = i
  | .error (.failed e) => e.pos = i
  | .error (.fault _) => False

/-- Reading stopped between two positions. -/
def Stops (low high : Nat) (r : Result) : Prop := ∃ i, low ≤ i ∧ i ≤ high ∧ StopsAt i r

/-- Wherever the grammar is started, it stops between there and the end of the text. -/
def Bounded (g : Grammar) : Prop := ∀ rest pos, Stops pos (pos + rest.length) (g.parse rest pos)

theorem isMissing_iff {g : Grammar} : g.isMissing = true ↔ g = .missing := by
  cases g <;> simp [isMissing]

theorem bounded_ofReader {g : Grammar} {read : Text → Nat → Except ReadError (SExpr × Nat)}
    (hread : ∀ rest pos, SExpr.StopsIn pos (pos + rest.length) (read rest pos))
    (hg : ∀ rest pos, g.parse rest pos = ofReader (read rest pos)) : g.Bounded := by
  intro rest pos
  have hstops := hread rest pos
  rw [hg]
  cases hr : read rest pos with
  | ok found =>
    obtain ⟨hlow, hhigh⟩ := hstops.of_ok hr
    exact ⟨found.2, hlow, hhigh, rfl⟩
  | error e =>
    obtain ⟨hlow, hhigh⟩ := hstops.of_error hr
    exact ⟨e.pos, hlow, hhigh, rfl⟩

/-- An error stays where it is when further steps are put around it. -/
theorem stopsAt_within {i : Nat} {why : Stop ReadError} (steps : List ReadStep) (h : StopsAt i (.error why)) :
    StopsAt i (.error (why.map (·.within steps))) := by
  cases why with
  | failed e => exact h
  | fault f => exact h

/-- A grammar that is started behind another one stops behind it. -/
theorem Bounded.behind {g : Grammar} (hg : g.Bounded) {rest : Text} {pos start : Nat} (hlow : pos ≤ start)
    (hhigh : start ≤ pos + rest.length) :
    Stops start (pos + rest.length) (g.parse (rest.drop (start - pos)) start) := by
  have hstops := hg (rest.drop (start - pos)) start
  rw [List.length_drop, show start + (rest.length - (start - pos)) = pos + rest.length by omega] at hstops
  exact hstops

theorem bounded_const (text : Text) : (const text).Bounded := by
  intro rest pos
  rw [parse]
  split
  · next h =>
    have hlength := (List.isPrefixOf_iff_prefix.mp h).length_le
    exact ⟨_, Nat.le_add_right _ _, by omega, rfl⟩
  · exact ⟨pos, Nat.le_refl _, Nat.le_add_right _ _, rfl⟩

theorem bounded_file : file.Bounded := by
  intro rest pos
  have hstops := SExpr.readDocument_stops rest pos
  rw [parse]
  split
  · next d stop h =>
    obtain ⟨hlow, hhigh⟩ := hstops.of_ok h
    exact ⟨stop, hlow, hhigh, rfl⟩
  · next e h =>
    obtain ⟨hlow, hhigh⟩ := hstops.of_error h
    exact ⟨e.pos, hlow, hhigh, rfl⟩

theorem bounded_anyOf {alternatives : List Grammar} (h : ∀ g ∈ alternatives, g.Bounded) (names : List Text)
    (rest : Text) (pos : Nat) : Stops pos (pos + rest.length) (parseAny alternatives names rest pos) := by
  induction alternatives with
  | nil => exact ⟨pos, Nat.le_refl _, Nat.le_add_right _ _, rfl⟩
  | cons g gs ih =>
    obtain ⟨hg, hgs⟩ := List.forall_mem_cons.mp h
    obtain ⟨i, hlow, hhigh, hstop⟩ := hg rest pos
    rw [parseAny]
    split
    · next found hread =>
      rw [hread] at hstop
      exact ⟨i, hlow, hhigh, hstop⟩
    · next f hread =>
      rw [hread] at hstop
      exact hstop.elim
    · next e hread =>
      rw [hread] at hstop
      split
      · exact ⟨i, hlow, hhigh, hstop⟩
      · exact ih hgs

theorem bounded_spaced {inner : Grammar} (hinner : inner.Bounded) (skipper : Skipper) :
    (spaced inner skipper).Bounded := by
  intro rest pos
  have hcount := skipper.count_le rest
  have hstops := hinner.behind (Nat.le_add_right pos (skipper.count rest)) (Nat.add_le_add_left hcount pos)
  rw [Nat.add_sub_cancel_left] at hstops
  obtain ⟨i, hlow, hhigh, hstop⟩ := hstops
  rw [parse]
  split
  · next found hread =>
    rw [hread] at hstop
    exact ⟨i, by omega, hhigh, hstop⟩
  · next why hread =>
    rw [hread] at hstop
    cases why with
    | fault f => exact hstop.elim
    | failed e =>
      obtain rfl : e.pos = i := hstop
      refine ⟨if e.pos = pos + skipper.count rest then pos else e.pos, ?_, ?_, rfl⟩
      all_goals split <;> omega

/-- What follows a grammar stops behind it, or is missing and leaves its node where it was. -/
theorem stops_after {after : Grammar} (hafter : after ≠ .missing → after.Bounded) {rest : Text} {pos : Nat}
    (node : Node) {stop : Nat} (hlow : pos ≤ stop) (hhigh : stop ≤ pos + rest.length) :
    Stops pos (pos + rest.length)
      (if after.isMissing then .ok (node, stop)
        else
          match after.parse (rest.drop (stop - pos)) stop with
          | .ok (_, last) => .ok (node, last)
          | .error why => .error (why.map (·.within [.after]))) := by
  split
  · exact ⟨stop, hlow, hhigh, rfl⟩
  · next hgiven =>
    obtain ⟨i, hi, hihigh, hstop⟩ := (hafter (mt isMissing_iff.mpr hgiven)).behind hlow hhigh
    refine ⟨i, by omega, hihigh, ?_⟩
    split
    · next hread =>
      rw [hread] at hstop
      exact hstop
    · next hread =>
      rw [hread] at hstop
      exact stopsAt_within _ hstop

/-- What goes on from where a grammar stopped stops in the text, and so does its error. -/
theorem stops_bind {low start high : Nat} {x : Result} {f : Node × Nat → Result} (hlow : low ≤ start)
    (hx : Stops start high x) (hf : ∀ node stop, start ≤ stop → stop ≤ high → Stops low high (f (node, stop))) :
    Stops low high (x >>= f) := by
  obtain ⟨i, hi, hihigh, hstop⟩ := hx
  cases x with
  | ok found =>
    obtain rfl : found.2 = i := hstop
    exact hf found.1 found.2 hi hihigh
  | error why => exact ⟨i, Nat.le_trans hlow hi, hihigh, hstop⟩

theorem bounded_context {before inner after : Grammar} (hbefore : before ≠ .missing → before.Bounded)
    (hinner : inner.Bounded) (hafter : after ≠ .missing → after.Bounded) : (context before inner after).Bounded := by
  intro rest pos
  rw [parse]
  by_cases hgiven : before.isMissing = true
  · rw [if_pos hgiven]
    have hstart : pos ≤ pos + rest.length := Nat.le_add_right _ _
    apply stops_bind (Nat.le_refl pos) (hinner.behind (Nat.le_refl pos) hstart)
    intro node stop hlow hhigh
    exact stops_after hafter node hlow hhigh
  · obtain ⟨i, hi, hihigh, hstop⟩ := hbefore (mt isMissing_iff.mpr hgiven) rest pos
    rw [if_neg hgiven]
    cases hread : before.parse rest pos with
    | ok found =>
      rw [hread] at hstop
      obtain rfl : found.2 = i := hstop
      apply stops_bind hi (hinner.behind hi hihigh)
      intro node stop hlow hhigh
      exact stops_after hafter node (Nat.le_trans hi hlow) hhigh
    | error why =>
      rw [hread] at hstop
      exact ⟨i, hi, hihigh, stopsAt_within _ hstop⟩

/-- Every usable grammar stops between where it is started and the end of the text. -/
theorem Usable.bounded {g : Grammar} (hg : g.Usable) : g.Bounded := by
  induction hg with
  | const text => exact bounded_const text
  | atom => exact bounded_ofReader SExpr.readAtom_stops fun _ _ => by rw [parse]
  | int => exact bounded_ofReader SExpr.readInt_stops fun _ _ => by rw [parse]
  | list => exact bounded_ofReader SExpr.readList_stops fun _ _ => by rw [parse]
  | expr => exact bounded_ofReader SExpr.readExpr_stops fun _ _ => by rw [parse]
  | file => exact bounded_file
  | context _ _ _ ihbefore ihinner ihafter => exact bounded_context ihbefore ihinner ihafter
  | anyOf _ ih =>
    intro rest pos
    rw [parse]
    exact bounded_anyOf ih _ rest pos
  | spaced _ _ ih => exact bounded_spaced ih _

theorem eq_ok_of_ofReader {r : Except ReadError (SExpr × Nat)} {node : Node} {stop : Nat}
    (h : ofReader r = .ok (node, stop)) : ∃ x, r = .ok (x, stop) := by
  cases r with
  | ok found =>
    cases h
    exact ⟨found.1, rfl⟩
  | error e => cases h

/-- Words, numbers, lists and expressions are never empty. -/
theorem lt_of_parse {g : Grammar} (hg : g ∈ [atom, int, list, expr]) {rest : Text} {pos stop : Nat} {node : Node}
    (h : g.parse rest pos = .ok (node, stop)) : pos < stop := by
  simp only [List.mem_cons, List.not_mem_nil, or_false] at hg
  obtain rfl | rfl | rfl | rfl := hg
  all_goals
    rw [parse] at h
    obtain ⟨x, hread⟩ := eq_ok_of_ofReader h
  · exact SExpr.lt_of_readAtom hread
  · exact SExpr.lt_of_readInt hread
  · exact SExpr.lt_of_readList hread
  · exact SExpr.lt_of_readExpr hread

/-! ### Alternatives -/

/-- An alternative is taken if it fits and all alternatives before it failed without moving on. -/
theorem parseAny_eq_ok_iff {alternatives : List Grammar} {names : List Text} {rest : Text} {pos : Nat}
    {found : Node × Nat} : parseAny alternatives names rest pos = .ok found ↔
      ∃ before g after, alternatives = before ++ g :: after ∧ g.parse rest pos = .ok found ∧
        ∀ h ∈ before, ∃ e, h.parse rest pos = .error (.failed e) ∧ e.pos = pos := by
  constructor
  · intro h
    induction alternatives with
    | nil => cases h
    | cons g gs ih =>
      rw [parseAny] at h
      split at h
      · next found' hread =>
        cases h
        exact ⟨[], g, gs, rfl, hread, List.forall_mem_nil _⟩
      · cases h
      · next e hread =>
        split at h
        · cases h
        · next hpos =>
          obtain ⟨before, g', after, rfl, hread', hbefore⟩ := ih h
          refine ⟨g :: before, g', after, rfl, hread', ?_⟩
          exact List.forall_mem_cons.mpr ⟨⟨e, hread, Decidable.not_not.mp hpos⟩, hbefore⟩
  · intro h
    obtain ⟨before, g, after, rfl, hread, hbefore⟩ := h
    induction before with
    | nil => rw [List.nil_append, parseAny, hread]
    | cons g' before ih =>
      obtain ⟨⟨e, hfailed, hpos⟩, hbefore⟩ := List.forall_mem_cons.mp hbefore
      rw [List.cons_append, parseAny, hfailed]
      exact (if_neg fun h => h hpos).trans (ih hbefore)

/-- Position discipline: a usable grammar that is started in a text, or at its end, stops between there and the end of
the text, with a node or with an error and never with a fault; what is a word, a number, a list or an expression moves
on; and alternatives give what the first one that fits gives, if all before it failed where they started. -/
theorem usable_keeps_positions {g : Grammar} (hg : g.Usable) (text : Text) {st : Nat} (hst : st ≤ text.length) :
    (∃ i, st ≤ i ∧ i ≤ text.length ∧ StopsAt i (g.parse (text.drop st) st)) ∧
      (g ∈ [atom, int, list, expr] → ∀ node i, g.parse (text.drop st) st = .ok (node, i) → st < i) ∧
      ∀ alternatives, g = .anyOf alternatives → ∀ found, g.parse (text.drop st) st = .ok found ↔
        ∃ before h after, alternatives = before ++ h :: after ∧ h.parse (text.drop st) st = .ok found ∧
          ∀ p ∈ before, ∃ e, p.parse (text.drop st) st = .error (.failed e) ∧ e.pos = st := by
  refine ⟨?_, fun hmem node i h => lt_of_parse hmem h, ?_⟩
  · have hstops := hg.bounded (text.drop st) st
    rw [List.length_drop, Nat.add_sub_cancel' hst] at hstops
    exact hstops
  · intro alternatives halternatives found
    subst halternatives
    rw [parse]
    exact parseAny_eq_ok_iff

/-- A word or a number in brackets, behind blanks and comments, started inside a text. At the blank behind the bracket
there is no number, so the word is chosen; and the word before the bracket takes at least a byte. -/
theorem bracketed_keeps_positions :
    let choice := anyOf [int, spaced atom .blank]
    let g := context (const "[") choice (spaced (const "]") .spaceTab)
    let text : Text := "x[ ; note\n y ]"
    g.Usable ∧ 1 ≤ text.length ∧ (∃ i, 1 ≤ i ∧ i ≤ text.length ∧ StopsAt i (g.parse (text.drop 1) 1)) ∧
      (∃ found, (spaced atom .blank).parse (text.drop 2) 2 = .ok found ∧ choice.parse (text.drop 2) 2 = .ok found) ∧
      ∃ node i, atom.parse (text.drop 0) 0 = .ok (node, i) ∧ 0 < i := by
  intro choice g text
  have hchoice : choice.Usable :=
    .anyOf (List.forall_mem_cons.mpr ⟨.int, List.forall_mem_singleton.mpr (.spaced .atom (by decide))⟩)
  have hg : g.Usable := .context (fun _ => .const _) hchoice fun _ => .spaced (.const _) (by decide)
  have hlength : 1 ≤ text.length := by decide
  refine ⟨hg, hlength, (usable_keeps_positions hg text hlength).1, ?_, ?_⟩
  · have hnoInt : int.parse (text.drop 2) 2 = .error (.failed { pos := 2, problem := .noInt }) := rfl
    have hok : ((spaced atom .blank).parse (text.drop 2) 2).isOk = true := by decide +kernel
    cases hfound : (spaced atom .blank).parse (text.drop 2) 2 with
    | error e =>
      rw [hfound] at hok
      cases hok
    | ok found =>
      refine ⟨found, rfl, ?_⟩
      refine ((usable_keeps_positions hchoice text (by decide)).2.2 _ rfl found).mpr ⟨[int], _, [], rfl, hfound, ?_⟩
      exact List.forall_mem_singleton.mpr ⟨_, hnoInt, rfl⟩
  · obtain ⟨⟨node, i⟩, hword⟩ : ∃ found, atom.parse (text.drop 0) 0 = .ok found := ⟨_, rfl⟩
    exact ⟨node, i, hword, (usable_keeps_positions .atom text (Nat.zero_le _)).2.1 List.mem_cons_self node i hword⟩

end Grammar

end Lowering
