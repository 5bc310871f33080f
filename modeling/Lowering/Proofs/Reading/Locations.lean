import Lowering.Proofs.Reading.Files

/-!
# Locations

Positions count the bytes of all files of a source, while a location names one file with a line and a column in it. The
location of a byte is found in the file that holds it, and then no other file matters. Only the first byte of a file
that has files before it is looked for too early: its position is also where the text before it ends, and the location
is the end of an earlier file.
-/

namespace Lowering.Source

/-- The byte at an offset, or the end of the text, is in the given line and column, both counted from one. -/
structure StandsAt (text : Text) (o line column : Nat) : Prop where
  line : line = 1 + (text.take o).count Text.newline
  /-- The line starts with the text or behind the end of another line. -/
  column : ∃ lines start, text.take o = lines ++ start ∧ (lines = [] ∨ lines.getLast? = some Text.newline) ∧
    Text.newline ∉ start ∧ column = 1 + start.length

/-- A place as it is written. -/
def placeText (name : Text) (line column : Nat) : Text :=
  name ++ ":" ++ Text.ofNat line ++ ":" ++ Text.ofNat column

/-- The number of bytes in files. -/
def textLength (files : List SourceFile) : Nat := (files.flatMap (·.text)).length

/-- The first file without any text behind it. It ends where the text of all files ends. -/
def lastHolder : List SourceFile → Option SourceFile
  | [] => none
  | g :: rest => if rest.all (·.text.isEmpty) then some g else lastHolder rest

theorem textLength_cons (g : SourceFile) (files : List SourceFile) :
    textLength (g :: files) = g.text.length + textLength files := by
  rw [textLength, List.flatMap_cons, List.length_append]
  rfl

theorem textLength_eq_zero_iff {files : List SourceFile} :
    textLength files = 0 ↔ files.all (·.text.isEmpty) = true := by
  rw [textLength, List.length_eq_zero_iff, List.flatMap_eq_nil_iff, List.all_eq_true]
  simp only [List.isEmpty_iff]

/-! ### Lines and columns -/

theorem standsAt_lineColumn (text : Text) (o : Nat) :
    StandsAt text o (lineColumn (text.take o)).1 (lineColumn (text.take o)).2 := by
  refine ⟨rfl, ?_⟩
  generalize text.take o = before
  -- The column is counted backwards, so the line is found in the reversed text.
  let p : UInt8 → Bool := (· != Text.newline)
  refine ⟨(before.reverse.dropWhile p).reverse, (before.reverse.takeWhile p).reverse, ?_, ?_, ?_, ?_⟩
  · rw [← List.reverse_append, List.takeWhile_append_dropWhile, List.reverse_reverse]
  · rw [List.reverse_eq_nil_iff, List.getLast?_reverse]
    have hhead := List.head?_dropWhile_not p before.reverse
    cases hrest : before.reverse.dropWhile p with
    | nil => exact .inl rfl
    | cons b rest =>
      rw [hrest] at hhead
      exact .inr (congrArg some (by simpa [p] using hhead))
  · intro hmem
    have hne := List.all_eq_true.mp (List.all_takeWhile (p := p)) _ (List.mem_reverse.mp hmem)
    simp [p] at hne
  · rw [List.length_reverse]
    rfl

theorem StandsAt.column_le {text : Text} {o line line' column column' : Nat} (h : StandsAt text o line column)
    (h' : StandsAt text o line' column') : column ≤ column' := by
  obtain ⟨lines, start, htake, -, hstart, rfl⟩ := h.column
  obtain ⟨lines', start', htake', hlines', -, rfl⟩ := h'.column
  obtain ⟨c, rfl, rfl⟩ | ⟨c, -, rfl⟩ := List.append_eq_append_iff.mp (htake.symm.trans htake')
  · cases hc : c.getLast? with
    | none =>
      rw [List.getLast?_eq_none_iff.mp hc]
      exact Nat.le_refl _
    | some b =>
      -- What is common to the lines before and the line itself would end with a newline.
      have hlast : (lines ++ c).getLast? = some b := by rw [List.getLast?_append, hc, Option.some_or]
      have hmem := List.mem_of_getLast? hc
      obtain hnil | hnewline := hlines'
      · rw [hnil] at hlast
        cases hlast
      · rw [hlast] at hnewline
        rw [Option.some.inj hnewline] at hmem
        exact absurd (List.mem_append_left _ hmem) hstart
  · rw [List.length_append]
    omega

/-- A byte stands at one place. -/
theorem StandsAt.unique {text : Text} {o line line' column column' : Nat} (h : StandsAt text o line column)
    (h' : StandsAt text o line' column') : line = line' ∧ column = column' :=
  ⟨h.line.trans h'.line.symm, Nat.le_antisymm (h.column_le h') (h'.column_le h)⟩

/-! ### Written places -/

/-- What is behind the last separator of a text is no longer than what is behind another one. -/
theorem length_le_of_split {a b d e : Text} {c : UInt8} (hd : c ∉ d) (h : a ++ c :: d = b ++ c :: e) :
    d.length ≤ e.length := by
  obtain ⟨x, -, hrest⟩ | ⟨x, -, hrest⟩ := List.append_eq_append_iff.mp h
  · cases x with
    | nil => exact Nat.le_of_eq (congrArg List.length (List.cons.inj hrest).2)
    | cons y x =>
      have hmem : c ∈ d := by
        rw [(List.cons.inj hrest).2]
        exact List.mem_append_right _ List.mem_cons_self
      exact absurd hmem hd
  · have hlength := congrArg List.length hrest
    rw [List.length_append, List.length_cons, List.length_cons] at hlength
    omega

/-- A number behind a colon can be told from what stands before it. -/
theorem append_colon_inj {a b : Text} {n m : Nat}
    (h : a ++ Text.ofString ":" ++ Text.ofNat n = b ++ Text.ofString ":" ++ Text.ofNat m) : a = b ∧ n = m := by
  have hcolon (k : Nat) : Text.byte ':' ∉ Text.ofNat k := by
    intro hmem
    have hdigit := Text.isDigit_of_mem_ofNat k _ hmem
    exact absurd hdigit (by decide)
  have hcons (a d : Text) : a ++ Text.ofString ":" ++ d = a ++ Text.byte ':' :: d := List.append_assoc ..
  rw [hcons, hcons] at h
  have hlength := Nat.le_antisymm (length_le_of_split (hcolon n) h) (length_le_of_split (hcolon m) h.symm)
  obtain ⟨hbefore, hnumber⟩ := List.append_inj' h (congrArg (· + 1) hlength)
  exact ⟨hbefore, Text.ofNat_injective (List.cons.inj hnumber).2⟩

theorem placeText_inj {name name' : Text} {line line' column column' : Nat}
    (h : placeText name line column = placeText name' line' column') :
    name = name' ∧ line = line' ∧ column = column' := by
  obtain ⟨hplace, hcolumn⟩ := append_colon_inj h
  obtain ⟨hname, hline⟩ := append_colon_inj hplace
  exact ⟨hname, hline, hcolumn⟩

/-! ### The search for the file -/

/-- An offset of a file as a place. -/
def placeIn (f : SourceFile) (o : Nat) : Text :=
  placeText f.name (lineColumn (f.text.take o)).1 (lineColumn (f.text.take o)).2

section

variable {before : List SourceFile}

theorem locationFrom_here (base : Nat) (f : SourceFile) (rest : List SourceFile) {o : Nat} (ho : o ≤ f.text.length) :
    locationFrom base (f :: rest) (base + o : Nat) = placeIn f o := by
  rw [locationFrom, if_pos (by omega)]
  have hoffset : ((base + o : Nat) - base : Int).toNat = o := by omega
  rw [hoffset]
  rfl

theorem locationFrom_skip (base : Nat) (g : SourceFile) (rest : List SourceFile) {pos : Nat}
    (hpos : base + g.text.length < pos) :
    locationFrom base (g :: rest) pos = locationFrom (base + g.text.length) rest pos := by
  rw [locationFrom, if_neg (by omega)]

/-- Files that end before a position are passed over. -/
theorem locationFrom_beyond (rest : List SourceFile) {base pos : Nat} (hpos : base + textLength before < pos) :
    locationFrom base (before ++ rest) pos = locationFrom (base + textLength before) rest pos := by
  induction before generalizing base with
  | nil => rfl
  | cons g before ih =>
    rw [textLength_cons, ← Nat.add_assoc] at hpos ⊢
    rw [List.cons_append, locationFrom_skip base g _ (by omega), ih hpos]

/-- Where the text of files ends, the search ends with the first of them that ends there. -/
theorem locationFrom_end {g : SourceFile} (hg : lastHolder before = some g) (base : Nat) (rest : List SourceFile) :
    locationFrom base (before ++ rest) (base + textLength before : Nat) = placeIn g g.text.length := by
  induction before generalizing base with
  | nil => cases hg
  | cons f before ih =>
    rw [List.cons_append, textLength_cons]
    rw [lastHolder] at hg
    split at hg
    · next hempty =>
      obtain rfl := Option.some.inj hg
      rw [textLength_eq_zero_iff.mpr hempty]
      exact locationFrom_here base f _ (Nat.le_refl _)
    · next hsome =>
      have hpos : textLength before ≠ 0 := mt textLength_eq_zero_iff.mp hsome
      rw [locationFrom_skip base f _ (by omega), ← Nat.add_assoc]
      exact ih hg (base + f.text.length)

theorem lastHolder_eq_none_iff : lastHolder before = none ↔ before = [] := by
  induction before with
  | nil => simp [lastHolder]
  | cons g before ih =>
    rw [lastHolder]
    split
    · simp
    · next hsome =>
      rw [ih]
      constructor
      · rintro rfl
        exact absurd rfl hsome
      · intro h
        cases h

/-- Only an empty file ends in its first line and column. -/
theorem eq_nil_of_lineColumn {text : Text} (hline : (lineColumn text).1 = 1) (hcolumn : (lineColumn text).2 = 1) :
    text = [] := by
  have hcount : text.count Text.newline = 0 := by
    have : 1 + text.count Text.newline = 1 := hline
    omega
  have hline : ∀ b ∈ text.reverse, (b != Text.newline) = true := by
    intro b hb
    apply bne_iff_ne.mpr
    rintro rfl
    exact List.count_eq_zero.mp hcount (List.mem_reverse.mp hb)
  have hlength : 1 + (text.reverse.takeWhile (· != Text.newline)).length = 1 := hcolumn
  rw [← List.append_nil text.reverse, List.takeWhile_append_of_pos hline, List.takeWhile_nil, List.append_nil,
    List.length_reverse] at hlength
  apply List.eq_nil_of_length_eq_zero
  omega

theorem placeIn_end_eq_start_iff {f g : SourceFile} : placeIn g g.text.length = placeIn f 0 ↔ g = ⟨f.name, []⟩ := by
  constructor
  · intro h
    obtain ⟨hname, hline, hcolumn⟩ := placeText_inj h
    rw [List.take_length] at hline hcolumn
    have htext : g.text = [] := eq_nil_of_lineColumn hline hcolumn
    obtain ⟨name, text⟩ := g
    obtain rfl : text = [] := htext
    obtain rfl : name = f.name := hname
    rfl
  · rintro rfl
    rfl

end

/-- The location of a byte is the place in its file, whatever files are before and behind, exactly if the byte is not
the first of its file, or no file is before, or what ends there is an empty file of the same name. Otherwise it is the
end of another file. -/
theorem byte_is_located_in_its_file_iff (f : SourceFile) (o : Nat) (ho : o < f.text.length) :
    ∃ line column, StandsAt f.text o line column ∧ ∀ before after : List SourceFile,
      ((ofFiles (before ++ f :: after)).location (textLength before + o : Nat) = placeText f.name line column ↔
        0 < o ∨ ∀ g, lastHolder before = some g → g = ⟨f.name, []⟩) ∧
      ∀ g, o = 0 → lastHolder before = some g → ∃ line' column', StandsAt g.text g.text.length line' column' ∧
        (ofFiles (before ++ f :: after)).location (textLength before + o : Nat) = placeText g.name line' column' := by
  refine ⟨_, _, standsAt_lineColumn f.text o, ?_⟩
  intro before after
  rw [location, files_ofFiles]
  have hend (g : SourceFile) (hg : lastHolder before = some g) :
      locationFrom 0 (before ++ f :: after) (textLength before + 0 : Nat) = placeIn g g.text.length := by
    have hend := locationFrom_end hg 0 (f :: after)
    rwa [Nat.zero_add] at hend
  refine ⟨?_, ?_⟩
  · by_cases hpos : 0 < o
    · have hbeyond : locationFrom 0 (before ++ f :: after) (textLength before + o : Nat) = placeIn f o := by
        rw [locationFrom_beyond _ (by omega), Nat.zero_add]
        exact locationFrom_here _ f after (Nat.le_of_lt ho)
      exact iff_of_true hbeyond (.inl hpos)
    · obtain rfl : o = 0 := by omega
      cases hlast : lastHolder before with
      | none =>
        obtain rfl := lastHolder_eq_none_iff.mp hlast
        refine iff_of_true (locationFrom_here 0 f after (Nat.zero_le _)) (.inr ?_)
        intro g hg
        cases hg
      | some g =>
        rw [hend g hlast]
        refine placeIn_end_eq_start_iff.trans ⟨?_, ?_⟩
        · intro hg
          right
          intro g' hg'
          rw [← Option.some.inj hg', hg]
        · intro h
          exact (h.resolve_left hpos) g rfl
  · rintro g rfl hg
    refine ⟨_, _, standsAt_lineColumn g.text g.text.length, ?_⟩
    exact hend g hg

/-- The second line of a file behind two others. -/
theorem laterLine_is_located_in_its_file :
    let files : List SourceFile := [⟨"a.ir", "(a)\n"⟩, ⟨"b.ir", ""⟩, ⟨"c.ir", "(b)\n (c)"⟩]
    5 < ("(b)\n (c)" : Text).length ∧ (ofFiles files).location 9 = "c.ir:2:2" := by
  intro files
  obtain ⟨line, column, hstands, hlocated⟩ :=
    byte_is_located_in_its_file_iff ⟨"c.ir", "(b)\n (c)"⟩ 5 (by decide)
  have hplace := (hlocated [⟨"a.ir", "(a)\n"⟩, ⟨"b.ir", ""⟩] []).1.mpr (.inl (by decide))
  obtain ⟨rfl, rfl⟩ := hstands.unique (standsAt_lineColumn "(b)\n (c)" 5)
  exact ⟨by decide, hplace.trans (by with_unfolding_all rfl)⟩

/-- The first byte of the second file is taken for the end of the first file. -/
theorem firstByte_is_located_elsewhere :
    let first : SourceFile := ⟨"a.ir", "(a)\n"⟩
    let second : SourceFile := ⟨"b.ir", "(b)"⟩
    StandsAt second.text 0 1 1 ∧
      (ofFiles [first, second]).location (textLength [first] + 0 : Nat) = placeText "a.ir" 2 1 ∧
      (ofFiles [first, second]).location (textLength [first] + 0 : Nat) ≠ placeText second.name 1 1 := by
  intro first second
  have hlocation : (ofFiles [first, second]).location (textLength [first] + 0 : Nat) = placeText "a.ir" 2 1 := rfl
  refine ⟨standsAt_lineColumn second.text 0, hlocation, ?_⟩
  rw [hlocation]
  intro h
  exact absurd (placeText_inj h).2.1 (by decide)

end Lowering.Source
