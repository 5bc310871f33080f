import Lowering.Proofs.Definedness.DenseSets

/-!
# Dense sets under any use

A dense set is used by putting keys in and asking for them, in any order. Each answer is the one that a plain set of
integers gives: a key is there exactly if it was put in before, and putting a key in is refused exactly below the base.
What carries this through a history is that the set records the history so far, and one call at a time keeps that up.
-/

namespace Lowering.DenseSet

/-- What can be asked of a dense set. -/
inductive Call where
  | insert (k : Int)
  | contains (k : Int)
  deriving DecidableEq, Repr

def Call.key : Call → Int
  | .insert k => k
  | .contains k => k

inductive Answer where
  | done
  | refused (why : Fault)
  | member (b : Bool)
  deriving DecidableEq, Repr

/-- The answer to a call and the set after it; a call that is refused leaves the set as it was. -/
def call (s : DenseSet) : Call → Answer × DenseSet
  | .insert k =>
    match s.insert k with
    | .ok s' => (.done, s')
    | .error why => (.refused why, s)
  | .contains k => (.member (s.contains k), s)

/-- A list of calls, each with its answer. -/
abbrev History := List (Call × Answer)

/-- The calls made one after another, with their answers. -/
def history (s : DenseSet) : List Call → History
  | [] => []
  | c :: cs => (c, (s.call c).1) :: (s.call c).2.history cs

/-- The set after the calls. -/
def after (s : DenseSet) (cs : List Call) : DenseSet := cs.foldl (fun s c => (s.call c).2) s

/-- The set of integers that a history leaves behind. -/
def History.Put (h : History) (k : Int) : Prop := (.insert k, .done) ∈ h

instance (h : History) (k : Int) : Decidable (h.Put k) := inferInstanceAs (Decidable (_ ∈ _))

/-- The answer of a plain set of integers, of which those below the base are kept out. -/
def History.answer (base : Int) (h : History) : Call → Answer
  | .insert k => if k < base then .refused .keyBelowBase else .done
  | .contains k => .member (h.Put k)

/-- Of the keys that fit, a set holds exactly those that were put in. -/
def Records (s : DenseSet) (h : History) : Prop := ∀ k, s.Fits k → (s.contains k = true ↔ h.Put k)

variable {s : DenseSet} {k : Int} {h : History} {c : Call}

/-! ### One call -/

instance (s : DenseSet) (k : Int) : Decidable (s.Fits k) := inferInstanceAs (Decidable (_ ∧ _))

theorem Fits.of_base_eq {s' : DenseSet} (hk : s.Fits k) (hbase : s'.base = s.base) : s'.Fits k := by
  rw [Fits, hbase]
  exact hk

/-- A set that has grown holds what it held before. -/
theorem contains_grow (s : DenseSet) (n : Nat) (k : Int) : (s.grow n).contains k = s.contains k := by
  have hplace : (s.grow n).place? k = s.place? k := rfl
  cases h : s.place? k with
  | none => simp [contains, hplace, h]
  | some place => rw [contains_of_place (hplace.trans h), contains_of_place h, bits_grow]

/-- What a call can come to: an answer and a set. -/
inductive Effect (s : DenseSet) : Call → Answer × DenseSet → Prop where
  | contains (k : Int) : Effect s (.contains k) (.member (s.contains k), s)
  | refused {k : Int} (hlt : k < s.base) : Effect s (.insert k) (.refused .keyBelowBase, s)
  | put {k : Int} {s' : DenseSet} (hle : s.base ≤ k) (hbase : s'.base = s.base)
      (hcontains : ∀ k', s.Fits k' → (s'.contains k' = true ↔ k' = k ∨ s.contains k' = true)) :
      Effect s (.insert k) (.done, s')

theorem Fits.insert_eq_error (hk : s.Fits k) (hlt : k < s.base) : s.insert k = .error .keyBelowBase := by
  rw [insert, hk.place_eq_none hlt]

theorem effect_call (hk : s.Fits c.key) : s.Effect c (s.call c) := by
  cases c with
  | contains k => exact .contains k
  | insert k =>
    replace hk : s.Fits k := hk
    by_cases hlt : k < s.base
    · rw [call, hk.insert_eq_error hlt]
      exact .refused hlt
    · obtain ⟨s', hinsert, hbase, hcontains⟩ := insert_of_le hk (Int.not_lt.mp hlt)
      rw [call, hinsert]
      exact .put (Int.not_lt.mp hlt) hbase hcontains

namespace Effect

variable {r : Answer × DenseSet}

theorem base_eq (he : s.Effect c r) : r.2.base = s.base := by
  cases he with
  | contains k => rfl
  | refused hlt => rfl
  | put hle hbase hcontains => exact hbase

/-- Putting a key in, or trying to, says nothing about the others. -/
theorem contains_of_ne {k' : Int} (he : s.Effect (.insert k) r) (hk' : s.Fits k') (hne : k' ≠ k) :
    r.2.contains k' = s.contains k' := by
  cases he with
  | refused hlt => rfl
  | put hle hbase hcontains => rw [Bool.eq_iff_iff, hcontains k' hk', or_iff_right hne]

/-- A set that records a history answers the next call as the history says. -/
theorem answer_eq (he : s.Effect c r) (hs : s.Records h) (hk : s.Fits c.key) : r.1 = h.answer s.base c := by
  cases he with
  | contains k => simp only [History.answer, ← hs k hk, Bool.decide_eq_true]
  | refused hlt => rw [History.answer, if_pos hlt]
  | put hle hbase hcontains => rw [History.answer, if_neg (Int.not_lt.mpr hle)]

/-- One more call, and the set records one more call. -/
theorem records (he : s.Effect c r) (hs : s.Records h) : r.2.Records (h ++ [(c, r.1)]) := by
  intro k hk
  replace hk : s.Fits k := hk.of_base_eq he.base_eq.symm
  cases he with
  | contains k' => simpa [History.Put] using hs k hk
  | refused hlt => simpa [History.Put] using hs k hk
  | put hle hbase hcontains =>
    rw [hcontains k hk, hs k hk]
    simp [History.Put, or_comm]

end Effect

/-! ### Histories -/

theorem records_empty (base : Int) : (DenseSet.mk base #[]).Records [] := by
  intro k _
  simp [History.Put, contains_empty]

/-- From a set that records a history, calls go on as the history says, and the set goes on recording it. -/
theorem Records.run {cs : List Call} (hs : s.Records h) (hcs : ∀ c ∈ cs, s.Fits c.key) :
    (∀ earlier c a later, s.history cs = earlier ++ (c, a) :: later → a = (h ++ earlier).answer s.base c) ∧
      (s.after cs).base = s.base ∧ (s.after cs).Records (h ++ s.history cs) := by
  -- On the calls; the history that is recorded takes up each call as it is made.
  induction cs generalizing s h with
  | nil =>
    refine ⟨?_, rfl, ?_⟩
    · intro earlier c a later hsplit
      simp [history] at hsplit
    · simpa [history, after] using hs
  | cons c cs ih =>
    have hc : s.Fits c.key := hcs c List.mem_cons_self
    have heffect := effect_call hc
    have hbase : (s.call c).2.base = s.base := heffect.base_eq
    obtain ⟨hanswers, hbase', hrecords⟩ := ih (heffect.records hs) fun c' hc' =>
      (hcs c' (List.mem_cons_of_mem c hc')).of_base_eq hbase
    rw [hbase] at hanswers hbase'
    refine ⟨?_, hbase', ?_⟩
    · intro earlier c' a later hsplit
      cases earlier with
      | nil =>
        obtain ⟨⟨rfl, rfl⟩, -⟩ : (c = c' ∧ (s.call c).1 = a) ∧ (s.call c).2.history cs = later := by
          simpa [history] using hsplit
        rw [List.append_nil]
        exact heffect.answer_eq hs hc
      | cons first earlier =>
        obtain ⟨rfl, hrest⟩ : (c, (s.call c).1) = first ∧ (s.call c).2.history cs = earlier ++ (c', a) :: later := by
          simpa [history] using hsplit
        rw [hanswers earlier c' a later hrest, List.append_assoc, List.singleton_append]
    · rw [List.append_assoc, List.singleton_append] at hrecords
      exact hrecords

/-- A dense set is a set of integers. From an empty set, each call of a history is answered from the calls before it:
a key is refused exactly if it lies below the base, and it is there exactly if it was put in. At any time a key that is
refused leaves the set as it is, a key that is put in is there and changes nothing for the others, and more room changes
nothing at all. -/
theorem histories_are_those_of_sets (base : Int) (cs : List Call) (hcs : ∀ c ∈ cs, (DenseSet.mk base #[]).Fits c.key) :
    (∀ (earlier : History) c a later, (DenseSet.mk base #[]).history cs = earlier ++ (c, a) :: later →
      a = earlier.answer base c) ∧
    ∀ s, s = (DenseSet.mk base #[]).after cs →
      (∀ k, s.Fits k →
        (s.contains k = true ↔ ((DenseSet.mk base #[]).history cs).Put k) ∧
        (s.insert k = .error .keyBelowBase ↔ k < base) ∧
        (k < base → (s.call (.insert k)).2 = s) ∧
        (base ≤ k → ∃ s', s.insert k = .ok s' ∧ s'.contains k = true) ∧
        ∀ k', s.Fits k' → k' ≠ k → (s.call (.insert k)).2.contains k' = s.contains k') ∧
      ∀ n k, (s.grow n).contains k = s.contains k := by
  obtain ⟨hanswers, hbase, hrecords⟩ := (records_empty base).run hcs
  refine ⟨fun earlier c a later hsplit => by simpa using hanswers earlier c a later hsplit, ?_⟩
  rintro s rfl
  generalize (DenseSet.mk base #[]).after cs = s at hbase hrecords
  subst hbase
  refine ⟨fun k hk => ⟨hrecords k hk, ?_, ?_, ?_, ?_⟩, contains_grow s⟩
  · constructor
    · intro hrefused
      apply Int.not_le.mp
      intro hle
      obtain ⟨s', hinsert, -⟩ := insert_of_le hk hle
      cases hinsert.symm.trans hrefused
    · exact hk.insert_eq_error
  · intro hlt
    rw [call, hk.insert_eq_error hlt]
  · intro hle
    obtain ⟨s', hinsert, -⟩ := insert_of_le hk hle
    exact ⟨s', hinsert, (contains_of_insert hinsert).1⟩
  · intro k' hk' hne
    exact (effect_call (c := .insert k) hk).contains_of_ne hk' hne

/-- Keys at the base, below it, at the edge of a word and behind a gap. -/
def mixedCalls : List Call :=
  [.insert 1000, .insert 999, .insert 1063, .contains 1063, .contains 1064, .insert 1200, .contains 1000, .contains 999,
    .contains 1001, .contains 1199, .contains 5000]

theorem mixedCalls_are_answered_as_by_a_set :
    (∀ c ∈ mixedCalls, (DenseSet.mk 1000 #[]).Fits c.key) ∧
    ((DenseSet.mk 1000 #[]).history mixedCalls).map Prod.snd =
      [.done, .refused .keyBelowBase, .done, .member true, .member false, .done, .member true, .member false,
        .member false, .member false, .member false] ∧
    (∀ (earlier : History) c a later, (DenseSet.mk 1000 #[]).history mixedCalls = earlier ++ (c, a) :: later →
      a = earlier.answer 1000 c) ∧
    ∀ s, s = (DenseSet.mk 1000 #[]).after mixedCalls → s.Fits 1064 ∧ s.Fits 1063 ∧
      (s.call (.insert 1064)).2.contains 1063 = s.contains 1063 := by
  have hfits : ∀ c ∈ mixedCalls, (DenseSet.mk 1000 #[]).Fits c.key := by decide
  obtain ⟨hanswers, hlast⟩ := histories_are_those_of_sets 1000 mixedCalls hfits
  refine ⟨hfits, by decide +kernel, hanswers, ?_⟩
  intro s hs
  have hkey : s.Fits 1064 ∧ s.Fits 1063 := by
    rw [hs]
    decide +kernel
  obtain ⟨-, -, -, -, hothers⟩ := (hlast s hs).1 1064 hkey.1
  exact ⟨hkey.1, hkey.2, hothers 1063 hkey.2 (by decide)⟩

end Lowering.DenseSet
