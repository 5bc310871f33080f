import Lowering.Proofs.Matching.Captures
import Lowering.Proofs.Matching.Instances

/-!
# Matching is exact

A thing matches a pattern exactly if it is one of its instances, and the captures are what the instance was filled with.
Matching goes from left to right and each wildcard adds what stands in its place, so a slot that occurs more than once
does not make matching fail: it holds what its last occurrence captured.
-/

namespace Lowering

open Occurrence (under capture? filterMap_under)

/-! ### Things that fit -/

/-- The step of matching succeeds and adds what the wildcards at some places of `x` capture. -/
def Adds (x : Part) (step : Captures → Except (Stop Misfit) Captures) (os : List Occurrence) : Prop :=
  ∀ cs, step cs = .ok (cs.bindAll (os.filterMap (capture? x)))

namespace Adds

variable {x y : Part} {a b : Captures → Except (Stop Misfit) Captures} {os os' : List Occurrence} {i : Nat}

theorem under (h : Adds y a os) (hpart : x.parts[i]? = some y) : Adds x a (Occurrence.under i os) := by
  intro cs
  rw [h cs, filterMap_under hpart]

theorem append (ha : Adds x a os) (hb : Adds x b os') : Adds x (fun cs => (a cs).bind b) (os ++ os') := by
  intro cs
  refine (congrArg (Except.bind · b) (ha cs)).trans ((hb _).trans ?_)
  rw [List.filterMap_append, Captures.bindAll_append]

end Adds

namespace Pattern

theorem agrees_of_isPlain {k : Kind} (hk : k.isPlain = true) (x v : k.Value) :
    ∃ same, k.agrees x v = .ok same ∧ (same = true ↔ x = v) := by
  cases k with
  | word | temp | label | op | rel => exact ⟨x == v, rfl, beq_iff_eq⟩
  | _ => cases hk

theorem fitLiteral_self {k : Kind} (hk : k.isPlain = true) (v : k.Value) (cs : Captures) :
    fitLiteral v v cs = .ok cs := by
  obtain ⟨same, hagrees, hsame⟩ := agrees_of_isPlain hk v v
  rw [fitLiteral, hagrees, hsame.mpr rfl]

theorem Fits.adds {k : Kind} {p : Pattern k} {v : k.Value} (h : p.Fits v) (hp : p.plain = true) :
    Adds ⟨k, v⟩ (p.fitFrom v) p.occurrences := by
  induction h with
  | any v => exact fun _ => rfl
  | wild w v => exact fun _ => rfl
  | lit v => exact fitLiteral_self hp v
  | move _ _ ihdst ihsrc =>
    obtain ⟨hd, hs⟩ := Bool.and_eq_true_iff.mp hp
    exact ((ihdst hd).under rfl).append ((ihsrc hs).under rfl)
  | exp _ ih => exact (ih hp).under rfl
  | label _ ih => exact (ih hp).under rfl
  | seq _ _ ihfirst ihsecond =>
    obtain ⟨ha, hb⟩ := Bool.and_eq_true_iff.mp hp
    exact ((ihfirst ha).under rfl).append ((ihsecond hb).under rfl)
  | jump _ _ ihtarget ihlabels =>
    obtain ⟨ht, hls⟩ := Bool.and_eq_true_iff.mp hp
    exact ((ihtarget ht).under rfl).append ((ihlabels hls).under rfl)
  | cjump _ _ _ _ _ ihrel ihleft ihright ihtrue ihfalse =>
    simp only [plain, Bool.and_eq_true] at hp
    obtain ⟨⟨⟨⟨ho, hl⟩, hr⟩, ht⟩, hf⟩ := hp
    exact ((ihrel ho).under rfl).append (((ihleft hl).under rfl).append (((ihright hr).under rfl).append
      (((ihtrue ht).under rfl).append ((ihfalse hf).under rfl))))
  | const _ ih => exact (ih hp).under rfl
  | temp _ ih => exact (ih hp).under rfl
  | bin _ _ _ ihop ihleft ihright =>
    simp only [plain, Bool.and_eq_true] at hp
    obtain ⟨⟨ho, hl⟩, hr⟩ := hp
    exact ((ihop ho).under rfl).append (((ihleft hl).under rfl).append ((ihright hr).under rfl))
  | mem _ ih => exact (ih hp).under rfl
  | call _ _ ihfunc ihargs =>
    obtain ⟨hf, has⟩ := Bool.and_eq_true_iff.mp hp
    exact ((ihfunc hf).under rfl).append ((ihargs has).under rfl)
  | name _ ih => exact (ih hp).under rfl
  | eseq _ _ ihs ihe =>
    obtain ⟨hs, he⟩ := Bool.and_eq_true_iff.mp hp
    exact ((ihs hs).under rfl).append ((ihe he).under rfl)

/-! ### Things that do not fit -/

theorem eq_of_fitLiteral {k : Kind} (hk : k.isPlain = true) {x v : k.Value} {cs : Captures}
    (hfit : fitLiteral v x cs ≠ .error (.failed .misfit)) : x = v := by
  obtain ⟨same, hagrees, hsame⟩ := agrees_of_isPlain hk x v
  rw [fitLiteral, hagrees] at hfit
  cases same with
  | true => exact hsame.mp rfl
  | false => exact absurd rfl hfit

/-- If matching gets past a part, the part fits, and matching goes on from some captures. -/
theorem fits_and_next {k : Kind} {p : Pattern k} {v : k.Value} {cs : Captures}
    {next : Captures → Except (Stop Misfit) Captures} (hp : p.plain = true)
    (ih : p.fitFrom v cs ≠ .error (.failed .misfit) → p.Fits v)
    (hfit : (p.fitFrom v cs).bind next ≠ .error (.failed .misfit)) :
    p.Fits v ∧ ∃ cs', next cs' ≠ .error (.failed .misfit) := by
  have hpart : p.Fits v := by
    refine ih fun hmisfit => hfit ?_
    rw [hmisfit]
    rfl
  rw [hpart.adds hp cs] at hfit
  exact ⟨hpart, _, hfit⟩

theorem fits_of_fitFrom {k : Kind} {p : Pattern k} (hp : p.plain = true) {v : k.Value} {cs : Captures}
    (hfit : p.fitFrom v cs ≠ .error (.failed .misfit)) : p.Fits v := by
  induction p generalizing cs with
  | any => exact .any v
  | wild w => exact .wild w v
  | lit x =>
    obtain rfl := eq_of_fitLiteral hp hfit
    exact .lit v
  | move d s ihd ihs =>
    obtain ⟨hd, hs⟩ := Bool.and_eq_true_iff.mp hp
    cases v with
    | move dst src =>
      obtain ⟨hdst, _, hnext⟩ := fits_and_next hd (ihd hd) hfit
      exact .move hdst (ihs hs hnext)
    | _ => exact absurd rfl hfit
  | exp e ih =>
    cases v with
    | exp x => exact .exp (ih hp hfit)
    | _ => exact absurd rfl hfit
  | label l ih =>
    cases v with
    | label x => exact .label (ih hp hfit)
    | _ => exact absurd rfl hfit
  | seq a b iha ihb =>
    obtain ⟨ha, hb⟩ := Bool.and_eq_true_iff.mp hp
    cases v with
    | seq first second =>
      obtain ⟨hfirst, _, hnext⟩ := fits_and_next ha (iha ha) hfit
      exact .seq hfirst (ihb hb hnext)
    | _ => exact absurd rfl hfit
  | jump t ls iht ihls =>
    obtain ⟨ht, hls⟩ := Bool.and_eq_true_iff.mp hp
    cases v with
    | jump target labels =>
      obtain ⟨htarget, _, hnext⟩ := fits_and_next ht (iht ht) hfit
      exact .jump htarget (ihls hls hnext)
    | _ => exact absurd rfl hfit
  | cjump o l r t f iho ihl ihr iht ihf =>
    simp only [plain, Bool.and_eq_true] at hp
    obtain ⟨⟨⟨⟨ho, hl⟩, hr⟩, ht⟩, hf⟩ := hp
    cases v with
    | cjump rel left right ifTrue ifFalse =>
      obtain ⟨hrel, _, hnext⟩ := fits_and_next ho (iho ho) hfit
      obtain ⟨hleft, _, hnext⟩ := fits_and_next hl (ihl hl) hnext
      obtain ⟨hright, _, hnext⟩ := fits_and_next hr (ihr hr) hnext
      obtain ⟨htrue, _, hnext⟩ := fits_and_next ht (iht ht) hnext
      exact .cjump hrel hleft hright htrue (ihf hf hnext)
    | _ => exact absurd rfl hfit
  | const c ih =>
    cases v with
    | const value => exact .const (ih hp hfit)
    | _ => exact absurd rfl hfit
  | temp t ih =>
    cases v with
    | temp reg => exact .temp (ih hp hfit)
    | _ => exact absurd rfl hfit
  | bin o l r iho ihl ihr =>
    simp only [plain, Bool.and_eq_true] at hp
    obtain ⟨⟨ho, hl⟩, hr⟩ := hp
    cases v with
    | bin op left right =>
      obtain ⟨hop, _, hnext⟩ := fits_and_next ho (iho ho) hfit
      obtain ⟨hleft, _, hnext⟩ := fits_and_next hl (ihl hl) hnext
      exact .bin hop hleft (ihr hr hnext)
    | _ => exact absurd rfl hfit
  | mem a ih =>
    cases v with
    | mem addr => exact .mem (ih hp hfit)
    | _ => exact absurd rfl hfit
  | call f as ihf ihas =>
    obtain ⟨hf, has⟩ := Bool.and_eq_true_iff.mp hp
    cases v with
    | call func args =>
      obtain ⟨hfunc, _, hnext⟩ := fits_and_next hf (ihf hf) hfit
      exact .call hfunc (ihas has hnext)
    | _ => exact absurd rfl hfit
  | name l ih =>
    cases v with
    | name x => exact .name (ih hp hfit)
    | _ => exact absurd rfl hfit
  | eseq s e ihs ihe =>
    obtain ⟨hs, he⟩ := Bool.and_eq_true_iff.mp hp
    cases v with
    | eseq x y =>
      obtain ⟨hx, _, hnext⟩ := fits_and_next hs (ihs hs) hfit
      exact .eseq hx (ihe he hnext)
    | _ => exact absurd rfl hfit

/-- A pattern with plain literals fits a thing and captures what stands at its wildcards, or it does not fit. -/
theorem fit_eq {k : Kind} {p : Pattern k} (hp : p.plain = true) (v : k.Value) :
    p.Fits v ∧ p.fit v = .ok (Captures.bindAll [] (p.occurrences.filterMap (capture? ⟨k, v⟩))) ∨
    ¬ p.Fits v ∧ p.fit v = .error (.failed .misfit) := by
  by_cases hfits : p.Fits v
  · exact .inl ⟨hfits, hfits.adds hp []⟩
  · exact .inr ⟨hfits, Classical.byContradiction fun hfit => hfits (fits_of_fitFrom hp hfit)⟩

theorem exists_fit_iff {k : Kind} {p : Pattern k} (hp : p.plain = true) {v : k.Value} :
    (∃ cs, p.fit v = .ok cs) ↔ p.Fits v := by
  rcases fit_eq hp v with ⟨hfits, hfit⟩ | ⟨hfits, hfit⟩
  · exact iff_of_true ⟨_, hfit⟩ hfits
  · refine iff_of_false ?_ hfits
    rintro ⟨cs, hok⟩
    cases hfit.symm.trans hok

end Pattern

/-! ### What is captured -/

namespace Occurrence

/-- The wildcard does not occur again behind this place. -/
def IsLast (o : Occurrence) (os : List Occurrence) : Prop :=
  ∃ before after, os = before ++ o :: after ∧ ∀ o' ∈ after, o'.slot ≠ o.slot

theorem isLast_iff_mem {os : List Occurrence} (hos : (os.map (·.slot)).Nodup) {o : Occurrence} :
    o.IsLast os ↔ o ∈ os := by
  constructor
  · rintro ⟨before, after, rfl, -⟩
    exact List.mem_append_right _ List.mem_cons_self
  · intro ho
    obtain ⟨before, after, rfl⟩ := List.append_of_mem ho
    refine ⟨before, after, rfl, fun o' ho' heq => ?_⟩
    rw [List.map_append, List.map_cons, List.nodup_append, List.nodup_cons] at hos
    exact hos.2.1.1 (heq ▸ List.mem_map_of_mem ho')

end Occurrence

/-- The captures are what stands at the last occurrences of wildcards, and nothing else. -/
structure Captures.HoldLast (cs : Captures) (x : Part) (os : List Occurrence) : Prop where
  ordered : cs.Ordered
  mem_iff : ∀ c, c ∈ cs ↔
    ∃ o : Occurrence, o.IsLast os ∧ ∃ v, x.at? o.path = some ⟨o.kind, v⟩ ∧ c = ⟨o.slot, o.kind, v⟩

theorem Captures.holdLast {x : Part} {os : List Occurrence} (hos : ∀ o ∈ os, o.PlacedIn x) :
    (Captures.bindAll [] (os.filterMap (capture? x))).HoldLast x os where
  ordered := Captures.ordered_bindAll List.Pairwise.nil _
  mem_iff c := by
    have hcapture {o : Occurrence} {v : o.kind.Value} (hv : x.at? o.path = some ⟨o.kind, v⟩) :
        capture? x o = some ⟨o.slot, o.kind, v⟩ := by
      rw [capture?, hv]
      rfl
    rw [Captures.mem_bindAll List.Pairwise.nil]
    constructor
    · rintro (⟨before, after, hfound, hafter⟩ | ⟨hmem, -⟩)
      · obtain ⟨os₁, os₂, rfl, -, hrest⟩ := List.filterMap_eq_append_iff.mp hfound
        obtain ⟨skipped, o, os₃, rfl, -, ho, rfl⟩ := List.filterMap_eq_cons_iff.mp hrest
        obtain ⟨v, hv⟩ := hos o (by simp)
        obtain rfl : _ = c := Option.some.inj ((hcapture hv).symm.trans ho)
        refine ⟨o, ⟨os₁ ++ skipped, os₃, by rw [List.append_assoc], fun o' ho' => ?_⟩, v, hv, rfl⟩
        obtain ⟨v', hv'⟩ := hos o' (by simp [ho'])
        exact hafter _ (List.mem_filterMap.mpr ⟨o', ho', hcapture hv'⟩)
      · cases hmem
    · rintro ⟨o, ⟨before, after, rfl, hafter⟩, v, hv, rfl⟩
      refine .inl ⟨before.filterMap (capture? x), after.filterMap (capture? x), ?_, fun d hd => ?_⟩
      · rw [List.filterMap_append, List.filterMap_cons, hcapture hv]
      · obtain ⟨o', ho', hd⟩ := List.mem_filterMap.mp hd
        obtain ⟨v', hv'⟩ := hos o' (by simp [ho'])
        obtain rfl : _ = d := Option.some.inj ((hcapture hv').symm.trans hd)
        exact hafter o' ho'

/-! ### Filling a pattern again -/

/-- Something of each kind. -/
def Kind.blank : (k : Kind) → k.Value
  | .stm => Stm.hole
  | .exp => Exp.hole
  | .word => (0 : Word)
  | .temp => (⟨0⟩ : Temp)
  | .label => ([] : Label)
  | .labels => ([] : List Label)
  | .exps => ([] : List Exp)
  | .op => Op.plus
  | .rel => Rel.eq

/-- Wildcards are filled with what they captured, gaps with what stands at their places. -/
def Filling.ofMatch (cs : Captures) (x : Part) : Filling where
  wild k w := (cs.get? w).getD k.blank
  gap path k := ((x.at? path).bind (·.as? k)).getD k.blank

theorem Part.as?_self {k : Kind} (v : k.Value) : (Part.mk k v).as? k = some v := dif_pos rfl

/-- The captures of a match with a pattern in which no wildcard occurs twice: there is one for each wildcard, it is what
stands at the place of the wildcard, and together they make the thing out of the pattern. -/
structure Captures.Exact {k : Kind} (cs : Captures) (p : Pattern k) (v : k.Value) : Prop where
  ordered : cs.Ordered
  mem_iff : ∀ c, c ∈ cs ↔
    ∃ o ∈ p.occurrences, ∃ x, (Part.mk k v).at? o.path = some ⟨o.kind, x⟩ ∧ c = ⟨o.slot, o.kind, x⟩
  reads : ∀ o ∈ p.occurrences, ∃ x, (Part.mk k v).at? o.path = some ⟨o.kind, x⟩ ∧ cs.get? o.wildcard = some x
  refills : p.instantiate (.ofMatch cs ⟨k, v⟩) = v

theorem Captures.HoldLast.exact {k : Kind} {cs : Captures} {p : Pattern k} {v : k.Value}
    (h : cs.HoldLast ⟨k, v⟩ p.occurrences) (hp : p.Linear) (hfits : p.Fits v) : cs.Exact p v := by
  have hmem (c : Capture) : c ∈ cs ↔
      ∃ o ∈ p.occurrences, ∃ x, (Part.mk k v).at? o.path = some ⟨o.kind, x⟩ ∧ c = ⟨o.slot, o.kind, x⟩ := by
    simp only [h.mem_iff, Occurrence.isLast_iff_mem hp]
  have hreads (o : Occurrence) (ho : o ∈ p.occurrences) :
      ∃ x, (Part.mk k v).at? o.path = some ⟨o.kind, x⟩ ∧ cs.get? o.wildcard = some x := by
    obtain ⟨x, hx⟩ := hfits.placed o ho
    exact ⟨x, hx, (Captures.get?_eq_some_iff h.ordered).mpr ((hmem _).mpr ⟨o, ho, x, hx, rfl⟩)⟩
  refine ⟨h.ordered, hmem, hreads, hfits.instantiate_eq ⟨fun o ho => ?_, fun path j x hx => ?_⟩⟩
  · obtain ⟨x, hx, hget⟩ := hreads o ho
    simp only [hx, Filling.ofMatch, hget, Option.getD_some]
  · simp only [Filling.ofMatch, hx, Option.bind_some, Part.as?_self, Option.getD_some]

/-- Matching is sound, complete and exact. A pattern in which no wildcard occurs twice fits exactly its instances, and
then its captures are exact. Where wildcards occur again, matching succeeds as if they were different ones, and what is
bound is what stands at their last occurrences. A thing that does not fit is no fault. -/
theorem match_is_exact {k : Kind} (p : Pattern k) (hp : p.plain = true) (v : k.Value) :
    (p.Linear → ((∃ cs, p.fit v = .ok cs) ↔ ∃ f, p.instantiate f = v) ∧ ∀ cs, p.fit v = .ok cs → cs.Exact p v) ∧
    ((¬ ∃ cs, p.fit v = .ok cs) → p.fit v = .error (.failed .misfit)) ∧
    ((∃ cs, p.fit v = .ok cs) ↔ ∃ cs, (p.numberFrom 0).fit v = .ok cs) ∧
    (p.numberFrom 0).Linear ∧ (p.numberFrom 0).occurrences = Occurrence.numbered 0 p.occurrences ∧
    ∀ cs, p.fit v = .ok cs → cs.HoldLast ⟨k, v⟩ p.occurrences := by
  have hfit := Pattern.exists_fit_iff hp (v := v)
  have hnumber : (p.numberFrom 0).plain = true := (p.plain_numberFrom 0).trans hp
  have hcaptures (cs : Captures) (hcs : p.fit v = .ok cs) : p.Fits v ∧ cs.HoldLast ⟨k, v⟩ p.occurrences := by
    rcases Pattern.fit_eq hp v with ⟨hfits, heq⟩ | ⟨-, heq⟩
    · obtain rfl := Except.ok.inj (heq.symm.trans hcs)
      exact ⟨hfits, Captures.holdLast hfits.placed⟩
    · cases heq.symm.trans hcs
  refine ⟨fun hlinear => ⟨?_, fun cs hcs => ?_⟩, fun hnone => ?_, ?_, p.linear_numberFrom 0, p.occurrences_numberFrom 0,
    fun cs hcs => (hcaptures cs hcs).2⟩
  · constructor
    · rintro ⟨cs, hcs⟩
      obtain ⟨hfits, hlast⟩ := hcaptures cs hcs
      exact ⟨_, (hlast.exact hlinear hfits).refills⟩
    · rintro ⟨f, rfl⟩
      exact hfit.mpr (p.fits_instantiate f)
  · obtain ⟨hfits, hlast⟩ := hcaptures cs hcs
    exact hlast.exact hlinear hfits
  · rcases Pattern.fit_eq hp v with ⟨-, heq⟩ | ⟨-, heq⟩
    · exact absurd ⟨_, heq⟩ hnone
    · exact heq
  · rw [hfit, Pattern.exists_fit_iff hnumber, p.fits_numberFrom 0]

/-- A pattern with a gap and two wildcards on a store that it fits and on a sequence that it does not fit, and a pattern
with the same wildcard twice, which is bound to the second expression. -/
theorem storedSum_match_is_exact :
    let p : Pattern .stm := .move (.mem (.binary .plus (.wild ⟨5⟩) .any)) (.wild ⟨2⟩)
    let q : Pattern .stm := .seq (.exp (.wild ⟨1⟩)) (.exp (.wild ⟨1⟩))
    let store : Stm := .move (.mem (.bin .plus (.temp ⟨1⟩) (.const 4))) (.name "x")
    let seq : Stm := .seq (.exp (.const 1)) (.exp (.const 2))
    (p.plain = true ∧ p.Linear ∧ ∃ cs, p.fit store = .ok cs ∧ cs.Exact p store) ∧
    (¬ ∃ f, p.instantiate f = seq) ∧
    q.plain = true ∧ ¬ q.Linear ∧ (∃ cs, (q.numberFrom 0).fit seq = .ok cs) ∧
      ∃ cs, q.fit seq = .ok cs ∧ cs.HoldLast ⟨.stm, seq⟩ q.occurrences ∧
        cs.get? (⟨1⟩ : Wildcard .exp) = some (Exp.const 2) := by
  intro p q store seq
  have hp : p.Linear := by
    rw [Pattern.Linear]
    decide
  have hq : ¬ q.Linear := by
    rw [Pattern.Linear]
    decide
  have hseq : p.fit seq = .error (.failed .misfit) := rfl
  obtain ⟨-, -, hnumber, -, -, hlast⟩ := match_is_exact q rfl seq
  refine ⟨⟨rfl, hp, _, rfl, ((match_is_exact p rfl store).1 hp).2 _ rfl⟩, ?_, rfl, hq, hnumber.mp ⟨_, rfl⟩, _, rfl,
    hlast _ rfl, rfl⟩
  rw [← ((match_is_exact p rfl seq).1 hp).1, hseq]
  rintro ⟨cs, hcs⟩
  cases hcs

end Lowering
