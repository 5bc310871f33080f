import Lowering.Proofs.Matching.Exactness
import Lowering.Proofs.Tiling.Refusals

/-!
# The largest rule is chosen

A rule set tries its rules in order. Two checks on its patterns say that the order is right. If a rule stands before a
larger one, nothing may fit both of them; then the rule that is chosen is as large as any rule that fits. And a rule
must have an instance that no rule before it fits; then no rule is dead. Both are checks on pairs of patterns, so they
can be carried out.
-/

namespace Lowering

namespace Pattern

/-! ### Sizes -/

/-- The number of nodes of a pattern. -/
def size : {k : Kind} → Pattern k → Nat
  | _, .any => 0
  | _, .wild _ => 0
  | _, .lit _ => 0
  | _, .move d s => d.size + s.size + 1
  | _, .exp e => e.size + 1
  | _, .label l => l.size + 1
  | _, .seq a b => a.size + b.size + 1
  | _, .jump t ls => t.size + ls.size + 1
  | _, .cjump o l r t f => o.size + l.size + r.size + t.size + f.size + 1
  | _, .const v => v.size + 1
  | _, .temp t => t.size + 1
  | _, .bin o l r => o.size + l.size + r.size + 1
  | _, .mem a => a.size + 1
  | _, .call f as => f.size + as.size + 1
  | _, .name l => l.size + 1
  | _, .eseq s e => s.size + e.size + 1

/-! ### Overlaps -/

instance decEqValue : (k : Kind) → DecidableEq k.Value
  | .stm => inferInstanceAs (DecidableEq Stm)
  | .exp => inferInstanceAs (DecidableEq Exp)
  | .word => inferInstanceAs (DecidableEq Word)
  | .temp => inferInstanceAs (DecidableEq Temp)
  | .label => inferInstanceAs (DecidableEq Label)
  | .labels => inferInstanceAs (DecidableEq (List Label))
  | .exps => inferInstanceAs (DecidableEq (List Exp))
  | .op => inferInstanceAs (DecidableEq Op)
  | .rel => inferInstanceAs (DecidableEq Rel)

/-- Is the pattern a wildcard, a gap or a literal? -/
def isLeaf : {k : Kind} → Pattern k → Bool
  | _, .any => true
  | _, .wild _ => true
  | _, .lit _ => true
  | _, _ => false

/-- May something fit both patterns? -/
def overlaps : {k : Kind} → Pattern k → Pattern k → Bool
  | _, .any, _ => true
  | _, .wild _, _ => true
  | k, .lit v, q =>
    match q with
    | .lit w => @decide (v = w) (decEqValue k v w)
    | _ => true
  | _, .move d s, q =>
    match q with
    | .move d' s' => d.overlaps d' && s.overlaps s'
    | q => q.isLeaf
  | _, .exp e, q =>
    match q with
    | .exp e' => e.overlaps e'
    | q => q.isLeaf
  | _, .label l, q =>
    match q with
    | .label l' => l.overlaps l'
    | q => q.isLeaf
  | _, .seq a b, q =>
    match q with
    | .seq a' b' => a.overlaps a' && b.overlaps b'
    | q => q.isLeaf
  | _, .jump t ls, q =>
    match q with
    | .jump t' ls' => t.overlaps t' && ls.overlaps ls'
    | q => q.isLeaf
  | _, .cjump o l r t f, q =>
    match q with
    | .cjump o' l' r' t' f' =>
      o.overlaps o' && l.overlaps l' && r.overlaps r' && t.overlaps t' && f.overlaps f'
    | q => q.isLeaf
  | _, .const v, q =>
    match q with
    | .const v' => v.overlaps v'
    | q => q.isLeaf
  | _, .temp t, q =>
    match q with
    | .temp t' => t.overlaps t'
    | q => q.isLeaf
  | _, .bin o l r, q =>
    match q with
    | .bin o' l' r' => o.overlaps o' && l.overlaps l' && r.overlaps r'
    | q => q.isLeaf
  | _, .mem a, q =>
    match q with
    | .mem a' => a.overlaps a'
    | q => q.isLeaf
  | _, .call f as, q =>
    match q with
    | .call f' as' => f.overlaps f' && as.overlaps as'
    | q => q.isLeaf
  | _, .name l, q =>
    match q with
    | .name l' => l.overlaps l'
    | q => q.isLeaf
  | _, .eseq s e, q =>
    match q with
    | .eseq s' e' => s.overlaps s' && e.overlaps e'
    | q => q.isLeaf

theorem Fits.overlaps {k : Kind} {p q : Pattern k} {v : k.Value} (hp : p.Fits v) (hq : q.Fits v) :
    p.overlaps q = true := by
  induction hp with
  | any v => rfl
  | wild w v => rfl
  | lit v =>
    cases hq with
    | lit => exact decide_eq_true rfl
    | _ => rfl
  | move _ _ ihdst ihsrc =>
    cases hq with
    | move hdst hsrc => simp [Pattern.overlaps, ihdst hdst, ihsrc hsrc]
    | _ => rfl
  | exp _ ih =>
    cases hq with
    | exp he => exact ih he
    | _ => rfl
  | label _ ih =>
    cases hq with
    | label hl => exact ih hl
    | _ => rfl
  | seq _ _ ihfirst ihsecond =>
    cases hq with
    | seq hfirst hsecond => simp [Pattern.overlaps, ihfirst hfirst, ihsecond hsecond]
    | _ => rfl
  | jump _ _ ihtarget ihlabels =>
    cases hq with
    | jump htarget hlabels => simp [Pattern.overlaps, ihtarget htarget, ihlabels hlabels]
    | _ => rfl
  | cjump _ _ _ _ _ ihrel ihleft ihright ihtrue ihfalse =>
    cases hq with
    | cjump hrel hleft hright htrue hfalse =>
      simp [Pattern.overlaps, ihrel hrel, ihleft hleft, ihright hright, ihtrue htrue, ihfalse hfalse]
    | _ => rfl
  | const _ ih =>
    cases hq with
    | const hvalue => exact ih hvalue
    | _ => rfl
  | temp _ ih =>
    cases hq with
    | temp hreg => exact ih hreg
    | _ => rfl
  | bin _ _ _ ihop ihleft ihright =>
    cases hq with
    | bin hop hleft hright => simp [Pattern.overlaps, ihop hop, ihleft hleft, ihright hright]
    | _ => rfl
  | mem _ ih =>
    cases hq with
    | mem haddr => exact ih haddr
    | _ => rfl
  | call _ _ ihfunc ihargs =>
    cases hq with
    | call hfunc hargs => simp [Pattern.overlaps, ihfunc hfunc, ihargs hargs]
    | _ => rfl
  | name _ ih =>
    cases hq with
    | name hl => exact ih hl
    | _ => rfl
  | eseq _ _ ihs ihe =>
    cases hq with
    | eseq hs he => simp [Pattern.overlaps, ihs hs, ihe he]
    | _ => rfl

/-! ### Samples -/

/-- An ordinary thing of each kind. -/
def sampleValue : (k : Kind) → k.Value
  | .stm => Stm.label "L"
  | .exp => Exp.temp ⟨1⟩
  | .word => (1 : Word)
  | .temp => (⟨1⟩ : Temp)
  | .label => Text.ofString "L"
  | .labels => [Text.ofString "L"]
  | .exps => ([] : List Exp)
  | .op => Op.plus
  | .rel => Rel.eq

/-- An instance of a pattern: ordinary things stand for its wildcards and gaps. -/
def sample {k : Kind} (p : Pattern k) : k.Value := p.instantiate ⟨fun k _ => sampleValue k, fun _ k => sampleValue k⟩

end Pattern

/-! ### Rule sets -/

section Rules

variable {k : Kind} {α : Type} {v : k.Value} {rule : Rule k α} {rules before after : List (Rule k α)}

/-- The rule that is chosen fits, and no rule before it does. -/
theorem fits_of_firstFit (hplain : ∀ r ∈ rules, r.pattern.plain = true) {cs : Captures}
    (h : RuleSet.firstFit v rules = .ok (rule, cs)) :
    ∃ before after, rules = before ++ rule :: after ∧ rule.pattern.Fits v ∧ ∀ r ∈ before, ¬ r.pattern.Fits v := by
  induction rules with
  | nil => cases h
  | cons r rest ih =>
    obtain ⟨hr, hrest⟩ := List.forall_mem_cons.mp hplain
    rcases Pattern.fit_eq hr v with ⟨hfits, hfit⟩ | ⟨hfits, hfit⟩
    · rw [X86.firstFit_ok hfit] at h
      cases h
      exact ⟨[], rest, rfl, hfits, List.forall_mem_nil _⟩
    · rw [X86.firstFit_misfit hfit] at h
      obtain ⟨before, after, rfl, hrule, hbefore⟩ := ih hrest h
      exact ⟨r :: before, after, rfl, hrule, List.forall_mem_cons.mpr ⟨hfits, hbefore⟩⟩

/-- A rule that fits is chosen if no rule before it fits. -/
theorem firstFit_of_fits (hplain : ∀ r ∈ before ++ rule :: after, r.pattern.plain = true) (hrule : rule.pattern.Fits v)
    (hbefore : ∀ r ∈ before, ¬ r.pattern.Fits v) :
    ∃ cs, RuleSet.firstFit v (before ++ rule :: after) = .ok (rule, cs) := by
  induction before with
  | nil =>
    obtain ⟨cs, hfit⟩ := (Pattern.exists_fit_iff (hplain rule (by simp))).mpr hrule
    exact ⟨cs, X86.firstFit_ok hfit⟩
  | cons r before ih =>
    obtain ⟨hr, hbefore⟩ := List.forall_mem_cons.mp hbefore
    obtain ⟨hrplain, hplain⟩ := List.forall_mem_cons.mp hplain
    rcases Pattern.fit_eq hrplain v with ⟨hfits, -⟩ | ⟨-, hfit⟩
    · exact absurd hfits hr
    · obtain ⟨cs, hcs⟩ := ih hplain hbefore
      exact ⟨cs, (X86.firstFit_misfit hfit).trans hcs⟩

end Rules

namespace RuleSet

variable {k : Kind} {α : Type}

/-- The patterns of a rule set, in order. -/
def patterns (set : RuleSet k α) : List (Pattern k) := set.rules.map (·.pattern)

/-- The checks on the order of a rule set. -/
structure WellOrdered (set : RuleSet k α) : Prop where
  plain : ∀ p ∈ set.patterns, p.plain = true
  /-- Nothing fits both a rule and a larger one behind it. -/
  largestFirst : set.patterns.Pairwise fun p q => q.size ≤ p.size ∨ p.overlaps q = false
  /-- No rule fits the sample of a rule behind it. -/
  alive : set.patterns.Pairwise fun p q => (p.fit q.sample).isOk = false

namespace WellOrdered

variable {set : RuleSet k α} {rule : Rule k α}

theorem plain_of_mem (h : set.WellOrdered) : ∀ r ∈ set.rules, r.pattern.plain = true :=
  fun _ hr => h.plain _ (List.mem_map_of_mem hr)

/-- The rule that is chosen is as large as any rule that fits. -/
theorem size_le (h : set.WellOrdered) {v : k.Value} {cs : Captures} (hselect : set.select v = .ok (rule, cs))
    {other : Rule k α} (hother : other ∈ set.rules) (hfit : ∃ cs', other.pattern.fit v = .ok cs') :
    other.pattern.size ≤ rule.pattern.size := by
  have hfits := (Pattern.exists_fit_iff (h.plain_of_mem other hother)).mp hfit
  obtain ⟨before, after, hrules, hrule, hbefore⟩ := fits_of_firstFit h.plain_of_mem hselect
  have horder := h.largestFirst
  rw [patterns, hrules, List.pairwise_map, List.pairwise_append, List.pairwise_cons] at horder
  rw [hrules, List.mem_append, List.mem_cons] at hother
  obtain hother | rfl | hother := hother
  · exact absurd hfits (hbefore other hother)
  · exact Nat.le_refl _
  · obtain hsize | hapart := horder.2.1.1 other hother
    · exact hsize
    · exact absurd (hrule.overlaps hfits) (Bool.eq_false_iff.mp hapart)

/-- Every rule is chosen for its sample, which fits no rule before it. -/
theorem select_sample (h : set.WellOrdered) {before after : List (Rule k α)}
    (hrules : set.rules = before ++ rule :: after) :
    (∃ cs, set.select rule.pattern.sample = .ok (rule, cs)) ∧
      ∀ other ∈ before, ¬ ∃ cs', other.pattern.fit rule.pattern.sample = .ok cs' := by
  have hplain := h.plain_of_mem
  have halive := h.alive
  rw [patterns, hrules, List.pairwise_map, List.pairwise_append] at halive
  rw [hrules] at hplain
  have hbefore : ∀ other ∈ before, ¬ ∃ cs', other.pattern.fit rule.pattern.sample = .ok cs' := by
    rintro other hother ⟨cs', hfit⟩
    have hfails := halive.2.2 other hother rule List.mem_cons_self
    rw [hfit] at hfails
    cases hfails
  refine ⟨?_, hbefore⟩
  rw [select, hrules]
  refine firstFit_of_fits hplain (rule.pattern.fits_instantiate _) fun other hother hfits => ?_
  exact hbefore other hother ((Pattern.exists_fit_iff (hplain other (List.mem_append_left _ hother))).mpr hfits)

end WellOrdered

end RuleSet

/-! ### The rules of the target -/

namespace X86

theorem stmRules_wellOrdered : stmRules.WellOrdered where
  plain := by decide
  largestFirst := by decide
  alive := by decide

theorem expRules_wellOrdered : expRules.WellOrdered where
  plain := by decide
  largestFirst := by decide
  alive := by decide

theorem whole_stmSamples : ∀ p ∈ stmRules.patterns, Stm.whole p.sample = true := by decide

theorem whole_expSamples : ∀ p ∈ expRules.patterns, Exp.whole p.sample = true := by decide

end X86

/-- The order of the rules is maximal munch. The rule that is chosen for a tree is as large as any rule of the set that
fits the tree, and every rule is chosen for a tree without holes that fits none of the rules before it. -/
theorem chosen_rule_is_largest :
    ((∀ (s : Stm) (rule : Rule .stm Unit) (cs : Captures), X86.rules.stm.select s = .ok (rule, cs) →
        ∀ other ∈ X86.rules.stm.rules, (∃ cs', other.pattern.fit s = .ok cs') →
          other.pattern.size ≤ rule.pattern.size) ∧
      ∀ before rule after, X86.rules.stm.rules = before ++ rule :: after →
        ∃ (s : Stm) (cs : Captures), s.whole = true ∧ X86.rules.stm.select s = .ok (rule, cs) ∧
          ∀ other ∈ before, ¬ ∃ cs', other.pattern.fit s = .ok cs') ∧
    (∀ (e : Exp) (rule : Rule .exp Temp) (cs : Captures), X86.rules.exp.select e = .ok (rule, cs) →
        ∀ other ∈ X86.rules.exp.rules, (∃ cs', other.pattern.fit e = .ok cs') →
          other.pattern.size ≤ rule.pattern.size) ∧
      ∀ before rule after, X86.rules.exp.rules = before ++ rule :: after →
        ∃ (e : Exp) (cs : Captures), e.whole = true ∧ X86.rules.exp.select e = .ok (rule, cs) ∧
          ∀ other ∈ before, ¬ ∃ cs', other.pattern.fit e = .ok cs' := by
  have hstm : X86.rules.stm.WellOrdered := X86.stmRules_wellOrdered
  have hexp : X86.rules.exp.WellOrdered := X86.expRules_wellOrdered
  refine ⟨⟨fun s rule cs => hstm.size_le, fun before rule after hrules => ?_⟩, fun e rule cs => hexp.size_le,
    fun before rule after hrules => ?_⟩
  · have hmem : rule ∈ X86.rules.stm.rules := hrules ▸ List.mem_append_right _ List.mem_cons_self
    obtain ⟨⟨cs, hselect⟩, hbefore⟩ := hstm.select_sample hrules
    exact ⟨_, cs, X86.whole_stmSamples _ (List.mem_map_of_mem hmem), hselect, hbefore⟩
  · have hmem : rule ∈ X86.rules.exp.rules := hrules ▸ List.mem_append_right _ List.mem_cons_self
    obtain ⟨⟨cs, hselect⟩, hbefore⟩ := hexp.select_sample hrules
    exact ⟨_, cs, X86.whole_expSamples _ (List.mem_map_of_mem hmem), hselect, hbefore⟩

/-- Four rules fit a store of a constant to a sum, and the one with five nodes is chosen. The last rule for expressions
is chosen for some call, although it stands behind all others. -/
theorem storedConstant_takes_largest_rule :
    let s : Stm := .move (.mem (.bin .plus (.temp ⟨1⟩) (.const 4))) (.const 7)
    let fitting := X86.rules.stm.rules.filter fun r => (r.pattern.fit s).isOk
    fitting.map (·.name) = ["store [e+i], j", "store [e+i], f", "store [e], j", "store [e], f"].map Text.ofString ∧
    fitting.map (·.pattern.size) = [5, 4, 3, 2] ∧
    (∃ rule cs, X86.rules.stm.select s = .ok (rule, cs) ∧ rule.pattern.size = 5 ∧
      ∀ other ∈ X86.rules.stm.rules, (∃ cs', other.pattern.fit s = .ok cs') → other.pattern.size ≤ 5) ∧
    ∃ before rule, X86.rules.exp.rules = before ++ [rule] ∧ rule.name = Text.ofString "call f" ∧ before.length = 34 ∧
      ∃ e cs, X86.rules.exp.select e = .ok (rule, cs) := by
  intro s fitting
  refine ⟨rfl, rfl, ⟨_, _, rfl, rfl, chosen_rule_is_largest.1.1 s _ _ rfl⟩, ?_⟩
  have hrules : X86.rules.exp.rules =
      X86.rules.exp.rules.take 34 ++ X86.rules.exp.rules.get ⟨34, by decide⟩ :: [] := rfl
  obtain ⟨e, cs, -, hselect, -⟩ := chosen_rule_is_largest.2.2 _ _ _ hrules
  exact ⟨_, _, hrules, rfl, rfl, e, cs, hselect⟩

end Lowering
