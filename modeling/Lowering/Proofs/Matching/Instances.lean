import Lowering.Pattern.Basic

/-!
# Instances of a pattern

What a pattern describes, said without matching. A pattern has wildcards and gaps; filling each of them with a thing of
its kind yields an instance. Places in a thing are given by paths of part numbers, counted in the order in which parts
are matched, so that a wildcard of a pattern has a place in every instance. `Pattern.Fits` says that a thing is an
instance when wildcards are filled place by place, whatever their slots; numbering the wildcards of a pattern afresh
makes every such thing an instance in the plain sense.
-/

namespace Lowering

/-! ### Places -/

/-- A thing of some kind. -/
structure Part where
  kind : Kind
  value : kind.Value

/-- The parts of a statement. -/
def Stm.parts : Stm → List Part
  | .hole => []
  | .move dst src => [⟨.exp, dst⟩, ⟨.exp, src⟩]
  | .exp e => [⟨.exp, e⟩]
  | .label name => [⟨.label, name⟩]
  | .seq first second => [⟨.stm, first⟩, ⟨.stm, second⟩]
  | .jump target labels => [⟨.exp, target⟩, ⟨.labels, labels⟩]
  | .cjump rel left right ifTrue ifFalse =>
    [⟨.rel, rel⟩, ⟨.exp, left⟩, ⟨.exp, right⟩, ⟨.label, ifTrue⟩, ⟨.label, ifFalse⟩]

/-- The parts of an expression. -/
def Exp.parts : Exp → List Part
  | .hole => []
  | .const value => [⟨.word, value⟩]
  | .temp reg => [⟨.temp, reg⟩]
  | .bin op left right => [⟨.op, op⟩, ⟨.exp, left⟩, ⟨.exp, right⟩]
  | .mem addr => [⟨.exp, addr⟩]
  | .call func args => [⟨.exp, func⟩, ⟨.exps, args⟩]
  | .name label => [⟨.label, label⟩]
  | .eseq s e => [⟨.stm, s⟩, ⟨.exp, e⟩]

namespace Part

/-- The parts of a thing; only statements and expressions have any. -/
def parts : Part → List Part
  | ⟨.stm, s⟩ => s.parts
  | ⟨.exp, e⟩ => e.parts
  | _ => []

/-- What stands at a place. -/
def at? : List Nat → Part → Option Part
  | [], x => some x
  | i :: path, x => x.parts[i]?.bind (at? path)

/-- A thing as one of a given kind. -/
def as? (k : Kind) (x : Part) : Option k.Value := if h : x.kind = k then some (h ▸ x.value) else none

end Part

/-- A wildcard at its place in a pattern. -/
structure Occurrence where
  path : List Nat
  kind : Kind
  slot : Nat
  deriving DecidableEq

namespace Occurrence

/-- The wildcard that occurs. -/
def wildcard (o : Occurrence) : Wildcard o.kind := ⟨o.slot⟩

/-- Occurrences in part `i` of a thing, as occurrences in the thing. -/
def under (i : Nat) (os : List Occurrence) : List Occurrence := os.map fun o => { o with path := i :: o.path }

/-- What a wildcard captures of a thing. -/
def capture? (x : Part) (o : Occurrence) : Option Capture := (x.at? o.path).map fun y => ⟨o.slot, y.kind, y.value⟩

theorem filterMap_under {x y : Part} {i : Nat} (hpart : x.parts[i]? = some y) (os : List Occurrence) :
    (under i os).filterMap (capture? x) = os.filterMap (capture? y) := by
  have hcapture : (capture? x ∘ fun o : Occurrence => { o with path := i :: o.path }) = capture? y := by
    funext o
    rw [Function.comp_apply, capture?, Part.at?, hpart]
    rfl
  rw [under, List.filterMap_map, hcapture]

/-- Occurrences with slots counted from `n`. -/
def numbered (n : Nat) : List Occurrence → List Occurrence
  | [] => []
  | o :: os => { o with slot := n } :: numbered (n + 1) os

theorem numbered_append (n : Nat) (os os' : List Occurrence) :
    numbered n (os ++ os') = numbered n os ++ numbered (n + os.length) os' := by
  induction os generalizing n with
  | nil => rfl
  | cons o os ih => simp [numbered, ih, Nat.add_assoc, Nat.add_comm 1]

theorem under_numbered (i n : Nat) (os : List Occurrence) : under i (numbered n os) = numbered n (under i os) := by
  induction os generalizing n with
  | nil => rfl
  | cons o os ih => exact congrArg _ (ih (n + 1))

theorem length_under (i : Nat) (os : List Occurrence) : (under i os).length = os.length := List.length_map ..

theorem slots_numbered (n : Nat) (os : List Occurrence) :
    (numbered n os).map (·.slot) = List.range' n os.length := by
  induction os generalizing n with
  | nil => rfl
  | cons o os ih => simp [numbered, ih, List.range'_succ]

/-- Something of the kind of the wildcard stands at its place. -/
def PlacedIn (o : Occurrence) (x : Part) : Prop := ∃ v : o.kind.Value, x.at? o.path = some ⟨o.kind, v⟩

theorem placedIn_under {x y : Part} {i : Nat} (hpart : x.parts[i]? = some y) {os : List Occurrence}
    (hos : ∀ o ∈ os, o.PlacedIn y) : ∀ o ∈ under i os, o.PlacedIn x := by
  intro o ho
  obtain ⟨o', ho', rfl⟩ := List.mem_map.mp ho
  obtain ⟨v, hv⟩ := hos o' ho'
  exact ⟨v, by rwa [Part.at?, hpart]⟩

end Occurrence

/-- What to put for the wildcards of a pattern, and for its gaps by their places. -/
structure Filling where
  wild : (k : Kind) → Wildcard k → k.Value
  gap : List Nat → (k : Kind) → k.Value

/-- A filling of a thing, as one of its part `i`. -/
def Filling.under (i : Nat) (f : Filling) : Filling := { f with gap := fun path => f.gap (i :: path) }

namespace Filling

/-- The filling is what stands in a thing: at the places of gaps, and at those of wildcards that occur. -/
structure Agrees (f : Filling) (x : Part) (os : List Occurrence) : Prop where
  wild : ∀ o ∈ os, x.at? o.path = some ⟨o.kind, f.wild o.kind o.wildcard⟩
  gap : ∀ path k v, x.at? path = some ⟨k, v⟩ → f.gap path k = v

namespace Agrees

variable {f : Filling} {x y : Part} {os os' : List Occurrence} {i : Nat}

theorem left (h : f.Agrees x (os ++ os')) : f.Agrees x os := ⟨(List.forall_mem_append.mp h.wild).1, h.gap⟩

theorem right (h : f.Agrees x (os ++ os')) : f.Agrees x os' := ⟨(List.forall_mem_append.mp h.wild).2, h.gap⟩

theorem under (h : f.Agrees x (Occurrence.under i os)) (hpart : x.parts[i]? = some y) : (f.under i).Agrees y os where
  wild o ho := by
    have hplace := h.wild _ (List.mem_map_of_mem ho)
    rwa [Part.at?, hpart] at hplace
  gap path k v hv := h.gap (i :: path) k v (by rwa [Part.at?, hpart])

end Agrees

end Filling

/-- Is the kind that of words, registers, labels, operators or relations? -/
def Kind.isPlain : Kind → Bool
  | .word | .temp | .label | .op | .rel => true
  | _ => false

namespace Pattern

open Occurrence

/-! ### Wildcards and literals of a pattern -/

/-- The wildcards of a pattern at their places, in the order in which they are matched. -/
def occurrences : {k : Kind} → Pattern k → List Occurrence
  | _, .any => []
  | k, .wild w => [⟨[], k, w.slot⟩]
  | _, .lit _ => []
  | _, .move d s => under 0 d.occurrences ++ under 1 s.occurrences
  | _, .exp e => under 0 e.occurrences
  | _, .label l => under 0 l.occurrences
  | _, .seq a b => under 0 a.occurrences ++ under 1 b.occurrences
  | _, .jump t ls => under 0 t.occurrences ++ under 1 ls.occurrences
  | _, .cjump o l r t f =>
    under 0 o.occurrences ++ (under 1 l.occurrences ++ (under 2 r.occurrences ++ (under 3 t.occurrences ++
      under 4 f.occurrences)))
  | _, .const v => under 0 v.occurrences
  | _, .temp t => under 0 t.occurrences
  | _, .bin o l r => under 0 o.occurrences ++ (under 1 l.occurrences ++ under 2 r.occurrences)
  | _, .mem a => under 0 a.occurrences
  | _, .call f as => under 0 f.occurrences ++ under 1 as.occurrences
  | _, .name l => under 0 l.occurrences
  | _, .eseq s e => under 0 s.occurrences ++ under 1 e.occurrences

/-- Does every wildcard occur at most once? Wildcards are told apart by their slots. -/
def Linear {k : Kind} (p : Pattern k) : Prop := (p.occurrences.map (·.slot)).Nodup

/-- Are all literals of a plain kind? -/
def plain : {k : Kind} → Pattern k → Bool
  | _, .any => true
  | _, .wild _ => true
  | k, .lit _ => k.isPlain
  | _, .move d s => d.plain && s.plain
  | _, .exp e => e.plain
  | _, .label l => l.plain
  | _, .seq a b => a.plain && b.plain
  | _, .jump t ls => t.plain && ls.plain
  | _, .cjump o l r t f => o.plain && l.plain && r.plain && t.plain && f.plain
  | _, .const v => v.plain
  | _, .temp t => t.plain
  | _, .bin o l r => o.plain && l.plain && r.plain
  | _, .mem a => a.plain
  | _, .call f as => f.plain && as.plain
  | _, .name l => l.plain
  | _, .eseq s e => s.plain && e.plain

/-- The pattern with different wildcards, numbered from `n` in the order in which they are matched. -/
def numberFrom : {k : Kind} → Pattern k → (n : Nat) → Pattern k
  | _, .any, _ => .any
  | _, .wild _, n => .wild ⟨n⟩
  | _, .lit v, _ => .lit v
  | _, .move d s, n => .move (d.numberFrom n) (s.numberFrom (n + d.occurrences.length))
  | _, .exp e, n => .exp (e.numberFrom n)
  | _, .label l, n => .label (l.numberFrom n)
  | _, .seq a b, n => .seq (a.numberFrom n) (b.numberFrom (n + a.occurrences.length))
  | _, .jump t ls, n => .jump (t.numberFrom n) (ls.numberFrom (n + t.occurrences.length))
  | _, .cjump o l r t f, n =>
    let n₁ := n + o.occurrences.length
    let n₂ := n₁ + l.occurrences.length
    let n₃ := n₂ + r.occurrences.length
    .cjump (o.numberFrom n) (l.numberFrom n₁) (r.numberFrom n₂) (t.numberFrom n₃)
      (f.numberFrom (n₃ + t.occurrences.length))
  | _, .const v, n => .const (v.numberFrom n)
  | _, .temp t, n => .temp (t.numberFrom n)
  | _, .bin o l r, n =>
    let n₁ := n + o.occurrences.length
    .bin (o.numberFrom n) (l.numberFrom n₁) (r.numberFrom (n₁ + l.occurrences.length))
  | _, .mem a, n => .mem (a.numberFrom n)
  | _, .call f as, n => .call (f.numberFrom n) (as.numberFrom (n + f.occurrences.length))
  | _, .name l, n => .name (l.numberFrom n)
  | _, .eseq s e, n => .eseq (s.numberFrom n) (e.numberFrom (n + s.occurrences.length))

/-! ### Instances -/

/-- The pattern with its wildcards and gaps filled. -/
def instantiate : {k : Kind} → Pattern k → Filling → k.Value
  | k, .any, f => f.gap [] k
  | k, .wild w, f => f.wild k w
  | _, .lit v, _ => v
  | _, .move d s, f => Stm.move (d.instantiate (f.under 0)) (s.instantiate (f.under 1))
  | _, .exp e, f => Stm.exp (e.instantiate (f.under 0))
  | _, .label l, f => Stm.label (l.instantiate (f.under 0))
  | _, .seq a b, f => Stm.seq (a.instantiate (f.under 0)) (b.instantiate (f.under 1))
  | _, .jump t ls, f => Stm.jump (t.instantiate (f.under 0)) (ls.instantiate (f.under 1))
  | _, .cjump o l r t u, f =>
    Stm.cjump (o.instantiate (f.under 0)) (l.instantiate (f.under 1)) (r.instantiate (f.under 2))
      (t.instantiate (f.under 3)) (u.instantiate (f.under 4))
  | _, .const v, f => Exp.const (v.instantiate (f.under 0))
  | _, .temp t, f => Exp.temp (t.instantiate (f.under 0))
  | _, .bin o l r, f => Exp.bin (o.instantiate (f.under 0)) (l.instantiate (f.under 1)) (r.instantiate (f.under 2))
  | _, .mem a, f => Exp.mem (a.instantiate (f.under 0))
  | _, .call g as, f => Exp.call (g.instantiate (f.under 0)) (as.instantiate (f.under 1))
  | _, .name l, f => Exp.name (l.instantiate (f.under 0))
  | _, .eseq s e, f => Exp.eseq (s.instantiate (f.under 0)) (e.instantiate (f.under 1))

/-- The thing is what the pattern says, with anything at all where the pattern has wildcards and gaps. -/
inductive Fits : {k : Kind} → Pattern k → k.Value → Prop where
  | any {k : Kind} (v : k.Value) : Fits .any v
  | wild {k : Kind} (w : Wildcard k) (v : k.Value) : Fits (.wild w) v
  | lit {k : Kind} (v : k.Value) : Fits (.lit v) v
  | move {d s : Pattern .exp} {dst src : Exp} (hdst : Fits d dst) (hsrc : Fits s src) :
    Fits (.move d s) (Stm.move dst src)
  | exp {p : Pattern .exp} {e : Exp} (he : Fits p e) : Fits (.exp p) (Stm.exp e)
  | label {p : Pattern .label} {l : Label} (hl : Fits p l) : Fits (.label p) (Stm.label l)
  | seq {a b : Pattern .stm} {first second : Stm} (hfirst : Fits a first) (hsecond : Fits b second) :
    Fits (.seq a b) (Stm.seq first second)
  | jump {t : Pattern .exp} {ls : Pattern .labels} {target : Exp} {labels : List Label} (htarget : Fits t target)
    (hlabels : Fits ls labels) : Fits (.jump t ls) (Stm.jump target labels)
  | cjump {o : Pattern .rel} {l r : Pattern .exp} {t f : Pattern .label} {rel : Rel} {left right : Exp}
    {ifTrue ifFalse : Label} (hrel : Fits o rel) (hleft : Fits l left) (hright : Fits r right) (htrue : Fits t ifTrue)
    (hfalse : Fits f ifFalse) : Fits (.cjump o l r t f) (Stm.cjump rel left right ifTrue ifFalse)
  | const {p : Pattern .word} {value : Word} (hvalue : Fits p value) : Fits (.const p) (Exp.const value)
  | temp {p : Pattern .temp} {reg : Temp} (hreg : Fits p reg) : Fits (.temp p) (Exp.temp reg)
  | bin {o : Pattern .op} {l r : Pattern .exp} {op : Op} {left right : Exp} (hop : Fits o op) (hleft : Fits l left)
    (hright : Fits r right) : Fits (.bin o l r) (Exp.bin op left right)
  | mem {p : Pattern .exp} {addr : Exp} (haddr : Fits p addr) : Fits (.mem p) (Exp.mem addr)
  | call {f : Pattern .exp} {as : Pattern .exps} {func : Exp} {args : List Exp} (hfunc : Fits f func)
    (hargs : Fits as args) : Fits (.call f as) (Exp.call func args)
  | name {p : Pattern .label} {l : Label} (hl : Fits p l) : Fits (.name p) (Exp.name l)
  | eseq {p : Pattern .stm} {q : Pattern .exp} {s : Stm} {e : Exp} (hs : Fits p s) (he : Fits q e) :
    Fits (.eseq p q) (Exp.eseq s e)

theorem fits_instantiate {k : Kind} (p : Pattern k) (f : Filling) : p.Fits (p.instantiate f) := by
  induction p generalizing f with
  | any => exact .any _
  | wild w => exact .wild w _
  | lit v => exact .lit v
  | move d s ihd ihs => exact .move (ihd _) (ihs _)
  | exp e ih => exact .exp (ih _)
  | label l ih => exact .label (ih _)
  | seq a b iha ihb => exact .seq (iha _) (ihb _)
  | jump t ls iht ihls => exact .jump (iht _) (ihls _)
  | cjump o l r t u iho ihl ihr iht ihu => exact .cjump (iho _) (ihl _) (ihr _) (iht _) (ihu _)
  | const v ih => exact .const (ih _)
  | temp t ih => exact .temp (ih _)
  | bin o l r iho ihl ihr => exact .bin (iho _) (ihl _) (ihr _)
  | mem a ih => exact .mem (ih _)
  | call g as ihg ihas => exact .call (ihg _) (ihas _)
  | name l ih => exact .name (ih _)
  | eseq s e ihs ihe => exact .eseq (ihs _) (ihe _)

theorem Fits.placed {k : Kind} {p : Pattern k} {v : k.Value} (h : p.Fits v) :
    ∀ o ∈ p.occurrences, o.PlacedIn ⟨k, v⟩ := by
  induction h with
  | any v => exact List.forall_mem_nil _
  | wild w v => exact List.forall_mem_singleton.mpr ⟨v, rfl⟩
  | lit v => exact List.forall_mem_nil _
  | move _ _ ihdst ihsrc => exact List.forall_mem_append.mpr ⟨placedIn_under rfl ihdst, placedIn_under rfl ihsrc⟩
  | exp _ ih => exact placedIn_under rfl ih
  | label _ ih => exact placedIn_under rfl ih
  | seq _ _ ihfirst ihsecond =>
    exact List.forall_mem_append.mpr ⟨placedIn_under rfl ihfirst, placedIn_under rfl ihsecond⟩
  | jump _ _ ihtarget ihlabels =>
    exact List.forall_mem_append.mpr ⟨placedIn_under rfl ihtarget, placedIn_under rfl ihlabels⟩
  | cjump _ _ _ _ _ ihrel ihleft ihright ihtrue ihfalse =>
    simp only [occurrences, List.forall_mem_append]
    exact ⟨placedIn_under rfl ihrel, placedIn_under rfl ihleft, placedIn_under rfl ihright, placedIn_under rfl ihtrue,
      placedIn_under rfl ihfalse⟩
  | const _ ih => exact placedIn_under rfl ih
  | temp _ ih => exact placedIn_under rfl ih
  | bin _ _ _ ihop ihleft ihright =>
    simp only [occurrences, List.forall_mem_append]
    exact ⟨placedIn_under rfl ihop, placedIn_under rfl ihleft, placedIn_under rfl ihright⟩
  | mem _ ih => exact placedIn_under rfl ih
  | call _ _ ihfunc ihargs => exact List.forall_mem_append.mpr ⟨placedIn_under rfl ihfunc, placedIn_under rfl ihargs⟩
  | name _ ih => exact placedIn_under rfl ih
  | eseq _ _ ihs ihe => exact List.forall_mem_append.mpr ⟨placedIn_under rfl ihs, placedIn_under rfl ihe⟩

/-- What fits a pattern is the pattern filled with what stands in it. -/
theorem Fits.instantiate_eq {k : Kind} {p : Pattern k} {v : k.Value} (h : p.Fits v) {f : Filling}
    (hf : f.Agrees ⟨k, v⟩ p.occurrences) : p.instantiate f = v := by
  induction h generalizing f with
  | any v => exact hf.gap [] _ v rfl
  | wild w v =>
    have hplace : some (Part.mk _ v) = some ⟨_, f.wild _ w⟩ := hf.wild _ (List.mem_singleton_self _)
    cases hplace
    rfl
  | lit v => rfl
  | move _ _ ihdst ihsrc => rw [instantiate, ihdst (hf.left.under rfl), ihsrc (hf.right.under rfl)]
  | exp _ ih => rw [instantiate, ih (hf.under rfl)]
  | label _ ih => rw [instantiate, ih (hf.under rfl)]
  | seq _ _ ihfirst ihsecond => rw [instantiate, ihfirst (hf.left.under rfl), ihsecond (hf.right.under rfl)]
  | jump _ _ ihtarget ihlabels => rw [instantiate, ihtarget (hf.left.under rfl), ihlabels (hf.right.under rfl)]
  | cjump _ _ _ _ _ ihrel ihleft ihright ihtrue ihfalse =>
    rw [instantiate, ihrel (hf.left.under rfl), ihleft (hf.right.left.under rfl),
      ihright (hf.right.right.left.under rfl), ihtrue (hf.right.right.right.left.under rfl),
      ihfalse (hf.right.right.right.right.under rfl)]
  | const _ ih => rw [instantiate, ih (hf.under rfl)]
  | temp _ ih => rw [instantiate, ih (hf.under rfl)]
  | bin _ _ _ ihop ihleft ihright =>
    rw [instantiate, ihop (hf.left.under rfl), ihleft (hf.right.left.under rfl), ihright (hf.right.right.under rfl)]
  | mem _ ih => rw [instantiate, ih (hf.under rfl)]
  | call _ _ ihfunc ihargs => rw [instantiate, ihfunc (hf.left.under rfl), ihargs (hf.right.under rfl)]
  | name _ ih => rw [instantiate, ih (hf.under rfl)]
  | eseq _ _ ihs ihe => rw [instantiate, ihs (hf.left.under rfl), ihe (hf.right.under rfl)]

/-! ### Different wildcards -/

theorem plain_numberFrom {k : Kind} (p : Pattern k) (n : Nat) : (p.numberFrom n).plain = p.plain := by
  induction p generalizing n with
  | any | wild w | lit v => rfl
  | _ => simp_all [numberFrom, plain]

/-- Numbering the wildcards leaves their places alone. -/
theorem occurrences_numberFrom {k : Kind} (p : Pattern k) (n : Nat) :
    (p.numberFrom n).occurrences = numbered n p.occurrences := by
  induction p generalizing n with
  | any | wild w | lit v => rfl
  | _ => simp_all [numberFrom, occurrences, numbered_append, under_numbered, length_under, Nat.add_assoc]

theorem linear_numberFrom {k : Kind} (p : Pattern k) (n : Nat) : (p.numberFrom n).Linear := by
  rw [Linear, occurrences_numberFrom, slots_numbered]
  exact List.nodup_range'

theorem fits_numberFrom {k : Kind} (p : Pattern k) (n : Nat) (v : k.Value) : (p.numberFrom n).Fits v ↔ p.Fits v := by
  induction p generalizing n with
  | any => rfl
  | wild w => exact iff_of_true (.wild _ v) (.wild w v)
  | lit v => rfl
  | _ =>
    rw [numberFrom]
    constructor <;> intro h <;> cases h <;> constructor <;> simp_all

end Pattern

end Lowering
