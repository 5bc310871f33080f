import Lowering.Proofs.Ending
import Lowering.Proofs.Log.Journal
import Lowering.Proofs.Program.Bodies
import Mathlib.Data.List.Basic

/-!
# Sequences

A sequence is a binary node, and statements can be put into one in many ways. Lowering cannot tell them apart: all that
matters is the list of statements that a sequence comes down to. The rule of a sequence lowers its two sides one after
the other and emits nothing itself, so lowering a statement agrees with lowering its list from left to right, and a
statement in the middle that is refused, or missing, stops both at the same point.
-/

namespace Lowering

namespace Stm

/-- The statements that a sequence comes down to, from left to right. -/
def flat : Stm → List Stm
  | .seq first second => first.flat ++ second.flat
  | s => [s]

/-- A statement that comes down to a missing one is missing. -/
theorem eq_hole_of_flat {s : Stm} (h : s.flat = [.hole]) : s = .hole := by
  cases s with
  | seq first second =>
    have hne (s : Stm) : 0 < s.flat.length := by
      fun_induction Stm.flat s with
      | case1 first second ihfirst _ =>
        rw [List.length_append]
        omega
      | case2 s _ => exact Nat.one_pos
    have hlength := congrArg List.length h
    rw [flat, List.length_append, List.length_singleton] at hlength
    have := hne first
    have := hne second
    omega
  | _ => exact List.singleton_inj.mp h

theorem seqs_eq_hole_iff {ss : List Stm} : seqs ss = .hole ↔ ∀ s ∈ ss, s = .hole := by
  induction ss with
  | nil => exact iff_of_true rfl (List.forall_mem_nil _)
  | cons s rest ih =>
    rw [List.forall_mem_cons, ← ih]
    by_cases hs : s = .hole
    · rw [hs, seqs_hole_cons, and_iff_right rfl]
    · refine iff_of_false ?_ fun h => hs h.1
      by_cases hrest : seqs rest = .hole
      · rwa [seqs_cons_of_hole hrest]
      · rw [seqs_cons_of_ne hs hrest]
        exact Stm.noConfusion

end Stm

namespace X86

open Selecting

/-- A part of a sequence: a missing one is a fault. -/
abbrev lowerItem (s : Stm) : Selecting Unit := lowerStmPart X86.rules.lowerStm s

theorem lowerItem_of_ne {s : Stm} (hs : s ≠ .hole) : lowerItem s = X86.rules.lowerStm s := by
  cases s with
  | hole => exact absurd rfl hs
  | _ => rfl

theorem lowerItem_agree (s : Stm) : Selecting.Agree (lowerItem s) (lowerItem s) := by
  by_cases hs : s = .hole
  · rw [hs]
    exact .throw _
  · rw [lowerItem_of_ne hs]
    exact X86.rules.lowerStm_agree s

/-- A sequence lowers its sides one after the other. -/
theorem lowerItem_seq (first second : Stm) :
    Selecting.Agree (lowerItem (.seq first second)) (lowerItem first >>= fun _ => lowerItem second) := by
  have hfinish (regs : List Temp) :
      (Tile.seq first second).finish regs = pure ((Tile.seq first second).value regs ⟨0⟩) := emit_nil fun _ => pure _
  have hsides : (Tile.seq first second).lower X86.rules.lowerStm X86.rules.lowerExp >>= (fun _ => pure ()) =
      (lowerItem first >>= fun _ => lowerItem second) := by
    simp only [Tile.lower, Tile.parts, lowerParts, bind_assoc, pure_bind, hfinish, bind_pure_unit]
  obtain ⟨rule, heq⟩ := lowerStm_eq (s := .seq first second) rfl
  have hseq : lowerItem (.seq first second) = _ := heq
  rw [hseq, hsides]
  exact (Selecting.Agree.noteStm_pure rule Stm.noConfusion).bind
    (g := fun _ => lowerItem first >>= fun _ => lowerItem second)
    fun _ => (lowerItem_agree first).bind fun _ => lowerItem_agree second

/-- A statement is lowered as the list that it comes down to. -/
theorem lowerItem_flat (s : Stm) : Selecting.Agree (lowerItem s) (forM s.flat lowerItem) := by
  fun_induction Stm.flat s with
  | case1 first second ihfirst ihsecond =>
    rw [List.forM_append]
    exact (lowerItem_seq first second).trans (ihfirst.bind fun _ => ihsecond)
  | case2 s _ =>
    rw [List.forM_cons]
    simp only [List.forM_nil, bind_pure_unit]
    exact lowerItem_agree s

/-- Statements that are chained are lowered one after the other, and the missing ones among them are left out. -/
theorem lowerItem_seqs {ss : List Stm} (hss : Stm.seqs ss ≠ .hole) :
    Selecting.Agree (lowerItem (.seqs ss)) (forM (ss.filter (· ≠ .hole)) lowerItem) := by
  -- A chain is built from the right; a statement with nothing behind it is not put into a sequence at all.
  induction ss with
  | nil => exact absurd rfl hss
  | cons s rest ih =>
    by_cases hs : s = .hole
    · subst hs
      rw [Stm.seqs_hole_cons] at hss ⊢
      exact ih hss
    · rw [List.filter_cons_of_pos (by simpa using hs), List.forM_cons]
      by_cases hrest : Stm.seqs rest = .hole
      · have hnone : rest.filter (· ≠ .hole) = [] :=
          List.filter_eq_nil_iff.mpr fun x hx => by simpa using Stm.seqs_eq_hole_iff.mp hrest x hx
        simp only [Stm.seqs_cons_of_hole hrest, hnone, List.forM_nil, bind_pure_unit]
        exact lowerItem_agree s
      · rw [Stm.seqs_cons_of_ne hs hrest]
        exact (lowerItem_seq s _).trans ((lowerItem_agree s).bind fun _ => ih hrest)

/-! ### Attempts -/

/-- Attempts in a row answer as one attempt at all of their steps would. -/
theorem forM_tileStm {ss : List Stm} (hss : ∀ s ∈ ss, s ≠ .hole) :
    Selecting.Agree (forM ss X86.rules.tileStm) (forM ss lowerItem) := by
  induction ss with
  | nil => exact .pure ()
  | cons s rest ih =>
    obtain ⟨hs, hrest⟩ := List.forall_mem_cons.mp hss
    rw [List.forM_cons, List.forM_cons, lowerItem_of_ne hs]
    have hspeaks := RuleBook.lowerStm_speaks rules_outspoken s
    exact ((X86.rules.lowerStm_agree s).attempt hspeaks ()).bind fun _ => ih hrest

end X86

namespace RuleBook

open Selecting

variable {book : RuleBook} {s t : Stm}

/-- A refused statement leaves no code. -/
theorem code_of_refused {log : Log} {why : Refusal}
    (h : ((book.tileStm s).run.run log).1 = .error (.failed why)) :
    ((book.tileStm s).run.run log).2.code = log.code := by
  have hperforms := (book.lowerWithin_performs s.size).1 s
  obtain ⟨log', hendless⟩ | hfollows := ((book.lowerWithin_follows s.size).1 s (Nat.le_refl _)).attempt () log
  · cases (congrArg Prod.fst hendless).symm.trans h
  · rw [show ((attempt () (book.lowerStm s)).run.run log).1 = _ from h] at hfollows
    obtain ⟨f, log', hrun⟩ | ⟨log', hrun⟩ | ⟨code, r, n, journal, -, hrun⟩ := hperforms.attempt_outcome () log
    · cases (congrArg Prod.fst hrun).symm.trans (congrArg Prod.fst hfollows)
    · cases (congrArg Prod.fst hrun).symm.trans (congrArg Prod.fst hfollows)
    · have hanswer := (congrArg Prod.fst hrun).symm.trans (congrArg Prod.fst hfollows)
      have hlog := congrArg Log.code ((congrArg Prod.snd hfollows).symm.trans (congrArg Prod.snd hrun))
      cases r with
      | ok a => cases hanswer
      | error why' => exact hlog.trans (List.append_nil _)

/-- Attempts at statements that agree leave the same log, the journal apart, also if they are refused. -/
theorem tileStm_congr (hbook : book.Outspoken) (h : Agree (book.lowerStm s) (book.lowerStm t)) (log : Log) :
    ((book.tileStm s).run.run log).1 = ((book.tileStm t).run.run log).1 ∧
      ((book.tileStm s).run.run log).2.bare = ((book.tileStm t).run.run log).2.bare := by
  have hattempt (s : Stm) : Agree (book.tileStm s) (book.lowerStm s) :=
    (book.lowerStm_agree s).attempt (lowerStm_speaks hbook s) ()
  have halike : EndsAlike ((book.tileStm s).run.run log) ((book.tileStm t).run.run log) :=
    (hattempt s).trans (h.trans (hattempt t).symm) log log rfl
  refine ⟨halike.answer, Log.bare_eq_iff.mpr ⟨halike.session, ?_⟩⟩
  by_cases hrefused : ∃ why, ((book.tileStm s).run.run log).1 = .error (.failed why)
  · obtain ⟨why, hwhy⟩ := hrefused
    rw [code_of_refused hwhy, code_of_refused (halike.answer.symm.trans hwhy)]
  · exact halike.code fun why hwhy => hrefused ⟨why, hwhy⟩

end RuleBook

/-- Lowering respects sequences. Statements that come down to the same list are lowered with the same answer, the same
code and the same counters, wherever their sequences are nested; missing statements are no exception. A chain of
statements, some of them missing, is lowered with the answer and the counters of lowering those that are there one by
one, and with the same log if it is not refused. -/
theorem lowering_respects_sequences :
    (∀ (s t : Stm) (log : Log), s.flat = t.flat →
      let o := (X86.rules.tileStm s).run.run log
      let o' := (X86.rules.tileStm t).run.run log
      o.1 = o'.1 ∧ o.2.bare = o'.2.bare) ∧
    ∀ (ss : List Stm) (log : Log), (∃ s ∈ ss, s ≠ .hole) →
      let o := (X86.rules.tileStm (.seqs ss)).run.run log
      let o' := (forM (ss.filter (· ≠ .hole)) X86.rules.tileStm : Selecting Unit).run.run log
      o.1 = o'.1 ∧ o.2.session.bare = o'.2.session.bare ∧ (o.1 = .ok () → o.2.bare = o'.2.bare) := by
  constructor
  · intro s t log hflat
    by_cases hs : s = .hole
    · subst hs
      rw [Stm.eq_hole_of_flat hflat.symm]
      exact ⟨rfl, rfl⟩
    · have ht : t ≠ .hole := by
        rintro rfl
        exact hs (Stm.eq_hole_of_flat hflat)
      have hagree := (X86.lowerItem_flat s).trans (hflat ▸ (X86.lowerItem_flat t).symm)
      rw [X86.lowerItem_of_ne hs, X86.lowerItem_of_ne ht] at hagree
      exact RuleBook.tileStm_congr X86.rules_outspoken hagree log
  · rintro ss log ⟨s, hs, hne⟩
    have hseqs : Stm.seqs ss ≠ .hole := fun hhole => hne (Stm.seqs_eq_hole_iff.mp hhole s hs)
    have hpresent : ∀ x ∈ ss.filter (· ≠ .hole), x ≠ .hole := fun x hx => of_decide_eq_true (List.mem_filter.mp hx).2
    have hagree := X86.lowerItem_seqs hseqs
    rw [X86.lowerItem_of_ne hseqs] at hagree
    have hspeaks := RuleBook.lowerStm_speaks X86.rules_outspoken (.seqs ss)
    have halike := (hagree.attempt hspeaks ()).trans (X86.forM_tileStm hpresent).symm log log rfl
    refine ⟨halike.answer, halike.session, fun hok => halike.bare_eq fun why hwhy => ?_⟩
    cases hok.symm.trans hwhy

/-- Two ways to put a store, an operator that no rule knows and a label into a sequence, both refused in the middle; and
a store and a label that are chained with missing statements between them. -/
theorem storeThenLabel_respects_sequences :
    let store : Stm := .move (.mem (.temp ⟨1⟩)) (.bin .plus (.temp ⟨2⟩) (.mem (.temp ⟨3⟩)))
    let odd : Exp := .bin (.other 10) (.const 1) (.const 2)
    let left : Stm := .seq (.seq store (.exp odd)) (.label "L")
    let right : Stm := .seq store (.seq (.exp odd) (.label "L"))
    let ss : List Stm := [.hole, store, .hole, .label "L"]
    let one := (X86.rules.tileStm left).run.run {}
    let other := (X86.rules.tileStm right).run.run {}
    let chain := (X86.rules.tileStm (.seqs ss)).run.run {}
    let single := (forM [store, .label "L"] X86.rules.tileStm : Selecting Unit).run.run {}
    (left.flat = right.flat ∧ one.1 = .error (.failed (.unmatchedExp "x86 exp" odd)) ∧
      other.1 = .error (.failed (.unmatchedExp "x86 exp" odd)) ∧ one.2.bare = other.2.bare) ∧
    (∃ s ∈ ss, s ≠ .hole) ∧ chain.1 = .ok () ∧ chain.2.bare = single.2.bare := by
  intro store odd left right ss one other chain single
  have hone : one.1 = .error (.failed (.unmatchedExp "x86 exp" odd)) := by decide +kernel
  have hchain : chain.1 = .ok () := by decide +kernel
  have hss : ∃ s ∈ ss, s ≠ .hole := ⟨store, List.mem_cons_of_mem _ List.mem_cons_self, Stm.noConfusion⟩
  obtain ⟨hanswer, hlog⟩ := lowering_respects_sequences.1 left right {} rfl
  obtain ⟨-, -, hsame⟩ := lowering_respects_sequences.2 ss {} hss
  exact ⟨⟨rfl, hone, hanswer.symm.trans hone, hlog⟩, hss, hchain, hsame hchain⟩

end Lowering
