import Mathlib.Order.Basic
import Mathlib.Order.BooleanAlgebra.Basic
import Liquet.Checks

/-!
Policies in order. A policy is below another when it allows less severity and
requires at least as much. This is exactly the order of what the single-leg
gate settles, so no field of a policy is idle there; of the cross-VM gate it is
the order by severity alone. Going up, a settlement stays as it is, and a hold
loses reasons and gains none but the one for the level.
-/

namespace Liquet

open OrderDual
open scoped List

instance : PartialOrder GatePolicy :=
  PartialOrder.lift
    (fun p => (p.maxSettleSeverity, toDual p.requireExecuted, toDual p.requireRecoveredFacts))
    (by
      rintro ⟨severity, executed, recovered⟩ ⟨severity', executed', recovered'⟩ h
      simpa using h)

theorem GatePolicy.le_iff {p p' : GatePolicy} :
    p ≤ p' ↔ p.maxSettleSeverity ≤ p'.maxSettleSeverity ∧
      (p'.requireExecuted = true → p.requireExecuted = true) ∧
      (p'.requireRecoveredFacts = true → p.requireRecoveredFacts = true) := by
  show p.maxSettleSeverity ≤ p'.maxSettleSeverity ∧ p'.requireExecuted ≤ p.requireExecuted ∧
    p'.requireRecoveredFacts ≤ p.requireRecoveredFacts ↔ _
  rw [Bool.le_iff_imp, Bool.le_iff_imp]

namespace Gate

/-- A leg of whatever source with nothing else amiss, for an intent that asks
for little. -/
def sampleLeg (executed : Bool) (factsSource : FactsSource) : ReexecProof :=
  { vm := .svm, executed, poststateDigest := "", coveredAccounts := [], factsSource,
    asset := some "", amount := some 0, recipient := some "", unverifiableReason := none }

def sampleIntent : SettlementIntent :=
  { vm := .svm, asset := "", amount := 0, recipient := "", requiredAccounts := [] }

def sampleProof : CrossVmProof :=
  { reconcile := .matched, reasons := [], legs := [], claimHash := "", settlementId := "" }

theorem isSettle_sample {executed : Bool} {factsSource : FactsSource} {level : Severity}
    {p : GatePolicy} :
    (decide sampleIntent (sampleLeg executed factsSource) { level, findings := [] } p).isSettle =
        true ↔
      (p.requireExecuted = true → executed = true) ∧ level ≤ p.maxSettleSeverity ∧
        (factsSource = .producerRecovered ∨ p.requireRecoveredFacts = false) := by
  rw [isSettle_decide_iff]
  cases factsSource <;> simp [sampleIntent, sampleLeg]

section

variable {intent : SettlementIntent} {leg : ReexecProof} {proof : CrossVmProof}
  {verdict : InvariantVerdict} {p p' : GatePolicy}

/-! ### Going up -/

theorem Check.Fails.of_le {c : Check} (hc : c ≠ .level)
    (hseverity : p.maxSettleSeverity ≤ p'.maxSettleSeverity)
    (hexecuted : p'.requireExecuted = true → p.requireExecuted = true)
    (hrecovered : p'.requireRecoveredFacts = true → p.requireRecoveredFacts = true)
    (h : c.Fails intent leg verdict p') : c.Fails intent leg verdict p := by
  cases c with
  | level => exact absurd rfl hc
  | executed => exact ⟨hexecuted h.1, h.2⟩
  | finding f => exact ⟨hseverity.trans_lt h.1, hseverity.trans_lt h.2⟩
  | recovered => exact ⟨h.1, hrecovered h.2⟩
  | verifiable | coverage | vm | asset | amount | recipient => exact h

theorem Check.reason_congr {c : Check} (hc : c ≠ .level) :
    c.reason intent leg verdict p' = c.reason intent leg verdict p := by
  cases c with
  | level => exact absurd rfl hc
  | _ => rfl

/-- What a list of checks reports going up, the level's summary aside. -/
theorem reasonsOf_sublist {cs : List Check}
    (h : ∀ c ∈ cs, c ≠ .level → c.Fails intent leg verdict p' → c.Fails intent leg verdict p) :
    (reasonsOf intent leg verdict p' cs).filter (· ≠ levelReason verdict p') <+
      reasonsOf intent leg verdict p cs := by
  induction cs with
  | nil => exact List.nil_sublist _
  | cons c cs ih =>
      rw [reasonsOf_cons c cs, reasonsOf_cons c cs, List.filter_append]
      apply List.Sublist.append _ (ih fun d hd => h d (List.mem_cons_of_mem c hd))
      rw [reasonsOf_singleton]
      by_cases hfails : c.Fails intent leg verdict p'
      · rw [if_pos hfails]
        by_cases hc : c = .level
        · subst hc
          rw [show Check.level.reason intent leg verdict p' = levelReason verdict p' from rfl]
          simp
        · rw [reasonsOf_singleton, if_pos (h c List.mem_cons_self hc hfails),
            Check.reason_congr hc]
          exact List.filter_sublist
      · rw [if_neg hfails]
        exact List.nil_sublist _

theorem invariantReasons_sublist (h : p.maxSettleSeverity ≤ p'.maxSettleSeverity) :
    (invariantReasons verdict p').filter (· ≠ levelReason verdict p') <+
      invariantReasons verdict p := by
  rw [← @reasonsOf_invariant sampleIntent (sampleLeg true .producerRecovered) verdict p',
    ← @reasonsOf_invariant sampleIntent (sampleLeg true .producerRecovered) verdict p]
  apply reasonsOf_sublist
  intro c hc hlevel hfails
  rcases List.mem_append.mp hc with hc | hc
  · obtain ⟨f, -, rfl⟩ := List.mem_map.mp hc
    exact ⟨h.trans_lt hfails.1, h.trans_lt hfails.2⟩
  · exact absurd (List.mem_singleton.mp hc) hlevel

theorem decide_of_isSettle (h : (decide intent leg verdict p).isSettle = true) :
    decide intent leg verdict p =
      .settle (if leg.factsSource = .producerRecovered then [] else [unboundNote]) := by
  obtain ⟨-, -, -, -, hfacts⟩ := isSettle_decide_iff.mp h
  rw [decide_eq] at h ⊢
  split at h <;> rename_i hfailed
  · rw [if_pos hfailed, intentBinding]
    rcases hfacts with ⟨hsource, -⟩ | ⟨hsource, hrecovered⟩
    · simp [hsource]
    · simp [hsource, hrecovered]
  · cases h

theorem decide_eq_hold {reasons : List String} :
    decide intent leg verdict p = .hold reasons ↔
      reasons ≠ [] ∧ reasons = reasonsOf intent leg verdict p (checks intent verdict) := by
  rw [decide_eq, reasonsOf, ← failedChecks]
  by_cases hfailed : failedChecks intent leg verdict p = []
  · rw [if_pos hfailed, hfailed]
    simp
  · rw [if_neg hfailed, LiquetDecision.hold.injEq]
    constructor
    · rintro rfl
      exact ⟨fun hnil => hfailed (List.map_eq_nil_iff.mp hnil), rfl⟩
    · exact fun h => h.2.symm

theorem isSettle_of_le (h : p ≤ p') (hsettle : (decide intent leg verdict p).isSettle = true) :
    (decide intent leg verdict p').isSettle = true := by
  obtain ⟨hseverity, hexecuted, hrecovered⟩ := GatePolicy.le_iff.mp h
  obtain ⟨hverifiable, hran, hlevel, hcovered, hfacts⟩ := isSettle_decide_iff.mp hsettle
  refine isSettle_decide_iff.mpr
    ⟨hverifiable, fun h' => hran (hexecuted h'), hlevel.trans hseverity, hcovered, ?_⟩
  apply hfacts.imp_right
  rintro ⟨hasserted, hnot⟩
  refine ⟨hasserted, ?_⟩
  by_contra hrequired
  rw [hrecovered (by simpa using hrequired)] at hnot
  cases hnot

/-- Each field of the policy is tried with a leg that it alone stands
against. -/
theorem le_of_isSettle
    (h : ∀ intent leg verdict, (decide intent leg verdict p).isSettle = true →
      (decide intent leg verdict p').isSettle = true) : p ≤ p' := by
  have hsample (executed : Bool) (factsSource : FactsSource)
      (hexecuted : p.requireExecuted = true → executed = true)
      (hsource : factsSource = .producerRecovered ∨ p.requireRecoveredFacts = false) :=
    isSettle_sample.mp (h sampleIntent (sampleLeg executed factsSource)
      { level := p.maxSettleSeverity, findings := [] }
      (isSettle_sample.mpr ⟨hexecuted, le_refl _, hsource⟩))
  obtain ⟨hexecuted, hseverity, -⟩ := hsample p.requireExecuted .producerRecovered id (.inl rfl)
  refine GatePolicy.le_iff.mpr ⟨hseverity, hexecuted, fun hrequired => ?_⟩
  by_contra hnot
  obtain ⟨-, -, hsource | hsource⟩ :=
    hsample true .callerAsserted (fun _ => rfl) (.inr (by simpa using hnot))
  · cases hsource
  · rw [hrequired] at hsource
    cases hsource

theorem settles_of_le {caveats : List String} (h : p ≤ p')
    (hsettle : decide intent leg verdict p = .settle caveats) :
    decide intent leg verdict p' = .settle caveats := by
  have hbelow : (decide intent leg verdict p).isSettle = true := by
    rw [hsettle]
    rfl
  rw [← hsettle, decide_of_isSettle hbelow, decide_of_isSettle (isSettle_of_le h hbelow)]

theorem holds_of_le {reasons : List String} (h : p ≤ p')
    (hhold : decide intent leg verdict p' = .hold reasons) :
    ∃ reasons', decide intent leg verdict p = .hold reasons' ∧
      reasons.filter (· ≠ levelReason verdict p') <+ reasons' := by
  obtain ⟨hseverity, hexecuted, hrecovered⟩ := GatePolicy.le_iff.mp h
  cases hbelow : decide intent leg verdict p with
  | settle caveats =>
      rw [settles_of_le h hbelow] at hhold
      cases hhold
  | hold reasons' =>
      refine ⟨reasons', rfl, ?_⟩
      rw [(decide_eq_hold.mp hhold).2, (decide_eq_hold.mp hbelow).2]
      exact reasonsOf_sublist fun c _ hc => Check.Fails.of_le hc hseverity hexecuted hrecovered

theorem holds_crossvm_of_le {reasons : List String}
    (h : p.maxSettleSeverity ≤ p'.maxSettleSeverity)
    (hhold : decideCrossvm proof verdict p' = .hold reasons) :
    ∃ reasons', decideCrossvm proof verdict p = .hold reasons' ∧
      reasons.filter (· ≠ levelReason verdict p') <+ reasons' := by
  obtain ⟨hne, rfl⟩ := decideCrossvm_eq_hold hhold
  cases hbelow : decideCrossvm proof verdict p with
  | settle caveats =>
      have hsettle : (decideCrossvm proof verdict p).isSettle = true := by
        rw [hbelow]
        rfl
      obtain ⟨hmatched, hlevel⟩ := isSettle_decideCrossvm_iff.mp hsettle
      rw [reconcileReasons_eq_nil.mpr hmatched, invariantReasons_eq_nil.mpr (hlevel.trans h)] at hne
      exact absurd rfl hne
  | hold reasons' =>
      obtain ⟨-, rfl⟩ := decideCrossvm_eq_hold hbelow
      refine ⟨_, rfl, ?_⟩
      rw [List.filter_append]
      exact List.filter_sublist.append (invariantReasons_sublist h)

end

/-- Of two policies one is below the other exactly when the single-leg gate
under it settles nothing the other does not; the cross-VM gate compares them by
severity alone. Going up, settlements keep their caveats, and of a hold no
reason is new and all keep their order, except for the one on the level. -/
theorem policies_ordered (p p' : GatePolicy) :
    (p ≤ p' ↔ ∀ intent leg verdict, (decide intent leg verdict p).isSettle = true →
        (decide intent leg verdict p').isSettle = true) ∧
      (p.maxSettleSeverity ≤ p'.maxSettleSeverity ↔
        ∀ proof verdict, (decideCrossvm proof verdict p).isSettle = true →
          (decideCrossvm proof verdict p').isSettle = true) ∧
      (p ≤ p' → ∀ intent leg verdict,
        (∀ caveats, decide intent leg verdict p = .settle caveats →
          decide intent leg verdict p' = .settle caveats) ∧
        ∀ reasons, decide intent leg verdict p' = .hold reasons →
          ∃ reasons', decide intent leg verdict p = .hold reasons' ∧
            reasons.filter (· ≠ levelReason verdict p') <+ reasons') ∧
      (p.maxSettleSeverity ≤ p'.maxSettleSeverity → ∀ proof verdict reasons,
        decideCrossvm proof verdict p' = .hold reasons →
          ∃ reasons', decideCrossvm proof verdict p = .hold reasons' ∧
            reasons.filter (· ≠ levelReason verdict p') <+ reasons') := by
  refine ⟨⟨fun h intent leg verdict => isSettle_of_le h, le_of_isSettle⟩, ⟨?_, ?_⟩, ?_, ?_⟩
  · intro h proof verdict hsettle
    obtain ⟨hmatched, hlevel⟩ := isSettle_decideCrossvm_iff.mp hsettle
    exact isSettle_decideCrossvm_iff.mpr ⟨hmatched, hlevel.trans h⟩
  · intro h
    have hsettle := h sampleProof { level := p.maxSettleSeverity, findings := [] }
    rw [isSettle_decideCrossvm_iff, isSettle_decideCrossvm_iff] at hsettle
    exact (hsettle ⟨rfl, le_refl _⟩).2
  · exact fun h intent leg verdict =>
      ⟨fun caveats => settles_of_le h, fun reasons => holds_of_le h⟩
  · exact fun h proof verdict reasons => holds_crossvm_of_le h

end Gate

end Liquet
