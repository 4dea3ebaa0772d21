import Liquet.Adapters.Custos
import Liquet.Checks

/-!
The walking skeleton `src/bin/slice.rs`: Custos fills both slots for the
single-leg gate. Its proofs carry asserted facts, so the gate never compares
the value of the intent; what is printed depends on the intent through the
accounts it requires, and on the outcome through its success, the accounts it
watched and the verdict on it.
-/

namespace Liquet

open Gate Custos

/-! ### The binary -/

namespace Slice

/-- The decision under a policy, on both slots as Custos fills them. -/
def decision (X : Producers) (P : Primitives) (outcome : CustosEngine.Outcome)
    (intent : SettlementIntent) (policy : GatePolicy) : LiquetDecision :=
  Gate.decide intent (proofFromOutcome X P outcome)
    (verdictFromCustos X (X.evaluate outcome X.defaultBank)) policy

def printDecision (X : Producers) (P : Primitives) (name : String)
    (outcome : CustosEngine.Outcome) (intent : SettlementIntent) : String :=
  name ++ " " ++ LiquetDecision.codec.toText (decision X P outcome intent .default) ++ "\n"

/-! ### Asserted facts -/

section

variable {X : Producers} {P : Primitives} {outcome outcome' : CustosEngine.Outcome}
  {intent intent' : SettlementIntent} {policy : GatePolicy}

/-- Every account the intent requires was watched, whether or not it exists
after execution. -/
def Watches (X : Producers) (outcome : CustosEngine.Outcome) (intent : SettlementIntent) : Prop :=
  ∀ acct ∈ intent.requiredAccounts,
    ∃ key, (outcome.post.get key).isSome = true ∧ X.pubkeyText key = acct

theorem mem_coveredAccounts {acct : String} :
    acct ∈ (proofFromOutcome X P outcome).coveredAccounts ↔
      ∃ key, (outcome.post.get key).isSome = true ∧ X.pubkeyText key = acct := by
  rw [coveredAccounts_proofFromOutcome, List.mem_map]
  refine exists_congr fun key => and_congr_left' ?_
  rw [(Canonical.perm_sortByKey _ _).mem_iff, CustosEngine.AccountMap.isSome_get]

theorem isSettle_decision_iff :
    (decision X P outcome intent policy).isSettle = true ↔
      (policy.requireExecuted = true → outcome.success = true) ∧
        severityFromLevel (X.evaluate outcome X.defaultBank).level ≤ policy.maxSettleSeverity ∧
        Watches X outcome intent ∧ policy.requireRecoveredFacts = false := by
  rw [decision, isSettle_decide_iff]
  simp only [mem_coveredAccounts]
  simp [proofFromOutcome, verdictFromCustos, Watches]

theorem decision_eq_settle {caveats : List String}
    (h : decision X P outcome intent policy = .settle caveats) : caveats = [unboundNote] := by
  have hsettle : (decision X P outcome intent policy).isSettle = true := by
    rw [h]
    rfl
  obtain ⟨-, -, -, hrecovered⟩ := isSettle_decision_iff.mp hsettle
  rw [decision, decide_eq] at h
  split at h
  · obtain rfl := LiquetDecision.settle.inj h
    rw [intentBinding]
    simp [proofFromOutcome, hrecovered]
  · cases h

theorem decision_eq_hold {reasons : List String}
    (h : decision X P outcome intent policy = .hold reasons) : reasons ≠ [] := by
  rw [decision, decide_eq] at h
  split at h <;> rename_i hfailed
  · cases h
  · obtain rfl := LiquetDecision.hold.inj h
    exact fun hnil => hfailed (List.map_eq_nil_iff.mp hnil)

/-- What the decision does not depend on: the balances, owners and data of the
accounts and the order they are iterated in, what was there before execution,
the digest, and of the intent everything but the accounts it requires. -/
theorem decision_congr {P' : Primitives} (hsuccess : outcome.success = outcome'.success)
    (hkeys : ∀ key, (outcome.post.get key).isSome = (outcome'.post.get key).isSome)
    (hverdict : X.evaluate outcome X.defaultBank = X.evaluate outcome' X.defaultBank)
    (hrequired : intent.requiredAccounts = intent'.requiredAccounts) :
    decision X P outcome intent policy = decision X P' outcome' intent' policy := by
  have hcovered : (proofFromOutcome X P outcome).coveredAccounts =
      (proofFromOutcome X P' outcome').coveredAccounts := by
    rw [coveredAccounts_proofFromOutcome, coveredAccounts_proofFromOutcome,
      sortByKey_keys_congr hkeys]
  have hexecuted : executedReasons (proofFromOutcome X P outcome) policy =
      executedReasons (proofFromOutcome X P' outcome') policy := by
    show (if policy.requireExecuted && !outcome.success then _ else _) = _
    rw [hsuccess]
    rfl
  have hcoverage : coverageReasons intent (proofFromOutcome X P outcome) =
      coverageReasons intent' (proofFromOutcome X P' outcome') := by
    rw [coverageReasons, coverageReasons, hcovered, hrequired]
  have hbinding : intentBinding intent (proofFromOutcome X P outcome) policy =
      intentBinding intent' (proofFromOutcome X P' outcome') policy := rfl
  rw [decision, decision, hverdict, Gate.decide, Gate.decide, hexecuted, hcoverage, hbinding]
  rfl

theorem printDecision_eq_iff {name : String} {d : LiquetDecision} :
    printDecision X P name outcome intent =
        name ++ " " ++ LiquetDecision.codec.toText d ++ "\n" ↔
      decision X P outcome intent .default = d := by
  rw [printDecision, String.append_left_inj, String.append_right_inj]
  exact LiquetDecision.codec.toText_injective.eq_iff

end

end Slice

/-- Under every policy the single leg is released exactly when it executed if
it had to, the screen is within the threshold, the required accounts were all
watched, and asserted facts will do; the value of the intent has no part in it,
and a settlement says so. The printed line is a settlement with this caveat or
a hold with its reasons, and two runs that the gate cannot tell apart print the
same. -/
theorem slice_exact (X : Producers) (P : Primitives) (name : String)
    (outcome : CustosEngine.Outcome) (intent : SettlementIntent) :
    (∀ policy, (Slice.decision X P outcome intent policy).isSettle = true ↔
        (policy.requireExecuted = true → outcome.success = true) ∧
          severityFromLevel (X.evaluate outcome X.defaultBank).level ≤ policy.maxSettleSeverity ∧
          Slice.Watches X outcome intent ∧ policy.requireRecoveredFacts = false) ∧
      (Slice.printDecision X P name outcome intent =
          name ++ " " ++ LiquetDecision.codec.toText (.settle [unboundNote]) ++ "\n" ↔
        outcome.success = true ∧
          severityFromLevel (X.evaluate outcome X.defaultBank).level ≤ .info ∧
          Slice.Watches X outcome intent) ∧
      ((∃ reasons, reasons ≠ [] ∧ Slice.printDecision X P name outcome intent =
          name ++ " " ++ LiquetDecision.codec.toText (.hold reasons) ++ "\n") ↔
        ¬(outcome.success = true ∧
          severityFromLevel (X.evaluate outcome X.defaultBank).level ≤ .info ∧
          Slice.Watches X outcome intent)) ∧
      ∀ P' outcome' intent', outcome.success = outcome'.success →
        (∀ key, (outcome.post.get key).isSome = (outcome'.post.get key).isSome) →
        X.evaluate outcome X.defaultBank = X.evaluate outcome' X.defaultBank →
        intent.requiredAccounts = intent'.requiredAccounts →
          (∀ policy, Slice.decision X P outcome intent policy =
            Slice.decision X P' outcome' intent' policy) ∧
          Slice.printDecision X P name outcome intent =
            Slice.printDecision X P' name outcome' intent' := by
  have hsettle : (Slice.decision X P outcome intent .default).isSettle = true ↔
      outcome.success = true ∧
        severityFromLevel (X.evaluate outcome X.defaultBank).level ≤ .info ∧
        Slice.Watches X outcome intent := by
    rw [Slice.isSettle_decision_iff]
    simp [GatePolicy.default]
  refine ⟨fun policy => Slice.isSettle_decision_iff, ?_, ?_, ?_⟩
  · rw [Slice.printDecision_eq_iff, ← hsettle]
    cases hdecision : Slice.decision X P outcome intent .default with
    | settle caveats =>
        rw [Slice.decision_eq_settle hdecision]
        exact iff_of_true rfl rfl
    | hold reasons => exact iff_of_false nofun Bool.false_ne_true
  · rw [← hsettle]
    simp only [Slice.printDecision_eq_iff]
    cases hdecision : Slice.decision X P outcome intent .default with
    | settle caveats => simp
    | hold reasons =>
        refine iff_of_true ⟨reasons, Slice.decision_eq_hold hdecision, rfl⟩ ?_
        exact Bool.false_ne_true
  · intro P' outcome' intent' hsuccess hkeys hverdict hrequired
    have hcongr (policy : GatePolicy) : Slice.decision X P outcome intent policy =
        Slice.decision X P' outcome' intent' policy :=
      Slice.decision_congr hsuccess hkeys hverdict hrequired
    refine ⟨hcongr, ?_⟩
    rw [Slice.printDecision, Slice.printDecision, hcongr]

end Liquet
