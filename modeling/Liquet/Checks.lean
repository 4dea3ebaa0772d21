import Liquet.Decide

/-!
The gate's checks one by one. `decide` is the list of its checks, in order,
with those that pass left out: it settles when none is left, and otherwise
holds with one reason for each. The screen on the invariant verdict, which the
cross-VM gate shares, goes by the stated level before it looks at a finding.
-/

namespace Liquet.Gate

/-! ### The checks of the single-leg gate -/

inductive Check
  | verifiable
  | executed
  | finding (f : Finding)
  | level
  | coverage (acct : String)
  | vm
  | asset
  | amount
  | recipient
  | recovered
  deriving DecidableEq, Repr

/-- All checks in the order of the gate: the leg, each finding and then the
level, each account the intent requires, the facts and their source. -/
def checks (intent : SettlementIntent) (verdict : InvariantVerdict) : List Check :=
  [.verifiable, .executed] ++ (verdict.findings.map .finding ++ [.level]) ++
    intent.requiredAccounts.map .coverage ++ [.vm, .asset, .amount, .recipient, .recovered]

/-- When a check fails. Findings count only under a level above the threshold,
and the level itself only when no finding does; facts are compared only when
the producer recovered them. -/
def Check.Fails (intent : SettlementIntent) (proof : ReexecProof) (verdict : InvariantVerdict)
    (policy : GatePolicy) : Check → Prop
  | .verifiable => proof.unverifiableReason ≠ none
  | .executed => policy.requireExecuted = true ∧ proof.executed = false
  | .finding f => policy.maxSettleSeverity < verdict.level ∧ policy.maxSettleSeverity < f.severity
  | .level => policy.maxSettleSeverity < verdict.level ∧
      ∀ f ∈ verdict.findings, f.severity ≤ policy.maxSettleSeverity
  | .coverage acct => acct ∉ proof.coveredAccounts
  | .vm => proof.factsSource = .producerRecovered ∧ proof.vm ≠ intent.vm
  | .asset => proof.factsSource = .producerRecovered ∧ proof.asset ≠ some intent.asset
  | .amount => proof.factsSource = .producerRecovered ∧ proof.amount ≠ some intent.amount
  | .recipient => proof.factsSource = .producerRecovered ∧ proof.recipient ≠ some intent.recipient
  | .recovered => proof.factsSource = .callerAsserted ∧ policy.requireRecoveredFacts = true

instance (intent : SettlementIntent) (proof : ReexecProof) (verdict : InvariantVerdict)
    (policy : GatePolicy) : (c : Check) → Decidable (c.Fails intent proof verdict policy)
  | .verifiable => inferInstanceAs (Decidable (_ ≠ _))
  | .executed => inferInstanceAs (Decidable (_ ∧ _))
  | .finding _ => inferInstanceAs (Decidable (_ ∧ _))
  | .level => inferInstanceAs (Decidable (_ ∧ ∀ f ∈ verdict.findings, _))
  | .coverage _ => inferInstanceAs (Decidable (_ ∉ _))
  | .vm => inferInstanceAs (Decidable (_ ∧ _))
  | .asset => inferInstanceAs (Decidable (_ ∧ _))
  | .amount => inferInstanceAs (Decidable (_ ∧ _))
  | .recipient => inferInstanceAs (Decidable (_ ∧ _))
  | .recovered => inferInstanceAs (Decidable (_ ∧ _))

def factReason (field : String) (observed : Option String) (intended : String) : String :=
  match observed with
  | some v => "executed " ++ field ++ " " ++ v ++ " does not match intent " ++ intended
  | none => "producer-recovered proof is missing " ++ field ++ " required for binding"

def Check.reason (intent : SettlementIntent) (proof : ReexecProof) (verdict : InvariantVerdict)
    (policy : GatePolicy) : Check → String
  | .verifiable => "re-exec unverifiable: " ++ proof.unverifiableReason.getD ""
  | .executed => "re-exec proof shows the leg did not execute"
  | .finding f => findingReason f
  | .level => levelReason verdict policy
  | .coverage acct => coverageReason acct
  | .vm => "executed vm " ++ vmDebug proof.vm ++ " does not match intent vm " ++ vmDebug intent.vm
  | .asset => factReason "asset" proof.asset intent.asset
  | .amount => factReason "amount" (proof.amount.map toString) (toString intent.amount)
  | .recipient => factReason "recipient" proof.recipient intent.recipient
  | .recovered => unboundNote

def failedChecks (intent : SettlementIntent) (proof : ReexecProof) (verdict : InvariantVerdict)
    (policy : GatePolicy) : List Check :=
  (checks intent verdict).filter fun c => c.Fails intent proof verdict policy

/-! ### Reasons and failed checks -/

section

variable {intent : SettlementIntent} {proof : ReexecProof} {verdict : InvariantVerdict}
  {policy : GatePolicy}

def reasonsOf (intent : SettlementIntent) (proof : ReexecProof) (verdict : InvariantVerdict)
    (policy : GatePolicy) (cs : List Check) : List String :=
  (cs.filter fun c => c.Fails intent proof verdict policy).map
    (Check.reason intent proof verdict policy)

theorem reasonsOf_append (cs ds : List Check) :
    reasonsOf intent proof verdict policy (cs ++ ds) =
      reasonsOf intent proof verdict policy cs ++ reasonsOf intent proof verdict policy ds := by
  rw [reasonsOf, List.filter_append, List.map_append]
  rfl

theorem reasonsOf_cons (c : Check) (cs : List Check) :
    reasonsOf intent proof verdict policy (c :: cs) =
      reasonsOf intent proof verdict policy [c] ++ reasonsOf intent proof verdict policy cs :=
  reasonsOf_append [c] cs

theorem reasonsOf_singleton (c : Check) :
    reasonsOf intent proof verdict policy [c] =
      if c.Fails intent proof verdict policy then [c.reason intent proof verdict policy]
      else [] := by
  by_cases h : c.Fails intent proof verdict policy <;> simp [reasonsOf, h]

theorem reasonsOf_verifiable :
    reasonsOf intent proof verdict policy [.verifiable] = unverifiableReasons proof := by
  rw [reasonsOf_singleton, unverifiableReasons]
  cases h : proof.unverifiableReason with
  | none =>
      have hpasses : ¬Check.Fails intent proof verdict policy .verifiable := by
        rw [Check.Fails, h]
        exact fun hne => hne rfl
      rw [if_neg hpasses]
  | some why =>
      have hfails : Check.Fails intent proof verdict policy .verifiable := by
        rw [Check.Fails, h]
        exact Option.some_ne_none why
      rw [if_pos hfails]
      show ["re-exec unverifiable: " ++ proof.unverifiableReason.getD ""] = _
      rw [h, Option.getD_some]

theorem reasonsOf_executed :
    reasonsOf intent proof verdict policy [.executed] = executedReasons proof policy := by
  rw [reasonsOf_singleton, executedReasons]
  apply if_congr _ rfl rfl
  rw [Check.Fails, Bool.and_eq_true, Bool.not_eq_true']

/-- Under a level above the threshold either the findings above it fail, or
the level does. -/
theorem reasonsOf_invariant :
    reasonsOf intent proof verdict policy (verdict.findings.map .finding ++ [.level]) =
      invariantReasons verdict policy := by
  rw [reasonsOf_append, reasonsOf_singleton, invariantReasons_eq]
  have hfindings : reasonsOf intent proof verdict policy (verdict.findings.map .finding) =
      (verdict.findings.filter fun f => policy.maxSettleSeverity < verdict.level ∧
        policy.maxSettleSeverity < f.severity).map findingReason := by
    rw [reasonsOf, List.filter_map, List.map_map]
    rfl
  rw [hfindings]
  by_cases hlevel : verdict.level ≤ policy.maxSettleSeverity
  · have hnot : ¬policy.maxSettleSeverity < verdict.level := not_lt.mpr hlevel
    have hpasses : ¬Check.Fails intent proof verdict policy .level := fun h => hnot h.1
    rw [if_pos hlevel, if_neg hpasses]
    simp [hnot]
  · have habove : policy.maxSettleSeverity < verdict.level := not_le.mp hlevel
    rw [if_neg hlevel]
    simp only [habove, true_and]
    by_cases hempty : verdict.findings.filter (policy.maxSettleSeverity < ·.severity) = []
    · have hfails : Check.Fails intent proof verdict policy .level := by
        refine ⟨habove, fun f hf => ?_⟩
        have hnot := List.filter_eq_nil_iff.mp hempty f hf
        simpa using hnot
      rw [if_pos hempty, if_pos hfails, hempty]
      rfl
    · have hpasses : ¬Check.Fails intent proof verdict policy .level := by
        rintro ⟨-, hwithin⟩
        apply hempty
        rw [List.filter_eq_nil_iff]
        intro f hf
        simpa using hwithin f hf
      rw [if_neg hempty, if_neg hpasses, List.append_nil]
      rfl

theorem reasonsOf_coverage :
    reasonsOf intent proof verdict policy (intent.requiredAccounts.map .coverage) =
      coverageReasons intent proof := by
  rw [reasonsOf, coverageReasons, List.filter_map, List.map_map]
  have hcovered : (fun acct => !proof.coveredAccounts.any fun c => c == acct) =
      fun acct => Decidable.decide (acct ∉ proof.coveredAccounts) := by
    funext acct
    rw [List.any_beq', Bool.eq_iff_iff]
    simp
  rw [hcovered]
  rfl

theorem bind_eq (field : String) (observed : Option String) (intended : String) :
    bind field observed intended =
      if observed ≠ some intended then [factReason field observed intended] else [] := by
  cases observed with
  | none =>
      symm
      apply if_pos
      exact (Option.some_ne_none intended).symm
  | some v =>
      apply if_congr _ rfl rfl
      rw [ne_eq, ne_eq, Option.some.injEq]

theorem toString_amount_injective : Function.Injective (toString : UInt64 → String) := by
  intro a b h
  have htext : Nat.repr a.toNat = Nat.repr b.toNat := h
  rw [Nat.repr_eq_ofList_toDigits, Nat.repr_eq_ofList_toDigits, String.ofList_inj] at htext
  have hvalue := congrArg (Nat.ofDigitChars 10 · 0) htext
  simp only [Nat.ofDigitChars_ten_toDigits] at hvalue
  exact UInt64.toNat_inj.mp hvalue

theorem reasonsOf_recovered (h : proof.factsSource = .producerRecovered) :
    reasonsOf intent proof verdict policy [.vm, .asset, .amount, .recipient, .recovered] =
      bindingReasons intent proof := by
  have hrecovered : ¬Check.Fails intent proof verdict policy .recovered := by
    rintro ⟨hasserted, -⟩
    rw [h] at hasserted
    cases hasserted
  have hamount : proof.amount.map toString ≠ some (toString intent.amount) ↔
      proof.amount ≠ some intent.amount := by
    rw [← Option.map_some]
    exact ((Option.map_injective toString_amount_injective).eq_iff).not
  rw [reasonsOf_cons .vm, reasonsOf_cons .asset, reasonsOf_cons .amount,
    reasonsOf_cons .recipient]
  simp only [reasonsOf_singleton, if_neg hrecovered, List.append_nil]
  rw [bindingReasons, vmReasons, bind_eq, bind_eq, bind_eq, List.append_assoc, List.append_assoc]
  simp only [Check.Fails, h, true_and, hamount]
  rfl

theorem reasonsOf_asserted (h : proof.factsSource = .callerAsserted) :
    reasonsOf intent proof verdict policy [.vm, .asset, .amount, .recipient, .recovered] =
      if policy.requireRecoveredFacts = true then [unboundNote] else [] := by
  rw [reasonsOf_cons .vm, reasonsOf_cons .asset, reasonsOf_cons .amount,
    reasonsOf_cons .recipient]
  simp only [reasonsOf_singleton, Check.Fails, h, true_and]
  rfl

theorem reasonsOf_checks :
    reasonsOf intent proof verdict policy (checks intent verdict) =
      unverifiableReasons proof ++ executedReasons proof policy ++
        invariantReasons verdict policy ++ coverageReasons intent proof ++
        (intentBinding intent proof policy).1 := by
  have hbound : reasonsOf intent proof verdict policy
      [.vm, .asset, .amount, .recipient, .recovered] = (intentBinding intent proof policy).1 := by
    rw [intentBinding]
    cases hsource : proof.factsSource with
    | producerRecovered => exact reasonsOf_recovered hsource
    | callerAsserted =>
        rw [reasonsOf_asserted hsource]
        dsimp only
        split <;> rfl
  rw [checks, reasonsOf_append, reasonsOf_append, reasonsOf_append, reasonsOf_cons .verifiable,
    reasonsOf_verifiable, reasonsOf_executed, reasonsOf_invariant, reasonsOf_coverage, hbound]

/-- `decide` is its list of checks: it settles when none fails and otherwise
holds with the reasons of those that do. -/
theorem decide_eq :
    decide intent proof verdict policy =
      if failedChecks intent proof verdict policy = [] then
        .settle (intentBinding intent proof policy).2
      else .hold ((failedChecks intent proof verdict policy).map
        (Check.reason intent proof verdict policy)) := by
  have hreasons := @reasonsOf_checks intent proof verdict policy
  rw [reasonsOf] at hreasons
  rw [decide]
  dsimp only
  rw [← hreasons, failedChecks]
  apply if_congr _ rfl rfl
  rw [List.isEmpty_iff, List.map_eq_nil_iff]

theorem failedChecks_eq_nil :
    failedChecks intent proof verdict policy = [] ↔
      ∀ c ∈ checks intent verdict, ¬c.Fails intent proof verdict policy := by
  simp [failedChecks]

theorem invariant_passes_iff :
    (∀ c ∈ verdict.findings.map Check.finding ++ [.level],
        ¬c.Fails intent proof verdict policy) ↔
      verdict.level ≤ policy.maxSettleSeverity := by
  rw [← invariantReasons_eq_nil, ← @reasonsOf_invariant intent proof verdict policy, reasonsOf,
    List.map_eq_nil_iff, List.filter_eq_nil_iff]
  simp only [decide_eq_true_eq]

/-- The facts' checks pass exactly when they are the producer's and equal to
the intent's, or when asserted facts will do. -/
theorem facts_pass_iff :
    (∀ c ∈ ([.vm, .asset, .amount, .recipient, .recovered] : List Check),
        ¬c.Fails intent proof verdict policy) ↔
      (proof.factsSource = .producerRecovered ∧ proof.vm = intent.vm ∧
          proof.asset = some intent.asset ∧ proof.amount = some intent.amount ∧
          proof.recipient = some intent.recipient) ∨
        (proof.factsSource = .callerAsserted ∧ policy.requireRecoveredFacts = false) := by
  simp only [List.forall_mem_cons, Check.Fails]
  cases proof.factsSource with
  | producerRecovered => simp
  | callerAsserted => simp

theorem isSettle_decide_iff :
    (decide intent proof verdict policy).isSettle = true ↔
      proof.unverifiableReason = none ∧
        (policy.requireExecuted = true → proof.executed = true) ∧
        verdict.level ≤ policy.maxSettleSeverity ∧
        (∀ acct ∈ intent.requiredAccounts, acct ∈ proof.coveredAccounts) ∧
        ((proof.factsSource = .producerRecovered ∧ proof.vm = intent.vm ∧
            proof.asset = some intent.asset ∧ proof.amount = some intent.amount ∧
            proof.recipient = some intent.recipient) ∨
          (proof.factsSource = .callerAsserted ∧ policy.requireRecoveredFacts = false)) := by
  have hsettle : (decide intent proof verdict policy).isSettle = true ↔
      failedChecks intent proof verdict policy = [] := by
    rw [decide_eq]
    split <;> rename_i hfailed
    · exact iff_of_true rfl hfailed
    · exact iff_of_false Bool.false_ne_true hfailed
  have hleg : (∀ c ∈ ([.verifiable, .executed] : List Check),
      ¬c.Fails intent proof verdict policy) ↔
        proof.unverifiableReason = none ∧
          (policy.requireExecuted = true → proof.executed = true) := by
    simp [Check.Fails]
  have hcoverage : (∀ c ∈ intent.requiredAccounts.map Check.coverage,
      ¬c.Fails intent proof verdict policy) ↔
        ∀ acct ∈ intent.requiredAccounts, acct ∈ proof.coveredAccounts := by
    simp [Check.Fails]
  rw [hsettle, failedChecks_eq_nil, checks]
  simp only [List.forall_mem_append]
  rw [← List.forall_mem_append, hleg, invariant_passes_iff, hcoverage, facts_pass_iff]
  simp only [and_assoc]

end

/-- The single-leg gate settles exactly when every check passes; a settle
without a caveat is one whose value was bound, and any other has one caveat;
a hold has the reasons of the checks that fail, each once and in order. -/
theorem decide_exact (intent : SettlementIntent) (proof : ReexecProof)
    (verdict : InvariantVerdict) (policy : GatePolicy) :
    ((decide intent proof verdict policy).isSettle = true ↔
        proof.unverifiableReason = none ∧
          (policy.requireExecuted = true → proof.executed = true) ∧
          verdict.level ≤ policy.maxSettleSeverity ∧
          (∀ acct ∈ intent.requiredAccounts, acct ∈ proof.coveredAccounts) ∧
          ((proof.factsSource = .producerRecovered ∧ proof.vm = intent.vm ∧
              proof.asset = some intent.asset ∧ proof.amount = some intent.amount ∧
              proof.recipient = some intent.recipient) ∨
            (proof.factsSource = .callerAsserted ∧ policy.requireRecoveredFacts = false))) ∧
      (∀ caveats, decide intent proof verdict policy = .settle caveats →
        (caveats = [] ↔ proof.factsSource = .producerRecovered) ∧
          (proof.factsSource ≠ .producerRecovered → caveats.length = 1)) ∧
      ∀ reasons, decide intent proof verdict policy = .hold reasons →
        reasons ≠ [] ∧
          reasons = ((checks intent verdict).filter fun c =>
            c.Fails intent proof verdict policy).map (Check.reason intent proof verdict policy) := by
  refine ⟨isSettle_decide_iff, ?_, ?_⟩
  · intro caveats h
    have hsettle : (decide intent proof verdict policy).isSettle = true := by
      rw [h]
      rfl
    obtain ⟨-, -, -, -, hfacts⟩ := isSettle_decide_iff.mp hsettle
    rw [decide_eq] at h
    split at h
    · obtain rfl := LiquetDecision.settle.inj h
      rw [intentBinding]
      rcases hfacts with ⟨hsource, -⟩ | ⟨hsource, hrecovered⟩
      · simp [hsource]
      · simp [hsource, hrecovered]
    · cases h
  · intro reasons h
    rw [decide_eq] at h
    split at h <;> rename_i hfailed
    · cases h
    · obtain rfl := LiquetDecision.hold.inj h
      exact ⟨fun hnil => hfailed (List.map_eq_nil_iff.mp hnil), rfl⟩

/-! ### Dangerous findings -/

/-- A finding above the threshold makes both gates hold, and every such finding
is among their reasons. -/
def DangerousFindingsHold (intent : SettlementIntent) (leg : ReexecProof) (proof : CrossVmProof)
    (verdict : InvariantVerdict) (policy : GatePolicy) : Prop :=
  (∃ f ∈ verdict.findings, policy.maxSettleSeverity < f.severity) →
    (∃ reasons, decide intent leg verdict policy = .hold reasons ∧
        ∀ f ∈ verdict.findings, policy.maxSettleSeverity < f.severity →
          findingReason f ∈ reasons) ∧
      ∃ reasons, decideCrossvm proof verdict policy = .hold reasons ∧
        ∀ f ∈ verdict.findings, policy.maxSettleSeverity < f.severity →
          findingReason f ∈ reasons

section

variable {intent : SettlementIntent} {leg : ReexecProof} {proof : CrossVmProof}
  {verdict : InvariantVerdict} {policy : GatePolicy}

theorem findingReason_mem_invariantReasons {f : Finding}
    (hlevel : policy.maxSettleSeverity < verdict.level) (hf : f ∈ verdict.findings)
    (hseverity : policy.maxSettleSeverity < f.severity) :
    findingReason f ∈ invariantReasons verdict policy := by
  have hmem : f ∈ verdict.findings.filter (policy.maxSettleSeverity < ·.severity) :=
    List.mem_filter.mpr ⟨hf, decide_eq_true hseverity⟩
  rw [invariantReasons_eq, if_neg (not_le.mpr hlevel), if_neg (List.ne_nil_of_mem hmem)]
  exact List.mem_map_of_mem hmem

theorem findingReason_notMem_reconcileReasons (f : Finding) :
    findingReason f ∉ reconcileReasons proof := by
  have hbracket : (findingReason f).toList.head? = some '[' := by
    simp [findingReason]
  have hne {text : String} (htext : text.toList.head? = some 'c') (rest : String) :
      findingReason f ≠ text ++ rest := by
    intro heq
    rw [heq, String.toList_append, List.head?_append, htext, Option.some_or] at hbracket
    cases hbracket
  rw [reconcileReasons]
  cases proof.reconcile with
  | matched => exact List.not_mem_nil
  | halfOpen =>
      rw [List.mem_singleton]
      exact hne rfl _
  | mismatch =>
      rw [List.mem_singleton]
      exact hne rfl _
  | unverifiable =>
      rw [List.mem_singleton]
      exact hne rfl _

theorem exists_hold_decide (hlevel : policy.maxSettleSeverity < verdict.level)
    (hdangerous : ∃ f ∈ verdict.findings, policy.maxSettleSeverity < f.severity) :
    ∃ reasons, decide intent leg verdict policy = .hold reasons ∧
      ∀ f ∈ verdict.findings, policy.maxSettleSeverity < f.severity →
        findingReason f ∈ reasons := by
  have hfailed (f : Finding) (hf : f ∈ verdict.findings)
      (hseverity : policy.maxSettleSeverity < f.severity) :
      .finding f ∈ failedChecks intent leg verdict policy := by
    rw [failedChecks, List.mem_filter]
    refine ⟨?_, decide_eq_true ⟨hlevel, hseverity⟩⟩
    simp [checks, hf]
  obtain ⟨f, hf, hseverity⟩ := hdangerous
  have hne := List.ne_nil_of_mem (hfailed f hf hseverity)
  refine ⟨_, by rw [decide_eq, if_neg hne], fun g hg hgseverity => ?_⟩
  exact List.mem_map.mpr ⟨.finding g, hfailed g hg hgseverity, rfl⟩

theorem exists_hold_decideCrossvm (hlevel : policy.maxSettleSeverity < verdict.level) :
    ∃ reasons, decideCrossvm proof verdict policy = .hold reasons ∧
      ∀ f ∈ verdict.findings, policy.maxSettleSeverity < f.severity →
        findingReason f ∈ reasons := by
  cases h : decideCrossvm proof verdict policy with
  | settle caveats =>
      have hsettle : (decideCrossvm proof verdict policy).isSettle = true := by
        rw [h]
        rfl
      exact absurd (isSettle_decideCrossvm_iff.mp hsettle).2 (not_le.mpr hlevel)
  | hold reasons =>
      obtain ⟨-, rfl⟩ := decideCrossvm_eq_hold h
      refine ⟨_, rfl, fun f hf hseverity => ?_⟩
      exact List.mem_append_right _ (findingReason_mem_invariantReasons hlevel hf hseverity)

theorem findingReason_notMem_decideCrossvm {reasons : List String} (f : Finding)
    (hlevel : verdict.level ≤ policy.maxSettleSeverity)
    (h : decideCrossvm proof verdict policy = .hold reasons) : findingReason f ∉ reasons := by
  obtain ⟨-, rfl⟩ := decideCrossvm_eq_hold h
  rw [invariantReasons_eq_nil.mpr hlevel, List.append_nil]
  exact findingReason_notMem_reconcileReasons f

end

/-- The gates go by the stated level: a dangerous finding holds exactly under a
level above the threshold too, and so under every level that is, as documented,
no lower than its findings. -/
theorem dangerousFindingsHold_iff (intent : SettlementIntent) (leg : ReexecProof)
    (proof : CrossVmProof) (verdict : InvariantVerdict) (policy : GatePolicy) :
    (DangerousFindingsHold intent leg proof verdict policy ↔
        policy.maxSettleSeverity < verdict.level ∨
          ∀ f ∈ verdict.findings, f.severity ≤ policy.maxSettleSeverity) ∧
      ((∀ f ∈ verdict.findings, f.severity ≤ verdict.level) →
        DangerousFindingsHold intent leg proof verdict policy) := by
  have hiff : DangerousFindingsHold intent leg proof verdict policy ↔
      policy.maxSettleSeverity < verdict.level ∨
        ∀ f ∈ verdict.findings, f.severity ≤ policy.maxSettleSeverity := by
    constructor
    · intro h
      by_contra hnot
      rw [not_or, not_lt] at hnot
      obtain ⟨hlevel, hfindings⟩ := hnot
      push Not at hfindings
      obtain ⟨f, hf, hseverity⟩ := hfindings
      obtain ⟨-, reasons, hhold, hreported⟩ := h ⟨f, hf, hseverity⟩
      exact findingReason_notMem_decideCrossvm f hlevel hhold (hreported f hf hseverity)
    · rintro (hlevel | hfindings) hdangerous
      · exact ⟨exists_hold_decide hlevel hdangerous, exists_hold_decideCrossvm hlevel⟩
      · obtain ⟨f, hf, hseverity⟩ := hdangerous
        exact absurd (hfindings f hf) (not_le.mpr hseverity)
  refine ⟨hiff, fun hdocumented => hiff.mpr ?_⟩
  by_cases hlevel : policy.maxSettleSeverity < verdict.level
  · exact .inl hlevel
  · exact .inr fun f hf => (hdocumented f hf).trans (not_lt.mp hlevel)

/-- A red finding under a green level is settled on. -/
theorem settles_red_finding_under_green_level :
    ¬DangerousFindingsHold
      { vm := .svm, asset := "mint", amount := 25, recipient := "recipient", requiredAccounts := [] }
      { vm := .svm, executed := true, poststateDigest := "svm-dig", coveredAccounts := [],
        factsSource := .callerAsserted, asset := none, amount := none, recipient := none,
        unverifiableReason := none }
      { reconcile := .matched, reasons := [], legs := [], claimHash := "claim-abc",
        settlementId := "settlement-1" }
      { level := .green,
        findings := [{ severity := .red, code := "F2-delegate", account := none,
                       message := "delegate granted" }] } .default := by
  intro h
  obtain ⟨-, reasons, hhold, -⟩ := h ⟨_, List.mem_singleton_self _, by decide⟩
  cases hhold

end Liquet.Gate
