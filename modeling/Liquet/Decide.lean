import Mathlib.Data.List.Basic
import Liquet.Json.Content
import Liquet.Seam

/-!
The gate of `src/decide.rs`: an intent and two seam slots in, one settle or
hold decision out. The source pushes reasons onto one growing vector; here
every check is the list of reasons it pushes, and the vector is their
concatenation in the source's order.
-/

namespace Liquet

open Codec

/-- Policy that turns the intent and the two slots into a decision. -/
structure GatePolicy where
  maxSettleSeverity : Severity
  requireExecuted : Bool
  requireRecoveredFacts : Bool
  deriving DecidableEq, Repr

/-- `GatePolicy::default`: Green and Info settle, the leg must have executed,
caller-asserted facts settle with a caveat. -/
def GatePolicy.default : GatePolicy :=
  { maxSettleSeverity := .info, requireExecuted := true, requireRecoveredFacts := false }

/-- Does money move? `hold` carries every reason, `settle` the checks that
could not be performed. -/
inductive LiquetDecision
  | settle (caveats : List String)
  | hold (reasons : List String)
  deriving DecidableEq, Repr

def LiquetDecision.isSettle : LiquetDecision → Bool
  | .settle _ => true
  | .hold _ => false

@[simp] theorem LiquetDecision.isSettle_settle (caveats : List String) :
    (LiquetDecision.settle caveats).isSettle = true := rfl

@[simp] theorem LiquetDecision.isSettle_hold (reasons : List String) :
    (LiquetDecision.hold reasons).isSettle = false := rfl

/-! ### JSON

`#[serde(tag = "decision", rename_all = "lowercase")]`, with an empty list of
caveats left out. The tag can stand behind the other members, so all of them are
buffered before any is looked at. -/

def LiquetDecision.write : LiquetDecision → Json
  | .settle caveats =>
      .obj (("decision", .str "settle") ::
        skipIf caveats.isEmpty ("caveats", (Codec.list Codec.string).write caveats))
  | .hold reasons =>
      .obj [("decision", .str "hold"), ("reasons", (Codec.list Codec.string).write reasons)]

def LiquetDecision.readContent (j : Json) : Option LiquetDecision := do
  let (variant, content) ← readTag "decision" j
  if variant = "settle" then
    let fields ← structFields ["caveats"] content
    let caveats ← defaulted (Codec.list Codec.string).read [] "caveats" fields
    some (.settle caveats)
  else if variant = "hold" then
    let fields ← structFields ["reasons"] content
    let reasons ← required (Codec.list Codec.string).read "reasons" fields
    some (.hold reasons)
  else none

/-- The derived reader, in a document that has this much depth remaining. -/
def LiquetDecision.read (depth : ℕ) (j : Json) : Option LiquetDecision :=
  if j.buffers depth then LiquetDecision.readContent j else none

theorem LiquetDecision.numberFree_write (d : LiquetDecision) : d.write.NumberFree := by
  cases d with
  | settle caveats =>
      have hlist := (Codec.list Codec.string).numberFree caveats
      cases hempty : caveats.isEmpty <;>
        simp [LiquetDecision.write, hempty, Json.NumberFree, Json.NumberFreeMembers, hlist]
  | hold reasons =>
      have hlist := (Codec.list Codec.string).numberFree reasons
      simp [LiquetDecision.write, Json.NumberFree, Json.NumberFreeMembers, hlist]

theorem LiquetDecision.nesting_write_le (d : LiquetDecision) : d.write.nesting ≤ 2 := by
  have hlist (ss : List String) : ((Codec.list Codec.string).write ss).nesting = 1 :=
    congrArg (· + 1) (Json.nestingElems_map_str ss)
  cases d with
  | settle caveats =>
      cases hempty : caveats.isEmpty <;>
        simp [LiquetDecision.write, hempty, Json.nesting, Json.nestingMembers, hlist]
  | hold reasons => simp [LiquetDecision.write, Json.nesting, Json.nestingMembers, hlist]

theorem LiquetDecision.readContent_write (d : LiquetDecision) :
    LiquetDecision.readContent d.write = some d := by
  cases d with
  | settle caveats =>
      cases caveats with
      | nil =>
          simp [LiquetDecision.write, LiquetDecision.readContent, readTag, structFields, defaulted]
      | cons c cs =>
          have hlist := (Codec.list Codec.string).read_write (c :: cs)
          simp [LiquetDecision.write, LiquetDecision.readContent, readTag, structFields, defaulted,
            hlist]
  | hold reasons =>
      have hlist := (Codec.list Codec.string).read_write reasons
      simp [LiquetDecision.write, LiquetDecision.readContent, readTag, structFields, required,
        hlist]

theorem LiquetDecision.read_write {depth : ℕ} (hdepth : 2 < depth) (d : LiquetDecision) :
    LiquetDecision.read depth d.write = some d := by
  have hnesting := d.nesting_write_le
  have hbuffers : d.write.buffers depth = true :=
    (Json.buffers_iff_nesting_lt _ d.numberFree_write (by omega)).mpr (by omega)
  rw [LiquetDecision.read, if_pos hbuffers, LiquetDecision.readContent_write]

def LiquetDecision.codec : Codec LiquetDecision where
  write := LiquetDecision.write
  read := LiquetDecision.read Json.recursionLimit
  numberFree := LiquetDecision.numberFree_write
  read_write := LiquetDecision.read_write (by decide)

namespace Gate

/-! ### Checks both gates make -/

def severityDebug : Severity → String
  | .green => "Green"
  | .info => "Info"
  | .yellow => "Yellow"
  | .red => "Red"

def findingReason (f : Finding) : String := "[" ++ f.code ++ "] " ++ f.message

/-- The reason when no single finding exceeds the threshold. -/
def levelReason (verdict : InvariantVerdict) (policy : GatePolicy) : String :=
  "invariant level " ++ severityDebug verdict.level ++ " exceeds settle threshold " ++
    severityDebug policy.maxSettleSeverity

def offending (verdict : InvariantVerdict) (policy : GatePolicy) : List Finding :=
  verdict.findings.filter fun f => f.severity > policy.maxSettleSeverity

/-- The invariant screen, which `decide` and `decide_crossvm` write alike. -/
def invariantReasons (verdict : InvariantVerdict) (policy : GatePolicy) : List String :=
  if verdict.level > policy.maxSettleSeverity then
    if (offending verdict policy).isEmpty then [levelReason verdict policy]
    else (offending verdict policy).map findingReason
  else []

/-! ### The single-leg gate -/

def vmDebug : Vm → String
  | .svm => "Svm"
  | .evm => "Evm"

/-- Bind one producer-recovered fact against the intent; a missing fact is a
reason to hold. -/
def bind (field : String) (observed : Option String) (intended : String) : List String :=
  match observed with
  | some v =>
      if v ≠ intended then
        ["executed " ++ field ++ " " ++ v ++ " does not match intent " ++ intended]
      else []
  | none => ["producer-recovered proof is missing " ++ field ++ " required for binding"]

def unverifiableReasons (proof : ReexecProof) : List String :=
  match proof.unverifiableReason with
  | some why => ["re-exec unverifiable: " ++ why]
  | none => []

def executedReasons (proof : ReexecProof) (policy : GatePolicy) : List String :=
  if policy.requireExecuted && !proof.executed then
    ["re-exec proof shows the leg did not execute"]
  else []

def coverageReason (acct : String) : String :=
  "required account " ++ acct ++ " was not in the producer's scope (coverage gap)"

def coverageReasons (intent : SettlementIntent) (proof : ReexecProof) : List String :=
  (intent.requiredAccounts.filter fun acct =>
    !(proof.coveredAccounts.any fun c => c == acct)).map coverageReason

def vmReasons (intent : SettlementIntent) (proof : ReexecProof) : List String :=
  if proof.vm ≠ intent.vm then
    ["executed vm " ++ vmDebug proof.vm ++ " does not match intent vm " ++ vmDebug intent.vm]
  else []

/-- The four producer-recovered facts against the intent. An amount is
compared through its decimal text. -/
def bindingReasons (intent : SettlementIntent) (proof : ReexecProof) : List String :=
  vmReasons intent proof ++ bind "asset" proof.asset intent.asset ++
    bind "amount" (proof.amount.map toString) (toString intent.amount) ++
    bind "recipient" proof.recipient intent.recipient

def unboundNote : String :=
  "intent-binding unverified: producer could not recover transfer facts (Phase 1, Custos-only)"

def intentBinding (intent : SettlementIntent) (proof : ReexecProof) (policy : GatePolicy) :
    List String × List String :=
  match proof.factsSource with
  | .producerRecovered => (bindingReasons intent proof, [])
  | .callerAsserted =>
      if policy.requireRecoveredFacts then ([unboundNote], []) else ([], [unboundNote])

def decide (intent : SettlementIntent) (proof : ReexecProof) (verdict : InvariantVerdict)
    (policy : GatePolicy) : LiquetDecision :=
  let (bindReasons, caveats) := intentBinding intent proof policy
  let reasons := unverifiableReasons proof ++ executedReasons proof policy ++
    invariantReasons verdict policy ++ coverageReasons intent proof ++ bindReasons
  if reasons.isEmpty then .settle caveats else .hold reasons

/-! ### The cross-VM gate -/

def joinedReasons (proof : CrossVmProof) : String := String.intercalate "; " proof.reasons

/-- Slot 1: only `Matched` is safe to release. -/
def reconcileReasons (proof : CrossVmProof) : List String :=
  match proof.reconcile with
  | .matched => []
  | .halfOpen =>
      ["cross-VM settlement half-open — exactly one leg settled (funds in-flight): " ++
        joinedReasons proof]
  | .mismatch => ["cross-VM mismatch vs intent: " ++ joinedReasons proof]
  | .unverifiable => ["cross-VM leg unverifiable: " ++ joinedReasons proof]

def decideCrossvm (proof : CrossVmProof) (invariant : InvariantVerdict) (policy : GatePolicy) :
    LiquetDecision :=
  let reasons := reconcileReasons proof ++ invariantReasons invariant policy
  if reasons.isEmpty then .settle [] else .hold reasons

/-! ### What the checks say -/

section

variable {intent : SettlementIntent} {leg : ReexecProof} {proof : CrossVmProof}
  {verdict : InvariantVerdict} {policy : GatePolicy}

@[simp] theorem invariantReasons_eq_nil :
    invariantReasons verdict policy = [] ↔ verdict.level ≤ policy.maxSettleSeverity := by
  rw [invariantReasons]
  split <;> rename_i hlevel
  · have hnot : ¬verdict.level ≤ policy.maxSettleSeverity := not_le.mpr hlevel
    split <;> rename_i hoff
    · simp [hnot]
    · simpa [hnot] using hoff
  · simpa using not_lt.mp hlevel

@[simp] theorem reconcileReasons_eq_nil :
    reconcileReasons proof = [] ↔ proof.reconcile = .matched := by
  rw [reconcileReasons]
  cases proof.reconcile <;> simp

/-- A cross-VM settlement is released exactly when the reconcile verdict is
`Matched` and the invariant level within the threshold. Neither the legs nor
the other two fields of the policy are looked at. -/
theorem isSettle_decideCrossvm_iff :
    (decideCrossvm proof verdict policy).isSettle = true ↔
      proof.reconcile = .matched ∧ verdict.level ≤ policy.maxSettleSeverity := by
  rw [decideCrossvm, ← reconcileReasons_eq_nil, ← invariantReasons_eq_nil]
  simp only [List.isEmpty_iff, List.append_eq_nil_iff]
  split <;> rename_i hempty
  · exact iff_of_true rfl hempty
  · exact iff_of_false Bool.false_ne_true hempty

theorem decideCrossvm_eq_settle {caveats : List String}
    (h : decideCrossvm proof verdict policy = .settle caveats) : caveats = [] := by
  unfold decideCrossvm at h
  dsimp only at h
  split at h
  · exact (LiquetDecision.settle.inj h).symm
  · cases h

theorem decideCrossvm_eq_hold {reasons : List String}
    (h : decideCrossvm proof verdict policy = .hold reasons) :
    reasons ≠ [] ∧ reasons = reconcileReasons proof ++ invariantReasons verdict policy := by
  unfold decideCrossvm at h
  dsimp only at h
  split at h <;> rename_i hempty
  · cases h
  · obtain rfl := LiquetDecision.hold.inj h
    refine ⟨?_, rfl⟩
    rwa [List.isEmpty_iff] at hempty

/-! What a cross-VM hold says. -/

theorem infix_intercalate {α : Type} {sep l : List α} {ls : List (List α)} (h : l ∈ ls) :
    l <:+: List.intercalate sep ls := by
  induction ls with
  | nil => cases h
  | cons head tail ih =>
      by_cases htail : tail = []
      · subst htail
        obtain rfl := List.mem_singleton.mp h
        simp
      · rw [List.intercalate_cons_of_ne_nil htail]
        rcases List.mem_cons.mp h with rfl | h
        · exact ⟨[], sep ++ List.intercalate sep tail, by simp⟩
        · exact (ih h).trans (List.suffix_append _ _).isInfix

/-- Slot 1 adds one reason to a hold, with every reason of the proof in it,
unless the verdict is `Matched`. -/
theorem reconcileReasons_of_ne_matched (h : proof.reconcile ≠ .matched) :
    ∃ entry, reconcileReasons proof = [entry] ∧
      ∀ r ∈ proof.reasons, r.toList <:+: entry.toList := by
  have hentry (text r : String) (hr : r ∈ proof.reasons) :
      r.toList <:+: (text ++ joinedReasons proof).toList := by
    rw [String.toList_append, joinedReasons, String.toList_intercalate]
    apply (infix_intercalate (List.mem_map_of_mem hr)).trans
    exact (List.suffix_append _ _).isInfix
  rw [reconcileReasons]
  cases hreconcile : proof.reconcile with
  | matched => exact absurd hreconcile h
  | halfOpen => exact ⟨_, rfl, fun r hr => hentry _ r hr⟩
  | mismatch => exact ⟨_, rfl, fun r hr => hentry _ r hr⟩
  | unverifiable => exact ⟨_, rfl, fun r hr => hentry _ r hr⟩

theorem invariantReasons_eq :
    invariantReasons verdict policy =
      if verdict.level ≤ policy.maxSettleSeverity then []
      else if verdict.findings.filter (policy.maxSettleSeverity < ·.severity) = [] then
        [levelReason verdict policy]
      else
        (verdict.findings.filter (policy.maxSettleSeverity < ·.severity)).map fun f =>
          "[" ++ f.code ++ "] " ++ f.message := by
  rw [invariantReasons]
  by_cases hlevel : verdict.level ≤ policy.maxSettleSeverity
  · rw [if_neg (not_lt.mpr hlevel), if_pos hlevel]
  · rw [if_pos (not_le.mp hlevel), if_neg hlevel]
    simp only [List.isEmpty_iff]
    rfl

/-- The conditions the policy sets for every leg money is released on. -/
def LegMeets (policy : GatePolicy) (leg : ReexecProof) : Prop :=
  leg.unverifiableReason = none ∧ (policy.requireExecuted = true → leg.executed = true) ∧
    (policy.requireRecoveredFacts = true → leg.factsSource = .producerRecovered)

instance (policy : GatePolicy) (leg : ReexecProof) : Decidable (LegMeets policy leg) :=
  inferInstanceAs (Decidable (_ ∧ _))

theorem legMeets_of_isSettle_decide
    (h : (decide intent leg verdict policy).isSettle = true) : LegMeets policy leg := by
  rw [decide] at h
  dsimp only at h
  split at h <;> rename_i hreasons
  · simp only [List.isEmpty_iff, List.append_eq_nil_iff] at hreasons
    obtain ⟨⟨⟨⟨hunverifiable, hexecuted⟩, -⟩, -⟩, hbinding⟩ := hreasons
    refine ⟨?_, ?_, ?_⟩
    · unfold unverifiableReasons at hunverifiable
      split at hunverifiable
      · cases hunverifiable
      · assumption
    · intro hrequire
      by_contra hnot
      simp [executedReasons, hrequire, hnot] at hexecuted
    · intro hrequire
      by_contra hnot
      have hasserted : leg.factsSource = .callerAsserted := by
        cases hsource : leg.factsSource with
        | producerRecovered => exact absurd hsource hnot
        | callerAsserted => rfl
      simp [intentBinding, hasserted, hrequire] at hbinding
  · cases h

end

end Gate

end Liquet
