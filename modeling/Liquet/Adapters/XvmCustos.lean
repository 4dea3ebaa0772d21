import Liquet.Adapters.Custos
import Liquet.Library.Result

/-!
The adapter `src/adapters/xvm_custos.rs`: Custos replays the very transaction
probatio re-executed and screens it, provided the replay moved what the leg
says it moved.
-/

namespace Liquet.XvmCustos

open CustosEngine Probatio Result

/-! ### Amounts -/

def saturatingSub (a b : UInt64) : UInt64 := if b ≤ a then a - b else 0

@[simp] theorem toNat_saturatingSub (a b : UInt64) :
    (saturatingSub a b).toNat = a.toNat - b.toNat := by
  unfold saturatingSub
  split <;> rename_i h
  · exact UInt64.toNat_sub_of_le a b h
  · have hlt : a.toNat < b.toNat := UInt64.lt_iff_toNat_lt.mp (UInt64.not_le.mp h)
    rw [UInt64.toNat_zero]
    omega

/-! ### The screen -/

section

variable (X : Producers)

/-- The loop that seeds the accounts of the prestate, in their order. -/
def seedPrestate : List (Pubkey × X.Account) → X.Svm → Except String X.Svm
  | [], svm => .ok svm
  | (addr, account) :: rest, svm => do
      let svm ← (X.setAccount addr account svm).mapError fun e =>
        "seed prestate " ++ X.pubkeyText addr ++ ": " ++ e
      seedPrestate rest svm

/-- The captured amount of the recipient's token account in one phase. -/
def recipientAmount (snapshots : AccountMap) (recipient : Pubkey) (phase : String) :
    Except String UInt64 :=
  okOr (((snapshots.snapshot recipient).bind X.parseTokenAccount).map TokenAccount.amount)
    ("Custos replay has no decodable recipient token account " ++ phase)

def divergedText (delivered expected : UInt64) (executed : Bool) : String :=
  "replay diverged from leg: Custos delivered=" ++ toString delivered ++ ", Probatio delivered=" ++
    toString expected ++ ", Probatio executed=" ++ toString executed

def invariantFromSvmLeg (recon : SvmReconstruction X.Account X.Transaction) :
    Except String InvariantVerdict := do
  let svm ← seedPrestate X recon.prestate X.newSvm
  let svm ← (X.airdrop recon.payer recon.payerAirdropLamports svm).mapError ("airdrop payer: " ++ ·)
  let outcome := X.capture svm recon.transaction recon.payer recon.watch X.splTokenId X.systemId
  if !outcome.success then .error "Custos replay transaction failed"
  else do
    -- success alone says nothing of delivery: bind the leg through the recipient's balance
    let recipient ← okOr recon.watch[1]?
      "probatio delivery leg exposed no recipient watch account"
    let before ← recipientAmount X outcome.pre recipient "before"
    let after ← recipientAmount X outcome.post recipient "after"
    let delivered := saturatingSub after before
    let expected := recon.leg.amount.getD 0
    if delivered ≠ expected ∨ decide (0 < delivered) ≠ recon.leg.executed then
      .error (divergedText delivered expected recon.leg.executed)
    else .ok (Custos.verdictFromCustos X (X.evaluate outcome X.defaultBank))

end

/-! ### What the screen establishes -/

section

variable {X : Producers} {recon : SvmReconstruction X.Account X.Transaction}

/-- The accounts seed, the payer is funded, and Custos captures `outcome`. -/
def Replays (X : Producers) (recon : SvmReconstruction X.Account X.Transaction)
    (outcome : Outcome) : Prop :=
  ∃ seeded funded, seedPrestate X recon.prestate X.newSvm = .ok seeded ∧
    X.airdrop recon.payer recon.payerAirdropLamports seeded = .ok funded ∧
    X.capture funded recon.transaction recon.payer recon.watch X.splTokenId X.systemId = outcome

/-- The second watched account decodes as a token account before and after. -/
def RecipientHolds (X : Producers) (recon : SvmReconstruction X.Account X.Transaction)
    (outcome : Outcome) (before after : UInt64) : Prop :=
  ∃ recipient, recon.watch[1]? = some recipient ∧
    (∃ account, (outcome.pre.snapshot recipient).bind X.parseTokenAccount = some account ∧
      account.amount = before) ∧
    ∃ account, (outcome.post.snapshot recipient).bind X.parseTokenAccount = some account ∧
      account.amount = after

/-- The balances moved by what the leg recovered, and moved at all exactly when
the leg says it executed. -/
def DeliversLeg (leg : ReconstructedLeg) (before after : UInt64) : Prop :=
  saturatingSub after before = leg.amount.getD 0 ∧
    (0 < saturatingSub after before ↔ leg.executed = true)

theorem recipientAmount_eq_ok {snapshots : AccountMap} {recipient : Pubkey} {phase : String}
    {amount : UInt64} : recipientAmount X snapshots recipient phase = .ok amount ↔
      ∃ account, (snapshots.snapshot recipient).bind X.parseTokenAccount = some account ∧
        account.amount = amount := by
  rw [recipientAmount, okOr_eq_ok, Option.map_eq_some_iff]

/-- The screen answers exactly when every stage succeeds, and then with the
mapped verdict of the captured outcome. -/
theorem invariantFromSvmLeg_eq_ok {v : InvariantVerdict} :
    invariantFromSvmLeg X recon = .ok v ↔
      ∃ outcome before after, Replays X recon outcome ∧ outcome.success = true ∧
        RecipientHolds X recon outcome before after ∧ DeliversLeg recon.leg before after ∧
        v = Custos.verdictFromCustos X (X.evaluate outcome X.defaultBank) := by
  rw [invariantFromSvmLeg]
  constructor
  · intro h
    obtain ⟨seeded, hseed, h⟩ := bind_eq_ok.mp h
    obtain ⟨funded, hfund, h⟩ := bind_eq_ok.mp h
    obtain ⟨hsuccess, h⟩ := guard_eq_ok.mp h
    obtain ⟨recipient, hrecipient, h⟩ := bind_eq_ok.mp h
    obtain ⟨before, hbefore, h⟩ := bind_eq_ok.mp h
    obtain ⟨after, hafter, h⟩ := bind_eq_ok.mp h
    obtain ⟨hdelivers, h⟩ := guard_eq_ok.mp h
    rw [not_or, not_not, not_not] at hdelivers
    refine ⟨_, before, after, ⟨seeded, funded, hseed, mapError_eq_ok.mp hfund, rfl⟩,
      by simpa using hsuccess, ⟨recipient, okOr_eq_ok.mp hrecipient,
      recipientAmount_eq_ok.mp hbefore, recipientAmount_eq_ok.mp hafter⟩, ⟨hdelivers.1, ?_⟩,
      (Except.ok.inj h).symm⟩
    rw [← hdelivers.2, decide_eq_true_iff]
  · rintro ⟨outcome, before, after, ⟨seeded, funded, hseed, hfund, rfl⟩, hsuccess,
      ⟨recipient, hrecipient, hbefore, hafter⟩, ⟨hamount, hexecuted⟩, rfl⟩
    apply bind_eq_ok.mpr
    refine ⟨seeded, hseed, bind_eq_ok.mpr ⟨funded, mapError_eq_ok.mpr hfund, ?_⟩⟩
    apply guard_eq_ok.mpr
    refine ⟨by simpa using hsuccess, ?_⟩
    apply bind_eq_ok.mpr
    refine ⟨recipient, okOr_eq_ok.mpr hrecipient, bind_eq_ok.mpr ⟨before,
      recipientAmount_eq_ok.mpr hbefore, bind_eq_ok.mpr ⟨after,
      recipientAmount_eq_ok.mpr hafter, guard_eq_ok.mpr ⟨?_, rfl⟩⟩⟩⟩
    rw [not_or, not_not, not_not]
    refine ⟨hamount, ?_⟩
    rw [Bool.eq_iff_iff, decide_eq_true_iff]
    exact hexecuted

theorem invariantFromSvmLeg_of_failed {outcome : Outcome} (h : Replays X recon outcome)
    (hfailed : outcome.success = false) :
    invariantFromSvmLeg X recon = .error "Custos replay transaction failed" := by
  obtain ⟨seeded, funded, hseed, hfund, rfl⟩ := h
  rw [invariantFromSvmLeg, hseed, bind_ok, hfund]
  show (if !_ then _ else _) = _
  rw [hfailed]
  rfl

/-- An executed leg was delivered to the unit: the balance grew by the amount,
which is not zero, with nothing saturated or wrapped. -/
theorem DeliversLeg.exact {leg : ReconstructedLeg} {before after : UInt64}
    (h : DeliversLeg leg before after) (hexecuted : leg.executed = true) :
    ∃ amount, leg.amount = some amount ∧ 0 < amount.toNat ∧
      after.toNat = before.toNat + amount.toNat := by
  obtain ⟨hamount, hpositive⟩ := h
  have hdelivered : 0 < after.toNat - before.toNat := by
    rw [← toNat_saturatingSub]
    exact UInt64.lt_iff_toNat_lt.mp (hpositive.mpr hexecuted)
  have hnat : after.toNat - before.toNat = (leg.amount.getD 0).toNat := by
    rw [← toNat_saturatingSub, hamount]
  cases hleg : leg.amount with
  | none =>
      rw [hleg, Option.getD_none, UInt64.toNat_zero] at hnat
      omega
  | some amount =>
      rw [hleg, Option.getD_some] at hnat
      exact ⟨amount, rfl, by omega, by omega⟩

theorem invariantFromSvmLeg_of_diverged {outcome : Outcome} {before after : UInt64}
    (hreplays : Replays X recon outcome) (hsuccess : outcome.success = true)
    (hrecipient : RecipientHolds X recon outcome before after)
    (hdiverged : ¬DeliversLeg recon.leg before after) :
    invariantFromSvmLeg X recon = .error
      (divergedText (saturatingSub after before) (recon.leg.amount.getD 0) recon.leg.executed) := by
  obtain ⟨seeded, funded, hseed, hfund, rfl⟩ := hreplays
  obtain ⟨recipient, hwatch, hbefore, hafter⟩ := hrecipient
  have hcheck : saturatingSub after before ≠ recon.leg.amount.getD 0 ∨
      decide (0 < saturatingSub after before) ≠ recon.leg.executed := by
    by_contra hnot
    rw [not_or, not_not, not_not] at hnot
    apply hdiverged
    refine ⟨hnot.1, ?_⟩
    rw [← hnot.2, decide_eq_true_iff]
  rw [invariantFromSvmLeg, hseed, bind_ok, hfund, mapError_ok, bind_ok]
  dsimp only
  rw [hsuccess, if_neg (by simp), hwatch, okOr, bind_ok, recipientAmount_eq_ok.mpr hbefore, bind_ok,
    recipientAmount_eq_ok.mpr hafter, bind_ok]
  exact if_pos hcheck

end

/-! ### What it lets through -/

/-- The screen accepts only an exact reproduction: the replay succeeded, and the
change of the recipient's balance, as a signed number, is the leg's amount and
positive exactly when the leg executed. A balance that went down is a
divergence. -/
def AcceptsOnlyExact (X : Producers) (recon : SvmReconstruction X.Account X.Transaction)
    (outcome : Outcome) (before after : UInt64) : Prop :=
  (∀ v, invariantFromSvmLeg X recon = .ok v →
      outcome.success = true ∧
        (after.toNat : ℤ) - before.toNat = (recon.leg.amount.getD 0).toNat ∧
        (0 < (after.toNat : ℤ) - before.toNat ↔ recon.leg.executed = true)) ∧
    (outcome.success = true → after < before →
      ∃ delivered, invariantFromSvmLeg X recon = .error
        (divergedText delivered (recon.leg.amount.getD 0) recon.leg.executed))

/-- Without saturation a delivery is exact, and with it only a leg that did
nothing passes for delivered. -/
theorem deliversLeg_iff {leg : ReconstructedLeg} {before after : UInt64} :
    DeliversLeg leg before after ↔
      ((after.toNat : ℤ) - before.toNat = (leg.amount.getD 0).toNat ∧
          (0 < (after.toNat : ℤ) - before.toNat ↔ leg.executed = true)) ∨
        after < before ∧ leg.amount.getD 0 = 0 ∧ leg.executed = false := by
  have hpositive : 0 < saturatingSub after before ↔ 0 < after.toNat - before.toNat := by
    rw [← toNat_saturatingSub, UInt64.lt_iff_toNat_lt, UInt64.toNat_zero]
  rw [DeliversLeg, hpositive, ← UInt64.toNat_inj, toNat_saturatingSub, UInt64.lt_iff_toNat_lt,
    ← UInt64.toNat_inj, UInt64.toNat_zero]
  cases leg.executed with
  | false =>
      simp only [Bool.false_eq_true, iff_false, and_true]
      omega
  | true =>
      simp only [iff_true, reduceCtorEq, and_false, or_false]
      omega

/-- On every replay whose recipient decodes, the screen keeps to that except
where the balance went down under a leg that moved nothing and says so. -/
theorem acceptsOnlyExact_iff {X : Producers} {recon : SvmReconstruction X.Account X.Transaction}
    {outcome : Outcome} {before after : UInt64} (hreplays : Replays X recon outcome)
    (hrecipient : RecipientHolds X recon outcome before after) :
    AcceptsOnlyExact X recon outcome before after ↔
      outcome.success = false ∨ before ≤ after ∨ recon.leg.amount.getD 0 ≠ 0 ∨
        recon.leg.executed = true := by
  constructor
  · rintro ⟨-, hdown⟩
    by_contra hnot
    simp only [not_or, UInt64.not_le, not_not, Bool.not_eq_false, Bool.not_eq_true] at hnot
    obtain ⟨hsuccess, hlt, hamount, hexecuted⟩ := hnot
    have haccepted := invariantFromSvmLeg_eq_ok.mpr ⟨outcome, before, after, hreplays, hsuccess,
      hrecipient, deliversLeg_iff.mpr (.inr ⟨hlt, hamount, hexecuted⟩), rfl⟩
    obtain ⟨delivered, hrejected⟩ := hdown hsuccess hlt
    rw [haccepted] at hrejected
    cases hrejected
  · intro h
    have hexact (hsuccess : outcome.success = true) (hdelivers : DeliversLeg recon.leg before after) :
        (after.toNat : ℤ) - before.toNat = (recon.leg.amount.getD 0).toNat ∧
          (0 < (after.toNat : ℤ) - before.toNat ↔ recon.leg.executed = true) := by
      rcases deliversLeg_iff.mp hdelivers with hexact | ⟨hlt, hamount, hexecuted⟩
      · exact hexact
      · -- the one way to saturate, which the condition leaves out
        rcases h with h | h | h | h
        · rw [hsuccess] at h
          cases h
        · exact absurd hlt (UInt64.not_lt.mpr h)
        · exact absurd hamount h
        · rw [hexecuted] at h
          cases h
    refine ⟨fun v hv => ?_, fun hsuccess hlt => ⟨saturatingSub after before, ?_⟩⟩
    · cases hsuccess : outcome.success with
      | false =>
          rw [invariantFromSvmLeg_of_failed hreplays hsuccess] at hv
          cases hv
      | true =>
          by_cases hdelivers : DeliversLeg recon.leg before after
          · exact ⟨rfl, hexact hsuccess hdelivers⟩
          · rw [invariantFromSvmLeg_of_diverged hreplays hsuccess hrecipient hdelivers] at hv
            cases hv
    · apply invariantFromSvmLeg_of_diverged hreplays hsuccess hrecipient
      intro hdelivers
      obtain ⟨hchange, -⟩ := hexact hsuccess hdelivers
      have hnat := UInt64.lt_iff_toNat_lt.mp hlt
      omega

section

open Recorded

def replayInputs (d : Delivery) :
    SvmReconstruction (producers d).Account (producers d).Transaction :=
  { leg := d.leg, prestate := [], payer := sourceAccount, payerAirdropLamports := 1000000000,
    transaction := (), watch := [sourceAccount, recipientAccount] }

theorem replays_replayInputs (d : Delivery) :
    Replays (producers d) (replayInputs d) d.outcome :=
  ⟨(), (), rfl, rfl, rfl⟩

theorem recipientHolds_replayInputs {d : Delivery} {before after : UInt64}
    (hbefore : (d.outcome.pre.snapshot recipientAccount).bind splTokenParse =
      some { amount := before })
    (hafter : (d.outcome.post.snapshot recipientAccount).bind splTokenParse =
      some { amount := after }) :
    RecipientHolds (producers d) (replayInputs d) d.outcome before after :=
  ⟨recipientAccount, rfl, ⟨_, hbefore, rfl⟩, _, hafter, rfl⟩

theorem acceptsOnlyExact_delivered :
    AcceptsOnlyExact (producers delivered) (replayInputs delivered) delivered.outcome 0 25 :=
  (acceptsOnlyExact_iff (replays_replayInputs delivered)
    (recipientHolds_replayInputs (by decide +kernel) (by decide +kernel))).mpr
      (.inr (.inl (by decide)))

/-- A balance that went from 10 to 5 under a leg that moved nothing is let
through. -/
theorem accepts_withdrawn :
    ¬∀ outcome before after,
      Replays (producers withdrawn) (replayInputs withdrawn) outcome →
      RecipientHolds (producers withdrawn) (replayInputs withdrawn) outcome before after →
      AcceptsOnlyExact (producers withdrawn) (replayInputs withdrawn) outcome before after := by
  intro h
  obtain ⟨-, hdown⟩ := h withdrawn.outcome 10 5 (replays_replayInputs withdrawn)
    (recipientHolds_replayInputs (by decide +kernel) (by decide +kernel))
  obtain ⟨delivered, hrejected⟩ := hdown rfl (by decide)
  have haccepted := invariantFromSvmLeg_eq_ok.mpr ⟨withdrawn.outcome, 10, 5,
    replays_replayInputs withdrawn, rfl,
    recipientHolds_replayInputs (by decide +kernel) (by decide +kernel),
    deliversLeg_iff.mpr (.inr ⟨by decide, rfl, rfl⟩), rfl⟩
  rw [haccepted] at hrejected
  cases hrejected

end

end Liquet.XvmCustos
