import Liquet.Erc8004.StoreRuns
import Liquet.Erc8004.Grounding

/-!
The requests the wired validator cannot turn into a decision. Each exit of the
pipeline is described on its own, by what came before it and what went wrong;
the error of a request is that of the first exit it takes, and a request takes
one exactly when it is not signed for. No exit depends on the key, the policy
or the store.
-/

namespace Liquet.Erc8004

open Text Probatio CustosEngine XvmCustos Result

/-! ### The screen -/

/-- The exits of the screen in their order, with the errors they return. -/
inductive ScreenFails (X : Producers) (recon : SvmReconstruction X.Account X.Transaction) :
    String → Prop
  | seed {before addr account after seeded e}
      (hsplit : recon.prestate = before ++ (addr, account) :: after)
      (hbefore : seedPrestate X before X.newSvm = .ok seeded)
      (herror : X.setAccount addr account seeded = .error e) :
      ScreenFails X recon ("seed prestate " ++ X.pubkeyText addr ++ ": " ++ e)
  | airdrop {seeded e} (hseeded : seedPrestate X recon.prestate X.newSvm = .ok seeded)
      (herror : X.airdrop recon.payer recon.payerAirdropLamports seeded = .error e) :
      ScreenFails X recon ("airdrop payer: " ++ e)
  | replay {outcome} (hreplays : Replays X recon outcome) (hfailed : outcome.success = false) :
      ScreenFails X recon "Custos replay transaction failed"
  | watch {outcome} (hreplays : Replays X recon outcome) (hsuccess : outcome.success = true)
      (hwatch : recon.watch[1]? = none) :
      ScreenFails X recon "probatio delivery leg exposed no recipient watch account"
  | before {outcome recipient} (hreplays : Replays X recon outcome)
      (hsuccess : outcome.success = true) (hwatch : recon.watch[1]? = some recipient)
      (hbefore : (outcome.pre.snapshot recipient).bind X.parseTokenAccount = none) :
      ScreenFails X recon "Custos replay has no decodable recipient token account before"
  | after {outcome recipient account} (hreplays : Replays X recon outcome)
      (hsuccess : outcome.success = true) (hwatch : recon.watch[1]? = some recipient)
      (hbefore : (outcome.pre.snapshot recipient).bind X.parseTokenAccount = some account)
      (hafter : (outcome.post.snapshot recipient).bind X.parseTokenAccount = none) :
      ScreenFails X recon "Custos replay has no decodable recipient token account after"
  | diverged {outcome before after} (hreplays : Replays X recon outcome)
      (hsuccess : outcome.success = true) (hrecipient : RecipientHolds X recon outcome before after)
      (hdiverged : ¬DeliversLeg recon.leg before after) :
      ScreenFails X recon (divergedText (saturatingSub after before) (recon.leg.amount.getD 0)
        recon.leg.executed)

section

variable {X : Producers} {recon : SvmReconstruction X.Account X.Transaction}

theorem seedPrestate_eq_error {prestate : List (Pubkey × X.Account)} {svm : X.Svm}
    {message : String} :
    seedPrestate X prestate svm = .error message ↔
      ∃ before addr account after seeded e, prestate = before ++ (addr, account) :: after ∧
        seedPrestate X before svm = .ok seeded ∧ X.setAccount addr account seeded = .error e ∧
        message = "seed prestate " ++ X.pubkeyText addr ++ ": " ++ e := by
  induction prestate generalizing svm with
  | nil => simp [seedPrestate]
  | cons entry rest ih =>
      obtain ⟨addr, account⟩ := entry
      rw [seedPrestate, bind_eq_error]
      constructor
      · rintro (h | ⟨svm', hset, h⟩)
        · obtain ⟨e, he, rfl⟩ := mapError_eq_error.mp h
          exact ⟨[], addr, account, rest, svm, e, rfl, rfl, he, rfl⟩
        · obtain ⟨before, addr', account', after, seeded, e, rfl, hbefore, he, rfl⟩ := ih.mp h
          refine ⟨(addr, account) :: before, addr', account', after, seeded, e, rfl, ?_, he, rfl⟩
          rw [seedPrestate]
          exact bind_eq_ok.mpr ⟨svm', hset, hbefore⟩
      · rintro ⟨before, addr', account', after, seeded, e, hsplit, hbefore, he, rfl⟩
        cases before with
        | nil =>
            obtain ⟨hentry, rfl⟩ := List.cons.inj hsplit
            obtain ⟨rfl, rfl⟩ := Prod.mk.inj hentry
            obtain rfl := Except.ok.inj hbefore
            exact .inl (mapError_eq_error.mpr ⟨e, he, rfl⟩)
        | cons entry before =>
            obtain ⟨rfl, rfl⟩ := List.cons.inj hsplit
            rw [seedPrestate] at hbefore
            obtain ⟨svm', hset, hbefore⟩ := bind_eq_ok.mp hbefore
            exact .inr ⟨svm', hset,
              ih.mpr ⟨before, addr', account', after, seeded, e, rfl, hbefore, he, rfl⟩⟩

theorem recipientAmount_eq_error {snapshots : AccountMap} {recipient : Pubkey}
    {phase message : String} :
    recipientAmount X snapshots recipient phase = .error message ↔
      (snapshots.snapshot recipient).bind X.parseTokenAccount = none ∧
        "Custos replay has no decodable recipient token account " ++ phase = message := by
  rw [recipientAmount, okOr_eq_error, Option.map_eq_none_iff]

theorem screenFails_of_invariantFromSvmLeg {message : String}
    (h : invariantFromSvmLeg X recon = .error message) : ScreenFails X recon message := by
  rw [invariantFromSvmLeg] at h
  rcases bind_eq_error.mp h with h | ⟨seeded, hseeded, h⟩
  · obtain ⟨before, addr, account, after, seeded, e, hsplit, hbefore, he, rfl⟩ :=
      seedPrestate_eq_error.mp h
    exact .seed hsplit hbefore he
  rcases bind_eq_error.mp h with h | ⟨funded, hfunded, h⟩
  · obtain ⟨e, he, rfl⟩ := mapError_eq_error.mp h
    exact .airdrop hseeded he
  have hreplays : Replays X recon (X.capture funded recon.transaction recon.payer recon.watch
      X.splTokenId X.systemId) := ⟨seeded, funded, hseeded, mapError_eq_ok.mp hfunded, rfl⟩
  rcases guard_eq_error.mp h with ⟨hfailed, rfl⟩ | ⟨hsuccess, h⟩
  · exact .replay hreplays (by simpa using hfailed)
  have hsuccess := (Bool.not_eq_false _).mp (by simpa using hsuccess)
  rcases bind_eq_error.mp h with h | ⟨recipient, hrecipient, h⟩
  · obtain ⟨hwatch, rfl⟩ := okOr_eq_error.mp h
    exact .watch hreplays hsuccess hwatch
  have hwatch := okOr_eq_ok.mp hrecipient
  rcases bind_eq_error.mp h with h | ⟨before, hbefore, h⟩
  · obtain ⟨hnone, rfl⟩ := recipientAmount_eq_error.mp h
    exact .before hreplays hsuccess hwatch hnone
  obtain ⟨account, haccount, hamount⟩ := recipientAmount_eq_ok.mp hbefore
  rcases bind_eq_error.mp h with h | ⟨after, hafter, h⟩
  · obtain ⟨hnone, rfl⟩ := recipientAmount_eq_error.mp h
    exact .after hreplays hsuccess hwatch haccount hnone
  have hholds : RecipientHolds X recon _ before after :=
    ⟨recipient, hwatch, ⟨account, haccount, hamount⟩, recipientAmount_eq_ok.mp hafter⟩
  rcases guard_eq_error.mp h with ⟨hdiverged, rfl⟩ | ⟨-, h⟩
  · apply ScreenFails.diverged hreplays hsuccess hholds
    rintro ⟨hamount, hexecuted⟩
    rcases hdiverged with hne | hne
    · exact hne hamount
    · apply hne
      rw [Bool.eq_iff_iff, decide_eq_true_iff]
      exact hexecuted
  · cases h

theorem invariantFromSvmLeg_of_replays {outcome : Outcome} (h : Replays X recon outcome)
    (hsuccess : outcome.success = true) :
    invariantFromSvmLeg X recon = (do
      let recipient ← okOr recon.watch[1]?
        "probatio delivery leg exposed no recipient watch account"
      let before ← recipientAmount X outcome.pre recipient "before"
      let after ← recipientAmount X outcome.post recipient "after"
      if saturatingSub after before ≠ recon.leg.amount.getD 0 ∨
          decide (0 < saturatingSub after before) ≠ recon.leg.executed then
        .error (divergedText (saturatingSub after before) (recon.leg.amount.getD 0)
          recon.leg.executed)
      else .ok (Custos.verdictFromCustos X (X.evaluate outcome X.defaultBank))) := by
  obtain ⟨seeded, funded, hseeded, hfunded, rfl⟩ := h
  rw [invariantFromSvmLeg, hseeded, bind_ok, hfunded, mapError_ok, bind_ok]
  simp only [hsuccess, Bool.not_true, Bool.false_eq_true, if_false]

theorem invariantFromSvmLeg_of_screenFails {message : String} (h : ScreenFails X recon message) :
    invariantFromSvmLeg X recon = .error message := by
  cases h with
  | seed hsplit hbefore herror =>
      rw [invariantFromSvmLeg, hsplit]
      exact bind_eq_error.mpr
        (.inl (seedPrestate_eq_error.mpr ⟨_, _, _, _, _, _, rfl, hbefore, herror, rfl⟩))
  | airdrop hseeded herror =>
      rw [invariantFromSvmLeg, hseeded, bind_ok, herror]
      rfl
  | replay hreplays hfailed => exact invariantFromSvmLeg_of_failed hreplays hfailed
  | watch hreplays hsuccess hwatch =>
      rw [invariantFromSvmLeg_of_replays hreplays hsuccess, hwatch]
      rfl
  | before hreplays hsuccess hwatch hbefore =>
      rw [invariantFromSvmLeg_of_replays hreplays hsuccess, hwatch, okOr, bind_ok,
        recipientAmount_eq_error.mpr ⟨hbefore, rfl⟩]
      rfl
  | after hreplays hsuccess hwatch hbefore hafter =>
      rw [invariantFromSvmLeg_of_replays hreplays hsuccess, hwatch, okOr, bind_ok,
        recipientAmount_eq_ok.mpr ⟨_, hbefore, rfl⟩, bind_ok,
        recipientAmount_eq_error.mpr ⟨hafter, rfl⟩]
      rfl
  | diverged hreplays hsuccess hrecipient hdiverged =>
      exact invariantFromSvmLeg_of_diverged hreplays hsuccess hrecipient hdiverged

theorem invariantFromSvmLeg_eq_error {message : String} :
    invariantFromSvmLeg X recon = .error message ↔ ScreenFails X recon message :=
  ⟨screenFails_of_invariantFromSvmLeg, invariantFromSvmLeg_of_screenFails⟩

end

/-! ### The pipeline -/

/-- The exits of `validate` in their order. -/
inductive ValidateFails (X : Producers) (req : ResolvedRequest) : String → Prop
  | parse (hparse : SettlementRequest.parse X req.claimJson = none) :
      ValidateFails X req ("parse claim_json: " ++ X.claimErrorText req.claimJson)
  | evmLeg {sr e} (hparse : SettlementRequest.parse X req.claimJson = some sr)
      (hevm : X.reconstructEvmLeg sr.evm = .error e) : ValidateFails X req ("evm leg: " ++ e)
  | svmLeg {sr evm e} (hparse : SettlementRequest.parse X req.claimJson = some sr)
      (hevm : X.reconstructEvmLeg sr.evm = .ok evm)
      (hsvm : X.reconstructSvmLegWithMalice sr.svm sr.malice = .error e) :
      ValidateFails X req ("svm leg: " ++ e)
  | screen {sr evm svm e} (hlegs : Reconstructs X req sr evm svm) (hscreen : ScreenFails X svm e) :
      ValidateFails X req ("custos screen: " ++ e)

section

variable {X : Producers} {P : Primitives} {V : LiquetValidator} {req : ResolvedRequest}

theorem validate_eq_error {e : ValidateError} :
    V.validate X P req = .error e ↔
      ∃ message, e = .unresolvable message ∧ ValidateFails X req message := by
  constructor
  · intro h
    rw [LiquetValidator.validate] at h
    rcases bind_eq_error.mp h with h | ⟨sr, hparse, h⟩
    · obtain ⟨hparse, rfl⟩ := okOr_eq_error.mp h
      exact ⟨_, rfl, .parse hparse⟩
    have hparse := okOr_eq_ok.mp hparse
    rcases bind_eq_error.mp h with h | ⟨evm, hevm, h⟩
    · obtain ⟨e, hevm, rfl⟩ := mapError_eq_error.mp h
      exact ⟨_, rfl, .evmLeg hparse hevm⟩
    have hevm := mapError_eq_ok.mp hevm
    rcases bind_eq_error.mp h with h | ⟨svm, hsvm, h⟩
    · obtain ⟨e, hsvm, rfl⟩ := mapError_eq_error.mp h
      exact ⟨_, rfl, .svmLeg hparse hevm hsvm⟩
    have hlegs : Reconstructs X req sr evm svm := ⟨hparse, hevm, mapError_eq_ok.mp hsvm⟩
    rcases bind_eq_error.mp h with h | ⟨invariant, -, h⟩
    · obtain ⟨e, hscreen, rfl⟩ := mapError_eq_error.mp h
      exact ⟨_, rfl, .screen hlegs (invariantFromSvmLeg_eq_error.mp hscreen)⟩
    · cases h
  · rintro ⟨message, rfl, h⟩
    cases h with
    | parse hparse =>
        rw [LiquetValidator.validate, hparse]
        rfl
    | evmLeg hparse hevm =>
        rw [LiquetValidator.validate, hparse, okOr, bind_ok, hevm]
        rfl
    | svmLeg hparse hevm hsvm =>
        rw [LiquetValidator.validate, hparse, okOr, bind_ok, hevm, mapError_ok, bind_ok, hsvm]
        rfl
    | screen hlegs hscreen =>
        exact validate_of_screen_error hlegs (invariantFromSvmLeg_eq_error.mpr hscreen)

/-- An error of the validator leaves the store alone, and an error of the store
is never reported as one of the validator. -/
theorem handleRequest_eq_unresolvable {σ : Type} {E : EvidenceStore σ} {store : σ}
    {validator : SettlementValidator} {message : String} :
    (handleRequest P E req validator store).1 = .error (.unresolvable message) ↔
      validator req = .error (.unresolvable message) := by
  rw [handleRequest]
  cases validator req with
  | error e => simp
  | ok s =>
      dsimp only
      cases (validationResponse P s).response with
      | none => simp
      | some response =>
          rcases E.put s store with ⟨e | uri, store'⟩
          · simp
          · simp

end

/-- Over every store, under every key and policy: a request is reported as
unresolvable with a message exactly when the pipeline takes the exit with this
message, and the store is then left alone; and it takes no exit exactly when it
gets through all stages. -/
theorem handleRequest_unresolvable_iff {σ : Type} (X : Producers) (P : Primitives)
    (V : LiquetValidator) (E : EvidenceStore σ) (req : ResolvedRequest) (store : σ) :
    let handled := handleRequest P E req (V.validate X P) store
    (∀ message, handled.1 = .error (.unresolvable message) ↔ ValidateFails X req message) ∧
      (∀ message, handled.1 = .error (.unresolvable message) → handled.2 = store) ∧
      ((∀ message, ¬ValidateFails X req message) ↔
        ∃ sr evm svm outcome before after, Screened X req sr evm svm outcome before after) := by
  intro handled
  have hiff (message : String) :
      handled.1 = .error (.unresolvable message) ↔ ValidateFails X req message := by
    rw [handleRequest_eq_unresolvable, validate_eq_error]
    simp
  refine ⟨hiff, fun message h => ?_, ?_⟩
  · have hvalidate := handleRequest_eq_unresolvable.mp h
    show (handleRequest P E req (V.validate X P) store).2 = store
    rw [handleRequest, hvalidate]
  · constructor
    · intro hnone
      cases hvalidate : V.validate X P req with
      | error e =>
          obtain ⟨message, -, h⟩ := validate_eq_error.mp hvalidate
          exact absurd h (hnone message)
      | ok s =>
          obtain ⟨sr, evm, svm, outcome, before, after, h, -⟩ :=
            validate_eq_ok_iff_screened.mp hvalidate
          exact ⟨sr, evm, svm, outcome, before, after, h⟩
    · rintro ⟨sr, evm, svm, outcome, before, after, h⟩ message hfails
      have hok := (validate_eq_ok_iff_screened (P := P) (V := V)).mpr
        ⟨sr, evm, svm, outcome, before, after, h, rfl⟩
      rw [validate_eq_error.mpr ⟨message, rfl, hfails⟩] at hok
      cases hok

end Liquet.Erc8004
