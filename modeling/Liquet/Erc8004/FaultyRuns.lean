import Liquet.Erc8004.FailedPut
import Liquet.Erc8004.StoreRuns
import Liquet.Erc8004.Truncation

/-!
Runs of `handle_request` over the file-backed store when its I/O fails. The
file of a decision holds what the last put with its digest wrote that got to
write at all: the whole bundle, or as much of it as went through. Evidence is
lost when that put failed, and lost openly: what is left of it is refused by
every relying party, and the next put of the decision brings it back.
-/

namespace Liquet.Erc8004

open Text ContentAddressed

/-! ### What a put leaves behind -/

/-- The bytes a put writes to the file of its decision: all of the bundle
without a fault, what was written before one, and none if it failed before the
file was opened. -/
def Attempt.leaves (a : Attempt) : Option (List UInt8) :=
  match a.faults.createDirAll, a.faults.write with
  | some _, _ => none
  | none, some (.openFile _) => none
  | none, some (.writeAll written _) => some ((utf8 (evidenceBundleJson a.signed)).take written)
  | none, none => some (utf8 (evidenceBundleJson a.signed))

def leftBy (l : List Attempt) : List (SignedDecision × List UInt8) :=
  l.filterMap fun a => a.leaves.map fun bytes => (a.signed, bytes)

theorem leftBy_append (l l' : List Attempt) : leftBy (l ++ l') = leftBy l ++ leftBy l' :=
  List.filterMap_append

theorem exists_take_of_mem_leftBy {l : List Attempt} {signed : SignedDecision}
    {bytes : List UInt8} (h : (signed, bytes) ∈ leftBy l) :
    ∃ n, bytes = (utf8 (evidenceBundleJson signed)).take n := by
  obtain ⟨a, -, ha⟩ := List.mem_filterMap.mp h
  obtain ⟨left, hleft, heq⟩ := Option.map_eq_some_iff.mp ha
  obtain ⟨rfl, rfl⟩ := Prod.mk.inj heq
  rw [Attempt.leaves] at hleft
  split at hleft
  · cases hleft
  · cases hleft
  · exact ⟨_, (Option.some.inj hleft).symm⟩
  · refine ⟨(utf8 (evidenceBundleJson a.signed)).length, ?_⟩
    rw [List.take_length]
    exact (Option.some.inj hleft).symm

namespace FileStore

def leftovers (P : Primitives) (store : FileStore) :
    Scheme (SignedDecision × List UInt8) String (List UInt8) where
  address left := store.path P left.1
  content := Prod.snd

section

variable {P : Primitives} {store : FileStore} {faults : PutFaults} {files : Files.FileSystem}

theorem pinAll_leftovers (signed : SignedDecision) (bytes : List UInt8) :
    (leftovers P store).pinAll files [(signed, bytes)] =
      files.insert (store.path P signed) bytes := rfl

/-- A put changes the files by what it leaves. -/
theorem put_snd (signed : SignedDecision) :
    (store.put P faults signed files).2 =
      (leftovers P store).pinAll files (leftBy [{ signed, faults }]) := by
  have hleft : leftBy [{ signed, faults }] =
      ((Attempt.leaves { signed, faults }).map fun bytes => (signed, bytes)).toList := by
    rw [leftBy, List.filterMap_cons]
    cases Attempt.leaves { signed, faults } <;> rfl
  rw [hleft, Attempt.leaves]
  cases hcreate : faults.createDirAll with
  | some e =>
      rw [put_of_createDirAll hcreate]
      rfl
  | none =>
      rw [put_of_created hcreate]
      rcases faults.write with _ | ⟨e⟩ | ⟨written, e⟩
      · exact (pinAll_leftovers signed _).symm
      · rfl
      · exact (pinAll_leftovers signed _).symm

end

end FileStore

/-! ### Runs -/

structure FaultyCall where
  call : Call
  faults : PutFaults

def FaultyCall.attempt (c : FaultyCall) : Option Attempt :=
  (published c.call.validated).map fun signed => { signed, faults := c.faults }

def leftByCalls (calls : List FaultyCall) : List (SignedDecision × List UInt8) :=
  leftBy (calls.filterMap FaultyCall.attempt)

namespace FileStore

def handleFaulty (P : Primitives) (store : FileStore) :
    List FaultyCall → Files.FileSystem → List (Step Files.FileSystem) × Files.FileSystem
  | [], files => ([], files)
  | c :: calls, files =>
      let (result, after) :=
        handleRequest P (store.evidenceStore P c.faults) c.call.request c.call.validator files
      let (steps, final) := handleFaulty P store calls after
      ({ call := c.call, before := files, result, after } :: steps, final)

section

variable {P : Primitives} {store : FileStore} {files : Files.FileSystem} {calls : List FaultyCall}

theorem handleRequest_of_mem_handleFaulty {step : Step Files.FileSystem}
    (h : step ∈ (handleFaulty P store calls files).1) :
    ∃ c ∈ calls, step.call = c.call ∧
      handleRequest P (store.evidenceStore P c.faults) c.call.request c.call.validator step.before =
        (step.result, step.after) := by
  induction calls generalizing files with
  | nil => cases h
  | cons c calls ih =>
      rcases List.mem_cons.mp h with rfl | h
      · exact ⟨c, List.mem_cons_self, rfl, rfl⟩
      · obtain ⟨c', hc', hstep⟩ := ih h
        exact ⟨c', List.mem_cons_of_mem c hc', hstep⟩

/-- The step lemma: one request changes the files by what its put leaves. -/
theorem handleRequest_snd (c : FaultyCall) :
    (handleRequest P (store.evidenceStore P c.faults) c.call.request c.call.validator files).2 =
      (leftovers P store).pinAll files (leftByCalls [c]) := by
  cases hpublished : published c.call.validated with
  | none =>
      have hleft : leftByCalls [c] = [] := by
        rw [leftByCalls, List.filterMap_cons, FaultyCall.attempt, hpublished]
        rfl
      rw [handleRequest_of_unpublished hpublished, hleft]
      rfl
  | some signed =>
      have hleft : leftByCalls [c] = leftBy [{ signed, faults := c.faults }] := by
        rw [leftByCalls, List.filterMap_cons, FaultyCall.attempt, hpublished]
        rfl
      rw [handleRequest_of_published hpublished, hleft]
      exact put_snd signed

theorem files_handleFaulty (calls : List FaultyCall) (files : Files.FileSystem) :
    (handleFaulty P store calls files).2 =
      (leftovers P store).pinAll files (leftByCalls calls) := by
  induction calls generalizing files with
  | nil => rfl
  | cons c calls ih =>
      have hleft : leftByCalls (c :: calls) = leftByCalls [c] ++ leftByCalls calls := by
        rw [leftByCalls, ← List.singleton_append, List.filterMap_append, leftBy_append]
        rfl
      rw [hleft, Scheme.pinAll_append, ← handleRequest_snd]
      exact ih _

theorem published_of_respond {c : FaultyCall} {requestHash u hash tag : String} {response : UInt8}
    (h : (handleRequest P (store.evidenceStore P c.faults) c.call.request c.call.validator
      files).1 = .ok (.respond requestHash response u hash tag)) :
    ∃ s, published c.call.validated = some s ∧ c.faults = .none ∧
      (responseAndTag s.binding).1 = some response ∧ uriFor (store.path P s) = { value := u } ∧
      contentHash P s = hash ∧ (responseAndTag s.binding).2 = tag := by
  cases hpublished : published c.call.validated with
  | none =>
      rw [handleRequest_of_unpublished hpublished] at h
      obtain ⟨s, hs, -⟩ := actionFor_eq_respond.mp h
      rw [Call.validated] at hpublished
      rw [hpublished] at hs
      cases hs
  | some s =>
      rw [handleRequest_of_published hpublished] at h
      cases hput : (store.put P c.faults s files).1 with
      | error e =>
          have hstore : ((store.evidenceStore P c.faults).put s files).1 = .error e := hput
          rw [hstore] at h
          cases h
      | ok uri =>
          have hfaults := put_eq_ok hput
          have hstore : ((store.evidenceStore P c.faults).put s files).1 =
              .ok (uriFor (store.path P s)) := by
            rw [hfaults]
            exact congrArg Prod.fst (put_none P store s files)
          rw [hstore] at h
          obtain ⟨hresponse, -, hu, hhash, htag⟩ := answer_eq_respond.mp (Except.ok.inj h)
          refine ⟨s, rfl, hfaults, hresponse, ?_, hhash, htag⟩
          rw [← hu]

theorem mem_leftByCalls {c : FaultyCall} (hc : c ∈ calls) {s : SignedDecision}
    (hpublished : published c.call.validated = some s) (hfaults : c.faults = .none) :
    (s, utf8 (evidenceBundleJson s)) ∈ leftByCalls calls := by
  have hattempt : FaultyCall.attempt c = some { signed := s, faults := .none } := by
    rw [FaultyCall.attempt, hpublished, hfaults]
    rfl
  refine List.mem_filterMap.mpr ⟨_, List.mem_filterMap.mpr ⟨c, hc, hattempt⟩, ?_⟩
  rw [Attempt.leaves]
  rfl

theorem exists_of_mem_leftByCalls {s : SignedDecision} {bytes : List UInt8}
    (h : (s, bytes) ∈ leftByCalls calls) : ∃ c ∈ calls, published c.call.validated = some s := by
  obtain ⟨a, ha, hleaves⟩ := List.mem_filterMap.mp h
  obtain ⟨c, hc, hattempt⟩ := List.mem_filterMap.mp ha
  obtain ⟨signed, hsigned, rfl⟩ := Option.map_eq_some_iff.mp hattempt
  obtain ⟨left, -, heq⟩ := Option.map_eq_some_iff.mp hleaves
  obtain ⟨rfl, -⟩ := Prod.mk.inj heq
  exact ⟨c, hc, hsigned⟩

/-- What the file of a decision holds at the end of a run, if any put with its
digest got to write. -/
theorem lookup_handleFaulty (files : Files.FileSystem) {s : SignedDecision} {bytes : List UInt8}
    (h : (s, bytes) ∈ leftByCalls calls) :
    ∃ before last left after, leftByCalls calls = before ++ (last, left) :: after ∧
      contentHash P last = contentHash P s ∧
      (∀ entry ∈ after, contentHash P entry.1 ≠ contentHash P s) ∧
      (handleFaulty P store calls files).2.lookup (store.path P s) = some left := by
  obtain ⟨before, ⟨last, left⟩, after, hsplit, hlatest, haddress, hafter⟩ :=
    Scheme.exists_eq_append_latest (c := leftovers P store) h
  have hheld := Scheme.serves_pinAll (c := leftovers P store) (m := files) (s, bytes) h
  rw [← files_handleFaulty, hlatest] at hheld
  refine ⟨before, last, left, after, hsplit, ?_, ?_, hheld⟩
  · exact contentHash_inj.mpr (path_eq_iff.mp haddress)
  · exact fun entry hentry heq => hafter entry hentry (path_eq_iff.mpr (contentHash_inj.mp heq))

end

/-- After any run under any faults: files of decisions that no put got to write
are as they were; and what a response points at is what the last put with its
hash that got to write left there. That is the bundle if all of it was left, and
otherwise a text, if one at all, that every relying party refuses. The
validators are arbitrary. -/
theorem handleFaulty_exact (P : Primitives) (store : FileStore) (files : Files.FileSystem)
    (calls : List FaultyCall) :
    let run := handleFaulty P store calls files
    (∀ path, (∀ entry ∈ leftByCalls calls, store.path P entry.1 ≠ path) →
        run.2.lookup path = files.lookup path) ∧
      ∀ step ∈ run.1, ∀ requestHash response u hash tag,
        step.result = .ok (.respond requestHash response u hash tag) →
          ∃ before last left after, leftByCalls calls = before ++ (last, left) :: after ∧
            contentHash P last = hash ∧
            (∀ entry ∈ after, contentHash P entry.1 ≠ hash) ∧
            (left = utf8 (evidenceBundleJson last) →
              get { value := u } run.2 = .ok (evidenceBundleJson last)) ∧
            (left ≠ utf8 (evidenceBundleJson last) →
              ∀ text, get { value := u } run.2 = .ok text → ∀ onchainHash trustedSigner,
                verifyBundle P text onchainHash trustedSigner = .error .malformed) := by
  intro run
  refine ⟨fun path hpath => ?_, ?_⟩
  · have hfiles : run.2 = _ := files_handleFaulty calls files
    rw [hfiles]
    exact Scheme.lookup_pinAll_of_forall_ne hpath
  · intro step hstep requestHash response u hash tag hresult
    obtain ⟨c, hc, hcall, hhandled⟩ := handleRequest_of_mem_handleFaulty hstep
    have hrespond := (congrArg Prod.fst hhandled).trans hresult
    obtain ⟨s, hpublished, hfaults, -, hu, rfl, -⟩ := published_of_respond hrespond
    obtain ⟨before, last, left, after, hsplit, hhash, hafter, hheld⟩ :=
      lookup_handleFaulty files (mem_leftByCalls hc hpublished hfaults)
    rw [← hu]
    refine ⟨before, last, left, after, hsplit, hhash, hafter, ?_, ?_⟩
    · rintro rfl
      exact get_uriFor_eq_ok.mpr hheld
    · intro hpart text hget
      have hmem : (last, left) ∈ leftByCalls calls := by
        rw [hsplit]
        exact List.mem_append_right _ List.mem_cons_self
      obtain ⟨n, rfl⟩ := exists_take_of_mem_leftBy hmem
      have hn : n < (utf8 (evidenceBundleJson last)).length := by
        by_contra hnot
        exact hpart (List.take_of_length_le (not_lt.mp hnot))
      rw [get_uriFor_eq_ok, hheld, Option.some.injEq] at hget
      exact verifyBundle_of_malformed
        (parseBundle_of_take hn (Files.decodeUtf8_eq_some.mpr hget))

section

variable {P : Primitives} {store : FileStore} {files : Files.FileSystem} {calls : List FaultyCall}
  {s t : SignedDecision} {response : UInt8}

theorem verifyBundle_of_signed {key : SigningKey} (hkey : P.SignsCorrectly key)
    (hsigned : ∃ b, t = signDecision P b key) (hbinding : t.binding = s.binding)
    (hresponse : (responseAndTag s.binding).1 = some response) :
    verifyBundle P (evidenceBundleJson t) (contentHash P s) (signerHex P key) =
      .ok { response := some response, tag := (responseAndTag s.binding).2,
            responseHash := contentHash P s } := by
  obtain ⟨b, rfl⟩ := hsigned
  have hhash : contentHash P (signDecision P b key) = contentHash P s := by
    rw [contentHash, hbinding, contentHash]
  have hresponds : validationResponse P (signDecision P b key) =
      { response := some response, tag := (responseAndTag s.binding).2,
        responseHash := contentHash P s } := by
    rw [validationResponse_congr hbinding, validationResponse, hresponse]
    rfl
  rw [verifyBundle_of_hash hhash, verifyDecision_signDecision hkey, hresponds]
  rfl

/-- What is left of a decision is its whole bundle if a text that is accepted
can be read from it. -/
theorem eq_of_verifyBundle {left : List UInt8} (hleft : (t, left) ∈ leftByCalls calls)
    {bundle hash trustedSigner : String} {vr : ValidationResponse} (hbundle : left = utf8 bundle)
    (haccepted : verifyBundle P bundle hash trustedSigner = .ok vr) :
    left = utf8 (evidenceBundleJson t) := by
  obtain ⟨n, hn⟩ := exists_take_of_mem_leftBy hleft
  by_cases hlength : n < (utf8 (evidenceBundleJson t)).length
  · have hdecode : Files.decodeUtf8 ((utf8 (evidenceBundleJson t)).take n) = some bundle := by
      rw [← hn]
      exact Files.decodeUtf8_eq_some.mpr hbundle
    rw [verifyBundle_of_malformed (parseBundle_of_take hlength hdecode)] at haccepted
    cases haccepted
  · rw [hn, List.take_of_length_le (not_lt.mp hlength)]

theorem lookup_handleFaulty_of_split {before after : List (SignedDecision × List UInt8)}
    {bytes left : List UInt8} (hs : (s, bytes) ∈ leftByCalls calls)
    (hsplit : leftByCalls calls = before ++ (t, left) :: after)
    (hhash : contentHash P t = contentHash P s)
    (hafter : ∀ entry ∈ after, contentHash P entry.1 ≠ contentHash P s) :
    (handleFaulty P store calls files).2.lookup (store.path P s) = some left := by
  have hlatest : (leftovers P store).latest (leftByCalls calls) (s, bytes) = (t, left) := by
    rw [hsplit]
    apply Scheme.latest_eq_of_append
    · exact path_eq_iff.mpr (contentHash_inj.mp hhash)
    · exact fun entry hentry heq => hafter entry hentry (contentHash_inj.mpr (path_eq_iff.mp heq))
  have hheld := Scheme.serves_pinAll (c := leftovers P store) (m := files) (s, bytes) hs
  rw [← files_handleFaulty, hlatest] at hheld
  exact hheld

theorem leftByCalls_append (calls calls' : List FaultyCall) :
    leftByCalls (calls ++ calls') = leftByCalls calls ++ leftByCalls calls' := by
  rw [leftByCalls, List.filterMap_append, leftBy_append, leftByCalls, leftByCalls]

theorem lookup_handleFaulty_append {again : FaultyCall}
    (hpublished : published again.call.validated = some s) (hfaults : again.faults = .none) :
    (handleFaulty P store (calls ++ [again]) files).2.lookup (store.path P s) =
      some (utf8 (evidenceBundleJson s)) := by
  have hmem : again ∈ calls ++ [again] := List.mem_append_right _ (List.mem_singleton_self _)
  have hleft : leftByCalls [again] = [(s, utf8 (evidenceBundleJson s))] := by
    have hattempt : FaultyCall.attempt again = some { signed := s, faults := .none } := by
      rw [FaultyCall.attempt, hpublished, hfaults]
      rfl
    rw [leftByCalls, List.filterMap_cons, hattempt, leftBy]
    rfl
  have hsplit : leftByCalls (calls ++ [again]) =
      leftByCalls calls ++ [(s, utf8 (evidenceBundleJson s))] := by
    rw [leftByCalls_append, hleft]
  exact lookup_handleFaulty_of_split (mem_leftByCalls hmem hpublished hfaults) hsplit rfl
    (List.forall_mem_nil _)

end

/-- Where the validators sign with one key, a response can be verified at the
end of a run exactly when the last put with its hash that got to write wrote all
of the bundle; and handling its request again without a fault, whatever came
in between, brings its evidence back. -/
theorem handleFaulty_intact_iff {P : Primitives} {key : SigningKey} (hkey : P.SignsCorrectly key)
    (store : FileStore) (files : Files.FileSystem) {calls : List FaultyCall}
    (hvalidators : ∀ c ∈ calls, ∀ s, c.call.validated = .ok s → ∃ b, s = signDecision P b key)
    (hcollision : P.CollisionFree
      (DecisionBinding.preimage '' boundBy (calls.map FaultyCall.call))) :
    let run := handleFaulty P store calls files
    ∀ step ∈ run.1, ∀ requestHash response u hash tag,
      step.result = .ok (.respond requestHash response u hash tag) →
        ((∃ bundle, get { value := u } run.2 = .ok bundle ∧
            verifyBundle P bundle hash (signerHex P key) =
              .ok { response := some response, tag, responseHash := hash }) ↔
          ∃ before last after,
            leftByCalls calls = before ++ (last, utf8 (evidenceBundleJson last)) :: after ∧
              contentHash P last = hash ∧ ∀ entry ∈ after, contentHash P entry.1 ≠ hash) ∧
        ∀ again : FaultyCall, again.call = step.call → again.faults = .none →
          ∃ bundle, get { value := u } (handleFaulty P store (calls ++ [again]) files).2 =
              .ok bundle ∧
            verifyBundle P bundle hash (signerHex P key) =
              .ok { response := some response, tag, responseHash := hash } := by
  intro run step hstep requestHash response u hash tag hresult
  obtain ⟨c, hc, hcall, hhandled⟩ := handleRequest_of_mem_handleFaulty hstep
  have hrespond := (congrArg Prod.fst hhandled).trans hresult
  obtain ⟨s, hpublished, hfaults, hresponse, hu, rfl, rfl⟩ := published_of_respond hrespond
  have hleft := mem_leftByCalls hc hpublished hfaults
  have hsigned {d : FaultyCall} {t : SignedDecision} (hd : d ∈ calls)
      (ht : published d.call.validated = some t) : ∃ b, t = signDecision P b key :=
    hvalidators d hd t (published_eq_some.mp ht).1
  have hbound {d : FaultyCall} {t : SignedDecision} (hd : d ∈ calls)
      (ht : published d.call.validated = some t) :
      t.binding ∈ boundBy (calls.map FaultyCall.call) :=
    ⟨d.call, List.mem_map_of_mem hd, t, (published_eq_some.mp ht).1, rfl⟩
  rw [← hu]
  refine ⟨⟨?_, ?_⟩, ?_⟩
  · rintro ⟨bundle, hget, haccepted⟩
    obtain ⟨before, last, left, after, hsplit, hhash, hafter, hheld⟩ :=
      lookup_handleFaulty files hleft
    have hmem : (last, left) ∈ leftByCalls calls := by
      rw [hsplit]
      exact List.mem_append_right _ List.mem_cons_self
    rw [get_uriFor_eq_ok, hheld, Option.some.injEq] at hget
    rw [eq_of_verifyBundle hmem hget haccepted] at hsplit
    exact ⟨before, last, after, hsplit, hhash, hafter⟩
  · rintro ⟨before, last, after, hsplit, hhash, hafter⟩
    have hmem : (last, utf8 (evidenceBundleJson last)) ∈ leftByCalls calls := by
      rw [hsplit]
      exact List.mem_append_right _ List.mem_cons_self
    obtain ⟨d, hd, hlast⟩ := exists_of_mem_leftByCalls hmem
    have hbinding : last.binding = s.binding :=
      digest_injOn hcollision (hbound hd hlast) (hbound hc hpublished) (contentHash_inj.mp hhash)
    exact ⟨_, get_uriFor_eq_ok.mpr (lookup_handleFaulty_of_split hleft hsplit hhash hafter),
      verifyBundle_of_signed hkey (hsigned hd hlast) hbinding hresponse⟩
  · intro again hagain hnone
    have hagain' : published again.call.validated = some s := by
      rw [hagain, hcall]
      exact hpublished
    exact ⟨_, get_uriFor_eq_ok.mpr (lookup_handleFaulty_append hagain' hnone),
      verifyBundle_of_signed hkey (hsigned hc hpublished) rfl hresponse⟩

/-- The golden decision, and then again when the disk is full. -/
def tornCalls : List FaultyCall :=
  [{ call := ⟨goldenRequest, goldenValidator⟩, faults := .none },
   { call := ⟨goldenRequest, goldenValidator⟩
     faults :=
       { createDirAll := none
         write := some (.writeAll 0
           { kind := .other, message := "No space left on device (os error 28)" }) } }]

theorem leftByCalls_tornCalls :
    leftByCalls tornCalls =
      [(goldenSigned, utf8 (evidenceBundleJson goldenSigned)), (goldenSigned, [])] := rfl

theorem utf8_evidenceBundleJson_ne_nil (s : SignedDecision) : utf8 (evidenceBundleJson s) ≠ [] := by
  intro h
  have hparse := parseBundle_evidenceBundleJson s
  rw [show evidenceBundleJson s = "" from utf8_injective h] at hparse
  cases hparse

/-- The response to the first call is lost with the second, and comes back when
the call is handled again. -/
theorem intact_iff_torn :
    let store : FileStore := { root := "evidence" }
    let run := handleFaulty Reference.primitives store tornCalls ∅
    let again : FaultyCall := { call := ⟨goldenRequest, goldenValidator⟩, faults := .none }
    let healed := handleFaulty Reference.primitives store (tornCalls ++ [again]) ∅
    let accepts (bundle hash : String) :=
      verifyBundle Reference.primitives bundle hash
          (signerHex Reference.primitives Reference.operatorKey) =
        .ok { response := some 100, tag := "matched", responseHash := hash }
    ∃ step ∈ run.1, ∃ u hash, step.result = .ok (.respond "0xreq" 100 u hash "matched") ∧
      (¬∃ bundle, get { value := u } run.2 = .ok bundle ∧ accepts bundle hash) ∧
      ∃ bundle, get { value := u } healed.2 = .ok bundle ∧ accepts bundle hash := by
  intro store run again healed accepts
  have hvalidated : ∀ c ∈ tornCalls, ∀ s, c.call.validated = .ok s → s = goldenSigned := by
    intro c hc s hs
    rcases List.mem_pair.mp hc with rfl | rfl
    · exact @goldenValidator_eq_ok goldenRequest s hs
    · exact @goldenValidator_eq_ok goldenRequest s hs
  have hvalidators : ∀ c ∈ tornCalls, ∀ s, c.call.validated = .ok s →
      ∃ b, s = signDecision Reference.primitives b Reference.operatorKey := by
    intro c hc s hs
    exact ⟨goldenBinding, by rw [signDecision_goldenBinding, hvalidated c hc s hs]⟩
  have hcollision : Reference.primitives.CollisionFree
      (DecisionBinding.preimage '' boundBy (tornCalls.map FaultyCall.call)) := by
    apply collisionFree_of_forall_eq
    rintro b ⟨call, hcall, s, hs, rfl⟩
    obtain ⟨c, hc, rfl⟩ := List.mem_map.mp hcall
    rw [hvalidated c hc s hs]
    rfl
  obtain ⟨hintact, hagain⟩ :=
    handleFaulty_intact_iff (Reference.signsCorrectly Reference.operatorKey) store ∅ hvalidators
      hcollision _ List.mem_cons_self "0xreq" 100
      (uriFor (store.path Reference.primitives goldenSigned)).value
      (contentHash Reference.primitives goldenSigned) "matched" rfl
  refine ⟨_, List.mem_cons_self, _, _, rfl, fun h => ?_, hagain again rfl rfl⟩
  obtain ⟨before, last, after, hsplit, -, hafter⟩ := hintact.mp h
  rw [leftByCalls_tornCalls] at hsplit
  cases before with
  | nil =>
      -- nothing was left by the second put
      obtain ⟨-, rfl⟩ := List.cons.inj hsplit
      exact hafter _ (List.mem_singleton_self _) rfl
  | cons first before =>
      obtain ⟨-, hsplit⟩ := List.cons.inj hsplit
      rcases List.append_eq_singleton_iff.mp hsplit.symm with ⟨-, h⟩ | ⟨-, h⟩
      · obtain ⟨hlast, -⟩ := List.cons.inj h
        exact utf8_evidenceBundleJson_ne_nil last (Prod.mk.inj hlast).2
      · cases h

end FileStore

end Liquet.Erc8004
