import Liquet.Erc8004.FileStore
import Liquet.Erc8004.Validator

/-!
What a put of the file-backed store leaves behind when it fails. A put
truncates the file it writes before it writes it, and a decision put again is
written over the file it was pinned at: a put that fails there takes published
evidence with it.
-/

namespace Liquet.Erc8004

open Text ContentAddressed

structure Attempt where
  signed : SignedDecision
  faults : PutFaults

/-- The files, and what every put that succeeded returned. -/
structure Pinning where
  files : Files.FileSystem
  returned : List (SignedDecision × ResponseUri)

namespace FileStore

def attempt (P : Primitives) (store : FileStore) (st : Pinning) (a : Attempt) : Pinning :=
  match store.put P a.faults a.signed st.files with
  | (.ok uri, files) => { files, returned := st.returned ++ [(a.signed, uri)] }
  | (.error _, files) => { st with files }

def attempts (P : Primitives) (store : FileStore) (files : Files.FileSystem)
    (l : List Attempt) : Pinning :=
  l.foldl (attempt P store) { files, returned := [] }

/-- Every URI returned so far gives the bundle it gave. -/
def KeepsReturned (before after : Pinning) : Prop :=
  ∀ entry ∈ before.returned, ∀ bundle,
    get entry.2 before.files = .ok bundle → get entry.2 after.files = .ok bundle

/-- If the put fails, the request it is for fails too, and the evidence already
pinned stays. -/
def FailedPutKeeps (P : Primitives) (store : FileStore) (st : Pinning) (a : Attempt) : Prop :=
  ∀ e, (store.put P a.faults a.signed st.files).1 = .error e →
    (∀ req validator, published (validator req) = some a.signed →
      (handleRequest P (store.evidenceStore P a.faults) req validator st.files).1 =
        .error (.store e)) ∧
      KeepsReturned st (attempt P store st a)

/-- The put does not fail in the middle of writing over a bundle that an earlier
put with the same digest published, or has then written just that. -/
def Spares (P : Primitives) (store : FileStore) (st : Pinning) (a : Attempt) : Prop :=
  ∀ written e, a.faults.createDirAll = none → a.faults.write = some (.writeAll written e) →
    ∀ entry ∈ st.returned, entry.1.binding.digest P = a.signed.binding.digest P →
      ∀ bundle, st.files.lookup (store.path P a.signed) = some (utf8 bundle) →
        (utf8 (evidenceBundleJson a.signed)).take written = utf8 bundle

def EachPut (P : Primitives) (store : FileStore) (does : Pinning → Attempt → Prop) :
    Pinning → List Attempt → Prop
  | _, [] => True
  | st, a :: later => does st a ∧ EachPut P store does (attempt P store st a) later

section

variable {P : Primitives} {store : FileStore} {st : Pinning} {a : Attempt}

theorem attempt_of_error {e : IoError}
    (h : (store.put P a.faults a.signed st.files).1 = .error e) :
    attempt P store st a = { st with files := (store.put P a.faults a.signed st.files).2 } := by
  rw [attempt, ← Prod.eta (store.put P a.faults a.signed st.files), h]

theorem attempt_of_ok {uri : ResponseUri}
    (h : (store.put P a.faults a.signed st.files).1 = .ok uri) :
    attempt P store st a =
      { files := (store.scheme P).pin st.files a.signed
        returned := st.returned ++ [(a.signed, uriFor (store.path P a.signed))] } := by
  rw [attempt, put_eq_ok h, put_none]

def Returns (P : Primitives) (store : FileStore) (st : Pinning) : Prop :=
  ∀ entry ∈ st.returned, entry.2 = uriFor (store.path P entry.1)

theorem Returns.attempt (h : Returns P store st) (a : Attempt) :
    Returns P store (attempt P store st a) := by
  cases hput : (store.put P a.faults a.signed st.files).1 with
  | error e =>
      rw [attempt_of_error hput]
      exact h
  | ok uri =>
      rw [attempt_of_ok hput]
      intro entry hentry
      rcases List.mem_append.mp hentry with hentry | hentry
      · exact h entry hentry
      · rw [List.mem_singleton.mp hentry]

theorem attempts_append (P : Primitives) (store : FileStore) (files : Files.FileSystem)
    (l : List Attempt) (a : Attempt) :
    attempts P store files (l ++ [a]) = attempt P store (attempts P store files l) a := by
  rw [attempts, List.foldl_append]
  rfl

theorem returns_attempts (P : Primitives) (store : FileStore) (files : Files.FileSystem)
    (l : List Attempt) : Returns P store (attempts P store files l) := by
  induction l using List.reverseRecOn with
  | nil =>
      intro entry hentry
      cases hentry
  | append_singleton l a ih =>
      rw [attempts_append]
      exact ih.attempt a

/-! ### One failed put -/

theorem keepsReturned_of_spares (hreturns : Returns P store st) (hspares : Spares P store st a)
    {e : IoError} (hfailed : (store.put P a.faults a.signed st.files).1 = .error e) :
    KeepsReturned st (attempt P store st a) := by
  intro entry hentry bundle hget
  rw [attempt_of_error hfailed]
  rw [hreturns entry hentry, get_uriFor_eq_ok] at hget ⊢
  by_cases hpath : store.path P entry.1 = store.path P a.signed
  -- a decision put again: its file is the one file the put may have written to
  · rw [hpath] at hget ⊢
    rw [lookup_put_of_error hget hfailed]
    intro written e' hcreate hwrite
    exact hspares written e' hcreate hwrite entry hentry (path_eq_iff.mp hpath) bundle hget
  · rw [lookup_put_of_ne hpath]
    exact hget

theorem spares_of_keepsReturned (hreturns : Returns P store st)
    (h : ∀ e, (store.put P a.faults a.signed st.files).1 = .error e →
      KeepsReturned st (attempt P store st a)) : Spares P store st a := by
  intro written e hcreate hwrite entry hentry hdigest bundle hbundle
  have hfailed : (store.put P a.faults a.signed st.files).1 = .error e := by
    rw [put_of_created hcreate, hwrite]
    rfl
  have hpath : store.path P entry.1 = store.path P a.signed := path_eq_iff.mpr hdigest
  have hkept := h e hfailed entry hentry bundle
  rw [attempt_of_error hfailed, hreturns entry hentry, get_uriFor_eq_ok, get_uriFor_eq_ok,
    hpath, lookup_put_of_error hbundle hfailed] at hkept
  exact hkept hbundle written e hcreate hwrite

theorem failedPutKeeps_iff_spares (hreturns : Returns P store st) :
    FailedPutKeeps P store st a ↔ Spares P store st a := by
  constructor
  · intro h
    exact spares_of_keepsReturned hreturns fun e hfailed => (h e hfailed).2
  · intro hspares e hfailed
    refine ⟨fun req validator hpublished => ?_, keepsReturned_of_spares hreturns hspares hfailed⟩
    exact handleRequest_of_put_error hpublished hfailed

/-! ### Runs of puts -/

/-- One step: a put that spares what is pinned leaves every decision put with
the latest bundle of its digest, as if the puts that failed had not been. -/
theorem serves_attempt
    (h : (store.scheme P).Serves st.files (st.returned.map Prod.fst)) (hreturns : Returns P store st)
    (hspares : Spares P store st a) :
    (store.scheme P).Serves (attempt P store st a).files
      ((attempt P store st a).returned.map Prod.fst) := by
  cases hput : (store.put P a.faults a.signed st.files).1 with
  | ok uri =>
      rw [attempt_of_ok hput, List.map_append]
      exact h.pin a.signed
  | error e =>
      -- the URIs are those from before, and each still gives what it gave
      have hkept := keepsReturned_of_spares hreturns hspares hput
      rw [attempt_of_error hput] at hkept ⊢
      intro signed hsigned
      obtain ⟨entry, hentry, rfl⟩ := List.mem_map.mp hsigned
      have hget := hkept entry hentry _ (hreturns entry hentry ▸ get_of_serves h hsigned)
      rw [hreturns entry hentry, get_uriFor_eq_ok] at hget
      rw [address_scheme, content_scheme]
      exact hget

theorem serves_foldl_attempt {later : List Attempt}
    (h : (store.scheme P).Serves st.files (st.returned.map Prod.fst)) (hreturns : Returns P store st)
    (hspare : EachPut P store (Spares P store) st later) :
    (store.scheme P).Serves (later.foldl (attempt P store) st).files
      ((later.foldl (attempt P store) st).returned.map Prod.fst) := by
  induction later generalizing st with
  | nil => exact h
  | cons a later ih =>
      obtain ⟨hfirst, hrest⟩ := hspare
      exact ih (serves_attempt h hreturns hfirst) (hreturns.attempt a) hrest

theorem eachPut_keeps_iff {later : List Attempt} (hreturns : Returns P store st) :
    EachPut P store (FailedPutKeeps P store) st later ↔
      EachPut P store (Spares P store) st later := by
  induction later generalizing st with
  | nil => exact Iff.rfl
  | cons a later ih =>
      rw [EachPut, EachPut, failedPutKeeps_iff_spares hreturns, ih (hreturns.attempt a)]

end

/-- From every state that puts can lead to, whatever became of them, the failed
puts of any further run keep the evidence they find exactly when they spare it.
And where every put so far did, each URI returned gives the bundle of the latest
successful put with its digest. -/
theorem failedPut_keeps_iff (P : Primitives) (store : FileStore) (files : Files.FileSystem)
    (earlier later : List Attempt) :
    (EachPut P store (FailedPutKeeps P store) (attempts P store files earlier) later ↔
        EachPut P store (Spares P store) (attempts P store files earlier) later) ∧
      (EachPut P store (Spares P store) { files, returned := [] } earlier →
        ∀ entry ∈ (attempts P store files earlier).returned,
          get entry.2 (attempts P store files earlier).files =
            .ok (evidenceBundleJson ((store.scheme P).latest
              ((attempts P store files earlier).returned.map Prod.fst) entry.1))) := by
  have hreturns := returns_attempts P store files earlier
  refine ⟨eachPut_keeps_iff hreturns, fun hspare entry hentry => ?_⟩
  have hserves : (store.scheme P).Serves (attempts P store files earlier).files
      ((attempts P store files earlier).returned.map Prod.fst) :=
    serves_foldl_attempt Scheme.serves_nil (returns_attempts P store files []) hspare
  rw [hreturns entry hentry]
  exact get_of_serves hserves (List.mem_map_of_mem hentry)

theorem not_spares_truncating (P : Primitives) (store : FileStore) (files : Files.FileSystem)
    (signed : SignedDecision) (e : IoError) :
    ¬Spares P store (attempts P store files [{ signed, faults := .none }])
      { signed, faults := { createDirAll := none, write := some (.writeAll 0 e) } } := by
  intro hspares
  have hput : (store.put P .none signed files).1 = .ok (uriFor (store.path P signed)) := by
    rw [put_none]
  rw [attempts, List.foldl_cons, List.foldl_nil, attempt_of_ok hput] at hspares
  have hpinned : ((store.scheme P).pin files signed).lookup (store.path P signed) =
      some (utf8 (evidenceBundleJson signed)) := by
    have hself : ((store.scheme P).pin files signed).lookup ((store.scheme P).address signed) =
        some ((store.scheme P).content signed) := Scheme.lookup_pin_self
    rwa [content_scheme] at hself
  have hwritten := hspares 0 e rfl rfl (signed, uriFor (store.path P signed))
    (List.mem_append_right _ (List.mem_singleton_self _)) rfl _ hpinned
  rw [List.take_zero] at hwritten
  -- what was written is nothing, and nothing does not parse as a bundle
  have hempty : evidenceBundleJson signed = "" := utf8_injective hwritten.symm
  have hparse := parseBundle_evidenceBundleJson signed
  rw [hempty] at hparse
  have hnone : parseBundle "" = none := by decide
  rw [hnone] at hparse
  cases hparse

/-- The golden decision, put again when the disk is full. -/
theorem failed_reput_truncates :
    ¬∀ a, FailedPutKeeps Reference.signedOnce { root := "evidence" }
      (attempts Reference.signedOnce { root := "evidence" } ∅
        [{ signed := goldenSigned, faults := .none }]) a := by
  intro h
  have hkeeps := h
    { signed := goldenSigned
      faults :=
        { createDirAll := none
          write := some (.writeAll 0
            { kind := .other, message := "No space left on device (os error 28)" }) } }
  rw [failedPutKeeps_iff_spares (returns_attempts _ _ _ _)] at hkeeps
  exact not_spares_truncating _ _ _ _ _ hkeeps

end FileStore

end Liquet.Erc8004
