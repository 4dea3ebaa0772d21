import Liquet.Erc8004.RelyingParty
import Liquet.Library.ContentAddressed

/-!
The evidence store of `src/erc8004/store.rs`. A store pins the bundle of a
signed decision at an address taken from the digest of its binding; the
in-memory store is a map from addresses to bundles.
-/

namespace Liquet.Erc8004

open Text ContentAddressed

/-! ### The store interface -/

/-- A content-addressed location for an evidence bundle. -/
structure ResponseUri where
  value : String
  deriving DecidableEq, Repr

/-- `std::io::ErrorKind`, as far as this repository tells kinds apart. -/
inductive IoErrorKind
  | notFound
  | other
  deriving DecidableEq, Repr

structure IoError where
  kind : IoErrorKind
  message : String
  deriving DecidableEq, Repr

/-- `trait EvidenceStore`. A failed `put` may have changed the store. -/
structure EvidenceStore (σ : Type) where
  put : SignedDecision → σ → Except IoError ResponseUri × σ
  get : ResponseUri → σ → Except IoError String

/-- The `responseHash` of a signed decision, which is its content address. -/
def contentHash (P : Primitives) (signed : SignedDecision) : String :=
  hexEncode (signed.binding.digest P).toList

theorem contentHash_inj {P : Primitives} {signed signed' : SignedDecision} :
    contentHash P signed = contentHash P signed' ↔
      signed.binding.digest P = signed'.binding.digest P :=
  hexEncode_toList_inj

/-! ### The in-memory store -/

@[ext] structure MemStore where
  byUri : Finmap fun _ : String => String
  deriving DecidableEq

namespace MemStore

def new : MemStore := { byUri := ∅ }

/-- Number of distinct bundles pinned. -/
def len (store : MemStore) : ℕ := store.byUri.keys.card

def isEmpty (store : MemStore) : Bool := store.len == 0

def uri (P : Primitives) (signed : SignedDecision) : String := "mem://" ++ contentHash P signed

def put (P : Primitives) (signed : SignedDecision) (store : MemStore) :
    Except IoError ResponseUri × MemStore :=
  (.ok { value := uri P signed },
    { byUri := store.byUri.insert (uri P signed) (evidenceBundleJson signed) })

def get (uri : ResponseUri) (store : MemStore) : Except IoError String :=
  match store.byUri.lookup uri.value with
  | some bundle => .ok bundle
  | none => .error { kind := .notFound, message := "no bundle at " ++ uri.value }

def evidenceStore (P : Primitives) : EvidenceStore MemStore where
  put := put P
  get := get

/-- The store as a content-addressed one: a bundle at the address of its
binding. -/
def scheme (P : Primitives) : Scheme SignedDecision String String where
  address := uri P
  content := evidenceBundleJson

section

variable {P : Primitives} {signed signed' : SignedDecision} {store : MemStore}

@[simp] theorem put_fst : (put P signed store).1 = .ok { value := uri P signed } := rfl

@[simp] theorem byUri_put : (put P signed store).2.byUri = (scheme P).pin store.byUri signed := rfl

@[simp] theorem get_eq_ok {u : ResponseUri} {bundle : String} :
    get u store = .ok bundle ↔ store.byUri.lookup u.value = some bundle := by
  rw [get]
  cases store.byUri.lookup u.value <;> simp

theorem uri_eq_iff : uri P signed = uri P signed' ↔
    signed.binding.digest P = signed'.binding.digest P := by
  rw [uri, uri, String.append_right_inj, contentHash_inj]

end

/-! ### Sequences of puts -/

def putAll (P : Primitives) (puts : List SignedDecision) : MemStore :=
  puts.foldl (fun store signed => (put P signed store).2) new

section

variable {P : Primitives} {puts : List SignedDecision}

theorem putAll_append (P : Primitives) (puts : List SignedDecision) (signed : SignedDecision) :
    putAll P (puts ++ [signed]) = (put P signed (putAll P puts)).2 := by
  simp [putAll]

theorem byUri_putAll (P : Primitives) (puts : List SignedDecision) :
    (putAll P puts).byUri = (scheme P).pinAll ∅ puts := by
  induction puts using List.reverseRecOn with
  | nil => rfl
  | append_singleton puts signed ih => rw [putAll_append, byUri_put, ih, Scheme.pinAll_append]; rfl

theorem exists_of_get_putAll {u : ResponseUri} {bundle : String}
    (h : get u (putAll P puts) = .ok bundle) :
    ∃ s, uri P s = u.value ∧ evidenceBundleJson s = bundle := by
  rw [get_eq_ok, byUri_putAll] at h
  rcases Scheme.exists_of_lookup_pinAll h with h | ⟨s, -, hs⟩
  · rw [Finmap.lookup_empty] at h
    cases h
  · exact ⟨s, hs⟩

end

/-! ### What a put does to the evidence already pinned -/

/-- The bundle served at `u` verifies against `hash` and the pinned signer. -/
def Serves (P : Primitives) (store : MemStore) (u : ResponseUri) (hash trustedSigner : String)
    (vr : ValidationResponse) : Prop :=
  ∃ bundle, get u store = .ok bundle ∧ verifyBundle P bundle hash trustedSigner = .ok vr

/-- A put keeps the evidence at its address if that is not genuine, or if the
decision put there verifies under the very signer of the one it replaces. Two
decisions at one address differ in verdict only if SHA-256 collides. -/
def KeepsEvidence (P : Primitives) (store : MemStore) (signed : SignedDecision) : Prop :=
  ∀ pinned, get { value := uri P signed } store = .ok (evidenceBundleJson pinned) →
    verifySelfConsistent P pinned = .ok () →
      verifyDecision P signed pinned.signer = .ok () ∧
        responseAndTag signed.binding = responseAndTag pinned.binding

def AllKeepEvidence (P : Primitives) (earlier : List SignedDecision) :
    List SignedDecision → Prop
  | [] => True
  | signed :: later =>
      KeepsEvidence P (putAll P earlier) signed ∧ AllKeepEvidence P (earlier ++ [signed]) later

section

variable {P : Primitives} {earlier : List SignedDecision} {signed : SignedDecision}

theorem verifyDecision_trans {s t : SignedDecision} {trustedSigner : String}
    (hs : verifyDecision P s trustedSigner = .ok ()) (ht : verifyDecision P t s.signer = .ok ()) :
    verifyDecision P t trustedSigner = .ok () := by
  rw [verifyDecision_eq_ok] at hs ht ⊢
  exact ⟨hs.1.trans ht.1, ht.2⟩

theorem serves_of_keepsEvidence (hkeeps : KeepsEvidence P (putAll P earlier) signed)
    {u : ResponseUri} {hash trustedSigner : String} {vr : ValidationResponse}
    (h : Serves P (putAll P earlier) u hash trustedSigner vr) :
    Serves P (putAll P (earlier ++ [signed])) u hash trustedSigner vr := by
  obtain ⟨bundle, hget, hverify⟩ := h
  rw [putAll_append]
  by_cases hu : u.value = uri P signed
  · -- the address of the put: what it held is the bundle of some `pinned`
    obtain ⟨pinned, haddress, rfl⟩ := exists_of_get_putAll hget
    obtain ⟨s, hparse, hhash, hsigner, hvr⟩ := verifyBundle_eq_ok.mp hverify
    obtain rfl : pinned = s :=
      Option.some.inj ((parseBundle_evidenceBundleJson pinned).symm.trans hparse)
    obtain ⟨hnew, hresponse⟩ := hkeeps pinned (by rw [← hu]; exact hget)
      (verifyDecision_eq_ok.mp hsigner).2
    have hdigest : signed.binding.digest P = pinned.binding.digest P :=
      uri_eq_iff.mp (hu.symm.trans haddress.symm)
    refine ⟨evidenceBundleJson signed, ?_, ?_⟩
    · rw [get_eq_ok, byUri_put, hu]
      exact Scheme.lookup_pin_self
    · rw [verifyBundle_eq_ok]
      refine ⟨signed, parseBundle_evidenceBundleJson signed, ?_, verifyDecision_trans hsigner hnew,
        ?_⟩
      · rw [hdigest]
        exact hhash
      · rw [← hvr]
        unfold validationResponse
        rw [hdigest, hresponse]
  · refine ⟨bundle, ?_, hverify⟩
    rw [get_eq_ok] at hget ⊢
    rw [byUri_put, Scheme.lookup_pin_of_ne hu]
    exact hget

theorem keepsEvidence_of_serves {store : MemStore}
    (h : ∀ u hash trustedSigner vr, Serves P store u hash trustedSigner vr →
      Serves P (put P signed store).2 u hash trustedSigner vr) :
    KeepsEvidence P store signed := by
  intro pinned hget hself
  have hpinned : verifyDecision P pinned pinned.signer = .ok () :=
    verifyDecision_eq_ok.mpr ⟨rfl, hself⟩
  obtain ⟨bundle, hnew, hverify⟩ := h _ _ _ _
    ⟨_, hget, verifyBundle_evidenceBundleJson hpinned⟩
  obtain rfl : evidenceBundleJson signed = bundle := by
    rw [get_eq_ok, byUri_put] at hnew
    exact Option.some.inj (Scheme.lookup_pin_self.symm.trans hnew)
  obtain ⟨s, hparse, -, hsigner, hvr⟩ := verifyBundle_eq_ok.mp hverify
  obtain rfl : signed = s :=
    Option.some.inj ((parseBundle_evidenceBundleJson signed).symm.trans hparse)
  obtain ⟨hresponse, htag, -⟩ := ValidationResponse.mk.inj hvr
  exact ⟨hsigner, Prod.ext hresponse htag⟩

theorem serves_of_allKeepEvidence {later : List SignedDecision}
    (hkeep : AllKeepEvidence P earlier later) {u : ResponseUri} {hash trustedSigner : String}
    {vr : ValidationResponse} (h : Serves P (putAll P earlier) u hash trustedSigner vr) :
    Serves P (putAll P (earlier ++ later)) u hash trustedSigner vr := by
  induction later generalizing earlier with
  | nil => rwa [List.append_nil]
  | cons signed later ih =>
      obtain ⟨hfirst, hrest⟩ := hkeep
      have hnext := ih hrest (serves_of_keepsEvidence hfirst h)
      rwa [List.append_assoc, List.singleton_append] at hnext

end

/-- In every state reachable by puts, the next put leaves everything served as
it was exactly when it keeps the evidence at its address; and a run of puts
that all do so leaves everything served before it in place to its end. -/
theorem put_keeps_serving_iff (P : Primitives) (earlier : List SignedDecision) :
    (∀ signed,
        (∀ u hash trustedSigner vr, Serves P (putAll P earlier) u hash trustedSigner vr →
          Serves P (put P signed (putAll P earlier)).2 u hash trustedSigner vr) ↔
        KeepsEvidence P (putAll P earlier) signed) ∧
      ∀ later, AllKeepEvidence P earlier later →
        ∀ u hash trustedSigner vr, Serves P (putAll P earlier) u hash trustedSigner vr →
          Serves P (putAll P (earlier ++ later)) u hash trustedSigner vr := by
  refine ⟨fun signed => ⟨keepsEvidence_of_serves, fun h u hash trustedSigner vr hserves => ?_⟩,
    fun later hkeep u hash trustedSigner vr => serves_of_allKeepEvidence hkeep⟩
  rw [← putAll_append]
  exact serves_of_keepsEvidence h hserves

/-- A copy of the golden decision with garbage for a signature. -/
def garbledSigned : SignedDecision := { goldenSigned with signature := "zz" }

/-- Putting it replaces the genuine bundle at the same address. -/
theorem put_garbled_stops_serving :
    ¬∀ u hash trustedSigner vr,
      Serves Reference.signedOnce (putAll Reference.signedOnce [goldenSigned]) u hash
          trustedSigner vr →
        Serves Reference.signedOnce
          (put Reference.signedOnce garbledSigned
            (putAll Reference.signedOnce [goldenSigned])).2 u hash trustedSigner vr := by
  intro h
  have hself : verifySelfConsistent Reference.signedOnce goldenSigned = .ok () :=
    (verifyDecision_eq_ok.mp verifyDecision_goldenSigned).2
  have hbinding : garbledSigned.binding = goldenSigned.binding := by
    rw [show garbledSigned.binding = goldenBinding from rfl,
      show goldenSigned.binding = goldenBinding from rfl]
  have haddress : uri Reference.signedOnce garbledSigned = uri Reference.signedOnce goldenSigned := by
    rw [uri_eq_iff, hbinding]
  have hget : get { value := uri Reference.signedOnce garbledSigned }
      (putAll Reference.signedOnce [goldenSigned]) = .ok (evidenceBundleJson goldenSigned) := by
    rw [get_eq_ok, byUri_putAll, haddress]
    exact Scheme.lookup_pin_self
  obtain ⟨hgarbled, -⟩ := keepsEvidence_of_serves h goldenSigned hget hself
  obtain ⟨-, hgarbled⟩ := verifyDecision_eq_ok.mp hgarbled
  obtain ⟨-, -, bytes, -, -, -, hdecode, -⟩ := verifySelfConsistent_eq_ok.mp hgarbled
  have hzz : hexDecode "zz" = none := by decide
  rw [show garbledSigned.signature = "zz" from rfl, hzz] at hdecode
  cases hdecode

end MemStore

end Liquet.Erc8004
