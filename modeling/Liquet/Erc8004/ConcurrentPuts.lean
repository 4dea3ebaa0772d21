import Liquet.Json.Controls
import Liquet.Library.SharedFiles
import Liquet.Erc8004.Truncation
import Liquet.Erc8004.FileStore
import Liquet.Erc8004.Runs

/-!
The file-backed store when several processes put into one root while another
reads, as a gateway that serves the root does. A put neither locks its file nor
moves it into place: it truncates the file and writes the bundle from the
front. What a reader can get of it then is the bundle up to some place, with
zero bytes where one put truncated the file under another.
-/

namespace Liquet.Erc8004

open ContentAddressed SharedFiles

section

variable {signed : SignedDecision}

/-! ### Torn bundles -/

theorem parseBundle_of_nul {text : String} (h : Char.ofNat 0 ∈ text.toList) :
    parseBundle text = none := by
  rw [parseBundle, Codec.ofText]
  cases hparse : Json.parse text with
  | none => rfl
  | some v =>
      have hcontrol := Json.isControl_of_parse hparse h
      cases hcontrol

/-- A text of the bytes of a bundle up to some place, with holes, is the bundle
or no document. -/
theorem eq_or_parseBundle_of_patchy {bytes : List UInt8} {text : String}
    (h : Patchy 0 (utf8 (evidenceBundleJson signed)) bytes)
    (htext : Files.decodeUtf8 bytes = some text) :
    text = evidenceBundleJson signed ∨ parseBundle text = none := by
  by_cases hhole : 0 ∈ bytes
  · exact .inr (parseBundle_of_nul (Files.zero_mem_of_decodeUtf8 htext hhole))
  · have htake := h.eq_take hhole
    rcases lt_or_ge bytes.length (utf8 (evidenceBundleJson signed)).length with hlt | hge
    · rw [htake] at htext
      exact .inr (parseBundle_of_take hlt htext)
    · rw [List.take_of_length_le hge] at htake
      rw [Files.decodeUtf8_eq_some, htake] at htext
      exact .inl (utf8_injective htext).symm

end

namespace FileStore

/-! ### Puts and a read, step by step -/

/-- The writer a put is once its directory is there. -/
def writer (P : Primitives) (store : FileStore) (signed : SignedDecision) : Task String UInt8 where
  path := store.path P signed
  contents := utf8 (evidenceBundleJson signed)

@[simp] theorem path_writer (P : Primitives) (store : FileStore) (signed : SignedDecision) :
    (store.writer P signed).path = store.path P signed := rfl

@[simp] theorem contents_writer (P : Primitives) (store : FileStore) (signed : SignedDecision) :
    (store.writer P signed).contents = utf8 (evidenceBundleJson signed) := by
  rw [writer]

/-- How far a put gets. -/
def putEvents {ι : Type} (P : Primitives) (store : FileStore) (faults : PutFaults)
    (signed : SignedDecision) (i : ι) : List (Event ι) :=
  match faults.createDirAll with
  | some _ => []
  | none =>
      match faults.write with
      | some (.openFile _) => []
      | some (.writeAll written _) => .opens i :: List.replicate written (.writes i)
      | none =>
          .opens i :: List.replicate (store.writer P signed).contents.length (.writes i)

def received : Option (List UInt8) → Except IoError String
  | none => .error { kind := .notFound, message := "No such file or directory (os error 2)" }
  | some bytes =>
      match Files.decodeUtf8 bytes with
      | none => .error { kind := .other, message := "stream did not contain valid UTF-8" }
      | some bundle => .ok bundle

def start (ι : Type) (files : Files.FileSystem) : State ι String UInt8 where
  files := files
  offsets := fun _ => none
  reader := .ready

/-- Where a decision has a file, it holds the bundle up to some place, with
holes: all of it, what an interrupted put left, or nothing. -/
def Holds {ι : Type} (P : Primitives) (store : FileStore) (signed : ι → SignedDecision)
    (files : Files.FileSystem) : Prop :=
  ∀ i file, files.lookup (store.path P (signed i)) = some file →
    Patchy 0 (utf8 (evidenceBundleJson (signed i))) file

section

variable {ι : Type} {P : Primitives} {store : FileStore} {faults : PutFaults}
  {signed : ι → SignedDecision} {files : Files.FileSystem} {i : ι}

theorem agree_signDecision {key : SigningKey} {bindings : ι → DecisionBinding}
    (hcollision : P.CollisionFree (DecisionBinding.preimage '' Set.range bindings)) :
    Agree (store.writer P ∘ fun i => signDecision P (bindings i) key) := by
  intro i j hpath
  have hdigest := path_eq_iff.mp hpath
  have hbinding : bindings i = bindings j :=
    digest_injOn hcollision ⟨i, rfl⟩ ⟨j, rfl⟩ hdigest
  simp only [Function.comp_apply, hbinding]

theorem get_eq_received {path : String} :
    get (uriFor path) files = received (files.lookup path) := by
  rw [get, uriFor, Files.stripPrefix_append, Option.getD_some]
  rfl

theorem Holds.sound (h : Holds P store signed files) (path : String) :
    Sound 0 (store.writer P ∘ signed) path (start ι files) where
  files i file hfile := by
    rw [Function.comp_apply, contents_writer]
    exact h i file hfile
  reader i _ got hgot := by
    rcases hgot with hgot | hgot
    · cases hgot
    · cases hgot

theorem received_of_patchy {s : SignedDecision} {bytes : List UInt8} {text : String}
    (h : Patchy 0 (utf8 (evidenceBundleJson s)) bytes) (htext : received (some bytes) = .ok text) :
    text = evidenceBundleJson s ∨
      ∀ hash trustedSigner, verifyBundle P text hash trustedSigner = .error .malformed := by
  rw [received] at htext
  cases hdecode : Files.decodeUtf8 bytes with
  | none =>
      rw [hdecode] at htext
      cases htext
  | some text' =>
      rw [hdecode] at htext
      obtain rfl := Except.ok.inj htext
      rcases eq_or_parseBundle_of_patchy h hdecode with heq | hnone
      · exact .inl heq
      · exact .inr fun hash trustedSigner => verifyBundle_of_malformed hnone hash trustedSigner

variable [DecidableEq ι]

theorem files_run_opens_writes (s : State ι String UInt8) (path : String) (n : ℕ) :
    (run 0 (store.writer P ∘ signed) path (.opens i :: List.replicate n (.writes i)) s).files =
      s.files.insert (store.path P (signed i))
        ((utf8 (evidenceBundleJson (signed i))).take n) := by
  rw [run_opens_writes]
  dsimp only
  rw [Function.comp_apply, path_writer, contents_writer]

/-- Undisturbed, a put leaves the files its steps leave, wherever it fails. -/
theorem put_snd_eq_run (s : State ι String UInt8) (path : String) :
    (put P store faults (signed i) s.files).2 =
      (run 0 (store.writer P ∘ signed) path
        (putEvents P store faults (signed i) i) s).files := by
  rw [putEvents]
  cases hcreate : faults.createDirAll with
  | some e =>
      rw [put_of_createDirAll hcreate]
      rfl
  | none =>
      rw [put_of_created hcreate]
      dsimp only
      cases hwrite : faults.write with
      | none =>
          simp only [Files.write_none, files_run_opens_writes, contents_writer, List.take_length]
      | some fault =>
          cases fault with
          | openFile e => rfl
          | writeAll written e => simp only [Files.write, files_run_opens_writes]

theorem exists_run_reads_get (s : State ι String UInt8) (path : String)
    (hready : s.reader = .ready) :
    ∃ n result, (run 0 (store.writer P ∘ signed) path (List.replicate n .reads) s).reader =
      .finished result ∧ get (uriFor path) s.files = received result := by
  rw [get_eq_received]
  cases hfile : s.files.lookup path with
  | none =>
      refine ⟨1, none, ?_, rfl⟩
      show look (s.files.lookup path) s.reader = _
      rw [hfile, hready]
      rfl
  | some file => exact ⟨_, some file, reader_run_reads hfile hready (le_refl _), rfl⟩

end

/-- However the steps of any number of puts and a read interleave, for
decisions that one key signed, and wherever a put stops: what is read is the
bundle or refused under every hash and signer, a file is whole once the put
that opened it last is through, and no other file is touched. -/
theorem concurrentPuts_safe {ι : Type} [DecidableEq ι] {P : Primitives} {key : SigningKey}
    {bindings : ι → DecisionBinding}
    (hcollision : P.CollisionFree (DecisionBinding.preimage '' Set.range bindings))
    {store : FileStore} {files : Files.FileSystem}
    (hfiles : Holds P store (fun i => signDecision P (bindings i) key) files)
    (reading : ι) (events : List (Event ι)) :
    let signed i := signDecision P (bindings i) key
    let path i := store.path P (signed i)
    let last := run 0 (store.writer P ∘ signed) (path reading) events (start ι files)
    (∀ result text, last.reader = .finished result → received result = .ok text →
        text = evidenceBundleJson (signed reading) ∨
          ∀ hash trustedSigner, verifyBundle P text hash trustedSigner = .error .malformed) ∧
      Holds P store signed last.files ∧
      (∀ before later i, events = before ++ .opens i :: later →
        (∀ j, .opens j ∈ later → path j ≠ path i) →
          last.offsets i = some (utf8 (evidenceBundleJson (signed i))).length →
            get (uriFor (path i)) last.files = .ok (evidenceBundleJson (signed i))) ∧
      ∀ other, (∀ i, path i ≠ other) → last.files.lookup other = files.lookup other := by
  intro signed path last
  have hagree : Agree (store.writer P ∘ signed) := agree_signDecision hcollision
  have hstart := Holds.sound hfiles (path reading)
  have hsound := hstart.run hagree events
  refine ⟨?_, ?_, ?_, ?_⟩
  · intro result text hfinished htext
    cases result with
    | none => cases htext
    | some bytes =>
        have hbytes := hsound.reader reading rfl bytes (.inr hfinished)
        rw [Function.comp_apply, contents_writer] at hbytes
        exact received_of_patchy hbytes htext
  · intro i file hfile
    have hpatchy := hsound.files i file hfile
    rw [Function.comp_apply, contents_writer] at hpatchy
    exact hpatchy
  · intro before later i hevents hlater hthrough
    rw [← contents_writer P store (signed i)] at hthrough
    subst hevents
    have hlookup := lookup_run_of_through hagree hstart hlater hthrough
    rw [Function.comp_apply, contents_writer, path_writer] at hlookup
    exact get_uriFor_eq_ok.mpr hlookup
  · intro other hother
    exact lookup_run_of_forall_ne hother

/-- The put of one process stops when it has truncated the file, under a
reader; the put of another goes through. -/
def tornEvents (n : ℕ) : List (Event Bool) :=
  [.opens false, .reads, .reads] ++ .opens true :: List.replicate n (.writes true)

theorem reader_tornEvents (P : Primitives) (store : FileStore) (signed : Bool → SignedDecision)
    (n : ℕ) : (run 0 (store.writer P ∘ signed) (store.path P (signed false)) (tornEvents n)
      (start Bool ∅)).reader = .finished (some []) := by
  rw [tornEvents, run_append, run_opens_writes]
  dsimp only
  simp only [run_cons, run_nil, step, Function.comp_apply, path_writer, Finmap.lookup_insert, look,
    start]
  rfl

theorem concurrentPuts_safe_torn :
    let P := Reference.primitives
    let store : FileStore := { root := "evidence" }
    let signed (_ : Bool) := signDecision P goldenBinding Reference.operatorKey
    let path := store.path P (signed false)
    let bundle := evidenceBundleJson (signed false)
    let last := run 0 (store.writer P ∘ signed) path (tornEvents (utf8 bundle).length)
      (start Bool ∅)
    (∃ result text, last.reader = .finished result ∧ received result = .ok text ∧
        ∀ hash trustedSigner, verifyBundle P text hash trustedSigner = .error .malformed) ∧
      get (uriFor path) last.files = .ok bundle := by
  intro P store signed path bundle last
  have hlast : last = run 0 (store.writer P ∘ signed) path (tornEvents (utf8 bundle).length)
      (start Bool ∅) := rfl
  clear_value last
  rw [hlast]
  have hcollision : P.CollisionFree
      (DecisionBinding.preimage '' Set.range fun _ : Bool => goldenBinding) := by
    apply collisionFree_of_forall_eq
    rintro b ⟨-, rfl⟩
    rfl
  have hfiles : Holds P store signed ∅ := by
    intro i file hfile
    cases hfile
  obtain ⟨hread, -, hwhole, -⟩ := concurrentPuts_safe hcollision hfiles false
    (tornEvents (utf8 bundle).length)
  have hreader := reader_tornEvents P store signed (utf8 bundle).length
  have hreceived : received (some []) = .ok "" := by
    have hempty : Files.decodeUtf8 [] = some "" := Files.decodeUtf8_eq_some.mpr rfl
    rw [received, hempty]
  refine ⟨⟨some [], "", hreader, hreceived, ?_⟩, ?_⟩
  · rcases hread (some []) "" hreader hreceived with hbundle | hmalformed
    · have hparse := parseBundle_evidenceBundleJson (signed false)
      rw [← hbundle] at hparse
      cases hparse
    · exact hmalformed
  · refine hwhole [.opens false, .reads, .reads] _ true rfl (fun j hj => ?_) ?_
    · cases List.eq_of_mem_replicate hj
    · rw [tornEvents, run_append, run_opens_writes]
      dsimp only
      rw [Function.update_self, Function.comp_apply, contents_writer, min_self]

end FileStore

end Liquet.Erc8004
