import Liquet.Erc8004.Store
import Liquet.Library.Files

/-!
The file-backed evidence store of `src/erc8004/store.rs`, over a file system
whose writes can fail, and the hash that both stores' URIs embed.
-/

namespace Liquet.Erc8004

open Text ContentAddressed

/-- The hash embedded in a URI: its last segment, less a `.json` suffix. The
source always has one. -/
def ResponseUri.embeddedHash (uri : ResponseUri) : Option String :=
  let tail := Files.lastSegment uri.value
  some ((Files.stripSuffix ".json" tail).getD tail)

structure FileStore where
  root : String
  deriving DecidableEq, Repr

/-- Where the two I/O steps of a put fail, if they do. -/
structure PutFaults where
  createDirAll : Option IoError
  write : Option (Files.WriteFault IoError)

def PutFaults.none : PutFaults := { createDirAll := .none, write := .none }

namespace FileStore

def pathFor (store : FileStore) (hash : String) : String := Files.join store.root (hash ++ ".json")

def uriFor (path : String) : ResponseUri := { value := "file://" ++ path }

/-- Creating the directory leaves the files as they are, whether it fails or
not. -/
def put (P : Primitives) (store : FileStore) (faults : PutFaults) (signed : SignedDecision)
    (files : Files.FileSystem) : Except IoError ResponseUri × Files.FileSystem :=
  match faults.createDirAll with
  -- the directory is made before the path is, so no file is touched yet
  | some e => (.error e, files)
  | none =>
      let path := store.pathFor (contentHash P signed)
      match Files.write path (utf8 (evidenceBundleJson signed)) faults.write files with
      | (.error e, files') => (.error e, files')
      | (.ok (), files') => (.ok (uriFor path), files')

def get (uri : ResponseUri) (files : Files.FileSystem) : Except IoError String :=
  -- one scheme is taken off, even where the root holds another
  let path := (Files.stripPrefix "file://" uri.value).getD uri.value
  match files.lookup path with
  | none => .error { kind := .notFound, message := "No such file or directory (os error 2)" }
  | some bytes =>
      match Files.decodeUtf8 bytes with
      | none => .error { kind := .other, message := "stream did not contain valid UTF-8" }
      | some bundle => .ok bundle

def evidenceStore (P : Primitives) (store : FileStore) (faults : PutFaults) :
    EvidenceStore Files.FileSystem where
  put := put P store faults
  get := get

def path (P : Primitives) (store : FileStore) (signed : SignedDecision) : String :=
  store.pathFor (contentHash P signed)

/-- The store as a content-addressed one: the bytes of a bundle at its path. -/
def scheme (P : Primitives) (store : FileStore) : Scheme SignedDecision String (List UInt8) where
  address := store.path P
  content signed := utf8 (evidenceBundleJson signed)

end FileStore

/-! ### Hashes in paths and URIs -/

theorem notMem_hexEncode {c : Char} (h : Text.hexVal c = none) (bytes : List UInt8) :
    c ∉ (hexEncode bytes).toList := by
  intro hc
  rw [hexEncode, String.toList_ofList, List.mem_flatMap] at hc
  obtain ⟨b, -, hb⟩ := hc
  have hbound := b.toNat_lt
  have hdigit {n : ℕ} (hn : n < 16) : c ≠ Nat.digitChar n := by
    rintro rfl
    rw [hexVal_digitChar hn] at h
    cases h
  rw [hexPair, List.mem_pair] at hb
  rcases hb with hb | hb
  · exact hdigit (by omega) hb
  · exact hdigit (by omega) hb

section

variable {P : Primitives} {store : FileStore} {signed signed' : SignedDecision}
  {faults : PutFaults} {files : Files.FileSystem}

theorem slash_notMem_fileName (P : Primitives) (signed : SignedDecision) :
    '/' ∉ (contentHash P signed ++ ".json").toList := by
  rw [String.toList_append, List.mem_append, not_or]
  exact ⟨notMem_hexEncode (by decide) _, by decide⟩

namespace FileStore

theorem path_eq (P : Primitives) (store : FileStore) (signed : SignedDecision) :
    store.path P signed = Files.directory store.root ++ (contentHash P signed ++ ".json") :=
  Files.join_of_relative (slash_notMem_fileName P signed)

/-- Under every root, two decisions share a path exactly when they share a
digest. -/
theorem path_eq_iff : store.path P signed = store.path P signed' ↔
    signed.binding.digest P = signed'.binding.digest P := by
  rw [path_eq, path_eq, String.append_right_inj, String.append_left_inj, contentHash_inj]

theorem uriFor_inj {path path' : String} : uriFor path = uriFor path' ↔ path = path' := by
  rw [uriFor, uriFor, ResponseUri.mk.injEq, String.append_right_inj]

theorem get_uriFor_eq_ok {path bundle : String} :
    get (uriFor path) files = .ok bundle ↔ files.lookup path = some (utf8 bundle) := by
  rw [get, uriFor, Files.stripPrefix_append, Option.getD_some]
  cases hlookup : files.lookup path with
  | none => exact iff_of_false nofun nofun
  | some bytes =>
      rw [Option.some.injEq, utf8, ← Files.decodeUtf8_eq_some]
      dsimp only
      cases Files.decodeUtf8 bytes with
      | none => exact iff_of_false nofun nofun
      | some text => rw [Except.ok.injEq, Option.some.injEq]

@[simp] theorem address_scheme : (store.scheme P).address = store.path P := rfl

@[simp] theorem content_scheme :
    (store.scheme P).content signed = utf8 (evidenceBundleJson signed) := by
  rw [scheme]

theorem get_of_serves {puts : List SignedDecision} (h : (store.scheme P).Serves files puts)
    (hsigned : signed ∈ puts) :
    get (uriFor (store.path P signed)) files =
      .ok (evidenceBundleJson ((store.scheme P).latest puts signed)) := by
  have hlookup := h signed hsigned
  rw [address_scheme, content_scheme] at hlookup
  exact get_uriFor_eq_ok.mpr hlookup

theorem put_of_createDirAll {e : IoError} (h : faults.createDirAll = some e) :
    put P store faults signed files = (.error e, files) := by
  rw [put, h]

theorem put_of_created (h : faults.createDirAll = none) :
    put P store faults signed files =
      let written := Files.write (store.path P signed) (utf8 (evidenceBundleJson signed))
        faults.write files
      (written.1.map fun _ => uriFor (store.path P signed), written.2) := by
  rw [put, h]
  dsimp only
  cases hwritten : Files.write (store.pathFor (contentHash P signed))
    (utf8 (evidenceBundleJson signed)) faults.write files with
  | mk result files' =>
      rw [path, hwritten]
      cases result with
      | error e => rfl
      | ok _ => rfl

theorem put_none (P : Primitives) (store : FileStore) (signed : SignedDecision)
    (files : Files.FileSystem) :
    put P store .none signed files =
      (.ok (uriFor (store.path P signed)), (store.scheme P).pin files signed) := by
  have hcreate : PutFaults.none.createDirAll = none := rfl
  have hwrite : PutFaults.none.write = none := rfl
  rw [put_of_created hcreate, hwrite, Files.write_none, Scheme.pin, address_scheme, content_scheme]
  simp only [Except.map]

theorem put_eq_ok {uri : ResponseUri} (h : (put P store faults signed files).1 = .ok uri) :
    faults = .none := by
  obtain ⟨createDirAll, write⟩ := faults
  cases createDirAll with
  | some e => cases h
  | none =>
      cases write with
      | none => rfl
      | some fault =>
          cases fault with
          | openFile e => cases h
          | writeAll written e => cases h

theorem lookup_put_of_ne {path : String} (h : path ≠ store.path P signed) :
    (put P store faults signed files).2.lookup path = files.lookup path := by
  cases hcreate : faults.createDirAll with
  | some e => rw [put_of_createDirAll hcreate]
  | none =>
      rw [put_of_created hcreate]
      exact Files.lookup_write_of_ne h

/-- A put that fails spares the file at its own path unless it got to write,
and then only if it wrote what was there. -/
theorem lookup_put_of_error {e : IoError} {old : List UInt8}
    (hold : files.lookup (store.path P signed) = some old)
    (hfailed : (put P store faults signed files).1 = .error e) :
    (put P store faults signed files).2.lookup (store.path P signed) = some old ↔
      ∀ written e', faults.createDirAll = none → faults.write = some (.writeAll written e') →
        (utf8 (evidenceBundleJson signed)).take written = old := by
  cases hcreate : faults.createDirAll with
  | some e' =>
      rw [put_of_createDirAll hcreate]
      exact iff_of_true hold nofun
  | none =>
      rw [put_of_created hcreate] at hfailed ⊢
      cases hwritten : (Files.write (store.path P signed) (utf8 (evidenceBundleJson signed))
        faults.write files).1 with
      | ok _ =>
          simp only [hwritten, Except.map] at hfailed
          cases hfailed
      | error e' =>
          rw [Files.lookup_write_of_error hold hwritten]
          constructor
          · exact fun h written e' _ => h written e'
          · exact fun h written e' => h written e' rfl

end FileStore

/-- Whatever the root, its slashes, dots and schemes come before the last
separator of the URI. -/
theorem embeddedHash_fileStore : (FileStore.uriFor (store.path P signed)).embeddedHash =
    some (contentHash P signed) := by
  have hscheme := Files.getLast?_append_directory (s := "file://") rfl store.root
  rw [ResponseUri.embeddedHash, FileStore.uriFor, FileStore.path_eq, ← String.append_assoc,
    Files.lastSegment_append hscheme (slash_notMem_fileName P signed), Files.stripSuffix_append,
    Option.getD_some]

theorem embeddedHash_memStore :
    ({ value := MemStore.uri P signed } : ResponseUri).embeddedHash =
      some (contentHash P signed) := by
  have hslash : '/' ∉ (contentHash P signed).toList := notMem_hexEncode (by decide) _
  have hdot : '.' ∉ (contentHash P signed).toList := notMem_hexEncode (by decide) _
  have hsuffix : Files.stripSuffix ".json" (contentHash P signed) = none :=
    Files.stripSuffix_eq_none (by decide) hdot
  rw [ResponseUri.embeddedHash, MemStore.uri, Files.lastSegment_append rfl hslash, hsuffix,
    Option.getD_none]

end

end Liquet.Erc8004
