import Liquet.Erc8004.FileStore

/-!
The two stores of `src/erc8004/store.rs` seen by a client that asks only for
what it was given a URI for. Each implements one abstract store, a log of
decisions read by the digest of their bindings, under its own URIs; so a client
tells the stores apart by the text of a URI and by nothing else.
-/

namespace Liquet.Erc8004

open Text ContentAddressed

/-- One call of a client. A get asks for the URI that the put so many puts from
the first returned. -/
inductive ClientCall
  | put (signed : SignedDecision)
  | get (earlier : ℕ)

/-! ### The abstract store -/

def evidence (P : Primitives) : Scheme SignedDecision Digest String where
  address signed := signed.binding.digest P
  content := evidenceBundleJson

/-- What was put, and the bundles the gets so far should have given. -/
structure Log where
  puts : List SignedDecision
  bundles : List String

def Log.call (P : Primitives) (log : Log) : ClientCall → Log
  | .put signed => { log with puts := log.puts ++ [signed] }
  | .get earlier =>
      match log.puts[earlier]? with
      | some signed =>
          { log with
            bundles := log.bundles ++
              [evidenceBundleJson ((evidence P).latest log.puts signed)] }
      | none => log

def Log.run (P : Primitives) (log : Log) (calls : List ClientCall) : Log := calls.foldl (Log.call P) log

def decisionsPut (calls : List ClientCall) : List SignedDecision :=
  calls.filterMap fun
    | .put signed => some signed
    | .get _ => none

theorem puts_run (P : Primitives) (log : Log) (calls : List ClientCall) :
    (log.run P calls).puts = log.puts ++ decisionsPut calls := by
  induction calls generalizing log with
  | nil => exact (List.append_nil _).symm
  | cons call calls ih =>
      rw [Log.run, List.foldl_cons, ← Log.run, ih]
      cases call with
      | put signed =>
          rw [Log.call, List.append_assoc]
          rfl
      | get earlier =>
          rw [Log.call]
          split <;> rfl

/-! ### A client's session -/

structure Session (σ : Type) where
  store : σ
  uris : List ResponseUri
  bundles : List (Except IoError String)

def Session.call {σ : Type} (E : EvidenceStore σ) (session : Session σ) : ClientCall → Session σ
  | .put signed =>
      match E.put signed session.store with
      | (.ok uri, store) => { session with store, uris := session.uris ++ [uri] }
      | (.error _, store) => { session with store }
  | .get earlier =>
      match session.uris[earlier]? with
      | some uri => { session with bundles := session.bundles ++ [E.get uri session.store] }
      | none => session

def Session.run {σ : Type} (E : EvidenceStore σ) (session : Session σ) (calls : List ClientCall) :
    Session σ :=
  calls.foldl (Session.call E) session

def Session.start {σ : Type} (store : σ) : Session σ := { store, uris := [], bundles := [] }

/-! ### Implementations -/

section

variable {σ : Type} {P : Primitives} {E : EvidenceStore σ} {uri : SignedDecision → ResponseUri}
  {Holds : σ → List SignedDecision → Prop}

/-- The store implements the log under these URIs. `Holds` relates its states
to what was put. -/
structure Implements (P : Primitives) (E : EvidenceStore σ) (uri : SignedDecision → ResponseUri)
    (Holds : σ → List SignedDecision → Prop) : Prop where
  put : ∀ {store puts}, Holds store puts → ∀ signed,
    ∃ store', E.put signed store = (.ok (uri signed), store') ∧ Holds store' (puts ++ [signed])
  get : ∀ {store puts}, Holds store puts → ∀ signed ∈ puts,
    E.get (uri signed) store = .ok (evidenceBundleJson ((evidence P).latest puts signed))

/-- The simulation: the session has seen what the log says. -/
structure Follows (uri : SignedDecision → ResponseUri) (Holds : σ → List SignedDecision → Prop)
    (session : Session σ) (log : Log) : Prop where
  store : Holds session.store log.puts
  uris : session.uris = log.puts.map uri
  bundles : session.bundles = log.bundles.map .ok

theorem Implements.call (h : Implements P E uri Holds) {session : Session σ} {log : Log}
    (hfollows : Follows uri Holds session log) (call : ClientCall) :
    Follows uri Holds (session.call E call) (log.call P call) := by
  cases call with
  | put signed =>
      obtain ⟨store', hput, hholds⟩ := h.put hfollows.store signed
      rw [Session.call, hput]
      refine ⟨hholds, ?_, hfollows.bundles⟩
      rw [Log.call, List.map_append, hfollows.uris]
      rfl
  | get earlier =>
      have huri : session.uris[earlier]? = log.puts[earlier]?.map uri := by
        rw [hfollows.uris, List.getElem?_map]
      cases hsigned : log.puts[earlier]? with
      | none =>
          -- there is no such put yet, so neither the client nor the log moves
          rw [hsigned, Option.map_none] at huri
          rw [Session.call, huri, Log.call, hsigned]
          exact hfollows
      | some signed =>
          rw [hsigned, Option.map_some] at huri
          rw [Session.call, huri, Log.call, hsigned]
          refine ⟨hfollows.store, hfollows.uris, ?_⟩
          dsimp only
          rw [h.get hfollows.store signed (List.mem_of_getElem? hsigned), List.map_append,
            hfollows.bundles]
          rfl

theorem Implements.run (h : Implements P E uri Holds) {session : Session σ} {log : Log}
    (hfollows : Follows uri Holds session log) (calls : List ClientCall) :
    Follows uri Holds (session.run E calls) (log.run P calls) := by
  induction calls generalizing session log with
  | nil => exact hfollows
  | cons call calls ih => exact ih (h.call hfollows call)

end

/-! ### The two stores -/

theorem memStore_implements (P : Primitives) :
    Implements P (MemStore.evidenceStore P) (fun signed => { value := MemStore.uri P signed })
      fun store puts => (MemStore.scheme P).Serves store.byUri puts where
  put := by
    intro store puts hstore signed
    exact ⟨(MemStore.put P signed store).2, rfl, hstore.pin signed⟩
  get := by
    intro store puts hstore signed hsigned
    have hlatest : (MemStore.scheme P).latest puts signed = (evidence P).latest puts signed :=
      Scheme.latest_congr fun _ _ => MemStore.uri_eq_iff
    rw [← hlatest]
    exact MemStore.get_eq_ok.mpr (hstore signed hsigned)

theorem fileStore_implements (P : Primitives) (store : FileStore) :
    Implements P (store.evidenceStore P .none)
      (fun signed => FileStore.uriFor (store.path P signed))
      fun files puts => (store.scheme P).Serves files puts where
  put := by
    intro files puts hfiles signed
    refine ⟨(store.scheme P).pin files signed, ?_, ?_⟩
    · exact FileStore.put_none P store signed files
    · exact hfiles.pin signed
  get := by
    intro files puts hfiles signed hsigned
    have hlatest : (store.scheme P).latest puts signed = (evidence P).latest puts signed :=
      Scheme.latest_congr fun _ _ => FileStore.path_eq_iff
    rw [← hlatest]
    exact FileStore.get_of_serves hfiles hsigned

def Log.start : Log := { puts := [], bundles := [] }

/-- A session over a store that implements the log, as the client sees it: the
URIs of the decisions put, and the bundles of the log. -/
theorem Implements.run_start {σ : Type} {P : Primitives} {E : EvidenceStore σ}
    {uri : SignedDecision → ResponseUri} {Holds : σ → List SignedDecision → Prop}
    (h : Implements P E uri Holds) (store : σ) (hstore : Holds store [])
    (calls : List ClientCall) :
    ((Session.start store).run E calls).uris = (decisionsPut calls).map uri ∧
      ((Session.start store).run E calls).bundles = (Log.start.run P calls).bundles.map .ok := by
  have hstart : Follows uri Holds (Session.start store) Log.start := ⟨hstore, rfl, rfl⟩
  have hfollows := h.run hstart calls
  refine ⟨?_, hfollows.bundles⟩
  rw [hfollows.uris, puts_run]
  rfl

theorem getElem?_map_eq_iff {uri uri' : SignedDecision → ResponseUri}
    (h : ∀ s t, uri s = uri t ↔ uri' s = uri' t) (puts : List SignedDecision) (i j : ℕ) :
    (puts.map uri)[i]? = (puts.map uri)[j]? ↔ (puts.map uri')[i]? = (puts.map uri')[j]? := by
  simp only [List.getElem?_map]
  cases puts[i]? with
  | none =>
      cases puts[j]? with
      | none => exact Iff.rfl
      | some t => exact iff_of_false nofun nofun
  | some s =>
      cases puts[j]? with
      | none => exact iff_of_false nofun nofun
      | some t =>
          simp only [Option.map_some, Option.some.injEq]
          exact h s t

/-- Under every root, and whatever files there are, the file-backed store gives
a client the bundles the in-memory store gives, tells its puts apart where that
does, and embeds the digest of each decision in its URI as that does. -/
theorem fileStore_refines_memStore (P : Primitives) (store : FileStore)
    (files : Files.FileSystem) (calls : List ClientCall) :
    let file := (Session.start files).run (store.evidenceStore P .none) calls
    let mem := (Session.start MemStore.new).run (MemStore.evidenceStore P) calls
    file.bundles = mem.bundles ∧ (∀ bundle ∈ file.bundles, ∃ text, bundle = .ok text) ∧
      (∀ i j : ℕ, file.uris[i]? = file.uris[j]? ↔ mem.uris[i]? = mem.uris[j]?) ∧
      file.uris.map ResponseUri.embeddedHash =
        (decisionsPut calls).map (fun s => some (hexEncode (s.binding.digest P).toList)) ∧
      mem.uris.map ResponseUri.embeddedHash =
        (decisionsPut calls).map (fun s => some (hexEncode (s.binding.digest P).toList)) := by
  obtain ⟨hfileUris, hfileBundles⟩ :=
    (fileStore_implements P store).run_start files Scheme.serves_nil calls
  obtain ⟨hmemUris, hmemBundles⟩ :=
    (memStore_implements P).run_start .new Scheme.serves_nil calls
  dsimp only
  rw [hfileUris, hfileBundles, hmemUris, hmemBundles]
  refine ⟨rfl, ?_, ?_, ?_, ?_⟩
  · intro bundle hbundle
    obtain ⟨text, -, rfl⟩ := List.mem_map.mp hbundle
    exact ⟨text, rfl⟩
  · refine getElem?_map_eq_iff (fun s t => ?_) (decisionsPut calls)
    have hfile : FileStore.uriFor (store.path P s) = FileStore.uriFor (store.path P t) ↔
        s.binding.digest P = t.binding.digest P := by
      rw [FileStore.uriFor_inj, FileStore.path_eq_iff]
    rw [hfile, ResponseUri.mk.injEq, MemStore.uri_eq_iff]
  · rw [List.map_map]
    exact List.map_congr_left fun s _ => embeddedHash_fileStore
  · rw [List.map_map]
    exact List.map_congr_left fun s _ => embeddedHash_memStore

end Liquet.Erc8004
