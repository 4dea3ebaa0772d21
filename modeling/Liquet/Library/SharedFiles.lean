import Mathlib.Data.Finmap
import Mathlib.Data.List.GetD
import Mathlib.Data.List.TakeDrop

/-!
Files that several writers fill and a reader reads at once, step by step. A
writer truncates its file when it opens it and then writes its contents from
the front, each at its own offset; a byte past the end leaves a hole in front
of it. The reader takes what stands at its own offset until there is nothing.
As long as the writers of one file agree on its contents, what is read is these
contents up to some place, with holes; and the file is whole once the writer
that opened it last is through.
-/

namespace SharedFiles

structure Task (κ β : Type*) where
  path : κ
  contents : List β

/-- The reader of one file: not there yet, reading, or at an end. `none` is a
file that does not exist. -/
inductive Reader (β : Type*)
  | ready
  | reading (got : List β)
  | finished (result : Option (List β))

/-- The files, how far each writer is that has opened its own, and the reader. -/
structure State (ι κ β : Type*) where
  files : Finmap fun _ : κ => List β
  offsets : ι → Option ℕ
  reader : Reader β

inductive Event (ι : Type*)
  | opens (i : ι)
  | writes (i : ι)
  | reads

section

variable {β : Type*}

/-- Write at an offset, behind a hole if the file ends in front of it. -/
def writeAt (hole : β) (file : List β) (offset : ℕ) (b : β) : List β :=
  file.take offset ++ List.replicate (offset - file.length) hole ++ b :: file.drop (offset + 1)

/-- The contents up to some place, with holes. -/
def Patchy (hole : β) (contents file : List β) : Prop :=
  file.length ≤ contents.length ∧
    ∀ (n : ℕ) (b : β), file[n]? = some b → b = hole ∨ contents[n]? = some b

variable {hole b : β} {contents file : List β} {offset n : ℕ}

@[simp] theorem length_writeAt :
    (writeAt hole file offset b).length = max file.length (offset + 1) := by
  rw [writeAt, List.length_append, List.length_append, List.length_take, List.length_replicate,
    List.length_cons, List.length_drop]
  omega

theorem getElem?_writeAt_of_lt (h : n < offset) :
    (writeAt hole file offset b)[n]? = some (file[n]?.getD hole) := by
  have hlength : (file.take offset ++ List.replicate (offset - file.length) hole).length =
      offset := by
    rw [List.length_append, List.length_take, List.length_replicate]
    omega
  rw [writeAt, List.getElem?_append_left (by omega)]
  by_cases hn : n < file.length
  · rw [List.getElem?_append_left (by rw [List.length_take]; omega), List.getElem?_take_of_lt h,
      List.getElem?_eq_getElem hn, Option.getD_some]
  · rw [List.getElem?_append_right (by rw [List.length_take]; omega), List.length_take,
      List.getElem?_replicate, if_pos (by omega), List.getElem?_eq_none (by omega),
      Option.getD_none]

theorem getElem?_writeAt_of_ge (h : offset ≤ n) :
    (writeAt hole file offset b)[n]? = if n = offset then some b else file[n]? := by
  have hlength : (file.take offset ++ List.replicate (offset - file.length) hole).length =
      offset := by
    rw [List.length_append, List.length_take, List.length_replicate]
    omega
  rw [writeAt, List.getElem?_append_right (by omega), hlength]
  by_cases hn : n = offset
  · rw [if_pos hn, hn, Nat.sub_self]
    rfl
  · rw [if_neg hn, List.getElem?_cons, if_neg (by omega), List.getElem?_drop]
    congr 1
    omega

theorem Patchy.writeAt (h : Patchy hole contents file) (hb : contents[offset]? = some b) :
    Patchy hole contents (writeAt hole file offset b) := by
  obtain ⟨hlength, hfile⟩ := h
  have hoffset : offset < contents.length := (List.getElem?_eq_some_iff.mp hb).1
  refine ⟨by rw [length_writeAt]; omega, fun n b' hb' => ?_⟩
  rcases lt_or_ge n offset with hn | hn
  · rw [getElem?_writeAt_of_lt hn, Option.some.injEq] at hb'
    cases hold : file[n]? with
    | none =>
        rw [hold] at hb'
        exact .inl hb'.symm
    | some old =>
        rw [hold, Option.getD_some] at hb'
        rw [← hb']
        exact hfile n old hold
  · rw [getElem?_writeAt_of_ge hn] at hb'
    split at hb' <;> rename_i heq
    · rw [heq, hb, hb']
      exact .inr rfl
    · exact hfile n b' hb'

theorem getElem?_writeAt_of_eq (hn : n < contents.length)
    (hwritten : file[n]? = contents[n]? ∨ n = offset) (hb : contents[offset]? = some b) :
    (writeAt hole file offset b)[n]? = contents[n]? := by
  rcases lt_or_ge n offset with hlt | hge
  · have heq : file[n]? = contents[n]? := hwritten.resolve_right (by omega)
    rw [getElem?_writeAt_of_lt hlt, heq, List.getElem?_eq_getElem hn, Option.getD_some]
  · rw [getElem?_writeAt_of_ge hge]
    split <;> rename_i hoffset
    · rw [hoffset, hb]
    · exact hwritten.resolve_right hoffset

theorem patchy_nil (hole : β) (contents : List β) : Patchy hole contents [] :=
  ⟨Nat.zero_le _, nofun⟩

theorem Patchy.eq_take (h : Patchy hole contents file) (hhole : hole ∉ file) :
    file = contents.take file.length := by
  apply List.ext_getElem?
  intro n
  rcases lt_or_ge n file.length with hn | hn
  · rw [List.getElem?_take_of_lt hn, List.getElem?_eq_getElem hn]
    rcases h.2 n _ (List.getElem?_eq_getElem hn) with heq | heq
    · rw [← heq] at hhole
      exact absurd (List.getElem_mem hn) hhole
    · exact heq.symm
  · rw [List.getElem?_eq_none hn, List.getElem?_eq_none (by rw [List.length_take]; omega)]

end

/-! ### Steps -/

section

variable {ι κ β : Type*} [DecidableEq ι] [DecidableEq κ] (hole : β) (task : ι → Task κ β) (path : κ)

def look (file : Option (List β)) : Reader β → Reader β
  | .ready =>
      match file with
      | none => .finished none
      | some _ => .reading []
  | .reading got =>
      match (file.getD [])[got.length]? with
      | none => .finished (some got)
      | some b => .reading (got ++ [b])
  | .finished result => .finished result

def step (s : State ι κ β) : Event ι → State ι κ β
  | .opens i =>
      { s with
        files := s.files.insert (task i).path []
        offsets := Function.update s.offsets i (some 0) }
  | .writes i =>
      match s.offsets i with
      | none => s
      | some offset =>
          match (task i).contents[offset]? with
          | none => s
          | some b =>
              let file := (s.files.lookup (task i).path).getD []
              { s with
                files := s.files.insert (task i).path (writeAt hole file offset b)
                offsets := Function.update s.offsets i (some (offset + 1)) }
  | .reads => { s with reader := look (s.files.lookup path) s.reader }

def run (events : List (Event ι)) (s : State ι κ β) : State ι κ β :=
  events.foldl (step hole task path) s

/-- Writers of one file write the same. -/
def Agree (task : ι → Task κ β) : Prop :=
  ∀ i j, (task i).path = (task j).path → (task i).contents = (task j).contents

/-- What is in the files, and what the reader has got of its own. -/
structure Sound (s : State ι κ β) : Prop where
  files : ∀ i file, s.files.lookup (task i).path = some file →
    Patchy hole (task i).contents file
  reader : ∀ i, (task i).path = path → ∀ got,
    s.reader = .reading got ∨ s.reader = .finished (some got) → Patchy hole (task i).contents got

/-- A writer that has its file open has written what it is through with. -/
def Written (i : ι) (s : State ι κ β) : Prop :=
  ∃ offset file, s.offsets i = some offset ∧ s.files.lookup (task i).path = some file ∧
    offset ≤ (task i).contents.length ∧ ∀ n < offset, file[n]? = (task i).contents[n]?

variable {hole task path} {s : State ι κ β} {e : Event ι} {events later : List (Event ι)} {i : ι}
  {k : κ}

@[simp] theorem run_nil : run hole task path [] s = s := rfl

@[simp] theorem run_cons :
    run hole task path (e :: events) s = run hole task path events (step hole task path s e) := rfl

theorem run_append : run hole task path (events ++ later) s =
    run hole task path later (run hole task path events s) := List.foldl_append

/-- All a step can do to a file. -/
theorem lookup_step (hole : β) (s : State ι κ β) (e : Event ι) (k : κ) :
    (step hole task path s e).files.lookup k = s.files.lookup k ∨
      (∃ i, e = .opens i ∧ (task i).path = k ∧
        (step hole task path s e).files.lookup k = some []) ∨
      ∃ i offset b, e = .writes i ∧ (task i).path = k ∧ s.offsets i = some offset ∧
        (task i).contents[offset]? = some b ∧
        (step hole task path s e).files.lookup k =
          some (writeAt hole ((s.files.lookup k).getD []) offset b) := by
  cases e with
  | reads => exact .inl rfl
  | opens i =>
      by_cases hk : (task i).path = k
      · subst hk
        exact .inr (.inl ⟨i, rfl, rfl, Finmap.lookup_insert _⟩)
      · exact .inl (Finmap.lookup_insert_of_ne _ (Ne.symm hk))
  | writes i =>
      cases hoffset : s.offsets i with
      | none => exact .inl (by rw [step, hoffset])
      | some offset =>
          cases hb : (task i).contents[offset]? with
          | none => exact .inl (by simp only [step, hoffset, hb])
          | some b =>
              by_cases hk : (task i).path = k
              · subst hk
                refine .inr (.inr ⟨i, offset, b, rfl, rfl, hoffset, hb, ?_⟩)
                simp only [step, hoffset, hb]
                exact Finmap.lookup_insert _
              · refine .inl ?_
                simp only [step, hoffset, hb]
                exact Finmap.lookup_insert_of_ne _ (Ne.symm hk)

theorem reader_step (hole : β) (s : State ι κ β) (e : Event ι) :
    (step hole task path s e).reader = s.reader ∨
      (step hole task path s e).reader = look (s.files.lookup path) s.reader := by
  cases e with
  | reads => exact .inr rfl
  | opens i => exact .inl rfl
  | writes i =>
      refine .inl ?_
      simp only [step]
      split
      · rfl
      · split <;> rfl

theorem lookup_run_of_forall_ne (hk : ∀ i, (task i).path ≠ k) :
    (run hole task path events s).files.lookup k = s.files.lookup k := by
  induction events generalizing s with
  | nil => rfl
  | cons e events ih =>
      rw [run_cons, ih]
      rcases lookup_step hole s e k with h | ⟨i, -, hi, -⟩ | ⟨i, -, -, -, hi, -⟩
      · exact h
      · exact absurd hi (hk i)
      · exact absurd hi (hk i)

/-! ### What is read -/

theorem Patchy.append_singleton {contents got file : List β} {b : β}
    (hgot : Patchy hole contents got) (hfile : Patchy hole contents file)
    (hb : file[got.length]? = some b) : Patchy hole contents (got ++ [b]) := by
  have hlength := (List.getElem?_eq_some_iff.mp hb).1
  refine ⟨?_, fun n b' hb' => ?_⟩
  · rw [List.length_append, List.length_singleton]
    exact le_trans hlength hfile.1
  · rcases lt_or_ge n got.length with hn | hn
    · rw [List.getElem?_append_left hn] at hb'
      exact hgot.2 n b' hb'
    · rw [List.getElem?_append_right hn, List.getElem?_singleton] at hb'
      split at hb' <;> rename_i hzero
      · obtain rfl : n = got.length := by omega
        exact hfile.2 _ _ (hb.trans hb')
      · cases hb'

theorem patchy_look {contents : List β} {file : Option (List β)} {reader : Reader β}
    (hfile : ∀ f ∈ file, Patchy hole contents f)
    (hreader : ∀ got, reader = .reading got ∨ reader = .finished (some got) →
      Patchy hole contents got)
    {got : List β}
    (hgot : look file reader = .reading got ∨ look file reader = .finished (some got)) :
    Patchy hole contents got := by
  cases reader with
  | finished result => exact hreader got hgot
  | ready =>
      cases file with
      | none => rcases hgot with h | h <;> cases h
      | some f =>
          rcases hgot with h | h
          · obtain rfl := Reader.reading.inj h
            exact patchy_nil _ _
          · cases h
  | reading got' =>
      have hgot' := hreader got' (.inl rfl)
      rw [look] at hgot
      cases hb : (file.getD [])[got'.length]? with
      | none =>
          rw [hb] at hgot
          rcases hgot with h | h
          · cases h
          · obtain rfl := Option.some.inj (Reader.finished.inj h)
            exact hgot'
      | some b =>
          rw [hb] at hgot
          rcases hgot with h | h
          · obtain rfl := Reader.reading.inj h
            cases file with
            | none => cases hb
            | some f => exact hgot'.append_singleton (hfile f rfl) hb
          · cases h

theorem Sound.step (hagree : Agree task) (h : Sound hole task path s) (e : Event ι) :
    Sound hole task path (step hole task path s e) where
  files i file hfile := by
    rcases lookup_step hole s e (task i).path with
      heq | ⟨j, -, hj, heq⟩ | ⟨j, offset, b, -, hj, -, hb, heq⟩
    · rw [heq] at hfile
      exact h.files i file hfile
    · rw [heq, Option.some.injEq] at hfile
      rw [← hfile]
      exact patchy_nil _ _
    · rw [heq, Option.some.injEq] at hfile
      rw [hagree j i hj] at hb
      rw [← hfile]
      apply Patchy.writeAt _ hb
      cases hold : s.files.lookup (task i).path with
      | none => exact patchy_nil _ _
      | some old => exact h.files i old hold
  reader i hi got hgot := by
    rcases reader_step hole s e with heq | heq
    · rw [heq] at hgot
      exact h.reader i hi got hgot
    · rw [heq] at hgot
      apply patchy_look (fun f hf => ?_) (h.reader i hi) hgot
      rw [← hi] at hf
      exact h.files i f hf

theorem Sound.run (hagree : Agree task) (h : Sound hole task path s) (events : List (Event ι)) :
    Sound hole task path (run hole task path events s) := by
  induction events generalizing s with
  | nil => exact h
  | cons e events ih => exact ih (h.step hagree e)

/-! ### What is left in the end -/

theorem Written.step (hagree : Agree task) (h : Written task i s)
    (he : ∀ j, e = .opens j → (task j).path ≠ (task i).path) :
    Written task i (step hole task path s e) := by
  obtain ⟨offset, file, hoffset, hfile, hle, hwritten⟩ := h
  cases e with
  | reads => exact ⟨offset, file, hoffset, hfile, hle, hwritten⟩
  | opens j =>
      have hpath := he j rfl
      have hij : i ≠ j := by
        rintro rfl
        exact hpath rfl
      exact ⟨offset, file, (Function.update_of_ne hij _ _).trans hoffset,
        (Finmap.lookup_insert_of_ne _ hpath.symm).trans hfile, hle, hwritten⟩
  | writes j =>
      cases hj : s.offsets j with
      | none =>
          rw [SharedFiles.step, hj]
          exact ⟨offset, file, hoffset, hfile, hle, hwritten⟩
      | some offset' =>
          cases hb : (task j).contents[offset']? with
          | none =>
              simp only [SharedFiles.step, hj, hb]
              exact ⟨offset, file, hoffset, hfile, hle, hwritten⟩
          | some b =>
              simp only [SharedFiles.step, hj, hb]
              by_cases hpath : (task j).path = (task i).path
              · have hb' : (task i).contents[offset']? = some b := hagree j i hpath ▸ hb
                have hoffset' := (List.getElem?_eq_some_iff.mp hb').1
                rw [hpath, hfile, Option.getD_some]
                by_cases hij : i = j
                · subst hij
                  obtain rfl : offset = offset' := Option.some.inj (hoffset.symm.trans hj)
                  refine ⟨offset + 1, _, Function.update_self .., Finmap.lookup_insert _, hoffset',
                    fun n hn => ?_⟩
                  refine getElem?_writeAt_of_eq (by omega) ?_ hb'
                  rcases Nat.lt_succ_iff_lt_or_eq.mp hn with hn | hn
                  · exact .inl (hwritten n hn)
                  · exact .inr hn
                · refine ⟨offset, _, (Function.update_of_ne hij _ _).trans hoffset,
                    Finmap.lookup_insert _, hle, fun n hn => ?_⟩
                  exact getElem?_writeAt_of_eq (by omega) (.inl (hwritten n hn)) hb'
              · have hij : i ≠ j := by
                  rintro rfl
                  exact hpath rfl
                exact ⟨offset, file, (Function.update_of_ne hij _ _).trans hoffset,
                  (Finmap.lookup_insert_of_ne _ (Ne.symm hpath)).trans hfile, hle, hwritten⟩

theorem Written.run (hagree : Agree task) (h : Written task i s)
    (hevents : ∀ j, .opens j ∈ events → (task j).path ≠ (task i).path) :
    Written task i (run hole task path events s) := by
  induction events generalizing s with
  | nil => exact h
  | cons e events ih =>
      refine ih (h.step hagree ?_) fun j hj => hevents j (List.mem_cons_of_mem e hj)
      rintro j rfl
      exact hevents j List.mem_cons_self

/-- When the writer that opened a file last is through, the file is whole,
whatever the others are at. -/
theorem lookup_run_of_through (hagree : Agree task) (hs : Sound hole task path s)
    (hlater : ∀ j, .opens j ∈ later → (task j).path ≠ (task i).path)
    (hthrough : (SharedFiles.run hole task path (events ++ .opens i :: later) s).offsets i =
      some (task i).contents.length) :
    (SharedFiles.run hole task path (events ++ .opens i :: later) s).files.lookup (task i).path =
      some (task i).contents := by
  have hsound := hs.run hagree (events ++ .opens i :: later)
  rw [run_append, run_cons] at hthrough hsound ⊢
  have hopened : Written task i
      (SharedFiles.step hole task path (SharedFiles.run hole task path events s) (.opens i)) :=
    ⟨0, [], Function.update_self .., Finmap.lookup_insert _, Nat.zero_le _, nofun⟩
  obtain ⟨offset, file, hoffset, hfile, -, hwritten⟩ := hopened.run hagree hlater
  rw [hthrough, Option.some.injEq] at hoffset
  subst hoffset
  rw [hfile]
  have hlength := (hsound.files i file hfile).1
  congr 1
  apply List.ext_getElem?
  intro n
  rcases lt_or_ge n (task i).contents.length with hn | hn
  · exact hwritten n hn
  · rw [List.getElem?_eq_none hn, List.getElem?_eq_none (by omega)]

/-! ### Alone -/

theorem writeAt_take {contents : List β} {n : ℕ} {b : β} (hb : contents[n]? = some b) :
    writeAt hole (contents.take n) n b = contents.take (n + 1) := by
  have hn := (List.getElem?_eq_some_iff.mp hb).1
  have hlength : (contents.take n).length = n := by
    rw [List.length_take]
    omega
  rw [writeAt, List.take_of_length_le (by omega), hlength, Nat.sub_self, List.replicate_zero,
    List.append_nil, List.drop_of_length_le (by omega), List.take_add_one, hb]
  rfl

theorem run_opens_writes (s : State ι κ β) (i : ι) (n : ℕ) :
    run hole task path (.opens i :: List.replicate n (.writes i)) s =
      { s with
        files := s.files.insert (task i).path ((task i).contents.take n)
        offsets := Function.update s.offsets i (some (min n (task i).contents.length)) } := by
  induction n with
  | zero => rw [Nat.zero_min, List.take_zero]; rfl
  | succ n ih =>
      rw [List.replicate_succ', ← List.cons_append, run_append, ih, run_cons, run_nil]
      simp only [step, Function.update_self, Finmap.lookup_insert, Option.getD_some]
      rcases lt_or_ge n (task i).contents.length with hn | hn
      · have hb := List.getElem?_eq_getElem hn
        rw [min_eq_left hn.le, min_eq_left hn, hb]
        simp only [Finmap.insert_insert, Function.update_idem, writeAt_take hb]
      · rw [min_eq_right hn, min_eq_right (by omega), List.getElem?_eq_none (le_refl _),
          List.take_of_length_le hn, List.take_of_length_le (by omega)]

theorem run_reads_reading {file : List β} (hfile : s.files.lookup path = some file)
    (hready : s.reader = .ready) {n : ℕ} (hn : n ≤ file.length) :
    run hole task path (List.replicate (n + 1) .reads) s =
      { s with reader := .reading (file.take n) } := by
  induction n with
  | zero =>
      show { s with reader := look (s.files.lookup path) s.reader } = _
      rw [hfile, hready]
      rfl
  | succ n ih =>
      have hb := List.getElem?_eq_getElem hn
      have hlength : (file.take n).length = n := by
        rw [List.length_take]
        omega
      rw [List.replicate_succ', run_append, ih (by omega), run_cons, run_nil]
      show { s with reader := look (s.files.lookup path) (.reading (file.take n)) } = _
      rw [hfile, look, Option.getD_some, hlength, hb, List.take_add_one, hb]
      rfl

theorem reader_run_reads {file : List β} (hfile : s.files.lookup path = some file)
    (hready : s.reader = .ready) {n : ℕ} (hn : file.length + 2 ≤ n) :
    (run hole task path (List.replicate n .reads) s).reader = .finished (some file) := by
  obtain ⟨k, rfl⟩ := Nat.exists_eq_add_of_le hn
  induction k with
  | zero =>
      rw [Nat.add_zero, List.replicate_succ', run_append,
        run_reads_reading hfile hready (le_refl _), run_cons, run_nil]
      show look (s.files.lookup path) (.reading (file.take file.length)) = _
      rw [hfile, List.take_length, look, Option.getD_some, List.getElem?_eq_none (le_refl _)]
  | succ k ih =>
      rw [← Nat.add_assoc, List.replicate_succ', run_append, run_cons, run_nil]
      show look _ (run hole task path _ s).reader = _
      rw [ih (by omega)]
      rfl

end

end SharedFiles
