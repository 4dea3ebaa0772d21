import Mathlib.Data.Finmap

/-!
Files by the text of their paths, as Unix writes it. A name joined to a
directory is the last segment of the path it makes. A file is written by
creating or truncating it and then filling it; a write that fails may have
done the first and part of the second.
-/

namespace Files

/-! ### Text -/

/-- What follows `affix` in a text that starts with it. -/
def stripPrefix (affix s : String) : Option String :=
  if affix.toList <+: s.toList then some (String.ofList (s.toList.drop affix.toList.length))
  else none

def stripSuffix (affix s : String) : Option String :=
  if affix.toList <:+ s.toList then
    some (String.ofList (s.toList.take (s.toList.length - affix.toList.length)))
  else none

/-- What follows the last separator, the whole text if there is none. -/
def lastSegment (s : String) : String :=
  String.ofList (s.toList.reverse.takeWhile (· ≠ '/')).reverse

def decodeUtf8 (bytes : List UInt8) : Option String := String.fromUTF8? ⟨bytes.toArray⟩

section

variable {affix s t : String} {bytes : List UInt8}

@[simp] theorem stripPrefix_append : stripPrefix affix (affix ++ s) = some s := by
  rw [stripPrefix, String.toList_append, if_pos (List.prefix_append _ _), List.drop_left,
    String.ofList_toList]

@[simp] theorem stripSuffix_append : stripSuffix affix (s ++ affix) = some s := by
  rw [stripSuffix, String.toList_append, if_pos (List.suffix_append _ _), List.length_append,
    Nat.add_sub_cancel, List.take_left, String.ofList_toList]

theorem stripSuffix_eq_none {c : Char} (haffix : c ∈ affix.toList) (hs : c ∉ s.toList) :
    stripSuffix affix s = none :=
  if_neg fun h => hs (h.subset haffix)

theorem lastSegment_append (hs : s.toList.getLast? = some '/') (ht : '/' ∉ t.toList) :
    lastSegment (s ++ t) = t := by
  obtain ⟨directory, hs⟩ := List.getLast?_eq_some_iff.mp hs
  have htail : ∀ c ∈ t.toList.reverse, decide (c ≠ '/') = true := by
    intro c hc
    rw [decide_eq_true_iff]
    rintro rfl
    exact ht (List.mem_reverse.mp hc)
  rw [lastSegment, String.toList_append, hs, List.reverse_append, List.reverse_append,
    List.takeWhile_append_of_pos htail]
  simp

theorem decodeUtf8_eq_some : decodeUtf8 bytes = some s ↔ bytes = s.toUTF8.data.toList := by
  rw [decodeUtf8, String.fromUTF8?]
  constructor
  · intro h
    split at h
    · obtain rfl := Option.some.inj h
      rfl
    · cases h
  · rintro rfl
    exact dif_pos s.isValidUTF8

theorem eq_zero_of_mem_utf8EncodeChar {c : Char} (h : 0 ∈ String.utf8EncodeChar c) :
    c = Char.ofNat 0 := by
  rw [String.utf8EncodeChar] at h
  -- every byte of a longer encoding carries a marker
  split_ifs at h <;> simp only [List.mem_cons, List.not_mem_nil, or_false, ← UInt8.toNat_inj,
    UInt8.toNat_ofNat', UInt8.toNat_zero] at h
  · apply Char.toNat_inj.mp
    show c.val.toNat = 0
    omega
  all_goals omega

theorem zero_mem_of_decodeUtf8 (h : decodeUtf8 bytes = some s) (hzero : 0 ∈ bytes) :
    Char.ofNat 0 ∈ s.toList := by
  rw [decodeUtf8_eq_some.mp h, String.toUTF8, ← String.utf8Encode_toList, List.utf8Encode,
    List.toList_data_toByteArray, List.mem_flatMap] at hzero
  obtain ⟨c, hc, hzero⟩ := hzero
  rw [← eq_zero_of_mem_utf8EncodeChar hzero]
  exact hc

theorem prefix_of_decodeUtf8_take {n : ℕ}
    (h : decodeUtf8 (s.toUTF8.data.toList.take n) = some t) : t.toList <+: s.toList := by
  have htaken := decodeUtf8_eq_some.mp h
  apply List.isPrefix_of_utf8Encode_append_eq_utf8Encode
    (s.toUTF8.data.toList.drop n).toByteArray
  rw [String.utf8Encode_toList, String.utf8Encode_toList]
  apply ByteArray.ext
  apply Array.toList_inj.mp
  rw [ByteArray.toList_data_append, List.toList_data_toByteArray, ← String.toUTF8, ← htaken]
  exact List.take_append_drop n _

end

/-! ### Paths -/

/-- A directory with what a name is put behind: it needs a separator unless it
is empty or ends with one. -/
def directory (root : String) : String :=
  if root.toList.getLast? = none ∨ root.toList.getLast? = some '/' then root else root ++ "/"

/-- `Path::join`. An absolute name takes the place of the directory. -/
def join (root name : String) : String :=
  if name.toList.head? = some '/' then name else directory root ++ name

theorem join_of_relative {root name : String} (h : '/' ∉ name.toList) :
    join root name = directory root ++ name :=
  if_neg fun hhead => h (List.mem_of_head? hhead)

example : join "" "a" = "a" ∧ join "r" "a" = join "r/" "a" ∧ join "r" "/a" = "/a" := by decide

theorem getLast?_append_directory {s : String} (hs : s.toList.getLast? = some '/')
    (root : String) : (s ++ directory root).toList.getLast? = some '/' := by
  rw [String.toList_append, List.getLast?_append, hs, directory]
  split
  · rename_i hroot
    rcases hroot with hroot | hroot
    · rw [hroot, Option.none_or]
    · rw [hroot, Option.some_or]
  · rw [String.toList_append, List.getLast?_append]
    rfl

/-! ### Files -/

abbrev FileSystem := Finmap fun _ : String => List UInt8

/-- Where a write can fail: before the file is created or truncated, or with so
many of the bytes in it. -/
inductive WriteFault (ε : Type)
  | openFile (error : ε)
  | writeAll (written : ℕ) (error : ε)

variable {ε : Type}

def write (path : String) (bytes : List UInt8) (fault : Option (WriteFault ε))
    (files : FileSystem) : Except ε Unit × FileSystem :=
  match fault with
  | some (.openFile e) => (.error e, files)
  -- whatever the file held before is gone by the time a byte is written
  | some (.writeAll written e) => (.error e, files.insert path (bytes.take written))
  | none => (.ok (), files.insert path bytes)

section

variable {path path' : String} {bytes old : List UInt8} {fault : Option (WriteFault ε)}
  {files : FileSystem}

@[simp] theorem write_none :
    write path bytes (none : Option (WriteFault ε)) files = (.ok (), files.insert path bytes) := rfl

theorem lookup_write_of_ne (h : path' ≠ path) :
    (write path bytes fault files).2.lookup path' = files.lookup path' := by
  rcases fault with _ | ⟨e⟩ | ⟨written, e⟩
  · exact Finmap.lookup_insert_of_ne files h
  · rfl
  · exact Finmap.lookup_insert_of_ne files h

/-- What a failed write spares of its own file: all of it when the file was not
opened, and otherwise a file that already was what got written. -/
theorem lookup_write_of_error {e : ε} (hold : files.lookup path = some old)
    (hfailed : (write path bytes fault files).1 = .error e) :
    (write path bytes fault files).2.lookup path = some old ↔
      ∀ written e', fault = some (.writeAll written e') → bytes.take written = old := by
  rcases fault with _ | ⟨e⟩ | ⟨written, e⟩
  · cases hfailed
  · exact iff_of_true hold nofun
  · rw [write, Finmap.lookup_insert, Option.some.injEq]
    constructor
    · rintro hwritten _ _ h
      obtain ⟨rfl, -⟩ := WriteFault.writeAll.inj (Option.some.inj h)
      exact hwritten
    · exact fun h => h written e rfl

end

end Files
